import Mathlib.Data.List.Basic

/-! Cutting the lines of elements off the front of a list of lines, where the line that comes next
shows that an element has ended. -/
namespace SchemaHeader

variable {α β γ δ κ : Type} {lines : α → List String} {gist : α → β} {mark : String → κ}
  {k j : κ} {xs ys : List α} {x y : α} {first r s : List String}

/-- Where the lines of either element come first, both have the same gist and the same lines come
after them. -/
def Agree (lines : α → List String) (gist : α → β) (x y : α) : Prop :=
  ∀ r s, lines x ++ r = lines y ++ s → gist x = gist y ∧ r = s

def headMark (mark : String → κ) (ls : List String) : Option κ := ls.head?.map mark

theorem headMark_append (h : headMark mark first = some k) :
    headMark mark (first ++ r) = some k := by
  cases first with
  | nil => cases h
  | cons l ls => exact h

theorem headMark_flatMap_ne (hkj : k ≠ j) (hxs : ∀ x ∈ xs, headMark mark (lines x) = some k)
    (hr : headMark mark r ≠ some j) : headMark mark (xs.flatMap lines ++ r) ≠ some j := by
  cases xs with
  | nil => exact hr
  | cons x xs =>
    rw [List.flatMap_cons, List.append_assoc, headMark_append (hxs x List.mem_cons_self)]
    simpa using hkj

/-- A run of elements ends at the first line that begins none of them. -/
theorem agree_flatMap (mark : String → κ) (hxs : ∀ x ∈ xs, headMark mark (lines x) = some k)
    (hys : ∀ y ∈ ys, headMark mark (lines y) = some k) (hr : headMark mark r ≠ some k)
    (hs : headMark mark s ≠ some k) (hagree : ∀ x ∈ xs, ∀ y ∈ ys, Agree lines gist x y)
    (h : xs.flatMap lines ++ r = ys.flatMap lines ++ s) : xs.map gist = ys.map gist ∧ r = s := by
  induction xs generalizing ys with
  | nil =>
    cases ys with
    | nil => exact ⟨rfl, h⟩
    | cons y ys =>
      rw [List.flatMap_nil, List.nil_append, List.flatMap_cons, List.append_assoc] at h
      rw [h, headMark_append (hys y List.mem_cons_self)] at hr
      exact (hr rfl).elim
  | cons x xs ih =>
    cases ys with
    | nil =>
      rw [List.flatMap_nil, List.nil_append, List.flatMap_cons, List.append_assoc] at h
      rw [← h, headMark_append (hxs x List.mem_cons_self)] at hs
      exact (hs rfl).elim
    | cons y ys =>
      rw [List.flatMap_cons, List.flatMap_cons, List.append_assoc, List.append_assoc] at h
      obtain ⟨hgist, hrest⟩ := hagree x List.mem_cons_self y List.mem_cons_self _ _ h
      obtain ⟨hgists, htail⟩ := ih (fun a ha => hxs a (List.mem_cons_of_mem _ ha))
        (fun b hb => hys b (List.mem_cons_of_mem _ hb))
        (fun a ha b hb => hagree a (List.mem_cons_of_mem _ ha) b (List.mem_cons_of_mem _ hb)) hrest
      exact ⟨by rw [List.map_cons, List.map_cons, hgist, hgists], htail⟩

/-- The same of elements that have one line each. -/
theorem agree_map (mark : String → κ) (line : α → String) (gist : α → β)
    (hxs : ∀ x ∈ xs, mark (line x) = k) (hys : ∀ y ∈ ys, mark (line y) = k)
    (hr : headMark mark r ≠ some k) (hs : headMark mark s ≠ some k)
    (hline : ∀ x ∈ xs, ∀ y ∈ ys, line x = line y → gist x = gist y)
    (h : xs.map line ++ r = ys.map line ++ s) : xs.map gist = ys.map gist ∧ r = s := by
  have hhead (zs : List α) (hzs : ∀ z ∈ zs, mark (line z) = k) :
      ∀ z ∈ zs, headMark mark [line z] = some k := fun z hz => congrArg some (hzs z hz)
  rw [List.map_eq_flatMap, List.map_eq_flatMap] at h
  refine agree_flatMap mark (hhead xs hxs) (hhead ys hys) hr hs (fun x hx y hy r s hlines => ?_) h
  obtain ⟨hfirst, htail⟩ := List.cons.inj hlines
  exact ⟨hline x hx y hy hfirst, htail⟩

theorem map_eq_map_of_determined {f : α → β} {g : α → γ} {h : α → δ}
    (hdet : ∀ x y, f x = f y → g x = g y → h x = h y) (hf : xs.map f = ys.map f)
    (hg : xs.map g = ys.map g) : xs.map h = ys.map h := by
  induction xs generalizing ys with
  | nil => simp_all
  | cons x xs ih =>
    cases ys with
    | nil => cases hf
    | cons y ys =>
      rw [List.map_cons, List.map_cons, List.cons.injEq] at hf hg
      rw [List.map_cons, List.map_cons, hdet x y hf.1 hg.1, ih hf.2 hg.2]

end SchemaHeader
