import Mathlib.Logic.Relation
import SchemaHeader.Proofs.Text.Segments

/-! The segments of a text as the runs between its delimiters. Delimiters at the ends of the text
and next to others have no part in them. -/
namespace SchemaHeader.Text

/-- A text that can stand between delimiters: it has none itself and is not empty. -/
def IsRun (d : Char) (run : String) : Prop := run ≠ "" ∧ d ∉ run.toList

/-- Runs with the delimiters behind each, as many as the number beside it says. -/
def spread (d : Char) (parts : List (String × Nat)) : List Char :=
  parts.flatMap fun part => part.1.toList ++ List.replicate part.2 d

/-- The text is these runs in order, with at least one delimiter between any two of them and any
number before the first and behind the last. -/
def IsSpaced (d : Char) (runs : List String) (s : String) : Prop :=
  ∃ (lead : Nat) (parts : List (String × Nat)), parts.map Prod.fst = runs ∧
    (∀ part ∈ parts.dropLast, 0 < part.2) ∧ s.toList = List.replicate lead d ++ spread d parts

/-- One more delimiter, at the front, at the end or next to another one. -/
inductive Respaced (d : Char) : List Char → List Char → Prop
  | front (cs : List Char) : Respaced d cs (d :: cs)
  | back (cs : List Char) : Respaced d cs (cs ++ [d])
  | beside (before after : List Char) :
    Respaced d (before ++ d :: after) (before ++ d :: d :: after)

variable {c d : Char} {s t run : String} {runs : List String} {xs ys : List Char}

section Segments

/-- A delimiter cuts the segments in two. -/
theorem segments_append_cons (xs ys : List Char) : segments (String.ofList (xs ++ d :: ys)) d =
    segments (String.ofList xs) d ++ segments (String.ofList ys) d := by
  simp [segments, List.splitOn_append_cons_self]

theorem segments_of_respaced (h : Respaced d xs ys) :
    segments (String.ofList xs) d = segments (String.ofList ys) d := by
  have hfront (cs : List Char) : segments (String.ofList (d :: cs)) d =
      segments (String.ofList cs) d := segments_append_cons [] cs
  cases h with
  | front => exact (hfront xs).symm
  | back =>
    rw [segments_append_cons]
    exact (List.append_nil _).symm
  | beside before after => rw [segments_append_cons, segments_append_cons, hfront]

/-- Spacing delimiters in another way leaves the segments as they are. -/
theorem segments_of_eqvGen (h : Relation.EqvGen (Respaced d) xs ys) :
    segments (String.ofList xs) d = segments (String.ofList ys) d := by
  induction h with
  | rel xs ys h => exact segments_of_respaced h
  | refl xs => rfl
  | symm xs ys _ ih => exact ih.symm
  | trans xs ys zs _ _ ih ih' => exact ih.trans ih'

/-- Runs that are joined are found again. -/
theorem segments_intercalate (hruns : ∀ run ∈ runs, IsRun d run) :
    segments ((String.singleton d).intercalate runs) d = runs := by
  cases runs with
  | nil => rfl
  | cons first rest =>
    have hsplit : ([d].intercalate ((first :: rest).map String.toList)).splitOn d =
        (first :: rest).map String.toList := by
      apply List.splitOn_intercalate
      · simpa using fun run hrun => (hruns run hrun).2
      · simp
    have hfilter : ((first :: rest).map String.toList).filter (!·.isEmpty) =
        (first :: rest).map String.toList := by
      rw [List.filter_eq_self]
      simpa using fun run hrun => (hruns run hrun).1
    rw [segments, String.toList_intercalate, String.toList_singleton, hsplit, hfilter]
    simp [Function.comp_def]

end Segments

section Spacing

theorem eqvGen_front (k : Nat) (cs : List Char) :
    Relation.EqvGen (Respaced d) cs (List.replicate k d ++ cs) := by
  induction k with
  | zero => exact .refl _
  | succ k ih => exact .trans _ _ _ ih (.rel _ _ (.front _))

theorem eqvGen_back (k : Nat) (cs : List Char) :
    Relation.EqvGen (Respaced d) cs (cs ++ List.replicate k d) := by
  induction k with
  | zero => simpa using Relation.EqvGen.refl cs
  | succ k ih =>
    have hlast : Respaced d (cs ++ List.replicate k d) (cs ++ List.replicate (k + 1) d) := by
      rw [List.replicate_succ', ← List.append_assoc]
      exact .back _
    exact .trans _ _ _ ih (.rel _ _ hlast)

theorem eqvGen_beside (k : Nat) (before after : List Char) : Relation.EqvGen (Respaced d)
    (before ++ d :: after) (before ++ (List.replicate (k + 1) d ++ after)) := by
  induction k with
  | zero => exact .refl _
  | succ k ih => exact .trans _ _ _ ih (.rel _ _ (.beside before (List.replicate k d ++ after)))

/-- However far apart runs are, they can be moved together until one delimiter is between two of
them and none at the end. -/
theorem eqvGen_spread {parts : List (String × Nat)} (before : List Char)
    (hapart : ∀ part ∈ parts.dropLast, 0 < part.2) : Relation.EqvGen (Respaced d)
      (before ++ [d].intercalate (parts.map (·.1.toList))) (before ++ spread d parts) := by
  induction parts generalizing before with
  | nil => exact .refl _
  | cons part rest ih =>
    obtain ⟨run, gap⟩ := part
    cases rest with
    | nil =>
      have := eqvGen_back (d := d) gap (before ++ run.toList)
      simpa [spread] using this
    | cons next more =>
      rw [List.dropLast_cons_cons, List.forall_mem_cons] at hapart
      obtain ⟨k, rfl⟩ := Nat.exists_eq_succ_of_ne_zero (Nat.ne_of_gt hapart.1)
      have hrest := ih (before ++ run.toList ++ [d]) hapart.2
      have hgap := eqvGen_beside (d := d) k (before ++ run.toList) (spread d (next :: more))
      simp only [List.append_assoc, List.singleton_append] at hrest hgap
      have := Relation.EqvGen.trans _ _ _ hrest hgap
      simpa [spread, List.intercalate_cons_cons] using this

theorem isRun_singleton (hc : c ≠ d) : IsRun d (String.singleton c) := by
  simp [IsRun, Ne.symm hc]

theorem IsRun.cons (hc : c ≠ d) (h : IsRun d run) : IsRun d (String.singleton c ++ run) := by
  simp [IsRun, Ne.symm hc, h.2]

/-- A character before a spread begins a run of its own or joins the first one. -/
theorem exists_spread_cons (hc : c ≠ d) (lead : Nat) {parts : List (String × Nat)}
    (hruns : ∀ part ∈ parts, IsRun d part.1) (hapart : ∀ part ∈ parts.dropLast, 0 < part.2) :
    ∃ more : List (String × Nat), (∀ part ∈ more, IsRun d part.1) ∧
      (∀ part ∈ more.dropLast, 0 < part.2) ∧
        c :: (List.replicate lead d ++ spread d parts) = spread d more := by
  cases parts with
  | nil =>
    exact ⟨[(String.singleton c, lead)], by simpa using isRun_singleton hc, by simp,
      by simp [spread]⟩
  | cons part rest =>
    cases lead with
    | zero =>
      obtain ⟨hrun, hrest⟩ := List.forall_mem_cons.mp hruns
      refine ⟨(String.singleton c ++ part.1, part.2) :: rest,
        List.forall_mem_cons.mpr ⟨hrun.cons hc, hrest⟩, ?_, by simp [spread]⟩
      cases rest with
      | nil => exact List.forall_mem_nil _
      | cons next rest => simpa using hapart
    | succ lead =>
      exact ⟨(String.singleton c, lead + 1) :: part :: rest,
        List.forall_mem_cons.mpr ⟨isRun_singleton hc, hruns⟩, by simpa using hapart,
        by simp [spread]⟩

/-- Every text is a spread of its runs, by induction on its characters. -/
theorem exists_spread (cs : List Char) : ∃ (lead : Nat) (parts : List (String × Nat)),
    (∀ part ∈ parts, IsRun d part.1) ∧ (∀ part ∈ parts.dropLast, 0 < part.2) ∧
      cs = List.replicate lead d ++ spread d parts := by
  induction cs with
  | nil => exact ⟨0, [], by simp [spread]⟩
  | cons c rest ih =>
    obtain ⟨lead, parts, hruns, hapart, rfl⟩ := ih
    by_cases hc : c = d
    · exact ⟨lead + 1, parts, hruns, hapart, by rw [hc]; rfl⟩
    · obtain ⟨more, hmore, hapart', heq⟩ := exists_spread_cons hc lead hruns hapart
      exact ⟨0, more, hmore, hapart', heq⟩

end Spacing

/-- Every spacing of runs comes from joining them by single delimiters. -/
theorem eqvGen_of_isSpaced (h : IsSpaced d runs s) : Relation.EqvGen (Respaced d)
    ((String.singleton d).intercalate runs).toList s.toList := by
  obtain ⟨lead, parts, rfl, hapart, hs⟩ := h
  have hclose := eqvGen_spread (d := d) [] hapart
  rw [hs]
  refine .trans _ _ _ ?_ (eqvGen_front lead (spread d parts))
  simpa [String.toList_intercalate, Function.comp_def] using hclose

theorem segments_of_isSpaced (hruns : ∀ run ∈ runs, IsRun d run) (h : IsSpaced d runs s) :
    segments s d = runs := by
  have hsame := segments_of_eqvGen (eqvGen_of_isSpaced h)
  rw [String.ofList_toList, String.ofList_toList, segments_intercalate hruns] at hsame
  exact hsame.symm

/-- Every text is made of its segments, and of no other runs. -/
theorem segments_eq_iff :
    segments s d = runs ↔ (∀ run ∈ runs, IsRun d run) ∧ IsSpaced d runs s := by
  constructor
  · rintro rfl
    obtain ⟨lead, parts, hruns, hapart, hs⟩ := exists_spread (d := d) s.toList
    have hparts : ∀ run ∈ parts.map Prod.fst, IsRun d run := by
      simpa using fun run gap hpart => hruns (run, gap) hpart
    have hspaced : IsSpaced d (parts.map Prod.fst) s := ⟨lead, parts, rfl, hapart, hs⟩
    rw [segments_of_isSpaced hparts hspaced]
    exact ⟨hparts, hspaced⟩
  · rintro ⟨hruns, h⟩
    exact segments_of_isSpaced hruns h

theorem segments_eq_nil_iff : segments s d = [] ↔ ∀ c ∈ s.toList, c = d := by
  rw [segments_eq_iff]
  constructor
  · rintro ⟨-, lead, parts, hnone, -, hs⟩ c hc
    rw [List.map_eq_nil_iff] at hnone
    rw [hs, hnone] at hc
    exact List.eq_of_mem_replicate (by simpa [spread] using hc)
  · intro h
    refine ⟨List.forall_mem_nil _, s.toList.length, [], rfl, List.forall_mem_nil _, ?_⟩
    rw [spread, List.flatMap_nil, List.append_nil]
    exact List.eq_replicate_of_mem h

theorem segments_rejoined :
    segments ((String.singleton d).intercalate (segments s d)) d = segments s d :=
  segments_intercalate (segments_eq_iff.mp rfl).1

/-- Texts have the same segments just when they differ in delimiters at the ends and in how many
there are where there is one. -/
theorem segments_eq_segments_iff :
    segments s d = segments t d ↔ Relation.EqvGen (Respaced d) s.toList t.toList := by
  constructor
  · intro h
    have hs : IsSpaced d (segments t d) s := (segments_eq_iff.mp h).2
    have ht : IsSpaced d (segments t d) t := (segments_eq_iff.mp rfl).2
    exact .trans _ _ _ (.symm _ _ (eqvGen_of_isSpaced hs)) (eqvGen_of_isSpaced ht)
  · intro h
    simpa using segments_of_eqvGen h

end SchemaHeader.Text
