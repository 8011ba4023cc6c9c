import SchemaHeader.Batch
import SchemaHeader.Proofs.Disk.Walk

/-! Where the name of a header leads from the directory that it is put in. -/
namespace SchemaHeader

namespace Path

/-- The segments that lead somewhere. -/
def steps (p : Path) : List String := p.segments.filter (!isIdle ·)

theorem ofText_of_not_rooted {s : String} (h : (ofText s).rooted = false) :
    (ofText s).segments = (s.toList.splitOn '/').map String.ofList := by
  rw [ofText] at h ⊢
  split at h
  · cases h
  · rfl

/-- A text is cut at each slash of it. -/
theorem splitOn_append_slash (cs rest : List Char) :
    (cs ++ '/' :: rest).splitOn '/' = cs.splitOn '/' ++ rest.splitOn '/' :=
  List.splitOnP_append_cons cs rest (beq_self_eq_true '/')

/-- What is added without a slash goes to the last piece. -/
theorem exists_splitOn_append (cs : List Char) {added : List Char} (h : '/' ∉ added) :
    ∃ front last, (cs ++ added).splitOn '/' = front ++ [last ++ added] := by
  induction cs with
  | nil =>
    refine ⟨[], [], List.splitOnP_eq_singleton fun c hc => ?_⟩
    exact beq_eq_false_iff_ne.mpr fun heq => h (heq ▸ hc)
  | cons c cs ih =>
    obtain ⟨front, last, hsplit⟩ := ih
    rw [List.splitOn] at hsplit ⊢
    rw [List.cons_append, List.splitOnP_cons_eq_if_modifyHead, hsplit]
    by_cases hc : c = '/'
    · exact ⟨[] :: front, last, by simp [hc]⟩
    · cases front with
      | nil => exact ⟨[], c :: last, by simp [hc]⟩
      | cons first front => exact ⟨(c :: first) :: front, last, by simp [hc]⟩

/-- What comes before a slash says nothing of what comes after it, and is a path by itself. -/
theorem exists_ofText_append_slash (cs : List Char) : ∃ rooted above,
    (cs ≠ [] → ofText (String.ofList cs) = ⟨rooted, above⟩) ∧
    ∀ rest : List Char, ofText (String.ofList (cs ++ '/' :: rest)) =
      ⟨rooted, above ++ (rest.splitOn '/').map String.ofList⟩ := by
  cases cs with
  | nil => exact ⟨true, [], fun h => (h rfl).elim, fun rest => by simp [ofText]⟩
  | cons c cs =>
    by_cases hc : c = '/'
    · subst hc
      exact ⟨true, (cs.splitOn '/').map String.ofList, fun _ => by simp [ofText],
        fun rest => by simp [ofText, splitOn_append_slash]⟩
    · refine ⟨false, ((c :: cs).splitOn '/').map String.ofList, fun _ => ?_, fun rest => ?_⟩
      · simp only [ofText, String.toList_ofList]
        split
        · next h => exact (hc (List.head_eq_of_cons_eq h)).elim
        · rfl
      · simp only [ofText, String.toList_ofList, List.cons_append]
        split
        · next h => exact (hc (List.head_eq_of_cons_eq h)).elim
        · rw [← List.cons_append, splitOn_append_slash, List.map_append]

end Path

namespace Batch

theorem not_rooted_of_not_escapes {name : String} (h : escapes name = false) :
    (Path.ofText name).rooted = false := by
  simp only [escapes, Bool.or_eq_false_iff] at h
  exact h.1.2

theorem up_not_mem_of_not_escapes {name : String} (h : escapes name = false) :
    ".." ∉ (Path.ofText name).segments := by
  simp only [escapes, Bool.or_eq_false_iff] at h
  simpa using h.2

/-- There is one slash between the directory and the name. -/
theorem exists_destination_eq (directory : String) : ∃ cs : List Char,
    (directory.toList = cs ∨ directory.toList = cs ++ ['/']) ∧
    ∀ name, destination directory name = String.ofList (cs ++ '/' :: name.toList) := by
  by_cases hslash : directory.toList.getLast? = some '/'
  · have hdirectory : directory.toList.dropLast ++ ['/'] = directory.toList :=
      List.dropLast_append_getLast? _ hslash
    refine ⟨directory.toList.dropLast, Or.inr hdirectory.symm,
      fun name => String.toList_injective ?_⟩
    rw [destination, if_pos hslash, String.toList_append, String.toList_ofList, List.append_cons,
      hdirectory]
  · refine ⟨directory.toList, Or.inl rfl, fun name => String.toList_injective ?_⟩
    rw [destination, if_neg hslash]
    simp

/-- The path of a name starts with that of its directory. -/
theorem exists_ofText_destination (directory : String) :
    ∃ rooted above,
      (directory ≠ "" → ∃ idle, (∀ segment ∈ idle, Path.isIdle segment) ∧
        Path.ofText directory = ⟨rooted, above ++ idle⟩) ∧
      ∀ name, escapes name = false → Path.ofText (destination directory name) =
        ⟨rooted, above ++ (Path.ofText name).segments⟩ := by
  obtain ⟨cs, hdirectory, hcs⟩ := exists_destination_eq directory
  obtain ⟨rooted, above, halone, habove⟩ := Path.exists_ofText_append_slash cs
  refine ⟨rooted, above, fun hne => ?_, fun name hname => ?_⟩
  · obtain hdirectory | hdirectory := hdirectory
    · refine ⟨[], by simp, ?_⟩
      rw [List.append_nil, ← halone (by simpa [← hdirectory] using hne), ← hdirectory,
        String.ofList_toList]
    · refine ⟨[""], by simp [Path.isIdle], ?_⟩
      rw [← String.ofList_toList (s := directory), hdirectory, habove]
      rfl
  · rw [hcs, habove, Path.ofText_of_not_rooted (not_rooted_of_not_escapes hname)]

/-- The name of a header leads to something below its directory. -/
theorem steps_ne_nil {name : String} (h : escapes (name ++ ".h") = false) :
    (Path.ofText (name ++ ".h")).steps ≠ [] := by
  obtain ⟨front, last, hsplit⟩ := Path.exists_splitOn_append name.toList
    (show '/' ∉ ".h".toList by decide)
  have hlong : last ++ ['.', 'h'] ≠ ['.'] := fun heq => by
    simpa using congrArg List.length heq
  have hmem : String.ofList (last ++ ".h".toList) ∈ (Path.ofText (name ++ ".h")).steps := by
    rw [Path.steps, Path.ofText_of_not_rooted (not_rooted_of_not_escapes h), String.toList_append,
      hsplit]
    simp [Path.isIdle, String.ext_iff, hlong]
  exact List.ne_nil_of_mem hmem

/-- What a name leads to lies below its directory by the names among its segments. -/
theorem placeOf_destination {directory name : String} (disk : Disk) (hdirectory : directory ≠ "")
    (hname : escapes name = false) :
    disk.placeOf (Path.ofText (destination directory name)) =
      (Path.ofText name).steps.reverse ++ disk.placeOf (Path.ofText directory) := by
  obtain ⟨rooted, above, halone, habove⟩ := exists_ofText_destination directory
  obtain ⟨idle, hidle, hpath⟩ := halone hdirectory
  rw [habove name hname, hpath, Disk.placeOf, Disk.placeOf, Path.walk_append, Path.walk_append,
    Path.walk_of_idle hidle, Path.walk_eq (up_not_mem_of_not_escapes hname)]
  rfl

/-- Only what goes up in the path of the directory goes up in that of the name. -/
theorem exists_up_of_destination {directory name : String} {above below : List String}
    (hdirectory : directory ≠ "") (hname : escapes name = false)
    (h : (Path.ofText (destination directory name)).segments = above ++ ".." :: below) :
    (Path.ofText directory).rooted = (Path.ofText (destination directory name)).rooted ∧
      ∃ more, (Path.ofText directory).segments = above ++ ".." :: more := by
  obtain ⟨rooted, front, halone, hfront⟩ := exists_ofText_destination directory
  obtain ⟨idle, -, hpath⟩ := halone hdirectory
  rw [hfront name hname] at h ⊢
  rw [hpath]
  refine ⟨rfl, ?_⟩
  obtain ⟨_, hsplit, hrest⟩ | ⟨more, hsplit, hrest⟩ := List.append_eq_append_iff.mp h
  · exact (up_not_mem_of_not_escapes hname (by simp [hrest])).elim
  · cases more with
    | nil =>
      have hmem : ".." ∈ [] ++ (Path.ofText name).segments := hrest ▸ List.mem_cons_self
      exact (up_not_mem_of_not_escapes hname hmem).elim
    | cons segment more =>
      obtain ⟨rfl, -⟩ := List.cons.inj hrest
      exact ⟨more ++ idle, by simp [hsplit]⟩

/-- A name stays below its directory when it is not empty, does not start with a slash and no
segment of it leads up. -/
theorem escapes_eq_false_iff {name : String} : escapes name = false ↔
    name ≠ "" ∧ name.toList.head? ≠ some '/' ∧
      ".." ∉ (name.toList.splitOn '/').map String.ofList := by
  constructor
  · intro h
    have hrooted := not_rooted_of_not_escapes h
    have hup := up_not_mem_of_not_escapes h
    rw [Path.ofText_of_not_rooted hrooted] at hup
    refine ⟨?_, fun hslash => ?_, hup⟩
    · rintro rfl
      cases h
    · obtain ⟨rest, hrest⟩ := List.head?_eq_some_iff.mp hslash
      simp [Path.ofText, hrest] at hrooted
  · rintro ⟨hne, hslash, hup⟩
    have hrooted : (Path.ofText name).rooted = false := by
      rw [Path.ofText]
      split
      · next h => simp [h] at hslash
      · rfl
    rw [← Path.ofText_of_not_rooted hrooted] at hup
    simpa [escapes, hrooted, hup] using hne

end Batch

namespace Disk

variable {disk : Disk} {target : Place}

/-- Two names lead to one place from a directory when they have the same steps. -/
theorem find_destination_eq_iff {directory name other : String} {next : Place}
    (hname : Batch.escapes name = false) (hother : Batch.escapes other = false)
    (hfind : disk.find (Path.ofText (Batch.destination directory name)) = .ok target)
    (hnext : disk.find (Path.ofText (Batch.destination directory other)) = .ok next) :
    target = next ↔ (Path.ofText name).steps = (Path.ofText other).steps := by
  obtain ⟨rooted, above, -, habove⟩ := Batch.exists_ofText_destination directory
  rw [find_eq_ok_iff, habove _ hname, List.foldlM_append, bind_eq_ok_iff] at hfind
  rw [find_eq_ok_iff, habove _ hother, List.foldlM_append, bind_eq_ok_iff] at hnext
  obtain ⟨-, place, hplace, htarget⟩ := hfind
  obtain ⟨-, same, hsame, hnext⟩ := hnext
  obtain rfl : place = same := Except.ok.inj (hplace.symm.trans hsame)
  rw [foldlM_step_eq_walk htarget, foldlM_step_eq_walk hnext,
    Path.walk_eq (Batch.up_not_mem_of_not_escapes hname),
    Path.walk_eq (Batch.up_not_mem_of_not_escapes hother), List.append_left_inj, List.reverse_inj]
  rfl

end Disk

end SchemaHeader
