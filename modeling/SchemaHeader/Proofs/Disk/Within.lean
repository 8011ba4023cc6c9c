import SchemaHeader.Proofs.Disk.Change

/-! Disks that can grow into another one. Nothing on such a disk is in the way of what is there in
the end, so that wherever a path leads in the end it leads now, or else something is missing. -/
namespace SchemaHeader.Disk

variable {disk mid later final : Disk} {place next target : Place} {node other : Node}
  {p q : Path} {segment name : String} {segments : List String} {bytes : List UInt8}

section Steps

/-- Segments that lead nowhere end where they start. -/
theorem foldlM_step_idle (hidle : ∀ segment ∈ segments, Path.isIdle segment)
    (h : disk.node? place = some .directory) : segments.foldlM disk.step place = .ok place := by
  induction segments with
  | nil => rfl
  | cons segment rest ih =>
    obtain ⟨hfirst, hrest⟩ := List.forall_mem_cons.mp hidle
    have hstep : disk.step place segment = .ok place :=
      step_eq_ok_iff.mpr ⟨h, Or.inl ⟨hfirst, rfl⟩⟩
    rw [List.foldlM_cons, hstep]
    exact ih hrest

theorem eq_of_foldlM_step_idle (hidle : ∀ segment ∈ segments, Path.isIdle segment)
    (h : segments.foldlM disk.step place = .ok target) : target = place := by
  rw [foldlM_step_eq_walk h, Path.walk_of_idle hidle]

/-- A walk can be cut in two at any of its segments. -/
theorem foldlM_step_append {more : List String} :
    (segments ++ more).foldlM disk.step place = .ok target ↔ ∃ via,
      segments.foldlM disk.step place = .ok via ∧ more.foldlM disk.step via = .ok target := by
  rw [List.foldlM_append, bind_eq_ok_iff]

/-- A way that goes on goes through a directory. -/
theorem directory_of_foldlM_step (hne : segments ≠ [])
    (h : segments.foldlM disk.step place = .ok target) : disk.node? place = some .directory := by
  cases segments with
  | nil => exact (hne rfl).elim
  | cons segment rest =>
    rw [List.foldlM_cons, bind_eq_ok_iff] at h
    obtain ⟨via, hstep, -⟩ := h
    exact (step_eq_ok_iff.mp hstep).1

/-- Segments lead down where all that they go through is there. -/
theorem foldlM_step_down {segments : List String} (hup : ".." ∉ segments)
    (hsize : ∀ segment ∈ segments, segment.utf8ByteSize ≤ nameLimit)
    (hdirs : ∀ above below, segments = above ++ below → below ≠ [] →
      disk.node? (Path.walk place above) = some .directory)
    (hlast : (disk.node? (Path.walk place segments)).isSome) :
    segments.foldlM disk.step place = .ok (Path.walk place segments) := by
  induction segments generalizing place with
  | nil => rfl
  | cons segment rest ih =>
    obtain ⟨hne, hrestUp⟩ := not_or.mp (mt List.mem_cons.mpr hup)
    obtain ⟨hfirst, hrest⟩ := List.forall_mem_cons.mp hsize
    have hdir : disk.node? place = some .directory := hdirs [] _ rfl (by simp)
    have hsome : (disk.node? (Path.advance place segment)).isSome := by
      by_cases hnil : rest = []
      · subst hnil
        exact hlast
      · have hnext : disk.node? (Path.advance place segment) = some .directory :=
          hdirs [segment] rest rfl hnil
        simp [hnext]
    have hstep : disk.step place segment = .ok (Path.advance place segment) := by
      refine step_eq_ok_iff.mpr ⟨hdir, ?_⟩
      by_cases hidle : Path.isIdle segment
      · exact Or.inl ⟨hidle, by simp [Path.advance, hidle]⟩
      · have hadvance : Path.advance place segment = segment :: place := by
          simp [Path.advance, hidle, Ne.symm hne]
        rw [hadvance] at hsome ⊢
        exact Or.inr (Or.inr ⟨hidle, Ne.symm hne, hfirst, hsome, rfl⟩)
    rw [List.foldlM_cons, hstep]
    exact ih hrestUp hrest
      (fun above below hsplit => hdirs (segment :: above) below (by rw [hsplit, List.cons_append]))
      hlast

theorem size_le_of_isIdle (h : Path.isIdle segment) : segment.utf8ByteSize ≤ nameLimit := by
  rw [Path.isIdle, Bool.or_eq_true, decide_eq_true_eq, String.isEmpty_iff] at h
  rcases h with rfl | rfl
  · decide
  · decide

theorem size_le_of_foldlM_step {segments : List String} {segment : String}
    (h : segments.foldlM disk.step place = .ok target) (hsegment : segment ∈ segments) :
    segment.utf8ByteSize ≤ nameLimit := by
  induction segments generalizing place with
  | nil => cases hsegment
  | cons first rest ih =>
    rw [List.foldlM_cons, bind_eq_ok_iff] at h
    obtain ⟨via, hstep, hrest⟩ := h
    obtain rfl | hmem := List.mem_cons.mp hsegment
    · obtain ⟨-, ⟨hidle, -⟩ | ⟨-, rfl, -⟩ | ⟨-, -, hsize, -⟩⟩ := step_eq_ok_iff.mp hstep
      · exact size_le_of_isIdle hidle
      · decide
      · exact hsize
    · exact ih hrest hmem

end Steps

section Tree

namespace IsTree

/-- A node in a directory keeps a tree one, unless a file takes the place of a directory. -/
theorem put (htree : disk.IsTree) (hdir : disk.node? place = some .directory)
    (hnode : disk.node? (name :: place) = some .directory → node = .directory) :
    (disk.put (name :: place) node).IsTree := by
  have hkeep {other : Place} (hother : disk.node? other = some .directory) :
      (disk.put (name :: place) node).node? other = some .directory := by
    by_cases he : other = name :: place
    · subst he
      rw [node?_put_self (by simp), hnode hother]
    · rw [node?_put_of_ne he, hother]
  refine ⟨fun {other above} hsome => ?_, hkeep htree.current⟩
  by_cases he : other :: above = name :: place
  · obtain ⟨-, rfl⟩ := List.cons.inj he
    exact hkeep hdir
  · rw [node?_put_of_ne he] at hsome
    exact hkeep (htree.parent hsome)

theorem makeDirectory (htree : disk.IsTree) (h : disk.makeDirectory p = .ok later) :
    later.IsTree := by
  obtain ⟨place, name, hlast, -, rfl⟩ := makeDirectory_of_ok h
  exact htree.put (findLast_of_ok hlast).2.2.1 fun _ => rfl

theorem of_makes {made : Disk × Option DiskFault} (htree : disk.IsTree) (h : Makes p disk made) :
    made.1.IsTree := by
  induction h with
  | unnamed hempty => exact htree
  | made hempty hmake => exact htree.makeDirectory hmake
  | topMissing hempty hmissing hparent => exact htree
  | parentFailed hempty hmissing hparent hmid ih => exact ih htree
  | madeLater hempty hmissing hparent hmid hmake ih => exact (ih htree).makeDirectory hmake
  | failedLater hempty hmissing hparent hmid hmake ih => exact ih htree
  | failed hempty hother hmake => exact htree

theorem makeDirectories (htree : disk.IsTree) (p : Path) :
    (makeDirectories p disk).1.IsTree :=
  htree.of_makes (makes_makeDirectories p disk)

theorem writeFile (htree : disk.IsTree) (h : disk.writeFile p bytes = .ok later) :
    later.IsTree := by
  obtain ⟨place, name, hlast, hnode, rfl⟩ := writeFile_of_ok h
  exact htree.put (findLast_of_ok hlast).2.2.1 fun hdir => (hnode hdir).elim

theorem directory_start (htree : disk.IsTree) : disk.node? (disk.start p) = some .directory := by
  rw [start]
  split
  · rfl
  · exact htree.current

theorem directory_tail (htree : disk.IsTree) (h : disk.node? place = some .directory) :
    disk.node? place.tail = some .directory := by
  cases place with
  | nil => exact h
  | cons name above =>
    have hsome : (disk.node? (name :: above)).isSome := by simp [h]
    exact htree.parent hsome

theorem isSome_foldlM (htree : disk.IsTree) (h : (disk.node? place).isSome)
    (hway : segments.foldlM disk.step place = .ok target) : (disk.node? target).isSome := by
  induction segments generalizing place with
  | nil =>
    obtain rfl := Except.ok.inj hway
    exact h
  | cons segment rest ih =>
    rw [List.foldlM_cons, bind_eq_ok_iff] at hway
    obtain ⟨via, hstep, hrest⟩ := hway
    exact ih (htree.isSome_step h hstep) hrest

/-- Whatever something lies in is a directory. -/
theorem directory_of_append (htree : disk.IsTree) {names : List String} (hne : names ≠ [])
    (h : (disk.node? (names ++ place)).isSome) : disk.node? place = some .directory := by
  obtain rfl | ⟨init, last, rfl⟩ := List.eq_nil_or_concat names
  · exact (hne rfl).elim
  · have hsuffix : last :: place <:+ init.concat last ++ place := ⟨init, by simp⟩
    exact htree.parent (htree.isSome_of_suffix hsuffix h)

/-- Below a place, whatever is on the way to something is a directory. -/
theorem directory_above (htree : disk.IsTree) {above steps : List String}
    (habove : above <+: steps) (hne : above ≠ steps)
    (h : (disk.node? (steps.reverse ++ place)).isSome) :
    disk.node? (above.reverse ++ place) = some .directory := by
  obtain ⟨below, rfl⟩ := habove
  rw [List.reverse_append, List.append_assoc] at h
  exact htree.directory_of_append (by simpa using hne) h

end IsTree

end Tree

/-- Whatever is on the disk is on `final` too: a directory as a directory, and a file as a file,
which may hold something else. -/
structure Within (disk final : Disk) : Prop where
  current : final.current = disk.current
  kind : ∀ {place node}, disk.node? place = some node →
    ∃ other, final.node? place = some other ∧ (other = .directory ↔ node = .directory)

namespace Within

theorem trans (h : disk.Within mid) (hfinal : mid.Within final) : disk.Within final where
  current := hfinal.current.trans h.current
  kind hnode := by
    obtain ⟨other, hmid, hkind⟩ := h.kind hnode
    obtain ⟨last, hlast, hsame⟩ := hfinal.kind hmid
    exact ⟨last, hlast, hsame.trans hkind⟩

/-- Directories that are added and files that are written leave all kinds as they were. -/
theorem of_kept_changes {made written more : Place → Prop} (hkept : Kept written disk later)
    (hchanges : Changes made more disk later) : disk.Within later where
  current := hkept.current
  kind {place node} hnode := by
    by_cases hsame : later.node? place = disk.node? place
    · exact ⟨node, hsame.trans hnode, Iff.rfl⟩
    · obtain ⟨hnone, -⟩ | ⟨⟨bytes, hfile⟩, -⟩ := hchanges place hsame
      · cases hnone.symm.trans hnode
      · refine ⟨.file bytes, hfile, by simp, fun hdir => ?_⟩
        rw [hdir] at hnode
        cases hfile.symm.trans (hkept.directory hnode)

/-- A node can be put where the final disk has one of its kind. -/
theorem put (h : disk.Within final) (hfinal : final.node? (name :: place) = some other)
    (hkind : other = .directory ↔ node = .directory) :
    (disk.put (name :: place) node).Within final where
  current := h.current
  kind {at' found} hfound := by
    by_cases he : at' = name :: place
    · subst he
      rw [node?_put_self (by simp)] at hfound
      obtain rfl := Option.some.inj hfound
      exact ⟨other, hfinal, hkind⟩
    · rw [node?_put_of_ne he] at hfound
      exact h.kind hfound

theorem directory (h : disk.Within final) (hdir : disk.node? place = some .directory) :
    final.node? place = some .directory := by
  obtain ⟨other, hother, hkind⟩ := h.kind hdir
  rw [hother, hkind.mpr rfl]

/-- What is a directory in the end was one from the moment it was there. -/
theorem directory_of_isSome (h : disk.Within final) (hsome : (disk.node? place).isSome)
    (hfinal : final.node? place = some .directory) : disk.node? place = some .directory := by
  obtain ⟨node, hnode⟩ := Option.isSome_iff_exists.mp hsome
  obtain ⟨other, hother, hkind⟩ := h.kind hnode
  obtain rfl : other = .directory := Option.some.inj (hother.symm.trans hfinal)
  rw [hnode, hkind.mp rfl]

theorem isSome (h : disk.Within final) (hsome : (disk.node? place).isSome) :
    (final.node? place).isSome := by
  obtain ⟨node, hnode⟩ := Option.isSome_iff_exists.mp hsome
  obtain ⟨other, hother, -⟩ := h.kind hnode
  simp [hother]

theorem start_eq (h : disk.Within final) : final.start p = disk.start p :=
  start_eq_of_current_eq h.current

theorem foldlM_step (h : disk.Within final)
    (hway : segments.foldlM disk.step place = .ok target) :
    segments.foldlM final.step place = .ok target :=
  foldlM_step_mono h.directory h.isSome hway

/-- A step that is possible in the end is possible now, or else what it leads to is missing. -/
theorem step_cases (h : disk.Within final) (hplace : (disk.node? place).isSome)
    (hstep : final.step place segment = .ok next) :
    disk.step place segment = .ok next ∨ disk.step place segment = .error .notFound := by
  obtain ⟨hfinal, hway⟩ := step_eq_ok_iff.mp hstep
  have hdir : disk.node? place = some .directory := h.directory_of_isSome hplace hfinal
  obtain hidle | hup | ⟨hidle, hne, hsize, -, rfl⟩ := hway
  · exact Or.inl (step_eq_ok_iff.mpr ⟨hdir, Or.inl hidle⟩)
  · exact Or.inl (step_eq_ok_iff.mpr ⟨hdir, Or.inr (Or.inl hup)⟩)
  · by_cases hnode : (disk.node? (segment :: place)).isSome
    · exact Or.inl (step_eq_ok_iff.mpr
        ⟨hdir, Or.inr (Or.inr ⟨hidle, hne, hsize, hnode, rfl⟩)⟩)
    · right
      simp only [Bool.not_eq_true, Option.isSome_eq_false_iff] at hnode
      simp [step, hdir, hidle, hne, Nat.not_lt.mpr hsize, hnode]

/-- A walk through the final disk goes through now, or something on its way is still missing. -/
theorem foldlM_cases (h : disk.Within final) (htree : disk.IsTree)
    (hplace : (disk.node? place).isSome)
    (hway : segments.foldlM final.step place = .ok target) :
    segments.foldlM disk.step place = .ok target ∨
      segments.foldlM disk.step place = .error .notFound := by
  induction segments generalizing place with
  | nil => exact Or.inl hway
  | cons segment rest ih =>
    rw [List.foldlM_cons, bind_eq_ok_iff] at hway
    obtain ⟨via, hstep, hrest⟩ := hway
    obtain hnow | hmissing := h.step_cases hplace hstep
    · rw [List.foldlM_cons, hnow]
      exact ih (htree.isSome_step hplace hnow) hrest
    · right
      rw [List.foldlM_cons, hmissing]
      rfl

end Within

end SchemaHeader.Disk
