import SchemaHeader.Proofs.Disk.Walk

/-! What differs on a disk after directories were added and files written, and when a file that was
there before can be among it. -/
namespace SchemaHeader.Disk

variable {disk mid later : Disk} {place target next : Place} {node : Node} {p : Path}
  {segment name : String} {segments : List String} {bytes : List UInt8}
  {made written more most : Place → Prop}

/-- The places that differ had nothing and have a directory now, or have a file that was written. -/
def Changes (made written : Place → Prop) (disk later : Disk) : Prop :=
  ∀ place, later.node? place ≠ disk.node? place →
    disk.node? place = none ∧ later.node? place = some .directory ∧ made place ∨
      (∃ bytes, later.node? place = some (.file bytes)) ∧ written place

namespace Changes

theorem refl (made written : Place → Prop) (disk : Disk) : Changes made written disk disk :=
  fun _ h => (h rfl).elim

theorem mono (h : Changes made written disk later) (hmade : ∀ place, made place → more place)
    (hwritten : ∀ place, written place → most place) : Changes more most disk later := by
  intro place hne
  obtain ⟨hnone, hdir, hplace⟩ | ⟨hfile, hplace⟩ := h place hne
  · exact Or.inl ⟨hnone, hdir, hmade place hplace⟩
  · exact Or.inr ⟨hfile, hwritten place hplace⟩

theorem trans (h : Changes made written disk mid) (hlater : Changes made written mid later) :
    Changes made written disk later := by
  intro place hne
  by_cases hsame : later.node? place = mid.node? place
  · rw [hsame] at hne ⊢
    exact h place hne
  · obtain ⟨hnone, hdir, hplace⟩ | hfile := hlater place hsame
    · -- Where nothing was at first nothing had been added either.
      by_cases hfirst : mid.node? place = disk.node? place
      · exact Or.inl ⟨hfirst.symm.trans hnone, hdir, hplace⟩
      · obtain ⟨-, hmid, -⟩ | ⟨⟨bytes, hmid⟩, -⟩ := h place hfirst
        · cases hnone.symm.trans hmid
        · cases hnone.symm.trans hmid
    · exact Or.inr hfile

theorem put_directory (h : disk.node? place = none) :
    Changes (· = place) written disk (disk.put place .directory) := by
  intro other hne
  by_cases he : other = place
  · subst he
    have hother : other ≠ [] := by
      rintro rfl
      cases h
    exact Or.inl ⟨h, node?_put_self hother, rfl⟩
  · exact (hne (node?_put_of_ne he)).elim

theorem put_file (hplace : place ≠ []) :
    Changes made (· = place) disk (disk.put place (.file bytes)) := by
  intro other hne
  by_cases he : other = place
  · subst he
    exact Or.inr ⟨⟨bytes, node?_put_self hplace⟩, rfl⟩
  · exact (hne (node?_put_of_ne he)).elim

/-- A directory was one before, or there was nothing in its place. -/
theorem directory_or_none (h : Changes made written disk later)
    (hdir : later.node? place = some .directory) :
    disk.node? place = some .directory ∨ disk.node? place = none := by
  by_cases hsame : later.node? place = disk.node? place
  · exact Or.inl (hsame.symm.trans hdir)
  · obtain ⟨hnone, -, -⟩ | ⟨⟨bytes, hfile⟩, -⟩ := h place hsame
    · exact Or.inr hnone
    · cases hdir.symm.trans hfile

end Changes

theorem start_eq_of_current_eq (h : later.current = disk.current) :
    later.start p = disk.start p := by
  rw [start, start, h]

theorem placeOf_eq_of_current_eq (h : later.current = disk.current) :
    later.placeOf p = disk.placeOf p := by
  rw [placeOf, placeOf, start_eq_of_current_eq h]

/-- Making a directory adds it at the place of its path and changes nothing else. -/
theorem changes_makeDirectory (h : disk.makeDirectory p = .ok later) :
    Changes (· = disk.placeOf p) written disk later := by
  obtain ⟨place, name, hlast, hnode, rfl⟩ := makeDirectory_of_ok h
  rw [← placeOf_of_findLast hlast]
  exact Changes.put_directory hnode

/-- Writing a file changes the place of its path and no other. -/
theorem changes_writeFile (h : disk.writeFile p bytes = .ok later) :
    Changes made (· = disk.placeOf p) disk later := by
  obtain ⟨place, name, hlast, -, rfl⟩ := writeFile_of_ok h
  rw [← placeOf_of_findLast hlast]
  exact Changes.put_file (by simp)

/-- The path, or one that it goes on from, names the place. -/
def AtOrAbove (disk : Disk) (p : Path) (place : Place) : Prop :=
  ∃ q, (q = p ∨ q.IsAncestor p) ∧ place = disk.placeOf q

theorem AtOrAbove.of_current_eq (h : disk.AtOrAbove p place)
    (hcurrent : later.current = disk.current) : later.AtOrAbove p place := by
  obtain ⟨q, hq, hplace⟩ := h
  exact ⟨q, hq, hplace.trans (placeOf_eq_of_current_eq hcurrent).symm⟩

theorem AtOrAbove.above_of_parent? {parent : Path} (h : disk.AtOrAbove parent place)
    (hparent : p.parent? = some parent) : ∃ q, q.IsAncestor p ∧ place = disk.placeOf q := by
  obtain ⟨q, rfl | hq, hplace⟩ := h
  · exact ⟨q, Path.isAncestor_of_parent? hparent, hplace⟩
  · exact ⟨q, (Path.isAncestor_of_parent? hparent).trans hq, hplace⟩

/-- Only the directory that is asked for and those above it are added. -/
theorem changes_makeDirectories (p : Path) (disk : Disk) :
    Changes (disk.AtOrAbove p) written disk (makeDirectories p disk).1 := by
  have hself {disk later : Disk} {p : Path} (h : disk.makeDirectory p = .ok later) :
      Changes (disk.AtOrAbove p) written disk later :=
    (changes_makeDirectory h).mono (fun _ hplace => ⟨p, Or.inl rfl, hplace⟩) fun _ => id
  have habove {disk later : Disk} {p parent : Path} (hparent : p.parent? = some parent)
      (h : Changes (disk.AtOrAbove parent) written disk later) :
      Changes (disk.AtOrAbove p) written disk later := by
    refine h.mono (fun place hplace => ?_) fun _ => id
    obtain ⟨q, hq, hplace⟩ := hplace.above_of_parent? hparent
    exact ⟨q, Or.inr hq, hplace⟩
  have hmakes := makes_makeDirectories p disk
  generalize makeDirectories p disk = made at hmakes ⊢
  induction hmakes with
  | unnamed hempty => exact .refl _ _ _
  | made hempty hmake => exact hself hmake
  | topMissing hempty hmissing hparent => exact .refl _ _ _
  | parentFailed hempty hmissing hparent hmid ih => exact habove hparent ih
  | madeLater hempty hmissing hparent hmid hmake ih =>
    refine (habove hparent ih).trans ((hself hmake).mono ?_ fun _ => id)
    rintro place ⟨q, hq, rfl⟩
    exact ⟨q, hq, placeOf_eq_of_current_eq hmid.kept.current⟩
  | failedLater hempty hmissing hparent hmid hmake ih => exact habove hparent ih
  | failed hempty hother hmake => exact .refl _ _ _

/-- Whatever there is lies in a directory, and so does the place that paths start from. -/
structure IsTree (disk : Disk) : Prop where
  parent : ∀ {name place}, (disk.node? (name :: place)).isSome → disk.node? place = some .directory
  current : disk.node? disk.current = some .directory

namespace IsTree

theorem of_entries (h : ∀ e ∈ disk.entries, disk.node? e.1.tail = some .directory)
    (hcurrent : disk.node? disk.current = some .directory) : disk.IsTree where
  parent {name place} hsome := by
    obtain ⟨node, hnode⟩ := Option.isSome_iff_exists.mp hsome
    obtain ⟨before, after, hentries, -⟩ := List.lookup_eq_some_iff.mp hnode
    exact h (name :: place, node) (by simp [hentries])
  current := hcurrent

theorem isSome_of_suffix (htree : disk.IsTree) (hplace : place <:+ target)
    (h : (disk.node? target).isSome) : (disk.node? place).isSome := by
  obtain ⟨names, rfl⟩ := hplace
  induction names with
  | nil => exact h
  | cons name rest ih =>
    have hdir : disk.node? (rest ++ place) = some .directory := htree.parent h
    exact ih (by simp [hdir])

theorem isSome_start (htree : disk.IsTree) : (disk.node? (disk.start p)).isSome := by
  rw [start]
  split
  · rfl
  · simp [htree.current]

theorem isSome_step (htree : disk.IsTree) (h : (disk.node? place).isSome)
    (hstep : disk.step place segment = .ok next) : (disk.node? next).isSome := by
  obtain ⟨-, ⟨-, rfl⟩ | ⟨-, -, rfl⟩ | ⟨-, -, -, hnext, rfl⟩⟩ := step_eq_ok_iff.mp hstep
  · exact h
  · exact htree.isSome_of_suffix (List.tail_suffix place) h
  · exact hnext

end IsTree

/-- No segment of the path that leads up comes after one that leads nowhere. -/
def Grounded (disk : Disk) (p : Path) : Prop :=
  ∀ above below, p.segments = above ++ ".." :: below →
    ∃ place, above.foldlM disk.step (disk.start p) = .ok place

/-- A path that leads somewhere is grounded. -/
theorem grounded_of_find (h : disk.find p = .ok target) : disk.Grounded p := by
  intro above below hsplit
  have hway := (find_eq_ok_iff.mp h).2
  rw [hsplit, List.foldlM_append, bind_eq_ok_iff] at hway
  obtain ⟨place, habove, -⟩ := hway
  exact ⟨place, habove⟩

/-- A step that leads to something that was there before led there before. -/
theorem step_of_later (hchanges : Changes made more disk later)
    (hplace : (disk.node? place).isSome) (hstep : later.step place segment = .ok next)
    (hsome : (disk.node? next).isSome) : disk.step place segment = .ok next := by
  obtain ⟨hlater, hway⟩ := step_eq_ok_iff.mp hstep
  have hdir : disk.node? place = some .directory :=
    (hchanges.directory_or_none hlater).resolve_right fun hnone => by simp [hnone] at hplace
  refine step_eq_ok_iff.mpr ⟨hdir, ?_⟩
  obtain hidle | hup | ⟨hidle, hne, hsize, -, rfl⟩ := hway
  · exact Or.inl hidle
  · exact Or.inr (Or.inl hup)
  · exact Or.inr (Or.inr ⟨hidle, hne, hsize, hsome, rfl⟩)

/-- Where segments lead to something that was there before, they led there before: what was missing
on the way would have to be above it, unless they go up again. -/
theorem foldlM_step_of_later (htree : disk.IsTree) (hkept : Kept written disk later)
    (hchanges : Changes made more disk later) (hplace : (disk.node? place).isSome)
    (hup : ∀ above below, segments = above ++ ".." :: below →
      ∃ via, above.foldlM disk.step place = .ok via)
    (h : segments.foldlM later.step place = .ok target) (htarget : (disk.node? target).isSome) :
    segments.foldlM disk.step place = .ok target := by
  induction segments generalizing place with
  | nil => exact h
  | cons segment rest ih =>
    rw [List.foldlM_cons, bind_eq_ok_iff] at h ⊢
    obtain ⟨next, hnext, hrest⟩ := h
    cases hstep : disk.step place segment with
    | ok via =>
      obtain rfl : via = next := Except.ok.inj ((hkept.step hstep).symm.trans hnext)
      refine ⟨via, rfl, ih (htree.isSome_step hplace hstep) (fun above below hsplit => ?_) hrest⟩
      obtain ⟨place', habove⟩ := hup (segment :: above) below (by rw [hsplit, List.cons_append])
      rw [List.foldlM_cons, bind_eq_ok_iff] at habove
      obtain ⟨via', hvia, habove⟩ := habove
      obtain rfl := Except.ok.inj (hstep.symm.trans hvia)
      exact ⟨place', habove⟩
    | error fault =>
      have hrestUp : ".." ∉ rest := by
        intro hmem
        obtain ⟨above, below, rfl⟩ := List.append_of_mem hmem
        obtain ⟨place', habove⟩ := hup (segment :: above) below rfl
        rw [List.foldlM_cons, bind_eq_ok_iff] at habove
        obtain ⟨via, hvia, -⟩ := habove
        cases hstep.symm.trans hvia
      have hsome : (disk.node? next).isSome := by
        refine htree.isSome_of_suffix ?_ htarget
        rw [foldlM_step_eq_walk hrest]
        exact Path.suffix_walk hrestUp (List.prefix_refl rest)
      cases hstep.symm.trans (step_of_later hchanges hplace hnext hsome)

/-- A grounded path that leads to an old entry after a change led there before. -/
theorem find_of_later (htree : disk.IsTree) (hkept : Kept written disk later)
    (hchanges : Changes made more disk later) (hup : disk.Grounded p)
    (h : later.find p = .ok target) (htarget : (disk.node? target).isSome) :
    disk.find p = .ok target := by
  rw [find_eq_ok_iff, hkept.start_eq] at h
  rw [find_eq_ok_iff]
  exact ⟨h.1, foldlM_step_of_later htree hkept hchanges htree.isSome_start hup h.2 htarget⟩

end SchemaHeader.Disk
