import Mathlib.Data.List.Basic
import SchemaHeader.Disk

/-! What stays on a disk while directories are added to it and files are written: every path leads
where it led before, and a place that is not written to holds what it held. -/
namespace SchemaHeader

theorem bind_eq_ok_iff {ε α β : Type} {x : Except ε α} {f : α → Except ε β} {b : β} :
    x >>= f = .ok b ↔ ∃ a, x = .ok a ∧ f a = .ok b := by
  cases x with
  | error e => simp [bind, Except.bind]
  | ok a => simp [bind, Except.bind]

/-- Calls on a disk one after the other: the second finds the disk as the first left it. -/
theorem run_bind {σ α β : Type} (first : StateM σ α) (next : α → StateM σ β) (s : σ) :
    (first >>= next).run s = (next (first.run s).1).run (first.run s).2 := rfl

/-- A question that leaves the state alone filters by its answers. -/
theorem run_filterM {σ α : Type} {ask : α → StateM σ Bool} {holds : α → Bool} {s : σ}
    (h : ∀ a, (ask a).run s = (holds a, s)) (as : List α) :
    (as.filterM ask).run s = (as.filter holds, s) := by
  have haux (acc : List α) :
      (as.filterAuxM ask acc).run s = ((as.filter holds).reverse ++ acc, s) := by
    induction as generalizing acc with
    | nil => rfl
    | cons a rest ih =>
      rw [List.filterAuxM, run_bind, h, ih]
      cases hfirst : holds a <;> simp [hfirst]
  rw [List.filterM, run_bind, haux, List.append_nil]
  exact congrArg (·, s) (List.reverse_reverse _)

namespace Disk

variable {disk mid later : Disk} {place other next target : Place} {node : Node} {p : Path}
  {segment : String} {segments : List String} {bytes : List UInt8}
  {written more : Place → Prop}

section Put

theorem node?_of_ne_nil (h : place ≠ []) : disk.node? place = disk.entries.lookup place := by
  cases place with
  | nil => exact (h rfl).elim
  | cons name rest => rfl

theorem lookup_filter_of_ne (entries : List (Place × Node)) (h : other ≠ place) :
    (entries.filter (·.1 != place)).lookup other = entries.lookup other := by
  induction entries with
  | nil => rfl
  | cons e rest ih =>
    obtain ⟨key, value⟩ := e
    by_cases hkey : key = place
    · subst hkey
      have hother : (other == key) = false := beq_eq_false_iff_ne.mpr h
      simp [List.lookup_cons, hother, ih]
    · simp [hkey, List.lookup_cons, ih]

theorem node?_put_self (h : place ≠ []) : (disk.put place node).node? place = some node := by
  rw [node?_of_ne_nil h]
  simp [put]

theorem node?_put_of_ne (h : other ≠ place) :
    (disk.put place node).node? other = disk.node? other := by
  cases other with
  | nil => rfl
  | cons name rest =>
    have hne : (name :: rest == place) = false := by simpa using h
    rw [node?_of_ne_nil (by simp), node?_of_ne_nil (by simp), put, List.lookup_cons, hne]
    exact lookup_filter_of_ne disk.entries h

end Put

/-- What stays when some places are written to. A directory is never written to, nothing is taken
away, and what is added elsewhere are directories. -/
structure Kept (written : Place → Prop) (disk later : Disk) : Prop where
  current : later.current = disk.current
  directory : ∀ {place}, disk.node? place = some .directory → later.node? place = some .directory
  present : ∀ {place}, (disk.node? place).isSome → (later.node? place).isSome
  unwritten : ∀ {place node}, ¬ written place → disk.node? place = some node →
    later.node? place = some node
  old_file : ∀ {place bytes}, ¬ written place → later.node? place = some (.file bytes) →
    disk.node? place = some (.file bytes)

namespace Kept

theorem refl (written : Place → Prop) (disk : Disk) : Kept written disk disk :=
  ⟨rfl, id, id, fun _ => id, fun _ => id⟩

theorem trans (h : Kept written disk mid) (hlater : Kept written mid later) :
    Kept written disk later where
  current := hlater.current.trans h.current
  directory := hlater.directory ∘ h.directory
  present := hlater.present ∘ h.present
  unwritten hplace := hlater.unwritten hplace ∘ h.unwritten hplace
  old_file hplace := h.old_file hplace ∘ hlater.old_file hplace

theorem mono (h : Kept written disk later) (hmore : ∀ place, written place → more place) :
    Kept more disk later where
  current := h.current
  directory := h.directory
  present := h.present
  unwritten hplace := h.unwritten fun hw => hplace (hmore _ hw)
  old_file hplace := h.old_file fun hw => hplace (hmore _ hw)

theorem put_directory (h : disk.node? place = none) :
    Kept (fun _ => False) disk (disk.put place .directory) := by
  have hne : place ≠ [] := by
    rintro rfl
    cases h
  have hnode {other : Place} {node : Node} (hother : disk.node? other = some node) :
      (disk.put place .directory).node? other = some node := by
    rw [node?_put_of_ne (by rintro rfl; simp [h] at hother), hother]
  refine ⟨rfl, hnode, fun hpresent => ?_, fun _ => hnode, fun {other bytes} _ hother => ?_⟩
  · obtain ⟨node, hother⟩ := Option.isSome_iff_exists.mp hpresent
    simp [hnode hother]
  · by_cases he : other = place
    · rw [he, node?_put_self hne] at hother
      cases hother
    · rwa [node?_put_of_ne he] at hother

/-- Writing a file keeps all but what was at its place. -/
theorem put_file (hne : place ≠ []) (h : disk.node? place ≠ some .directory) :
    Kept (· = place) disk (disk.put place (.file bytes)) where
  current := rfl
  directory hother := by rw [node?_put_of_ne (by rintro rfl; exact h hother), hother]
  present {other} hp := by
    by_cases he : other = place
    · simp [he, node?_put_self hne]
    · rwa [node?_put_of_ne he]
  unwritten hplace hother := by rw [node?_put_of_ne hplace, hother]
  old_file hplace hother := by rwa [node?_put_of_ne hplace] at hother

end Kept

/-- A step is possible out of a directory only: to the same place, to the one above it, or to
something that is in it. -/
theorem step_eq_ok_iff : disk.step place segment = .ok next ↔
    disk.node? place = some .directory ∧
      (Path.isIdle segment ∧ next = place ∨
        ¬ Path.isIdle segment ∧ segment = ".." ∧ next = place.tail ∨
        ¬ Path.isIdle segment ∧ segment ≠ ".." ∧ segment.utf8ByteSize ≤ nameLimit ∧
          (disk.node? (segment :: place)).isSome ∧ next = segment :: place) := by
  rw [step]
  by_cases hdir : disk.node? place = some .directory
  · by_cases hidle : Path.isIdle segment
    · simp [hdir, hidle, @eq_comm _ next place]
    · by_cases hup : segment = ".."
      · subst hup
        simp [hdir, hidle, @eq_comm _ next place.tail]
      · by_cases hsize : segment.utf8ByteSize ≤ nameLimit
        · cases disk.node? (segment :: place) with
          | none => simp [hdir, hidle, hup, Nat.not_lt.mpr hsize]
          | some node =>
            simp [hdir, hidle, hup, hsize, Nat.not_lt.mpr hsize,
              @eq_comm _ next (segment :: place)]
        · simp [hdir, hidle, hup, hsize, Nat.lt_of_not_le hsize]
  · simp [hdir]

section Monotone

variable (hdirectory : ∀ {place}, disk.node? place = some .directory →
    later.node? place = some .directory)
  (hpresent : ∀ {place}, (disk.node? place).isSome → (later.node? place).isSome)

include hdirectory hpresent

/-- Where directories stay directories and nothing is taken away, steps lead where they led. -/
theorem step_mono (hstep : disk.step place segment = .ok next) :
    later.step place segment = .ok next := by
  rw [step_eq_ok_iff] at hstep ⊢
  obtain ⟨hdir, hidle | hup | ⟨hidle, hup, hsize, hnode, hnext⟩⟩ := hstep
  · exact ⟨hdirectory hdir, Or.inl hidle⟩
  · exact ⟨hdirectory hdir, Or.inr (Or.inl hup)⟩
  · exact ⟨hdirectory hdir, Or.inr (Or.inr ⟨hidle, hup, hsize, hpresent hnode, hnext⟩)⟩

theorem foldlM_step_mono (hsteps : segments.foldlM disk.step place = .ok next) :
    segments.foldlM later.step place = .ok next := by
  induction segments generalizing place with
  | nil => exact hsteps
  | cons segment rest ih =>
    rw [List.foldlM_cons, bind_eq_ok_iff] at hsteps ⊢
    obtain ⟨via, hstep, hrest⟩ := hsteps
    exact ⟨via, step_mono hdirectory hpresent hstep, ih hrest⟩

end Monotone

theorem Kept.step (h : Kept written disk later) (hstep : disk.step place segment = .ok next) :
    later.step place segment = .ok next :=
  step_mono h.directory h.present hstep

theorem Kept.foldlM_step (h : Kept written disk later)
    (hsteps : segments.foldlM disk.step place = .ok next) :
    segments.foldlM later.step place = .ok next :=
  foldlM_step_mono h.directory h.present hsteps

theorem Kept.start_eq (h : Kept written disk later) : later.start p = disk.start p := by
  rw [start, start, h.current]

theorem find_eq_ok_iff : disk.find p = .ok target ↔
    checked p = .ok () ∧ p.segments.foldlM disk.step (disk.start p) = .ok target := by
  rw [find, bind_eq_ok_iff]
  exact ⟨fun ⟨_, hchecked, hway⟩ => ⟨hchecked, hway⟩, fun ⟨hchecked, hway⟩ => ⟨(), hchecked, hway⟩⟩

/-- A path that led somewhere still leads there. -/
theorem Kept.find (h : Kept written disk later) (hfind : disk.find p = .ok target) :
    later.find p = .ok target := by
  rw [find_eq_ok_iff, h.start_eq] at *
  exact ⟨hfind.1, h.foldlM_step hfind.2⟩

/-- A directory is made under the last name of its path, where nothing was. -/
theorem makeDirectory_of_ok (h : disk.makeDirectory p = .ok later) :
    ∃ place name, disk.findLast p = .ok (place, some name) ∧
      disk.node? (name :: place) = none ∧ later = disk.put (name :: place) .directory := by
  rw [makeDirectory, bind_eq_ok_iff] at h
  obtain ⟨⟨place, name?⟩, hlast, h⟩ := h
  cases name? with
  | none => cases h
  | some name =>
    dsimp only at h
    split at h
    · cases h
    · next hnode => exact ⟨place, name, hlast, by simpa using hnode, (Except.ok.inj h).symm⟩

theorem kept_makeDirectory (h : disk.makeDirectory p = .ok later) :
    Kept (fun _ => False) disk later := by
  obtain ⟨place, name, -, hnode, rfl⟩ := makeDirectory_of_ok h
  exact Kept.put_directory hnode

theorem run_makeDirectory (p : Path) (disk : Disk) :
    (FileCalls.makeDirectory p : StateM Disk _).run disk = match disk.makeDirectory p with
      | .ok later => (.ok (), later)
      | .error fault => (.error fault, disk) := rfl

theorem run_writeFile (p : Path) (bytes : List UInt8) (disk : Disk) :
    (FileCalls.writeFile p bytes : StateM Disk _).run disk = match disk.writeFile p bytes with
      | .ok later => (.ok (), later)
      | .error fault => (.error fault, disk) := rfl

/-- On a disk that is a value the calls give one after the other what they give by themselves. -/
theorem makeDirectories_eq (p : Path) (disk : Disk) : makeDirectories p disk =
    if p.text.isEmpty then (disk, none)
    else match disk.makeDirectory p with
      | .ok later => (later, none)
      | .error .notFound =>
        match p.parent? with
        | none => (disk, some .notFound)
        | some parent =>
          match makeDirectories parent disk with
          | (mid, some fault) => (mid, some fault)
          | (mid, none) =>
            match mid.makeDirectory p with
            | .ok later => (later, none)
            | .error fault => (mid, if mid.isDirectory p then none else some fault)
      | .error fault => (disk, if disk.isDirectory p then none else some fault) := by
  rw [makeDirectories, FileCalls.makeDirectories]
  split
  · rfl
  · rw [run_bind, run_makeDirectory]
    cases disk.makeDirectory p with
    | ok later => rfl
    | error fault =>
      cases fault with
      | notFound =>
        dsimp only
        split
        · next hparent => simp only [hparent]; rfl
        · next parent hparent =>
          simp only [hparent, run_bind, makeDirectories]
          cases (FileCalls.makeDirectories parent : StateM Disk _).run disk with
          | mk fault? mid =>
            cases fault? with
            | some fault => rfl
            | none =>
              rw [run_bind, run_makeDirectory]
              dsimp only [Prod.swap]
              cases mid.makeDirectory p with
              | ok later => rfl
              | error fault => rfl
      | _ => rfl

/-- How the directories of a path are made: what there is afterwards, and the fault that was met
if there was one. -/
inductive Makes : Path → Disk → Disk × Option DiskFault → Prop
  | unnamed {p : Path} {disk : Disk} (hempty : p.text.isEmpty) : Makes p disk (disk, none)
  | made {p : Path} {disk later : Disk} (hempty : p.text.isEmpty = false)
      (hmake : disk.makeDirectory p = .ok later) : Makes p disk (later, none)
  | topMissing {p : Path} {disk : Disk} (hempty : p.text.isEmpty = false)
      (hmissing : disk.makeDirectory p = .error .notFound) (hparent : p.parent? = none) :
      Makes p disk (disk, some .notFound)
  | parentFailed {p parent : Path} {disk mid : Disk} {fault : DiskFault}
      (hempty : p.text.isEmpty = false) (hmissing : disk.makeDirectory p = .error .notFound)
      (hparent : p.parent? = some parent) (hmid : Makes parent disk (mid, some fault)) :
      Makes p disk (mid, some fault)
  | madeLater {p parent : Path} {disk mid later : Disk} (hempty : p.text.isEmpty = false)
      (hmissing : disk.makeDirectory p = .error .notFound) (hparent : p.parent? = some parent)
      (hmid : Makes parent disk (mid, none)) (hmake : mid.makeDirectory p = .ok later) :
      Makes p disk (later, none)
  | failedLater {p parent : Path} {disk mid : Disk} {fault : DiskFault}
      (hempty : p.text.isEmpty = false) (hmissing : disk.makeDirectory p = .error .notFound)
      (hparent : p.parent? = some parent) (hmid : Makes parent disk (mid, none))
      (hmake : mid.makeDirectory p = .error fault) :
      Makes p disk (mid, if mid.isDirectory p then none else some fault)
  | failed {p : Path} {disk : Disk} {fault : DiskFault} (hempty : p.text.isEmpty = false)
      (hother : fault ≠ .notFound) (hmake : disk.makeDirectory p = .error fault) :
      Makes p disk (disk, if disk.isDirectory p then none else some fault)

theorem makes_makeDirectories (p : Path) (disk : Disk) : Makes p disk (makeDirectories p disk) := by
  rw [makeDirectories_eq]
  split
  · next hempty => exact .unnamed hempty
  · next hempty =>
    rw [Bool.not_eq_true] at hempty
    split
    · next later hmake => exact .made hempty hmake
    · next hmissing =>
      split
      · next hparent => exact .topMissing hempty hmissing hparent
      · next parent hparent =>
        have hmid := makes_makeDirectories parent disk
        split
        · next mid fault heq => exact .parentFailed hempty hmissing hparent (heq ▸ hmid)
        · next mid heq =>
          split
          · next later hmake => exact .madeLater hempty hmissing hparent (heq ▸ hmid) hmake
          · next fault hmake => exact .failedLater hempty hmissing hparent (heq ▸ hmid) hmake
    · next fault hother hmake => exact .failed hempty hother hmake
termination_by p.segments.length
decreasing_by exact Path.length_lt_of_parent? ‹_›

/-- Missing directories are added one by one, and nothing else happens even where one cannot be
added. -/
theorem Makes.kept {made : Disk × Option DiskFault} (h : Makes p disk made) :
    Kept (fun _ => False) disk made.1 := by
  induction h with
  | unnamed hempty => exact Kept.refl _ _
  | made hempty hmake => exact kept_makeDirectory hmake
  | topMissing hempty hmissing hparent => exact Kept.refl _ _
  | parentFailed hempty hmissing hparent hmid ih => exact ih
  | madeLater hempty hmissing hparent hmid hmake ih => exact ih.trans (kept_makeDirectory hmake)
  | failedLater hempty hmissing hparent hmid hmake ih => exact ih
  | failed hempty hother hmake => exact Kept.refl _ _

theorem kept_makeDirectories (p : Path) (disk : Disk) :
    Kept (fun _ => False) disk (makeDirectories p disk).1 :=
  (makes_makeDirectories p disk).kept

/-- A path with a name at its end leads through directories to the one that the name is in. -/
theorem findLast_of_ok {name : String} (h : disk.findLast p = .ok (place, some name)) :
    checked p = .ok () ∧ p.segments.dropLast.foldlM disk.step (disk.start p) = .ok place ∧
      disk.node? place = some .directory ∧ p.segments.getLast? = some name ∧
      ¬ Path.isIdle name ∧ name ≠ ".." ∧ name.utf8ByteSize ≤ nameLimit := by
  rw [findLast, bind_eq_ok_iff] at h
  obtain ⟨_, hchecked, h⟩ := h
  rw [bind_eq_ok_iff] at h
  obtain ⟨via, hway, h⟩ := h
  split at h
  · cases h
  · next hdir =>
    split at h
    · cases h
    · next last hlast =>
      split at h
      · cases h
      · next hname =>
        split at h
        · cases h
        · next hsize =>
          obtain ⟨rfl, hlastname⟩ := Prod.mk.inj (Except.ok.inj h)
          obtain rfl := Option.some.inj hlastname
          simp only [Bool.or_eq_true, decide_eq_true_eq, not_or] at hname
          exact ⟨hchecked, hway, by simpa using hdir, hlast, hname.1, hname.2,
            Nat.le_of_not_lt hsize⟩

theorem Kept.find_of_findLast {name : String} (hkept : Kept written disk later)
    (h : disk.findLast p = .ok (place, some name)) (hnode : (later.node? (name :: place)).isSome) :
    later.find p = .ok (name :: place) := by
  obtain ⟨hchecked, hway, hdir, hlast, hidle, hup, hsize⟩ := findLast_of_ok h
  have hsegments : p.segments.dropLast ++ [name] = p.segments :=
    List.dropLast_append_getLast? name hlast
  have hstep : later.step place name = .ok (name :: place) :=
    step_eq_ok_iff.mpr ⟨hkept.directory hdir, Or.inr (Or.inr ⟨hidle, hup, hsize, hnode, rfl⟩)⟩
  rw [find_eq_ok_iff, hkept.start_eq, ← hsegments, List.foldlM_append, bind_eq_ok_iff]
  refine ⟨hchecked, place, hkept.foldlM_step hway, ?_⟩
  rw [List.foldlM_cons, hstep]
  rfl

/-- A file is written under the last name of its path, where no directory was. -/
theorem writeFile_of_ok (h : disk.writeFile p bytes = .ok later) :
    ∃ place name, disk.findLast p = .ok (place, some name) ∧
      disk.node? (name :: place) ≠ some .directory ∧
      later = disk.put (name :: place) (.file bytes) := by
  rw [writeFile, bind_eq_ok_iff] at h
  obtain ⟨⟨place, name?⟩, hlast, h⟩ := h
  cases name? with
  | none => cases h
  | some name =>
    dsimp only at h
    split at h
    · cases h
    · next hnode => exact ⟨place, name, hlast, hnode, (Except.ok.inj h).symm⟩

/-- A file that was written is where its path leads, and holds what was written. -/
theorem find_writeFile (h : disk.writeFile p bytes = .ok later) :
    ∃ target, later.find p = .ok target ∧ later.node? target = some (.file bytes) ∧
      Kept (· = target) disk later := by
  obtain ⟨place, name, hlast, hnode, rfl⟩ := writeFile_of_ok h
  have hkept : Kept (· = name :: place) disk (disk.put (name :: place) (.file bytes)) :=
    Kept.put_file (by simp) hnode
  have hself : (disk.put (name :: place) (.file bytes)).node? (name :: place) =
      some (.file bytes) := node?_put_self (by simp)
  exact ⟨name :: place, hkept.find_of_findLast hlast (by simp [hself]), hself, hkept⟩

theorem file?_congr {q : Path} (h : disk.find p = disk.find q) : disk.file? p = disk.file? q := by
  rw [file?, file?, nodeAt?, nodeAt?, h]

theorem file?_of_find (hfind : disk.find p = .ok target)
    (h : disk.node? target = some (.file bytes)) : disk.file? p = some bytes := by
  simp [file?, nodeAt?, hfind, h]

end Disk

end SchemaHeader
