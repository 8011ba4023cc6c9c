import SchemaHeader.Proofs.CommandLine.Options
import SchemaHeader.Proofs.CommandLine.Run
import SchemaHeader.Proofs.Disk.Change

/-! What a call with a descriptor set can change on the disk: the files of its headers below the
output directory, and the directories on the way to them. -/
namespace SchemaHeader

namespace Disk

variable {disk later : Disk} {place : Place} {directory name : String}

/-- A destination is grounded with its directory, for the name of a header never goes up. -/
theorem grounded_destination (hdirectory : directory ≠ "") (hname : Batch.escapes name = false)
    (h : disk.Grounded (Path.ofText directory)) :
    disk.Grounded (Path.ofText (Batch.destination directory name)) := by
  intro above below hsplit
  obtain ⟨hrooted, more, hmore⟩ := Batch.exists_up_of_destination hdirectory hname hsplit
  rw [start, ← hrooted]
  exact h above more hmore

theorem isOccupied_of_find {p : Path} (hfind : disk.find p = .ok place)
    (h : (disk.node? place).isSome) : disk.isOccupied p = true := by
  rw [isOccupied, nodeAt?, hfind]
  exact h

end Disk

/-- A directory that the path of the header goes through. -/
def Placement.OnTheWay (p : Placement) (disk : Disk) (place : Place) : Prop :=
  ∃ q, q.IsAncestor p.path ∧ place = disk.placeOf q

theorem Placement.onTheWay_of_current_eq {disk later : Disk} {p : Placement} {place : Place}
    (hcurrent : later.current = disk.current) (h : p.OnTheWay later place) :
    p.OnTheWay disk place := by
  obtain ⟨q, hq, rfl⟩ := h
  exact ⟨q, hq, Disk.placeOf_eq_of_current_eq hcurrent⟩

namespace Batch

theorem changes_makeWay (p : Placement) (disk : Disk) :
    Disk.Changes (p.OnTheWay disk) (· = disk.placeOf p.path) disk (makeWay p disk).1 := by
  rw [makeWay_eq]
  cases hparent : p.path.parent? with
  | none => exact .refl _ _ disk
  | some parent =>
    exact (Disk.changes_makeDirectories parent disk).mono
      (fun _ hplace => hplace.above_of_parent? hparent) fun _ => id

theorem current_store (p : Placement) (disk : Disk) : (store p disk).1.current = disk.current := by
  obtain ⟨mid, hmid, ⟨refusal, -, hstore⟩ | ⟨later, hwrite, hstore⟩⟩ := store_cases p disk
  · rw [hstore, hmid.current]
  · obtain ⟨target, -, -, hkept⟩ := Disk.find_writeFile hwrite
    rw [hstore, hkept.current, hmid.current]

/-- Storing a header adds directories on its way, writes its file, and changes nothing else. -/
theorem changes_store (p : Placement) (disk : Disk) :
    Disk.Changes (p.OnTheWay disk) (· = disk.placeOf p.path) disk (store p disk).1 := by
  rw [store_eq]
  cases (makeWay p disk).2 with
  | some refusal => exact changes_makeWay p disk
  | none =>
    dsimp only
    cases hwrite : (makeWay p disk).1.writeFile p.path p.bytes with
    | error fault => exact changes_makeWay p disk
    | ok later =>
      have hfile : Disk.Changes (p.OnTheWay disk) (· = (makeWay p disk).1.placeOf p.path)
          (makeWay p disk).1 later := Disk.changes_writeFile hwrite
      rw [Disk.placeOf_eq_of_current_eq (kept_makeWay p disk).current] at hfile
      exact (changes_makeWay p disk).trans hfile

/-- Storing headers, however far it gets, adds directories on the way to them and writes to their
files. -/
theorem changes_storeAll (ps : List Placement) (disk : Disk) :
    Disk.Changes (fun place => ∃ p ∈ ps, p.OnTheWay disk place)
      (fun place => ∃ p ∈ ps, place = disk.placeOf p.path) disk (storeAll ps disk).1 := by
  induction ps generalizing disk with
  | nil => exact .refl _ _ disk
  | cons p rest ih =>
    have hfirst : Disk.Changes (fun place => ∃ q ∈ p :: rest, q.OnTheWay disk place)
        (fun place => ∃ q ∈ p :: rest, place = disk.placeOf q.path) disk (store p disk).1 :=
      (changes_store p disk).mono (fun _ hplace => ⟨p, List.mem_cons_self, hplace⟩)
        fun _ hplace => ⟨p, List.mem_cons_self, hplace⟩
    have hcurrent := current_store p disk
    rw [storeAll_cons]
    split
    · next hstore => rwa [hstore] at hfirst
    · next mid hstore =>
      rw [hstore] at hfirst hcurrent
      refine hfirst.trans ((ih mid).mono ?_ ?_)
      · rintro place ⟨q, hq, hplace⟩
        exact ⟨q, List.mem_cons_of_mem p hq, Placement.onTheWay_of_current_eq hcurrent hplace⟩
      · rintro place ⟨q, hq, rfl⟩
        exact ⟨q, List.mem_cons_of_mem p hq, Disk.placeOf_eq_of_current_eq hcurrent⟩

/-- Whatever stops a batch, a first part of it is stored. -/
theorem stored_storeAll (ps : List Placement) (disk : Disk) :
    ∃ written, written <+: ps ∧ Stored written disk (storeAll ps disk).1 := by
  obtain ⟨later, written, hstored, ⟨rfl, hall⟩ | ⟨p, after, refusal, rfl, -, hall⟩⟩ :=
    storeAll_cases ps disk
  · exact ⟨written, List.prefix_refl written, by rwa [hall]⟩
  · exact ⟨written, List.prefix_append written _, by rwa [hall]⟩

end Batch

namespace CommandLine

variable {arguments : List String} {options : Options} {set : String} {disk : Disk}
  {descriptors : DescriptorSet}

/-- A run changes nothing, or it stores what it planned. -/
theorem run_disk_cases (hparse : parse arguments = .ok (.run options))
    (hset : options.descriptorSet? = some set) (input : List UInt8) (disk : Disk) :
    (run arguments input disk).2 = disk ∨ ∃ descriptors, HoldsSet disk set descriptors ∧
      planned options set disk = .ok (placements options descriptors) ∧
      (run arguments input disk).2 = (Batch.storeAll (placements options descriptors) disk).1 := by
  rw [run_eq_writeHeaders hparse hset, writeHeaders_eq]
  cases hplanned : planned options set disk with
  | error refusal => exact Or.inl rfl
  | ok ps =>
    obtain ⟨descriptors, hholds, -, -, -, rfl⟩ := planned_eq_ok_iff.mp hplanned
    dsimp only
    split
    · exact Or.inl rfl
    · exact Or.inr ⟨descriptors, hholds, rfl, rfl⟩

/-- What differs after the headers were stored: directories on the way to them, and the files that
their paths lead to. -/
theorem cases_of_node?_ne {ps : List Placement} {place : Place}
    (h : (Batch.storeAll ps disk).1.node? place ≠ disk.node? place) : ∃ p ∈ ps,
      disk.node? place = none ∧ (Batch.storeAll ps disk).1.node? place = some .directory ∧
          p.OnTheWay disk place ∨
        (∃ bytes, (Batch.storeAll ps disk).1.node? place = some (.file bytes)) ∧
          (Batch.storeAll ps disk).1.find p.path = .ok place := by
  obtain ⟨hnone, hdir, p, hp, hway⟩ | ⟨⟨bytes, hfile⟩, -⟩ := Batch.changes_storeAll ps disk place h
  · exact ⟨p, hp, Or.inl ⟨hnone, hdir, hway⟩⟩
  · obtain ⟨written, hwritten, hstored⟩ := Batch.stored_storeAll ps disk
    have hplace : ∃ p ∈ written, (Batch.storeAll ps disk).1.find p.path = .ok place := by
      by_contra hunwritten
      exact h (hfile.trans (hstored.kept.old_file hunwritten hfile).symm)
    obtain ⟨p, hp, hfind⟩ := hplace
    exact ⟨p, hwritten.subset hp, Or.inr ⟨⟨bytes, hfile⟩, hfind⟩⟩

/-- A planned header that is found lies below the output directory. -/
theorem exists_below_output {ps : List Placement} {p : Placement} {place : Place}
    (houtput : options.output ≠ "") (hplanned : planned options set disk = .ok ps) (hp : p ∈ ps)
    (hfind : (Batch.storeAll ps disk).1.find p.path = .ok place) :
    ∃ below, below ≠ [] ∧ place = below ++ disk.placeOf (Path.ofText options.output) := by
  obtain ⟨descriptors, -, -, -, hfit, rfl⟩ := planned_eq_ok_iff.mp hplanned
  obtain ⟨f, hf, rfl⟩ := List.mem_map.mp hp
  have hstays := (hfit f hf).1
  obtain ⟨written, -, hstored⟩ := Batch.stored_storeAll (placements options descriptors) disk
  refine ⟨(Path.ofText (f.name ++ ".h")).steps.reverse, ?_, ?_⟩
  · simpa using Batch.steps_ne_nil hstays
  · rw [Disk.find_eq_placeOf hfind, Disk.placeOf_eq_of_current_eq hstored.kept.current]
    exact Batch.placeOf_destination disk houtput hstays

/-- Without `--force` the path of a header that is planned leads to nothing that is there. -/
theorem file_kept_of_planned {ps : List Placement} {place : Place} {bytes : List UInt8}
    (houtput : options.output ≠ "") (hplanned : planned options set disk = .ok ps)
    (hforce : options.force = false) (htree : disk.IsTree)
    (hgrounded : disk.Grounded (Path.ofText options.output))
    (hfile : disk.node? place = some (.file bytes)) :
    (Batch.storeAll ps disk).1.node? place = some (.file bytes) := by
  obtain ⟨descriptors, -, -, -, hfit, rfl⟩ := planned_eq_ok_iff.mp hplanned
  obtain ⟨written, hwritten, hstored⟩ := Batch.stored_storeAll (placements options descriptors) disk
  refine hstored.kept.unwritten ?_ hfile
  rintro ⟨p, hp, hfind⟩
  obtain ⟨f, hf, rfl⟩ := List.mem_map.mp (hwritten.subset hp)
  obtain ⟨hstays, hfree⟩ := hfit f hf
  have hpath : disk.Grounded (Path.ofText (options.destination f)) :=
    Disk.grounded_destination houtput hstays hgrounded
  have hfound : disk.find (Path.ofText (options.destination f)) = .ok place :=
    Disk.find_of_later htree hstored.kept (Batch.changes_storeAll _ disk) hpath hfind
      (by simp [hfile])
  have htaken := Disk.isOccupied_of_find hfound (by simp [hfile])
  cases (hfree hforce).symm.trans htaken

/-- A run writes the files that its headers' paths lead to, all below the output directory, and adds
the directories on the way. Without `--force` a grounded output directory keeps all old files. -/
theorem run_changes_below_output (input : List UInt8) (disk : Disk)
    (hparse : parse arguments = .ok (.run options)) (hset : options.descriptorSet? = some set) :
    let output := Path.ofText options.output
    let later := (run arguments input disk).2
    (∀ name, Batch.escapes name = false ↔ name ≠ "" ∧ name.toList.head? ≠ some '/' ∧
      ".." ∉ (name.toList.splitOn '/').map String.ofList) ∧
    (∀ name, Batch.escapes name = false → ∀ (directory : Place) (above : List String),
      above <+: (Path.ofText name).segments → directory <:+ Path.walk directory above) ∧
    (∀ place, later.node? place ≠ disk.node? place →
      ∃ descriptors, HoldsSet disk set descriptors ∧ ∃ p ∈ placements options descriptors,
        disk.node? place = none ∧ later.node? place = some .directory ∧ p.OnTheWay disk place ∨
        (∃ bytes, later.node? place = some (.file bytes)) ∧ later.find p.path = .ok place ∧
          ∃ below, below ≠ [] ∧ place = below ++ disk.placeOf output) ∧
    (options.force = false → disk.IsTree → disk.Grounded output → ∀ place bytes,
      disk.node? place = some (.file bytes) → later.node? place = some (.file bytes)) := by
  intro output later
  have houtput := output_ne_empty_of_parse hparse
  refine ⟨fun name => Batch.escapes_eq_false_iff, fun name hname directory above => ?_, ?_, ?_⟩
  · exact Path.suffix_walk (Batch.up_not_mem_of_not_escapes hname)
  · intro place hne
    obtain hsame | ⟨descriptors, hholds, hplanned, hlater⟩ :=
      run_disk_cases hparse hset input disk
    · exact (hne (by rw [← hsame])).elim
    · simp only [later, hlater] at hne ⊢
      obtain ⟨p, hp, hway | ⟨hfile, hfind⟩⟩ := cases_of_node?_ne hne
      · exact ⟨descriptors, hholds, p, hp, Or.inl hway⟩
      · exact ⟨descriptors, hholds, p, hp,
          Or.inr ⟨hfile, hfind, exists_below_output houtput hplanned hp hfind⟩⟩
  · intro hforce htree hgrounded place bytes hfile
    obtain hsame | ⟨descriptors, -, hplanned, hlater⟩ := run_disk_cases hparse hset input disk
    · simpa only [later, hsame] using hfile
    · simp only [later, hlater]
      exact file_kept_of_planned houtput hplanned hforce htree hgrounded hfile

/-- The output directory is there, with a file in it. -/
def outDisk : Disk where
  entries := [(["out"], .directory), (["c.h", "out"], .file [0x6f, 0x6c, 0x64]),
    (["set.pb"], .file (DescriptorSet.encode ⟨[{ name? := "a/./b" }]⟩))]

theorem run_changes_below_output_nested :
    let later := (run ["--descriptor-set", "set.pb", "-o", "out/../out/"] [] outDisk).2
    outDisk.IsTree ∧ later.node? ["b.h", "a", "out"] ≠ outDisk.node? ["b.h", "a", "out"] ∧
      (∃ below, below ≠ [] ∧
        ["b.h", "a", "out"] = below ++ outDisk.placeOf (Path.ofText "out/../out/")) ∧
      later.node? ["c.h", "out"] = some (.file [0x6f, 0x6c, 0x64]) := by
  intro later
  have htree : outDisk.IsTree := .of_entries (by decide +kernel) rfl
  have hfind : outDisk.find (Path.ofText "out/../out/") = .ok ["out"] := by decide +kernel
  have hgrounded : outDisk.Grounded (Path.ofText "out/../out/") := Disk.grounded_of_find hfind
  have hfile : later.node? ["b.h", "a", "out"] ≠ some .directory := by decide +kernel
  have hchanged : later.node? ["b.h", "a", "out"] ≠ outDisk.node? ["b.h", "a", "out"] := by
    decide +kernel
  have hparse : parse ["--descriptor-set", "set.pb", "-o", "out/../out/"] =
      .ok (.run { descriptorSet? := "set.pb", output? := "out/../out/" }) := rfl
  obtain ⟨-, -, hbelow, hkept⟩ := run_changes_below_output [] outDisk hparse rfl
  obtain ⟨descriptors, -, p, -, ⟨-, hdir, -⟩ | ⟨-, -, hinside⟩⟩ := hbelow _ hchanged
  · exact (hfile hdir).elim
  · exact ⟨htree, hchanged, hinside, hkept rfl htree hgrounded _ _ rfl⟩

/-- The file is there before the directory from which the path of the output directory goes up. -/
def oldFileDisk : Disk where
  entries := [(["a.h"], .file [0x6f, 0x6c, 0x64]),
    (["set.pb"], .file (DescriptorSet.encode ⟨[{ name? := "a" }]⟩))]

/-- A run without `--force` that replaces a file: `x/../a.h` leads nowhere as long as there is no
`x`, and `x` is added on the way to it. -/
theorem run_replaces_file :
    let arguments := ["--descriptor-set", "set.pb", "-o", "x/.."]
    let real := run arguments [] oldFileDisk
    oldFileDisk.IsTree ∧ (∃ options, parse arguments = .ok (.run options) ∧ options.force = false) ∧
      real.1.exit = .success ∧ ¬ ∀ place bytes, oldFileDisk.node? place = some (.file bytes) →
        real.2.node? place = some (.file bytes) := by
  intro arguments real
  refine ⟨.of_entries (by decide +kernel) rfl, ⟨_, rfl, rfl⟩, by decide +kernel, fun hkept => ?_⟩
  have hsame : real.2.node? ["a.h"] = some (.file [0x6f, 0x6c, 0x64]) := hkept _ _ rfl
  have hother : real.2.node? ["a.h"] ≠ some (.file [0x6f, 0x6c, 0x64]) := by decide +kernel
  exact hother hsame

end CommandLine

end SchemaHeader
