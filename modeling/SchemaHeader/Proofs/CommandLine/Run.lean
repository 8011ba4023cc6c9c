import SchemaHeader.CommandLine.Run
import SchemaHeader.Proofs.Batch
import SchemaHeader.Proofs.Request

/-! What a call with a descriptor set does: when it is refused, what a dry run says of the real
one, and which headers are there after it. -/
namespace SchemaHeader.CommandLine

/-- The file of the set holds these descriptors. -/
def HoldsSet (disk : Disk) (set : String) (descriptors : DescriptorSet) : Prop :=
  ∃ bytes, disk.file? (Path.ofText set) = some bytes ∧ DescriptorSet.decode bytes = .ok descriptors

/-- The path of the header of a schema file. -/
def Options.destination (options : Options) (f : FileDescriptor) : String :=
  Batch.destination options.output (f.name ++ ".h")

/-- What can be wrong with a batch before anything is written. -/
inductive Refused (options : Options) (set : String) (disk : Disk) : Prop
  | noSet (h : disk.file? (Path.ofText set) = none)
  | undecodable {bytes : List UInt8} {fault : Wire.Fault}
      (hset : disk.file? (Path.ofText set) = some bytes)
      (h : DescriptorSet.decode bytes = .error fault)
  | notInSet {descriptors : DescriptorSet} {name : String} (hset : HoldsSet disk set descriptors)
      (hname : name ∈ options.files) (h : ∀ f ∈ descriptors.files, f.name ≠ name)
  | illTyped {descriptors : DescriptorSet} {f : FileDescriptor} {m : MessageDescriptor}
      {x : FieldDescriptor} (hset : HoldsSet disk set descriptors)
      (hf : f ∈ descriptors.chosen options.files) (hm : m ∈ f.everyMessage) (hx : x ∈ m.fields)
      (h : x.IsIllTyped)
  | escapes {descriptors : DescriptorSet} {f : FileDescriptor}
      (hset : HoldsSet disk set descriptors) (hf : f ∈ descriptors.chosen options.files)
      (h : Batch.escapes (f.name ++ ".h"))
  | occupied {descriptors : DescriptorSet} {f : FileDescriptor}
      (hset : HoldsSet disk set descriptors) (hf : f ∈ descriptors.chosen options.files)
      (hforce : options.force = false) (h : disk.isOccupied (Path.ofText (options.destination f)))

/-- The headers of the chosen files, in the order of the set. -/
def placements (options : Options) (descriptors : DescriptorSet) : List Placement :=
  (descriptors.chosen options.files).map fun f =>
    ⟨options.destination f, (Dialect.header {} f {}).1⟩

/-- What a run settles before it writes. -/
def planned (options : Options) (set : String) (disk : Disk) : Except Refusal (List Placement) := do
  let headers ← chosenHeaders {} options set (disk.file? (Path.ofText set))
  Batch.plan options.output options.force (fun path => disk.isOccupied (Path.ofText path)) headers

variable {options : Options} {set : String} {disk : Disk} {descriptors other : DescriptorSet}
  {ps : List Placement}

theorem placements_eq : placements options descriptors =
    ((descriptors.chosen options.files).map fun f => (Dialect.header {} f {}).1).map fun h =>
      ⟨Batch.destination options.output h.name, h⟩ := by
  rw [List.map_map]
  rfl

theorem HoldsSet.unique (h : HoldsSet disk set descriptors) (hother : HoldsSet disk set other) :
    descriptors = other := by
  obtain ⟨bytes, hbytes, hdecode⟩ := h
  obtain ⟨more, hmore, hdecode'⟩ := hother
  obtain rfl := Option.some.inj (hbytes.symm.trans hmore)
  exact Except.ok.inj (hdecode.symm.trans hdecode')

theorem exists_holdsSet (h : ¬ Refused options set disk) :
    ∃ descriptors, HoldsSet disk set descriptors := by
  cases hbytes : disk.file? (Path.ofText set) with
  | none => exact (h (.noSet hbytes)).elim
  | some bytes =>
    cases hdecode : DescriptorSet.decode bytes with
    | error fault => exact (h (.undecodable hbytes hdecode)).elim
    | ok descriptors => exact ⟨descriptors, bytes, hbytes, hdecode⟩

theorem chosenHeaders_eq_ok_iff {style : Dialect} {headers : List Header} :
    chosenHeaders style options set (disk.file? (Path.ofText set)) = .ok headers ↔
      ∃ descriptors, HoldsSet disk set descriptors ∧
        (∀ name ∈ options.files, ∃ f ∈ descriptors.files, f.name = name) ∧
        (∀ f ∈ descriptors.chosen options.files,
          ∀ m ∈ f.everyMessage, ∀ x ∈ m.fields, ¬ x.IsIllTyped) ∧
        headers = (descriptors.chosen options.files).map fun f => (style.header f {}).1 := by
  cases hbytes : disk.file? (Path.ofText set) with
  | none => simp [chosenHeaders, HoldsSet, hbytes]
  | some bytes =>
    rw [chosenHeaders, Batch.headers_eq_ok_iff]
    simp [HoldsSet, hbytes]

/-- A batch is planned when all names are in the set and all chosen files are well typed and have
destinations that can be written. -/
theorem planned_eq_ok_iff : planned options set disk = .ok ps ↔
    ∃ descriptors, HoldsSet disk set descriptors ∧
      (∀ name ∈ options.files, ∃ f ∈ descriptors.files, f.name = name) ∧
      (∀ f ∈ descriptors.chosen options.files,
        ∀ m ∈ f.everyMessage, ∀ x ∈ m.fields, ¬ x.IsIllTyped) ∧
      (∀ f ∈ descriptors.chosen options.files, Batch.escapes (f.name ++ ".h") = false ∧
        (options.force = false → disk.isOccupied (Path.ofText (options.destination f)) = false)) ∧
      ps = placements options descriptors := by
  rw [planned, bind_eq_ok_iff]
  constructor
  · rintro ⟨headers, hheaders, hplan⟩
    obtain ⟨descriptors, hset, hnames, htyped, rfl⟩ := chosenHeaders_eq_ok_iff.mp hheaders
    obtain ⟨hfit, rfl⟩ := Batch.plan_eq_ok_iff.mp hplan
    exact ⟨descriptors, hset, hnames, htyped, List.forall_mem_map.mp hfit, placements_eq.symm⟩
  · rintro ⟨descriptors, hset, hnames, htyped, hfit, rfl⟩
    exact ⟨_, chosenHeaders_eq_ok_iff.mpr ⟨descriptors, hset, hnames, htyped, rfl⟩,
      Batch.plan_eq_ok_iff.mpr ⟨List.forall_mem_map.mpr hfit, placements_eq⟩⟩

/-- Each of the reasons keeps a batch from being planned. -/
theorem Refused.planned_eq_error (h : Refused options set disk) :
    ∃ refusal, planned options set disk = .error refusal := by
  cases hplanned : planned options set disk with
  | error refusal => exact ⟨refusal, rfl⟩
  | ok ps =>
    obtain ⟨descriptors, hholds, hnames, htyped, hfit, -⟩ := planned_eq_ok_iff.mp hplanned
    cases h with
    | noSet hnone =>
      obtain ⟨bytes, hbytes, -⟩ := hholds
      cases hnone.symm.trans hbytes
    | undecodable hbytes herror =>
      obtain ⟨bytes, hsome, hdecode⟩ := hholds
      obtain rfl := Option.some.inj (hbytes.symm.trans hsome)
      cases herror.symm.trans hdecode
    | notInSet hset hname hmissing =>
      obtain rfl := hholds.unique hset
      obtain ⟨f, hf, heq⟩ := hnames _ hname
      exact (hmissing f hf heq).elim
    | illTyped hset hf hm hx hbad =>
      obtain rfl := hholds.unique hset
      exact (htyped _ hf _ hm _ hx hbad).elim
    | escapes hset hf hout =>
      obtain rfl := hholds.unique hset
      cases (hfit _ hf).1.symm.trans hout
    | occupied hset hf hforce htaken =>
      obtain rfl := hholds.unique hset
      cases ((hfit _ hf).2 hforce).symm.trans htaken

/-- Without any of the reasons all headers of the batch are planned. -/
theorem planned_eq_ok (h : ¬ Refused options set disk) :
    ∃ descriptors, HoldsSet disk set descriptors ∧
      planned options set disk = .ok (placements options descriptors) := by
  obtain ⟨descriptors, hset⟩ := exists_holdsSet h
  refine ⟨descriptors, hset, planned_eq_ok_iff.mpr ⟨descriptors, hset, ?_, ?_, ?_, rfl⟩⟩
  · intro name hname
    by_contra hmissing
    exact h (.notInSet hset hname fun f hf heq => hmissing ⟨f, hf, heq⟩)
  · intro f hf m hm x hx hbad
    exact h (.illTyped hset hf hm hx hbad)
  · intro f hf
    refine ⟨Bool.eq_false_iff.mpr fun hout => h (.escapes hset hf hout), fun hforce => ?_⟩
    exact Bool.eq_false_iff.mpr fun htaken => h (.occupied hset hf hforce htaken)

/-- Headers of one plan go to one place when their names lead the same way. -/
theorem find_eq_find_iff {later : Disk} (href : ¬ Refused options set disk)
    (hset : HoldsSet disk set descriptors)
    (hstored : Batch.Stored (placements options descriptors) disk later) :
    ∀ p ∈ placements options descriptors, ∀ q ∈ placements options descriptors,
      later.find p.path = later.find q.path ↔ p.steps = q.steps := by
  intro p hp q hq
  obtain ⟨place, hplace⟩ := hstored.found p hp
  obtain ⟨next, hnext⟩ := hstored.found q hq
  obtain ⟨f, hf, rfl⟩ := List.mem_map.mp hp
  obtain ⟨g, hg, rfl⟩ := List.mem_map.mp hq
  have hstays {f : FileDescriptor} (hf : f ∈ descriptors.chosen options.files) :
      Batch.escapes (f.name ++ ".h") = false :=
    Bool.eq_false_iff.mpr fun h => href (.escapes hset hf h)
  rw [hplace, hnext, Except.ok.injEq]
  exact Disk.find_destination_eq_iff (hstays hf) (hstays hg) hplace hnext

section Report

/-- Each destination has a line of its own. -/
theorem printed_wrote (ps : List Placement) :
    printed (ps.map fun p => "Wrote " ++ p.destination) =
      Text.utf8Bytes (String.join (ps.map fun p => "Wrote " ++ p.destination ++ "\n")) := by
  rw [printed, List.map_map]
  rfl

/-- The lines that were written come first, and a header that cannot be stored has one line. -/
theorem refused_eq_of_thwarts {refusal : Refusal} {p : Placement} (h : refusal.Thwarts p)
    (written : List Placement) : refused written refusal =
      { exit := .failure
        output := Text.utf8Bytes (String.join (written.map fun p =>
          "Wrote " ++ p.destination ++ "\n"))
        errors := ["error: " ++ refusal.text] } := by
  rw [refused, printed_wrote]
  obtain ⟨fault, ⟨directory, rfl⟩ | rfl⟩ := h
  · rfl
  · rfl

/-- The content of a header stands between two lines of its own. -/
theorem printed_previewLines (verbosity : Nat) (ps : List Placement) :
    printed (ps.flatMap (previewLines (0 < verbosity))) =
      Text.utf8Bytes (String.join (ps.map fun p => "Would write: " ++ p.destination ++ "\n" ++
        if 0 < verbosity then "---\n" ++ p.header.content ++ "\n---\n" else "")) := by
  rw [printed]
  congr 1
  induction ps with
  | nil => rfl
  | cons p rest ih =>
    rw [List.flatMap_cons, List.map_append, String.join_append, ih, List.map_cons,
      String.join_cons]
    congr 1
    by_cases hverbose : 0 < verbosity <;> simp [previewLines, hverbose, String.append_assoc]

end Report

section Run

variable {arguments dryArguments : List String} {refusal : Refusal}

theorem planned_eq_of_chosenHeaders {headers : List Header}
    (h : chosenHeaders {} options set (disk.file? (Path.ofText set)) = .ok headers) :
    let paths := headers.map fun h => Batch.destination options.output h.name
    let taken := paths.filter fun path => disk.isOccupied (Path.ofText path)
    planned options set disk = Batch.plan options.output options.force taken.contains headers := by
  intro paths taken
  rw [planned, h]
  refine Batch.plan_congr fun header hheader => ?_
  have hpath : Batch.destination options.output header.name ∈ paths :=
    List.mem_map.mpr ⟨header, hheader, rfl⟩
  rw [Bool.eq_iff_iff, List.contains_iff_mem, List.mem_filter]
  exact (and_iff_right hpath).symm

/-- All that is written comes after the plan. -/
theorem writeHeaders_eq (options : Options) (set : String) (disk : Disk) :
    writeHeaders {} options set disk =
      match planned options set disk with
      | .error refusal => (refused [] refusal, disk)
      | .ok ps =>
        if options.dryRun then (preview options ps, disk)
        else
          let (later, written, refusal?) := Batch.storeAll ps disk
          (stored written refusal?, later) := by
  have hfile : (FileCalls.file? (Path.ofText set) : StateM Disk _).run disk =
      (disk.file? (Path.ofText set), disk) := rfl
  rw [writeHeaders, writingHeaders, run_bind, hfile]
  cases hheaders : chosenHeaders {} options set (disk.file? (Path.ofText set)) with
  | error refusal => simp only [planned, hheaders]; rfl
  | ok headers =>
    dsimp only
    have htaken (path : String) :
        (FileCalls.isOccupied (Path.ofText path) : StateM Disk _).run disk =
          (disk.isOccupied (Path.ofText path), disk) := rfl
    rw [run_bind, run_filterM htaken, planned_eq_of_chosenHeaders hheaders]
    cases Batch.plan options.output options.force _ headers with
    | error refusal => rfl
    | ok ps =>
      dsimp only
      split
      · rfl
      · rfl

theorem run_eq_writeHeaders (hparse : parse arguments = .ok (.run options))
    (hset : options.descriptorSet? = some set) (input : List UInt8) (disk : Disk) :
    run arguments input disk = writeHeaders {} options set disk := by
  rw [run, program, hparse]
  dsimp only
  rw [hset]
  rfl

theorem run_of_planned_error (hparse : parse arguments = .ok (.run options))
    (hset : options.descriptorSet? = some set) (input : List UInt8)
    (h : planned options set disk = .error refusal) :
    run arguments input disk = (refused [] refusal, disk) := by
  rw [run_eq_writeHeaders hparse hset, writeHeaders_eq, h]

theorem run_of_planned_dry (hparse : parse arguments = .ok (.run options))
    (hset : options.descriptorSet? = some set) (hdry : options.dryRun = true) (input : List UInt8)
    (h : planned options set disk = .ok ps) :
    run arguments input disk = (preview options ps, disk) := by
  rw [run_eq_writeHeaders hparse hset, writeHeaders_eq, h]
  exact if_pos hdry

theorem run_eq_storeAll (hparse : parse arguments = .ok (.run options))
    (hset : options.descriptorSet? = some set) (hreal : options.dryRun = false)
    (input : List UInt8) (h : planned options set disk = .ok ps) :
    run arguments input disk = (stored (Batch.storeAll ps disk).2.1 (Batch.storeAll ps disk).2.2,
      (Batch.storeAll ps disk).1) := by
  rw [run_eq_writeHeaders hparse hset, writeHeaders_eq, h]
  exact if_neg (by simp [hreal])

/-- A real run that is planned stores all headers, or those before the first that is thwarted. -/
theorem run_of_planned (hparse : parse arguments = .ok (.run options))
    (hset : options.descriptorSet? = some set) (hreal : options.dryRun = false)
    (input : List UInt8) (h : planned options set disk = .ok ps) :
    ∃ later written, Batch.Stored written disk later ∧
      ((written = ps ∧ run arguments input disk = (stored written none, later)) ∨
        ∃ p after, ∃ refusal : Refusal, ps = written ++ p :: after ∧ refusal.Thwarts p ∧
          run arguments input disk = (stored written (some refusal), later)) := by
  have hrun := run_eq_storeAll hparse hset hreal input h
  obtain ⟨later, written, hstored, ⟨rfl, hall⟩ | ⟨p, after, refusal, hsplit, hthwarts, hall⟩⟩ :=
    Batch.storeAll_cases ps disk
  · exact ⟨later, written, hstored, Or.inl ⟨rfl, by rw [hrun, hall]⟩⟩
  · exact ⟨later, written, hstored,
      Or.inr ⟨p, after, refusal, hsplit, hthwarts, by rw [hrun, hall]⟩⟩

/-- A dry run changes nothing. It is refused just as the real run is, and otherwise names the
destinations that the real run stores to, in their order, up to the first that fails. -/
theorem dryRun_foretells (input : List UInt8) (disk : Disk)
    (hparse : parse arguments = .ok (.run options)) (hreal : options.dryRun = false)
    (hdry : parse dryArguments = .ok (.run { options with dryRun := true }))
    (hset : options.descriptorSet? = some set) :
    let real := run arguments input disk
    let dry := run dryArguments input disk
    dry.2 = disk ∧
    (Refused options set disk → real.2 = disk ∧ real.1.exit = .failure ∧ real.1.output = [] ∧
      dry.1 = real.1) ∧
    (¬ Refused options set disk → ∃ descriptors, HoldsSet disk set descriptors ∧
      let ps := placements options descriptors
      dry.1.exit = .success ∧ dry.1.errors = [] ∧
      dry.1.output = Text.utf8Bytes (String.join (ps.map fun p =>
        "Would write: " ++ p.destination ++ "\n" ++
          if 0 < options.verbosity then "---\n" ++ p.header.content ++ "\n---\n" else "")) ∧
      ∃ written, Batch.Stored written disk real.2 ∧
        real.1.output = Text.utf8Bytes (String.join (written.map fun p =>
          "Wrote " ++ p.destination ++ "\n")) ∧
        ((real.1.exit = .success ∧ written = ps) ∨
          real.1.exit = .failure ∧ ∃ p after, ∃ refusal : Refusal, ps = written ++ p :: after ∧
            refusal.Thwarts p ∧ real.1.errors = ["error: " ++ refusal.text])) := by
  by_cases href : Refused options set disk
  · obtain ⟨refusal, hplanned⟩ := href.planned_eq_error
    rw [run_of_planned_error hparse hset input hplanned,
      run_of_planned_error hdry hset input hplanned]
    exact ⟨rfl, fun _ => ⟨rfl, rfl, rfl, rfl⟩, fun h => (h href).elim⟩
  · obtain ⟨descriptors, hholds, hplanned⟩ := planned_eq_ok href
    rw [run_of_planned_dry hdry hset rfl input hplanned]
    refine ⟨rfl, fun h => (href h).elim, fun _ => ⟨descriptors, hholds, rfl, rfl,
      printed_previewLines _ _, ?_⟩⟩
    obtain ⟨later, written, hstored, ⟨rfl, hrun⟩ | ⟨p, after, refusal, hsplit, hthwarts, hrun⟩⟩ :=
      run_of_planned hparse hset hreal input hplanned
    · rw [hrun]
      exact ⟨_, hstored, printed_wrote _, Or.inl ⟨rfl, rfl⟩⟩
    · rw [hrun]
      rw [stored, refused_eq_of_thwarts hthwarts written]
      exact ⟨written, hstored, rfl, Or.inr ⟨rfl, p, after, refusal, hsplit, hthwarts, rfl⟩⟩

/-- A set in which two files have one name. -/
def repeatedName : DescriptorSet where
  files := [{ name? := "a", package? := "x" }, { name? := "a", package? := "y" }]

def repeatedDisk : Disk where
  entries := [(["set.pb"], .file repeatedName.encode)]

theorem holdsSet_repeatedDisk : HoldsSet repeatedDisk "set.pb" repeatedName :=
  ⟨_, rfl, DescriptorSet.decode_encode (by decide) (by decide +kernel)⟩

theorem dryRun_foretells_repeated :
    let options : Options := { descriptorSet? := "set.pb", output? := "out", verbosity := 1 }
    let real := run ["--descriptor-set", "set.pb", "-o", "out", "-v"] [] repeatedDisk
    let dry := run ["--descriptor-set", "set.pb", "-o", "out", "-v", "--dry-run"] [] repeatedDisk
    let content (package : String) := "// Generated by protoc-gen-cppstream. DO NOT MODIFY.\n" ++
      "// source: a\n\n#ifndef ANDROID_A_STREAM_H\n#define ANDROID_A_STREAM_H\n\n" ++
      "namespace " ++ package ++ " \x7b\n\n\x7d // " ++ package ++ "\n\n" ++
      "#endif // ANDROID_A_STREAM_H\n"
    ¬ Refused options "set.pb" repeatedDisk ∧ dry.2.entries = repeatedDisk.entries ∧
      dry.1.output = Text.utf8Bytes ("Would write: out/a.h\n---\n" ++ content "x" ++
        "\n---\nWould write: out/a.h\n---\n" ++ content "y" ++ "\n---\n") ∧
      real.1.output = Text.utf8Bytes "Wrote out/a.h\nWrote out/a.h\n" ∧
      Batch.Stored (placements options repeatedName) repeatedDisk real.2 := by
  intro options real dry content
  have hok : real.1.exit = .success := by decide +kernel
  obtain ⟨hdisk, hrefused, hplanned⟩ := dryRun_foretells [] repeatedDisk
    (show parse ["--descriptor-set", "set.pb", "-o", "out", "-v"] = .ok (.run options) from rfl) rfl
    (show parse ["--descriptor-set", "set.pb", "-o", "out", "-v", "--dry-run"] =
      .ok (.run { options with dryRun := true }) from rfl) rfl
  have href : ¬ Refused options "set.pb" repeatedDisk := fun h => by
    cases hok.symm.trans (hrefused h).2.1
  obtain ⟨descriptors, hset, -, -, hdry, written, hstored, hwrote, ⟨-, rfl⟩ | ⟨hfailure, -⟩⟩ :=
    hplanned href
  · obtain rfl := hset.unique holdsSet_repeatedDisk
    refine ⟨href, by rw [hdisk], hdry.trans (congrArg Text.utf8Bytes ?_),
      hwrote.trans (congrArg Text.utf8Bytes ?_), hstored⟩
    · decide +kernel
    · decide +kernel
  · cases hok.symm.trans hfailure

/-- After a run that succeeds, the last of the headers whose names lead the same way is in the
file of each of them. So no header is lost exactly where such headers have one content. -/
theorem run_keeps_last (input : List UInt8) (disk : Disk)
    (hparse : parse arguments = .ok (.run options)) (hset : options.descriptorSet? = some set)
    (hreal : options.dryRun = false) (hok : (run arguments input disk).1.exit = .success) :
    ∃ descriptors, HoldsSet disk set descriptors ∧
      let ps := placements options descriptors
      let real := run arguments input disk
      real.1.output = Text.utf8Bytes (String.join (ps.map fun p =>
        "Wrote " ++ p.destination ++ "\n")) ∧
      (∀ before last after, ps = before ++ last :: after →
        (∀ q ∈ after, q.steps ≠ last.steps) →
        ∀ p ∈ ps, p.steps = last.steps → real.2.file? p.path = some last.bytes) ∧
      ((∀ p ∈ ps, real.2.file? p.path = some p.bytes) ↔
        ∀ p ∈ ps, ∀ q ∈ ps, p.steps = q.steps → p.header.content = q.header.content) := by
  by_cases href : Refused options set disk
  · obtain ⟨refusal, hplanned⟩ := href.planned_eq_error
    rw [run_of_planned_error hparse hset input hplanned] at hok
    cases hok
  · obtain ⟨descriptors, hholds, hplanned⟩ := planned_eq_ok href
    obtain ⟨later, written, hstored, ⟨rfl, hrun⟩ | ⟨p, after, refusal, -, -, hrun⟩⟩ :=
      run_of_planned hparse hset hreal input hplanned
    · have hkey := find_eq_find_iff href hholds hstored
      rw [hrun]
      refine ⟨descriptors, hholds, printed_wrote _, ?_, hstored.forall_file?_iff hkey⟩
      intro before last after hsplit hafter p hp heq
      exact hstored.file?_eq hkey hsplit hafter hp heq
    · rw [hrun] at hok
      cases hok

theorem run_keeps_last_repeated :
    let options : Options := { descriptorSet? := "set.pb", output? := "out" }
    let real := run ["--descriptor-set", "set.pb", "-o", "out"] [] repeatedDisk
    let ps := placements options repeatedName
    real.1.exit = .success ∧ real.1.output = Text.utf8Bytes "Wrote out/a.h\nWrote out/a.h\n" ∧
      ((∀ p ∈ ps, real.2.file? p.path = some p.bytes) ↔
        ∀ p ∈ ps, ∀ q ∈ ps, p.steps = q.steps → p.header.content = q.header.content) := by
  intro options real ps
  have hok : real.1.exit = .success := by decide +kernel
  obtain ⟨descriptors, hset, hwrote, -, hkept⟩ := run_keeps_last [] repeatedDisk rfl rfl rfl hok
  obtain rfl := hset.unique holdsSet_repeatedDisk
  exact ⟨hok, hwrote.trans (congrArg Text.utf8Bytes (by decide +kernel)), hkept⟩

/-- A run without `--force` that succeeds and loses a header: both files of the set get one path,
and the second header takes the place of the first. -/
theorem run_loses_header :
    let options : Options := { descriptorSet? := "set.pb", output? := "out" }
    let real := run ["--descriptor-set", "set.pb", "-o", "out"] [] repeatedDisk
    real.1.exit = .success ∧ real.1.output = Text.utf8Bytes "Wrote out/a.h\nWrote out/a.h\n" ∧
      ¬ ∀ f ∈ repeatedName.files, real.2.file? (Path.ofText (options.destination f)) =
        some (Text.utf8Bytes (Dialect.header {} f {}).1.content) := by
  decide +kernel

end Run

end SchemaHeader.CommandLine
