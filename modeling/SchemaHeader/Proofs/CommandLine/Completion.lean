import SchemaHeader.Proofs.Batch.Room

/-! When a run whose batch was accepted writes all the headers of it. -/
namespace SchemaHeader

namespace Batch

/-- A plan leads below the directory, by the names of the headers. -/
theorem isBelow_of_plan {directory : String} {force : Bool} {isOccupied : String → Bool}
    {hs : List Header} {ps : List Placement} (h : plan directory force isOccupied hs = .ok ps) :
    ∀ p ∈ ps, p.IsBelow directory := by
  obtain ⟨hfit, rfl⟩ := plan_eq_ok_iff.mp h
  intro p hp
  obtain ⟨header, hheader, rfl⟩ := List.mem_map.mp hp
  exact ⟨(hfit header hheader).1, rfl⟩

end Batch

namespace CommandLine

variable {arguments : List String} {options : Options} {set directory : String}
  {disk ready : Disk} {ps : List Placement}

theorem isBelow_of_planned (h : planned options set disk = .ok ps) :
    ∀ p ∈ ps, p.IsBelow options.output := by
  rw [planned, bind_eq_ok_iff] at h
  obtain ⟨hs, -, hplan⟩ := h
  exact Batch.isBelow_of_plan hplan

/-- A batch that was accepted is written to its end exactly where there is room for all of it. A run
for which there is no room ends at a header that cannot be stored, and those before it are there. -/
theorem accepted_stored_iff (htree : disk.IsTree) (hdirectory : directory ≠ "")
    (hready : Disk.makeDirectories (Path.ofText directory).trimmed disk = (ready, none)) :
    let root := ready.placeOf (Path.ofText directory)
    (∀ force hs ps, Batch.plan directory force (fun path => disk.isOccupied (Path.ofText path)) hs =
      .ok ps → ((∃ later, Batch.storeAll ps disk = (later, ps, none)) ↔
        Batch.HasRoom root ps ready)) ∧
    ∀ {arguments options set ps}, parse arguments = .ok (.run options) →
      options.output = directory → options.descriptorSet? = some set → options.dryRun = false →
      planned options set disk = .ok ps → ∀ input,
        let real := run arguments input disk
        (Batch.HasRoom root ps ready → real.1.exit = .success ∧
          real.1.output = Text.utf8Bytes (String.join (ps.map fun p =>
            "Wrote " ++ p.destination ++ "\n"))) ∧
        (¬ Batch.HasRoom root ps ready → ∃ written p after, ∃ refusal : Refusal,
          ps = written ++ p :: after ∧ refusal.Thwarts p ∧ Batch.Stored written disk real.2 ∧
            real.1 = { exit := .failure
                       output := Text.utf8Bytes (String.join (written.map fun p =>
                         "Wrote " ++ p.destination ++ "\n"))
                       errors := ["error: " ++ refusal.text] }) := by
  intro root
  refine ⟨fun force hs ps hplan => ?_, ?_⟩
  · exact Batch.storeAll_eq_iff hdirectory (Batch.isBelow_of_plan hplan) hready htree
  · intro arguments options set ps hparse houtput hset hreal hplanned input real
    have hroom : (∃ later, Batch.storeAll ps disk = (later, ps, none)) ↔
        Batch.HasRoom root ps ready :=
      Batch.storeAll_eq_iff hdirectory (houtput ▸ isBelow_of_planned hplanned) hready htree
    have hrun : real = (stored (Batch.storeAll ps disk).2.1 (Batch.storeAll ps disk).2.2,
        (Batch.storeAll ps disk).1) := run_eq_storeAll hparse hset hreal input hplanned
    rw [← hroom]
    constructor
    · rintro ⟨later, hall⟩
      rw [hrun, hall]
      exact ⟨rfl, printed_wrote ps⟩
    · intro hnot
      obtain ⟨later, written, hstored,
        ⟨rfl, hall⟩ | ⟨p, after, refusal, hsplit, hthwarts, hall⟩⟩ := Batch.storeAll_cases ps disk
      · exact (hnot ⟨later, hall⟩).elim
      · rw [hrun, hall]
        exact ⟨written, p, after, refusal, hsplit, hthwarts, hstored,
          refused_eq_of_thwarts hthwarts written⟩

theorem accepted_stored_iff_nested :
    let real := run ["--descriptor-set", "set.pb", "-o", "out/new"] [] outDisk
    let ready := (Disk.makeDirectories (Path.ofText "out/new").trimmed outDisk).1
    outDisk.IsTree ∧ (Disk.makeDirectories (Path.ofText "out/new").trimmed outDisk).2 = none ∧
      ∃ hs ps, Batch.plan "out/new" false (fun path => outDisk.isOccupied (Path.ofText path)) hs =
          .ok ps ∧
        Batch.HasRoom (ready.placeOf (Path.ofText "out/new")) ps ready ∧
        (∃ later, Batch.storeAll ps outDisk = (later, ps, none)) ∧ real.1.exit = .success := by
  intro real ready
  have hok : real.1.exit = .success := by decide +kernel
  have htree : outDisk.IsTree := .of_entries (by decide +kernel) rfl
  have hnone : (Disk.makeDirectories (Path.ofText "out/new").trimmed outDisk).2 = none := by
    decide +kernel
  let options : Options := { descriptorSet? := "set.pb", output? := "out/new" }
  have hparse : parse ["--descriptor-set", "set.pb", "-o", "out/new"] = .ok (.run options) := rfl
  obtain ⟨hstored, hrun⟩ := accepted_stored_iff htree (by decide) (Prod.ext rfl hnone)
  cases hplanned : planned options "set.pb" outDisk with
  | error refusal =>
    have hrefused : real = (refused [] refusal, outDisk) :=
      run_of_planned_error hparse rfl [] hplanned
    rw [hrefused] at hok
    cases hok
  | ok ps =>
    have hroom : Batch.HasRoom (ready.placeOf (Path.ofText "out/new")) ps ready := by
      by_contra hnot
      obtain ⟨written, p, after, refusal, -, -, -, hrefused⟩ :=
        (hrun hparse rfl rfl rfl hplanned []).2 hnot
      rw [hrefused] at hok
      cases hok
    obtain ⟨hs, -, hplan⟩ := bind_eq_ok_iff.mp hplanned
    exact ⟨htree, hnone, hs, ps, hplan, hroom, (hstored false hs ps hplan).mpr hroom, hok⟩

/-- The header of the first file goes where that of the second needs a directory. -/
def clashDisk : Disk where
  entries := [(["set.pb"], .file (DescriptorSet.encode ⟨[{ name? := "a" }, { name? := "a.h/b" }]⟩))]

/-- A run that ends with an error after it has written the first header of a batch that was
accepted. -/
theorem run_ends_half_way :
    let arguments := ["--descriptor-set", "set.pb", "-o", "out"]
    let options : Options := { descriptorSet? := "set.pb", output? := "out" }
    let real := run arguments [] clashDisk
    clashDisk.IsTree ∧ (Disk.makeDirectories (Path.ofText "out").trimmed clashDisk).2 = none ∧
      parse arguments = .ok (.run options) ∧
      (planned options "set.pb" clashDisk).map (·.map (·.destination)) =
        .ok ["out/a.h", "out/a.h/b.h"] ∧
      (planned options "set.pb" clashDisk).map (fun ps => (Batch.storeAll ps clashDisk).2.2) =
        .ok (some (.cannotCreate "out/a.h" "a.h/b.h" .alreadyExists)) ∧
      real.1.exit = .failure ∧ real.1.output = Text.utf8Bytes "Wrote out/a.h\n" := by
  refine ⟨.of_entries (by decide +kernel) rfl, by decide +kernel, rfl, ?_, ?_, ?_⟩
  · decide +kernel
  · decide +kernel
  · decide +kernel

end CommandLine

end SchemaHeader
