import SchemaHeader.Proofs.Disk.Path
import SchemaHeader.Proofs.Generation

/-! When a batch is accepted, and what the disk holds once its headers were stored. -/
namespace SchemaHeader

theorem mapError_eq_ok_iff {ε δ α : Type} {x : Except ε α} {f : ε → δ} {a : α} :
    x.mapError f = .ok a ↔ x = .ok a := by
  cases x with
  | error e => simp [Except.mapError]
  | ok b => simp [Except.mapError]

namespace DescriptorSet

variable (s : DescriptorSet) (names : List String) (parameter? : Option String)

/-- The files of the set that `names` lists, or all of them when it lists none. -/
def chosen : List FileDescriptor := s.files.filter fun f => names = [] ∨ f.name ∈ names

theorem chosen_eq : ((s.request names parameter?).files.filter fun f =>
    f.name ∈ (s.request names parameter?).wanted) = s.chosen names := by
  cases names with
  | nil =>
    refine List.filter_congr fun f hf => ?_
    simpa [request] using ⟨f, hf, rfl⟩
  | cons name rest => simp [request, chosen]

end DescriptorSet

namespace Placement

variable (p : Placement)

def path : Path := Path.ofText p.destination

def bytes : List UInt8 := Text.utf8Bytes p.header.content

/-- The way that the name of the header leads below its directory. -/
def steps : List String := (Path.ofText p.header.name).steps

theorem bytes_eq_iff {p q : Placement} :
    p.bytes = q.bytes ↔ p.header.content = q.header.content := by
  refine ⟨fun h => ?_, fun h => by rw [bytes, bytes, h]⟩
  have hread := congrArg Text.ofUtf8Bytes? h
  rw [bytes, bytes, Text.ofUtf8Bytes?_utf8Bytes, Text.ofUtf8Bytes?_utf8Bytes] at hread
  exact Option.some.inj hread

end Placement

/-- In a list there is a last one of those that have a key in common. -/
theorem exists_last_of_mem {α κ : Type} (key : α → κ) {a : α} {as : List α} (h : a ∈ as) :
    ∃ before last after, as = before ++ last :: after ∧ key a = key last ∧
      ∀ b ∈ after, key b ≠ key last := by
  induction as generalizing a with
  | nil => cases h
  | cons first rest ih =>
    by_cases hrest : ∃ b ∈ rest, key b = key a
    · obtain ⟨b, hb, heq⟩ := hrest
      obtain ⟨before, last, after, rfl, hlast, hafter⟩ := ih hb
      exact ⟨first :: before, last, after, rfl, heq.symm.trans hlast, hafter⟩
    · obtain rfl | ha := List.mem_cons.mp h
      · exact ⟨[], a, rest, rfl, rfl, fun b hb heq => hrest ⟨b, hb, heq⟩⟩
      · exact (hrest ⟨a, ha, rfl⟩).elim

/-- The directory that a header goes into could not be made, or else its file. -/
def Refusal.Thwarts (p : Placement) (r : Refusal) : Prop :=
  ∃ fault, (∃ directory, r = .cannotCreate directory p.header.name fault) ∨
    r = .cannotWrite p.destination fault

namespace Batch

section Plan

variable {style : Dialect} {set directory : String} {bytes : List UInt8} {names : List String}
  {parameter? : Option String} {force : Bool} {isOccupied : String → Bool} {hs : List Header}
  {placements : List Placement}

/-- A list of names is refused for one that no file of the set has, and otherwise it leads to what
the request for these names leads to. -/
theorem headers_cases {descriptors : DescriptorSet} (style : Dialect) (set : String)
    (names : List String) (parameter? : Option String)
    (h : DescriptorSet.decode bytes = .ok descriptors) :
    ((∀ name ∈ names, ∃ f ∈ descriptors.files, f.name = name) ∧
      headers style set bytes names parameter? =
        (style.headers (descriptors.request names parameter?)).mapError .illTyped) ∨
    ∃ name ∈ names, (∀ f ∈ descriptors.files, f.name ≠ name) ∧
      headers style set bytes names parameter? = .error (.notInSet set name) := by
  cases hfind : names.find? fun name => !descriptors.files.any (·.name == name) with
  | some name =>
    have hheaders : headers style set bytes names parameter? = .error (.notInSet set name) := by
      simp [headers, h, Except.mapError, bind, Except.bind, hfind]
    have hmissing := List.find?_some hfind
    simp only [Bool.not_eq_true', List.any_eq_false, beq_iff_eq] at hmissing
    exact Or.inr ⟨name, List.mem_of_find?_eq_some hfind, hmissing, hheaders⟩
  | none =>
    have hheaders : headers style set bytes names parameter? =
        (style.headers (descriptors.request names parameter?)).mapError .illTyped := by
      simp [headers, h, Except.mapError, bind, Except.bind, hfind]
    have hnames : ∀ name ∈ names, ∃ f ∈ descriptors.files, f.name = name := by
      simpa [List.find?_eq_none] using hfind
    exact Or.inl ⟨hnames, hheaders⟩

/-- Headers are made when all listed names are in the set and all chosen files are well typed. -/
theorem headers_eq_ok_iff : headers style set bytes names parameter? = .ok hs ↔
    ∃ descriptors, DescriptorSet.decode bytes = .ok descriptors ∧
      (∀ name ∈ names, ∃ f ∈ descriptors.files, f.name = name) ∧
      (∀ f ∈ descriptors.chosen names, ∀ m ∈ f.everyMessage, ∀ x ∈ m.fields, ¬ x.IsIllTyped) ∧
      hs = (descriptors.chosen names).map fun f => (style.header f {}).1 := by
  cases hdecode : DescriptorSet.decode bytes with
  | error fault =>
    rw [headers, hdecode]
    constructor
    · intro h
      cases h
    · rintro ⟨descriptors, h, -⟩
      cases h
  | ok descriptors =>
    simp only [Except.ok.injEq, exists_eq_left']
    obtain ⟨hnames, hheaders⟩ | ⟨name, hname, hmissing, hheaders⟩ :=
      headers_cases style set names parameter? hdecode
    · rw [hheaders, mapError_eq_ok_iff, Dialect.headers_eq_ok_iff, DescriptorSet.chosen_eq]
      exact (and_iff_right hnames).symm
    · rw [hheaders]
      constructor
      · intro h
        cases h
      · rintro ⟨hnames, -⟩
        obtain ⟨f, hf, heq⟩ := hnames name hname
        exact (hmissing f hf heq).elim

/-- A plan asks for nothing but the destinations of its headers. -/
theorem plan_congr {isTaken : String → Bool} (h : ∀ header ∈ hs,
    isOccupied (destination directory header.name) = isTaken (destination directory header.name)) :
    plan directory force isOccupied hs = plan directory force isTaken hs := by
  induction hs with
  | nil => rfl
  | cons header rest ih =>
    obtain ⟨hfirst, hrest⟩ := List.forall_mem_cons.mp h
    simp only [plan, hfirst, ih hrest]

/-- Each header is fit for its destination. -/
theorem plan_eq_ok_iff : plan directory force isOccupied hs = .ok placements ↔
    (∀ h ∈ hs, escapes h.name = false ∧
      (force = false → isOccupied (destination directory h.name) = false)) ∧
    placements = hs.map fun h => ⟨destination directory h.name, h⟩ := by
  induction hs generalizing placements with
  | nil =>
    rw [plan, Except.ok.injEq, List.map_nil, eq_comm]
    simp
  | cons h rest ih =>
    rw [plan, List.forall_mem_cons, List.map_cons]
    dsimp only
    split
    · next hescapes => simp [hescapes]
    · next hescapes =>
      split
      · next hoccupied =>
        rw [Bool.and_eq_true, Bool.not_eq_true'] at hoccupied
        simp [hoccupied]
      · next hoccupied =>
        have hfit : escapes h.name = false ∧
            (force = false → isOccupied (destination directory h.name) = false) := by
          simpa [hescapes] using hoccupied
        rw [bind_eq_ok_iff]
        simp only [ih]
        constructor
        · rintro ⟨_, ⟨hrest, rfl⟩, hplacements⟩
          exact ⟨⟨hfit, hrest⟩, (Except.ok.inj hplacements).symm⟩
        · rintro ⟨⟨-, hrest⟩, rfl⟩
          exact ⟨_, ⟨hrest, rfl⟩, rfl⟩

end Plan

section Store

variable {disk mid next later : Disk} {p : Placement} {written : List Placement}

/-- The disk with the directories that a header goes into. -/
def makeWay (p : Placement) (disk : Disk) : Disk × Option Refusal :=
  ((FileCalls.makeWay p : StateM Disk (Option Refusal)).run disk).swap

theorem makeWay_eq (p : Placement) (disk : Disk) : makeWay p disk =
    match p.path.parent? with
    | some parent => ((disk.makeDirectories parent).1,
        (disk.makeDirectories parent).2.map (.cannotCreate parent.text p.header.name))
    | none => (disk, none) := by
  rw [makeWay, FileCalls.makeWay, Placement.path]
  cases (Path.ofText p.destination).parent? with
  | none => rfl
  | some parent => rfl

theorem store_eq (p : Placement) (disk : Disk) : store p disk =
    match (makeWay p disk).2 with
    | some refusal => ((makeWay p disk).1, some refusal)
    | none =>
      match (makeWay p disk).1.writeFile p.path p.bytes with
      | .ok later => (later, none)
      | .error fault => ((makeWay p disk).1, some (.cannotWrite p.destination fault)) := by
  rw [store, FileCalls.store, run_bind, makeWay]
  cases (FileCalls.makeWay p : StateM Disk (Option Refusal)).run disk with
  | mk refusal? mid =>
    cases refusal? with
    | some refusal => rfl
    | none =>
      dsimp only [Prod.swap, Placement.path, Placement.bytes]
      rw [run_bind, Disk.run_writeFile]
      cases mid.writeFile (Path.ofText p.destination) (Text.utf8Bytes p.header.content) with
      | ok later => rfl
      | error fault => rfl

theorem kept_makeWay (p : Placement) (disk : Disk) :
    Disk.Kept (fun _ => False) disk (makeWay p disk).1 := by
  rw [makeWay_eq]
  cases p.path.parent? with
  | none => exact .refl _ disk
  | some parent => exact Disk.kept_makeDirectories parent disk

theorem thwarts_of_makeWay_eq_some {refusal : Refusal} (h : (makeWay p disk).2 = some refusal) :
    refusal.Thwarts p := by
  rw [makeWay_eq] at h
  cases hparent : p.path.parent? with
  | none => simp [hparent] at h
  | some parent =>
    rw [hparent] at h
    obtain ⟨fault, -, rfl⟩ := Option.map_eq_some_iff.mp h
    exact ⟨fault, Or.inl ⟨_, rfl⟩⟩

/-- Storing a header adds directories and then writes the file. Where either fails no file was
written to. -/
theorem store_cases (p : Placement) (disk : Disk) : ∃ mid, Disk.Kept (fun _ => False) disk mid ∧
    ((∃ refusal, refusal.Thwarts p ∧ store p disk = (mid, some refusal)) ∨
      ∃ later, mid.writeFile p.path p.bytes = .ok later ∧ store p disk = (later, none)) := by
  refine ⟨(makeWay p disk).1, kept_makeWay p disk, ?_⟩
  rw [store_eq]
  cases hway : (makeWay p disk).2 with
  | some refusal => exact Or.inl ⟨refusal, thwarts_of_makeWay_eq_some hway, rfl⟩
  | none =>
    dsimp only
    cases (makeWay p disk).1.writeFile p.path p.bytes with
    | error fault => exact Or.inl ⟨_, ⟨fault, Or.inr rfl⟩, rfl⟩
    | ok later => exact Or.inr ⟨later, rfl, rfl⟩

/-- What is on a disk where headers were stored one after the other: of those that lead to one
place the last is there, and nothing else was written to. -/
structure Stored (written : List Placement) (disk later : Disk) : Prop where
  found : ∀ p ∈ written, ∃ place, later.find p.path = .ok place
  last : ∀ before p after, written = before ++ p :: after →
    (∀ q ∈ after, later.find q.path ≠ later.find p.path) → later.file? p.path = some p.bytes
  kept : Disk.Kept (fun place => ∃ p ∈ written, later.find p.path = .ok place) disk later

theorem Stored.nil (h : Disk.Kept (fun _ => False) disk later) : Stored [] disk later where
  found := by simp
  last := by simp
  kept := h.mono fun _ => False.elim

/-- A header that is stored first stays unless one of those after it leads to its place. -/
theorem Stored.cons (hmid : Disk.Kept (fun _ => False) disk mid)
    (hwrite : mid.writeFile p.path p.bytes = .ok next) (hrest : Stored written next later) :
    Stored (p :: written) disk later := by
  obtain ⟨target, hfind, hnode, hkept⟩ := Disk.find_writeFile hwrite
  have htarget : later.find p.path = .ok target := hrest.kept.find hfind
  refine ⟨?_, ?_, ?_⟩
  · exact List.forall_mem_cons.mpr ⟨⟨target, htarget⟩, hrest.found⟩
  · intro before q after hsplit hafter
    rcases List.cons_eq_append_iff.mp hsplit with ⟨-, hq⟩ | ⟨before', -, hwritten⟩
    · obtain ⟨rfl, rfl⟩ := List.cons.inj hq
      refine Disk.file?_of_find htarget (hrest.kept.unwritten ?_ hnode)
      rintro ⟨r, hr, hfindr⟩
      exact hafter r hr (hfindr.trans htarget.symm)
    · exact hrest.last before' q after hwritten hafter
  · refine (hmid.mono fun _ => False.elim).trans ((hkept.mono ?_).trans (hrest.kept.mono ?_))
    · rintro _ rfl
      exact ⟨p, List.mem_cons_self, htarget⟩
    · rintro place ⟨q, hq, hfindq⟩
      exact ⟨q, List.mem_cons_of_mem p hq, hfindq⟩

theorem storeAll_cons (p : Placement) (rest : List Placement) (disk : Disk) :
    storeAll (p :: rest) disk = match store p disk with
      | (later, some refusal) => (later, [], some refusal)
      | (later, none) =>
        let (later, written, refusal?) := storeAll rest later
        (later, p :: written, refusal?) := by
  rw [storeAll, FileCalls.storeAll, run_bind, store]
  cases (FileCalls.store p : StateM Disk (Option Refusal)).run disk with
  | mk refusal? later =>
    cases refusal? with
    | some refusal => rfl
    | none => rfl

/-- Headers are stored up to the first that cannot be. -/
theorem storeAll_cases (placements : List Placement) (disk : Disk) :
    ∃ later written, Stored written disk later ∧
      ((written = placements ∧ storeAll placements disk = (later, written, none)) ∨
        ∃ p after refusal, placements = written ++ p :: after ∧ refusal.Thwarts p ∧
          storeAll placements disk = (later, written, some refusal)) := by
  induction placements generalizing disk with
  | nil => exact ⟨disk, [], .nil (.refl _ disk), Or.inl ⟨rfl, rfl⟩⟩
  | cons p rest ih =>
    obtain ⟨mid, hmid, ⟨refusal, hrefusal, hstore⟩ | ⟨next, hwrite, hstore⟩⟩ := store_cases p disk
    · exact ⟨mid, [], .nil hmid,
        Or.inr ⟨p, rest, refusal, rfl, hrefusal, by simp [storeAll_cons, hstore]⟩⟩
    · obtain ⟨later, written, hstored, ⟨rfl, hall⟩ | ⟨q, after, refusal, rfl, hrefusal, hall⟩⟩ :=
        ih next
      · exact ⟨later, p :: written, Stored.cons hmid hwrite hstored,
          Or.inl ⟨rfl, by simp [storeAll_cons, hstore, hall]⟩⟩
      · exact ⟨later, p :: written, Stored.cons hmid hwrite hstored,
          Or.inr ⟨q, after, refusal, rfl, hrefusal, by simp [storeAll_cons, hstore, hall]⟩⟩

section Keys

variable {α : Type} {key : Placement → α}

/-- With a key that tells apart the places that headers lead to, the last header with a key is in
the files of all that have it. -/
theorem Stored.file?_eq (h : Stored written disk later)
    (hkey : ∀ p ∈ written, ∀ q ∈ written, later.find p.path = later.find q.path ↔ key p = key q)
    {before after : List Placement} {last : Placement} (hsplit : written = before ++ last :: after)
    (hafter : ∀ q ∈ after, key q ≠ key last) {p : Placement} (hp : p ∈ written)
    (heq : key p = key last) : later.file? p.path = some last.bytes := by
  have hlast : last ∈ written := by simp [hsplit]
  have hfind : later.find p.path = later.find last.path := (hkey p hp last hlast).mpr heq
  rw [Disk.file?_congr hfind]
  refine h.last before last after hsplit fun q hq hfindq => hafter q hq ?_
  exact (hkey q (by simp [hsplit, hq]) last hlast).mp hfindq

/-- No header is lost where those with one key have one content. -/
theorem Stored.forall_file?_iff (h : Stored written disk later)
    (hkey : ∀ p ∈ written, ∀ q ∈ written, later.find p.path = later.find q.path ↔ key p = key q) :
    (∀ p ∈ written, later.file? p.path = some p.bytes) ↔
      ∀ p ∈ written, ∀ q ∈ written, key p = key q → p.header.content = q.header.content := by
  constructor
  · intro hall p hp q hq heq
    have hfind : later.find p.path = later.find q.path := (hkey p hp q hq).mpr heq
    have hbytes := (hall p hp).symm.trans ((Disk.file?_congr hfind).trans (hall q hq))
    exact Placement.bytes_eq_iff.mp (Option.some.inj hbytes)
  · intro hsame p hp
    obtain ⟨before, last, after, hsplit, heq, hafter⟩ := exists_last_of_mem key hp
    have hlast : last ∈ written := by simp [hsplit]
    rw [h.file?_eq hkey hsplit hafter hp heq,
      Placement.bytes_eq_iff.mpr (hsame p hp last hlast heq)]

end Keys

end Store

end Batch

end SchemaHeader
