import SchemaHeader.Proofs.Wire.Locality
import SchemaHeader.Proofs.Wire.Record
import SchemaHeader.Request

/-! Two requests that are written one behind the other are read as one, which is made up of both. -/
namespace SchemaHeader

open Wire (Record Value Reads)

namespace Wire.Record

variable {α : Type} (r s : Record) (field : Nat) (pick : Value → Option α)

theorem last?_append :
    last? (r ++ s) field pick = (s.last? field pick).or (r.last? field pick) := by
  rw [last?, all_append, List.getLast?_append]
  rfl

/-- The parts of a message that occurs in both records are put together. -/
theorem merged?_append :
    merged? (r ++ s) field = Option.merge (· ++ ·) (r.merged? field) (s.merged? field) := by
  rw [merged?, merged?, merged?, all_append]
  cases r.all field Value.message? with
  | nil =>
    cases s.all field Value.message? with
    | nil => rfl
    | cons part parts => rfl
  | cons part parts =>
    cases s.all field Value.message? with
    | nil => simp
    | cons part' parts' => simp

end Wire.Record

/-- What the later version says counts, and what it leaves out is as the earlier one says. -/
def Version.merge (earlier later : Version) : Version where
  major? := later.major?.or earlier.major?
  minor? := later.minor?.or earlier.minor?
  patch? := later.patch?.or earlier.patch?
  suffix? := later.suffix?.or earlier.suffix?

theorem Version.ofRecord_append (r s : Record) :
    ofRecord (r ++ s) = (ofRecord r).merge (ofRecord s) := by
  simp only [ofRecord, merge, Wire.Record.last?_append]

namespace Request

variable {a b : Request} {bs cs : List UInt8}

/-- Lists are put together; of a value that there is one of the later one counts. -/
def merge (earlier later : Request) : Request where
  wanted := earlier.wanted ++ later.wanted
  parameter? := later.parameter?.or earlier.parameter?
  compilerVersion? :=
    match earlier.compilerVersion?, later.compilerVersion? with
    | some v, some w => some (v.merge w)
    | some v, none => some v
    | none, w? => w?
  files := earlier.files ++ later.files

/-- Records one behind the other are read as requests that are merged. -/
theorem ofRecord_append (r s : Record) : ofRecord (r ++ s) = (ofRecord r).merge (ofRecord s) := by
  have hversion : (Wire.Record.merged? (r ++ s) 3).map Version.ofRecord =
      ((ofRecord r).merge (ofRecord s)).compilerVersion? := by
    rw [Wire.Record.merged?_append]
    simp only [merge, ofRecord]
    cases r.merged? 3 with
    | none =>
      cases s.merged? 3 with
      | none => rfl
      | some w => rfl
    | some v =>
      cases s.merged? 3 with
      | none => rfl
      | some w => exact congrArg some (Version.ofRecord_append v w)
  rw [ofRecord, hversion]
  simp only [merge, ofRecord, Wire.Record.last?_append, Wire.Record.all_append, List.map_append]

theorem exists_record_of_decode (h : decode bs = .ok a) :
    ∃ r, Wire.decode schemaGrammar .request bs = .ok r ∧ a = ofRecord r := by
  rw [decode] at h
  cases hrecord : Wire.decode schemaGrammar .request bs with
  | error fault =>
    rw [hrecord] at h
    cases h
  | ok r =>
    rw [hrecord] at h
    cases h
    exact ⟨r, rfl, rfl⟩

/-- A request is read the same whatever follows it. Where another one follows both are read as one,
with all that occurs in the first and then in the second. -/
theorem decode_of_parts (h : decode bs = .ok a) (h' : decode cs = .ok b) :
    decode (bs ++ cs) = .ok (a.merge b) ∧
    (∃ r s, Wire.decode schemaGrammar .request bs = .ok r ∧
      Wire.decode schemaGrammar .request cs = .ok s ∧
      Wire.decode schemaGrammar .request (bs ++ cs) = .ok (r ++ s)) ∧
    ∃ found, a = ofRecord found.reduceOption ∧
      Reads (Wire.many (Wire.occurrenceAt schemaGrammar Wire.depthLimit .request) bs.length) bs
        found := by
  obtain ⟨r, hr, rfl⟩ := exists_record_of_decode h
  obtain ⟨s, hs, rfl⟩ := exists_record_of_decode h'
  have hboth := Wire.decode_append hr hs
  refine ⟨?_, ⟨r, s, hr, hs, hboth⟩, ?_⟩
  · rw [decode, hboth, ← ofRecord_append]
    rfl
  · obtain ⟨found, heach, rfl⟩ := Wire.decode_eq_ok_iff.mp hr
    exact ⟨found, rfl, heach.reads_many⟩

/-- A name with an overlong length, a version, a parameter, and a group that nobody knows. -/
def firstPart : List UInt8 :=
  [0x0a, 0x81, 0x00, 0x61, 0x1a, 0x05, 0x08, 0x01, 0x22, 0x01, 0x78, 0x12, 0x01, 0x70,
    0x2b, 0x08, 0x96, 0x01, 0x2c]

/-- Another version, another name and a file. -/
def secondPart : List UInt8 :=
  [0x1a, 0x02, 0x08, 0x02, 0x0a, 0x01, 0x62, 0x7a, 0x03, 0x0a, 0x01, 0x62]

theorem decode_of_two_parts :
    ∃ a b, decode firstPart = .ok a ∧ decode secondPart = .ok b ∧
      decode (firstPart ++ secondPart) = .ok (a.merge b) ∧
      (a.merge b).wanted = ["a", "b"] ∧ (a.merge b).parameter? = some "p" ∧
      (a.merge b).compilerVersion? = some { major? := some 2, suffix? := some "x" } ∧
      (a.merge b).files.map (·.name?) = [some "b"] := by
  have hfirst : (decode firstPart).toOption.map (fun a =>
      (a.wanted, a.parameter?, a.compilerVersion?, a.files.map (·.name?))) =
      some (["a"], some "p", some { major? := some 1, suffix? := some "x" }, []) := by
    decide +kernel
  have hsecond : (decode secondPart).toOption.map (fun b =>
      (b.wanted, b.parameter?, b.compilerVersion?, b.files.map (·.name?))) =
      some (["b"], none, some { major? := some 2 }, [some "b"]) := by
    decide +kernel
  cases h : decode firstPart with
  | error fault =>
    rw [h] at hfirst
    cases hfirst
  | ok a =>
    cases h' : decode secondPart with
    | error fault =>
      rw [h'] at hsecond
      cases hsecond
    | ok b =>
      simp only [h, Except.toOption, Option.map_some, Option.some.injEq, Prod.mk.injEq] at hfirst
      simp only [h', Except.toOption, Option.map_some, Option.some.injEq, Prod.mk.injEq] at hsecond
      obtain ⟨hwanted, hparameter, hversion, hfiles⟩ := hfirst
      obtain ⟨hwanted', hparameter', hversion', hfiles'⟩ := hsecond
      refine ⟨a, b, rfl, rfl, (decode_of_parts h h').1, ?_⟩
      simp [merge, Version.merge, hwanted, hwanted', hparameter, hparameter', hversion, hversion',
        List.map_eq_nil_iff.mp hfiles, hfiles']

end Request

end SchemaHeader
