import SchemaHeader.Proofs.Wire.Message

/-! How many levels of messages a record has below it, and the fault that arises where these are
more than can be read. -/
namespace SchemaHeader.Wire

variable {σ α β : Type} {g : Grammar σ} {fits fits' : σ → Record → Prop} {kind : Kind σ} {shape : σ}
  {rule : Rule σ} {v : Value} {r : Record} {n limit depth : Nat} {bs cs : List UInt8}
  {reader step : Reader α} {f : α → Reader β} {a : α} {fault : Fault}

mutual

/-- A message is one level, and what lies inside it is below. -/
def Value.levels : Value → Nat
  | .message r => Record.depth r + 1
  | .text _ | .bytes _ | .int32 _ | .packed _ | .word _ | .bool _ | .double _ => 0

/-- The number of levels of messages below a record. -/
def Record.depth : Record → Nat
  | [] => 0
  | (_, v) :: rest => max v.levels (Record.depth rest)

end

/-- The levels that messages take up, each of which has so many levels below it. -/
def levelsOf (depths : List Nat) : Nat := depths.foldr (fun depth most => max (depth + 1) most) 0

namespace Record

variable {β : Type} (s : Record) (field : Nat)

theorem depth_append : Record.depth (r ++ s) = max (Record.depth r) (Record.depth s) := by
  induction r with
  | nil => simp [depth]
  | cons e rest ih => rw [List.cons_append, depth, depth, ih, Nat.max_assoc]

theorem depth_each_message (toRecord : β → Record) (as : List β) :
    Record.depth (.each field (fun a => .message (toRecord a)) as) =
      levelsOf (as.map fun a => Record.depth (toRecord a)) := by
  induction as with
  | nil => rfl
  | cons a rest ih =>
    show max _ (Record.depth (.each field (fun a => .message (toRecord a)) rest)) = max _ _
    rw [ih, Value.levels]
    rfl

theorem depth_single_message (toRecord : β → Record) (a? : Option β) :
    Record.depth (.single field (fun a => .message (toRecord a)) a?) =
      levelsOf (a?.toList.map fun a => Record.depth (toRecord a)) :=
  depth_each_message field toRecord a?.toList

theorem depth_each_plain {wrap : β → Value} (h : ∀ a, (wrap a).levels = 0) (as : List β) :
    Record.depth (.each field wrap as) = 0 := by
  induction as with
  | nil => rfl
  | cons a rest ih =>
    show max _ (Record.depth (.each field wrap rest)) = 0
    rw [ih, h]
    rfl

theorem depth_single_text (s? : Option String) : Record.depth (.single field .text s?) = 0 :=
  depth_each_plain field (fun _ => rfl) s?.toList

theorem depth_single_int32 (n? : Option Int32) : Record.depth (.single field .int32 n?) = 0 :=
  depth_each_plain field (fun _ => rfl) n?.toList

end Record

theorem Record.depth_le_iff : Record.depth r ≤ n ↔ ∀ e ∈ r, e.2.levels ≤ n := by
  induction r with
  | nil => simp [depth]
  | cons e rest ih => rw [depth, Nat.max_le, ih, List.forall_mem_cons]

theorem Kind.Admits.imp (h : kind.Admits fits v)
    (himp : ∀ shape r, v = .message r → fits shape r → fits' shape r) : kind.Admits fits' v := by
  cases h with
  | message hr => exact .message (himp _ _ rfl hr)
  | text s => exact .text s
  | bytes bs => exact .bytes bs
  | int32 n => exact .int32 n
  | unpacked n => exact .unpacked n
  | packed ns => exact .packed ns
  | word n => exact .word n
  | bool b => exact .bool b
  | double bits => exact .double bits

namespace Grammar

/-- The record is a message of the shape, however deep the messages in it lie. -/
def IsMessage (g : Grammar σ) (shape : σ) (r : Record) : Prop := ∃ depth, g.Fits depth shape r

theorem Holds.imp (h : g.Holds fits shape r)
    (himp : ∀ e ∈ r, ∀ shape s, e.2 = .message s → fits shape s → fits' shape s) :
    g.Holds fits' shape r := by
  intro e he
  obtain ⟨rule, hrule, hadmits⟩ := h e he
  exact ⟨rule, hrule, hadmits.imp (himp e he)⟩

/-- The messages in a message are messages themselves. -/
theorem IsMessage.holds (h : g.IsMessage shape r) : g.Holds g.IsMessage shape r := by
  obtain ⟨depth, h⟩ := h
  cases depth with
  | zero => exact Holds.imp h fun _ _ _ _ _ hfalse => hfalse.elim
  | succ depth => exact Holds.imp h fun _ _ _ _ _ hs => ⟨depth, hs⟩

/-- By induction on the levels that the shape allows. -/
theorem fits_of_depth_le (h : g.Holds g.IsMessage shape r) (hdepth : r.depth ≤ n) :
    g.Fits n shape r := by
  induction n generalizing shape r with
  | zero =>
    refine h.imp fun e he inner s hs _ => ?_
    have hlevels := Record.depth_le_iff.mp hdepth e he
    rw [hs, Value.levels] at hlevels
    omega
  | succ n ih =>
    refine h.imp fun e he inner s hs hmessage => ih hmessage.holds ?_
    have hlevels := Record.depth_le_iff.mp hdepth e he
    rw [hs, Value.levels] at hlevels
    omega

/-- A record of messages is a message. -/
theorem isMessage_of_holds (h : g.Holds g.IsMessage shape r) : g.IsMessage shape r :=
  ⟨r.depth, fits_of_depth_le h (Nat.le_refl _)⟩

end Grammar

/-- The reader finds the same fault in any input that starts with the bytes. -/
def Refuses (reader : Reader α) (bs : List UInt8) (fault : Fault) : Prop :=
  ∀ rest, reader (.ofBytes (bs ++ rest)) = .error fault

namespace Refuses

theorem bind (h : Refuses reader bs fault) : Refuses (reader >>= f) bs fault := by
  intro rest
  show (reader (.ofBytes (bs ++ rest)) >>= fun p => f p.1 p.2) = _
  rw [h rest]
  rfl

theorem map {f : α → β} (h : Refuses reader bs fault) : Refuses (f <$> reader) bs fault := by
  rw [map_eq_pure_bind]
  exact h.bind

/-- The fault may lie behind what is read without one. -/
theorem after (hreads : Reads reader bs a) (h : Refuses (f a) cs fault) :
    Refuses (reader >>= f) (bs ++ cs) fault := by
  intro rest
  show (reader (.ofBytes (bs ++ cs ++ rest)) >>= fun p => f p.1 p.2) = _
  rw [List.append_assoc, hreads (cs ++ rest)]
  exact h rest

theorem after_nil (hreads : Reads reader [] a) (h : Refuses (f a) bs fault) :
    Refuses (reader >>= f) bs fault := after hreads h

theorem inside (title name : String) (h : Refuses reader bs fault) :
    Refuses (Wire.inside title name reader) bs (fault.inside title name) := by
  intro rest
  rw [Wire.inside, h rest]
  rfl

theorem many_head (h : Refuses step bs fault) (hbs : bs ≠ []) (cs : List UInt8) :
    Refuses (many step (bs ++ cs).length) (bs ++ cs) fault := by
  intro rest
  have hpos := List.length_pos_iff.mpr hbs
  rw [many, if_neg (by rw [List.length_append]; omega), List.append_assoc, h (cs ++ rest)]
  rfl

/-- A fault behind an element that can be read is the fault of the block. -/
theorem many_tail (hstep : Reads step bs a) (hbs : bs ≠ [])
    (h : Refuses (many step cs.length) cs fault) :
    Refuses (many step (bs ++ cs).length) (bs ++ cs) fault := by
  intro rest
  have hpos := List.length_pos_iff.mpr hbs
  have hused : (Input.ofBytes (bs ++ (cs ++ rest))).size - (Input.ofBytes (cs ++ rest)).size =
      bs.length := by
    simp only [Input.ofBytes, List.length_append]
    omega
  have hleft : (bs ++ cs).length - bs.length = cs.length := by
    rw [List.length_append]
    omega
  rw [many, if_neg (by rw [List.length_append]; omega), List.append_assoc, hstep (cs ++ rest)]
  simp only [Bind.bind, Except.bind, hused]
  rw [dif_pos (by rw [List.length_append]; omega), hleft, h rest]

theorem blockOf (hsize : bs.length < UInt64.size) (h : Refuses (many step bs.length) bs fault) :
    Refuses (Wire.blockOf step) (delimited bs) fault := by
  refine after (.varint hsize) fun rest => ?_
  have hlength : bs.length ≤ (Input.ofBytes (bs ++ rest)).size := by
    simp [Input.ofBytes]
  show (if bs.length ≤ (Input.ofBytes (bs ++ rest)).size then many step bs.length
    else fail .bufferUnderflow : Reader (List α)) (.ofBytes (bs ++ rest)) = _
  rw [if_pos hlength, h rest]

theorem occurrence {enter? : Option (σ → Reader Record)} (hnumbered : g.IsNumbered)
    (hrule : g.rule? shape n = some rule) (depth : Nat)
    (h : Refuses (value enter? v.wireType rule.kind) bs fault) :
    Refuses (Wire.occurrence g depth enter? shape) (Key.encode ⟨n, v.wireType⟩ ++ bs)
      (fault.inside (g.title shape) rule.name) := by
  obtain ⟨hpos, hbound⟩ := hnumbered hrule
  rw [Wire.occurrence]
  refine after (.key (k := ⟨n, v.wireType⟩) hpos hbound) ?_
  rw [hrule]
  exact (inside _ _ h).bind

/-- What a record is refused for is what is wrong with the first occurrence that lies too deep. -/
theorem record {step : Reader (Option (Nat × Value))} {p : Fault → Prop}
    (hgood : ∀ e ∈ r, e.2.levels ≤ depth →
      Reads step (Key.encode ⟨e.1, e.2.wireType⟩ ++ Value.encode e.2) (some e))
    (hbad : ∀ e ∈ r, depth < e.2.levels → ∃ fault, p fault ∧
      Refuses step (Key.encode ⟨e.1, e.2.wireType⟩ ++ Value.encode e.2) fault)
    (hdepth : depth < r.depth) :
    ∃ fault, p fault ∧ Refuses (many step (encode r).length) (encode r) fault := by
  induction r with
  | nil => cases hdepth
  | cons e rest ih =>
    obtain ⟨n, v⟩ := e
    have hkey : Key.encode ⟨n, v.wireType⟩ ++ Value.encode v ≠ [] := by simp [Reads.key_ne_nil]
    rw [List.forall_mem_cons] at hgood hbad
    rw [encode]
    by_cases hv : depth < v.levels
    · obtain ⟨fault, hfault, hrefuses⟩ := hbad.1 hv
      exact ⟨fault, hfault, hrefuses.many_head hkey _⟩
    · have hrest : depth < Record.depth rest := by
        rw [Record.depth] at hdepth
        omega
      obtain ⟨fault, hfault, hrefuses⟩ := ih hgood.2 hbad.2 hrest
      exact ⟨fault, hfault, many_tail (hgood.1 (Nat.le_of_not_lt hv)) hkey hrefuses⟩

end Refuses

/-- The reading of a message comes to an end where too many levels were entered. -/
structure Fault.EndsAt (level : Nat) (fault : Fault) : Prop where
  cause : fault.cause = .tooDeep
  within : fault.within.length = level

theorem Fault.EndsAt.inside (title name : String) (h : fault.EndsAt n) :
    (fault.inside title name).EndsAt (n + 1) where
  cause := h.cause
  within := by rw [Fault.inside, List.length_append, h.within, List.length_singleton]

/-- A message that may not be entered is refused whatever is in it, even its length. -/
theorem refuses_message_below (shape : σ) (bs : List UInt8) :
    Refuses (value none .lengthDelimited (.message shape)) bs { cause := .tooDeep } :=
  Refuses.after_nil (.expect .lengthDelimited) fun _ => rfl

theorem refuses_message_inside {enter : σ → Reader Record} (h : Refuses (enter shape) bs fault) :
    Refuses (value (some enter) .lengthDelimited (.message shape)) bs fault :=
  Refuses.after_nil (.expect .lengthDelimited) h.bind

theorem Grammar.IsMessage.single {e : Nat × Value} (h : g.IsMessage shape r) (he : e ∈ r) :
    g.IsMessage shape [e] := by
  obtain ⟨depth, hfits⟩ := h
  exact ⟨depth, hfits.single he⟩

/-- Occurrences that do not lie too deep are read on the way. -/
theorem refuses_record {p : Fault → Prop} (hnumbered : g.IsNumbered) (h : g.IsMessage shape r)
    (hsize : (encode r).length < UInt64.size)
    (hbad : ∀ e ∈ r, depth < e.2.levels → ∃ fault, p fault ∧
      Refuses (occurrenceAt g depth shape)
        (Key.encode ⟨e.1, e.2.wireType⟩ ++ Value.encode e.2) fault)
    (hdepth : depth < r.depth) : ∃ fault, p fault ∧
      Refuses (many (occurrenceAt g depth shape) (encode r).length) (encode r) fault := by
  refine Refuses.record (fun e he hlevels => ?_) hbad hdepth
  have hfits : g.Fits depth shape [e] := by
    refine Grammar.fits_of_depth_le (h.single he).holds (Record.depth_le_iff.mpr ?_)
    exact List.forall_mem_singleton.mpr hlevels
  exact reads_occurrenceAt hnumbered hfits
    (Nat.lt_of_le_of_lt (length_encode_le_of_mem he) hsize)

/-- By induction on the levels of messages that can be below an occurrence. -/
theorem refuses_occurrenceAt {e : Nat × Value} (hnumbered : g.IsNumbered)
    (h : g.IsMessage shape [e]) (hsize : (Value.encode e.2).length < UInt64.size)
    (hdepth : depth < e.2.levels) :
    ∃ fault : Fault, fault.EndsAt (depth + 1) ∧ Refuses (occurrenceAt g depth shape)
      (Key.encode ⟨e.1, e.2.wireType⟩ ++ Value.encode e.2) fault := by
  induction depth generalizing shape e with
  | zero =>
    obtain ⟨n, v⟩ := e
    obtain ⟨⟨name, kind⟩, hrule, hadmits⟩ := h.holds (n, v) List.mem_cons_self
    cases hadmits with
    | message hr =>
      exact ⟨_, .inside _ _ ⟨rfl, rfl⟩, .occurrence hnumbered hrule 0 (refuses_message_below _ _)⟩
    | _ => cases hdepth
  | succ depth ih =>
    obtain ⟨n, v⟩ := e
    obtain ⟨⟨name, kind⟩, hrule, hadmits⟩ := h.holds (n, v) List.mem_cons_self
    cases hadmits with
    | @message inner r hr =>
      rw [Value.encode] at hsize ⊢
      have hlength : (encode r).length < UInt64.size :=
        Nat.lt_of_le_of_lt (length_le_delimited _) hsize
      have hlevels : depth < r.depth := by
        rw [Value.levels] at hdepth
        omega
      obtain ⟨fault, hends, hrefuses⟩ := refuses_record hnumbered hr hlength
        (fun e he => ih (hr.single he) (Nat.lt_of_le_of_lt (length_encode_le_of_mem he) hlength))
        hlevels
      have hblock := (hrefuses.blockOf hlength).map (f := (·.reduceOption))
      exact ⟨_, hends.inside _ _, .occurrence hnumbered hrule _ (refuses_message_inside hblock)⟩
    | _ => cases hdepth

/-- What is written for a record is read as this record where its messages do not lie deeper than
messages are read. Otherwise the reading ends with the first message that does. -/
theorem decode_encode_cases (hnumbered : g.IsNumbered) (h : g.IsMessage shape r)
    (hsize : (encode r).length < UInt64.size) :
    (r.depth ≤ depthLimit → decode g shape (encode r) = .ok r) ∧
    (depthLimit < r.depth → ∃ fault : Fault, fault.EndsAt (depthLimit + 1) ∧
      decode g shape (encode r) = .error fault) := by
  constructor
  · intro hdepth
    exact decode_encode hnumbered (Grammar.fits_of_depth_le h.holds hdepth) hsize
  · intro hdepth
    obtain ⟨fault, hends, hrefuses⟩ := refuses_record hnumbered h hsize
      (fun e he => refuses_occurrenceAt hnumbered (h.single he)
        (Nat.lt_of_le_of_lt (length_encode_le_of_mem he) hsize)) hdepth
    refine ⟨fault, hends, ?_⟩
    have hread := hrefuses []
    rw [List.append_nil] at hread
    rw [decode, hread]
    rfl

end SchemaHeader.Wire
