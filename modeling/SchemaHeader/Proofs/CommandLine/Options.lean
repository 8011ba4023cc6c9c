import SchemaHeader.CommandLine.Options

/-! What holds of the options of every call that asks for a run. -/
namespace SchemaHeader.CommandLine

variable {α β : Type} {P : α → Prop} {Q : β → Prop} {x : Except Misuse α} {f : α → Except Misuse β}

/-- What is read has the property, unless an argument is out of place. -/
def Yields (P : α → Prop) (x : Except Misuse α) : Prop := ∀ a, x = .ok a → P a

theorem yields_ok {a : α} : Yields P (.ok a) ↔ P a :=
  ⟨fun h => h a rfl, fun h _ heq => Except.ok.inj heq ▸ h⟩

theorem yields_error (m : Misuse) : Yields P (.error m) := fun _ heq => by cases heq

/-- What holds of a first result carries over to what is made of it. -/
theorem Yields.bind (h : Yields P x) (hf : ∀ a, P a → Yields Q (f a)) : Yields Q (x >>= f) := by
  cases x with
  | error m => exact yields_error m
  | ok a => exact hf a (yields_ok.mp h)

theorem Yields.map {f : α → β} (h : Yields P x) (hf : ∀ a, P a → Q (f a)) :
    Yields Q (f <$> x) := by
  cases x with
  | error m => exact yields_error m
  | ok a => exact yields_ok.mpr (hf a (yields_ok.mp h))

variable {o : Options} {option : ValueOption} {switch : Switch} {value : String} {cs : List Char}

/-- An output directory that is given has a name. -/
def Options.NamesOutput (o : Options) : Prop := o.output? ≠ some ""

def Command.NamesOutput : Command → Prop
  | .run o => o.NamesOutput
  | .showVersion | .showUsage => True

def Progress.NamesOutput : Progress → Prop
  | .next o | .awaiting o _ => o.NamesOutput
  | .done command => command.NamesOutput

theorem Options.NamesOutput.output_ne_empty (h : o.NamesOutput) : o.output ≠ "" := by
  rw [Options.output]
  cases houtput : o.output? with
  | none => decide
  | some directory =>
    rintro rfl
    exact h houtput

/-- Setting an option keeps the output named, for an empty value is refused. -/
theorem Options.NamesOutput.set (h : o.NamesOutput) (option : ValueOption) (value : String) :
    Yields Options.NamesOutput (o.set option value) := by
  cases option with
  | output =>
    rw [Options.set]
    split
    · exact yields_error _
    · split
      · exact yields_error _
      · next hvalue =>
        refine yields_ok.mpr fun heq => hvalue ?_
        rw [Option.some.inj heq]
        rfl
  | descriptorSet =>
    rw [Options.set]
    split
    · exact yields_error _
    · split
      · exact yields_error _
      · exact yields_ok.mpr h
  | file => exact yields_ok.mpr h
  | parameter =>
    rw [Options.set]
    split
    · exact yields_error _
    · exact yields_ok.mpr h

theorem Options.NamesOutput.turnOn (h : o.NamesOutput) (switch : Switch) :
    Yields (Sum.elim Options.NamesOutput Command.NamesOutput) (o.turnOn switch) := by
  cases switch with
  | verbose => exact yields_ok.mpr h
  | dryRun =>
    rw [Options.turnOn]
    split
    · exact yields_error _
    · exact yields_ok.mpr h
  | force =>
    rw [Options.turnOn]
    split
    · exact yields_error _
    · exact yields_ok.mpr h
  | version => exact yields_ok.mpr trivial
  | help => exact yields_ok.mpr trivial

theorem Options.NamesOutput.command (h : o.NamesOutput) : Yields Command.NamesOutput o.command := by
  rw [Options.command]
  split
  · exact yields_error _
  · exact yields_ok.mpr h

/-- A cluster of short options keeps the output named, by induction on its letters. -/
theorem namesOutput_readShort (h : o.NamesOutput) (cs : List Char) :
    Yields Progress.NamesOutput (readShort o cs) := by
  induction cs generalizing o with
  | nil => exact yields_ok.mpr h
  | cons c rest ih =>
    rw [readShort]
    split
    · exact yields_error _
    · split
      · exact yields_ok.mpr h
      · exact (h.set _ _).map fun _ => id
      · exact (h.set _ _).map fun _ => id
    · refine (h.turnOn _).bind fun result hresult => ?_
      cases result with
      | inl o => exact ih hresult
      | inr command => exact yields_ok.mpr hresult

theorem namesOutput_readLong (h : o.NamesOutput) (word : List Char) :
    Yields Progress.NamesOutput (readLong o word) := by
  rw [readLong]
  split
  · exact yields_error _
  · exact (h.set _ _).map fun _ => id
  · exact yields_ok.mpr h
  · exact yields_error _
  · refine (h.turnOn _).bind fun result hresult => ?_
    cases result with
    | inl o => exact yields_ok.mpr hresult
    | inr command => exact yields_ok.mpr hresult

mutual

theorem namesOutput_readAll {o : Options} (h : o.NamesOutput) (arguments : List String) :
    Yields Command.NamesOutput (readAll o arguments) := by
  cases arguments with
  | nil => exact h.command
  | cons argument rest =>
    rw [readAll.eq_def]
    dsimp only
    split
    · split
      · exact h.command
      · exact yields_error _
    · refine (namesOutput_readLong h _).bind fun progress hprogress => ?_
      cases progress with
      | next o => exact namesOutput_readAll hprogress rest
      | awaiting o option => exact namesOutput_withValue hprogress option rest
      | done command => exact yields_ok.mpr hprogress
    · refine (namesOutput_readShort h _).bind fun progress hprogress => ?_
      cases progress with
      | next o => exact namesOutput_readAll hprogress rest
      | awaiting o option => exact namesOutput_withValue hprogress option rest
      | done command => exact yields_ok.mpr hprogress
    · exact yields_error _

theorem namesOutput_withValue {o : Options} (h : o.NamesOutput) (option : ValueOption)
    (arguments : List String) :
    Yields Command.NamesOutput (readAll.withValue o option arguments) := by
  cases arguments with
  | nil => exact yields_error _
  | cons value rest =>
    rw [readAll.withValue]
    split
    · exact (h.set option value).bind fun _ ho => namesOutput_readAll ho rest
    · exact yields_error _

end

/-- No call runs with an empty path for its output. -/
theorem output_ne_empty_of_parse {arguments : List String} (h : parse arguments = .ok (.run o)) :
    o.output ≠ "" :=
  have hyields : Command.NamesOutput (.run o) :=
    namesOutput_readAll (show Options.NamesOutput {} from nofun) arguments _ h
  Options.NamesOutput.output_ne_empty hyields

end SchemaHeader.CommandLine
