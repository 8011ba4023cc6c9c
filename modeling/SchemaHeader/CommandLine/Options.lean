/-! The options that the program is called with. -/
namespace SchemaHeader.CommandLine

structure Options where
  descriptorSet? : Option String := none
  output? : Option String := none
  files : List String := []
  parameter? : Option String := none
  verbosity : Nat := 0
  dryRun : Bool := false
  force : Bool := false
  deriving DecidableEq

/-- Without an output directory the current one is meant. -/
def Options.output (o : Options) : String := o.output?.getD "."

/-- What a call asks for. -/
inductive Command where
  | showVersion
  | showUsage
  | run (options : Options)
  deriving DecidableEq

inductive Misuse where
  | unknownOption (argument : String)
  | unexpectedArgument (argument : String)
  | missingValue (option : String)
  | unwantedValue (option : String)
  | emptyValue (option : String)
  | givenTwice (option : String)
  | needsDescriptorSet
  deriving DecidableEq

def Misuse.text : Misuse → String
  | .unknownOption argument => "unknown option " ++ argument
  | .unexpectedArgument argument => "unexpected argument '" ++ argument ++ "'"
  | .missingValue option => option ++ " needs a value"
  | .unwantedValue option => option ++ " takes no value"
  | .emptyValue option => option ++ " needs a value that is not empty"
  | .givenTwice option => option ++ " can be given only once"
  | .needsDescriptorSet => "only --verbose can be given without --descriptor-set"

inductive ValueOption where
  | descriptorSet
  | output
  | file
  | parameter

inductive Switch where
  | verbose
  | dryRun
  | force
  | version
  | help

def ValueOption.name : ValueOption → String
  | .descriptorSet => "--descriptor-set"
  | .output => "--output"
  | .file => "--file"
  | .parameter => "--parameter"

def Switch.name : Switch → String
  | .verbose => "--verbose"
  | .dryRun => "--dry-run"
  | .force => "--force"
  | .version => "--version"
  | .help => "--help"

/-- The option that a word after two dashes names. -/
def longOption? : String → Option (ValueOption ⊕ Switch)
  | "descriptor-set" => some (.inl .descriptorSet)
  | "output" => some (.inl .output)
  | "file" => some (.inl .file)
  | "parameter" => some (.inl .parameter)
  | "verbose" => some (.inr .verbose)
  | "dry-run" => some (.inr .dryRun)
  | "force" => some (.inr .force)
  | "version" => some (.inr .version)
  | "help" => some (.inr .help)
  | _ => none

/-- The option that a letter after one dash names. -/
def shortOption? : Char → Option (ValueOption ⊕ Switch)
  | 'o' => some (.inl .output)
  | 'f' => some (.inl .file)
  | 'v' => some (.inr .verbose)
  | 'V' => some (.inr .version)
  | 'h' => some (.inr .help)
  | _ => none

namespace Options

/-- Only `--file` can be given again, and only `--file` and `--parameter` can be empty. -/
def set (o : Options) (option : ValueOption) (value : String) : Except Misuse Options :=
  match option with
  | .descriptorSet =>
    if o.descriptorSet?.isSome then .error (.givenTwice option.name)
    else if value.isEmpty then .error (.emptyValue option.name)
    else .ok { o with descriptorSet? := some value }
  | .output =>
    if o.output?.isSome then .error (.givenTwice option.name)
    else if value.isEmpty then .error (.emptyValue option.name)
    else .ok { o with output? := some value }
  | .file => .ok { o with files := o.files ++ [value] }
  | .parameter =>
    if o.parameter?.isSome then .error (.givenTwice option.name)
    else .ok { o with parameter? := some value }

/-- A request for the version or the usage ends the reading of the options. -/
def turnOn (o : Options) (switch : Switch) : Except Misuse (Options ⊕ Command) :=
  match switch with
  | .verbose => .ok (.inl { o with verbosity := o.verbosity + 1 })
  | .dryRun =>
    if o.dryRun then .error (.givenTwice switch.name) else .ok (.inl { o with dryRun := true })
  | .force =>
    if o.force then .error (.givenTwice switch.name) else .ok (.inl { o with force := true })
  | .version => .ok (.inr .showVersion)
  | .help => .ok (.inr .showUsage)

/-- All options but `--verbose` are about a descriptor set. -/
def command (o : Options) : Except Misuse Command :=
  if o.descriptorSet?.isNone &&
      (o.output?.isSome || !o.files.isEmpty || o.parameter?.isSome || o.dryRun || o.force) then
    .error .needsDescriptorSet
  else .ok (.run o)

end Options

/-- How far the reading of one argument got. -/
inductive Progress where
  | next (o : Options)
  /-- The next argument is the value of this option. -/
  | awaiting (o : Options) (option : ValueOption)
  | done (command : Command)

/-- A run of short options behind one dash. The first that takes a value takes the rest of the
run, from which an equals sign in front is dropped. -/
def readShort (o : Options) : List Char → Except Misuse Progress
  | [] => .ok (.next o)
  | c :: rest =>
    match shortOption? c with
    | none => .error (.unknownOption ("-" ++ c.toString))
    | some (.inl option) =>
      match rest with
      | [] => .ok (.awaiting o option)
      | '=' :: value => .next <$> o.set option (String.ofList value)
      | value => .next <$> o.set option (String.ofList value)
    | some (.inr switch) => do
      match ← o.turnOn switch with
      | .inl o => readShort o rest
      | .inr command => .ok (.done command)

/-- A word behind two dashes; its value may follow an equals sign. -/
def readLong (o : Options) (word : List Char) : Except Misuse Progress :=
  let name := String.ofList (word.takeWhile (· != '='))
  let value? : Option String := match word.dropWhile (· != '=') with
    | _ :: value => some (String.ofList value)
    | [] => none
  match longOption? name, value? with
  | none, _ => .error (.unknownOption ("--" ++ name))
  | some (.inl option), some value => .next <$> o.set option value
  | some (.inl option), none => .ok (.awaiting o option)
  | some (.inr switch), some _ => .error (.unwantedValue switch.name)
  | some (.inr switch), none => do
    match ← o.turnOn switch with
    | .inl o => .ok (.next o)
    | .inr command => .ok (.done command)

/-- A value does not begin with a dash, unless it is one. -/
def isValue (argument : String) : Bool :=
  match argument.toList with
  | '-' :: _ :: _ => false
  | _ => true

/-- The arguments from left to right; the first that is out of place decides. -/
def readAll (o : Options) : List String → Except Misuse Command
  | [] => o.command
  | argument :: rest =>
    match argument.toList with
    | ['-', '-'] =>
      match rest with
      | [] => o.command
      | extra :: _ => .error (.unexpectedArgument extra)
    | '-' :: '-' :: word => do
      match ← readLong o word with
      | .next o => readAll o rest
      | .awaiting o option => withValue o option rest
      | .done command => .ok command
    | '-' :: c :: cs => do
      match ← readShort o (c :: cs) with
      | .next o => readAll o rest
      | .awaiting o option => withValue o option rest
      | .done command => .ok command
    | _ => .error (.unexpectedArgument argument)
where
  withValue (o : Options) (option : ValueOption) : List String → Except Misuse Command
    | [] => .error (.missingValue option.name)
    | value :: rest =>
      if isValue value then do readAll (← o.set option value) rest
      else .error (.missingValue option.name)

def parse (arguments : List String) : Except Misuse Command := readAll {} arguments

end SchemaHeader.CommandLine
