import Backslice.DeadAssignment
import Backslice.Grammar
import Backslice.SampleProgram
import Backslice.Slice

/-!
# Command line

Four commands show the sample programs and the analyses on them. The first part
reads the arguments: options may be written `--name value`, `--name=value`,
`-n value`, `-nvalue` or `-n=value`, each at most once; flags stand alone; what
follows `--` is no option. The second part carries a command out and yields the
lines to print. Of two faults, the first in the order of evaluation is
reported, and nothing is printed with it.
-/

namespace Backslice.CommandLine

/-- What a word on the command line may name. -/
inductive OptionName where
  | address
  | seed
  | point
  | steps
  | jumpCond
  | simple
  | verbose
deriving DecidableEq

namespace OptionName

def long : OptionName → String
  | .address => "at"
  | .seed => "seed"
  | .point => "point"
  | .steps => "steps"
  | .jumpCond => "jump-cond"
  | .simple => "simple"
  | .verbose => "verbose"

def short? : OptionName → Option Char
  | .address => some 'a'
  | .seed => some 's'
  | .point => some 'p'
  | .verbose => some 'v'
  | _ => none

/-- Flags take no value. -/
def isFlag : OptionName → Bool
  | .jumpCond | .simple | .verbose => true
  | _ => false

end OptionName

/-- The commands without their arguments. -/
inductive Verb where
  | list
  | slice
  | useless
  | deps
deriving DecidableEq

namespace Verb

def ofText? : String → Option Verb
  | "list" => some .list
  | "slice" => some .slice
  | "useless" => some .useless
  | "deps" => some .deps
  | _ => none

/-- The options of a command; verbosity goes with each. -/
def options : Verb → List OptionName
  | .list | .useless => [.verbose]
  | .slice => [.address, .seed, .verbose]
  | .deps => [.address, .seed, .point, .steps, .jumpCond, .simple, .verbose]

end Verb

/-- The arguments seen so far. -/
structure Arguments where
  positional : List String := []
  values : List (OptionName × String) := []
  flags : List OptionName := []

namespace Arguments

def value? (args : Arguments) (o : OptionName) : Option String :=
  args.values.lookup o

/-- Note a flag; only verbosity may be given more than once. -/
def addFlag? (args : Arguments) (o : OptionName) : Option Arguments :=
  if o ∈ args.flags && o ≠ .verbose then none
  else some { args with flags := o :: args.flags }

/-- Note a value; no option may be given more than once. -/
def addValue? (args : Arguments) (o : OptionName) (value : String) : Option Arguments :=
  if (args.value? o).isSome then none
  else some { args with values := (o, value) :: args.values }

end Arguments

/-- What a word is, before it is known whether it makes sense. -/
inductive Word where
  /-- Two hyphens alone. -/
  | stop
  /-- A name after two hyphens, with the text after an equals sign. -/
  | long (name : String) (attached : Option String)
  /-- One or more letters after a hyphen. -/
  | short (letters : List Char)
  | plain (text : String)
deriving DecidableEq

namespace Word

def ofText (text : String) : Word :=
  match text.toList with
  | ['-', '-'] => .stop
  | '-' :: '-' :: cs =>
      let name := String.ofList (cs.takeWhile (· != '='))
      match cs.dropWhile (· != '=') with
      | [] => .long name none
      | _ :: value => .long name (some (String.ofList value))
  | '-' :: c :: cs => .short (c :: cs)
  | _ => .plain text

end Word

/-- What the letters after a hyphen say: flags, then possibly an option with the
value attached to it. -/
def readLetters? (known : List OptionName) : List Char → Arguments → Option (Arguments × Option OptionName)
  | [], args => some (args, none)
  | c :: cs, args =>
      match known.find? (·.short? == some c) with
      | none => none
      | some o =>
          if o.isFlag then (args.addFlag? o).bind (readLetters? known cs)
          else
            match cs with
            | [] => some (args, some o)
            | '=' :: value => (args.addValue? o (String.ofList value)).map (·, none)
            | value => (args.addValue? o (String.ofList value)).map (·, none)

/-- Read the words of a command. With `waiting`, the next word is the value of
an option, and has to be one; the words after `--` are positional. -/
def readWords? (known : List OptionName) (waiting : Option OptionName) (stopped : Bool) :
    List String → Arguments → Option Arguments
  | [], args => if waiting.isNone then some args else none
  | text :: rest, args =>
      match waiting with
      | some o =>
          match Word.ofText text with
          | .plain value => (args.addValue? o value).bind (readWords? known none false rest)
          | _ => none
      | none =>
          if stopped then readWords? known none true rest { args with positional := args.positional ++ [text] }
          else
            match Word.ofText text with
            | .stop => readWords? known none true rest args
            | .plain text => readWords? known none false rest { args with positional := args.positional ++ [text] }
            | .short letters =>
                match readLetters? known letters args with
                | none => none
                | some (args, waiting) => readWords? known waiting false rest args
            | .long name attached =>
                match known.find? (·.long == name), attached with
                | none, _ => none
                | some o, none =>
                    if o.isFlag then (args.addFlag? o).bind (readWords? known none false rest)
                    else readWords? known (some o) false rest args
                | some o, some value =>
                    if o.isFlag then none
                    else (args.addValue? o value).bind (readWords? known none false rest)

/-- A command with its arguments. -/
inductive Command where
  | list (program : String)
  | slice (program address seed : String)
  | useless (program : String)
  | deps (program address seed point : String) (steps : Option Nat) (options : Options)
deriving DecidableEq

/-- The command of a verb, if nothing is missing. -/
def Command.ofArguments? (verb : Verb) (args : Arguments) : Option Command :=
  match verb, args.positional with
  | .list, [program] => some (.list program)
  | .useless, [program] => some (.useless program)
  | .slice, [program] => do
      let address ← args.value? .address
      let seed ← args.value? .seed
      some (.slice program address seed)
  | .deps, [program] => do
      let address ← args.value? .address
      let seed ← args.value? .seed
      let point ← args.value? .point
      let options : Options := ⟨args.flags.contains .jumpCond, args.flags.contains .simple⟩
      match args.value? .steps with
      | none => some (.deps program address seed point none options)
      | some text =>
          match Numeral.readSigned 10 text.toList with
          | .error _ => none
          | .ok steps => some (.deps program address seed point (some steps.toNat) options)
  | _, _ => none

/-- Read the command line; there is no command in one that is misused. The
verbosity flag may also stand in front of the verb. -/
def Command.parse? : List String → Option Command
  | [] => none
  | text :: rest =>
      match Word.ofText text with
      | .plain verb => do
          let verb ← Verb.ofText? verb
          let args ← readWords? verb.options none false rest {}
          Command.ofArguments? verb args
      | .long name none => if name == OptionName.verbose.long then Command.parse? rest else none
      | .short letters => do
          let _ ← readLetters? [.verbose] letters {}
          Command.parse? rest
      | _ => none

/-! ## Commands -/

/-- Why a command is given up. -/
inductive Failure where
  | unknownProgram (name : String)
  | input (e : InputError)
  | numeral (e : Numeral.Fault)
  | analysis (e : Fault)
deriving DecidableEq

def Failure.message : Failure → String
  | .unknownProgram name => "Unknown program `" ++ name ++ "`. Available: " ++ SampleProgram.names
  | .input e => e.message
  | .numeral e => e.message
  | .analysis e => e.message

/-- What a command leaves behind. -/
inductive Outcome where
  /-- The command line is misused. -/
  | misuse
  | finished (lines : List String) (failure : Option Failure)
deriving DecidableEq

def Outcome.exitCode : Outcome → UInt8
  | .misuse => 2
  | .finished _ none => 0
  | .finished _ (some _) => 1

def programNamed (name : String) : Except Failure Program :=
  match SampleProgram.byName? name with
  | some p => .ok p
  | none => .error (.unknownProgram name)

/-- A number in hexadecimal after `0x`, and in decimal otherwise. -/
def readNumber (cs : List Char) : Except Failure UInt64 :=
  (match trim cs with
    | '0' :: 'x' :: cs => Numeral.readSigned 16 cs
    | cs => Numeral.readSigned 10 cs).mapError .numeral

/-- An instruction address, and possibly a comma and a micro-step, of which the low 32 bits count. -/
def readAddress (text : String) : Except Failure Address := do
  let cs := text.toList
  let instruction ← readNumber (cs.takeWhile (· != ','))
  match cs.dropWhile (· != ',') with
  | [] => pure (.ofInstruction instruction)
  | _ :: microStep => do
      let v ← readNumber microStep
      pure ⟨instruction, v.toUInt32⟩

def infoLine (text : String) : String :=
  "[INFO] " ++ text

def warningLines (s : Analysis) : List String :=
  s.warnings.map fun w => "[WARN] " ++ w.message

/-- The lines that a command prints. -/
def Command.lines : Command → Except Failure (List String)
  | .list name => do
      let p ← programNamed name
      pure p.lines
  | .slice name address seed => do
      let p ← programNamed name
      let t ← (Term.parse seed).mapError (.input ∘ .parse)
      let a ← readAddress address
      let (s, arrows) := Analysis.slice p (Analysis.seedsOf a t) ⟨0⟩
      let arrows ← arrows.mapError .analysis
      pure (warningLines s ++ infoLine ("Slice has " ++ toString arrows.length ++ " arrows") ::
        arrows.map (·.text))
  | .useless name => do
      let p ← programNamed name
      let arrows := p.deadAssignments
      pure (infoLine ("Found " ++ toString arrows.length ++ " useless statements") :: arrows.map (·.text))
  | .deps name address seed point steps options => do
      let p ← programNamed name
      let a ← readAddress address
      let seed ← (Seed.ofText? a seed).mapError .input
      let point ← readAddress point
      let limit := steps.getD p.points.length
      let (s, set) := (Analysis.start p [seed] ⟨0⟩).watchedAfterRun p options limit point
      let set ← set.mapError .analysis
      let warnings := warningLines s
      pure (warnings ++ ("dependencies at " ++ point.text ++ ": " ++ set.text) ::
        (warnings ++ set.possibleValues.map fun t => "  " ++ t.text))

/-- Carry out the command that the arguments name. -/
def run (args : List String) : Outcome :=
  match Command.parse? args with
  | none => .misuse
  | some command =>
      match command.lines with
      | .ok lines => .finished lines none
      | .error failure => .finished [] (some failure)

end Backslice.CommandLine
