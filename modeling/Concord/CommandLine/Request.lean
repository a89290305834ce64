/-!
# Requests

The arguments of the program say what is to be done. They are read one by one from the left, and the
first that cannot be understood, or that asks for help, ends the reading.

* `Request.parse` – what some arguments ask for.
-/

namespace Concord.CommandLine

/-- What to do to a project. -/
inductive Command where
  /-- Report what is wrong. -/
  | check (root : Option String)
  /-- Rename a key, or show what that would do. -/
  | rename (root : Option String) (old new : String) (apply : Bool)
  /-- Write a configuration. -/
  | init
deriving DecidableEq, Repr

/-- What help is about. -/
inductive Topic where
  | program
  | check
  | rename
  | init
  | help
deriving DecidableEq, Repr

/-- What is asked for. -/
inductive Request where
  | run (command : Command)
  | help (topic : Topic)
  | version
deriving DecidableEq, Repr

/-- Why the reading of arguments ends early. -/
inductive Interruption where
  /-- Help is asked for. -/
  | help
  /-- The arguments cannot be understood. -/
  | misuse
deriving DecidableEq, Repr

/-- Which arguments a command takes. -/
structure Usage where
  /-- Whether it takes the options that choose the project. -/
  onProject : Bool
  /-- Whether it takes `--apply`. -/
  applicable : Bool
  /-- How many arguments it takes that are not options. -/
  operands : Nat
deriving DecidableEq, Repr

/-- The arguments of a command that were read. -/
structure Given where
  root : Option String
  verbose : Bool
  apply : Bool
  operands : List String
deriving DecidableEq, Repr

/-- What the next argument may be. -/
inductive Expected where
  | anything
  /-- The value of `--source-root`. -/
  | root
  /-- No option any more. -/
  | operand
deriving DecidableEq, Repr

namespace Given

/-- No arguments. -/
def none : Given := ⟨Option.none, false, false, []⟩

/-- Choose the directory of the project, which is done once and not by an empty name. -/
def setRoot (g : Given) (root : String) : Except Interruption Given :=
  if root = "" || g.root.isSome then .error .misuse else .ok { g with root := some root }

/-- Ask for more details, once. -/
def setVerbose (g : Given) : Except Interruption Given :=
  if g.verbose then .error .misuse else .ok { g with verbose := true }

/-- Ask for edits to be made, once. -/
def setApply (g : Given) : Except Interruption Given :=
  if g.apply then .error .misuse else .ok { g with apply := true }

/-- Add an argument that is not an option. -/
def addOperand (u : Usage) (g : Given) (s : String) : Except Interruption Given :=
  if g.operands.length < u.operands then .ok { g with operands := g.operands ++ [s] }
  else .error .misuse

/-- Read an option of one letter. -/
def readLetter (u : Usage) (g : Given) (c : Char) : Except Interruption Given :=
  if c = 'h' then .error .help
  else if c = 'v' && u.onProject then g.setVerbose
  else .error .misuse

/-- Read an option with a name, and perhaps with a value after an equals sign. -/
def readNamed (u : Usage) (g : Given) (option : List Char) :
    Except Interruption (Expected × Given) := do
  let name := String.ofList (option.takeWhile (· ≠ '='))
  match name, option.dropWhile (· ≠ '=') with
  | "help", [] => throw .help
  | "verbose", [] => if u.onProject then return (.anything, ← g.setVerbose) else throw .misuse
  | "apply", [] => if u.applicable then return (.anything, ← g.setApply) else throw .misuse
  | "source-root", [] => if u.onProject then return (.root, g) else throw .misuse
  | "source-root", _ :: value =>
    if u.onProject then return (.anything, ← g.setRoot (String.ofList value)) else throw .misuse
  | _, _ => throw .misuse

/-- Read one argument. -/
def readNext (u : Usage) (state : Expected × Given) (arg : String) :
    Except Interruption (Expected × Given) := do
  let (expected, g) := state
  match expected, arg.toList with
  | .operand, _ => return (.operand, ← g.addOperand u arg)
  | .root, '-' :: _ :: _ => throw .misuse
  | .root, _ => return (.anything, ← g.setRoot arg)
  | .anything, ['-', '-'] => return (.operand, g)
  | .anything, '-' :: '-' :: option => g.readNamed u option
  | .anything, '-' :: c :: letters => return (.anything, ← (c :: letters).foldlM (readLetter u) g)
  | .anything, _ => return (.anything, ← g.addOperand u arg)

/-- Read the arguments of a command. -/
def read (u : Usage) (args : List String) : Except Interruption Given := do
  let (expected, g) ← args.foldlM (readNext u) (.anything, none)
  if expected = .root || g.operands.length ≠ u.operands then throw .misuse else return g

end Given

namespace Request

/-- What the arguments of a command ask for, where `make` makes the command of them. -/
def ofArguments (topic : Topic) (u : Usage) (make : Given → Option Command) (args : List String) :
    Option Request :=
  match Given.read u args with
  | .ok g => (make g).map .run
  | .error .help => some (.help topic)
  | .error .misuse => none

/-- The directory of the project: as given, or else as set for all commands. Neither is empty. -/
def rootOf? (preset : Option String) (g : Given) : Option (Option String) :=
  if g.root.isNone && preset = some "" then none else some (g.root.or preset)

/-- The topic of a name. -/
def topicOf? : List String → Option Topic
  | [] => some .program
  | ["check"] => some .check
  | ["rename"] => some .rename
  | ["init"] => some .init
  | ["help"] => some .help
  | _ => none

/-- What some arguments ask for, if they can be understood. `preset` is the directory of the project
where none is given. -/
def parse (preset : Option String) (args : List String) : Option Request :=
  match args with
  | [] => some (.help .program)
  | ["--"] => some (.help .program)
  | "help" :: names => (topicOf? names).map .help
  | "check" :: args =>
    ofArguments .check ⟨true, false, 0⟩ (fun g => (rootOf? preset g).map .check) args
  | "rename" :: args =>
    ofArguments .rename ⟨true, true, 2⟩
      (fun g => do
        let root ← rootOf? preset g
        match g.operands with
        | [old, new] => some (.rename root old new g.apply)
        | _ => none) args
  | "init" :: args => ofArguments .init ⟨false, false, 0⟩ (fun _ => some .init) args
  | "--help" :: _ => some (.help .program)
  | "--version" :: _ => some .version
  | arg :: _ =>
    match arg.toList with
    | '-' :: 'h' :: _ => some (.help .program)
    | '-' :: 'V' :: _ => some .version
    | _ => none

end Request

end Concord.CommandLine
