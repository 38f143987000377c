import LiveTemplate.Dialect
import LiveTemplate.Fault
import LiveTemplate.Text.Quoted

/-!
# Command lines

A command line names a command, and then gives fragments and options in any order.  An option
that takes a value is followed by it, either as the next argument or attached: behind an equals
sign for a long option, directly for a short one.  Behind two dashes everything is a fragment.
-/

namespace LiveTemplate.Console

set_option autoImplicit false

/-- What the program is asked to do with a template. -/
inductive Command
  /-- Show its marked markup and its parts. -/
  | inspect
  /-- Write it with values. -/
  | render
  deriving DecidableEq, Repr

/-- The options of a command line. -/
structure Options where
  fragments : List String := []
  values : List String := []
  forced : Option Dialect := none
  verbose : Bool := false
  deriving DecidableEq, Repr

/-- Why a command line cannot be carried out. -/
inductive Complaint
  | noCommand
  | noSuchCommand (name : String)
  | noSuchOption (name : String)
  | needsArgument (option : String)
  | takesNoValue (option : String)
  | noFragments
  | tooManyValues (given placeholders : Nat)
  /-- The template is defective. -/
  | template (error : TemplateError)
  /-- Something else went wrong. -/
  | fault (fault : Fault)
  deriving DecidableEq, Repr

/-- The wording of a complaint. -/
def Complaint.message : Complaint → String
  | .noCommand => "Missing command."
  | .noSuchCommand name => "No such command " ++ Text.quoted name ++ "."
  | .noSuchOption name => "No such option " ++ Text.quoted name ++ "."
  | .needsArgument option => "Option " ++ Text.quoted option ++ " requires an argument."
  | .takesNoValue option => "Option " ++ Text.quoted option ++ " does not take a value."
  | .noFragments => "Missing parameter: fragments"
  | .tooManyValues given placeholders =>
    "Got " ++ toString given ++ " values for " ++ toString placeholders ++ " placeholders"
  | .template error => error.message
  | .fault f => f.message

/-- What an option does. -/
inductive Switch
  | force (d : Dialect)
  | verbose
  /-- Takes the value of the next placeholder. -/
  | value
  deriving DecidableEq, Repr

/-- The option of a long name. -/
def Command.longOption? (c : Command) (name : String) : Option Switch :=
  match c, name with
  | _, "--svg" => some (.force .svg)
  | _, "--html" => some (.force .html)
  | _, "--verbose" => some .verbose
  | .render, "--value" => some .value
  | _, _ => none

/-- Whether an argument is read as an option: a dash alone is not one. -/
def isOption (arg : String) : Bool :=
  match arg.toList with
  | '-' :: _ :: _ => true
  | _ => false

/-- Whether an argument begins with two dashes. -/
def isLongOption (arg : String) : Bool :=
  match arg.toList with
  | '-' :: '-' :: _ => true
  | _ => false

/-- The name of a long option, and the value behind its first equals sign. -/
def splitOption (arg : String) : String × Option String :=
  let s := arg.toList
  let name := s.takeWhile (· != '=')
  match s.drop name.length with
  | [] => (arg, none)
  | _ :: value => (String.ofList name, some (String.ofList value))

/-- The name of a short option, and what is attached to it. -/
def splitShort (arg : String) : String × List Char :=
  let s := arg.toList
  (String.ofList (s.take 2), s.drop 2)

namespace Options

/-- Adds a value. -/
def addValue (o : Options) (value : String) : Options := { o with values := o.values ++ [value] }

/-- Adds fragments. -/
def addFragments (o : Options) (fragments : List String) : Options :=
  { o with fragments := o.fragments ++ fragments }

end Options

/-- Reads an option that takes a value: the value attached to it, or the next argument. -/
def takeValue (name : String) (attached : Option String) (rest : List String) :
    Except Complaint (String × List String) :=
  match attached, rest with
  | some value, _ => .ok (value, rest)
  | none, value :: rest => .ok (value, rest)
  | none, [] => .error (.needsArgument name)

/-- Reads one option and its value: the changed options, and the arguments behind it. -/
def readOption (c : Command) (o : Options) (arg : String) (rest : List String) :
    Except Complaint (Options × List String) :=
  let (name, given) := splitOption arg
  match c.longOption? name with
  | some .value => do
    let (value, rest) ← takeValue name given rest
    return (o.addValue value, rest)
  | some (.force d) =>
    if given.isSome then .error (.takesNoValue name) else .ok ({ o with forced := some d }, rest)
  | some .verbose =>
    if given.isSome then .error (.takesNoValue name) else .ok ({ o with verbose := true }, rest)
  | none =>
    if isLongOption arg then .error (.noSuchOption name)
    else
      let (name, attached) := splitShort arg
      if c = .render ∧ name = "-v" then do
        let attached := if attached.isEmpty then none else some (String.ofList attached)
        let (value, rest) ← takeValue name attached rest
        return (o.addValue value, rest)
      else .error (.noSuchOption name)

/-- Reads arguments, at most `count` of them. -/
def readArguments (c : Command) (o : Options) (args : List String) :
    Nat → Except Complaint Options
  | 0 => .ok o
  | count + 1 =>
    match args with
    | [] => .ok o
    | "--" :: rest => .ok (o.addFragments rest)
    | arg :: rest =>
      if isOption arg then do
        let (o, rest) ← readOption c o arg rest
        readArguments c o rest count
      else readArguments c (o.addFragments [arg]) rest count

/-- The options of a command, of which at least one fragment must be among. -/
def Command.read (c : Command) (args : List String) : Except Complaint Options := do
  let o ← readArguments c {} args args.length
  if o.fragments.isEmpty then throw .noFragments
  return o

/-- The command of a name. -/
def Command.named (name : String) : Except Complaint Command :=
  match name with
  | "inspect" => .ok .inspect
  | "render" => .ok .render
  | _ => .error (.noSuchCommand name)

/-- Reads the command at the head of a command line. -/
def readCommand : List String → Except Complaint (Command × List String)
  | [] => .error .noCommand
  | "--" :: [] => .error .noCommand
  | "--" :: name :: rest => do return (← Command.named name, rest)
  | name :: rest =>
    if isLongOption name then .error (.noSuchOption (splitOption name).1)
    else if isOption name then .error (.noSuchOption (splitShort name).1)
    else do return (← Command.named name, rest)

end LiveTemplate.Console
