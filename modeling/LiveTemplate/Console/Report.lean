import LiveTemplate.Console.Arguments
import LiveTemplate.Console.Table
import LiveTemplate.Session.Compile
import LiveTemplate.Session.Instance

/-!
# Reports

What the program writes: the parts of a template in a table, or a template with its values filled
in.
-/

namespace LiveTemplate.Console

set_option autoImplicit false

/-- The width of the console. -/
def consoleWidth : Nat := 240

/-- The columns of the table of parts. -/
def partColumns : List Column :=
  [{ title := "#", alignRight := true }, { title := "Type" }, { title := "Element" },
    { title := "Attribute" }]

/-- The row of a part in an instance that lives in a fragment. -/
def partRow (f : Forest) (home : NodeId) (index : Nat) (p : Part) :
    Except Fault (List String) :=
  match p.site with
  | .attribute e name => .ok [toString index, "attribute", f.nameOf e, name]
  | .element e => .ok [toString index, "element", f.nameOf e, ""]
  | .range r => do
    let parent ← r.parent f
    return [toString index, "nodes", if parent = home then "(root)" else f.nameOf parent, ""]

/-- The rows of parts, numbered from an index on. -/
def partRows (f : Forest) (home : NodeId) (index : Nat) :
    List Part → Except Fault (List (List String))
  | [] => .ok []
  | p :: rest => do
    let row ← partRow f home index p
    return row :: (← partRows f home (index + 1) rest)

/-- Shows a template and the parts of an instance of it. -/
def inspectLines (t : TemplateId) : Live (List String) := do
  let i ← Live.instantiate t none
  let s ← get
  let template := s.templateAt t
  let inst := s.instanceAt i
  let rows ← Live.look fun s => partRows s.forest inst.block.home 0 inst.parts
  return ["Mode: " ++ template.dialect.label, "Scanned markup:"]
    ++ (layOut consoleWidth template.markup.toList).map String.ofList
    ++ [toString inst.parts.length ++ " parts"]
    ++ (table partColumns rows).map String.ofList

/-- The text without the sequences that would colour it on a console: an escape character, an
opening bracket, digits, semicolons or question marks, and a letter. -/
def uncoloured (s : List Char) : Nat → List Char
  | 0 => s
  | count + 1 =>
    match s with
    | [] => []
    | '\x1b' :: '[' :: inner =>
      match inner.dropWhile fun c => c.isDigit || c == ';' || c == '?' with
      | final :: rest =>
        if final.isAlpha then uncoloured rest count
        else '\x1b' :: uncoloured ('[' :: inner) count
      | [] => s
    | c :: rest => c :: uncoloured rest count

/-- Writes a template with values for its placeholders. -/
def renderLines (t : TemplateId) (values : List String) : Live (List String) := do
  let i ← Live.instantiate t (some (.list (values.map .text)))
  let markup := (← Live.look (·.render i)).toList
  return (splitLines (uncoloured markup markup.length)).map String.ofList

/-- What a computation gives in a new session. -/
def inNewSession {α : Type} (act : Live α) : Except Fault (α × List Notice) :=
  match ({} : Session).addEngine {} with
  | .error fault => .error fault
  | .ok s =>
    match act s with
    | .ok a s => .ok (a, s.notices)
    | .error fault _ => .error fault

/-- Words a fault as a complaint about the command line. -/
def Complaint.ofFault : Fault → Complaint
  | .defective error => .template error
  | f => .fault f

/-- Compiles the fragments of a command line. -/
def compileFragments (o : Options) : Live TemplateId := do
  let sequence ← Live.newSequence
  Live.compile 0 sequence (.tuple (o.fragments.map .text)) o.forced

/-- Carries out a command: the lines it writes, or a complaint. -/
def Command.report (c : Command) (o : Options) : Live (Except Complaint (List String)) := do
  let t ← compileFragments o
  match c with
  | .inspect => return .ok (← inspectLines t)
  | .render =>
    let placeholders := ((← get).templateAt t).placeholders
    if o.values.length > placeholders then
      return .error (.tooManyValues o.values.length placeholders)
    else return .ok (← renderLines t o.values)

/-- Everything that a command line gives rise to. -/
structure Outcome where
  lines : List String
  /-- The notices to be shown, if they were asked for. -/
  notices : List Notice := []

/-- Carries out a command line. -/
def run (args : List String) : Except Complaint Outcome := do
  let (c, rest) ← readCommand args
  let o ← c.read rest
  match inNewSession (c.report o) with
  | .error fault => throw (Complaint.ofFault fault)
  | .ok (.error complaint, _) => throw complaint
  | .ok (.ok lines, notices) => return { lines, notices := if o.verbose then notices else [] }

end LiveTemplate.Console
