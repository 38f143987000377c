import LiveTemplate.Session.Shown

/-!
# Filling parts

Arguments fill the parts of an instance one after another:

* an attribute is removed for nothing or false, left empty for true, and set to the text of any
  other value;
* an element is handed to a reference or a callback;
* a range gets a single value or the entries of a list, nothing and false left out.

Parts beyond the last argument are filled with nothing.
-/

namespace LiveTemplate

set_option autoImplicit false

namespace Session

/-- A value as content of a range. -/
def contentOf (s : Session) (v : Value) : Content :=
  match v with
  | .text t => .text t
  | .node n => .node n
  | .instance i => .block (s.instanceAt i).block
  | v =>
    match s.shown v with
    | .ok shown => .refused (.cannotPlace shown)
    | .error fault => .refused fault

/-- The text an attribute is set to for a value, if it is not removed. -/
def attributeText? (s : Session) : Value → Except Fault (Option String)
  | .null | .bool false => .ok none
  | .bool true => .ok (some "")
  | v => do return some (← s.plain v)

/-- The entries that a value fills a range with. -/
def rangeEntries : Value → List Value
  | .list items | .tuple items => items
  | v => [v]

/-- The contents that entries stand for: nothing and false are left out, and what is neither text
nor live is written out. -/
def contentsOf (s : Session) : List Value → Except Fault (List Content)
  | [] => .ok []
  | .null :: rest | .bool false :: rest => s.contentsOf rest
  | v :: rest => do
    let content ← match v with
      | .text _ | .node _ | .instance _ => Except.ok (s.contentOf v)
      | v => (s.plain v).map Content.text
    return content :: (← s.contentsOf rest)

/-- Whether a value counts as no arguments at all. -/
def isNothing (s : Session) : Value → Bool
  | .null | .bool false | .text "" | .list [] | .tuple [] | .dict [] => true
  | .int n => n == 0
  | .float x => x == 0.0
  | .node n =>
    match s.forest.leaf? n with
    | some l => l.content.isEmpty
    | none => false
  | .parts i => (s.instanceAt i).parts.isEmpty
  | _ => false

/-- The entry of the arguments at an index, if there is one: the characters of text count as its
entries. -/
def argumentAt (s : Session) (arguments : Value) (index : Nat) : Except Fault (Option Value) :=
  if s.isNothing arguments then .ok none
  else
    match s.text? arguments, s.entries arguments with
    | some t, _ => .ok (t.toList[index]?.map fun c => .text (String.singleton c))
    | none, .error fault => .error fault
    | none, .ok entries =>
      match arguments, entries[index]? with
      | .dict _, some _ | .node _, some _ => .error (.noKey index)
      | _, entry => .ok entry

end Session

namespace Live

/-- Makes a range hold exactly the given contents. -/
def replaceContents (r : NodeRange) (contents : List Content) : Live Unit := do
  let blocks ← edit (r.reconcile ((← get).placedIn r) contents)
  modify (·.remember r blocks)

/-- Sets or removes an attribute. -/
def setAttribute (e : NodeId) (name : String) (value : Option String) : Live Unit :=
  edit (modify (·.setAttribute e name value))

/-- Fills the part that controls a site with a value. -/
def fill (site : Site) (v : Value) : Live Unit := do
  match site with
  | .attribute e name => setAttribute e name (← look (·.attributeText? v))
  | .element e =>
    match v with
    | .ref r => modify fun s => { s with refs := s.refs.setIfInBounds r (.node e) }
    | .callback tag => modify fun s => { s with calls := s.calls ++ [(tag, e)] }
    | _ => return
  | .range r => replaceContents r (← look (·.contentsOf (Session.rangeEntries v)))

/-- Fills parts with arguments, from the argument at an index on. -/
def fillFrom (arguments : Value) (index : Nat) : List Part → Live Unit
  | [] => return
  | p :: rest => do
    fill p.site ((← look (·.argumentAt arguments index)).getD .null)
    fillFrom arguments (index + 1) rest

end Live

end LiveTemplate
