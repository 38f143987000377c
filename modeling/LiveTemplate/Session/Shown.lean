import LiveTemplate.Decimal.FloatText
import LiveTemplate.Session.Basic

/-!
# Showing values as text

A value has two texts.  `Session.shown` is its text in messages and inside of other values, where
strings stand between quotes.  `Session.plain` is what is written for it in an attribute or a
range: strings are as they are, and an instance is its markup.

Both may fail, since the text of a live thing is read off the forest.
-/

namespace LiveTemplate

set_option autoImplicit false

namespace Session

/-- The markup of an instance. -/
def render (s : Session) (i : InstanceId) : Except Fault String := do
  return s.forest.markupAll (← (s.instanceAt i).block.roots s.forest)

/-- An instance in messages. -/
def instanceShown (s : Session) (i : InstanceId) : String :=
  let inst := s.instanceAt i
  let isSvg := (s.templateAt inst.template).dialect == .svg
  "Instance(parts=" ++ toString inst.parts.length ++ ", svg="
    ++ (if isSvg then "True" else "False") ++ ")"

/-- A range in messages. -/
def rangeShown (s : Session) (title : String) (r : NodeRange) : Except Fault String := do
  return title ++ "(length=" ++ toString (← r.size s.forest) ++ ")"

/-- A part in messages. -/
def partShown (s : Session) (p : Part) : Except Fault String :=
  match p.site with
  | .attribute e name =>
    let value := match s.forest.attribute? e name with
      | some value => Text.quoted value
      | none => "None"
    .ok ("AttributePart(<" ++ s.forest.nameOf e ++ "> " ++ name ++ "=" ++ value ++ ")")
  | .element e => .ok ("ElementPart(<" ++ s.forest.nameOf e ++ ">)")
  | .range r => s.rangeShown "NodeRangePart" r

/-- Texts between brackets. -/
def bracketed (texts : List String) : String := "[" ++ ", ".intercalate texts ++ "]"

/-- The text of a sequence of fixed length: a single entry is followed by a comma. -/
def tupleText : List String → String
  | [one] => "(" ++ one ++ ",)"
  | texts => "(" ++ ", ".intercalate texts ++ ")"

mutual
/-- A value in messages, given the texts of references. -/
def shownWith (s : Session) (refText : RefId → Except Fault String) :
    Value → Except Fault String
  | .null => .ok "None"
  | .bool b => .ok (if b then "True" else "False")
  | .int n => .ok (toString n)
  | .float x => .ok (Decimal.floatText x)
  | .text t => .ok (Text.quoted t)
  | .list items => (shownAll s refText items).map bracketed
  | .tuple items => (shownAll s refText items).map tupleText
  | .dict members => do
    return "\x7b" ++ ", ".intercalate (← shownMembers s refText members) ++ "\x7d"
  | .node n => .ok (s.forest.shown n)
  | .instance i => .ok (s.instanceShown i)
  | .ref r => refText r
  | .callback tag => .ok ("<function " ++ tag ++ ">")
  | .part p => s.partShown p
  | .parts i => do
    return "PartList(" ++ bracketed (← (s.instanceAt i).parts.mapM s.partShown) ++ ")"
  | .template t => .ok (s.templateAt t).summary

/-- Several values in messages. -/
def shownAll (s : Session) (refText : RefId → Except Fault String) :
    List Value → Except Fault (List String)
  | [] => .ok []
  | v :: rest => do
    let text ← shownWith s refText v
    return text :: (← shownAll s refText rest)

/-- The members of a keyed value in messages. -/
def shownMembers (s : Session) (refText : RefId → Except Fault String) :
    List (String × Value) → Except Fault (List String)
  | [] => .ok []
  | (key, v) :: rest => do
    let text ← shownWith s refText v
    return (Text.quoted key ++ ": " ++ text) :: (← shownMembers s refText rest)
end

/-- A reference in messages, followed through at most `depth` other references. -/
def refShown (s : Session) : Nat → RefId → Except Fault String
  | 0, _ => .ok "Ref(...)"
  | depth + 1, r => do
    return "Ref(" ++ (← s.shownWith (s.refShown depth) (s.refs.getD r .null)) ++ ")"

/-- A value in messages. -/
def shown (s : Session) (v : Value) : Except Fault String :=
  s.shownWith (s.refShown (s.refs.size + 1)) v

/-- A value as it is written out. -/
def plain (s : Session) : Value → Except Fault String
  | .text t => .ok t
  | .node n =>
    .ok (match s.forest.leaf? n with
      | some l => l.content
      | none => s.forest.markup n)
  | .instance i => s.render i
  | v => s.shown v

end Session

end LiveTemplate
