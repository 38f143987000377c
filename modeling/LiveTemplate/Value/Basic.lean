import LiveTemplate.Part

/-!
# Values

The values that fill the holes of templates are plain data or refer to something live: a node, an
instance, a part, a reference that is to receive an element, or a callback.
-/

namespace LiveTemplate

set_option autoImplicit false

/-- The identity of a compiled template. -/
abbrev TemplateId := Nat

/-- The identity of a reference. -/
abbrev RefId := Nat

/-- A value handed to a template, an instance or a part. -/
inductive Value
  | null
  | bool (b : Bool)
  | int (n : Int)
  | float (x : Float)
  | text (s : String)
  | list (items : List Value)
  /-- A sequence of fixed length. -/
  | tuple (items : List Value)
  | dict (members : List (String × Value))
  | node (n : NodeId)
  | instance (i : InstanceId)
  /-- A holder that can receive an element. -/
  | ref (r : RefId)
  /-- A callback, known by its tag. -/
  | callback (tag : String)
  | part (p : Part)
  /-- All parts of an instance. -/
  | parts (i : InstanceId)
  | template (t : TemplateId)
  deriving Inhabited

namespace Value

/-- What a kind of value is called in messages. -/
def kind : Value → String
  | .null => "NoneType"
  | .bool _ => "bool"
  | .int _ => "int"
  | .float _ => "float"
  | .text _ => "str"
  | .list _ => "list"
  | .tuple _ => "tuple"
  | .dict _ => "dict"
  | .node _ => "Tag"
  | .instance _ => "Instance"
  | .ref _ => "Ref"
  | .callback _ => "function"
  | .part p => p.kindName
  | .parts _ => "PartList"
  | .template _ => "StaticTemplate"

end Value

end LiveTemplate
