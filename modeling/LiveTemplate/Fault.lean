import LiveTemplate.Defect

/-!
# Faults

Everything that can go wrong while templates are compiled, filled and edited.  A fault is a
cause; its wording is given by `Fault.message` and nowhere else.
-/

namespace LiveTemplate

set_option autoImplicit false

/-- A cause of failure. -/
inductive Fault
  /-- The two ends of a node range are not children of one parent. -/
  | endsApart
  /-- The end of a node range does not follow its start. -/
  | endNotReached
  /-- The last root of an instance does not follow its first one. -/
  | rootsApart
  /-- A node to insert before, or to replace, is not a child of the parent. -/
  | notAChild
  /-- A node to remove is not a child of the parent. -/
  | removesForeign
  /-- A node is inserted into itself. -/
  | insertsIntoItself
  /-- A value of the given kind stands where a tree node is needed. -/
  | needsNode (kind : String)
  /-- A node range is given one of its own ends. -/
  | containsOwnEnd
  /-- A node is given to a node range twice. -/
  | repeatsNode (shown : String)
  /-- A value is placed in a node range that cannot stand there. -/
  | cannotPlace (shown : String)
  /-- A value is assigned to an entry of a node range that cannot stand there. -/
  | cannotAssign (shown : String)
  /-- An attribute is set to something other than text. -/
  | attributeNeedsText (shown : String)
  /-- A node range has no entry of the index asked for. -/
  | noEntry
  /-- A node range has no entry of the index assigned to. -/
  | noEntryToAssign
  /-- A list has no entry of the index asked for. -/
  | noListEntry
  /-- A fixed sequence has no entry of the index asked for. -/
  | noTupleEntry
  /-- A slice has a stride of zero. -/
  | slicesWithoutStride
  /-- A keyed value has no entry of the key asked for. -/
  | noKey (key : Nat)
  /-- A value of the given kind has no length. -/
  | hasNoLength (kind : String)
  /-- A part of the given kind does not offer what it is asked for. -/
  | lacks (kind member : String)
  /-- An instance that nothing fills is asked to update. -/
  | nothingFills
  /-- A template is written as one text instead of its fragments. -/
  | singleText
  /-- A template has no fragments. -/
  | noFragments
  /-- A fragment of a template is not text but of the given kind. -/
  | fragmentNotText (index : Nat) (kind : String)
  /-- The template itself is defective. -/
  | defective (error : TemplateError)
  /-- No parser goes by the given name. -/
  | unknownParser (name : String)
  /-- The parser gives up on the markup. -/
  | unreadable
  /-- The room for compiled templates is below one. -/
  | noCacheRoom
  deriving DecidableEq, Repr

/-- The wording of a fault. -/
def Fault.message : Fault → String
  | .endsApart =>
    "The boundary nodes of this node range are no longer children of the same parent node, so "
      ++ "the range cannot be located"
  | .endNotReached =>
    "The end boundary node of this node range does not follow its start boundary node"
  | .rootsApart =>
    "The root nodes of this instance are no longer adjacent, the last root node does not follow "
      ++ "the first one"
  | .notAChild => "Tag.index: element not in tag"
  | .removesForeign => "The node to remove is not a child of this parent"
  | .insertsIntoItself => "Cannot insert a tag into itself."
  | .needsNode kind => "'" ++ kind ++ "' object has no attribute 'parent'"
  | .containsOwnEnd => "A node range cannot contain its own boundary nodes"
  | .repeatsNode shown => "The node " ++ shown ++ " was provided more than once"
  | .cannotPlace shown =>
    "Only strings, tree nodes and template instances can be placed in a node range, " ++ shown
      ++ " was provided"
  | .cannotAssign shown =>
    "Only strings and tree nodes can be set to indexes of a NodeRange, " ++ shown
      ++ " was provided"
  | .attributeNeedsText shown =>
    "Attribute values must be strings or None, " ++ shown ++ " was provided"
  | .noEntry => "node range index out of range"
  | .noEntryToAssign => "node range assignment index out of range"
  | .noListEntry => "list index out of range"
  | .noTupleEntry => "tuple index out of range"
  | .slicesWithoutStride => "slice step cannot be zero"
  | .noKey key => toString key
  | .hasNoLength kind => "object of type '" ++ kind ++ "' has no len()"
  | .lacks kind member => "'" ++ kind ++ "' object has no attribute '" ++ member ++ "'"
  | .nothingFills => "This instance was created without a processor"
  | .singleText => "Expected a sequence of fragments, not a single string"
  | .noFragments => "At least one markup fragment must be provided"
  | .fragmentNotText index kind =>
    "Fragment " ++ toString index ++ " must be a string, " ++ kind ++ " was provided"
  | .defective error => error.message
  | .unknownParser name =>
    "Couldn't find a tree builder with the features you requested: " ++ name
      ++ ". Do you need to install a parser library?"
  | .unreadable =>
    "The markup you provided was rejected by the parser. Trying a different parser or a different "
      ++ "encoding may help."
  | .noCacheRoom => "cache_size must be at least 1"

end LiveTemplate
