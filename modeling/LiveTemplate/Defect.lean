/-!
# Defects of a template

A template that cannot be compiled has a permanent defect.  A defect says what is wrong; its
place, where one is known, is a fragment and a position counted in characters.
-/

namespace LiveTemplate

set_option autoImplicit false

/-- What can be wrong with the markup of a template. -/
inductive Defect
  /-- The last fragment ends before its tag does. -/
  | endsInsideTag
  /-- A fragment ends inside a comment, which has no place for a marker. -/
  | endsInsideComment
  /-- No element name follows the first `<`. -/
  | missingElementName
  /-- Parsing the marked markup lost or gained markers. -/
  | markersChanged (expected found : Nat)
  deriving DecidableEq, Repr

/-- The wording of a defect, without its place. -/
def Defect.summary : Defect → String
  | .endsInsideTag => "Markup ends inside a tag"
  | .endsInsideComment => "Unterminated comment, placeholders inside comments are not supported"
  | .missingElementName => "Missing element name"
  | .markersChanged expected found =>
    "Expected " ++ toString expected ++ " placeholder markers after parsing, found "
      ++ toString found ++ "; placeholders inside raw text elements such as <script> or <style> "
      ++ "are not supported"

/-- A place in the markup of a template, as far as it is known. -/
structure Place where
  fragment : Option Int := none
  position : Option Int := none
  deriving DecidableEq, Repr

/-- A message followed by the place it is about. -/
def Place.annotate (place : Place) (message : String) : String :=
  match place.fragment, place.position with
  | none, none => message
  | none, some position => message ++ " (position " ++ toString position ++ ")"
  | some fragment, none => message ++ " (fragment " ++ toString fragment ++ ")"
  | some fragment, some position =>
    message ++ " (fragment " ++ toString fragment ++ ", position " ++ toString position ++ ")"

/-- A defect at its place. -/
structure TemplateError where
  defect : Defect
  place : Place := {}
  deriving DecidableEq, Repr

/-- The full wording of a template error. -/
def TemplateError.message (e : TemplateError) : String := e.place.annotate e.defect.summary

end LiveTemplate
