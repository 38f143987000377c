/-!
# The two dialects of markup

Every template is written either in HTML or in SVG.  The dialect decides how tags are read, how
names are spelled and which characters are escaped on output.
-/

namespace LiveTemplate

set_option autoImplicit false

/-- A dialect of markup: forgiving HTML, or SVG with the rules of XML. -/
inductive Dialect
  | html
  | svg
  deriving DecidableEq, Repr, Inhabited

/-- The name of a dialect in reports to the user. -/
def Dialect.label : Dialect → String
  | .html => "html"
  | .svg => "svg"

/-- The name of a dialect in log messages. -/
def Dialect.title : Dialect → String
  | .html => "HTML"
  | .svg => "SVG"

end LiveTemplate
