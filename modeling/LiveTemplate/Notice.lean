import LiveTemplate.Detect

/-!
# Notices

What is reported about compiling and instantiating templates, for whoever wants to follow it.
-/

namespace LiveTemplate

set_option autoImplicit false

/-- A report of something that happened. -/
inductive Notice
  /-- The dialect of a template was chosen for a reason. -/
  | judged (verdict : Verdict)
  | compiling (fragments : Nat) (dialect : Dialect)
  /-- A compiled template was used again. -/
  | cacheHit (fragments : Nat)
  | realized (parts : Nat)
  deriving DecidableEq, Repr

/-- The wording of a notice.  A verdict without an explanation is passed over in silence. -/
def Notice.message? : Notice → Option String
  | .judged verdict => verdict.explanation?
  | .compiling fragments dialect =>
    some ("Compiling " ++ toString fragments ++ " fragments in " ++ dialect.title ++ " mode")
  | .cacheHit fragments =>
    some ("Template cache hit for " ++ toString fragments ++ " fragments")
  | .realized parts => some ("Materialized instance with " ++ toString parts ++ " parts")

end LiveTemplate
