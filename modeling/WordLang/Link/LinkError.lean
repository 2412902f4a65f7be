/-!
# Link errors
-/

namespace WordLang

inductive LinkError where
  /-- Nothing defines a name that a section refers to. -/
  | unresolvedSymbol (name referencedFrom : String)
  | malformedMetadata (library reason : String)
  | missingLibrary (library : String)
  | unreadableBody (library path : String)
  /-- A placeholder names no constant. -/
  | unresolvedPlaceholder (name : String)
  /-- Two sections define one label. -/
  | duplicateLabel (name first second : String)
deriving DecidableEq

def LinkError.message : LinkError → String
  | unresolvedSymbol name referencedFrom =>
    s!"unresolved symbol `{name}` referenced from {referencedFrom}"
  | malformedMetadata library reason => s!"malformed metadata for library `{library}`: {reason}"
  | missingLibrary library => s!"library `{library}` not found in any library directory"
  | unreadableBody library path => s!"cannot read body of library `{library}` at {path}"
  | unresolvedPlaceholder name => s!"unresolved placeholder `[{name}]`"
  | duplicateLabel name first second => s!"label `{name}` defined by both {first} and {second}"

end WordLang
