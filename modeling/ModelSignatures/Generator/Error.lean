import ModelSignatures.SyntaxError

/-!
# Errors of generation

Why a class has no signature. That there is nothing to declare is not an error.
-/

namespace ModelSignatures

/-- Why the signature of a class could not be written. -/
inductive GenerationError
  /-- The name of the class, or of a superclass, is no path of constants. -/
  | invalidName (name : String)
  /-- An attribute of the class cannot be a method. -/
  | invalidAttribute (className attrName : String)
  /-- An enclosing constant is not known, or is neither a class nor a module. -/
  | unresolved (constant : String)
  /-- What was put together for the class is no signature. -/
  | malformed (className : String) (cause : SyntaxError)
deriving DecidableEq, Repr

namespace GenerationError

/-- The wording of an error. -/
def message : GenerationError → String
  | invalidName name => "Invalid class name '" ++ name ++ "'"
  | invalidAttribute className attrName =>
    "Invalid attribute name '" ++ attrName ++ "' on '" ++ className ++ "'"
  | unresolved constant => "Cannot resolve '" ++ constant ++ "' as a class or module"
  | malformed className cause =>
    "Generated signature for '" ++ className ++ "' is not valid RBS: " ++ cause.message

end GenerationError

end ModelSignatures
