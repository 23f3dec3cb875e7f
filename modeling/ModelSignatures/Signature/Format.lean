import ModelSignatures.Signature.Layout
import ModelSignatures.Signature.Reading

/-!
# Formatting signature texts

Reading a text as a signature and writing it again in canonical layout.
-/

namespace ModelSignatures

namespace Signature

/-- The signature that a document spells. -/
def ofDocument (document : Document) : Except SyntaxError Signature :=
  match Declaration.readAll document.lexemes.length document.lexemes with
  | .ok declarations => .ok ⟨declarations, document.closing.map (·.text)⟩
  | .error failure => .error (failure.toSyntaxError document.ending)

/-- The signature that a list of tokens spells. -/
def ofTokens (tokens : List Token) : Except SyntaxError Signature :=
  ofDocument (.ofTokens tokens)

/-- Reads a signature. -/
def parse (source : String) : Except SyntaxError Signature := do
  ofTokens (← Token.tokenize source)

/-- The text in canonical layout. -/
def format (source : String) : Except SyntaxError String := do
  return (← parse source).text

/-- Whether a text is in canonical layout already. -/
def isCanonical (source : String) : Except SyntaxError Bool := do
  return (← format source) == source

end Signature

end ModelSignatures
