import ModelSignatures.Lexeme

/-!
# Reading lexemes

The vocabulary of the grammar. A reader takes the lexemes that are left and answers with what it
read and the lexemes left then, or with a failure at the first lexeme that does not fit.

Readers that repeat or recurse take a `bound`. It need only be as large as the number of lexemes
left: every round takes a lexeme, and at the bound zero a reader answers as it does where nothing is
left.
-/

namespace ModelSignatures

/-- Why lexemes could not be read. -/
inductive Failure
  /-- The first lexeme left, or the end, is not what the grammar wants. -/
  | unexpected (wanted : Expectation) (found : Option Lexeme)
  /-- A comment stands where none may. -/
  | misplaced (comment : Comment)

/-- What was read, and the lexemes left. -/
abbrev Parsed (α : Type) := α × List Lexeme

/-- Reads a thing from the front of the lexemes that are left. -/
abbrev Reader (α : Type) := List Lexeme → Except Failure (Parsed α)

/-- The syntax error of a failure in a text whose end is reported at `ending`. -/
def Failure.toSyntaxError (ending : Position) : Failure → SyntaxError
  | unexpected wanted (some found) => ⟨found.position, .unexpectedToken wanted (some found.kind)⟩
  | unexpected wanted none => ⟨ending, .unexpectedToken wanted none⟩
  | misplaced comment => ⟨comment.position, .misplacedComment⟩

namespace Reading

/-- The failure of a reader that wants something else than what is left. -/
def unexpected {α : Type} (wanted : Expectation) (ls : List Lexeme) : Except Failure α :=
  .error (.unexpected wanted ls.head?)

/-! ### Single lexemes -/

/-- The lexemes behind a symbol, if one is first. -/
def afterSymbol? (s : Symbol) : List Lexeme → Option (List Lexeme)
  | l :: ls => if l.kind = .symbol s then some ls else none
  | [] => none

/-- Reads a symbol that has to be there. -/
def symbol (s : Symbol) (wanted : Expectation) (ls : List Lexeme) : Except Failure (List Lexeme) :=
  match afterSymbol? s ls with
  | some ls => .ok ls
  | none => unexpected wanted ls

/-- Reads a word that has to be there. -/
def word (wanted : Expectation) : Reader String
  | { kind := .word text, .. } :: ls => .ok (text, ls)
  | ls => unexpected wanted ls

/-! ### Repetition -/

/-- Reads the items that each follow a separator, as many as there are. -/
def separated {α : Type} (separator : Symbol) (item : Reader α) :
    (bound : Nat) → Reader (List α)
  | 0, ls => .ok ([], ls)
  | bound + 1, ls =>
    match afterSymbol? separator ls with
    | none => .ok ([], ls)
    | some ls => do
      let (x, ls) ← item ls
      let (xs, ls) ← separated separator item bound ls
      return (x :: xs, ls)

/-- Reads the annotations that are left first. -/
def takeAnnotations : List Lexeme → List String × List Lexeme
  | { kind := .annot text, .. } :: ls =>
    let (texts, ls) := takeAnnotations ls
    (text :: texts, ls)
  | ls => ([], ls)

/-! ### Comments -/

/-- The comments above the first lexeme. -/
def leadingComments (ls : List Lexeme) : List String :=
  match ls with
  | l :: _ => l.leading.map (·.text)
  | [] => []

/-- The lexemes that a reader took. -/
def taken (before after : List Lexeme) : List Lexeme :=
  before.take (before.length - after.length)

/-- The comments between the first and the last of the lexemes. -/
def innerComments : List Lexeme → List Comment
  | l :: next :: ls => l.trailing.toList ++ next.leading ++ innerComments (next :: ls)
  | _ => []

/-- Ends a header or a member that was read from `before` to `after`: refuses the first comment
inside it, and gives the one at the end of its last line. -/
def endOfLine (before after : List Lexeme) : Except Failure (Option String) :=
  let ls := taken before after
  match innerComments ls with
  | comment :: _ => .error (.misplaced comment)
  | [] => .ok ((ls.getLast?.bind (·.trailing)).map (·.text))

end Reading

end ModelSignatures
