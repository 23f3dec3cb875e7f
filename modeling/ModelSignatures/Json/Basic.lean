/-!
# JSON values

A value as it is written: an object keeps all its fields in their order, and where a key is given
more than once the last field of the key counts. Numbers keep the text that they are written with.
-/

namespace ModelSignatures

/-- A JSON value. -/
inductive Json
  | null
  | bool (b : Bool)
  | number (text : String)
  | string (text : String)
  | array (items : List Json)
  | object (fields : List (String × Json))
deriving Inhabited, Repr

namespace Json

/-! ### Values of one kind -/

/-- The truth value that a value is. -/
def asBool? : Json → Option Bool
  | bool b => some b
  | _ => none

/-- The text that a value is. -/
def asString? : Json → Option String
  | string text => some text
  | _ => none

/-- The items of a value that is an array. -/
def asArray? : Json → Option (List Json)
  | array items => some items
  | _ => none

/-- A text or the absence of one. -/
def asNullableString? : Json → Option (Option String)
  | null => some none
  | string text => some (some text)
  | _ => none

/-- A list of things that are each read by `item`. -/
def asListOf? {α : Type} (item : Json → Option α) (j : Json) : Option (List α) :=
  j.asArray?.bind fun items ↦ items.mapM item

/-! ### Objects -/

/-- The fields that count: of those with the same key the last. -/
def lastFields : List (String × Json) → List (String × Json)
  | [] => []
  | field :: fields =>
    if fields.any fun later ↦ later.1 == field.1 then lastFields fields
    else field :: lastFields fields

/-- The fields of an object that count. -/
def asObject? : Json → Option (List (String × Json))
  | object fields => some (lastFields fields)
  | _ => none

/-! ### Records -/

/-- The value of a key, the last one if it is given more than once. -/
def lastValue? (key : String) : List (String × Json) → Option Json
  | [] => none
  | field :: fields =>
    match lastValue? key fields with
    | some value => some value
    | none => if field.1 = key then some field.2 else none

/-- The fields of a record with the given keys. A record is an object, or an array of the values of
the first of its keys. -/
def asRecord? (keys : List String) : Json → Option (List (String × Json))
  | object fields => some fields
  | array items => if items.length ≤ keys.length then some (keys.zip items) else none
  | _ => none

/-- Reads a field that has to be there. -/
def required? {α : Type} (fields : List (String × Json)) (key : String)
    (read : Json → Option α) : Option α :=
  (lastValue? key fields).bind read

/-- Reads a field that may be left out. -/
def optional? {α : Type} (fields : List (String × Json)) (key : String) (default : α)
    (read : Json → Option α) : Option α :=
  match lastValue? key fields with
  | some value => read value
  | none => some default

end Json

end ModelSignatures
