/-! Values as they are sent and stored: a tree of texts, numbers, lists and records
with named fields. Whole numbers from zero up that fit into 64 bits are kept apart
from all other numbers, so that a count is read exactly and a number may be
written as either. A structure is read from a record in which each field stands
under one of its spellings, or from the list of its fields in order. -/

namespace InitialValue.Wire

inductive Value where
  | null
  | bool (b : Bool)
  | count (n : UInt64)
  | number (x : Float)
  | text (s : String)
  | list (items : List Value)
  | record (fields : List (String × Value))
  deriving Repr

namespace Value

/-! ### Writing -/

/-- A number; one that is not finite has no spelling and becomes null. -/
def ofFloat (x : Float) : Value := if x.isFinite then .number x else .null

def ofFloats (xs : List Float) : Value := .list (xs.map ofFloat)

def ofOption {α : Type} (write : α → Value) : Option α → Value
  | some a => write a
  | none => .null

/-! ### Reading -/

def asCount? : Value → Option UInt64
  | .count n => some n
  | _ => none

/-- A number, however it is written. -/
def asNumber? : Value → Option Float
  | .number x => some x
  | .count n => some n.toFloat
  | _ => none

def asText? : Value → Option String
  | .text s => some s
  | _ => none

def asList? {α : Type} (read : Value → Option α) : Value → Option (List α)
  | .list items => items.mapM read
  | _ => none

/-- The value of the field with one of these spellings, if it is there; nothing is read when the
field occurs more than once. -/
def field? (fields : List (String × Value)) (spellings : List String) : Option (Option Value) :=
  match fields.filter fun (name, _) => spellings.contains name with
  | [] => some none
  | [(_, v)] => some (some v)
  | _ => none

/-- The fields of a structure, each given by its spellings; those that are left out are `none`. -/
def fields? (spellings : List (List String)) : Value → Option (List (Option Value))
  | .record fields => spellings.mapM (field? fields)
  | .list items =>
    if items.length ≤ spellings.length then
      some (items.map some ++ List.replicate (spellings.length - items.length) none)
    else none
  | _ => none

/-- A field that has to be there. -/
def required {α : Type} (read : Value → Option α) (field : Option Value) : Option α :=
  field.bind read

/-- A field that may be left out or null. -/
def optional {α : Type} (read : Value → Option α) : Option Value → Option (Option α)
  | none | some .null => some none
  | some v => (read v).map some

/-- A field that may be left out. -/
def withDefault {α : Type} (default : α) (read : Value → Option α) : Option Value → Option α
  | none => some default
  | some v => read v

/-- The only field of a record. -/
def asVariant? : Value → Option (String × Value)
  | .record [(name, v)] => some (name, v)
  | _ => none

end Value

end InitialValue.Wire
