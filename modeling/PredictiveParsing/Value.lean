import PredictiveParsing.Double
import PredictiveParsing.Text.Quoted

/-
Values of the interchange format.

A document or a request arrives as a tree of values: nothing, truth values,
whole and decimal numbers, texts, lists and objects.  Objects are lists of
fields; where a name is repeated the last field counts.

* `Value` — the trees;
* `Value.lookup` — the value of a field;
* `Value.depth` — how deep a value is nested;
* `Value.textsIn` — all texts in a value;
* `Value.isFinite` — whether all numbers in a value are finite;
* `Value.shown` — a value as it is quoted in messages.

Design notes:

* A number is whole if it is written without decimal places and without a
  power of ten, so that `1` and `1.0` stay apart.
-/
namespace PredictiveParsing

/-- A tree of values. -/
inductive Value where
  | null
  | bool (b : Bool)
  | int (n : Int)
  | decimal (x : Float)
  | text (s : String)
  | list (items : List Value)
  | object (fields : List (String × Value))
  deriving Inhabited, Repr

namespace Value

/-- A list of texts. -/
def texts (ss : List String) : Value := list (ss.map text)

/-- A text, or nothing. -/
def optionalText : Option String → Value
  | some s => text s
  | none => null

/-- The value of a field; the last one of a name counts. -/
def lookup (name : String) (fields : List (String × Value)) : Option Value :=
  (fields.reverse.find? fun f => f.1 == name).map (·.2)

/-! ### Nesting -/

mutual

/-- How many values there are on the longest way into a value, itself
included. -/
def depth : Value → Nat
  | list items => itemsDepth items + 1
  | object fields => fieldsDepth fields + 1
  | _ => 1

/-- The depth of the deepest of some items. -/
def itemsDepth : List Value → Nat
  | [] => 0
  | v :: vs => max (depth v) (itemsDepth vs)

/-- The depth of the deepest of some fields. -/
def fieldsDepth : List (String × Value) → Nat
  | [] => 0
  | (_, v) :: fs => max (depth v) (fieldsDepth fs)

end

/-! ### Texts -/

mutual

/-- All texts in a value in order, names of fields included. -/
def textsIn : Value → List String
  | text s => [s]
  | list items => itemsTexts items
  | object fields => fieldsTexts fields
  | _ => []

/-- All texts in some items. -/
def itemsTexts : List Value → List String
  | [] => []
  | v :: vs => textsIn v ++ itemsTexts vs

/-- All texts in some fields. -/
def fieldsTexts : List (String × Value) → List String
  | [] => []
  | (name, v) :: fs => name :: (textsIn v ++ fieldsTexts fs)

end

/-! ### Finite numbers -/

mutual

/-- Whether all numbers in a value are finite. -/
def isFinite : Value → Bool
  | decimal x => x.isFinite
  | list items => areItemsFinite items
  | object fields => areFieldsFinite fields
  | _ => true

/-- Whether all numbers in some items are finite. -/
def areItemsFinite : List Value → Bool
  | [] => true
  | v :: vs => isFinite v && areItemsFinite vs

/-- Whether all numbers in some fields are finite. -/
def areFieldsFinite : List (String × Value) → Bool
  | [] => true
  | (_, v) :: fs => isFinite v && areFieldsFinite fs

end

/-! ### Values quoted in messages -/

mutual

/-- A value as it is quoted in messages. -/
def shown : Value → String
  | null => "None"
  | bool true => "True"
  | bool false => "False"
  | int n => toString n
  | decimal x => Double.shown x
  | text s => Text.quoted s
  | list items => "[" ++ ", ".intercalate (shownItems items) ++ "]"
  | object fields => "\x7b" ++ ", ".intercalate (shownFields fields) ++ "\x7d"

/-- The quoted forms of the items of a list. -/
def shownItems : List Value → List String
  | [] => []
  | v :: vs => shown v :: shownItems vs

/-- The quoted forms of the fields of an object. -/
def shownFields : List (String × Value) → List String
  | [] => []
  | (k, v) :: fs => (Text.quoted k ++ ": " ++ shown v) :: shownFields fs

end

end Value

end PredictiveParsing
