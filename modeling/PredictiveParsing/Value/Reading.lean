import PredictiveParsing.Value
import PredictiveParsing.Text.Integer

/-
Reading values into typed data.

A reader either succeeds or reports everything that is wrong, each time with
the path to the place; problems come in the order of the fields read and, in
a list, of its items.

* `FieldIssue` — one problem: a path and its cause;
* `Checked` — a result or all the problems, with an applicative structure
  that joins problems (`seq_invalid_invalid`);
* `readText`, `readFlag`, `readInteger`, `readList`, `readOptional` — readers;
* `required`, `withDefault` — readers of the fields of an object.

Design notes:

* Truth values and whole numbers are read leniently: some numbers and texts
  stand for them.  Texts are read strictly.
* A problem remembers whether the value it is about can be sent back, which
  takes finite numbers.
-/
namespace PredictiveParsing

/-- One step of a path into a value. -/
inductive PathStep where
  | key (name : String)
  | index (n : Nat)
  deriving DecidableEq, Repr

/-- What is wrong with a value. -/
inductive FieldCause where
  | missing
  | notText
  | notList
  | notModel
  | notRecord
  | notFlag
  | unreadableFlag
  | notInteger
  | unreadableInteger
  | oversizedInteger
  | fractionalNumber
  | infiniteNumber
  | notAMember
  | notTheLiteral
  deriving DecidableEq, Repr

/-- The code of a cause. -/
def FieldCause.code : FieldCause → String
  | missing => "missing"
  | notText => "string_type"
  | notList => "list_type"
  | notModel => "model_type"
  | notRecord => "model_attributes_type"
  | notFlag => "bool_type"
  | unreadableFlag => "bool_parsing"
  | notInteger => "int_type"
  | unreadableInteger => "int_parsing"
  | oversizedInteger => "int_parsing_size"
  | fractionalNumber => "int_from_float"
  | infiniteNumber => "finite_number"
  | notAMember => "enum"
  | notTheLiteral => "literal_error"

/-- One problem with a value, and where it is. -/
structure FieldIssue where
  path : List PathStep
  cause : FieldCause
  /-- Whether all numbers in the value with the problem are finite. -/
  isFinite : Bool
  deriving DecidableEq, Repr

/-- A result, or all the problems that stand in its way. -/
inductive Checked (α : Type) where
  | valid (a : α)
  | invalid (issues : List FieldIssue)

namespace Checked

/-- Applies a function that was read to an argument that was read. -/
def seq {α β : Type} : Checked (α → β) → Checked α → Checked β
  | valid f, valid a => valid (f a)
  | valid _, invalid qs => invalid qs
  | invalid ps, valid _ => invalid ps
  | invalid ps, invalid qs => invalid (ps ++ qs)

instance : Applicative Checked where
  pure := valid
  seq f a := seq f (a ())

/-- A single problem with a value, at the place itself. -/
def problem {α : Type} (cause : FieldCause) (v : Value) : Checked α :=
  invalid [⟨[], cause, v.isFinite⟩]

/-- The same result, with every problem one step further away. -/
def under {α : Type} (step : PathStep) : Checked α → Checked α
  | valid a => valid a
  | invalid ps => invalid (ps.map fun p => { p with path := step :: p.path })

/-- The result, or all the problems as one error. -/
def toExcept {α : Type} : Checked α → Except (List FieldIssue) α
  | valid a => .ok a
  | invalid ps => .error ps

@[simp] theorem seq_invalid_invalid {α β : Type} (ps qs : List FieldIssue) :
    seq (invalid ps : Checked (α → β)) (invalid qs) = invalid (ps ++ qs) := rfl

end Checked

namespace Value

open Checked

/-! ### Readers of one value -/

/-- Texts are taken as they are; nothing else is turned into one. -/
def readText : Value → Checked String
  | text s => valid s
  | v => problem .notText v

/-- Nothing, or what the reader reads. -/
def readOptional {α : Type} (read : Value → Checked α) : Value → Checked (Option α)
  | null => valid none
  | v => some <$> read v

/-- The items, read one after the other from a given index on. -/
def readItems {α : Type} (read : Value → Checked α) : (from' : Nat) → List Value → Checked (List α)
  | _, [] => valid []
  | i, v :: vs => List.cons <$> (read v).under (.index i) <*> readItems read (i + 1) vs

/-- A list of things the reader reads. -/
def readList {α : Type} (read : Value → Checked α) : Value → Checked (List α)
  | list items => readItems read 0 items
  | v => problem .notList v

/-- The words for a truth value, in lower case. -/
def flagWords : List (String × Bool) :=
  [("0", false), ("off", false), ("f", false), ("false", false), ("n", false), ("no", false),
    ("1", true), ("on", true), ("t", true), ("true", true), ("y", true), ("yes", true)]

/-- The first number that does not fit into 64 bits with its sign. -/
def wordBound : Nat := 9223372036854775808

/-- Whether a whole number fits into 64 bits with its sign. -/
def fitsWord (n : Int) : Bool :=
  -(wordBound : Int) ≤ n ∧ n < wordBound

/-- Whether both a whole number and its negative fit into 64 bits. -/
def fitsWordEitherWay (n : Int) : Bool :=
  n.natAbs < wordBound

/-- The truth value that a number stands for; other numbers than 0 and 1 are
told apart by their size. -/
def flagOfNumber (n : Int) (fits : Bool) (v : Value) : Checked Bool :=
  if n = 0 then valid false
  else if n = 1 then valid true
  else problem (if fits then .unreadableFlag else .notFlag) v

/-- Truth values, the numbers 0 and 1, and the usual words in any case. -/
def readFlag (v : Value) : Checked Bool :=
  match v with
  | bool b => valid b
  | int n => flagOfNumber n (fitsWord n) v
  | decimal x =>
    match Double.whole? x with
    | some n => flagOfNumber n (fitsWordEitherWay n) v
    | none => problem .notFlag v
  | text s =>
    match flagWords.lookup (s.map Char.toLower) with
    | some b => valid b
    | none => problem .unreadableFlag v
  | _ => problem .notFlag v

/-- Whole numbers, decimal numbers of moderate size that are equal to one,
truth values as 0 and 1, and texts that write a whole number. -/
def readInteger (v : Value) : Checked Int :=
  match v with
  | bool b => valid (if b then 1 else 0)
  | int n => valid n
  | decimal x =>
    match Double.whole? x with
    | some n => if fitsWordEitherWay n then valid n else problem .oversizedInteger v
    | none => problem (if x.isFinite then .fractionalNumber else .infiniteNumber) v
  | text s =>
    match Text.readInteger s with
    | .ok n => valid n
    | .error .malformed => problem .unreadableInteger v
    | .error .tooLong => problem .oversizedInteger v
  | _ => problem .notInteger v

/-! ### Readers of fields -/

/-- A field that must be there; without it the problem is with the object. -/
def required {α : Type} (name : String) (read : Value → Checked α)
    (fields : List (String × Value)) : Checked α :=
  match lookup name fields with
  | some v => (read v).under (.key name)
  | none => (problem .missing (object fields)).under (.key name)

/-- A field that may be left out. -/
def withDefault {α : Type} (name : String) (default' : α) (read : Value → Checked α)
    (fields : List (String × Value)) : Checked α :=
  match lookup name fields with
  | some v => (read v).under (.key name)
  | none => valid default'

/-- An object, read through its fields; `otherwise` is the complaint about
anything else. -/
def readObject {α : Type} (otherwise : FieldCause)
    (read : List (String × Value) → Checked α) : Value → Checked α
  | object fields => read fields
  | v => problem otherwise v

end Value

end PredictiveParsing
