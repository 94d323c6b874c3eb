import PredictiveParsing.Server.Framework

/-
Which answers can be sent.

* `textFlaw?` — why a text cannot be encoded;
* `flaw?` — why an answer cannot be sent: its first part that is nested too deep
  or cannot be encoded;
* `compact` — the text in which the body of a failure is sent.

Design notes:

* The unpaired halves of surrogate pairs are no characters.  The last 2048
  characters stand for them; texts that are free of these are meant literally.
* An answer is sent text by text, the body of a failure as one text, so places
  are counted in different ways.
-/
namespace PredictiveParsing.Server.Standard

/-! ### Unpaired halves -/

/-- The character that stands for the first unpaired half. -/
def firstHalf : Nat := 0x10F800

/-- Whether a character stands for an unpaired half. -/
def isHalf (c : Char) : Bool :=
  firstHalf ≤ c.toNat

/-- An unpaired half as it is quoted. -/
def shownHalf (c : Char) : String :=
  "'\\u" ++ .ofList (Nat.toDigits 16 (c.toNat - firstHalf + 0xD800)) ++ "'"

/-- Why a text cannot be encoded, if it cannot: the first halves in it, and
where they stand. -/
def textFlaw? (cs : List Char) : Option String :=
  (cs.findIdx? isHalf).map fun i =>
    let halves := (cs.drop i).takeWhile isHalf
    let place :=
      match halves with
      | [c] => "character " ++ shownHalf c ++ " in position " ++ toString i
      | _ => "characters in position " ++ toString i ++ "-" ++ toString (i + halves.length - 1)
    "'utf-8' codec can't encode " ++ place ++ ": surrogates not allowed"

/-! ### Answers -/

/-- The complaint about a value that is nested too deep. -/
def tooDeep : String :=
  "Error serializing to JSON: ValueError: Maximum serialization depth exceeded"

/-- The complaint about a text of an answer. -/
def answerTextFlaw? (s : String) : Option String :=
  (textFlaw? s.toList).map ("Error serializing to JSON: UnicodeEncodeError: " ++ ·)

mutual

/-- Why a value cannot be sent if there is room for so many levels: the first
of its parts that cannot. -/
def flaw? : (room : Nat) → Value → Option String
  | 0, _ => some tooDeep
  | _ + 1, .text s => answerTextFlaw? s
  | room + 1, .list items => itemsFlaw? room items
  | room + 1, .object fields => fieldsFlaw? room fields
  | _ + 1, _ => none

/-- Why some items cannot be sent. -/
def itemsFlaw? (room : Nat) : List Value → Option String
  | [] => none
  | v :: vs => (flaw? room v).or (itemsFlaw? room vs)

/-- Why some fields cannot be sent. -/
def fieldsFlaw? (room : Nat) : List (String × Value) → Option String
  | [] => none
  | (name, v) :: fs => ((answerTextFlaw? name).or (flaw? room v)).or (fieldsFlaw? room fs)

end

/-! ### Bodies of failures -/

/-- A character of a quoted text. -/
def escaped (c : Char) : List Char :=
  if c = '"' then ['\\', '"']
  else if c = '\\' then ['\\', '\\']
  else if c = '\n' then ['\\', 'n']
  else if c = '\r' then ['\\', 'r']
  else if c = '\t' then ['\\', 't']
  else if c = '\x08' then ['\\', 'b']
  else if c = '\x0c' then ['\\', 'f']
  else if c.toNat < 16 then "\\u000".toList ++ Nat.toDigits 16 c.toNat
  else if c.toNat < 32 then "\\u00".toList ++ Nat.toDigits 16 c.toNat
  else [c]

/-- A quoted text. -/
def quoted (s : String) : String :=
  "\"" ++ .ofList (s.toList.flatMap escaped) ++ "\""

mutual

/-- A value as one text without blanks. -/
def compact : Value → String
  | .null => "null"
  | .bool true => "true"
  | .bool false => "false"
  | .int n => toString n
  | .decimal x => Double.shown x
  | .text s => quoted s
  | .list items => "[" ++ ",".intercalate (compactItems items) ++ "]"
  | .object fields => "\x7b" ++ ",".intercalate (compactFields fields) ++ "\x7d"

/-- The items of a list. -/
def compactItems : List Value → List String
  | [] => []
  | v :: vs => compact v :: compactItems vs

/-- The fields of an object. -/
def compactFields : List (String × Value) → List String
  | [] => []
  | (name, v) :: fs => (quoted name ++ ":" ++ compact v) :: compactFields fs

end

/-- Why the body of a failure cannot be sent. -/
def failureFlaw? (v : Value) : Option String :=
  textFlaw? (compact v).toList

end PredictiveParsing.Server.Standard
