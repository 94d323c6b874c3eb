import PredictiveParsing.Text.Blank
import PredictiveParsing.Text.Cut

/-
Whole numbers written as texts.

The plain form of a number is a minus sign, if it is negative, and its digits
without zeros in front.  Around it some freedom is allowed: spaces, a plus
sign, zeros in front, single underscores between digits and a decimal point
with nothing but zeros behind it.  The digits are those of ASCII.

* `isSpace` — the spaces that may stand around a number;
* `plainValue?` — the value of a plain form;
* `plainForm?` — the plain form of a number without spaces around it;
* `readInteger` — the number a text writes, or what is wrong with the text.

Design notes:

* Zeros in front may stand among underscores, and a minus sign may follow
  them instead of preceding them.
* A number that is far too long is told apart from a text that is none, if
  nothing stands in front of it.
-/
namespace PredictiveParsing.Text

/-- Blanks other than the four separators of files, groups, records and
units. -/
def isSpace (c : Char) : Bool :=
  isBlank c && !(0x1C ≤ c.toNat && c.toNat ≤ 0x1F)

/-- Why a text is not read as a number. -/
inductive IntegerIssue where
  | malformed
  | tooLong
  deriving DecidableEq, Repr

/-- How many digits a number may have. -/
def longestInteger : Nat := 4300

/-! ### Plain forms -/

/-- The value of an ASCII digit. -/
def digitValue? (c : Char) : Option Nat :=
  if '0' ≤ c ∧ c ≤ '9' then some (c.toNat - 48) else none

/-- Reads on behind digits, with their value. -/
def digitsFrom (value : Nat) : List Char → Option Nat
  | [] => some value
  | c :: cs => (digitValue? c).bind fun d => digitsFrom (10 * value + d) cs

/-- The value of digits, if they are not too many; no zero stands in front of
others. -/
def digitsValue? (cs : List Char) : Option Nat :=
  if longestInteger < cs.length then none
  else
    match cs with
    | [] => none
    | ['0'] => some 0
    | '0' :: _ => none
    | cs => digitsFrom 0 cs

/-- The value of a plain form. -/
def plainValue? : List Char → Option Int
  | '-' :: digits => (digitsValue? digits).map fun n => -(n : Int)
  | digits => (digitsValue? digits).map Int.ofNat

/-! ### Towards a plain form -/

/-- The number without a decimal point and the zeros behind it. -/
def withoutZeroDecimals (cs : List Char) : List Char :=
  match cutAt ['.'] cs with
  | some (whole, decimals) =>
    if decimals ≠ [] ∧ decimals.all (· == '0') then whole else cs
  | none => cs

/-- The number without the zeros in front of it, and without the underscores
among them; a zero stays if there is nothing else. -/
def withoutLeadingZeros? : List Char → Option (List Char)
  | '0' :: cs =>
    match cs.dropWhile fun c => c = '0' ∨ c = '_' with
    | [] => if cs.getLast? = some '_' then none else some ['0']
    | '-' :: rest => some ('-' :: rest)
    | c :: rest => if (digitValue? c).isSome then some (c :: rest) else none
  | c :: cs => if (digitValue? c).isSome then some (c :: cs) else none
  | [] => none

/-- The number without underscores; none may stand at the end or next to
another. -/
def withoutUnderscores? (cs : List Char) : Option (List Char) :=
  if cs.getLast? = some '_' ∨ contains ['_', '_'] cs then none
  else some (cs.filter (· ≠ '_'))

/-- The plain form of a number whose sign has been taken off. -/
def bareForm? (cs : List Char) : Option (List Char) :=
  (withoutLeadingZeros? (withoutZeroDecimals cs)).bind withoutUnderscores?

/-- The plain form of a number; no minus sign may follow a plus sign. -/
def plainForm? : List Char → Option (List Char)
  | '+' :: '-' :: _ => none
  | '+' :: cs => bareForm? cs
  | '-' :: cs => (bareForm? cs).map ('-' :: ·)
  | cs => bareForm? cs

/-! ### Reading -/

/-- Whether too many digits stand in front, behind a minus sign if there is
one; they are not counted if the first is a zero. -/
def startsTooLong (cs : List Char) : Bool :=
  let digits := if cs.head? = some '-' then cs.tail else cs
  digits.head? ≠ some '0' &&
    longestInteger < (digits.takeWhile fun c => (digitValue? c).isSome).length

/-- The whole number a text writes. -/
def readInteger (s : String) : Except IntegerIssue Int :=
  let cs := ((s.toList.dropWhile isSpace).reverse.dropWhile isSpace).reverse
  if startsTooLong s.toList then .error .tooLong
  else
    match (plainForm? cs).bind plainValue? with
    | some n => .ok n
    | none => .error .malformed

end PredictiveParsing.Text
