import PredictiveParsing.Text.Printable

/-
Texts in quotes.

A quoted text stands between single quotes, or between double quotes when it
holds a single quote and no double one.  Inside, the backslash and the quote
in use are escaped, line feed, carriage return and tab have letters, and any
other character without a printed form is given by its code in two, four or
eight hexadecimal digits.

* `quoteOf` — the quote a text is put between;
* `quoted` — the text in quotes;
* `quotedList` — a list of texts in brackets, each in quotes.
-/
namespace PredictiveParsing.Text

/-- The lower-case hexadecimal digit of a number below sixteen. -/
def hexDigit (n : Nat) : Char :=
  if n < 10 then .ofNat (48 + n) else .ofNat (87 + n)

/-- The last `width` hexadecimal digits of a number, most significant first. -/
def hexDigits : (width : Nat) → Nat → List Char
  | 0, _ => []
  | w + 1, n => hexDigits w (n / 16) ++ [hexDigit (n % 16)]

/-- The letter of a control character that has one. -/
def letter? : Char → Option Char
  | '\n' => some 'n'
  | '\r' => some 'r'
  | '\t' => some 't'
  | _ => none

/-- A code in hexadecimal digits, behind a letter that says how many. -/
def writtenCode (n : Nat) : List Char :=
  if n < 0x100 then 'x' :: hexDigits 2 n
  else if n < 0x10000 then 'u' :: hexDigits 4 n
  else 'U' :: hexDigits 8 n

/-- What stands for a character between the given quotes. -/
def escaped (quote c : Char) : List Char :=
  match letter? c with
  | some letter => ['\\', letter]
  | none =>
    if c = quote ∨ c = '\\' then ['\\', c]
    else if isPrintable c then [c]
    else '\\' :: writtenCode c.toNat

/-- Single quotes, unless the text holds one and no double quote. -/
def quoteOf (cs : List Char) : Char :=
  if '\'' ∈ cs ∧ '"' ∉ cs then '"' else '\''

/-- The text in quotes. -/
def quoted (s : String) : String :=
  let cs := s.toList
  let quote := quoteOf cs
  .ofList (quote :: cs.flatMap (escaped quote) ++ [quote])

/-- A list of texts in square brackets, each in quotes. -/
def quotedList (texts : List String) : String :=
  "[" ++ ", ".intercalate (texts.map quoted) ++ "]"

end PredictiveParsing.Text
