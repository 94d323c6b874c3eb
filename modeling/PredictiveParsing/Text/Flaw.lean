import PredictiveParsing.Text.Quoted

/-
Bytes that are not UTF-8.

The bytes are read one after the other.  Of the character that is being read
it is known how many bytes are owed and between which bounds the next one has
to lie; the first byte of a character settles both.

* `Flaw` — the bytes at which the reading ends, where they stand and why;
* `Opening.ofByte?` — what the first byte of a character settles;
* `flawFrom`, `flaw` — the flaw of bytes that are not UTF-8;
* `flawFrom_stands` — the bytes of a flaw stand at its position.
-/
namespace PredictiveParsing.Text

/-- Why bytes are not a character. -/
inductive FlawKind where
  /-- No character begins with the byte. -/
  | start
  /-- The byte that follows does not go on with the character. -/
  | continuation
  /-- The bytes end within the character. -/
  | cutOff
  deriving DecidableEq, Repr

/-- The wording of a kind. -/
def FlawKind.description : FlawKind → String
  | start => "invalid start byte"
  | continuation => "invalid continuation byte"
  | cutOff => "unexpected end of data"

/-- Bytes that are not a character: which, where they stand and why. -/
structure Flaw where
  bytes : List UInt8
  position : Nat
  kind : FlawKind
  deriving DecidableEq, Repr

/-- Where the bytes stand, and what the byte is if there is only one. -/
def Flaw.location (f : Flaw) : String :=
  match f.bytes with
  | [b] =>
    "byte 0x" ++ .ofList (hexDigits 2 b.toNat) ++ " in position " ++ toString f.position
  | bytes =>
    "bytes in position " ++ toString f.position ++ "-" ++
      toString (f.position + bytes.length - 1)

/-- The wording of a flaw. -/
def Flaw.message (f : Flaw) : String :=
  "'utf-8' codec can't decode " ++ f.location ++ ": " ++ f.kind.description

/-! ### Finding the flaw -/

/-- What is known of a character whose bytes are being read: how many are owed
and the least and the greatest byte that may come next. -/
structure Opening where
  owed : Nat
  least : UInt8 := 0x80
  greatest : UInt8 := 0xBF

/-- What the first byte of a character settles. -/
def Opening.ofByte? (b : UInt8) : Option Opening :=
  if b < 0x80 then some { owed := 0 }
  else if b < 0xC2 then none
  else if b < 0xE0 then some { owed := 1 }
  else if b < 0xF0 then
    some { owed := 2
           least := if b = 0xE0 then 0xA0 else 0x80
           greatest := if b = 0xED then 0x9F else 0xBF }
  else if b < 0xF5 then
    some { owed := 3
           least := if b = 0xF0 then 0x90 else 0x80
           greatest := if b = 0xF4 then 0x8F else 0xBF }
  else none

/-- The flaw of the bytes that are left; of the character at `position`, some
bytes have been read. -/
def flawFrom (position : Nat) (read : List UInt8) (opening : Opening) : List UInt8 → Flaw
  | [] => ⟨read, position, .cutOff⟩
  | b :: bs =>
    match opening.owed with
    | 0 =>
      let position := position + read.length
      match Opening.ofByte? b with
      | none => ⟨[b], position, .start⟩
      | some opening => flawFrom position [b] opening bs
    | owed + 1 =>
      if opening.least ≤ b ∧ b ≤ opening.greatest then
        flawFrom position (read ++ [b]) { owed } bs
      else ⟨read, position, .continuation⟩

/-- The first flaw of bytes that are not UTF-8. -/
def flaw (bytes : List UInt8) : Flaw :=
  flawFrom 0 [] { owed := 0 } bytes

/-- The bytes of a flaw stand at its position. -/
theorem flawFrom_stands (before read : List UInt8) (opening : Opening) (bs : List UInt8) :
    (flawFrom before.length read opening bs).bytes <+:
      (before ++ read ++ bs).drop (flawFrom before.length read opening bs).position := by
  induction bs generalizing before read opening with
  | nil => simp [flawFrom]
  | cons b bs ih =>
    rw [flawFrom]
    split
    · split
      · simp
      · next opening _ =>
        have hstands := ih (before ++ read) [b] opening
        rw [List.length_append] at hstands
        simpa using hstands
    · next owed _ =>
      split
      · have hstands := ih before (read ++ [b]) { owed }
        simpa using hstands
      · simp

example : flaw [0x61, 0xE2, 0x82, 0x61] = ⟨[0xE2, 0x82], 1, .continuation⟩ := by decide

end PredictiveParsing.Text
