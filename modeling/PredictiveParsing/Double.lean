/-
Numbers in double precision.

A number that is written with decimal places or with a power of ten is rounded
to double precision as soon as it is read.  What is too large becomes infinite,
and what is too small becomes zero.

* `Double.ofScientific` — the number of some digits and a power of ten;
* `Double.whole?` — the whole number that a number is equal to;
* `Double.shortest` — the fewest digits that read as a number;
* `Double.shown` — a number as it is quoted in messages.

Design notes:

* A finite number is a mantissa times a power of two, so it is told exactly
  whether it is whole and which decimals are closest to it.
* Zero has a sign as well: it is quoted, and otherwise makes no difference.
-/
namespace PredictiveParsing.Double

/-! ### Reading -/

/-- The double-precision number that is closest to some digits times a power of
ten. -/
def ofScientific (isNegative : Bool) (digits : Nat) (power : Int) : Float :=
  let size : Float := .ofModel (.ofScientific digits power)
  if isNegative then -size else size

/-- The whole number that a mantissa times a power of two is equal to. -/
def size? (mantissa : Nat) (exponent : Int) : Option Nat :=
  let unit := Nat.pow 2 (-exponent).toNat
  if mantissa % unit = 0 then some (mantissa / unit * Nat.pow 2 exponent.toNat) else none

/-- The whole number that a number is equal to, if there is one. -/
def whole? (x : Float) : Option Int :=
  match x.toModel.unpack with
  | .zero _ => some 0
  | .finite .positive mantissa exponent _ => (size? mantissa exponent).map fun n => n
  | .finite .negative mantissa exponent _ => (size? mantissa exponent).map fun n => -n
  | .infinity _ | .notANumber => none

/-- What is equal to a whole number is neither infinite nor undefined. -/
theorem isFinite_of_whole? {x : Float} {n : Int} (h : whole? x = some n) : x.isFinite = true := by
  show x.toModel.unpack.isFinite = true
  rw [whole?] at h
  cases hx : x.toModel.unpack with
  | zero sign => rfl
  | finite sign mantissa exponent hpos => rfl
  | infinity sign => simp [hx] at h
  | notANumber => simp [hx] at h

/-- A number may become a whole one when it is read. -/
example : whole? (ofScientific false 99999999999999999999 (-20)) = some 1 := by decide +kernel

/-! ### Quoting -/

/-- The figures of a number, the highest first. -/
def figures (digits : Nat) : List Char :=
  (toString digits).toList

/-- A mantissa times a power of two in units of a power of ten: how many whole
units there are, the rest, and what of it makes one unit. -/
def inUnits (mantissa : Nat) (exponent power : Int) : Nat × Nat × Nat :=
  let amount := mantissa * Nat.pow 2 exponent.toNat * Nat.pow 10 (-power).toNat
  let unit := Nat.pow 2 (-exponent).toNat * Nat.pow 10 power.toNat
  (amount / unit, amount % unit, unit)

/-- How many figures stand before the point; less than one if there are zeros
behind it. -/
def pointOf (mantissa : Nat) (exponent : Int) : Int :=
  (figures (inUnits mantissa exponent (-400)).1).length - 400

/-- The two numbers of whole units around a number, the closer one first. -/
def around (mantissa : Nat) (exponent power : Int) : List Nat :=
  let (below, rest, unit) := inUnits mantissa exponent power
  if 2 * rest < unit ∨ 2 * rest = unit ∧ below % 2 = 0 then [below, below + 1]
  else [below + 1, below]

/-- The fewest digits, with their power of ten, that read as the number; 17 of
them are always enough. -/
def shortest (mantissa : Nat) (exponent : Int) (size : Float) : Nat × Int :=
  let point := pointOf mantissa exponent
  let candidates := (List.range' 1 17).flatMap fun (n : Nat) =>
    (around mantissa exponent (point - n)).map fun digits => (digits, point - n)
  (candidates.find? fun c => ofScientific false c.1 c.2 = size).getD (0, 0)

/-- Figures with the point behind so many of them: plainly if the point is not
far from the figures, and with a power of ten otherwise. -/
def placed (fs : List Char) (point : Int) : List Char :=
  let zeros (n : Int) := List.replicate n.toNat '0'
  if -4 < point ∧ point ≤ 16 then
    let whole := fs.take point.toNat ++ zeros (point - fs.length)
    let decimals := zeros (-point) ++ fs.drop point.toNat
    (if whole = [] then ['0'] else whole) ++ '.' :: (if decimals = [] then ['0'] else decimals)
  else
    let power := point - 1
    let exponent := figures power.natAbs
    fs.take 1 ++ (if fs.length ≤ 1 then [] else '.' :: fs.drop 1) ++
      ['e', if power < 0 then '-' else '+'] ++
      (if exponent.length < 2 then '0' :: exponent else exponent)

/-- Figures without the zeros behind them. -/
def needed (fs : List Char) : List Char :=
  (fs.reverse.dropWhile (· == '0')).reverse

/-- A mantissa times a power of two, with no more figures than it needs but at
least one decimal place. -/
def shownSize (mantissa : Nat) (exponent : Int) (size : Float) : String :=
  let (digits, power) := shortest mantissa exponent size
  .ofList (placed (needed (figures digits)) ((figures digits).length + power))

/-- A number as it is quoted. -/
def shown (x : Float) : String :=
  match x.toModel.unpack with
  | .zero .positive => "0.0"
  | .zero .negative => "-0.0"
  | .finite .positive mantissa exponent _ => shownSize mantissa exponent x
  | .finite .negative mantissa exponent _ => "-" ++ shownSize mantissa exponent (-x)
  | .infinity .positive => "inf"
  | .infinity .negative => "-inf"
  | .notANumber => "nan"

/-- The least of all positive numbers needs one digit. -/
example : shown (ofScientific false 49406564584124654 (-340)) = "5e-324" := by decide +kernel

end PredictiveParsing.Double
