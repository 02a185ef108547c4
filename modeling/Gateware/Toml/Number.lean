import Gateware.Toml.Basic
import Gateware.Toml.Text

/-! # Numbers, dates and times of TOML

Integers have 64 bits and may group their digits with underscores. Fractional numbers, dates and
times are checked for their form, and a positive fractional number also for its size: it must not
round to infinity in double precision.
-/
namespace Gateware.Toml

/-- The digits that follow a digit: further ones, each perhaps after an underscore. -/
def moreDigits (base : Nat) : Reader (List Char)
  | '_' :: c :: rest =>
    if (digitValue? base c).isSome then
      (moreDigits base rest).map fun (tail, rest) => (c :: tail, rest)
    else none
  | ['_'] => none
  | c :: rest =>
    if (digitValue? base c).isSome then
      (moreDigits base rest).map fun (tail, rest) => (c :: tail, rest)
    else some ([], c :: rest)
  | [] => some ([], [])

def digits (base : Nat) : Reader (List Char)
  | c :: rest =>
    if (digitValue? base c).isSome then
      (moreDigits base rest).map fun (tail, rest) => (c :: tail, rest)
    else none
  | [] => none

/-- Digits to base ten of which the first is zero only if it stands alone. -/
def decimalDigits : Reader (List Char)
  | '0' :: rest => some (['0'], rest)
  | cs => digits 10 cs

/-- An integer that fits 64 bits. -/
def inRange? (value : Int) : Option Toml :=
  if -(1 <<< 63 : Nat) ≤ value ∧ value < (1 <<< 63 : Nat) then some (.integer value) else none

def based (base : Nat) : Reader Toml := fun cs => do
  let (ds, rest) ← digits base cs
  let value ← digitsValue? base 0 ds
  let result ← inRange? value
  some (result, rest)

/-- The least number that rounds to infinity in double precision, halfway from the largest finite
one to the next power of two. -/
def infinityBound : Nat := 1 <<< 1024 - 1 <<< 970

/-- Whether digits times a power of ten come to `infinityBound`, which has 309 places. Only a number
with as many places is compared, so that the power is never computed. -/
def overflows (ds : List Char) (power : Int) : Bool :=
  let significant := ds.dropWhile (· == '0')
  let places := significant.length + power
  if significant.isEmpty || places < 309 then false
  else if 309 < places then true
  else
    let value := (digitsValue? 10 0 significant).getD 0
    infinityBound * Nat.pow 10 significant.length ≤ value * Nat.pow 10 309

def exponent : Reader Int := fun cs => do
  let (negative, unsigned) := match cs with
    | '+' :: rest => (false, rest)
    | '-' :: rest => (true, rest)
    | _ => (false, cs)
  let (ds, rest) ← digits 10 unsigned
  let value ← digitsValue? 10 0 ds
  some (if negative then -(value : Int) else value, rest)

def optionalExponent : Reader Int
  | 'e' :: rest | 'E' :: rest => exponent rest
  | cs => some (0, cs)

def fractional? (negative : Bool) (ds : List Char) (power : Int) : Option Toml :=
  if !negative && overflows ds power then none else some .other

/-- A number to base ten after its sign: an integer unless a fraction or an exponent follows. -/
def decimal (negative : Bool) : Reader Toml := fun cs => do
  let (ds, rest) ← decimalDigits cs
  match rest with
  | '.' :: rest =>
    let (fraction, rest) ← digits 10 rest
    let (power, rest) ← optionalExponent rest
    let result ← fractional? negative (ds ++ fraction) (power - fraction.length)
    some (result, rest)
  | 'e' :: rest | 'E' :: rest =>
    let (power, rest) ← exponent rest
    let result ← fractional? negative ds power
    some (result, rest)
  | _ =>
    let value ← digitsValue? 10 0 ds
    let result ← inRange? (if negative then -(value : Int) else value)
    some (result, rest)

/-- A number after its sign, which may also be no finite one. -/
def signed (negative : Bool) : Reader Toml
  | 'i' :: 'n' :: 'f' :: rest | 'n' :: 'a' :: 'n' :: rest => some (.other, rest)
  | cs => decimal negative cs

def number : Reader Toml
  | '0' :: 'x' :: rest => based 16 rest
  | '0' :: 'o' :: rest => based 8 rest
  | '0' :: 'b' :: rest => based 2 rest
  | '+' :: rest => signed false rest
  | '-' :: rest => signed true rest
  | cs => signed false cs

/-! ## Dates and times -/

/-- Exactly `count` digits that give a number from `low` to `high`. -/
def field (count low high : Nat) : Reader Nat := fun cs => do
  let ds := cs.take count
  if ds.length < count then none
  let value ← digitsValue? 10 0 ds
  if low ≤ value ∧ value ≤ high then some (value, cs.drop count) else none

/-- The input after a character it must begin with. -/
def after? (c : Char) : List Char → Option (List Char)
  | d :: rest => if d = c then some rest else none
  | [] => none

def minutes : Reader Unit := fun cs => do
  let (_, rest) ← field 2 0 59 cs
  let rest ← after? ':' rest
  let (_, rest) ← field 2 0 60 rest
  match rest with
  | '.' :: c :: more =>
    if c.isDigit then some ((), more.dropWhile Char.isDigit) else some ((), rest)
  | _ => some ((), rest)

/-- The distance to the reference time after its sign. -/
def distance : Reader Unit := fun cs => do
  let (_, rest) ← field 2 0 23 cs
  let rest ← after? ':' rest
  let (_, rest) ← field 2 0 59 rest
  some ((), rest)

def hour : Reader Unit := fun cs => do
  let (_, rest) ← field 2 0 23 cs
  let rest ← after? ':' rest
  some ((), rest)

/-- The time that may follow a date, after the mark between them. -/
def timeOfDay : Reader Unit := fun cs => do
  let (_, rest) ← minutes cs
  match rest with
  | 'Z' :: rest | 'z' :: rest => some ((), rest)
  | '+' :: rest | '-' :: rest => distance rest
  | _ => some ((), rest)

def daysIn (year month : Nat) : Nat :=
  if month = 2 then
    if year % 4 = 0 ∧ (year % 100 ≠ 0 ∨ year % 400 = 0) then 29 else 28
  else if month = 4 ∨ month = 6 ∨ month = 9 ∨ month = 11 then 30
  else 31

/-- A date after the year and its dash, with a time of the day or not. -/
def date (year : Nat) : Reader Toml := fun cs => do
  let (month, rest) ← field 2 1 12 cs
  let rest ← after? '-' rest
  let (_, rest) ← field 2 1 (daysIn year month) rest
  let time := match rest with
    | 'T' :: more | 't' :: more | ' ' :: more => hour more
    | _ => none
  match time with
  | none => some (.other, rest)
  | some (_, rest) =>
    let (_, rest) ← timeOfDay rest
    some (.other, rest)

def numberOrDate : Reader Toml := fun cs =>
  let dashed := (field 4 0 9999 cs).bind fun (year, rest) =>
    (after? '-' rest).map fun rest => (year, rest)
  match dashed with
  | some (year, rest) => date year rest
  | none =>
    match hour cs with
    | some (_, rest) => (minutes rest).map fun (_, rest) => (.other, rest)
    | none => number cs

end Gateware.Toml
