/-! # Binary fractions of 64 bits

A decimal number is rounded to the nearest fraction `mantissa * 2 ^ exponent` whose mantissa has
53 bits at most, and to the even one of two that are equally near. A fraction is written with the
fewest digits that round back to it, and never with an exponent. -/
namespace ByteAutomata

inductive Binary64 where
  | notANumber
  | infinite (negative : Bool)
  | finite (negative : Bool) (mantissa : Nat) (exponent : Int)
deriving DecidableEq

namespace Binary64

def maxExponent : Int := 971

def minExponent : Int := -1074

def mantissaBound : Nat := 0x20000000000000

def scaled (base num den : Nat) (exponent : Int) : Nat × Nat :=
  if 0 ≤ exponent then (num, den * base.pow exponent.toNat)
  else (num * base.pow (-exponent).toNat, den)

/-- The nearest integer to a ratio, the even one of two. -/
def roundDiv (num den : Nat) : Nat :=
  let q := num / den
  let r := num % den
  if 2 * r < den then q else if den < 2 * r then q + 1 else q + q % 2

def ofRatio (negative : Bool) (num den : Nat) : Binary64 :=
  let low : Int := (num.log2 : Int) - den.log2 - 53
  let (n, d) := scaled 2 num den low
  let exponent := if n / d < mantissaBound then low else low + 1
  let exponent := if exponent < minExponent then minExponent else exponent
  let (n, d) := scaled 2 num den exponent
  let mantissa := roundDiv n d
  let (mantissa, exponent) :=
    if mantissa = mantissaBound then (mantissa / 2, exponent + 1) else (mantissa, exponent)
  if maxExponent < exponent then infinite negative else finite negative mantissa exponent

/-- The nearest fraction to `digits * 10 ^ exponent`. Numbers far out of range are not computed. -/
def ofDecimal (negative : Bool) (digits : Nat) (exponent : Int) : Binary64 :=
  let magnitude : Int := (Nat.toDigits 10 digits).length + exponent
  if digits = 0 ∨ magnitude < -400 then finite negative 0 0
  else if 400 < magnitude then infinite negative
  else
    let (num, den) := scaled 10 digits 1 (-exponent)
    ofRatio negative num den

def leadingPlace (num den : Nat) : Int :=
  if den ≤ num then (Nat.toDigits 10 (num / den)).length
  else
    match (List.range 400).find? fun j => den ≤ num * Nat.pow 10 j with
    | some j => 1 - (j : Int)
    | none => 0

/-- The decimal of `count` digits that is nearest to the fraction, if it rounds back to it: an
integer and the power of ten that it counts. -/
def ofCount? (mantissa : Nat) (exponent : Int) (count : Nat) : Option (Nat × Int) :=
  let below := if mantissa = mantissaBound / 2 ∧ minExponent < exponent then 1 else 2
  let (value, den) := scaled 2 (4 * mantissa) 1 (2 - exponent)
  let ulp := value / (4 * mantissa)
  let low := value - below * ulp
  let high := value + 2 * ulp
  let unit := leadingPlace value den - count
  let (n, d) := scaled 10 value den unit
  let fits (k : Nat) : Bool :=
    let (lowN, lowD) := scaled 10 low den unit
    let (highN, highD) := scaled 10 high den unit
    if mantissa % 2 = 0 then lowN ≤ k * lowD && k * highD ≤ highN
    else lowN < k * lowD && k * highD < highN
  let floor := n / d
  let nearest := if 2 * n < (2 * floor + 1) * d then floor else floor + 1
  let other := if nearest = floor then floor + 1 else floor
  if fits nearest then some (nearest, unit) else if fits other then some (other, unit) else none

def positional (digits : List Char) (unit : Int) : List Char :=
  if 0 ≤ unit then digits ++ List.replicate unit.toNat '0'
  else
    let places := (-unit).toNat
    if places < digits.length then
      digits.take (digits.length - places) ++ '.' :: digits.drop (digits.length - places)
    else '0' :: '.' :: List.replicate (places - digits.length) '0' ++ digits

/-- The shortest decimal of a positive fraction. -/
def shortest (mantissa : Nat) (exponent : Int) : List Char :=
  match (List.range' 1 17).findSome? (ofCount? mantissa exponent) with
  | none => []
  | some (n, unit) =>
    let digits := Nat.toDigits 10 n
    let zeros := (digits.reverse.takeWhile (· == '0')).length
    positional (digits.take (digits.length - zeros)) (unit + zeros)

protected def toString : Binary64 → String
  | notANumber => "NaN"
  | infinite negative => if negative then "-inf" else "inf"
  | finite negative mantissa exponent =>
    let digits := if mantissa = 0 then ['0'] else shortest mantissa exponent
    String.ofList (if negative then '-' :: digits else digits)

instance : ToString Binary64 := ⟨Binary64.toString⟩

end Binary64
end ByteAutomata
