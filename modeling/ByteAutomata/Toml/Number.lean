import ByteAutomata.Text.Binary64
import ByteAutomata.Text.Hex

/-! # Numbers

Underscores may separate the digits of a number. An integer has 64 bits with its sign; a number
with a fraction or an exponent is rounded to 64 bits, and may be too small but not too large. -/
namespace ByteAutomata.Toml

/-- The digits of a number without the underscores, each of which must stand between two digits. -/
def digits? (base : Nat) : List Char → Option (List Char)
  | [] => none
  | c :: rest =>
    if Hex.isDigit c ∧ Hex.value c < base then
      match rest with
      | [] => some [c]
      | '_' :: rest => (digits? base rest).map (c :: ·)
      | d :: rest => (digits? base (d :: rest)).map (c :: ·)
    else none

def digitsValue (base : Nat) (digits : List Char) : Nat :=
  digits.foldl (fun n d => n * base + Hex.value d) 0

def number? (base : Nat) (text : List Char) : Option Nat :=
  (digits? base text).map (digitsValue base)

/-- A number that does not start with a zero unless it is zero. -/
def wholeNumber? (text : List Char) : Option Nat :=
  match text with
  | '0' :: _ :: _ => none
  | _ => number? 10 text

def splitSign : List Char → Bool × List Char
  | '+' :: rest => (false, rest)
  | '-' :: rest => (true, rest)
  | rest => (false, rest)

def signedNumber (negative : Bool) (n : Nat) : Int := if negative then -n else n

def integerOf? (negative : Bool) (n : Nat) : Option Int :=
  let i := signedNumber negative n
  if -0x8000000000000000 ≤ i ∧ i < 0x8000000000000000 then some i else none

def integer? : List Char → Option Int
  | '0' :: 'x' :: digits => do integerOf? false (← number? 16 digits)
  | '0' :: 'o' :: digits => do integerOf? false (← number? 8 digits)
  | '0' :: 'b' :: digits => do integerOf? false (← number? 2 digits)
  | text => do
    let (negative, digits) := splitSign text
    integerOf? negative (← wholeNumber? digits)

def splitFraction? (text : List Char) : Option (List Char × List Char) :=
  match text with
  | '.' :: rest => do
    let (fraction, rest) := rest.span fun c => c.isDigit || c == '_'
    return (← digits? 10 fraction, rest)
  | _ => some ([], text)

def exponent? : List Char → Option Int
  | [] => some 0
  | e :: rest => do
    if e != 'e' && e != 'E' then none
    else
      let (negative, digits) := splitSign rest
      return signedNumber negative (← number? 10 digits)

def unsignedFloat? (negative : Bool) (text : List Char) : Option Binary64 := do
  let (whole, rest) := text.span fun c => c.isDigit || c == '_'
  let n ← wholeNumber? whole
  if rest.isEmpty then none
  let (fraction, rest) ← splitFraction? rest
  let exponent ← exponent? rest
  let digits := n * Nat.pow 10 fraction.length + digitsValue 10 fraction
  let x := Binary64.ofDecimal negative digits (exponent - fraction.length)
  if x = .infinite false then none else some x

def float? (text : List Char) : Option Binary64 :=
  let (negative, rest) := splitSign text
  match rest with
  | ['i', 'n', 'f'] => some (.infinite negative)
  | ['n', 'a', 'n'] => some .notANumber
  | _ => unsignedFloat? negative rest

end ByteAutomata.Toml
