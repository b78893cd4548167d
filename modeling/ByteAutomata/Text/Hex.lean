/-! # Hexadecimal digits -/
namespace ByteAutomata.Hex

def isDigit (c : Char) : Bool := c.isDigit || ('a' ≤ c && c ≤ 'f') || ('A' ≤ c && c ≤ 'F')

def value (c : Char) : Nat :=
  if c.isDigit then c.toNat - '0'.toNat else c.toLower.toNat - 'a'.toNat + 10

def char? (digits : List Char) : Option Char :=
  let n := digits.foldl (fun n d => n * 16 + value d) 0
  if h : n.isValidChar then some (Char.ofNatAux n h) else none

end ByteAutomata.Hex
