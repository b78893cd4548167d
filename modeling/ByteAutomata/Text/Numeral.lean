/-! # Numerals of a least width

Numbers in printed automata are padded with zeros on the left up to a width, and are written in
full when they need more digits than that. -/
namespace ByteAutomata.Numeral

def padded (width : Nat) (digits : List Char) : String :=
  String.ofList (List.replicate (width - digits.length) '0' ++ digits)

def decimal (width n : Nat) : String := padded width (Nat.toDigits 10 n)

def lowerHex (width n : Nat) : String := padded width (Nat.toDigits 16 n)

def upperHex (width n : Nat) : String := padded width ((Nat.toDigits 16 n).map Char.toUpper)

/-- A byte with its radix mark, as in `0x0a`. -/
def byte (b : UInt8) : String := "0x" ++ lowerHex 2 b.toNat

end ByteAutomata.Numeral
