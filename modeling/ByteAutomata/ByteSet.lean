import ByteAutomata.Text.Numeral

/-! # Sets of bytes

A set is a word of 256 bits, and bit `n` tells whether byte `n` is a member, so equal sets are
equal words. The runs of a set are its maximal stretches of consecutive bytes, lowest first. -/
namespace ByteAutomata

structure ByteSet where
  bits : BitVec 256
deriving DecidableEq

namespace ByteSet

def empty : ByteSet := ⟨0#256⟩

instance : Inhabited ByteSet := ⟨empty⟩

def contains (s : ByteSet) (b : UInt8) : Bool := s.bits.getLsbD b.toNat

instance : Membership UInt8 ByteSet := ⟨fun s b => s.contains b = true⟩

instance (b : UInt8) (s : ByteSet) : Decidable (b ∈ s) :=
  inferInstanceAs (Decidable (s.contains b = true))

def insert (s : ByteSet) (b : UInt8) : ByteSet := ⟨s.bits ||| BitVec.twoPow 256 b.toNat⟩

def rangeMask (lo hi : UInt8) : BitVec 256 :=
  (BitVec.allOnes 256 >>> (255 - (hi.toNat - lo.toNat))) <<< lo.toNat

/-- Adds the bytes `lo` to `hi`; a range whose ends are reversed has no bytes. -/
def insertRange (s : ByteSet) (lo hi : UInt8) : ByteSet :=
  if lo ≤ hi then ⟨s.bits ||| rangeMask lo hi⟩ else s

def ofRange (lo hi : UInt8) : ByteSet := empty.insertRange lo hi

def ofList (bytes : List UInt8) : ByteSet := bytes.foldl insert empty

def ofRanges (ranges : List (UInt8 × UInt8)) : ByteSet :=
  ranges.foldl (fun s r => s.insertRange r.1 r.2) empty

def allBytes : List UInt8 := (List.range 256).map UInt8.ofNat

def toList (s : ByteSet) : List UInt8 := allBytes.filter s.contains

def card (s : ByteSet) : Nat := s.toList.length

def isEmpty (s : ByteSet) : Bool := s.bits == 0#256

def runs : List UInt8 → List (UInt8 × UInt8)
  | [] => []
  | b :: rest =>
    match runs rest with
    | [] => [(b, b)]
    | (lo, hi) :: more =>
      if b.toNat + 1 = lo.toNat then (b, hi) :: more else (b, b) :: (lo, hi) :: more

def ranges (s : ByteSet) : List (UInt8 × UInt8) := runs s.toList

/-- The first and last member, when nothing between them is missing. -/
def asRange (s : ByteSet) : Option (UInt8 × UInt8) := do
  let first ← s.toList.head?
  let last ← s.toList.getLast?
  if last.toNat - first.toNat + 1 = s.card then some (first, last) else none

def capital (i : Nat) : UInt8 := UInt8.ofNat (0x41 + i)

def small (i : Nat) : UInt8 := UInt8.ofNat (0x61 + i)

def foldLetter (s : ByteSet) (i : Nat) : ByteSet :=
  if s.contains (capital i) || s.contains (small i) then
    (s.insert (capital i)).insert (small i)
  else s

/-- The least set around `s` that holds both cases of an ASCII letter or neither. -/
def foldCase (s : ByteSet) : ByteSet := (List.range 26).foldl foldLetter s

def rangeText : UInt8 × UInt8 → String
  | (lo, hi) => if lo = hi then Numeral.byte lo else Numeral.byte lo ++ "-" ++ Numeral.byte hi

protected def toString (s : ByteSet) : String :=
  "[" ++ " ".intercalate (s.ranges.map rangeText) ++ "]"

instance : ToString ByteSet := ⟨ByteSet.toString⟩

end ByteSet
end ByteAutomata
