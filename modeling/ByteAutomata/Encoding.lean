import ByteAutomata.Text.Utf8

/-! # Character encodings

An encoding gives the bytes that stand for a code point in the searched data. A code point that
has no bytes in an encoding cannot be searched for with it. -/
namespace ByteAutomata

inductive Encoding where
  | ascii
  | latin1
  | utf8
  | utf16le
  | utf16be
deriving DecidableEq

namespace Encoding

def all : List Encoding := [ascii, latin1, utf8, utf16le, utf16be]

def name : Encoding → String
  | ascii => "ASCII"
  | latin1 => "ISO-8859-1"
  | utf8 => "UTF-8"
  | utf16le => "UTF-16LE"
  | utf16be => "UTF-16BE"

/-- The name by which settings select the encoding. -/
def settingName : Encoding → String
  | ascii => "ascii"
  | latin1 => "latin1"
  | utf8 => "utf-8"
  | utf16le => "utf-16le"
  | utf16be => "utf-16be"

def ofSettingName? (name : String) : Option Encoding :=
  all.find? fun e => e.settingName = name

/-- No code point takes more bytes than this. -/
def maxLength : Encoding → Nat
  | ascii | latin1 => 1
  | utf8 | utf16le | utf16be => 4

def utf16Units (n : Nat) : List Nat :=
  if n < 0x10000 then [n]
  else [0xD800 + (n - 0x10000) / 0x400, 0xDC00 + (n - 0x10000) % 0x400]

def lowByteFirst (unit : Nat) : List UInt8 :=
  [UInt8.ofNat (unit % 0x100), UInt8.ofNat (unit / 0x100)]

def highByteFirst (unit : Nat) : List UInt8 :=
  [UInt8.ofNat (unit / 0x100), UInt8.ofNat (unit % 0x100)]

def encode (e : Encoding) (n : Nat) : Option (List UInt8) :=
  match e with
  | ascii => if n < 0x80 then some [UInt8.ofNat n] else none
  | latin1 => if n < 0x100 then some [UInt8.ofNat n] else none
  | utf8 => if Utf8.IsScalar n then some (Utf8.encode n) else none
  | utf16le => if Utf8.IsScalar n then some ((utf16Units n).flatMap lowByteFirst) else none
  | utf16be => if Utf8.IsScalar n then some ((utf16Units n).flatMap highByteFirst) else none

theorem length_utf8_encode_le (n : Nat) : (Utf8.encode n).length ≤ 4 := by
  unfold Utf8.encode
  repeat' split
  all_goals simp

theorem length_encode_le {e : Encoding} {n : Nat} {bytes : List UInt8}
    (h : e.encode n = some bytes) : bytes.length ≤ e.maxLength := by
  have hunits : (utf16Units n).length ≤ 2 := by
    unfold utf16Units
    split <;> simp
  have hpair : ∀ f : Nat → List UInt8, (∀ unit, (f unit).length = 2) →
      ((utf16Units n).flatMap f).length ≤ 4 := by
    intro f hf
    simp only [List.length_flatMap, hf, List.map_const', List.sum_replicate_nat]
    omega
  cases e <;> simp only [encode] at h <;> split at h <;> cases h
  · simp [maxLength]
  · simp [maxLength]
  · exact length_utf8_encode_le n
  · exact hpair lowByteFirst fun _ => rfl
  · exact hpair highByteFirst fun _ => rfl

abbrev Buffer (e : Encoding) := Vector UInt8 e.maxLength

def Buffer.overwrite {e : Encoding} (buffer : e.Buffer) (bytes : List UInt8)
    (h : bytes.length ≤ e.maxLength) : e.Buffer :=
  ⟨(bytes ++ buffer.toList.drop bytes.length).toArray,by simp; omega⟩

/-- Writes the bytes of a code point into the buffer and tells how many there are. A code point
that cannot be represented takes no byte and leaves the buffer as it is. -/
def write (e : Encoding) (n : Nat) (buffer : e.Buffer) : Nat × e.Buffer :=
  match h : e.encode n with
  | none => (0, buffer)
  | some bytes => (bytes.length, buffer.overwrite bytes (length_encode_le h))

theorem fst_write (e : Encoding) (n : Nat) (buffer : e.Buffer) :
    (e.write n buffer).1 = ((e.encode n).getD []).length := by
  unfold write
  split
  · rename_i h
    rw [h, Option.getD_none, List.length_nil]
  · rename_i bytes h
    have hbytes : (e.encode n).getD [] = bytes := by rw [h, Option.getD_some]
    rw [hbytes]

/-- What is read from the buffer is what has just been written, whatever was there before. -/
theorem take_write (e : Encoding) (n : Nat) (buffer : e.Buffer) :
    (e.write n buffer).2.toList.take (e.write n buffer).1 = (e.encode n).getD [] := by
  unfold write
  split
  · rename_i h
    rw [h, Option.getD_none, List.take_zero]
  · rename_i bytes h
    have hbytes : (e.encode n).getD [] = bytes := by rw [h, Option.getD_some]
    rw [hbytes]
    exact List.take_left

end Encoding
end ByteAutomata
