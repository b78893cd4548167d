import ByteAutomata.Proofs.ByteSet

/-! # Letters in encodings

An ASCII character has one byte of its own in every encoding, with at most a zero byte beside it.
A code point beyond ASCII has no byte that is an ASCII letter, except in UTF-16, where its code
units may hold one. -/
namespace ByteAutomata

/-- The other case of an ASCII letter; any other code point is its own. -/
def otherCasePoint (n : Nat) : Nat :=
  if 0x41 ≤ n ∧ n ≤ 0x5A then n + 0x20
  else if 0x61 ≤ n ∧ n ≤ 0x7A then n - 0x20
  else n

theorem otherCasePoint_lt {n : Nat} (hn : n < 0x80) : otherCasePoint n < 0x80 := by
  unfold otherCasePoint
  split_ifs <;> omega

theorem otherCasePoint_of_le {n : Nat} (hn : 0x80 ≤ n) : otherCasePoint n = n := by
  unfold otherCasePoint
  split_ifs <;> omega

theorem otherCase_ofNat {n : Nat} (hn : n < 0x80) :
    otherCase (UInt8.ofNat n) = UInt8.ofNat (otherCasePoint n) := by
  have hother := otherCasePoint_lt hn
  have hbyte : (UInt8.ofNat n).toNat = n :=
    UInt8.toNat_ofNat_of_lt' (show n < 0x100 by omega)
  have hbyte' : (UInt8.ofNat (otherCasePoint n)).toNat = otherCasePoint n :=
    UInt8.toNat_ofNat_of_lt' (show otherCasePoint n < 0x100 by omega)
  rw [← UInt8.toNat_inj, toNat_otherCase, hbyte, hbyte']
  rfl

theorem otherCase_of_le {b : UInt8} (hb : 0x80 ≤ b.toNat) : otherCase b = b := by
  rw [← UInt8.toNat_inj, toNat_otherCase]
  split_ifs <;> omega

namespace Encoding
variable {e : Encoding} {n : Nat} {bytes : List UInt8}

/-- The bytes of an ASCII character. -/
def asciiBytes (e : Encoding) (b : UInt8) : List UInt8 :=
  match e with
  | ascii | latin1 | utf8 => [b]
  | utf16le => [b,0]
  | utf16be => [0,b]

theorem encode_of_lt (e : Encoding) (hn : n < 0x80) :
    e.encode n = some (e.asciiBytes (UInt8.ofNat n)) := by
  have hscalar : Utf8.IsScalar n := Or.inl (by omega)
  have hunits : utf16Units n = [n] := if_pos (by omega)
  have hlow : n % 0x100 = n := Nat.mod_eq_of_lt (by omega)
  have hhigh : n / 0x100 = 0 := Nat.div_eq_of_lt (by omega)
  cases e with
  | ascii => exact if_pos hn
  | latin1 => exact if_pos (by omega)
  | utf8 =>
    rw [encode, if_pos hscalar, Utf8.encode, if_pos hn]
    rfl
  | utf16le =>
    rw [encode, if_pos hscalar, hunits]
    simp [lowByteFirst, hlow, hhigh, asciiBytes]
  | utf16be =>
    rw [encode, if_pos hscalar, hunits]
    simp [highByteFirst, hlow, hhigh, asciiBytes]

/-- One byte is all that an encoding other than UTF-16 writes for a character in ASCII. -/
theorem encode_of_not_utf16 (hle : e ≠ .utf16le) (hbe : e ≠ .utf16be)
    (hn : n < 0x80) : e.encode n = some [UInt8.ofNat n] := by
  rw [encode_of_lt e hn]
  cases e with
  | ascii | latin1 | utf8 => rfl
  | utf16le => exact absurd rfl hle
  | utf16be => exact absurd rfl hbe

/-- No byte of the code point is an ASCII letter, unless it is an ASCII character. -/
def IsPlain (e : Encoding) (n : Nat) : Prop :=
  ∀ bytes, e.encode n = some bytes → 0x80 ≤ n → ∀ b ∈ bytes, otherCase b = b

/-- Behind the ASCII characters, all bytes of UTF-8 are beyond ASCII as well. -/
theorem otherCase_of_mem_utf8 (hn : 0x80 ≤ n) (hscalar : Utf8.IsScalar n) {b : UInt8}
    (hb : b ∈ Utf8.encode n) : otherCase b = b := by
  apply otherCase_of_le
  have hcontinuation : ∀ m, 0x80 ≤ (Utf8.continuation m).toNat := fun m => by
    rw [Utf8.toNat_continuation]
    omega
  have hlead : ∀ m, 0x80 ≤ m → m < 0x100 → 0x80 ≤ (UInt8.ofNat m).toNat := fun m hle hlt => by
    rwa [UInt8.toNat_ofNat_of_lt' hlt]
  have hmax : n < 0x110000 := by
    rcases hscalar with h | ⟨-,h⟩ <;> omega
  unfold Utf8.encode at hb
  split_ifs at hb with h₁ h₂ h₃
  · omega
  all_goals
    simp only [List.mem_cons, List.not_mem_nil, or_false] at hb
    rcases hb with rfl | hb
    · exact hlead _ (by omega) (by omega)
    · rcases hb with rfl | rfl | rfl <;> exact hcontinuation _

theorem isPlain_of_not_utf16 (hle : e ≠ .utf16le) (hbe : e ≠ .utf16be) (n : Nat) :
    e.IsPlain n := by
  intro bytes hbytes hn b hb
  cases e with
  | ascii =>
    rw [encode, if_neg (by omega)] at hbytes
    cases hbytes
  | latin1 =>
    rw [encode] at hbytes
    split at hbytes <;> cases hbytes
    rename_i hlt
    obtain rfl := List.mem_singleton.mp hb
    exact otherCase_of_le (by rwa [UInt8.toNat_ofNat_of_lt' hlt])
  | utf8 =>
    rw [encode] at hbytes
    split at hbytes <;> cases hbytes
    exact otherCase_of_mem_utf8 hn (by assumption) hb
  | utf16le => exact absurd rfl hle
  | utf16be => exact absurd rfl hbe

end Encoding

end ByteAutomata
