import Mathlib.Algebra.Group.Nat.Defs
import Mathlib.Tactic.Common
import ByteAutomata.Text.Utf8

/-! # Reading UTF-8

What is read at the head of a byte string is a scalar value, and its bytes stand there. So the
pieces of a byte string, written one after another, give the byte string back. -/
namespace ByteAutomata.Utf8

/-- The last `count` continuation bytes of `n`. -/
def trailing (n : Nat) : Nat → List UInt8
  | 0 => []
  | count + 1 => continuation (n / 0x40 ^ count) :: trailing n count

theorem toNat_continuation (n : Nat) : (continuation n).toNat = 0x80 + n % 0x40 :=
  UInt8.toNat_ofNat_of_lt' (show 0x80 + n % 0x40 < 0x100 by omega)

theorem encode_ne_nil (n : Nat) : encode n ≠ [] := by
  unfold encode
  split_ifs <;> simp

theorem continuations_eq_some {count high n : Nat} {bytes rest : List UInt8}
    (h : continuations count high bytes = some (n,rest)) :
    n / 0x40 ^ count = high ∧ bytes = trailing n count ++ rest := by
  induction count generalizing high bytes with
  | zero =>
    obtain ⟨rfl,rfl⟩ : high = n ∧ bytes = rest := by simpa [continuations] using h
    exact ⟨Nat.div_one high,rfl⟩
  | succ count ih =>
    cases bytes with
    | nil => simp [continuations] at h
    | cons b bytes =>
      rw [continuations] at h
      split at h
      · rename_i hb
        obtain ⟨hhigh,hbytes⟩ := ih h
        have hdiv : n / 0x40 ^ (count + 1) = high := by
          rw [Nat.pow_succ, ← Nat.div_div_eq_div_mul, hhigh]
          omega
        have hbyte : continuation (n / 0x40 ^ count) = b := by
          rw [← UInt8.toNat_inj, toNat_continuation, hhigh]
          omega
        exact ⟨hdiv,by rw [trailing, hbyte, hbytes, List.cons_append]⟩
      · simp at h

theorem decodeHead_eq_some {n : Nat} {bytes rest : List UInt8}
    (h : decodeHead bytes = some (n,rest)) :
    IsScalar n ∧ bytes = encode n ++ rest := by
  cases bytes with
  | nil => simp [decodeHead] at h
  | cons lead tail =>
    have hlead := lead.toNat_lt
    -- a longer form has its continuation bytes, and is not too long for its value
    have longer {count least high : Nat}
        (hread : (continuations count high tail).filter (fun r => least ≤ r.1 ∧ IsScalar r.1) =
          some (n,rest)) :
        n / 0x40 ^ count = high ∧ tail = trailing n count ++ rest ∧ least ≤ n ∧ IsScalar n := by
      obtain ⟨hsome,hvalid⟩ := Option.filter_eq_some_iff.mp hread
      obtain ⟨hhigh,htail⟩ := continuations_eq_some hsome
      obtain ⟨hleast,hscalar⟩ := of_decide_eq_true hvalid
      exact ⟨hhigh,htail,hleast,hscalar⟩
    simp only [decodeHead] at h
    -- one byte, a byte that cannot lead, then two, three and four bytes
    split at h
    · obtain ⟨rfl,rfl⟩ : lead.toNat = n ∧ tail = rest := by simpa using h
      refine ⟨Or.inl (by omega),?_⟩
      rw [encode, if_pos (by assumption), UInt8.ofNat_toNat]
      rfl
    split at h
    · simp at h
    split at h
    · obtain ⟨hhigh,rfl,hleast,hscalar⟩ := longer h
      have hlead : 0xC0 + n / 0x40 = lead.toNat := by omega
      refine ⟨hscalar,?_⟩
      rw [encode, if_neg (by omega), if_pos (by omega), hlead, UInt8.ofNat_toNat]
      simp [trailing]
    split at h
    · obtain ⟨hhigh,rfl,hleast,hscalar⟩ := longer h
      have hlead : 0xE0 + n / 0x1000 = lead.toNat := by omega
      refine ⟨hscalar,?_⟩
      rw [encode, if_neg (by omega), if_neg (by omega), if_pos (by omega), hlead,
        UInt8.ofNat_toNat]
      simp [trailing]
    split at h
    · obtain ⟨hhigh,rfl,hleast,hscalar⟩ := longer h
      have hlead : 0xF0 + n / 0x40000 = lead.toNat := by omega
      refine ⟨hscalar,?_⟩
      rw [encode, if_neg (by omega), if_neg (by omega), if_neg (by omega), hlead,
        UInt8.ofNat_toNat]
      simp [trailing]
    · simp at h

theorem continuations_trailing (n count : Nat) (rest : List UInt8) :
    continuations count (n / 0x40 ^ count) (trailing n count ++ rest) = some (n,rest) := by
  induction count with
  | zero => simp [continuations, trailing]
  | succ count ih =>
    have hbyte := toNat_continuation (n / 0x40 ^ count)
    have hhigh : n / 0x40 ^ (count + 1) * 0x40 + n / 0x40 ^ count % 0x40 = n / 0x40 ^ count := by
      rw [Nat.pow_succ, ← Nat.div_div_eq_div_mul]
      omega
    rw [trailing, List.cons_append, continuations, hbyte, if_pos (by omega),
      Nat.add_sub_cancel_left, hhigh, ih]

/-- What is written for a scalar value is read as that value. -/
theorem decodeHead_encode {n : Nat} (h : IsScalar n) (rest : List UInt8) :
    decodeHead (encode n ++ rest) = some (n,rest) := by
  have hmax : n < 0x110000 := by
    rcases h with h | ⟨-,h⟩ <;> omega
  have hlead : ∀ m, m < 0x100 → (UInt8.ofNat m).toNat = m := fun m hm => UInt8.toNat_ofNat_of_lt' hm
  have hlonger {count least high : Nat} (tail : List UInt8) (hleast : least ≤ n)
      (hhigh : high = n / 0x40 ^ count) (htail : tail = trailing n count) :
      (continuations count high (tail ++ rest)).filter (fun r => least ≤ r.1 ∧ IsScalar r.1) =
        some (n,rest) := by
    rw [hhigh, htail, continuations_trailing, Option.filter_some,
      if_pos (decide_eq_true ⟨hleast,h⟩)]
  unfold encode
  split_ifs with h₁ h₂ h₃
  · simp [decodeHead, hlead n (by omega), h₁]
  · have hbyte := hlead (0xC0 + n / 0x40) (by omega)
    simp only [List.cons_append, decodeHead, hbyte]
    rw [if_neg (by omega), if_neg (by omega), if_pos (by omega)]
    exact hlonger [_] (by omega) (by omega) (by simp [trailing])
  · have hbyte := hlead (0xE0 + n / 0x1000) (by omega)
    simp only [List.cons_append, decodeHead, hbyte]
    rw [if_neg (by omega), if_neg (by omega), if_neg (by omega), if_pos (by omega)]
    exact hlonger [_,_] (by omega) (by omega) (by simp [trailing])
  · have hbyte := hlead (0xF0 + n / 0x40000) (by omega)
    simp only [List.cons_append, decodeHead, hbyte]
    rw [if_neg (by omega), if_neg (by omega), if_neg (by omega), if_neg (by omega),
      if_pos (by omega)]
    exact hlonger [_,_,_] (by omega) (by omega) (by simp [trailing])

theorem isScalar_toNat (c : Char) : IsScalar c.toNat := c.valid

theorem pieces_encode_append {n : Nat} (h : IsScalar n) (rest : List UInt8) :
    pieces (encode n ++ rest) = .scalar n :: pieces rest := by
  have hread := decodeHead_encode h rest
  obtain ⟨b,tail,hbytes⟩ := List.exists_cons_of_ne_nil (encode_ne_nil n)
  rw [hbytes, List.cons_append] at hread ⊢
  conv_lhs => rw [pieces]
  split
  · rename_i n' rest' hhead
    obtain ⟨rfl,rfl⟩ : n' = n ∧ rest' = rest := by simpa using hhead.symm.trans hread
    rfl
  · rename_i hhead
    cases hhead.symm.trans hread

theorem pieces_encode {n : Nat} (h : IsScalar n) : pieces (encode n) = [.scalar n] := by
  have hpieces := pieces_encode_append h []
  rwa [List.append_nil, pieces] at hpieces

section Strings

/-- The scalar values of a text are found again in its bytes. -/
theorem pieces_text (cs : List Char) :
    pieces (cs.flatMap fun c => encode c.toNat) = cs.map fun c => .scalar c.toNat := by
  induction cs with
  | nil => rw [List.flatMap_nil, pieces, List.map_nil]
  | cons c cs ih =>
    rw [List.flatMap_cons, pieces_encode_append (isScalar_toNat c), ih, List.map_cons]

theorem encode_toNat (c : Char) : encode c.toNat = String.utf8EncodeChar c := by
  have hcontinuation : ∀ n, continuation n = UInt8.ofNat (n % 64 + 128) := fun n => by
    rw [continuation, Nat.add_comm]
  have hscalar : IsScalar c.val.toNat := isScalar_toNat c
  change encode c.val.toNat = _
  unfold encode String.utf8EncodeChar
  unfold IsScalar at hscalar
  generalize c.val.toNat = n at hscalar
  simp only [hcontinuation]
  by_cases hone : n < 0x80
  · rw [if_pos hone, if_pos (by omega)]
  by_cases htwo : n < 0x800
  · have hlead : 0xC0 + n / 0x40 = n / 64 % 32 + 192 := by omega
    rw [if_neg hone, if_pos htwo, if_neg (by omega), if_pos (by omega), hlead]
  by_cases hthree : n < 0x10000
  · have hlead : 0xE0 + n / 0x1000 = n / 4096 % 16 + 224 := by omega
    rw [if_neg hone, if_neg htwo, if_pos hthree, if_neg (by omega), if_neg (by omega),
      if_pos (by omega), hlead]
  · have hlead : 0xF0 + n / 0x40000 = n / 262144 % 8 + 240 := by omega
    rw [if_neg hone, if_neg htwo, if_neg hthree, if_neg (by omega), if_neg (by omega),
      if_neg (by omega), hlead]

/-- The bytes of a string are those of its characters. -/
theorem flatMap_encode_toList (text : String) :
    (text.toList.flatMap fun c => encode c.toNat) = text.toUTF8.data.toList := by
  have hchars : (fun c : Char => encode c.toNat) = String.utf8EncodeChar := funext encode_toNat
  rw [hchars, String.toUTF8_eq_toByteArray]
  conv_rhs => rw [← String.ofList_toList (s := text), String.toByteArray_ofList,
    List.utf8Encode.eq_1, List.toList_data_toByteArray]

end Strings

theorem single_encode {n : Nat} (h : IsScalar n) : single? (encode n) = some n := by
  have hread := decodeHead_encode h []
  rw [List.append_nil] at hread
  rw [single?, hread]

namespace Piece

def bytes : Piece → List UInt8
  | scalar n => encode n
  | stray b => [b]

theorem bytes_ne_nil (p : Piece) : p.bytes ≠ [] := by
  cases p with
  | scalar n => exact encode_ne_nil n
  | stray b => simp [bytes]

def IsValid : Piece → Prop
  | scalar n => IsScalar n
  | stray _ => True

end Piece

theorem flatMap_pieces (bytes : List UInt8) :
    (pieces bytes).flatMap Piece.bytes = bytes ∧ ∀ p ∈ pieces bytes, p.IsValid := by
  fun_induction pieces bytes with
  | case1 => simp
  | case2 b tail n rest h ih =>
    obtain ⟨hscalar,hbytes⟩ := decodeHead_eq_some h
    refine ⟨?_,?_⟩
    · rw [List.flatMap_cons, ih.1, hbytes]
      rfl
    · intro p hp
      rcases List.mem_cons.mp hp with rfl | hp
      · exact hscalar
      · exact ih.2 p hp
  | case3 b tail h ih =>
    refine ⟨?_,?_⟩
    · rw [List.flatMap_cons, ih.1]
      rfl
    · intro p hp
      rcases List.mem_cons.mp hp with rfl | hp
      · trivial
      · exact ih.2 p hp

theorem eq_of_single {n : Nat} {bytes : List UInt8} (h : single? bytes = some n) :
    IsScalar n ∧ bytes = encode n := by
  unfold single? at h
  split at h
  · rename_i hread
    obtain rfl := Option.some.inj h
    obtain ⟨hscalar,hbytes⟩ := decodeHead_eq_some hread
    exact ⟨hscalar,by rw [hbytes, List.append_nil]⟩
  · simp at h

end ByteAutomata.Utf8
