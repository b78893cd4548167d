/-! # UTF-8

A scalar value is a code point that is not a surrogate. It is written with one to four bytes, and
the shortest form is the only one, so a reader refuses every longer spelling. -/
namespace ByteAutomata.Utf8

def IsScalar (n : Nat) : Prop := n < 0xD800 ∨ 0xDFFF < n ∧ n < 0x110000

instance (n : Nat) : Decidable (IsScalar n) := inferInstanceAs (Decidable (_ ∨ _ ∧ _))

def continuation (n : Nat) : UInt8 := UInt8.ofNat (0x80 + n % 0x40)

def encode (n : Nat) : List UInt8 :=
  if n < 0x80 then [UInt8.ofNat n]
  else if n < 0x800 then [UInt8.ofNat (0xC0 + n / 0x40), continuation n]
  else if n < 0x10000 then
    [UInt8.ofNat (0xE0 + n / 0x1000), continuation (n / 0x40), continuation n]
  else
    [UInt8.ofNat (0xF0 + n / 0x40000), continuation (n / 0x1000), continuation (n / 0x40),
      continuation n]

def continuations (count high : Nat) (bytes : List UInt8) : Option (Nat × List UInt8) :=
  match count, bytes with
  | 0, rest => some (high, rest)
  | _ + 1, [] => none
  | count + 1, b :: rest =>
    if 0x80 ≤ b.toNat ∧ b.toNat < 0xC0 then
      continuations count (high * 0x40 + (b.toNat - 0x80)) rest
    else none

/-- The scalar value at the head of `bytes`, with what follows it. -/
def decodeHead (bytes : List UInt8) : Option (Nat × List UInt8) :=
  match bytes with
  | [] => none
  | lead :: rest =>
    let longer (count least high : Nat) : Option (Nat × List UInt8) :=
      (continuations count high rest).filter fun r => least ≤ r.1 ∧ IsScalar r.1
    if lead.toNat < 0x80 then some (lead.toNat, rest)
    else if lead.toNat < 0xC0 then none
    else if lead.toNat < 0xE0 then longer 1 0x80 (lead.toNat - 0xC0)
    else if lead.toNat < 0xF0 then longer 2 0x800 (lead.toNat - 0xE0)
    else if lead.toNat < 0xF8 then longer 3 0x10000 (lead.toNat - 0xF0)
    else none

/-- A piece of a byte string: a scalar value, or a byte that belongs to none. -/
inductive Piece where
  | scalar (n : Nat)
  | stray (b : UInt8)
deriving DecidableEq

theorem continuations_length {count high n : Nat} {bytes rest : List UInt8}
    (h : continuations count high bytes = some (n, rest)) : rest.length ≤ bytes.length := by
  fun_induction continuations count high bytes with
  | case1 => simp_all
  | case2 => simp at h
  | case3 _ _ _ _ _ ih => exact Nat.le_trans (ih h) (by simp)
  | case4 => simp at h

theorem decodeHead_length {n : Nat} {bytes rest : List UInt8}
    (h : decodeHead bytes = some (n, rest)) : rest.length < bytes.length := by
  cases bytes with
  | nil => simp [decodeHead] at h
  | cons lead tail =>
    have longer {count high : Nat} {p : Nat × List UInt8 → Bool}
        (hc : (continuations count high tail).filter p = some (n, rest)) :
        rest.length < (lead :: tail).length := by
      have := continuations_length (Option.filter_eq_some_iff.1 hc).1
      simp only [List.length_cons]
      omega
    simp only [decodeHead] at h
    split at h
    · simp_all
    · split at h
      · simp at h
      · split at h
        · exact longer h
        · split at h
          · exact longer h
          · split at h
            · exact longer h
            · simp at h

/-- The scalar values and stray bytes of a byte string, in order. -/
def pieces (bytes : List UInt8) : List Piece :=
  match bytes with
  | [] => []
  | b :: tail =>
    match _h : decodeHead (b :: tail) with
    | some (n, rest) => .scalar n :: pieces rest
    | none => .stray b :: pieces tail
termination_by bytes.length
decreasing_by
  · exact decodeHead_length _h
  · simp

def single? (bytes : List UInt8) : Option Nat :=
  match decodeHead bytes with
  | some (n, []) => some n
  | _ => none

end ByteAutomata.Utf8
