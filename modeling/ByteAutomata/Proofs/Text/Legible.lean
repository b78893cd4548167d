import Mathlib.Logic.Function.Basic
import Mathlib.Data.List.Basic
import ByteAutomata.Text.Hex
import ByteAutomata.Text.Numeral

/-! # Legible texts

A way of writing is legible in front of certain texts if what is written can be told apart from
the text behind it. Numerals are legible where no digit follows, and bytes everywhere, since they
all have the same length. -/
namespace ByteAutomata
variable {α : Type} {R : List Char → Prop} {write : α → List Char}

/-- What is written can be read back in front of a rest that `R` holds of, and the rest with it. -/
def Legible (R : List Char → Prop) (write : α → List Char) : Prop :=
  ∀ ⦃x y rest rest'⦄, R rest → R rest' → write x ++ rest = write y ++ rest' →
    x = y ∧ rest = rest'

namespace Legible

/-- Texts that are all equally long end where the length is reached. -/
theorem of_length {n : Nat} (hlength : ∀ x, (write x).length = n)
    (hinj : Function.Injective write) : Legible (fun _ => True) write := by
  intro x y rest rest' _ _ h
  obtain ⟨hwritten,hrest⟩ := List.append_inj h ((hlength x).trans (hlength y).symm)
  exact ⟨hinj hwritten,hrest⟩

/-- Texts of characters of one kind end in front of a character of another kind. -/
theorem of_all {p : Char → Bool} (hall : ∀ x, ∀ c ∈ write x, p c = true)
    (hinj : Function.Injective write) :
    Legible (fun rest => ∀ c ∈ rest.head?, p c = false) write := by
  have htake : ∀ x rest, (∀ c ∈ rest.head?, p c = false) →
      (write x ++ rest).takeWhile p = write x ∧ (write x ++ rest).dropWhile p = rest := by
    intro x rest hrest
    rw [List.takeWhile_append_of_pos (hall x), List.dropWhile_append_of_pos (hall x)]
    cases rest with
    | nil => simp
    | cons c rest => simp [hrest c rfl]
  intro x y rest rest' hrest hrest' h
  obtain ⟨hx,hxrest⟩ := htake x rest hrest
  obtain ⟨hy,hyrest⟩ := htake y rest' hrest'
  rw [h] at hx hxrest
  exact ⟨hinj (hx.symm.trans hy),hxrest.symm.trans hyrest⟩

/-- Items that are each led by the same text, in front of a rest that does not begin with it. -/
theorem flatMap (lead : List Char) (h : Legible R write) (hlead : ∀ rest, R (lead ++ rest)) :
    Legible (fun rest => R rest ∧ ¬ lead <+: rest)
      fun xs : List α => xs.flatMap fun x => lead ++ write x := by
  have hbegin : ∀ (xs : List α) rest, R rest → R (xs.flatMap (fun x => lead ++ write x) ++ rest) := by
    intro xs rest hrest
    cases xs with
    | nil => exact hrest
    | cons x xs =>
      rw [List.flatMap_cons, List.append_assoc, List.append_assoc]
      exact hlead _
  have hmark : ∀ x (xs : List α) rest rest', ¬ lead <+: rest' →
      (x :: xs).flatMap (fun x => lead ++ write x) ++ rest ≠ rest' := by
    rintro x xs rest _ hno rfl
    rw [List.flatMap_cons, List.append_assoc, List.append_assoc] at hno
    exact hno (List.prefix_append lead _)
  intro xs ys rest rest' ⟨hrest,hno⟩ ⟨hrest',hno'⟩ heq
  induction xs generalizing ys with
  | nil =>
    cases ys with
    | nil => exact ⟨rfl,heq⟩
    | cons y ys => exact absurd heq.symm (hmark y ys rest' rest hno)
  | cons x xs ih =>
    cases ys with
    | nil => exact absurd heq (hmark x xs rest rest' hno')
    | cons y ys =>
      simp only [List.flatMap_cons, List.append_assoc, List.append_cancel_left_eq] at heq
      obtain ⟨rfl,hlater⟩ := h (hbegin xs rest hrest) (hbegin ys rest' hrest') heq
      obtain ⟨rfl,hlast⟩ := ih hlater
      exact ⟨rfl,hlast⟩

/-- Nothing but such items. -/
theorem flatMap_inj (h : Legible (fun _ => True) write) (hne : ∀ x, write x ≠ []) :
    Function.Injective fun xs : List α => xs.flatMap write := by
  intro xs ys heq
  induction xs generalizing ys with
  | nil =>
    cases ys with
    | nil => rfl
    | cons y ys => simp [hne y] at heq
  | cons x xs ih =>
    cases ys with
    | nil => simp [hne x] at heq
    | cons y ys =>
      obtain ⟨rfl,hrest⟩ := h trivial trivial heq
      rw [ih hrest]

end Legible

theorem toList_intercalate_cons (sep text : String) (texts : List String) :
    (sep.intercalate (text :: texts)).toList =
      text.toList ++ texts.flatMap fun text => sep.toList ++ text.toList := by
  induction texts generalizing text with
  | nil => simp
  | cons next texts ih =>
    rw [String.intercalate_cons_cons, String.toList_append, String.toList_append, ih next,
      List.flatMap_cons, List.append_assoc, List.append_assoc]

namespace Numeral

/-- No digit in front. -/
def EndsNumeral (rest : List Char) : Prop := ∀ c ∈ rest.head?, c.isDigit = false

theorem toList_decimal (width n : Nat) : (decimal width n).toList =
    List.replicate (width - (Nat.toDigits 10 n).length) '0' ++ Nat.toDigits 10 n :=
  String.toList_ofList

/-- Zeros on the left do not change the number. -/
theorem ofDigitChars_decimal (width n : Nat) : Nat.ofDigitChars 10 (decimal width n).toList 0 = n := by
  have hzeros : ∀ k, Nat.ofDigitChars 10 (List.replicate k '0') 0 = 0 := by
    intro k
    induction k with
    | zero => rfl
    | succ k ih =>
      rw [List.replicate_succ, Nat.ofDigitChars_cons]
      exact ih
  rw [toList_decimal, Nat.ofDigitChars_append, hzeros, Nat.ofDigitChars_ten_toDigits]

theorem legible_decimal (width : Nat) :
    Legible EndsNumeral fun n => (decimal width n).toList := by
  refine Legible.of_all (p := Char.isDigit) ?_ ?_
  · intro n c hc
    rw [toList_decimal, List.mem_append, List.mem_replicate] at hc
    rcases hc with ⟨-,rfl⟩ | hc
    · rfl
    · exact Nat.isDigit_of_mem_toDigits (by decide) (by decide) hc
  · intro m n h
    rw [← ofDigitChars_decimal width m, ← ofDigitChars_decimal width n]
    exact congrArg (Nat.ofDigitChars 10 · 0) h

theorem toString_eq_decimal (n : Nat) : toString n = decimal 0 n := by
  apply String.ext
  rw [toList_decimal, Nat.zero_sub, List.replicate_zero, List.nil_append, Nat.toString_eq_repr,
    Nat.toList_repr]

theorem legible_byte : Legible (fun _ => True) fun b => (byte b).toList := by
  have hdigits : ∀ n : Fin 256, (byte (UInt8.ofNat n)).toList.length = 4 ∧
      ((byte (UInt8.ofNat n)).toList.drop 2).foldl (fun k c => k * 16 + Hex.value c) 0 = n.val := by
    decide +kernel
  have hbyte : ∀ b : UInt8, (byte b).toList.length = 4 ∧
      ((byte b).toList.drop 2).foldl (fun k c => k * 16 + Hex.value c) 0 = b.toNat := by
    intro b
    have h := hdigits ⟨b.toNat,b.toNat_lt⟩
    rwa [UInt8.ofNat_toNat] at h
  refine Legible.of_length (fun b => (hbyte b).1) fun b c h => ?_
  rw [← UInt8.toNat_inj, ← (hbyte b).2, ← (hbyte c).2, h]

end Numeral
end ByteAutomata
