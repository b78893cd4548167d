import Mathlib.Computability.Language
import ByteAutomata.Proofs.Term.Basic
import ByteAutomata.Proofs.Text.Utf8
import ByteAutomata.Settings.Basic

/-! # Languages of terms

The language of a term holds the byte strings that it matches, whatever is preferred among them.
Unrolling a term does not change its language. -/
namespace ByteAutomata
open scoped Computability

/-- A code point that can be represented takes at least one byte. -/
theorem Encoding.encode_ne_nil (e : Encoding) (n : Nat) : e.encode n ≠ some [] := by
  have hunits : utf16Units n ≠ [] := by
    unfold utf16Units
    split <;> simp
  obtain ⟨u,us,hu⟩ := List.exists_cons_of_ne_nil hunits
  cases e <;> simp only [encode] <;> split <;>
    simp [hu, Utf8.encode_ne_nil, lowByteFirst, highByteFirst]

theorem Encoding.map_encode_ne_nil {α : Type} (e : Encoding) (n : Nat) (f : UInt8 → α) :
    (e.encode n).map (·.map f) ≠ some [] := by
  intro h
  obtain ⟨bytes,hb,hnil⟩ := Option.map_eq_some_iff.mp h
  rw [List.map_eq_nil_iff] at hnil
  exact e.encode_ne_nil n (hnil ▸ hb)

/-- The other case of an ASCII letter; any other byte is its own. -/
def otherCase (b : UInt8) : UInt8 :=
  if 0x41 ≤ b ∧ b ≤ 0x5A then b + 0x20
  else if 0x61 ≤ b ∧ b ≤ 0x7A then b - 0x20
  else b

/-- Whether `x` may stand where `b` is asked for. -/
def BuilderSettings.allows (s : BuilderSettings) (b x : UInt8) : Bool :=
  x == b || (!s.caseSensitive && x == otherCase b)

namespace Leaf

/-- For every byte of the leaf, the condition on it. A literal without encoding has none. -/
def conditions (s : BuilderSettings) : Leaf → Option (List (UInt8 → Bool))
  | literal codePoint => (s.encoding.encode codePoint).map (·.map s.allows)
  | dot => some [fun _ => true]
  | charClass set =>
    some [fun x => set.contains x || (!s.caseSensitive && set.contains (otherCase x))]

def language (s : BuilderSettings) (l : Leaf) : Language UInt8 :=
  {w | ∃ ps, l.conditions s = some ps ∧ List.Forall₂ (fun p b => p b = true) ps w}

theorem conditions_ne_nil (s : BuilderSettings) (l : Leaf) : l.conditions s ≠ some [] := by
  cases l with
  | literal n => exact s.encoding.map_encode_ne_nil n s.allows
  | dot => simp [conditions]
  | charClass set => simp [conditions]

end Leaf

/-- The strings made of at least `min` and at most `max` strings of `l`. -/
def powers (l : Language UInt8) (min : Nat) (max : Option Nat) : Language UInt8 :=
  {w | ∃ k, min ≤ k ∧ (∀ m, max = some m → k ≤ m) ∧ w ∈ l ^ k}

/-- The strings that a term matches. -/
def Term.language (s : BuilderSettings) : Term → Language UInt8
  | leaf l => l.language s
  | alternation l r => l.language s + r.language s
  | concatenation l r => l.language s * r.language s
  | repetition min max _ e => powers (e.language s) min max

section Powers
variable (l : Language UInt8)

theorem mem_powers {l : Language UInt8} {min : Nat} {max : Option Nat} {w : List UInt8} :
    w ∈ powers l min max ↔ ∃ k, min ≤ k ∧ (∀ m, max = some m → k ≤ m) ∧ w ∈ l ^ k := Iff.rfl

theorem powers_zero_none : powers l 0 none = l∗ := by
  ext w
  simp [mem_powers, Language.kstar_eq_iSup_pow, Language.mem_iSup]

theorem powers_zero_zero : powers l 0 (some 0) = 1 := by
  ext w
  simp [mem_powers]

theorem powers_exactly (n : Nat) : powers l n (some n) = l ^ n := by
  ext w
  rw [mem_powers]
  constructor
  · rintro ⟨k,hle,hge,hw⟩
    rwa [Nat.le_antisymm (hge n rfl) hle] at hw
  · exact fun hw => ⟨n,le_rfl,fun m hm => (Option.some.inj hm).le,hw⟩

/-- Rounds that take nothing take nothing together. -/
theorem powers_one {min : Nat} {max : Option Nat} (h : ∀ m, max = some m → min ≤ m) :
    powers 1 min max = 1 := by
  ext w
  rw [mem_powers]
  constructor
  · rintro ⟨k,-,-,hw⟩
    rwa [one_pow] at hw
  · exact fun hw => ⟨min,le_rfl,h,by rwa [one_pow]⟩

/-- The mandatory rounds come first. -/
theorem powers_add (n : Nat) (max : Option Nat) :
    powers l n (max.map (n + ·)) = l ^ n * powers l 0 max := by
  ext w
  simp only [mem_powers, Language.mem_mul, Option.map_eq_some_iff]
  constructor
  · rintro ⟨k,hk,hm,hw⟩
    obtain ⟨d,rfl⟩ := Nat.exists_eq_add_of_le hk
    rw [pow_add] at hw
    obtain ⟨u,hu,v,hv,rfl⟩ := Language.mem_mul.mp hw
    refine ⟨u,hu,v,⟨d,Nat.zero_le d,?_,hv⟩,rfl⟩
    intro m hmax
    have h := hm (n + m) ⟨m,hmax,rfl⟩
    omega
  · rintro ⟨u,hu,v,⟨d,-,hm,hv⟩,rfl⟩
    refine ⟨n + d,Nat.le_add_right n d,?_,?_⟩
    · rintro m ⟨m',hmax,rfl⟩
      have h := hm m' hmax
      omega
    · rw [pow_add]
      exact Language.append_mem_mul hu hv

/-- An optional round comes first, or there is none. -/
theorem powers_zero_succ (n : Nat) :
    powers l 0 (some (n + 1)) = 1 + l * powers l 0 (some n) := by
  ext w
  simp only [mem_powers, Language.mem_add, Language.mem_one, Language.mem_mul, Option.some.injEq,
    forall_eq']
  constructor
  · rintro ⟨k,-,hk,hw⟩
    cases k with
    | zero => exact Or.inl (by simpa using hw)
    | succ k =>
      rw [pow_succ'] at hw
      obtain ⟨u,hu,v,hv,rfl⟩ := Language.mem_mul.mp hw
      exact Or.inr ⟨u,hu,v,⟨k,Nat.zero_le k,by omega,hv⟩,rfl⟩
  · rintro (rfl | ⟨u,hu,v,⟨k,-,hk,hv⟩,rfl⟩)
    · exact ⟨0,le_rfl,Nat.zero_le _,by simp⟩
    · refine ⟨k + 1,Nat.zero_le _,by omega,?_⟩
      rw [pow_succ']
      exact Language.append_mem_mul hu hv

end Powers

namespace Term
variable (s : BuilderSettings)

theorem language_option (e : Term) (greedy : Bool) :
    (repetition 0 (some 1) greedy e).language s = 1 + e.language s := by
  rw [language, powers_zero_succ, powers_zero_zero, mul_one]

theorem language_star (e : Term) (greedy : Bool) :
    (repetition 0 none greedy e).language s = (e.language s)∗ := powers_zero_none _

theorem language_plus (e : Term) (greedy : Bool) :
    (repetition 1 none greedy e).language s = e.language s * (e.language s)∗ := by
  have h := powers_add (e.language s) 1 none
  rw [Option.map_none, pow_one, powers_zero_none] at h
  exact h

theorem language_copies (e tail : Term) (n : Nat) :
    (e.copies n tail).language s = e.language s ^ n * tail.language s := by
  induction n with
  | zero => simp [copies]
  | succ n ih => rw [copies, language, ih, pow_succ', mul_assoc]

theorem language_options (e : Term) (greedy : Bool) (n : Nat) :
    (e.options greedy n).language s = powers (e.language s) 0 (some (n + 1)) := by
  induction n with
  | zero => rfl
  | succ n ih =>
    rw [options, language, language, ih, powers_zero_succ, powers_zero_zero, mul_one,
      powers_zero_succ (e.language s) (n + 1)]

theorem language_unrollRepetition {e e' : Term} {min : Nat} {max : Option Nat} {greedy : Bool}
    (h : e.unrollRepetition min max greedy = some e') :
    e'.language s = powers (e.language s) min max := by
  obtain ⟨rfl,rfl,rfl⟩ | ⟨n,rfl,rfl,rfl⟩ | ⟨n,rfl,rfl,rfl⟩ | ⟨n,rfl,rfl⟩ :=
    unrollRepetition_cases h
  · rfl
  · have hplus := powers_add (e.language s) 1 none
    have hall := powers_add (e.language s) (n + 1) none
    simp only [Option.map_none] at hplus hall
    rw [language_copies, language, hplus, hall, pow_one, ← mul_assoc, ← pow_succ]
  · have hall := powers_add (e.language s) (n + 1) (some 0)
    simp only [Option.map_some, Nat.add_zero] at hall
    rw [language_copies, hall, powers_zero_zero, mul_one, pow_succ]
  · have hall := powers_add (e.language s) min (some (n + 1))
    simp only [Option.map_some] at hall
    rw [language_copies, language_options, Nat.add_assoc, hall]

/-- A term and its unrolled form match the same strings. -/
theorem language_unroll {e e' : Term} (h : e.unroll = some e') :
    e'.language s = e.language s := by
  induction e generalizing e' with
  | leaf l =>
    cases h
    rfl
  | alternation l r ihl ihr =>
    obtain ⟨l',r',hl,hr,rfl⟩ := unroll_alternation.mp h
    rw [language, language, ihl hl, ihr hr]
  | concatenation l r ihl ihr =>
    obtain ⟨l',r',hl,hr,rfl⟩ := unroll_concatenation.mp h
    rw [language, language, ihl hl, ihr hr]
  | repetition min max greedy e ih =>
    obtain ⟨e₀,he,h⟩ := unroll_repetition.mp h
    rw [language_unrollRepetition s h, ih he, language]

theorem nil_mem_language {s : BuilderSettings} {e : Term} (hb : e.IsBasic) :
    [] ∈ e.language s ↔ e.nullable = true := by
  induction hb with
  | leaf l =>
    constructor
    · rintro ⟨ps,hps,hnil⟩
      cases hnil
      exact absurd hps (l.conditions_ne_nil s)
    · exact fun h => absurd h (by simp [nullable])
  | alternation _ _ ihl ihr => rw [language, Language.mem_add, ihl, ihr, nullable, Bool.or_eq_true]
  | concatenation _ _ ihl ihr =>
    rw [language, nullable, Bool.and_eq_true, ← ihl, ← ihr, Language.mem_mul]
    simp
  | optional greedy _ ih =>
    rw [language_option, Language.mem_add]
    simp [nullable]
  | star greedy _ ih => simp [language_star, nullable, Language.nil_mem_kstar]
  | plus greedy _ ih => simp [language_plus, nullable, Language.mem_mul, ih, Language.nil_mem_kstar]

end Term
end ByteAutomata
