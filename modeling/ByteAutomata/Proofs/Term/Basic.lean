import ByteAutomata.ByteSet

/-! # Terms

A term is what a node of a tree stands for when a shared node is read once for each of its
parents. Unrolling a term leaves the three basic repetitions only. -/
namespace ByteAutomata

inductive Leaf where
  | literal (codePoint : Nat)
  | dot
  | charClass (set : ByteSet)
deriving DecidableEq

inductive Term where
  | leaf (l : Leaf)
  | alternation (left right : Term)
  | concatenation (left right : Term)
  /-- Between `min` and `max` rounds of the operand, without end if `max` is missing. -/
  | repetition (min : Nat) (max : Option Nat) (greedy : Bool) (operand : Term)
deriving DecidableEq

namespace Term

/-- Whether the empty string belongs to the term. -/
@[simp] def nullable : Term → Bool
  | leaf _ => false
  | alternation l r => l.nullable || r.nullable
  | concatenation l r => l.nullable && r.nullable
  | repetition min _ _ e => min == 0 || e.nullable

@[simp] def everyRepetition (p : Nat → Option Nat → Bool → Term → Bool) : Term → Bool
  | leaf _ => true
  | alternation l r => l.everyRepetition p && r.everyRepetition p
  | concatenation l r => l.everyRepetition p && r.everyRepetition p
  | repetition min max greedy e => p min max greedy e && e.everyRepetition p

@[simp] def EachAlternation (p : Term → Term → Prop) : Term → Prop
  | leaf _ => True
  | alternation l r => p l r ∧ l.EachAlternation p ∧ r.EachAlternation p
  | concatenation l r => l.EachAlternation p ∧ r.EachAlternation p
  | repetition _ _ _ e => e.EachAlternation p

@[simp] def EachConcatenation (p : Term → Term → Prop) : Term → Prop
  | leaf _ => True
  | alternation l r => l.EachConcatenation p ∧ r.EachConcatenation p
  | concatenation l r => p l r ∧ l.EachConcatenation p ∧ r.EachConcatenation p
  | repetition _ _ _ e => e.EachConcatenation p

def isGreedy (e : Term) : Bool := e.everyRepetition fun _ _ greedy _ => greedy

/-- No repetition is greedy. -/
def isReluctant (e : Term) : Bool := e.everyRepetition fun _ _ greedy _ => !greedy

/-- Every round of an unbounded repetition takes at least one byte. -/
def isProductive (e : Term) : Bool :=
  e.everyRepetition fun _ max _ operand => max.isSome || !operand.nullable

/-- `count` copies of `e` before `tail`. -/
@[simp] def copies (e : Term) : Nat → Term → Term
  | 0, tail => tail
  | count + 1, tail => .concatenation e (e.copies count tail)

/-- `count + 1` nested optional occurrences of `e`. -/
@[simp] def options (e : Term) (greedy : Bool) : Nat → Term
  | 0 => .repetition 0 (some 1) greedy e
  | count + 1 => .repetition 0 (some 1) greedy (.concatenation e (e.options greedy count))

/-- What `e{min,max}` stands for, if there can be a round at all. -/
def unrollRepetition (e : Term) (min : Nat) (max : Option Nat) (greedy : Bool) : Option Term :=
  match min, max with
  | 0, some 0 => none
  | 1, some 1 => some e
  | 0, some 1 | 0, none | 1, none => some (.repetition min max greedy e)
  | min, none => some (e.copies (min - 1) (.repetition 1 none greedy e))
  | min, some max =>
    if max < min then none
    else if max = min then some (e.copies (min - 1) e)
    else some (e.copies min (e.options greedy (max - min - 1)))

/-- The term in which every repetition is a basic one. -/
@[simp] def unroll : Term → Option Term
  | leaf l => some (leaf l)
  | alternation l r => do return alternation (← l.unroll) (← r.unroll)
  | concatenation l r => do return concatenation (← l.unroll) (← r.unroll)
  | repetition min max greedy e => do (← e.unroll).unrollRepetition min max greedy

/-- Every repetition is one of `?`, `*` and `+`. -/
inductive IsBasic : Term → Prop where
  | leaf (l : Leaf) : IsBasic (.leaf l)
  | alternation {l r : Term} : IsBasic l → IsBasic r → IsBasic (.alternation l r)
  | concatenation {l r : Term} : IsBasic l → IsBasic r → IsBasic (.concatenation l r)
  | optional (greedy : Bool) {e : Term} : IsBasic e → IsBasic (.repetition 0 (some 1) greedy e)
  | star (greedy : Bool) {e : Term} : IsBasic e → IsBasic (.repetition 0 none greedy e)
  | plus (greedy : Bool) {e : Term} : IsBasic e → IsBasic (.repetition 1 none greedy e)

/-- The four ways to unroll a repetition; `?`, `+` and a single round are instances of them. -/
theorem unrollRepetition_cases {e e' : Term} {min : Nat} {max : Option Nat} {greedy : Bool}
    (h : e.unrollRepetition min max greedy = some e') :
    (min = 0 ∧ max = none ∧ e' = .repetition 0 none greedy e) ∨
    (∃ n, min = n + 1 ∧ max = none ∧ e' = e.copies n (.repetition 1 none greedy e)) ∨
    (∃ n, min = n + 1 ∧ max = some (n + 1) ∧ e' = e.copies n e) ∨
    ∃ n, max = some (min + n + 1) ∧ e' = e.copies min (e.options greedy n) := by
  unfold unrollRepetition at h
  split at h
  · simp at h
  · exact Or.inr (Or.inr (Or.inl ⟨0,rfl,rfl,(Option.some.inj h).symm⟩))
  · exact Or.inr (Or.inr (Or.inr ⟨0,rfl,(Option.some.inj h).symm⟩))
  · exact Or.inl ⟨rfl,rfl,(Option.some.inj h).symm⟩
  · exact Or.inr (Or.inl ⟨0,rfl,rfl,(Option.some.inj h).symm⟩)
  · rename_i hmin _
    cases min with
    | zero => simp at hmin
    | succ n => exact Or.inr (Or.inl ⟨n,rfl,rfl,(Option.some.inj h).symm⟩)
  · rename_i m hzero _ _
    split at h
    · simp at h
    · rename_i hle
      split at h
      · rename_i he
        subst he
        cases m with
        | zero => simp at hzero
        | succ n => exact Or.inr (Or.inr (Or.inl ⟨n,rfl,rfl,(Option.some.inj h).symm⟩))
      · rename_i hne
        refine Or.inr (Or.inr (Or.inr ⟨m - min - 1,?_,(Option.some.inj h).symm⟩))
        congr 1
        omega

/-- A repetition cannot be unrolled when its bounds are reversed or allow no round. -/
theorem unrollRepetition_eq_none {e : Term} {min : Nat} {max : Option Nat} {greedy : Bool} :
    e.unrollRepetition min max greedy = none ↔ ∃ m, max = some m ∧ (m < min ∨ m = 0) := by
  unfold unrollRepetition
  split
  · simp
  · simp
  · simp
  · simp
  · simp
  · simp
  · rename_i m hzero _ _
    simp only [Option.some.injEq, exists_eq_left']
    split
    · simp [*]
    · rename_i hle
      split
      · rename_i he
        subst he
        have hne : m ≠ 0 := fun h => hzero h h
        simp [hne]
      · simp
        omega

theorem IsBasic.operand {e : Term} {min : Nat} {max : Option Nat} {greedy : Bool}
    (h : (repetition min max greedy e).IsBasic) : e.IsBasic := by
  cases h <;> assumption

theorem IsBasic.copies {e tail : Term} (he : e.IsBasic) (ht : tail.IsBasic) (count : Nat) :
    (e.copies count tail).IsBasic := by
  induction count with
  | zero => exact ht
  | succ count ih => exact .concatenation he ih

theorem IsBasic.options {e : Term} (he : e.IsBasic) (greedy : Bool) (count : Nat) :
    (e.options greedy count).IsBasic := by
  induction count with
  | zero => exact .optional greedy he
  | succ count ih => exact .optional greedy (.concatenation he ih)

theorem IsBasic.unrollRepetition {e e' : Term} {min : Nat} {max : Option Nat} {greedy : Bool}
    (he : e.IsBasic) (h : e.unrollRepetition min max greedy = some e') : e'.IsBasic := by
  obtain ⟨rfl,rfl,rfl⟩ | ⟨n,rfl,rfl,rfl⟩ | ⟨n,rfl,rfl,rfl⟩ | ⟨n,rfl,rfl⟩ :=
    unrollRepetition_cases h
  · exact .star greedy he
  · exact he.copies (.plus greedy he) n
  · exact he.copies he n
  · exact he.copies (he.options greedy n) min

theorem unroll_alternation {l r e' : Term} : (alternation l r).unroll = some e' ↔
    ∃ l' r', l.unroll = some l' ∧ r.unroll = some r' ∧ e' = alternation l' r' := by
  simp only [unroll, Option.bind_eq_bind, Option.bind_eq_some_iff, Option.pure_def,
    Option.some.injEq]
  exact ⟨fun ⟨l',hl,r',hr,h⟩ => ⟨l',r',hl,hr,h.symm⟩,fun ⟨l',r',hl,hr,h⟩ => ⟨l',hl,r',hr,h.symm⟩⟩

theorem unroll_concatenation {l r e' : Term} : (concatenation l r).unroll = some e' ↔
    ∃ l' r', l.unroll = some l' ∧ r.unroll = some r' ∧ e' = concatenation l' r' := by
  simp only [unroll, Option.bind_eq_bind, Option.bind_eq_some_iff, Option.pure_def,
    Option.some.injEq]
  exact ⟨fun ⟨l',hl,r',hr,h⟩ => ⟨l',r',hl,hr,h.symm⟩,fun ⟨l',r',hl,hr,h⟩ => ⟨l',hl,r',hr,h.symm⟩⟩

theorem unroll_alternation_eq_none {l r : Term} :
    (alternation l r).unroll = none ↔ l.unroll = none ∨ r.unroll = none := by
  rw [unroll]
  cases l.unroll <;> cases r.unroll <;> simp

theorem unroll_concatenation_eq_none {l r : Term} :
    (concatenation l r).unroll = none ↔ l.unroll = none ∨ r.unroll = none := by
  rw [unroll]
  cases l.unroll <;> cases r.unroll <;> simp

theorem unroll_repetition {e e' : Term} {min : Nat} {max : Option Nat} {greedy : Bool} :
    (repetition min max greedy e).unroll = some e' ↔
      ∃ e₀, e.unroll = some e₀ ∧ e₀.unrollRepetition min max greedy = some e' := by
  simp only [unroll, Option.bind_eq_bind, Option.bind_eq_some_iff]

theorem unroll_repetition_eq_none {e : Term} {min : Nat} {max : Option Nat} {greedy : Bool} :
    (repetition min max greedy e).unroll = none ↔
      e.unroll = none ∨ ∃ m, max = some m ∧ (m < min ∨ m = 0) := by
  rw [unroll]
  cases e.unroll with
  | none => simp
  | some e' => simp [unrollRepetition_eq_none]

theorem isBasic_of_unroll {e e' : Term} (h : e.unroll = some e') : e'.IsBasic := by
  induction e generalizing e' with
  | leaf l =>
    cases h
    exact .leaf l
  | alternation l r ihl ihr =>
    obtain ⟨l',r',hl,hr,rfl⟩ := unroll_alternation.mp h
    exact .alternation (ihl hl) (ihr hr)
  | concatenation l r ihl ihr =>
    obtain ⟨l',r',hl,hr,rfl⟩ := unroll_concatenation.mp h
    exact .concatenation (ihl hl) (ihr hr)
  | repetition min max greedy e ih =>
    obtain ⟨e₀,he,h⟩ := unroll_repetition.mp h
    exact (ih he).unrollRepetition h

end Term
end ByteAutomata
