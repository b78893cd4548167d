import Mathlib.Algebra.BigOperators.Ring.List
import ByteAutomata.Proofs.Builder.CaseVariants

/-! # Languages without case

A term that is read without case matches the strings that it matches with case, in which any letters
may be in their other case. Ignoring the case goes through all operations on languages, so it does
not matter whether it is done for single bytes or for the whole. -/
namespace ByteAutomata

/-- The strings of a language with any of their letters in the other case. -/
def ignoringCase (l : Language UInt8) : Language UInt8 :=
  {w | ∃ u ∈ l, List.Forall₂ (fun b x => x = b ∨ x = otherCase b) u w}

section Operations
variable (l m : Language UInt8)

theorem mem_ignoringCase {l : Language UInt8} {w : List UInt8} : w ∈ ignoringCase l ↔
    ∃ u ∈ l, List.Forall₂ (fun b x => x = b ∨ x = otherCase b) u w := Iff.rfl

theorem ignoringCase_zero : ignoringCase 0 = 0 := by
  ext w
  refine iff_of_false ?_ (Language.notMem_zero w)
  rintro ⟨u,hu,-⟩
  exact Language.notMem_zero u hu

theorem ignoringCase_one : ignoringCase 1 = 1 := by
  ext w
  simp [mem_ignoringCase, Language.mem_one]

theorem ignoringCase_add : ignoringCase (l + m) = ignoringCase l + ignoringCase m := by
  ext w
  simp only [mem_ignoringCase, Language.mem_add, or_and_right, exists_or]

theorem forall₂_append_left {α β : Type} {R : α → β → Prop} {us vs : List α} {w : List β} :
    List.Forall₂ R (us ++ vs) w ↔
      ∃ a b, List.Forall₂ R us a ∧ List.Forall₂ R vs b ∧ w = a ++ b := by
  induction us generalizing w with
  | nil => simp
  | cons u us ih =>
    rw [List.cons_append, List.forall₂_cons_left_iff]
    constructor
    · rintro ⟨x,rest,hx,hrest,rfl⟩
      obtain ⟨a,b,ha,hb,rfl⟩ := ih.mp hrest
      exact ⟨x :: a,b,.cons hx ha,hb,rfl⟩
    · rintro ⟨a,b,ha,hb,rfl⟩
      obtain ⟨x,rest,hx,hrest,rfl⟩ := List.forall₂_cons_left_iff.mp ha
      exact ⟨x,rest ++ b,hx,ih.mpr ⟨rest,b,hrest,hb,rfl⟩,rfl⟩

theorem ignoringCase_mul : ignoringCase (l * m) = ignoringCase l * ignoringCase m := by
  ext w
  rw [mem_ignoringCase, Language.mem_mul]
  constructor
  · rintro ⟨u,hu,hw⟩
    obtain ⟨a,ha,b,hb,rfl⟩ := Language.mem_mul.mp hu
    obtain ⟨x,y,hx,hy,rfl⟩ := forall₂_append_left.mp hw
    exact ⟨x,⟨a,ha,hx⟩,y,⟨b,hb,hy⟩,rfl⟩
  · rintro ⟨x,⟨a,ha,hx⟩,y,⟨b,hb,hy⟩,rfl⟩
    exact ⟨a ++ b,Language.append_mem_mul ha hb,forall₂_append_left.mpr ⟨x,y,hx,hy,rfl⟩⟩

theorem ignoringCase_pow (n : Nat) : ignoringCase (l ^ n) = ignoringCase l ^ n := by
  induction n with
  | zero => rw [pow_zero, pow_zero, ignoringCase_one]
  | succ n ih => rw [pow_succ, pow_succ, ignoringCase_mul, ih]

theorem ignoringCase_powers (min : Nat) (max : Option Nat) :
    ignoringCase (powers l min max) = powers (ignoringCase l) min max := by
  ext w
  simp only [mem_powers, ← ignoringCase_pow]
  constructor
  · rintro ⟨u,⟨k,hmin,hmax,hu⟩,hw⟩
    exact ⟨k,hmin,hmax,u,hu,hw⟩
  · rintro ⟨k,hmin,hmax,u,hu,hw⟩
    exact ⟨u,⟨k,hmin,hmax,hu⟩,hw⟩

theorem ignoringCase_sum (ls : List (Language UInt8)) :
    ignoringCase ls.sum = (ls.map ignoringCase).sum := by
  induction ls with
  | nil => exact ignoringCase_zero
  | cons l ls ih => rw [List.sum_cons, ignoringCase_add, ih, List.map_cons, List.sum_cons]

theorem ignoringCase_prod (ls : List (Language UInt8)) :
    ignoringCase ls.prod = (ls.map ignoringCase).prod := by
  induction ls with
  | nil => exact ignoringCase_one
  | cons l ls ih => rw [List.prod_cons, ignoringCase_mul, ih, List.map_cons, List.prod_cons]

theorem mem_ignoringCase_singleton {u w : List UInt8} : w ∈ ignoringCase {u} ↔
    List.Forall₂ (fun b x => x = b ∨ x = otherCase b) u w := by
  rw [mem_ignoringCase]
  constructor
  · rintro ⟨v,rfl,hw⟩
    exact hw
  · exact fun hw => ⟨u,rfl,hw⟩

/-- Bytes that are no letters are kept. -/
theorem ignoringCase_plain {bytes : List UInt8} (h : ∀ b ∈ bytes, otherCase b = b) :
    ignoringCase {bytes} = {bytes} := by
  ext w
  rw [mem_ignoringCase_singleton]
  change _ ↔ w = bytes
  induction bytes generalizing w with
  | nil => exact List.forall₂_nil_left_iff
  | cons b bytes ih =>
    obtain ⟨hb,hbytes⟩ := List.forall_mem_cons.mp h
    rw [List.forall₂_cons_left_iff]
    simp [hb, ih hbytes]

end Operations

section Terms
variable (s : BuilderSettings)

/-- Without case, a condition may hold of the other case as well. -/
theorem Leaf.conditions_caseless (l : Leaf) : l.conditions { s with caseSensitive := false } =
    (l.conditions { s with caseSensitive := true }).map
      (·.map fun p x => p x || p (otherCase x)) := by
  cases l with
  | literal n =>
    have hallows : ∀ b, BuilderSettings.allows { s with caseSensitive := false } b =
        fun x => BuilderSettings.allows { s with caseSensitive := true } b x ||
          BuilderSettings.allows { s with caseSensitive := true } b (otherCase x) := by
      intro b
      funext x
      have hother : x = otherCase b ↔ otherCase x = b :=
        ⟨fun h => by rw [h, otherCase_otherCase],fun h => by rw [← h, otherCase_otherCase]⟩
      rw [Bool.eq_iff_iff]
      simp [BuilderSettings.allows, hother]
    simp [conditions, funext hallows, Function.comp_def]
  | dot => rfl
  | charClass set => simp [conditions]

theorem Leaf.language_caseless (l : Leaf) : l.language { s with caseSensitive := false } =
    ignoringCase (l.language { s with caseSensitive := true }) := by
  have hmem : ∀ (ps : List (UInt8 → Bool)) (w : List UInt8),
      List.Forall₂ (fun p x => p x = true) (ps.map fun p x => p x || p (otherCase x)) w ↔
        ∃ u, List.Forall₂ (fun p x => p x = true) ps u ∧
          List.Forall₂ (fun b x => x = b ∨ x = otherCase b) u w := by
    intro ps
    induction ps with
    | nil => simp
    | cons p ps ih =>
      intro w
      rw [List.map_cons, List.forall₂_cons_left_iff]
      constructor
      · rintro ⟨x,rest,hx,hrest,rfl⟩
        obtain ⟨u,hu,hrest⟩ := (ih rest).mp hrest
        rcases (Bool.or_eq_true _ _).mp hx with hx | hx
        · exact ⟨x :: u,.cons hx hu,.cons (Or.inl rfl) hrest⟩
        · exact ⟨otherCase x :: u,.cons hx hu,.cons (Or.inr (otherCase_otherCase x).symm) hrest⟩
      · rintro ⟨u,hu,hw⟩
        obtain ⟨b,v,hb,hv,rfl⟩ := List.forall₂_cons_left_iff.mp hu
        obtain ⟨x,rest,hx,hrest,rfl⟩ := List.forall₂_cons_left_iff.mp hw
        refine ⟨x,rest,(Bool.or_eq_true _ _).mpr ?_,(ih rest).mpr ⟨v,hv,hrest⟩,rfl⟩
        rcases hx with rfl | rfl
        · exact Or.inl hb
        · exact Or.inr (by rwa [otherCase_otherCase])
  ext w
  change (∃ ps, l.conditions _ = some ps ∧ _) ↔ ∃ u, (∃ ps, _ ∧ _) ∧ _
  rw [conditions_caseless]
  simp only [Option.map_eq_some_iff, exists_exists_and_eq_and, hmem]
  constructor
  · rintro ⟨ps,hps,u,hu,hw⟩
    exact ⟨u,⟨ps,hps,hu⟩,hw⟩
  · rintro ⟨u,⟨ps,hps,hu⟩,hw⟩
    exact ⟨ps,hps,u,hu,hw⟩

theorem Term.language_caseless (e : Term) : e.language { s with caseSensitive := false } =
    ignoringCase (e.language { s with caseSensitive := true }) := by
  induction e with
  | leaf l => exact l.language_caseless s
  | alternation l r ihl ihr => rw [language, language, ihl, ihr, ignoringCase_add]
  | concatenation l r ihl ihr => rw [language, language, ihl, ihr, ignoringCase_mul]
  | repetition min max greedy e ih => rw [language, language, ih, ignoringCase_powers]

end Terms

end ByteAutomata
