import ByteAutomata.Proofs.Builder.Search

/-! # Repetitions of one kind

Where all repetitions are greedy, or all of them reluctant, the place of the empty match among the
matches of an operand is known, so the operands of a concatenation suit each other under
conditions that name nothing but which operands can be skipped. -/
namespace ByteAutomata
namespace Term
variable {s : BuilderSettings} {e l r : Term} {p : Nat → Option Nat → Bool → Term → Bool}
variable {P Q : Term → Term → Prop}

section Conditions

/-- A productive term whose repetitions, alternations and concatenations each meet a condition. -/
structure Meets (p : Nat → Option Nat → Bool → Term → Bool) (P Q : Term → Term → Prop)
    (e : Term) : Prop where
  repetitions : e.everyRepetition p = true
  productive : e.isProductive = true
  alternations : e.EachAlternation P
  concatenations : e.EachConcatenation Q

theorem Meets.alternation (h : (alternation l r).Meets p P Q) :
    P l r ∧ l.Meets p P Q ∧ r.Meets p P Q := by
  obtain ⟨hrepetitions,hproductive,⟨hlr,hal,har⟩,hcl,hcr⟩ := h
  obtain ⟨hl,hr⟩ := (Bool.and_eq_true _ _).mp hrepetitions
  obtain ⟨hl',hr'⟩ := (Bool.and_eq_true _ _).mp hproductive
  exact ⟨hlr,⟨hl,hl',hal,hcl⟩,⟨hr,hr',har,hcr⟩⟩

theorem Meets.concatenation (h : (concatenation l r).Meets p P Q) :
    Q l r ∧ l.Meets p P Q ∧ r.Meets p P Q := by
  obtain ⟨hrepetitions,hproductive,⟨hal,har⟩,hlr,hcl,hcr⟩ := h
  obtain ⟨hl,hr⟩ := (Bool.and_eq_true _ _).mp hrepetitions
  obtain ⟨hl',hr'⟩ := (Bool.and_eq_true _ _).mp hproductive
  exact ⟨hlr,⟨hl,hl',hal,hcl⟩,⟨hr,hr',har,hcr⟩⟩

theorem Meets.operand {min : Nat} {max : Option Nat} {greedy : Bool}
    (h : (repetition min max greedy e).Meets p P Q) :
    p min max greedy e = true ∧ (max = none → e.nullable = false) ∧ e.Meets p P Q := by
  obtain ⟨hrepetitions,hproductive,ha,hc⟩ := h
  obtain ⟨hp,he⟩ := (Bool.and_eq_true _ _).mp hrepetitions
  obtain ⟨hround,he'⟩ := (Bool.and_eq_true _ _).mp hproductive
  refine ⟨hp,?_,he,he',ha,hc⟩
  rintro rfl
  simpa using hround

/-- A condition on operands that follows from what they meet themselves. -/
theorem Meets.eachConcatenation {R : Term → Term → Prop} (h : e.Meets p P Q) (hb : e.IsBasic)
    (hsuits : ∀ l r : Term, l.IsBasic → r.IsBasic → l.Meets p P Q → r.Meets p P Q → Q l r → R l r) :
    e.EachConcatenation R := by
  induction hb with
  | leaf l => trivial
  | alternation hl hr ihl ihr =>
    obtain ⟨-,hml,hmr⟩ := h.alternation
    exact ⟨ihl hml,ihr hmr⟩
  | concatenation hl hr ihl ihr =>
    obtain ⟨hlr,hml,hmr⟩ := h.concatenation
    exact ⟨hsuits _ _ hl hr hml hmr hlr,ihl hml,ihr hmr⟩
  | optional greedy hb ih | star greedy hb ih | plus greedy hb ih => exact ih h.operand.2.2

end Conditions

section Greedy

/-- A greedy term is left without a byte as a last resort, unless an alternative that can be
skipped stands before another one. -/
theorem emptyLast_of_isGreedy (hb : e.IsBasic)
    (h : e.Meets (fun _ _ greedy _ => greedy) (fun l _ => l.nullable = false)
      fun l r => l.nullable = false ∨ r.nullable = false) : e.EmptyLast s := by
  induction hb with
  | leaf l => exact emptyLast_of_not_nullable (.leaf l) rfl
  | @alternation l r hl hr ihl ihr =>
    obtain ⟨hn,-,hmr⟩ := h.alternation
    intro text
    have hnew : text ∉ l.rests s text := fun h =>
      Nat.lt_irrefl _ (length_lt_of_mem_rests hl hn text text h)
    exact LastIn.append hnew (ihr hmr text)
  | @concatenation l r hl hr ihl ihr =>
    have hn : (concatenation l r).nullable = false := by
      rcases h.concatenation.1 with hn | hn <;> simp [hn]
    exact emptyLast_of_not_nullable (.concatenation hl hr) hn
  | @optional greedy e hb ih =>
    obtain ⟨rfl,-,hme⟩ := h.operand
    intro text
    rw [rests_option, furtherRounds_succ, if_pos rfl, furtherRounds_zero,
      List.flatMap_singleton']
    exact (ih hme text).append_self
  | @star greedy e hb ih =>
    obtain ⟨rfl,-⟩ := h.operand
    intro text
    rw [rests_star, endlessRounds_eq, if_pos rfl]
    refine LastIn.append_self (lastIn_of_notMem fun h => ?_)
    obtain ⟨rest,hrest,htext⟩ := List.mem_flatMap.mp h
    have hsuffix := suffix_of_mem_endlessRounds e.suffix_of_mem_rests rest text htext
    have hlt := length_lt_of_mem_shorten _ hrest
    exact Nat.lt_irrefl _ (Nat.lt_of_le_of_lt hsuffix.length_le hlt)
  | @plus greedy e hb ih =>
    obtain ⟨-,hround,-⟩ := h.operand
    have hn : (repetition 1 none greedy e).nullable = false := by simp [hround rfl]
    exact emptyLast_of_not_nullable (.plus greedy hb) hn

theorem suits_of_isGreedy (hb : e.IsBasic)
    (h : e.Meets (fun _ _ greedy _ => greedy) (fun l _ => l.nullable = false)
      fun l r => l.nullable = false ∨ r.nullable = false) : e.EachConcatenation (Suits s) := by
  refine h.eachConcatenation hb fun l r _ hr _ hmr hlr => ?_
  rcases hlr with hn | hn
  · exact Or.inr (Or.inl ⟨yields_of_not_nullable hn,emptyLast_of_isGreedy hr hmr⟩)
  · exact Or.inl hn

end Greedy

section Reluctant

/-- The gap of a reluctant term that can be skipped comes first. -/
theorem emptyFirst_of_isReluctant (hb : e.IsBasic)
    (h : e.Meets (fun _ _ greedy _ => !greedy) (fun l r => r.nullable = true → l.nullable = true)
      fun l r => r.nullable = true → l.nullable = true)
    (hn : e.nullable = true) (base : Nat) :
    e.EmptyFirst s ∧ (e.front s base).skip = some 0 := by
  induction hb generalizing base with
  | leaf l => cases hn
  | @alternation l r hl hr ihl ihr =>
    obtain ⟨hlr,hml,-⟩ := h.alternation
    have hnl : l.nullable = true := ((Bool.or_eq_true _ _).mp hn).elim id hlr
    obtain ⟨hfirst,hskip⟩ := ihl hml hnl base
    refine ⟨fun text => ?_,?_⟩
    · rw [rests, List.head?_append, hfirst text]
      rfl
    · rw [front, Gap.skip_alternate, hskip]
  | @concatenation l r hl hr ihl ihr =>
    obtain ⟨-,hml,hmr⟩ := h.concatenation
    obtain ⟨hnl,hnr⟩ := (Bool.and_eq_true _ _).mp hn
    obtain ⟨hfirst,hskip⟩ := ihl hml hnl base
    obtain ⟨hfirst',hskip'⟩ := ihr hmr hnr (base + l.width s)
    refine ⟨fun text => ?_,?_⟩
    · obtain ⟨after,hrests⟩ := List.head?_eq_some_iff.mp (hfirst text)
      rw [rests, hrests, List.flatMap_cons, List.head?_append, hfirst' text]
      rfl
    · rw [front, Gap.skip_sequence, hskip, hskip']
  | @optional greedy e hb ih =>
    obtain rfl : greedy = false := (Bool.not_eq_true' greedy).mp h.operand.1
    refine ⟨fun text => ?_,?_⟩
    · rw [rests_option, furtherRounds_succ]
      rfl
    · rw [front, if_pos rfl, Gap.skip_optional]
      rfl
  | @star greedy e hb ih =>
    obtain rfl : greedy = false := (Bool.not_eq_true' greedy).mp h.operand.1
    refine ⟨fun text => ?_,?_⟩
    · rw [rests_star, endlessRounds_eq]
      rfl
    · rw [front, if_pos rfl, Gap.skip_optional]
      rfl
  | @plus greedy e hb ih =>
    have hround := h.operand.2.1 rfl
    simp [hround] at hn

theorem suits_of_isReluctant (hb : e.IsBasic)
    (h : e.Meets (fun _ _ greedy _ => !greedy) (fun l r => r.nullable = true → l.nullable = true)
      fun l r => r.nullable = true → l.nullable = true) : e.EachConcatenation (Suits s) := by
  refine h.eachConcatenation hb fun l r hl hr hml hmr hlr => ?_
  cases hnr : r.nullable with
  | false => exact Or.inl hnr
  | true =>
    obtain ⟨-,hskip⟩ := emptyFirst_of_isReluctant (s := s) hl hml (hlr hnr) 0
    obtain ⟨hfirst,hskip'⟩ := emptyFirst_of_isReluctant (s := s) hr hmr hnr 0
    have hyields : l.yields s r = true := by
      rw [yields, hskip, hskip']
      rfl
    exact Or.inr (Or.inr ⟨hyields,hfirst⟩)

end Reluctant

end Term

namespace Builder
variable {b b' : Builder} {t : Tree} {x e' : Term} {z : Leaf}

/-- Greedy repetitions prefer to go on, as long as no two operands that can be skipped stand side
by side and no alternative that can be skipped stands before another one. -/
theorem matchEnd_of_isGreedy (ht : t.WellFormed)
    (hspells : t.Spells (.concatenation x (.leaf z)))
    (hunroll : (Term.concatenation x (.leaf z)).unroll = some e') (hg : e'.isGreedy = true)
    (hp : e'.isProductive = true) (ha : e'.EachAlternation fun l _ => l.nullable = false)
    (hc : e'.EachConcatenation fun l r => l.nullable = false ∨ r.nullable = false)
    (h : b.build t = (.ok (),b')) (text : List UInt8) (start : Nat) :
    b'.graph.matchEnd text start =
      ((Term.concatenation x (.leaf z)).matchEnds b.settings text start).head? :=
  matchEnd_of_suits ht hspells hunroll hp
    (Term.suits_of_isGreedy (Term.isBasic_of_unroll hunroll) ⟨hg,hp,ha,hc⟩) h text start

end Builder

/-- What comes before the `d` in `a?bc*d`. -/
def Term.optionThenLoop : Term :=
  .concatenation
    (.concatenation (.repetition 0 (some 1) true (.leaf (.literal 97))) (.leaf (.literal 98)))
    (.repetition 0 none true (.leaf (.literal 99)))

def Tree.optionThenLoop : Tree where
  nodes := #[{ kind := .literal 97 },.repetition 0 0 (some 1) true,{ kind := .literal 98 },
    .concatenation 1 2,{ kind := .literal 99 },.repetition 4 0 none true,.concatenation 3 5,
    { kind := .literal 100 },.concatenation 6 7,.regexp 8]
  root := some 9

theorem Builder.matchEnd_optionThenLoop :
    ∃ b', ({} : Builder).build Tree.optionThenLoop = (.ok (),b') ∧
      ∀ text start, b'.graph.matchEnd text start =
        ((Term.concatenation .optionThenLoop (.leaf (.literal 100))).matchEnds {} text
          start).head? := by
  have hok : (({} : Builder).build Tree.optionThenLoop).1 = .ok () := by decide +kernel
  obtain ⟨b',hbuild⟩ : ∃ b', ({} : Builder).build Tree.optionThenLoop = (.ok (),b') :=
    ⟨_,Prod.ext hok rfl⟩
  have ht : Tree.optionThenLoop.WellFormed := .of_forall rfl rfl (by decide)
  have hspells : Tree.optionThenLoop.Spells
      (.concatenation .optionThenLoop (.leaf (.literal 100))) :=
    ⟨9,8,rfl,rfl,.concatenation rfl
      (.concatenation rfl (.concatenation rfl (.repetition rfl (.leaf rfl)) (.leaf rfl))
        (.repetition rfl (.leaf rfl))) (.leaf rfl)⟩
  have hends := Builder.matchEnd_of_isGreedy ht hspells rfl rfl rfl
    ⟨⟨⟨trivial,trivial⟩,trivial⟩,trivial⟩
    ⟨Or.inr rfl,⟨Or.inl rfl,⟨Or.inr rfl,trivial,trivial⟩,trivial⟩,trivial⟩ hbuild
  exact ⟨b',hbuild,hends⟩

/-- The tree of `a?b?b`. -/
def Tree.consecutiveOptions : Tree where
  nodes := #[{ kind := .literal 97 },.repetition 0 0 (some 1) true,{ kind := .literal 98 },
    .repetition 2 0 (some 1) true,.concatenation 1 3,{ kind := .literal 98 },.concatenation 4 5,
    .regexp 6]
  root := some 7

/-- Behind the first of two greedy options, what follows both is preferred to the second one. -/
theorem Builder.matchEnd_consecutiveOptions :
    ∃ x z e' b', Tree.consecutiveOptions.WellFormed ∧
      Tree.consecutiveOptions.Spells (.concatenation x (.leaf z)) ∧
      (Term.concatenation x (.leaf z)).unroll = some e' ∧ e'.isGreedy = true ∧
      e'.isProductive = true ∧ ({} : Builder).build Tree.consecutiveOptions = (.ok (),b') ∧
      b'.graph.matchEnd [97,98,98] 0 = some 2 ∧
      ((Term.concatenation x (.leaf z)).matchEnds {} [97,98,98] 0).head? = some 3 := by
  have hok : (({} : Builder).build Tree.consecutiveOptions).1 = .ok () := by decide +kernel
  have hbuild : ({} : Builder).build Tree.consecutiveOptions = (.ok (),_) := Prod.ext hok rfl
  have ht : Tree.consecutiveOptions.WellFormed := .of_forall rfl rfl (by decide)
  have hspells : Tree.consecutiveOptions.Spells (.concatenation
      (.concatenation (.repetition 0 (some 1) true (.leaf (.literal 97)))
        (.repetition 0 (some 1) true (.leaf (.literal 98)))) (.leaf (.literal 98))) :=
    ⟨7,6,rfl,rfl,.concatenation rfl
      (.concatenation rfl (.repetition rfl (.leaf rfl)) (.repetition rfl (.leaf rfl)))
      (.leaf rfl)⟩
  have hfound : (({} : Builder).build Tree.consecutiveOptions).2.graph.matchEnd [97,98,98] 0 =
      some 2 := by decide +kernel
  exact ⟨_,_,_,_,ht,hspells,rfl,rfl,rfl,hbuild,hfound,by decide +kernel⟩

/-- Reluctant repetitions prefer to stop, as long as an operand that can be skipped stands behind
one that can be skipped too. -/
theorem Builder.matchEnd_of_isReluctant {b b' : Builder} {t : Tree} {x e' : Term} {z : Leaf}
    (ht : t.WellFormed) (hspells : t.Spells (.concatenation x (.leaf z)))
    (hunroll : (Term.concatenation x (.leaf z)).unroll = some e') (hg : e'.isReluctant = true)
    (hp : e'.isProductive = true)
    (ha : e'.EachAlternation fun l r => r.nullable = true → l.nullable = true)
    (hc : e'.EachConcatenation fun l r => r.nullable = true → l.nullable = true)
    (h : b.build t = (.ok (),b')) (text : List UInt8) (start : Nat) :
    b'.graph.matchEnd text start =
      ((Term.concatenation x (.leaf z)).matchEnds b.settings text start).head? :=
  matchEnd_of_suits ht hspells hunroll hp
    (Term.suits_of_isReluctant (Term.isBasic_of_unroll hunroll) ⟨hg,hp,ha,hc⟩) h text start

/-- What comes before the `c` in `a??b*?c`. -/
def Term.reluctantOptions : Term :=
  .concatenation (.repetition 0 (some 1) false (.leaf (.literal 97)))
    (.repetition 0 none false (.leaf (.literal 98)))

def Tree.reluctantOptions : Tree where
  nodes := #[{ kind := .literal 97 },.repetition 0 0 (some 1) false,{ kind := .literal 98 },
    .repetition 2 0 none false,.concatenation 1 3,{ kind := .literal 99 },.concatenation 4 5,
    .regexp 6]
  root := some 7

theorem Builder.matchEnd_reluctantOptions :
    ∃ b', ({} : Builder).build Tree.reluctantOptions = (.ok (),b') ∧
      ∀ text start, b'.graph.matchEnd text start =
        ((Term.concatenation .reluctantOptions (.leaf (.literal 99))).matchEnds {} text
          start).head? := by
  have hok : (({} : Builder).build Tree.reluctantOptions).1 = .ok () := by decide +kernel
  obtain ⟨b',hbuild⟩ : ∃ b', ({} : Builder).build Tree.reluctantOptions = (.ok (),b') :=
    ⟨_,Prod.ext hok rfl⟩
  have ht : Tree.reluctantOptions.WellFormed := .of_forall rfl rfl (by decide)
  have hspells : Tree.reluctantOptions.Spells
      (.concatenation .reluctantOptions (.leaf (.literal 99))) :=
    ⟨7,6,rfl,rfl,.concatenation rfl
      (.concatenation rfl (.repetition rfl (.leaf rfl)) (.repetition rfl (.leaf rfl)))
      (.leaf rfl)⟩
  have hends := Builder.matchEnd_of_isReluctant ht hspells rfl rfl rfl
    ⟨⟨trivial,trivial⟩,trivial⟩
    ⟨fun h => absurd h (by decide),⟨fun _ => rfl,trivial,trivial⟩,trivial⟩ hbuild
  exact ⟨b',hbuild,hends⟩

/-- The tree of `ab*?b`. -/
def Tree.reluctantLoop : Tree where
  nodes := #[{ kind := .literal 97 },{ kind := .literal 98 },.repetition 1 0 none false,
    .concatenation 0 2,{ kind := .literal 98 },.concatenation 3 4,.regexp 5]
  root := some 6

/-- Behind an operand that cannot be skipped, another round is preferred to what follows. -/
theorem Builder.matchEnd_reluctantLoop :
    ∃ x z e' b', Tree.reluctantLoop.WellFormed ∧
      Tree.reluctantLoop.Spells (.concatenation x (.leaf z)) ∧
      (Term.concatenation x (.leaf z)).unroll = some e' ∧ e'.isReluctant = true ∧
      e'.isProductive = true ∧ ({} : Builder).build Tree.reluctantLoop = (.ok (),b') ∧
      b'.graph.matchEnd [97,98,98] 0 = some 3 ∧
      ((Term.concatenation x (.leaf z)).matchEnds {} [97,98,98] 0).head? = some 2 := by
  have hok : (({} : Builder).build Tree.reluctantLoop).1 = .ok () := by decide +kernel
  have hbuild : ({} : Builder).build Tree.reluctantLoop = (.ok (),_) := Prod.ext hok rfl
  have ht : Tree.reluctantLoop.WellFormed := .of_forall rfl rfl (by decide)
  have hspells : Tree.reluctantLoop.Spells (.concatenation
      (.concatenation (.leaf (.literal 97)) (.repetition 0 none false (.leaf (.literal 98))))
      (.leaf (.literal 98))) :=
    ⟨6,5,rfl,rfl,.concatenation rfl
      (.concatenation rfl (.leaf rfl) (.repetition rfl (.leaf rfl))) (.leaf rfl)⟩
  have hfound : (({} : Builder).build Tree.reluctantLoop).2.graph.matchEnd [97,98,98] 0 =
      some 3 := by decide +kernel
  exact ⟨_,_,_,_,ht,hspells,rfl,rfl,rfl,hbuild,hfound,by decide +kernel⟩

end ByteAutomata
