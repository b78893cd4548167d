import ByteAutomata.Proofs.Expr.Simplified

/-! # Trimming sequences and repetitions

What trimming leaves of a sequence depends on its items only: those at the end of which nothing is
left are dropped, and the last one of the others is trimmed. This holds of tidy expressions, where
no item of a concatenation is a concatenation itself. -/
namespace ByteAutomata.Expr
variable {e : Expr} {items more : List Expr}

section Tidy

/-- A sound node whose operands are in simple form. -/
def IsTidy (e : Expr) : Prop :=
  e.IsSound ∧ match e with
    | concat items => 2 ≤ items.length ∧ ∀ d ∈ items, d.concatItems = [d]
    | alternation items => 2 ≤ items.length
    | _ => True

def Tidy (e : Expr) : Prop := e.Each IsTidy

theorem kept_isTidy : Kept IsTidy where
  sound h := h.1
  empty := ⟨trivial,trivial⟩
  literal _ := ⟨trivial,trivial⟩
  byteClass _ := ⟨trivial,trivial⟩
  charClass h := ⟨h,trivial⟩
  assertion _ := ⟨trivial,trivial⟩
  repetition h := ⟨h,trivial⟩
  capture _ _ _ := ⟨trivial,trivial⟩
  concat hlen hitems := ⟨trivial,hlen,fun d hd => by
    rcases hitems d hd with hd | ⟨more,hmem,-,-,hmore⟩
    · exact hd
    · exact hmore d hmem⟩
  alternation hlen := ⟨kept_isSound.alternation hlen,hlen⟩

theorem Tidy.wellFormed (h : e.Tidy) : e.WellFormed := Each.wellFormed kept_isTidy h

theorem Tidy.concat (h : (concat items).Tidy) :
    2 ≤ items.length ∧ (∀ d ∈ items, d.concatItems = [d]) ∧ ∀ d ∈ items, d.Tidy := by
  obtain ⟨⟨-,hlen,hsimple⟩,hitems⟩ := each_concat.mp h
  exact ⟨hlen,hsimple,hitems⟩

theorem Tidy.alternation (h : (alternation items).Tidy) :
    2 ≤ items.length ∧ ∀ d ∈ items, d.Tidy := by
  obtain ⟨⟨-,hlen⟩,hitems⟩ := each_alternation.mp h
  exact ⟨hlen,hitems⟩

theorem ne_empty_of_concatItems (h : e.concatItems = [e]) : e ≠ empty := by
  rintro rfl
  cases h

theorem IsItem.ne_empty (h : e.IsItem IsTidy) : e ≠ empty := by
  obtain ⟨-,h | ⟨more,hmem,-,-,hmore⟩⟩ := h
  · exact ne_empty_of_concatItems h
  · exact ne_empty_of_concatItems (hmore e hmem)

theorem concatItems_eq_nil (h : e.Tidy) : e.concatItems = [] ↔ e = empty := by
  cases e with
  | empty => simp [concatItems]
  | concat items =>
    have hlen := h.concat.1
    have hne : items ≠ [] := List.ne_nil_of_length_pos (Nat.lt_of_lt_of_le Nat.two_pos hlen)
    simp [concatItems, hne]
  | _ => simp [concatItems]

theorem joinLiterals_eq_nil : joinLiterals items = [] ↔ items = [] := by
  fun_cases joinLiterals items <;> simp

theorem isEmpty_iff : e.isEmpty = true ↔ e = empty := by cases e <;> simp [isEmpty]

theorem isEmpty_sequence (h : ∀ e ∈ items, e.Tidy) :
    (sequence items).isEmpty = true ↔ ∀ e ∈ items, e = empty := by
  have hflat : items.flatMap concatItems = [] ↔ ∀ e ∈ items, e = empty := by
    rw [List.flatMap_eq_nil_iff]
    exact forall₂_congr fun e he => concatItems_eq_nil (h e he)
  have hjoined : ∀ e ∈ joinLiterals (items.flatMap concatItems), e.IsItem IsTidy := by
    refine isItem_joinLiterals kept_isTidy fun d hd => ?_
    obtain ⟨e,he,hd⟩ := List.mem_flatMap.mp hd
    exact isItem_concatItems (h e he) d hd
  rw [isEmpty_iff, ← hflat, ← joinLiterals_eq_nil, sequence]
  generalize joinLiterals (items.flatMap concatItems) = joined at hjoined
  split
  · simp
  · rename_i e
    simpa using (hjoined e List.mem_cons_self).ne_empty
  · rename_i hnil _
    simpa using hnil

end Tidy

section Sequence

/-- Whether trimming leaves nothing. -/
def vanishes (e : Expr) : Bool := e.trimLazyEnd.isEmpty

/-- What is matched after trimming. -/
def trimmed (e : Expr) : Language UInt8 := e.trimLazyEnd.language

def trimmedProduct : List Expr → Language UInt8
  | [] => 1
  | e :: rest => if rest.all vanishes then e.trimmed else e.language * trimmedProduct rest

theorem trimmed_of_vanishes (h : e.vanishes = true) : e.trimmed = 1 := by
  rw [trimmed, isEmpty_iff.mp h]
  rfl

theorem trimLast_eq_nil : trimLast items = [] ↔ items.all vanishes = true := by
  induction items with
  | nil => simp [trimLast]
  | cons e rest ih =>
    rw [List.all_cons, Bool.and_eq_true, ← ih, trimLast]
    split
    · rename_i hrest
      cases hempty : e.trimLazyEnd.isEmpty <;> simp [vanishes, hrest, hempty]
    · rename_i hrest
      simpa using fun _ => hrest

theorem product_trimLast (items : List Expr) : product (trimLast items) = trimmedProduct items := by
  induction items with
  | nil => rfl
  | cons e rest ih =>
    rw [trimmedProduct, trimLast]
    split
    · rename_i hrest
      rw [if_pos (trimLast_eq_nil.mp hrest)]
      dsimp only
      split
      · rename_i hempty
        exact (trimmed_of_vanishes hempty).symm
      · exact product_singleton _
    · rename_i hrest
      rw [if_neg (mt trimLast_eq_nil.mpr hrest), product, ih]

theorem trimmed_concat (items : List Expr) : (concat items).trimmed = trimmedProduct items := by
  rw [trimmed, trimLazyEnd, language_sequence, product_trimLast]

theorem vanishes_concat (h : (concat items).Tidy) :
    (concat items).vanishes = items.all vanishes := by
  obtain ⟨-,hsimple,hitems⟩ := h.concat
  have htidy : ∀ e ∈ trimLast items, e.Tidy :=
    forall_mem_trimLast hitems fun e he _ => each_trimLazyEnd kept_isTidy (hitems e he)
  have hne : ∀ e ∈ trimLast items, e ≠ empty :=
    forall_mem_trimLast (fun e he => ne_empty_of_concatItems (hsimple e he))
      fun _ _ hleft hempty => Bool.eq_false_iff.mp hleft (isEmpty_iff.mpr hempty)
  rw [Bool.eq_iff_iff, vanishes, trimLazyEnd, isEmpty_sequence htidy, ← trimLast_eq_nil,
    List.eq_nil_iff_forall_not_mem]
  exact forall₂_congr fun e he => iff_of_false (hne e he) not_false

theorem trimmedProduct_of_vanishes (h : items.all vanishes = true) : trimmedProduct items = 1 := by
  rw [← product_trimLast, trimLast_eq_nil.mpr h]
  rfl

theorem trimmedProduct_append : trimmedProduct (items ++ more) =
    if more.all vanishes then trimmedProduct items else product items * trimmedProduct more := by
  induction items with
  | nil =>
    rw [List.nil_append, product, one_mul, trimmedProduct]
    split
    · rename_i hmore
      exact trimmedProduct_of_vanishes hmore
    · rfl
  | cons e items ih =>
    rw [List.cons_append, trimmedProduct, List.all_append, ih, trimmedProduct, product]
    cases more.all vanishes <;> simp [mul_assoc]

theorem trimmedProduct_concatItems (e : Expr) : trimmedProduct e.concatItems = e.trimmed := by
  unfold concatItems
  split
  · rfl
  · exact (trimmed_concat _).symm
  · rfl

theorem all_vanishes_concatItems (h : e.Tidy) : e.concatItems.all vanishes = e.vanishes := by
  unfold concatItems
  split
  · rfl
  · exact (vanishes_concat h).symm
  · exact Bool.and_true _

theorem all_vanishes_flatMap (h : ∀ e ∈ items, e.Tidy) :
    (items.flatMap concatItems).all vanishes = items.all vanishes := by
  induction items with
  | nil => rfl
  | cons e items ih =>
    obtain ⟨he,hitems⟩ := List.forall_mem_cons.mp h
    rw [List.flatMap_cons, List.all_append, all_vanishes_concatItems he, ih hitems, List.all_cons]

theorem trimmedProduct_flatMap (h : ∀ e ∈ items, e.Tidy) :
    trimmedProduct (items.flatMap concatItems) = trimmedProduct items := by
  induction items with
  | nil => rfl
  | cons e items ih =>
    obtain ⟨he,hitems⟩ := List.forall_mem_cons.mp h
    rw [List.flatMap_cons, trimmedProduct_append, all_vanishes_flatMap hitems, ih hitems,
      trimmedProduct_concatItems, product_concatItems, trimmedProduct]

theorem all_vanishes_joinLiterals (items : List Expr) :
    (joinLiterals items).all vanishes = items.all vanishes := by
  fun_induction joinLiterals items with
  | case1 a rest b more hrest ih => rfl
  | case2 a rest hrest ih => rfl
  | case3 e rest _ ih => rw [List.all_cons, List.all_cons, ih]
  | case4 => rfl

theorem trimmedProduct_joinLiterals (items : List Expr) :
    trimmedProduct (joinLiterals items) = trimmedProduct items := by
  fun_induction joinLiterals items with
  | case1 a rest b more hrest ih =>
    have hall := all_vanishes_joinLiterals rest
    rw [hrest] at hall ih
    rw [trimmedProduct, trimmedProduct, ← hall, ← ih, trimmedProduct]
    have hvanishes : (literal b :: more).all vanishes = false := rfl
    simp only [hvanishes, Bool.false_eq_true, if_false, trimmed, trimLazyEnd, language]
    rw [← singleton_mul_singleton, mul_ite, mul_assoc]
  | case2 a rest hrest ih => rw [trimmedProduct, trimmedProduct, ih, all_vanishes_joinLiterals]
  | case3 e rest _ ih => rw [trimmedProduct, trimmedProduct, ih, all_vanishes_joinLiterals]
  | case4 => rfl

theorem vanishes_sequence (h : ∀ e ∈ items, e.Tidy) :
    (sequence items).vanishes = items.all vanishes := by
  have htidy : (sequence items).Tidy := each_sequence kept_isTidy h
  rw [← all_vanishes_flatMap h, ← all_vanishes_joinLiterals]
  unfold sequence at htidy ⊢
  generalize joinLiterals (items.flatMap concatItems) = joined at htidy
  split
  · rfl
  · exact (Bool.and_true _).symm
  · rename_i hnil hsingle
    split at htidy
    · exact absurd rfl hnil
    · exact absurd rfl (hsingle _)
    · exact vanishes_concat htidy

theorem trimmed_sequence (h : ∀ e ∈ items, e.Tidy) :
    (sequence items).trimmed = trimmedProduct items := by
  rw [← trimmedProduct_flatMap h, ← trimmedProduct_joinLiterals, sequence]
  generalize joinLiterals (items.flatMap concatItems) = joined
  split
  · rfl
  · rfl
  · exact trimmed_concat _

end Sequence

section OnlyEmpty
variable {min : Nat} {max : Option Nat} {greedy : Bool}

theorem onlyEmpty_repeated (min : Nat) (max : Option Nat) (greedy : Bool) (e : Expr) :
    (repeated min max greedy e).onlyEmpty =
      (e.onlyEmpty || decide (min = 0 ∧ max = some 0)) := by
  rw [repeated_eq]
  unfold boundedRepetition
  cases hempty : e.onlyEmpty with
  | true =>
    rw [if_pos rfl, Bool.true_or]
    split
    · rfl
    · split
      · exact hempty
      · simp [onlyEmpty, hempty]
  | false =>
    rw [if_neg Bool.false_ne_true, Bool.false_or]
    split
    · rename_i hzero
      exact (decide_eq_true hzero).symm
    · rename_i hzero
      rw [decide_eq_false hzero]
      split
      · exact hempty
      · simp [onlyEmpty, hempty]

theorem onlyEmpty_trimLazyEnd (hwell : e.WellFormed) (h : e.onlyEmpty = true) :
    e.trimLazyEnd.onlyEmpty = true := by
  induction e with
  | empty | literal _ | byteClass _ | charClass _ | assertion _ => exact h
  | repetition min max greedy sub ih =>
    obtain ⟨-,hsub⟩ := wellFormed_repetition.mp hwell
    have hempty := ((Bool.and_eq_true _ _).mp h).2
    cases greedy with
    | true => exact h
    | false =>
      match min with
      | 0 => rfl
      | 1 => exact ih hsub hempty
      | min + 2 =>
        rw [trimLazyEnd_reluctant, onlyEmpty_sequence]
        have hcopies : (repeated (min + 1) (some (min + 1)) true sub).onlyEmpty = true := by
          rw [onlyEmpty_repeated, hempty, Bool.true_or]
        simp [hcopies, ih hsub hempty]
  | capture index name sub ih => exact ih (wellFormed_capture.mp hwell) h
  | concat items ih =>
    have hitems := wellFormed_concat.mp hwell
    have hempty := allOnlyEmpty_iff.mp h
    rw [trimLazyEnd, onlyEmpty_sequence]
    exact forall_mem_trimLast hempty fun e he _ => ih e he (hitems e he) (hempty e he)
  | alternation items ih =>
    obtain ⟨hne,hitems⟩ := wellFormed_alternation.mp hwell
    have hempty := allOnlyEmpty_iff.mp h
    rw [trimLazyEnd, trimEach_eq, onlyEmpty_choice (by simpa using hne) (List.forall_mem_map.mpr
      fun e he => wellFormed_trimLazyEnd (hitems e he))]
    exact List.forall_mem_map.mpr fun e he => ih e he (hitems e he) (hempty e he)

theorem trimmed_of_onlyEmpty (hwell : e.WellFormed) (h : e.onlyEmpty = true) : e.trimmed = 1 :=
  language_of_onlyEmpty (wellFormed_trimLazyEnd hwell) (onlyEmpty_trimLazyEnd hwell h)

end OnlyEmpty

section Repetition
variable {min : Nat} {max : Option Nat} {greedy : Bool}

theorem trimmed_reluctant (n : Nat) (max : Option Nat) (hwell : e.WellFormed) :
    (repetition (n + 1) max false e).trimmed = e.language ^ n * e.trimmed := by
  cases n with
  | zero => rw [pow_zero, one_mul]; rfl
  | succ n =>
    rw [trimmed, trimLazyEnd_reluctant, language_sequence, product, product_singleton,
      language_repeated (fun m hm => (Option.some.inj hm).le) hwell, powers_exactly, trimmed]

/-- What trimming leaves of a repetition: all rounds if it is greedy, and the rounds that must be
made otherwise, of which the last one is trimmed. -/
theorem trimmed_repeated (hbounds : ∀ m, max = some m → min ≤ m) (hwell : e.WellFormed) :
    (repeated min max greedy e).trimmed =
      if greedy = true ∧ ¬ (min = 1 ∧ max = some 1) then powers e.language min max
      else if min = 0 then 1 else e.language ^ (min - 1) * e.trimmed := by
  cases hempty : e.onlyEmpty with
  | true =>
    have honly : (repeated min max greedy e).onlyEmpty = true := by
      rw [onlyEmpty_repeated, hempty, Bool.true_or]
    rw [trimmed_of_onlyEmpty (Each.wellFormed kept_isSound (each_repeated kept_isSound hbounds hwell))
      honly, trimmed_of_onlyEmpty hwell hempty, language_of_onlyEmpty hwell hempty,
      powers_one hbounds, one_pow, one_mul, ite_self, ite_self]
  | false =>
    rw [repeated_eq, hempty, if_neg Bool.false_ne_true, boundedRepetition]
    split
    · rename_i hzero
      rw [hzero.1, hzero.2, powers_zero_zero, if_pos rfl, ite_self]
      rfl
    · split
      · rename_i hone
        rw [hone.1, hone.2]
        simp
      · rename_i hone
        cases greedy with
        | true =>
          rw [if_pos ⟨rfl,hone⟩]
          rfl
        | false =>
          rw [if_neg (by simp)]
          cases min with
          | zero => rfl
          | succ n => exact trimmed_reluctant n max hwell

theorem not_vanishes_reluctant (n : Nat) (max : Option Nat) (htidy : e.Tidy)
    (h : e.onlyEmpty = false) : (repetition (n + 2) max false e).vanishes = false := by
  have hbounds : ∀ m, some (n + 1) = some m → n + 1 ≤ m := fun m hm => (Option.some.inj hm).le
  have hcopies : repeated (n + 1) (some (n + 1)) true e ≠ empty := by
    intro hcopies
    have honly := onlyEmpty_repeated (n + 1) (some (n + 1)) true e
    rw [hcopies, h] at honly
    simp [onlyEmpty] at honly
  have hparts : ∀ d ∈ [repeated (n + 1) (some (n + 1)) true e,e.trimLazyEnd], d.Tidy := by
    simpa using ⟨each_repeated kept_isTidy hbounds htidy,each_trimLazyEnd kept_isTidy htidy⟩
  rw [vanishes, trimLazyEnd_reluctant, ← Bool.not_eq_true, isEmpty_sequence hparts]
  exact fun hall => hcopies (hall _ List.mem_cons_self)

theorem vanishes_optional (max : Option Nat) (greedy : Bool) (e : Expr) :
    (repetition 0 max greedy e).vanishes = !greedy := by cases greedy <;> rfl

theorem vanishes_boundedRepetition (htidy : e.Tidy) (h : min ≤ 1 ∨ e.onlyEmpty = false) :
    (boundedRepetition min max greedy e).vanishes =
      if min = 0 then decide (max = some 0) || !greedy
      else e.vanishes && decide (min = 1 ∧ (max = some 1 ∨ greedy = false)) := by
  rw [boundedRepetition]
  split
  · rename_i hzero
    simp [hzero, vanishes, trimLazyEnd, isEmpty]
  · rename_i hzero
    split
    · rename_i hone
      simp [hone]
    · rename_i hone
      cases min with
      | zero =>
        have hmax : max ≠ some 0 := fun hmax => hzero ⟨rfl,hmax⟩
        rw [vanishes_optional, if_pos rfl, decide_eq_false hmax, Bool.false_or]
      | succ n =>
        rw [if_neg (Nat.succ_ne_zero n)]
        cases greedy with
        | true =>
          have hnone : ¬ (n + 1 = 1 ∧ (max = some 1 ∨ true = false)) := by simpa using hone
          rw [decide_eq_false hnone, Bool.and_false]
          rfl
        | false =>
          cases n with
          | zero => simp [vanishes, trimLazyEnd]
          | succ n =>
            have hempty : e.onlyEmpty = false := h.resolve_left (by omega)
            rw [not_vanishes_reluctant n max htidy hempty, decide_eq_false (by omega),
              Bool.and_false]

/-- The bounds of a repetition that only matches the empty string. -/
theorem capped_bounds (hbounds : ∀ m, max = some m → min ≤ m) :
    (min.min 1 = 0 ↔ min = 0) ∧ (min = 0 → ((max.getD 1).min 1 = 0 ↔ max = some 0)) ∧
      (min ≠ 0 → min.min 1 = 1 ∧ (max.getD 1).min 1 = 1) := by
  refine ⟨by simp,fun _ => ?_,fun hmin => ?_⟩
  · rw [Nat.min_eq_zero_iff]
    cases max <;> simp
  · have hpos : 1 ≤ min := Nat.one_le_iff_ne_zero.mpr hmin
    refine ⟨Nat.min_eq_right hpos,Nat.min_eq_right ?_⟩
    cases max with
    | none => exact le_rfl
    | some m => exact hpos.trans (hbounds m rfl)

/-- Nothing is left of a repetition that need not make a round, and of one that makes a single
round, if nothing is left of the round. -/
theorem vanishes_repeated (hbounds : ∀ m, max = some m → min ≤ m) (htidy : e.Tidy) :
    (repeated min max greedy e).vanishes =
      if min = 0 then decide (max = some 0) || !greedy
      else e.vanishes && (e.onlyEmpty || decide (min = 1 ∧ (max = some 1 ∨ greedy = false))) := by
  cases hempty : e.onlyEmpty with
  | true =>
    obtain ⟨hmin,hzero,hone⟩ := capped_bounds hbounds
    rw [repeated_eq, hempty, if_pos rfl,
      vanishes_boundedRepetition htidy (Or.inl (Nat.min_le_right min 1))]
    simp only [hmin, Option.some.injEq]
    split
    · rename_i hmin
      simp only [hzero hmin]
    · rename_i hmin
      simp [hone hmin]
  | false =>
    rw [repeated_eq, hempty, if_neg Bool.false_ne_true,
      vanishes_boundedRepetition htidy (Or.inr hempty), Bool.false_or]

end Repetition

end ByteAutomata.Expr
