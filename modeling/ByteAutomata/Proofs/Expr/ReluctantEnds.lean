import ByteAutomata.Proofs.Expr.Build

/-! # Reluctant ends after trimming

An expression ends reluctantly if a reluctant repetition stands at its end, where captures around
nothing are passed over. Trimming leaves such an end only where it removes something and does not go
on to what comes to the end thereby: in front of a capture that is left around nothing, and in the
copies of an operand that vanishes in the last one. -/
namespace ByteAutomata.Expr
variable {e : Expr} {items more : List Expr}

mutual

/-- Whether there is nothing but captures and sequences of the empty expression. -/
@[simp] def isVoid : Expr → Bool
  | empty => true
  | capture _ _ sub => sub.isVoid
  | concat items => allVoid items
  | literal _ | byteClass _ | charClass _ | assertion _ | repetition .. | alternation _ => false

def allVoid : List Expr → Bool
  | [] => true
  | e :: rest => e.isVoid && allVoid rest

end

mutual

/-- Whether a reluctant repetition is at the end; greedy repetitions are not entered. -/
@[simp] def endsReluctantly : Expr → Bool
  | repetition _ _ greedy _ => !greedy
  | capture _ _ sub => sub.endsReluctantly
  | concat items => lastReluctant items
  | alternation items => anyReluctant items
  | empty | literal _ | byteClass _ | charClass _ | assertion _ => false

/-- The same of the last item that is not void. -/
def lastReluctant : List Expr → Bool
  | [] => false
  | e :: rest => if allVoid rest then e.endsReluctantly else lastReluctant rest

def anyReluctant : List Expr → Bool
  | [] => false
  | e :: rest => e.endsReluctantly || anyReluctant rest

end

section Void

theorem allVoid_iff : allVoid items = true ↔ ∀ e ∈ items, e.isVoid = true := by
  induction items with
  | nil => simp [allVoid]
  | cons e items ih => simp [allVoid, ih]

theorem anyReluctant_iff : anyReluctant items = true ↔ ∃ e ∈ items, e.endsReluctantly = true := by
  induction items with
  | nil => simp [anyReluctant]
  | cons e items ih => simp [anyReluctant, ih]

theorem exists_of_lastReluctant (h : lastReluctant items = true) :
    ∃ e ∈ items, e.endsReluctantly = true := by
  induction items with
  | nil => simp [lastReluctant] at h
  | cons e items ih =>
    rw [lastReluctant] at h
    split at h
    · exact ⟨e,List.mem_cons_self,h⟩
    · obtain ⟨d,hd,hends⟩ := ih h
      exact ⟨d,List.mem_cons_of_mem e hd,hends⟩

theorem endsReluctantly_of_isVoid (h : e.isVoid = true) : e.endsReluctantly = false := by
  induction e with
  | empty => rfl
  | capture index name sub ih => exact ih h
  | concat items ih =>
    have hitems := allVoid_iff.mp h
    refine Bool.eq_false_iff.mpr fun hlast => ?_
    obtain ⟨e,he,hends⟩ := exists_of_lastReluctant hlast
    rw [ih e he (hitems e he)] at hends
    cases hends
  | literal _ | byteClass _ | charClass _ | assertion _ | repetition _ _ _ _ _ | alternation _ _ =>
    simp [isVoid] at h

theorem lastReluctant_of_allVoid (h : allVoid items = true) : lastReluctant items = false :=
  endsReluctantly_of_isVoid (e := concat items) h

end Void

section Sequence

theorem allVoid_append : allVoid (items ++ more) = (allVoid items && allVoid more) := by
  induction items with
  | nil => simp [allVoid]
  | cons e items ih => simp [allVoid, ih, Bool.and_assoc]

theorem lastReluctant_append : lastReluctant (items ++ more) =
    if allVoid more then lastReluctant items else lastReluctant more := by
  induction items with
  | nil =>
    rw [List.nil_append]
    split
    · rename_i hvoid
      exact lastReluctant_of_allVoid hvoid
    · rfl
  | cons e items ih =>
    rw [List.cons_append, lastReluctant, allVoid_append, ih, lastReluctant]
    cases allVoid more <;> simp

theorem lastReluctant_singleton (e : Expr) : lastReluctant [e] = e.endsReluctantly := rfl

theorem allVoid_concatItems (e : Expr) : allVoid e.concatItems = e.isVoid := by
  unfold concatItems
  split
  · rfl
  · rfl
  · exact Bool.and_true _

theorem lastReluctant_concatItems (e : Expr) :
    lastReluctant e.concatItems = e.endsReluctantly := by
  unfold concatItems
  split
  · rfl
  · rfl
  · exact lastReluctant_singleton _

theorem allVoid_flatMap (items : List Expr) : allVoid (items.flatMap concatItems) = allVoid items := by
  induction items with
  | nil => rfl
  | cons e items ih => rw [List.flatMap_cons, allVoid_append, allVoid_concatItems, ih, allVoid]

theorem lastReluctant_flatMap (items : List Expr) :
    lastReluctant (items.flatMap concatItems) = lastReluctant items := by
  induction items with
  | nil => rfl
  | cons e items ih =>
    rw [List.flatMap_cons, lastReluctant_append, allVoid_flatMap, lastReluctant_concatItems, ih,
      lastReluctant]

theorem allVoid_joinLiterals (items : List Expr) : allVoid (joinLiterals items) = allVoid items := by
  fun_induction joinLiterals items with
  | case1 a rest b more hrest ih => simp [allVoid, isVoid]
  | case2 a rest hrest ih => simp [allVoid, isVoid]
  | case3 e rest _ ih => rw [allVoid, allVoid, ih]
  | case4 => rfl

theorem lastReluctant_joinLiterals (items : List Expr) :
    lastReluctant (joinLiterals items) = lastReluctant items := by
  fun_induction joinLiterals items with
  | case1 a rest b more hrest ih =>
    rw [hrest] at ih
    have hvoid := allVoid_joinLiterals rest
    rw [hrest] at hvoid
    rw [lastReluctant, lastReluctant, ← hvoid, ← ih, lastReluctant]
    simp [allVoid, isVoid, endsReluctantly]
  | case2 a rest hrest ih => rw [lastReluctant, lastReluctant, ih, allVoid_joinLiterals]
  | case3 e rest _ ih => rw [lastReluctant, lastReluctant, ih, allVoid_joinLiterals]
  | case4 => rfl

theorem isVoid_sequence (items : List Expr) : (sequence items).isVoid = allVoid items := by
  rw [← allVoid_flatMap, ← allVoid_joinLiterals, sequence]
  generalize joinLiterals (items.flatMap concatItems) = joined
  split
  · rfl
  · exact (Bool.and_true _).symm
  · rfl

theorem endsReluctantly_sequence (items : List Expr) :
    (sequence items).endsReluctantly = lastReluctant items := by
  rw [← lastReluctant_flatMap, ← lastReluctant_joinLiterals, sequence]
  generalize joinLiterals (items.flatMap concatItems) = joined
  split
  · rfl
  · rfl
  · rfl

end Sequence

section Choice

theorem IsSymbol.isVoid (h : e.IsSymbol) : e.isVoid = false := by
  cases e <;> first | rfl | cases h

theorem IsSymbol.endsReluctantly (h : e.IsSymbol) : e.endsReluctantly = false := by
  cases e <;> first | rfl | cases h

theorem length_le_flatMap (h : ∀ e ∈ items, e.WellFormed) :
    items.length ≤ (items.flatMap alternationItems).length := by
  induction items with
  | nil => exact Nat.zero_le _
  | cons e items ih =>
    obtain ⟨he,hitems⟩ := List.forall_mem_cons.mp h
    have hhead : 1 ≤ e.alternationItems.length := by
      unfold alternationItems
      split
      · exact List.length_pos_of_ne_nil (wellFormed_alternation.mp he).1
      · exact le_rfl
    have htail := ih hitems
    rw [List.flatMap_cons, List.length_append, List.length_cons]
    omega

theorem two_le_length_tails {e f : Expr} {lists : List (List Expr)} {n : Nat}
    (h : sharedStart? (e :: f :: items) = some (lists,n)) :
    2 ≤ (lists.map fun es => sequence (es.drop n)).length := by
  have hlength := congrArg List.length (eq_of_sharedStart h).2
  rw [List.length_map] at hlength ⊢
  rw [← hlength]
  exact Nat.le_add_left 2 _

theorem isVoid_choice (h : ∀ e ∈ items, e.WellFormed) (hlen : 2 ≤ items.length) :
    (choice items).isVoid = false := by
  fun_induction choice items with
  | case1 items heq => rfl
  | case2 items e heq =>
    have hle := length_le_flatMap h
    rw [heq, List.length_singleton] at hle
    omega
  | case3 items e f rest heq merged hm => exact (isSymbol_mergedClass hm).1.isVoid
  | case4 items e f rest heq hm lists n hs ih =>
    have hlists := wellFormed_of_sharedStart (heq ▸ hs) h
    have htails := ih (wellFormed_tails n hlists) (two_le_length_tails hs)
    rw [isVoid_sequence, allVoid_append]
    simp [allVoid, htails]
  | case5 items e f rest heq hm hs => rfl

theorem exists_of_alternatives (h : ∃ e ∈ items.flatMap alternationItems, e.endsReluctantly = true) :
    ∃ e ∈ items, e.endsReluctantly = true := by
  obtain ⟨d,hd,hends⟩ := h
  obtain ⟨e,he,hd⟩ := List.mem_flatMap.mp hd
  refine ⟨e,he,?_⟩
  unfold alternationItems at hd
  split at hd
  · exact anyReluctant_iff.mpr ⟨d,hd,hends⟩
  · rwa [← List.mem_singleton.mp hd]

theorem lastReluctant_of_drop (n : Nat) (h : lastReluctant (items.drop n) = true) :
    lastReluctant items = true := by
  have hvoid : allVoid (items.drop n) = false := by
    refine Bool.eq_false_iff.mpr fun hall => ?_
    rw [lastReluctant_of_allVoid hall] at h
    cases h
  rw [← List.take_append_drop n items, lastReluctant_append, hvoid]
  exact h

/-- An alternation ends reluctantly only if one of the alternatives does. -/
theorem exists_of_choice (hwell : ∀ e ∈ items, e.WellFormed)
    (h : (choice items).endsReluctantly = true) : ∃ e ∈ items, e.endsReluctantly = true := by
  fun_induction choice items with
  | case1 items heq => cases h
  | case2 items e heq =>
    refine exists_of_alternatives ⟨e,?_,h⟩
    rw [heq]
    exact List.mem_cons_self
  | case3 items e f rest heq merged hm =>
    rw [(isSymbol_mergedClass hm).1.endsReluctantly] at h
    cases h
  | case4 items e f rest heq hm lists n hs ih =>
    have htails := wellFormed_tails n (wellFormed_of_sharedStart (heq ▸ hs) hwell)
    have hchoice := isVoid_choice htails (two_le_length_tails hs)
    -- the alternation of the tails is not void, so the end is in there
    rw [endsReluctantly_sequence, lastReluctant_append, lastReluctant_singleton] at h
    simp only [allVoid, hchoice, Bool.false_and, Bool.false_eq_true,
      if_false] at h
    obtain ⟨tail,htail,hends⟩ := ih htails h
    obtain ⟨es,hes,rfl⟩ := List.mem_map.mp htail
    rw [endsReluctantly_sequence] at hends
    refine exists_of_alternatives ⟨concat es,?_,lastReluctant_of_drop n hends⟩
    rw [heq, (eq_of_sharedStart hs).2]
    exact List.mem_map_of_mem hes
  | case5 items e f rest heq hm hs =>
    rw [endsReluctantly, ← heq] at h
    exact exists_of_alternatives (anyReluctant_iff.mp h)

end Choice

section Uncovered

mutual

/-- Whether trimming brings a reluctant repetition to the end that it does not go on to. -/
@[simp] def uncovers : Expr → Bool
  | repetition min _ greedy sub =>
    if greedy then false
    else match min with
      | 0 => false
      | 1 => sub.uncovers
      | min + 1 =>
        if sub.trimLazyEnd.isVoid then (repeated min (some min) true sub).endsReluctantly
        else sub.uncovers
  | capture _ _ sub => sub.uncovers
  | concat items => lastUncovers items
  | alternation items => anyUncovers items
  | empty | literal _ | byteClass _ | charClass _ | assertion _ => false

/-- What is left of the items behind may be void without being empty. -/
def lastUncovers : List Expr → Bool
  | [] => false
  | e :: rest =>
    match trimLast rest with
    | [] => e.uncovers
    | left => if allVoid left then e.endsReluctantly else lastUncovers rest

def anyUncovers : List Expr → Bool
  | [] => false
  | e :: rest => e.uncovers || anyUncovers rest

end

theorem anyUncovers_iff : anyUncovers items = true ↔ ∃ e ∈ items, e.uncovers = true := by
  induction items with
  | nil => simp [anyUncovers]
  | cons e items ih => simp [anyUncovers, ih]

theorem lastUncovers_of_trimLast
    (h : ∀ e ∈ items, e.trimLazyEnd.endsReluctantly = true → e.uncovers = true)
    (hends : lastReluctant (trimLast items) = true) : lastUncovers items = true := by
  induction items with
  | nil => cases hends
  | cons e rest ih =>
    obtain ⟨he,hrest⟩ := List.forall_mem_cons.mp h
    rw [lastUncovers]
    rw [trimLast] at hends
    cases hleft : trimLast rest with
    | nil =>
      simp only [hleft] at hends ⊢
      split at hends
      · cases hends
      · exact he hends
    | cons d left =>
      simp only [hleft, lastReluctant] at hends ih ⊢
      split
      · rename_i hvoid
        rwa [if_pos hvoid] at hends
      · rename_i hvoid
        rw [if_neg hvoid] at hends
        exact ih hrest hends

theorem uncovers_of_endsReluctantly (hwell : e.WellFormed)
    (hends : e.trimLazyEnd.endsReluctantly = true) : e.uncovers = true := by
  induction e with
  | empty | literal _ | byteClass _ | charClass _ | assertion _ => cases hends
  | repetition min max greedy sub ih =>
    obtain ⟨-,hsub⟩ := wellFormed_repetition.mp hwell
    cases greedy with
    | true => cases hends
    | false =>
      match min with
      | 0 => cases hends
      | 1 => exact ih hsub hends
      | min + 2 =>
        rw [trimLazyEnd_reluctant, endsReluctantly_sequence, lastReluctant] at hends
        simp only [allVoid, Bool.and_true, lastReluctant_singleton] at hends
        simp only [uncovers, Bool.false_eq_true, if_false]
        split at hends
        · rename_i hvoid
          rwa [if_pos hvoid]
        · rename_i hvoid
          rw [if_neg hvoid]
          exact ih hsub hends
  | capture index name sub ih => exact ih (wellFormed_capture.mp hwell) hends
  | concat items ih =>
    have hitems := wellFormed_concat.mp hwell
    rw [trimLazyEnd, endsReluctantly_sequence] at hends
    exact lastUncovers_of_trimLast (fun e he => ih e he (hitems e he)) hends
  | alternation items ih =>
    have hitems := (wellFormed_alternation.mp hwell).2
    have htrimmed : ∀ d ∈ items.map trimLazyEnd, d.WellFormed := by
      intro d hd
      obtain ⟨e,he,rfl⟩ := List.mem_map.mp hd
      exact wellFormed_trimLazyEnd (hitems e he)
    rw [trimLazyEnd, trimEach_eq] at hends
    obtain ⟨d,hd,hends⟩ := exists_of_choice htrimmed hends
    obtain ⟨e,he,rfl⟩ := List.mem_map.mp hd
    exact anyUncovers_iff.mpr ⟨e,he,ih e he (hitems e he) hends⟩

/-- Unless it uncovers one, trimming leaves no reluctant repetition at the end. -/
theorem endsReluctantly_trimLazyEnd (hwell : e.WellFormed) (h : e.uncovers = false) :
    e.trimLazyEnd.endsReluctantly = false := by
  refine Bool.eq_false_iff.mpr fun hends => ?_
  rw [uncovers_of_endsReluctantly hwell hends] at h
  cases h

/-- `a(?:b(c+?d*?)|ef{2,}?)g??`. -/
def nestedEnds : Expr :=
  concat [literal [0x61],
    alternation [
      concat [literal [0x62],capture 1 none
        (concat [repetition 1 none false (literal [0x63]),repetition 0 none false (literal [0x64])])],
      concat [literal [0x65],repetition 2 none false (literal [0x66])]],
    repetition 0 (some 1) false (literal [0x67])]

theorem endsReluctantly_nestedEnds : nestedEnds.WellFormed ∧ nestedEnds.uncovers = false ∧
    nestedEnds.trimLazyEnd.endsReluctantly = false := by
  have hwell : nestedEnds.WellFormed := by
    simp [nestedEnds, WellFormed, nodes, nodesOfAll, IsSound]
  have huncovers : nestedEnds.uncovers = false := by decide +kernel
  exact ⟨hwell,huncovers,endsReluctantly_trimLazyEnd hwell huncovers⟩

/-- `x(?:a*?){2}?`, whose last copy vanishes. -/
def vanishedCopy : Expr :=
  concat [literal [0x78],repetition 2 (some 2) false (repetition 0 none false (literal [0x61]))]

/-- `xa*?(b*?)`, whose capture is left around nothing. -/
def emptiedCapture : Expr :=
  concat [literal [0x78],repetition 0 none false (literal [0x61]),
    capture 1 none (repetition 0 none false (literal [0x62]))]

theorem endsReluctantly_vanishedCopy :
    (vanishedCopy.WellFormed ∧
      vanishedCopy.trimLazyEnd = concat [literal [0x78],repetition 0 none false (literal [0x61])] ∧
      vanishedCopy.trimLazyEnd.endsReluctantly = true) ∧
    emptiedCapture.WellFormed ∧
      emptiedCapture.trimLazyEnd =
        concat [literal [0x78],repetition 0 none false (literal [0x61]),capture 1 none empty] ∧
      emptiedCapture.trimLazyEnd.endsReluctantly = true := by
  refine ⟨⟨?_,?_,?_⟩,?_,?_,?_⟩
  · simp [vanishedCopy, WellFormed, nodes, nodesOfAll, IsSound]
  · decide +kernel
  · decide +kernel
  · simp [emptiedCapture, WellFormed, nodes, nodesOfAll, IsSound]
  · decide +kernel
  · decide +kernel

end Uncovered
end ByteAutomata.Expr
