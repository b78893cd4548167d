import ByteAutomata.Proofs.Expr.TrimmedSequence

/-! # Languages of trimmed expressions

Trimming only changes what is matched at a reluctant end. What it leaves of an alternation is what
it leaves of the alternatives, unless leading items that they share reach up to a reluctant end of
one of them. -/
namespace ByteAutomata.Expr
variable {e : Expr} {items more : List Expr}

section Reluctant

theorem vanishes_alternation (h : (alternation items).Tidy) :
    (alternation items).vanishes = false := by
  obtain ⟨hlen,hitems⟩ := h.alternation
  have hwell : ∀ e ∈ trimEach items, e.WellFormed := by
    rw [trimEach_eq]
    exact List.forall_mem_map.mpr fun e he => wellFormed_trimLazyEnd (hitems e he).wellFormed
  have hvoid : (alternation items).trimLazyEnd.isVoid = false :=
    isVoid_choice hwell (by rwa [trimEach_eq, List.length_map])
  refine Bool.eq_false_iff.mpr fun hempty => ?_
  rw [isEmpty_iff.mp hempty] at hvoid
  cases hvoid

theorem allVoid_of_vanishes (hitems : ∀ e ∈ items, e.endsReluctantly = false → e.vanishes = true →
    e.isVoid = true) (hlast : lastReluctant items = false) (h : items.all vanishes = true) :
    allVoid items = true := by
  induction items with
  | nil => rfl
  | cons e rest ih =>
    obtain ⟨he,hrest⟩ := List.forall_mem_cons.mp hitems
    rw [List.all_cons, Bool.and_eq_true] at h
    rw [lastReluctant] at hlast
    have hvoid : allVoid rest = true := by
      refine ih hrest ?_ h.2
      split at hlast
      · rename_i hvoid
        exact lastReluctant_of_allVoid hvoid
      · exact hlast
    rw [if_pos hvoid] at hlast
    rw [allVoid, he hlast h.1, hvoid, Bool.and_true]

/-- Only a reluctant end lets something vanish that is not void. -/
theorem isVoid_of_vanishes (htidy : e.Tidy) (hends : e.endsReluctantly = false)
    (h : e.vanishes = true) : e.isVoid = true := by
  induction e with
  | empty => rfl
  | literal _ | byteClass _ | charClass _ | assertion _ => cases h
  | repetition min max greedy sub ih =>
    obtain rfl : greedy = true := by simpa using hends
    cases h
  | capture index name sub ih => cases h
  | concat items ih =>
    have hitems := htidy.concat.2.2
    rw [vanishes_concat htidy] at h
    exact allVoid_of_vanishes (fun e he => ih e he (hitems e he)) hends h
  | alternation items ih =>
    rw [vanishes_alternation htidy] at h
    cases h

theorem trimmedProduct_eq_product (htidy : ∀ e ∈ items, e.Tidy)
    (hitems : ∀ e ∈ items, e.endsReluctantly = false → e.trimmed = e.language)
    (hlast : lastReluctant items = false) : trimmedProduct items = product items := by
  induction items with
  | nil => rfl
  | cons e rest ih =>
    obtain ⟨-,hrest⟩ := List.forall_mem_cons.mp htidy
    obtain ⟨he,hsame⟩ := List.forall_mem_cons.mp hitems
    have hbehind : lastReluctant rest = false := by
      rw [lastReluctant] at hlast
      split at hlast
      · rename_i hvoid
        exact lastReluctant_of_allVoid hvoid
      · exact hlast
    rw [trimmedProduct, product, ← ih hrest hsame hbehind]
    split
    · rename_i hvanish
      have hvoid : allVoid rest = true := allVoid_of_vanishes
        (fun d hd => isVoid_of_vanishes (hrest d hd)) hbehind hvanish
      rw [lastReluctant, if_pos hvoid] at hlast
      rw [trimmedProduct_of_vanishes hvanish, mul_one, he hlast]
    · rfl

theorem trimmed_alternation (h : ∀ e ∈ items, e.WellFormed) :
    (alternation items).trimmed = (items.map trimmed).sum := by
  have hwell : ∀ e ∈ items.map trimLazyEnd, e.WellFormed :=
    List.forall_mem_map.mpr fun e he => wellFormed_trimLazyEnd (h e he)
  rw [trimmed, trimLazyEnd, trimEach_eq, language_choice hwell, union_eq, List.map_map]
  rfl

/-- Trimming only changes what is matched at a reluctant end. -/
theorem trimmed_eq_language (htidy : e.Tidy) (h : e.endsReluctantly = false) :
    e.trimmed = e.language := by
  induction e with
  | empty | literal _ | byteClass _ | charClass _ | assertion _ => rfl
  | repetition min max greedy sub ih =>
    obtain rfl : greedy = true := by simpa using h
    rfl
  | capture index name sub ih => exact ih (each_capture.mp htidy).2 h
  | concat items ih =>
    have hitems := htidy.concat.2.2
    rw [trimmed_concat, language]
    exact trimmedProduct_eq_product hitems (fun e he => ih e he (hitems e he)) h
  | alternation items ih =>
    have hitems := htidy.alternation.2
    have hends : ∀ e ∈ items, e.endsReluctantly = false := fun e he =>
      Bool.eq_false_iff.mpr fun hends => by
        rw [endsReluctantly, anyReluctant_iff.mpr ⟨e,he,hends⟩] at h
        cases h
    rw [trimmed_alternation fun e he => (hitems e he).wellFormed, language, union_eq]
    exact congrArg List.sum (List.map_congr_left fun e he => ih e he (hitems e he) (hends e he))

end Reluctant

section Choice

theorem IsSymbol.trimLazyEnd_eq (h : e.IsSymbol) : e.trimLazyEnd = e := by
  cases e <;> first | rfl | cases h

/-- Whether leading items that all alternatives share reach up to a reluctant end of one of them. -/
def sharesReluctantEnd (items : List Expr) : Bool :=
  match _hs : sharedStart? (items.flatMap alternationItems) with
  | some (lists,n) =>
    (lastReluctant ((lists.headD []).take n) && lists.any fun es => (es.drop n).all vanishes) ||
      sharesReluctantEnd (lists.map fun es => sequence (es.drop n))
  | none => false
termination_by sizes items
decreasing_by
  exact Nat.lt_of_lt_of_le (sizes_sharedStart _hs) (sizes_flatMap_le sizes_alternationItems items)

theorem sharesReluctantEnd_of_sharedStart {lists : List (List Expr)} {n : Nat}
    (hs : sharedStart? (items.flatMap alternationItems) = some (lists,n)) :
    sharesReluctantEnd items =
      ((lastReluctant ((lists.headD []).take n) && lists.any fun es => (es.drop n).all vanishes) ||
        sharesReluctantEnd (lists.map fun es => sequence (es.drop n))) := by
  rw [sharesReluctantEnd]
  split
  · rename_i hs'
    cases hs.symm.trans hs'
    rfl
  · rename_i hs'
    cases hs.symm.trans hs'

theorem vanishes_choice_of_two (h : ∀ e ∈ items, e.Tidy)
    (hlen : 2 ≤ (items.flatMap alternationItems).length) : (choice items).vanishes = false := by
  fun_induction choice items with
  | case1 items heq => rfl
  | case2 items e heq =>
    rw [heq] at hlen
    exact absurd hlen (by simp)
  | case3 items e f rest heq merged hm =>
    have hsymbol := (isSymbol_mergedClass hm).1
    rw [vanishes, hsymbol.trimLazyEnd_eq]
    cases merged <;> first | rfl | cases hsymbol
  | case4 items e f rest heq hm lists n hs ih =>
    have hlists := each_of_sharedStart (heq ▸ hs) h
    have htails := each_tails kept_isTidy n hlists
    have htail := ih htails ((two_le_length_tails hs).trans
      (length_le_flatMap fun d hd => Tidy.wellFormed (htails d hd)))
    rw [vanishes_sequence (each_sharedStart n hlists (each_choice kept_isTidy htails)),
      List.all_append, List.all_cons, htail]
    simp
  | case5 items e f rest heq hm hs =>
    exact vanishes_alternation (each_alternation.mpr
      ⟨kept_isTidy.alternation (Nat.le_add_left 2 _),heq ▸ each_alternatives h⟩)

theorem choice_nil : choice [] = fail := by
  rw [choice]
  rfl

theorem choice_of_one (h : items.flatMap alternationItems = [e]) : choice items = e := by
  rw [choice]
  split
  · rename_i hnil
    cases h.symm.trans hnil
  · rename_i hone
    cases h.symm.trans hone
    rfl
  · rename_i hmore
    cases h.symm.trans hmore

/-- Nothing is left of an alternation only if it has one alternative, of which nothing is left. -/
theorem vanishes_choice (h : ∀ e ∈ items, e.Tidy) :
    (choice items).vanishes = (decide (items.length = 1) && items.all vanishes) := by
  match items with
  | [] =>
    rw [choice_nil]
    rfl
  | [e] =>
    rw [List.length_singleton, decide_eq_true rfl, Bool.true_and, List.all_cons, List.all_nil,
      Bool.and_true]
    cases e with
    | alternation items =>
      have htidy : (alternation items).Tidy := h _ List.mem_cons_self
      rw [vanishes_alternation htidy, vanishes_choice_of_two h]
      simpa [alternationItems] using htidy.alternation.1
    | _ => rw [choice_of_one rfl]
  | e :: f :: rest =>
    have hlen := length_le_flatMap fun d hd => Tidy.wellFormed (h d hd)
    rw [vanishes_choice_of_two h ((Nat.le_add_left 2 _).trans hlen)]
    simp

theorem sum_trimmed_flatMap (h : ∀ e ∈ items, e.WellFormed) :
    ((items.flatMap alternationItems).map trimmed).sum = (items.map trimmed).sum := by
  induction items with
  | nil => rfl
  | cons e items ih =>
    obtain ⟨he,hitems⟩ := List.forall_mem_cons.mp h
    have hitem : (e.alternationItems.map trimmed).sum = e.trimmed := by
      unfold alternationItems
      split
      · exact (trimmed_alternation (wellFormed_alternation.mp he).2).symm
      · exact add_zero _
    rw [List.flatMap_cons, List.map_append, List.sum_append, hitem, ih hitems, List.map_cons,
      List.sum_cons]

/-- Where the shared leading items do not end reluctantly, or something is left behind them, they
may be taken out before trimming. -/
theorem trimmed_append (htidy : ∀ e ∈ items, e.Tidy)
    (h : lastReluctant items = false ∨ more.all vanishes = false) :
    trimmedProduct (items ++ more) = product items * trimmedProduct more := by
  rw [trimmedProduct_append]
  split
  · rename_i hvanish
    have hlast : lastReluctant items = false := h.resolve_right (by simp [hvanish])
    rw [trimmedProduct_of_vanishes hvanish, mul_one,
      trimmedProduct_eq_product htidy (fun e he => trimmed_eq_language (htidy e he)) hlast]
  · rfl

theorem ends_of_shared {lists : List (List Expr)} {start es : List Expr} {n : Nat}
    (h : (lastReluctant start && lists.any fun es => (es.drop n).all vanishes) = false)
    (hes : es ∈ lists) : lastReluctant start = false ∨ (es.drop n).all vanishes = false := by
  rcases Bool.and_eq_false_iff.mp h with hstart | hnone
  · exact Or.inl hstart
  · exact Or.inr (Bool.eq_false_iff.mpr (List.any_eq_false.mp hnone es hes))

/-- What trimming leaves of an alternation is what it leaves of the alternatives. -/
theorem trimmed_choice (h : ∀ e ∈ items, e.Tidy) (hshare : sharesReluctantEnd items = false) :
    (choice items).trimmed = (items.map trimmed).sum := by
  have hwell : ∀ e ∈ items, e.WellFormed := fun e he => Tidy.wellFormed (h e he)
  rw [← sum_trimmed_flatMap hwell]
  fun_induction choice items with
  | case1 items heq =>
    rw [heq]
    exact language_fail
  | case2 items e heq =>
    rw [heq]
    exact (add_zero _).symm
  | case3 items e f rest heq merged hm =>
    obtain ⟨hmerged,hsymbols⟩ := isSymbol_mergedClass hm
    rw [trimmed, hmerged.trimLazyEnd_eq,
      language_mergedClass (heq ▸ wellFormed_alternatives hwell) hm, union_eq, heq]
    refine congrArg List.sum (List.map_congr_left fun d hd => ?_)
    rw [trimmed, (hsymbols d hd).trimLazyEnd_eq]
  | case4 items e f rest heq hm lists n hs ih =>
    obtain ⟨-,hitems⟩ := eq_of_sharedStart hs
    have hlists := each_of_sharedStart (heq ▸ hs) h
    have htails := each_tails kept_isTidy n hlists
    have hwellTails : ∀ d ∈ lists.map fun es => sequence (es.drop n), d.WellFormed :=
      fun d hd => Tidy.wellFormed (htails d hd)
    have htail := vanishes_choice_of_two htails
      ((two_le_length_tails hs).trans (length_le_flatMap hwellTails))
    rw [sharesReluctantEnd_of_sharedStart (heq ▸ hs), Bool.or_eq_false_iff] at hshare
    obtain ⟨hstart,hbehind⟩ := hshare
    have hall := each_sharedStart n hlists (each_choice kept_isTidy htails)
    have htake := (List.forall_mem_append.mp hall).1
    have hparts : ∀ es ∈ lists, (concat es).trimmed =
        product ((lists.headD []).take n) * (sequence (es.drop n)).trimmed := fun es hes => by
      rw [trimmed_sequence fun d hd => hlists es hes d (List.mem_of_mem_drop hd),
        ← trimmed_append htake (ends_of_shared hstart hes), take_of_sharedStart hs es hes,
        trimmed_concat]
    rw [trimmed_sequence hall, trimmed_append htake (Or.inr (by simp [htail])), heq, hitems,
      List.map_map]
    change _ * (choice _).trimmed = _
    rw [ih htails hbehind hwellTails, sum_trimmed_flatMap hwellTails, List.map_map,
      ← List.sum_map_mul_left]
    exact congrArg List.sum (List.map_congr_left fun es hes => (hparts es hes).symm)
  | case5 items e f rest heq hm hs =>
    rw [heq]
    exact trimmed_alternation (heq ▸ wellFormed_alternatives hwell)

/- Both alternatives of `(?:ab*?|ab*?)` are trimmed to `a`, but their shared end comes before what is
left of them, where it is kept. -/
example :
    let ends := concat [literal [0x61],repetition 0 none false (literal [0x62])]
    sharesReluctantEnd [ends,ends] = true ∧ ends.trimLazyEnd = literal [0x61] ∧
      (choice [ends,ends]).trimLazyEnd =
        concat [literal [0x61],repetition 0 none false (literal [0x62]),
          alternation [empty,empty]] := by decide +kernel

end Choice

end ByteAutomata.Expr
