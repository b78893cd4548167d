import ByteAutomata.Proofs.Builder.Meaning
import ByteAutomata.Proofs.ByteSet
import ByteAutomata.Proofs.Term.Matches

/-! # The order of a layout

If every vertex stands for a search that starts there, the entries of a term search for its
matches in the order of preference. Each operator has to leave the gap of what follows at the
right place; concatenation does so only for operands whose gaps suit each other. -/
namespace ByteAutomata

/-- What lies behind the first match, if any. -/
abbrev Search := List UInt8 → Option (List UInt8)

namespace Search

instance : Zero Search := ⟨fun _ => none⟩

/-- The second search where the first one fails. -/
instance : Add Search := ⟨fun f g text => (f text).or (g text)⟩

theorem zero_apply (text : List UInt8) : (0 : Search) text = none := rfl

theorem add_apply (f g : Search) (text : List UInt8) : (f + g) text = (f text).or (g text) := rfl

instance : AddMonoid Search where
  add_assoc f g h := by
    funext text
    exact Option.or_assoc
  zero_add f := by
    funext text
    exact Option.none_or
  add_zero f := by
    funext text
    exact Option.or_none
  nsmul := nsmulRec

/-- A search behind one byte. -/
def entered (label : Option Transition) (f : Search) : Search
  | [] => none
  | b :: rest => if label.any (·.accepts b) then f rest else none

theorem reach_apply (F : Vertex → Search) (ws : List Vertex) (text : List UInt8) :
    reach F ws text = ws.findSome? (F · text) := by
  induction ws with
  | nil => rfl
  | cons w ws ih =>
    have hcons : reach F (w :: ws) = F w + reach F ws := List.sum_cons
    rw [hcons, add_apply, ih, List.findSome?_cons]
    cases F w text <;> rfl

theorem foldr_entered (ts : List Transition) (k : Search) (text : List UInt8) :
    ts.foldr (fun t f => entered (some t) f) k text =
      (strip (ts.map Transition.accepts) text).findSome? k := by
  induction ts generalizing text with
  | nil => exact List.findSome?_singleton.symm
  | cons t ts ih =>
    cases text with
    | nil => rfl
    | cons b text =>
      rw [List.foldr_cons, entered, Option.any_some, List.map_cons, strip]
      split
      · exact ih text
      · rfl

end Search

namespace Term
variable {s : BuilderSettings} {e l r : Term} {k κ κ' : Search} {text : List UInt8}
variable {xs ys : List (List UInt8)}

/-- The first match that can go on: with `k` behind a byte at least, and with `κ` otherwise. -/
def first (s : BuilderSettings) (e : Term) (k κ : Search) : Search := fun text =>
  (e.rests s text).findSome? fun rest => if rest.length < text.length then k rest else κ rest

theorem first_self (text : List UInt8) : e.first s k k text = (e.rests s text).findSome? k := by
  simp [first]

/-- Only the text itself is left without a byte. -/
theorem first_congr (h : κ text = κ' text) : e.first s k κ text = e.first s k κ' text := by
  refine findSome?_congr fun rest hrest => ?_
  split
  · rfl
  · rename_i hlength
    rw [eq_of_mem_rests hrest hlength, h]

theorem first_of_not_nullable (hb : e.IsBasic) (hn : e.nullable = false) (text : List UInt8) :
    e.first s k κ text = (e.rests s text).findSome? k := by
  refine findSome?_congr fun rest hrest => ?_
  rw [if_pos (length_lt_of_mem_rests hb hn text rest hrest)]

theorem isSome_first (hb : e.IsBasic) (hn : e.nullable = true) (h : (κ text).isSome) :
    (e.first s k κ text).isSome := by
  rw [first, List.findSome?_isSome_iff]
  exact ⟨text,mem_rests_self hb hn text,by simpa using h⟩

theorem first_alternation (text : List UInt8) :
    (alternation l r).first s k κ text = (l.first s k κ text).or (r.first s k κ text) := by
  rw [first, rests, List.findSome?_append]
  rfl

/-- What follows the first operand is the second one. -/
theorem first_concatenation (text : List UInt8) :
    (concatenation l r).first s k κ text =
      l.first s (fun rest => (r.rests s rest).findSome? k) (r.first s k κ) text := by
  rw [first, rests, findSome?_flatMap]
  refine findSome?_congr fun rest hrest => ?_
  split
  · rename_i hlt
    refine findSome?_congr fun rest' hrest' => ?_
    rw [if_pos (Nat.lt_of_le_of_lt (length_le_of_mem_rests hrest') hlt)]
  · rename_i hlength
    rw [eq_of_mem_rests hrest hlength]
    rfl

theorem first_option (greedy : Bool) (text : List UInt8) :
    (repetition 0 (some 1) greedy e).first s k κ text =
      if greedy then (e.first s k κ text).or (κ text)
      else (κ text).or (e.first s k κ text) := by
  have hself : (if text.length < text.length then k text else κ text) = κ text := by simp
  rw [first, rests_option, furtherRounds_succ, furtherRounds_zero, List.flatMap_singleton']
  cases greedy with
  | true =>
    rw [if_pos rfl, if_pos rfl, List.findSome?_append, List.findSome?_singleton, hself]
    rfl
  | false =>
    rw [if_neg Bool.false_ne_true, if_neg Bool.false_ne_true, List.findSome?_cons, hself, first]
    cases κ text <;> rfl

theorem shorten_rests (hb : e.IsBasic) (hn : e.nullable = false) :
    shorten (e.rests s) = e.rests s := by
  funext text
  refine List.filter_eq_self.mpr fun rest hrest => ?_
  exact decide_eq_true (length_lt_of_mem_rests hb hn text rest hrest)

/-- One round that takes a byte and all that may follow it, or no round. -/
theorem first_star (hb : e.IsBasic) (hn : e.nullable = false) (greedy : Bool)
    (text : List UInt8) :
    (repetition 0 none greedy e).first s k κ text =
      if greedy then
        ((e.rests s text).findSome? fun rest =>
          ((repetition 0 none greedy e).rests s rest).findSome? k).or (κ text)
      else
        (κ text).or ((e.rests s text).findSome? fun rest =>
          ((repetition 0 none greedy e).rests s rest).findSome? k) := by
  have hself : (if text.length < text.length then k text else κ text) = κ text := by simp
  have hmore : ((e.rests s text).flatMap (endlessRounds (e.rests s) greedy)).findSome?
      (fun rest => if rest.length < text.length then k rest else κ rest) =
      (e.rests s text).findSome? fun rest =>
        ((repetition 0 none greedy e).rests s rest).findSome? k := by
    rw [findSome?_flatMap]
    refine findSome?_congr fun rest hrest => ?_
    have hlt := length_lt_of_mem_rests hb hn text rest hrest
    rw [rests_star]
    refine findSome?_congr fun rest' hrest' => ?_
    have hsuffix := suffix_of_mem_endlessRounds e.suffix_of_mem_rests rest rest' hrest'
    rw [if_pos (Nat.lt_of_le_of_lt hsuffix.length_le hlt)]
  rw [first, rests_star, endlessRounds_eq, shorten_rests hb hn]
  cases greedy with
  | true =>
    rw [if_pos rfl, if_pos rfl, List.findSome?_append, List.findSome?_singleton, hself, hmore]
  | false =>
    rw [if_neg Bool.false_ne_true, if_neg Bool.false_ne_true, List.findSome?_cons, hself, hmore]
    cases κ text <;> rfl

theorem first_plus (hb : e.IsBasic) (hn : e.nullable = false) (greedy : Bool)
    (text : List UInt8) :
    (repetition 1 none greedy e).first s k κ text =
      (e.rests s text).findSome? fun rest =>
        ((repetition 0 none greedy e).rests s rest).findSome? k := by
  have hplus : (repetition 1 none greedy e).IsBasic := .plus greedy hb
  rw [first_of_not_nullable hplus (by simpa [nullable] using hn), rests_plus, findSome?_flatMap]
  exact findSome?_congr fun rest _ => by rw [rests_star]

/-- The round that follows is preferred as in the repetition itself. -/
theorem eq_star {X : Search} (hb : e.IsBasic) (hn : e.nullable = false) (greedy : Bool)
    (hX : ∀ text, X text =
      (e.rests s text).findSome? (if greedy then X + k else k + X)) :
    (if greedy then X + k else k + X) =
      fun text => ((repetition 0 none greedy e).rests s text).findSome? k := by
  funext text
  induction hlength : text.length using Nat.strong_induction_on generalizing text with
  | _ n ih =>
    subst hlength
    have hround : X text = (e.rests s text).findSome? fun rest =>
        ((repetition 0 none greedy e).rests s rest).findSome? k := by
      rw [hX]
      refine findSome?_congr fun rest hrest => ?_
      exact ih rest.length (length_lt_of_mem_rests hb hn text rest hrest) rest rfl
    rw [← first_self, first_star hb hn]
    cases greedy with
    | true => rw [if_pos rfl, if_pos rfl, Search.add_apply, hround]
    | false =>
      rw [if_neg Bool.false_ne_true, if_neg Bool.false_ne_true, Search.add_apply, hround]

/-- Nothing new comes after an occurrence of `text`. -/
def LastIn (text : List UInt8) (xs : List (List UInt8)) : Prop :=
  ∀ before after, xs = before ++ text :: after → ∀ rest ∈ after, rest = text ∨ rest ∈ before

/-- Leaving the term without a byte is tried last. -/
def EmptyLast (s : BuilderSettings) (e : Term) : Prop := ∀ text, LastIn text (e.rests s text)

theorem lastIn_of_notMem (h : text ∉ xs) : LastIn text xs := by
  rintro before after rfl
  exact absurd (by simp) h

theorem LastIn.append (hx : text ∉ xs) (hy : LastIn text ys) : LastIn text (xs ++ ys) := by
  intro before after h rest hrest
  obtain ⟨more,rfl,hys⟩ | ⟨more,rfl,hmore⟩ := List.append_eq_append_iff.mp h
  · rcases hy more after hys rest hrest with heq | hmem
    · exact Or.inl heq
    · exact Or.inr (List.mem_append_right xs hmem)
  · cases more with
    | nil =>
      rcases hy [] after hmore.symm rest hrest with heq | hmem
      · exact Or.inl heq
      · cases hmem
    | cons m more =>
      obtain rfl : text = m := (List.cons.inj hmore).1
      exact absurd (by simp) hx

theorem LastIn.append_self (h : LastIn text xs) : LastIn text (xs ++ [text]) := by
  intro before after happend rest hrest
  obtain ⟨more,rfl,hmore⟩ | ⟨more,rfl,hmore⟩ := List.append_eq_append_iff.mp happend
  · cases more with
    | nil =>
      obtain rfl : [] = after := (List.cons.inj hmore).2
      cases hrest
    | cons m more => simp at hmore
  · cases more with
    | nil =>
      obtain rfl : after = [] := (List.cons.inj hmore).2
      cases hrest
    | cons m more =>
      obtain ⟨rfl,rfl⟩ := List.cons.inj hmore
      rcases List.mem_append.mp hrest with hrest | hrest
      · exact h before more rfl rest hrest
      · exact Or.inl (List.mem_singleton.mp hrest)

theorem emptyLast_of_not_nullable (hb : e.IsBasic) (hn : e.nullable = false) : e.EmptyLast s :=
  fun text => lastIn_of_notMem fun h =>
    Nat.lt_irrefl _ (length_lt_of_mem_rests hb hn text text h)

/-- Leaving the term without a byte is tried first. -/
def EmptyFirst (s : BuilderSettings) (e : Term) : Prop :=
  ∀ text, (e.rests s text).head? = some text

/-- Whether the place for what follows `l` and `r` suits both of them. -/
def Suits (s : BuilderSettings) (l r : Term) : Prop :=
  r.nullable = false ∨ (l.yields s r = false ∧ r.EmptyLast s) ∨
    (l.yields s r = true ∧ r.EmptyFirst s)

theorem EmptyLast.first_or (h : e.EmptyLast s) (hb : e.IsBasic) (hn : e.nullable = true)
    (text : List UInt8) :
    (e.first s k 0 text).or (k text) = (e.rests s text).findSome? k := by
  obtain ⟨before,after,hrests,hnew⟩ :=
    List.eq_append_cons_of_mem (mem_rests_self (s := s) hb hn text)
  -- the rests in front of the whole text are all shorter
  have hbefore : before.findSome? (fun rest => if rest.length < text.length then k rest
      else (0 : Search) rest) = before.findSome? k := by
    refine findSome?_congr fun rest hrest => if_pos ?_
    by_contra hlength
    have hmem : rest ∈ e.rests s text := hrests ▸ List.mem_append_left _ hrest
    exact hnew (eq_of_mem_rests hmem hlength ▸ hrest)
  rw [first, hrests, List.findSome?_append, hbefore, List.findSome?_append, List.findSome?_cons,
    List.findSome?_cons, if_neg (Nat.lt_irrefl _), Search.zero_apply]
  cases hk : before.findSome? k with
  | some rest => simp
  | none =>
    have hnone := List.findSome?_eq_none_iff.mp hk
    -- those behind it have all been tried before
    have hafter : after.findSome? (fun rest => if rest.length < text.length then k rest
        else (0 : Search) rest) = none := by
      refine List.findSome?_eq_none_iff.mpr fun rest hrest => ?_
      rcases h text before after hrests rest hrest with rfl | hmem
      · simp [Search.zero_apply]
      · simp [hnone rest hmem, Search.zero_apply]
    simp only [hafter, Option.none_or]
    cases htext : k text with
    | some rest => rfl
    | none =>
      symm
      refine List.findSome?_eq_none_iff.mpr fun rest hrest => ?_
      rcases h text before after hrests rest hrest with rfl | hmem
      · exact htext
      · exact hnone rest hmem

theorem EmptyFirst.or_first (h : e.EmptyFirst s) (text : List UInt8) :
    (k text).or (e.first s k 0 text) = (e.rests s text).findSome? k := by
  obtain ⟨after,hrests⟩ := List.head?_eq_some_iff.mp (h text)
  cases hk : k text with
  | some rest => rw [Option.some_or, hrests, List.findSome?_cons, hk]
  | none =>
    rw [Option.none_or, ← first_self]
    exact first_congr hk.symm

section Front
variable {F : Vertex → Search} {base : Nat}

/-- The entries of a term search for its matches in order. -/
def Orders (s : BuilderSettings) (F : Vertex → Search) (k : Search) (base : Nat) (e : Term) :
    Prop :=
  ∀ κ text, (e.front s base).fill F κ text = e.first s k κ text

theorem Orders.targets (h : e.Orders s F k base) (text : List UInt8) :
    reach F (e.front s base).targets text = e.first s k 0 text := by
  rw [← Gap.fill_zero, h]

theorem Orders.leaf {l : Leaf} (he : (leaf l).Encodable s)
    (h : Slot.Solves F Search.entered k base ((leaf l).slots s base)) :
    (leaf l).Orders s F k base := by
  intro κ text
  obtain ⟨ts,hts⟩ := Option.ne_none_iff_exists'.mp he
  have hne : ts ≠ [] := fun hnil => l.transitions_ne_nil s (hnil ▸ hts)
  have hconditions : l.conditions s = some (ts.map Transition.accepts) := by
    rw [l.conditions_eq s, hts, Option.map_some]
  rw [slots, hts, Option.getD_some] at h
  rw [front, Gap.fill_closed, Search.reach_apply, List.findSome?_singleton, h.row hne,
    Search.foldr_entered, first_of_not_nullable (.leaf l) rfl, rests, Leaf.rests, hconditions]

theorem Orders.alternation (hl : l.IsBasic) (h : l.Orders s F k base)
    (h' : r.Orders s F k (base + l.width s)) : (alternation l r).Orders s F k base := by
  intro κ text
  rw [front, Gap.fill_alternate, isOpen_front, first_alternation]
  cases hn : l.nullable with
  | true =>
    rw [if_pos rfl, Search.add_apply, h, h'.targets]
    cases hκ : κ text with
    | none =>
      have hsecond : r.first s k 0 text = r.first s k κ text := first_congr hκ.symm
      rw [hsecond]
    | some rest =>
      have hsome : (l.first s k κ text).isSome := isSome_first hl hn (by rw [hκ]; rfl)
      rw [Option.or_of_isSome hsome, Option.or_of_isSome hsome]
  | false =>
    rw [if_neg Bool.false_ne_true, Search.add_apply, h.targets, h', first_of_not_nullable hl hn,
      first_of_not_nullable hl hn]

theorem Orders.concatenation
    (h : l.Orders s F (fun rest => (r.rests s rest).findSome? k) base)
    (h' : r.Orders s F k (base + l.width s)) : (concatenation l r).Orders s F k base := by
  intro κ text
  have hsecond : (r.front s (base + l.width s)).fill F κ = r.first s k κ := funext (h' κ)
  rw [front, Gap.fill_sequence, hsecond, h, first_concatenation]

theorem Orders.option (hb : e.IsBasic) (h : e.Orders s F k base) (greedy : Bool) :
    (repetition 0 (some 1) greedy e).Orders s F k base := by
  intro κ text
  rw [front, if_pos rfl, Gap.fill_optional, isOpen_front, first_option]
  cases greedy with
  | false =>
    rw [Bool.not_false, if_pos rfl, if_neg Bool.false_ne_true, Search.add_apply, h.targets]
    cases hκ : κ text with
    | none =>
      have hround : e.first s k 0 text = e.first s k κ text := first_congr hκ.symm
      rw [hround]
    | some rest => rfl
  | true =>
    rw [Bool.not_true, if_neg Bool.false_ne_true, if_pos rfl]
    cases hn : e.nullable with
    | true =>
      rw [if_pos rfl, h]
      cases hκ : κ text with
      | none => rw [Option.or_none]
      | some rest =>
        have hsome : (e.first s k κ text).isSome := isSome_first hb hn (by rw [hκ]; rfl)
        rw [Option.or_of_isSome hsome]
    | false =>
      rw [if_neg Bool.false_ne_true, Search.add_apply, h.targets, first_of_not_nullable hb hn,
        first_of_not_nullable hb hn]

/-- A loop back to the entries, preferred to leaving or not. -/
theorem reach_star (hb : e.IsBasic) (hn : e.nullable = false) (greedy : Bool)
    (hbody : ∀ {k'}, Slot.Solves F Search.entered k' base (e.slots s base) → e.Orders s F k' base)
    (h : Slot.Solves F Search.entered k base
      ((e.slots s base).map (Slot.lead (!greedy) (e.front s base).targets true)))
    (text : List UInt8) :
    reach F (e.front s base).targets text = (e.rests s text).findSome? fun rest =>
      ((repetition 0 none greedy e).rests s rest).findSome? k := by
  let X := reach F (e.front s base).targets
  -- a round is followed by another one or by what stands behind the loop
  have hfollow : ∀ g : Gap, (g.lead (!greedy) (e.front s base).targets true).fill F k =
      g.fill F (if greedy then X + k else k + X) := by
    intro g
    cases greedy with
    | true => exact Gap.fill_lead_front F k g _ true
    | false => exact Gap.fill_lead_back F k g _ true
  have hround : ∀ text, X text =
      (e.rests s text).findSome? (if greedy then X + k else k + X) := by
    intro text
    rw [← first_of_not_nullable (κ := 0) hb hn]
    exact (hbody (h.of_lead hfollow)).targets text
  rw [← eq_star hb hn greedy hround]
  exact hround text

theorem Orders.star (hb : e.IsBasic) (hn : e.nullable = false) (greedy : Bool)
    (hreach : ∀ text, reach F (e.front s base).targets text = (e.rests s text).findSome?
      fun rest => ((repetition 0 none greedy e).rests s rest).findSome? k) :
    (repetition 0 none greedy e).Orders s F k base := by
  intro κ text
  rw [front, if_pos rfl, Gap.fill_optional, isOpen_front, hn, first_star hb hn]
  cases greedy with
  | true =>
    rw [Bool.not_true, if_neg Bool.false_ne_true, if_neg Bool.false_ne_true, if_pos rfl,
      Search.add_apply, hreach]
  | false =>
    rw [Bool.not_false, if_pos rfl, if_neg Bool.false_ne_true, Search.add_apply, hreach]

theorem Orders.plus (hb : e.IsBasic) (hn : e.nullable = false) (greedy : Bool)
    (hreach : ∀ text, reach F (e.front s base).targets text = (e.rests s text).findSome?
      fun rest => ((repetition 0 none greedy e).rests s rest).findSome? k) :
    (repetition 1 none greedy e).Orders s F k base := by
  intro κ text
  have hclosed : (e.front s base).isOpen = false := by rw [isOpen_front, hn]
  rw [front, if_neg one_ne_zero, Gap.fill_of_not_isOpen F κ _ hclosed, hreach,
    first_plus hb hn]

/-- Where the operands suit each other, the second one follows the first. -/
theorem Suits.fill_lead (hs : Suits s l r) (hr : r.IsBasic)
    (h : r.Orders s F k (base + l.width s)) (g : Gap) :
    (g.lead (l.yields s r) (r.front s (base + l.width s)).targets
      (r.front s (base + l.width s)).isOpen).fill F k =
        g.fill F fun rest => (r.rests s rest).findSome? k := by
  rw [isOpen_front]
  cases hn : r.nullable with
  | false =>
    have hsum : reach F (r.front s (base + l.width s)).targets =
        fun rest => (r.rests s rest).findSome? k := by
      funext rest
      rw [h.targets, first_of_not_nullable hr hn]
    cases l.yields s r with
    | true => rw [Gap.fill_lead_back, if_neg Bool.false_ne_true, zero_add, hsum]
    | false => rw [Gap.fill_lead_front, if_neg Bool.false_ne_true, add_zero, hsum]
  | true =>
    rcases hs with hfalse | ⟨hyields,hlast⟩ | ⟨hyields,hfirst⟩
    · exact absurd (hn.symm.trans hfalse) (by simp)
    · have hsum : reach F (r.front s (base + l.width s)).targets + k =
          fun rest => (r.rests s rest).findSome? k := by
        funext rest
        rw [Search.add_apply, h.targets, hlast.first_or hr hn]
      rw [hyields, Gap.fill_lead_front, if_pos rfl, hsum]
    · have hsum : k + reach F (r.front s (base + l.width s)).targets =
          fun rest => (r.rests s rest).findSome? k := by
        funext rest
        rw [Search.add_apply, h.targets, hfirst.or_first]
      rw [hyields, Gap.fill_lead_back, if_pos rfl, hsum]

theorem fill_front (hb : e.IsBasic) (he : e.Encodable s) (hp : e.isProductive = true)
    (hc : e.EachConcatenation (Suits s))
    (h : Slot.Solves F Search.entered k base (e.slots s base)) : e.Orders s F k base := by
  induction hb generalizing k base with
  | leaf l => exact .leaf he h
  | @alternation l r hl hr ihl ihr =>
    have hright := h.right
    rw [length_slots] at hright
    simp only [isProductive, everyRepetition, Bool.and_eq_true] at hp
    exact .alternation hl (ihl he.1 hp.1 hc.1 h.left) (ihr he.2 hp.2 hc.2 hright)
  | @concatenation l r hl hr ihl ihr =>
    have hright := h.right
    rw [List.length_map, length_slots] at hright
    simp only [isProductive, everyRepetition, Bool.and_eq_true] at hp
    have hsecond := ihr he.2 hp.2 hc.2.2 hright
    have hfirst := ihl he.1 hp.1 hc.2.1 (h.left.of_lead (hc.1.fill_lead hr hsecond))
    exact .concatenation hfirst hsecond
  | @optional greedy e hb ih =>
    simp only [isProductive, everyRepetition, Bool.and_eq_true] at hp
    exact .option hb (ih he hp.2 hc h) greedy
  | @star greedy e hb ih =>
    obtain ⟨hn,hpe⟩ : e.nullable = false ∧ e.isProductive = true := by
      simpa [isProductive, everyRepetition] using hp
    rw [slots, if_pos rfl] at h
    exact .star hb hn greedy (reach_star hb hn greedy (ih he hpe hc) h)
  | @plus greedy e hb ih =>
    obtain ⟨hn,hpe⟩ : e.nullable = false ∧ e.isProductive = true := by
      simpa [isProductive, everyRepetition] using hp
    rw [slots, if_pos rfl] at h
    exact .plus hb hn greedy (reach_star hb hn greedy (ih he hpe hc) h)

end Front

end Term

end ByteAutomata
