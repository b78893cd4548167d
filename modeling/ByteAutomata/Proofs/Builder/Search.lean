import ByteAutomata.Proofs.Builder.Build
import ByteAutomata.Proofs.Builder.Preference

/-! # The order of a search

A search ends at the first vertex that completes a match, so it finds the preferred match of a
tree whose last vertices have no successors: one that ends with a leaf. The operands of each
concatenation have to suit each other, which they do not always: for two operands that can be
skipped both, and for a reluctant one behind an operand that cannot be skipped, the order of
preference is lost. -/
namespace ByteAutomata

namespace Term
variable {s : BuilderSettings} {x : Term} {z : Leaf} {e' : Term}

/-- Where the term ends, no other way on is preferred. -/
def EndsFirst (s : BuilderSettings) (e : Term) : Prop :=
  ∀ slot ∈ e.slots s 1, slot.gap.isOpen = true → slot.gap.before = []

theorem endsFirst_leaf (s : BuilderSettings) (x : Term) (z : Leaf) :
    (concatenation x (leaf z)).EndsFirst s := by
  intro slot hslot hopen
  rw [slots, List.mem_append, List.mem_map] at hslot
  -- the exits of `x` lead on to the leaf, so none of them is left open
  obtain ⟨slot',-,rfl⟩ | hslot := hslot
  · have hclosed : (slot'.lead (x.yields s (leaf z))
        ((leaf z).front s (1 + x.width s)).targets false).gap.isOpen = false := by
      rw [Slot.lead, Gap.isOpen_lead, Bool.and_false]
    exact absurd (hclosed.symm.trans hopen) (by simp)
  · obtain ⟨-,hgap | ⟨v,hgap⟩⟩ := Slot.mem_row _ hslot
    · rw [hgap]
      rfl
    · rw [hgap] at hopen
      cases hopen

theorem unroll_leaf (h : (concatenation x (leaf z)).unroll = some e') :
    ∃ x', x.unroll = some x' ∧ e' = concatenation x' (leaf z) := by
  obtain ⟨x',z',hx,hz,rfl⟩ := unroll_concatenation.mp h
  obtain rfl := Option.some.inj hz
  exact ⟨x',hx,rfl⟩

theorem EachConcatenation.mono {p q : Term → Term → Prop} (hpq : ∀ l r, p l r → q l r)
    {e : Term} (h : e.EachConcatenation p) : e.EachConcatenation q := by
  induction e with
  | leaf l => trivial
  | alternation l r ihl ihr => exact ⟨ihl h.1,ihr h.2⟩
  | concatenation l r ihl ihr => exact ⟨hpq l r h.1,ihl h.2.1,ihr h.2.2⟩
  | repetition min max greedy e ih => exact ih h

/-- What cannot be skipped does not yield. -/
theorem yields_of_not_nullable {l r : Term} (h : l.nullable = false) : l.yields s r = false := by
  have hskip : (l.front s 0).skip = none := by
    rw [Gap.skip, isOpen_front, h]
    rfl
  rw [yields, hskip]

end Term

namespace Graph
variable {g : Graph} {s : BuilderSettings} {e : Term} {label : Nat}

/-- A search by the successors of the vertex. -/
theorem search_eq (g : Graph) (text : List UInt8) (v : Vertex) :
    g.search text v =
      if g.isMatch v then some text
      else reach (fun w => Search.entered (g.label w) fun rest => g.search rest w) (g.outs v)
        text := by
  rw [Search.reach_apply]
  cases text with
  | nil =>
    have hnone : (g.outs v).findSome? (fun w =>
        Search.entered (g.label w) (fun rest => g.search rest w) []) = none :=
      List.findSome?_eq_none_iff.mpr fun _ _ => rfl
    rw [search, hnone]
  | cons b rest =>
    rw [search]
    rfl

theorem Shows.solves_search (h : g.Shows (e.automaton s label)) (hends : e.EndsFirst s) :
    Slot.Solves (fun v => Search.entered (g.label v) fun rest => g.search rest v)
      Search.entered some 1 (e.slots s 1) := by
  intro i slot hslot
  obtain ⟨houts,hmatch,haccepts⟩ := h.automaton_vertex hslot
  have hsearch : (fun rest => g.search rest (1 + i)) =
      slot.gap.fill (fun v => Search.entered (g.label v) fun rest => g.search rest v) some := by
    funext rest
    rw [search_eq, hmatch, houts]
    cases hopen : slot.gap.isOpen with
    | true =>
      have hbefore := hends slot (List.mem_of_getElem? hslot) hopen
      rw [if_pos rfl, Gap.fill, hbefore, if_pos hopen]
      rfl
    | false => rw [if_neg Bool.false_ne_true, Gap.fill_of_not_isOpen _ _ _ hopen]
  funext text
  cases text with
  | nil => rfl
  | cons b rest =>
    have hrest := congrFun hsearch rest
    have hbyte := haccepts b
    rw [accepts] at hbyte
    simp only [Search.entered, hbyte, hrest]

/-- The search of the automaton finds the first match of the term. -/
theorem Shows.search_start (h : g.Shows (e.automaton s label)) (hb : e.IsBasic)
    (he : e.Encodable s) (hn : e.nullable = false) (hp : e.isProductive = true)
    (hc : e.EachConcatenation (Term.Suits s)) (hends : e.EndsFirst s) (text : List UInt8) :
    g.search text 0 = (e.rests s text).head? := by
  obtain ⟨houts,hmatch⟩ := h.automaton_start
  have horders := Term.fill_front hb he hp hc (h.solves_search hends)
  rw [search_eq, hmatch, if_neg Bool.false_ne_true, houts, horders.targets,
    Term.first_of_not_nullable hb hn]
  cases e.rests s text <;> rfl

end Graph

namespace Builder
variable {b b' : Builder} {t : Tree} {x e' : Term} {z : Leaf}

theorem matchEnd_of_suits (ht : t.WellFormed) (hspells : t.Spells (.concatenation x (.leaf z)))
    (hunroll : (Term.concatenation x (.leaf z)).unroll = some e') (hp : e'.isProductive = true)
    (hc : e'.EachConcatenation (Term.Suits b.settings)) (h : b.build t = (.ok (),b'))
    (text : List UInt8) (start : Nat) :
    b'.graph.matchEnd text start =
      ((Term.concatenation x (.leaf z)).matchEnds b.settings text start).head? := by
  obtain ⟨e,e₂,hspells',hunroll',he,hn,hshows⟩ := b.build_ok ht h
  obtain rfl := hspells.unique hspells'
  obtain rfl : e' = e₂ := Option.some.inj (hunroll.symm.trans hunroll')
  have hends : e'.EndsFirst b.settings := by
    obtain ⟨x',-,rfl⟩ := Term.unroll_leaf hunroll
    exact Term.endsFirst_leaf b.settings x' z
  have hsearch := hshows.search_start (Term.isBasic_of_unroll hunroll) he hn hp hc hends
  rw [Graph.matchEnd, hsearch, Term.rests_unroll b.settings hunroll, Term.matchEnds, List.head?_map]

/-- The search finds the preferred match if every operand that can be skipped stands behind one
that cannot, and is left without a byte as a last resort. -/
theorem matchEnd_of_emptyLast (ht : t.WellFormed)
    (hspells : t.Spells (.concatenation x (.leaf z)))
    (hunroll : (Term.concatenation x (.leaf z)).unroll = some e') (hp : e'.isProductive = true)
    (hc : e'.EachConcatenation fun l r =>
      r.nullable = false ∨ l.nullable = false ∧ r.EmptyLast b.settings)
    (h : b.build t = (.ok (),b')) (text : List UInt8) (start : Nat) :
    b'.graph.matchEnd text start =
      ((Term.concatenation x (.leaf z)).matchEnds b.settings text start).head? := by
  refine matchEnd_of_suits ht hspells hunroll hp (hc.mono fun l r hlr => ?_) h text start
  rcases hlr with hr | ⟨hl,hr⟩
  · exact Or.inl hr
  · exact Or.inr (Or.inl ⟨Term.yields_of_not_nullable hl,hr⟩)

end Builder

/-- What comes before the `c` in `a+?b?c`. -/
def Term.reluctantThenGreedy : Term :=
  .concatenation (.repetition 1 none false (.leaf (.literal 97)))
    (.repetition 0 (some 1) true (.leaf (.literal 98)))

def Tree.reluctantThenGreedy : Tree where
  nodes := #[{ kind := .literal 97 },.repetition 0 1 none false,{ kind := .literal 98 },
    .repetition 2 0 (some 1) true,.concatenation 1 3,{ kind := .literal 99 },.concatenation 4 5,
    .regexp 6]
  root := some 7

theorem Builder.matchEnd_reluctantThenGreedy :
    ∃ b', ({} : Builder).build Tree.reluctantThenGreedy = (.ok (),b') ∧
      ∀ text start, b'.graph.matchEnd text start =
        ((Term.concatenation .reluctantThenGreedy (.leaf (.literal 99))).matchEnds {} text
          start).head? := by
  have hok : (({} : Builder).build Tree.reluctantThenGreedy).1 = .ok () := by decide +kernel
  obtain ⟨b',hbuild⟩ : ∃ b', ({} : Builder).build Tree.reluctantThenGreedy = (.ok (),b') :=
    ⟨_,Prod.ext hok rfl⟩
  have ht : Tree.reluctantThenGreedy.WellFormed := .of_forall rfl rfl (by decide)
  have hspells : Tree.reluctantThenGreedy.Spells
      (.concatenation .reluctantThenGreedy (.leaf (.literal 99))) :=
    ⟨7,6,rfl,rfl,.concatenation rfl
      (.concatenation rfl (.repetition rfl (.leaf rfl)) (.repetition rfl (.leaf rfl)))
      (.leaf rfl)⟩
  have hlast : (Term.repetition 0 (some 1) true (.leaf (.literal 98))).EmptyLast {} := by
    intro text
    rw [Term.rests_option, furtherRounds_succ, if_pos rfl, furtherRounds_zero,
      List.flatMap_singleton']
    exact (Term.emptyLast_of_not_nullable (.leaf _) rfl text).append_self
  refine ⟨b',hbuild,Builder.matchEnd_of_emptyLast ht hspells rfl rfl ?_ hbuild⟩
  exact ⟨Or.inl rfl,⟨Or.inr ⟨rfl,hlast⟩,trivial,trivial⟩,trivial⟩

end ByteAutomata
