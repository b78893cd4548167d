import ByteAutomata.Proofs.Tree.Closed

/-! # The meaning of an unrolled tree

A tree of which every repetition allows a round can be unrolled. The result has the basic
repetitions only, and it has the strings of the tree and its matches in the same order. -/
namespace ByteAutomata.Tree
variable {t : Tree} {root c : NodeId} {e : Term}

theorem Closed.find?_leaveOrder (h : t.Closed) (p : NodeId → Bool) :
    t.leaveOrder.find? p = none ↔ ∀ id, t.Reachable id → p id = false := by
  simp only [List.find?_eq_none, h.mem_leaveOrder, Bool.not_eq_true]

theorem Represents.isEmptyRepetition_root (h : t.Represents root c e) :
    t.isEmptyRepetition root = false := by
  rw [isEmptyRepetition, h.top]
  rfl

theorem Represents.unroll_ne_none (h : t.Represents root c e) :
    e.unroll ≠ none ↔ t.leaveOrder.find? t.isEmptyRepetition = none := by
  rw [h.leaveOrder, List.find?_append, Option.or_eq_none_iff,
    find?_isEmptyRepetition h.reads h.heightLE]
  simp [h.isEmptyRepetition_root]

/-- Unrolling succeeds and keeps the language and the order of the matches. -/
theorem unroll_meaning (ht : t.WellFormed)
    (hrounds : ∀ id, t.Reachable id → t.isEmptyRepetition id = false) :
    ∃ e u e', t.Spells e ∧ t.unroll = .ok u ∧ u.WellFormed ∧ u.Spells e' ∧ e'.IsBasic ∧
      (∀ s, u.language s = t.language s) ∧
      ∀ s text start, e'.matchEnds s text start = e.matchEnds s text start := by
  obtain ⟨root,c,e,hrep⟩ := ht.exists_represents
  have hsome := hrep.unroll_ne_none.mpr ((ht.closed.find?_leaveOrder _).mpr hrounds)
  obtain ⟨e',he⟩ := Option.ne_none_iff_exists'.mp hsome
  obtain ⟨u,root',c',hu,hrep'⟩ := hrep.unroll_ok he
  have hunrolled := ht.closed.unroll
  rw [hu] at hunrolled
  have hclosed := hunrolled.of_ok.1
  refine ⟨e,u,e',hrep.spells,hu,.of_reads hclosed hrep'.atRoot hrep'.top hrep'.reads,hrep'.spells,
    Term.isBasic_of_unroll he,fun s => ?_,fun s text start => ?_⟩
  · rw [hrep'.spells.language_eq, hrep.spells.language_eq, Term.language_unroll s he]
  · rw [Term.matchEnds, Term.matchEnds, Term.rests_unroll s he]

/-- Two or three dots, twice, any number of times, with one node for all dots. -/
def sharedRounds : Tree where
  nodes := #[{ kind := .dot },.repetition 0 2 (some 3) false,.concatenation 1 1,
    .repetition 2 0 none true,.regexp 3]
  root := some 4

theorem unroll_meaning_sharedRounds :
    sharedRounds.WellFormed ∧
      (∀ id, sharedRounds.Reachable id → sharedRounds.isEmptyRepetition id = false) ∧
      ∃ e u e', sharedRounds.Spells e ∧ sharedRounds.unroll = .ok u ∧ u.WellFormed ∧
        u.Spells e' ∧ e'.IsBasic ∧ (∀ s, u.language s = sharedRounds.language s) ∧
        ∀ s text start, e'.matchEnds s text start = e.matchEnds s text start := by
  have ht : sharedRounds.WellFormed := .of_forall rfl rfl (by decide)
  have hall : ∀ i : Fin sharedRounds.nodes.size, sharedRounds.isEmptyRepetition i.val = false := by
    decide
  have hrounds : ∀ id, sharedRounds.Reachable id → sharedRounds.isEmptyRepetition id = false := by
    intro id hid
    obtain ⟨node,hnode⟩ := ht.closed.exists_node (ht.closed.mem_leaveOrder.mpr hid)
    exact hall ⟨id,lt_size_of_get? hnode⟩
  exact ⟨ht,hrounds,unroll_meaning ht hrounds⟩

end ByteAutomata.Tree
