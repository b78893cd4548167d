import ByteAutomata.Proofs.Builder.Finish
import ByteAutomata.Proofs.Builder.InPlace
import ByteAutomata.Proofs.Graph.Walk
import ByteAutomata.Proofs.Tree.Unrolling

/-! # Builds of well-formed trees

A build unrolls the term of the tree and constructs its automaton. It fails if the term has a
repetition that allows no round, a literal that cannot be represented, or no byte to take, and in
no other way. -/
namespace ByteAutomata

namespace Graph.Shows
variable {s : BuilderSettings} {label i : Nat} {e : Term} {g : Graph} {slot : Slot}

/-- The start vertex leads to the entries and completes no match. -/
theorem automaton_start (h : g.Shows (e.automaton s label)) :
    g.outs 0 = (e.front s 1).targets ∧ g.isMatch 0 = false := by
  obtain ⟨houts,hlabel⟩ := h.vertex 0 _ rfl
  refine ⟨houts.trans (Gap.targets_closed _),?_⟩
  rw [isMatch, hlabel]
  rfl

/-- Any other vertex is that of the term, and completes a match if the term can end there. -/
theorem automaton_vertex (h : g.Shows (e.automaton s label))
    (hslot : (e.slots s 1)[i]? = some slot) :
    g.outs (1 + i) = slot.gap.targets ∧ g.isMatch (1 + i) = slot.gap.isOpen ∧
      ∀ b, g.accepts (1 + i) b = slot.label.any (·.accepts b) := by
  obtain ⟨houts,hlabel⟩ := h.vertex (1 + i) _ (Term.getElem?_automaton hslot)
  obtain ⟨t,ht,hmatch,-⟩ := e.label_slots 1 slot (List.mem_of_getElem? hslot)
  rw [Slot.gap_marked] at houts
  refine ⟨houts,?_,fun b => ?_⟩
  · rw [isMatch, hlabel, Slot.marked]
    cases hopen : slot.gap.isOpen <;> simp [ht, hmatch]
  · rw [accepts, hlabel, Slot.marked]
    cases hopen : slot.gap.isOpen
    · rfl
    · simp [ht, Transition.accepts]

end Graph.Shows

namespace Builder
variable {t : Tree} {root c : NodeId} {e e' : Term}
variable {b b' : Builder}

theorem assemble_of_unroll (s : BuilderSettings) (label : Nat) (h : t.Represents root c e)
    (he : e.unroll = some e') :
    ∃ u root' child, t.unroll = .ok u ∧ u.Represents root' child e' ∧
      Assembly.Outcome s label u child e' (assemble s label t) := by
  obtain ⟨u,root',child,hu,hrep⟩ := h.unroll_ok he
  refine ⟨u,root',child,hu,hrep,?_⟩
  rw [assemble, hu, ok_bind]
  exact Assembly.outcome_ofTree hrep (Term.isBasic_of_unroll he)

theorem assemble_of_not_unroll (s : BuilderSettings) (label : Nat) (h : t.Represents root c e)
    (he : e.unroll = none) :
    ∃ node, t.leaveOrder.find? t.isEmptyRepetition = some node ∧
      assemble s label t = .error (.rejected (.emptyRepetition node)) := by
  obtain ⟨node,hfirst,hunroll⟩ := h.unroll_error he
  exact ⟨node,hfirst,by rw [assemble, hunroll, error_bind]⟩

/-- The automaton of a tree is that of its unrolled tree. -/
theorem represents_of_build (ht : t.WellFormed) (h : b.build t = (.ok (),b')) :
    ∃ e e' u root child, t.Spells e ∧ e.unroll = some e' ∧ t.unroll = .ok u ∧
      u.Represents root child e' ∧ e'.Encodable b.settings ∧ e'.nullable = false ∧
      b'.graph.Shows (e'.automaton b.settings b.label) := by
  obtain ⟨root,c,e,hrep⟩ := ht.exists_represents
  have ha := assemble_of_build h
  cases he : e.unroll with
  | none =>
    obtain ⟨node,-,hnode⟩ := assemble_of_not_unroll b.settings b.label hrep he
    simp [hnode] at ha
  | some e' =>
    obtain ⟨u,root',child,hu,hrep',houtcome⟩ := assemble_of_unroll b.settings b.label hrep he
    rw [ha] at houtcome
    cases houtcome with
    | automaton henc hn hgraph hgood hstack =>
      exact ⟨e,e',u,root',child,hrep.spells,he,hu,hrep',henc,hn,hgraph⟩

/-- The automaton of a tree is that of its unrolled term. -/
theorem build_ok (ht : t.WellFormed) (h : b.build t = (.ok (),b')) :
    ∃ e e', t.Spells e ∧ e.unroll = some e' ∧ e'.Encodable b.settings ∧ e'.nullable = false ∧
      b'.graph.Shows (e'.automaton b.settings b.label) := by
  obtain ⟨e,e',-,-,-,hspells,he,-,-,henc,hn,hgraph⟩ := represents_of_build ht h
  exact ⟨e,e',hspells,he,henc,hn,hgraph⟩

/-- A term that can be unrolled and represented, and takes a byte at least, has an automaton. -/
theorem exists_build (ht : t.WellFormed) (hspells : t.Spells e) (he : e.unroll = some e')
    (henc : e'.Encodable b.settings) (hn : e'.nullable = false) :
    ∃ b', b.build t = (.ok (),b') := by
  obtain ⟨root,c,d,hrep⟩ := ht.exists_represents
  obtain rfl := hspells.unique hrep.spells
  obtain ⟨u,root',child,-,-,houtcome⟩ := assemble_of_unroll b.settings b.label hrep he
  have hresult := (b.build_eq t).1
  generalize assemble b.settings b.label t = x at houtcome hresult
  cases houtcome with
  | unencodable hnot => exact absurd henc hnot
  | nullable _ hnullable => simp [hn] at hnullable
  | automaton => exact ⟨(b.build t).2,Prod.ext hresult rfl⟩

end Builder
end ByteAutomata
