import ByteAutomata.Proofs.Builder.Build
import ByteAutomata.Proofs.Tree.Meaning

/-! # Errors of a build

A well-formed tree is refused for three causes, each of which hides the ones after it: a repetition
that allows no round, a literal that cannot be represented, and a match without a byte. -/
namespace ByteAutomata

namespace Tree
variable {s : BuilderSettings} {t : Tree} {root c : NodeId} {e : Term}

theorem Closed.findSome?_leaveOrder {β : Type} (h : t.Closed) (f : NodeId → Option β) :
    t.leaveOrder.findSome? f = none ↔ ∀ id, t.Reachable id → f id = none := by
  simp only [List.findSome?_eq_none_iff, h.mem_leaveOrder]

/-- The root is no literal. -/
theorem Represents.findSome?_leaveOrder (h : t.Represents root c e) (s : BuilderSettings) :
    t.leaveOrder.findSome? (t.unencodable? s) =
      (t.postorder t.size c).findSome? (t.unencodable? s) := by
  have hroot : t.unencodable? s root = none := by
    rw [unencodable?, h.top]
    rfl
  rw [h.leaveOrder, List.findSome?_append, List.findSome?_singleton, hroot, Option.or_none]

theorem Represents.encodable_iff (h : t.Represents root c e) (hclosed : t.Closed) :
    e.Encodable s ↔ ∀ id, t.Reachable id → t.unencodable? s id = none := by
  rw [← hclosed.findSome?_leaveOrder, h.findSome?_leaveOrder,
    Assembly.findSome_unencodable h.reads h.heightLE]

end Tree

namespace Builder
variable {t : Tree}

/-- What a build comes to: the first cause to refuse the tree, or else an automaton, with its
fragment alone on the stack. -/
inductive Outcome (b : Builder) (t : Tree) : Except BuildFailure Unit × Builder → Prop where
  | emptyRepetition {node : NodeId} {b' : Builder} (hnode : t.Reachable node)
      (hfirst : t.leaveOrder.find? t.isEmptyRepetition = some node) :
      Outcome b t (.error (.rejected (.emptyRepetition node)),b')
  | unencodableLiteral {u : Tree} {codePoint : Nat} {node : NodeId} {b' : Builder}
      (hrounds : ∀ id, t.Reachable id → t.isEmptyRepetition id = false)
      (hliteral : ∃ id, t.Reachable id ∧ t.unencodable? b.settings id ≠ none)
      (hunroll : t.unroll = .ok u)
      (hfirst : u.leaveOrder.findSome? (u.unencodable? b.settings) = some (codePoint,node)) :
      Outcome b t (.error (.rejected (.unencodableLiteral codePoint node)),b')
  | zeroLengthMatch {b' : Builder}
      (hrounds : ∀ id, t.Reachable id → t.isEmptyRepetition id = false)
      (hliterals : ∀ id, t.Reachable id → t.unencodable? b.settings id = none)
      (hnil : [] ∈ t.language b.settings) :
      Outcome b t (.error (.rejected .zeroLengthMatch),b')
  | automaton {b' : Builder} (hrounds : ∀ id, t.Reachable id → t.isEmptyRepetition id = false)
      (hliterals : ∀ id, t.Reachable id → t.unencodable? b.settings id = none)
      (hnil : [] ∉ t.language b.settings) (hstack : b'.assembly.stack.length = 1) :
      Outcome b t (.ok (),b')

/-- Every well-formed tree has one of these outcomes. -/
theorem build_outcome (b : Builder) (ht : t.WellFormed) : Outcome b t (b.build t) := by
  obtain ⟨root,c,e,hrep⟩ := ht.exists_represents
  have hclosed := ht.closed
  obtain ⟨hresult,hassembly,-,-⟩ := b.build_eq t
  generalize b.build t = r at hresult hassembly
  obtain ⟨result,b'⟩ := r
  dsimp only at hresult hassembly
  cases he : e.unroll with
  | none =>
    obtain ⟨node,hfirst,hbuild⟩ := assemble_of_not_unroll b.settings b.label hrep he
    rw [hbuild] at hresult
    subst hresult
    exact .emptyRepetition (hclosed.mem_leaveOrder.mp (List.mem_of_find?_eq_some hfirst)) hfirst
  | some e' =>
    have hrounds := (hclosed.find?_leaveOrder _).mp (hrep.unroll_ne_none.mp (by simp [he]))
    obtain ⟨u,root',child,hu,hrep',houtcome⟩ := assemble_of_unroll b.settings b.label hrep he
    have hencodable : e'.Encodable b.settings ↔
        ∀ id, t.Reachable id → t.unencodable? b.settings id = none :=
      (Term.encodable_unroll he).trans (hrep.encodable_iff hclosed)
    have hnil : [] ∈ t.language b.settings ↔ e'.nullable = true := by
      rw [hrep.spells.language_eq, ← Term.language_unroll _ he]
      exact Term.nil_mem_language (Term.isBasic_of_unroll he)
    generalize assemble b.settings b.label t = x at houtcome hresult hassembly
    subst hresult
    cases houtcome with
    | @unencodable hnot codePoint node hfirst =>
      have hliteral := mt hencodable.mpr hnot
      push Not at hliteral
      rw [← hrep'.findSome?_leaveOrder] at hfirst
      exact .unencodableLiteral hrounds hliteral hu hfirst
    | nullable henc hn => exact .zeroLengthMatch hrounds (hencodable.mp henc) (hnil.mpr hn)
    | automaton henc hn hgraph hgood hstack =>
      have hproductive : [] ∉ t.language b.settings := by
        rw [hnil, hn]
        exact Bool.false_ne_true
      exact .automaton hrounds (hencodable.mp henc) hproductive (hassembly ▸ hstack)

/-- Two rounds of a letter that not every encoding has. -/
def accentTwice : Tree where
  nodes := #[{ kind := .literal 0xE9 },.repetition 0 2 (some 2) true,.regexp 1]
  root := some 2

theorem build_outcome_accentTwice :
    accentTwice.WellFormed ∧ Outcome {} accentTwice (build {} accentTwice) := by
  have ht : accentTwice.WellFormed := .of_forall rfl rfl (by decide)
  exact ⟨ht,build_outcome {} ht⟩

end Builder
end ByteAutomata
