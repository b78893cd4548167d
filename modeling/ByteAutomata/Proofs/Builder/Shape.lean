import Mathlib.Algebra.GroupWithZero.Nat
import ByteAutomata.Proofs.Builder.Build
import ByteAutomata.Proofs.Builder.Changes
import ByteAutomata.Proofs.Builder.Connected

/-! # The shape of an automaton

A built automaton has one vertex for every byte that a leaf of the unrolled tree takes, beside the
start vertex. It has no vertex to spare: each one lies on a path from the start vertex to a match. -/
namespace ByteAutomata

/-- How many bytes a string of the leaf has. -/
def Leaf.byteCount (s : BuilderSettings) : Leaf → Nat
  | literal codePoint => ((s.encoding.encode codePoint).getD []).length
  | dot => 1
  | charClass _ => 1

theorem Leaf.length_transitions (s : BuilderSettings) (l : Leaf) :
    ((l.transitions s).getD []).length = l.byteCount s := by
  cases l with
  | literal n =>
    rw [transitions, byteCount]
    cases s.encoding.encode n <;> simp
  | dot => rfl
  | charClass set => rfl

namespace Term

/-- All occurrences of leaves, from left to right. -/
def leaves : Term → List Leaf
  | leaf l => [l]
  | alternation l r => l.leaves ++ r.leaves
  | concatenation l r => l.leaves ++ r.leaves
  | repetition _ _ _ e => e.leaves

theorem width_eq (s : BuilderSettings) (e : Term) :
    e.width s = (e.leaves.map (Leaf.byteCount s)).sum := by
  induction e with
  | leaf l => rw [width, Leaf.length_transitions, leaves, List.map_singleton, List.sum_singleton]
  | alternation l r ihl ihr => rw [width, ihl, ihr, leaves, List.map_append, List.sum_append]
  | concatenation l r ihl ihr => rw [width, ihl, ihr, leaves, List.map_append, List.sum_append]
  | repetition min max greedy e ih => rw [width, ih, leaves]

end Term

namespace Graph
variable {g : Graph} {s : BuilderSettings} {e : Term} {label : Nat} {v w : Vertex}

/-- A path along the edges, whatever the conditions are. -/
def Path (g : Graph) : Vertex → Vertex → Prop := Relation.ReflTransGen fun v w => w ∈ g.outs v

/-- A graph with a start vertex of its own, no vertex to spare, and `label` at its matches. -/
structure Shaped (g : Graph) (label : Nat) : Prop where
  start : g.label 0 = none ∧ g.isMatch 0 = false
  unentered : g.ins 0 = [] ∧ ∀ v, 0 ∉ g.outs v
  conditions : ∀ v, 0 < v → v < g.size → ∃ t, g.label v = some t
  onPath : ∀ v, v < g.size → ∃ u, g.Path 0 v ∧ g.Path v u ∧ g.isMatch u = true
  matches_label : ∀ v t, g.label v = some t → t.isMatch = true → t.label = label
  others_label : ∀ v t, g.label v = some t → t.isMatch = false → t.label = 0

namespace Shows

theorem automaton_size (h : g.Shows (e.automaton s label)) : g.size = 1 + e.width s := by
  rw [h.size, Term.automaton, List.length_cons, List.length_map, Term.length_slots, Nat.add_comm]

theorem automaton_slot (h : g.Shows (e.automaton s label)) {v : Nat} (hpos : 0 < v)
    (hv : v < g.size) : ∃ i slot, v = 1 + i ∧ (e.slots s 1)[i]? = some slot := by
  obtain ⟨i,rfl⟩ := Nat.exists_eq_add_of_le hpos
  rw [h.automaton_size] at hv
  have hi : i < (e.slots s 1).length := by
    rw [Term.length_slots]
    omega
  exact ⟨i,_,rfl,List.getElem?_eq_getElem hi⟩

theorem automaton_label {i : Nat} {slot : Slot} (h : g.Shows (e.automaton s label))
    (hslot : (e.slots s 1)[i]? = some slot) : ∃ t, g.label (1 + i) = some t ∧
      (t.isMatch = true → t.label = label) ∧ (t.isMatch = false → t.label = 0) := by
  obtain ⟨-,hlabel⟩ := h.vertex (1 + i) _ (Term.getElem?_automaton hslot)
  obtain ⟨t,ht,hmatch,hzero⟩ := e.label_slots 1 slot (List.mem_of_getElem? hslot)
  rw [hlabel, Slot.marked]
  cases slot.gap.isOpen with
  | true =>
    refine ⟨{ t with label, isMatch := true },?_,fun _ => rfl,fun h => absurd h (by simp)⟩
    rw [if_pos rfl, ht, Option.map_some]
  | false => exact ⟨t,ht,fun h => absurd h (by simp [hmatch]),fun _ => hzero⟩

/-- The labels of all vertices. -/
theorem automaton_labels (h : g.Shows (e.automaton s label)) (v : Nat) (t : Transition)
    (ht : g.label v = some t) :
    (t.isMatch = true → t.label = label) ∧ (t.isMatch = false → t.label = 0) := by
  rcases Nat.eq_zero_or_pos v with rfl | hpos
  · obtain ⟨-,hstart⟩ := h.vertex 0 _ rfl
    exact absurd (ht.symm.trans hstart) (by simp)
  · rcases Nat.lt_or_ge v g.size with hv | hv
    · obtain ⟨i,slot,rfl,hslot⟩ := h.automaton_slot hpos hv
      obtain ⟨t',ht',hlabel⟩ := h.automaton_label hslot
      obtain rfl := Option.some.inj (ht'.symm.trans ht)
      exact hlabel
    · rw [Graph.label, Array.getElem?_eq_none hv, Option.bind_none] at ht
      cases ht

theorem path_of_way (h : g.Shows (e.automaton s label)) (hway : Slot.Way 1 (e.slots s 1) v w) :
    g.Path v w := by
  refine Relation.ReflTransGen.mono (fun v w hedge => ?_) v w hway
  obtain ⟨i,slot,hslot,rfl,hw⟩ := hedge
  rwa [(h.automaton_vertex hslot).1]

theorem match_of_ends (h : g.Shows (e.automaton s label)) (hends : Slot.Ends 1 (e.slots s 1) v) :
    g.isMatch v = true := by
  obtain ⟨i,slot,hslot,rfl,hopen⟩ := hends
  rw [(h.automaton_vertex hslot).2.1, hopen]

/-- The start vertex is the only one that is not a vertex of the term, and leads to its entries. -/
theorem exists_path (h : g.Shows (e.automaton s label)) (he : e.Encodable s) {v : Nat}
    (hv : v < g.size) : ∃ u, g.Path 0 v ∧ g.Path v u ∧ g.isMatch u = true := by
  have hconnected := Term.connected_slots he 1
  have henter : ∀ i, i < (e.slots s 1).length → g.Path 0 (1 + i) := by
    intro i hi
    obtain ⟨w,hw,hway⟩ := hconnected.entered i hi
    rw [← h.automaton_start.1] at hw
    exact .head hw (h.path_of_way hway)
  have hend : ∀ i, i < (e.slots s 1).length → ∃ u, g.Path (1 + i) u ∧ g.isMatch u = true := by
    intro i hi
    obtain ⟨u,hu,hway⟩ := hconnected.ended i hi
    exact ⟨u,h.path_of_way hway,h.match_of_ends hu⟩
  rcases Nat.eq_zero_or_pos v with rfl | hpos
  · have hwidth : 0 < (e.slots s 1).length := by
      rw [Term.length_slots]
      exact e.width_pos he (Leaf.transitions_ne_nil s)
    obtain ⟨u,hway,hu⟩ := hend 0 hwidth
    exact ⟨u,.refl,(henter 0 hwidth).trans hway,hu⟩
  · obtain ⟨i,slot,rfl,hslot⟩ := h.automaton_slot hpos hv
    have hi := (List.getElem?_eq_some_iff.mp hslot).1
    obtain ⟨u,hway,hu⟩ := hend i hi
    exact ⟨u,henter i hi,hway,hu⟩

theorem zero_notMem_outs (h : g.Shows (e.automaton s label)) (he : e.Encodable s) (v : Nat) :
    0 ∉ g.outs v := by
  intro hmem
  rcases Nat.eq_zero_or_pos v with rfl | hpos
  · rw [h.automaton_start.1] at hmem
    exact absurd (e.front_bounds 1 he (Leaf.transitions_ne_nil s) 0 hmem).1 (by decide)
  · rcases Nat.lt_or_ge v g.size with hv | hv
    · obtain ⟨i,slot,rfl,hslot⟩ := h.automaton_slot hpos hv
      rw [(h.automaton_vertex hslot).1] at hmem
      have hbound := Term.targets_bounds he 1 slot (List.mem_of_getElem? hslot) 0 hmem
      exact absurd hbound.1 (by decide)
    · rw [outs_of_size_le hv] at hmem
      cases hmem

theorem shaped (h : g.Shows (e.automaton s label)) (he : e.Encodable s) (hmade : g.Made) :
    g.Shaped label where
  start := ⟨(h.vertex 0 _ rfl).2,h.automaton_start.2⟩
  unentered := by
    have hout := h.zero_notMem_outs he
    refine ⟨List.eq_nil_iff_forall_not_mem.mpr fun v hv => ?_,hout⟩
    have hcount := hmade.tight.2 v 0
    rw [List.count_eq_zero.mpr (hout v)] at hcount
    exact absurd hv (List.count_eq_zero.mp hcount.symm)
  conditions v hpos hv := by
    obtain ⟨i,slot,rfl,hslot⟩ := h.automaton_slot hpos hv
    obtain ⟨t,ht,-⟩ := h.automaton_label hslot
    exact ⟨t,ht⟩
  onPath v hv := h.exists_path he hv
  matches_label v t ht := (h.automaton_labels v t ht).1
  others_label v t ht := (h.automaton_labels v t ht).2

end Shows
end Graph

/-- What a build yields for a well-formed tree has a vertex for each byte of its leaves and none
beside them but the start vertex, and no vertex to spare. -/
theorem Builder.build_shape {b b' : Builder} {t : Tree} (ht : t.WellFormed)
    (h : b.build t = (.ok (),b')) :
    ∃ u e, t.unroll = .ok u ∧ u.Spells e ∧
      b'.graph.size = 1 + (e.leaves.map (Leaf.byteCount b.settings)).sum ∧
      b'.graph.Shaped b.label := by
  obtain ⟨-,e,u,root,child,-,-,hu,hrep,he,-,hshows⟩ := represents_of_build ht h
  have hmade : b'.graph.Made := by
    have hleft := b.made_build t
    rwa [h] at hleft
  exact ⟨u,e,hu,hrep.spells,e.width_eq b.settings ▸ hshows.automaton_size,hshows.shaped he hmade⟩

/-- Two rounds or more of an optional letter of two bytes and any byte or another letter. -/
def Tree.roundsOfTwo : Tree where
  nodes := #[{ kind := .literal 0xE9 },.repetition 0 0 (some 1) false,{ kind := .dot },
    { kind := .literal 0x62 },.alternation 2 3,.concatenation 1 4,.repetition 5 2 none true,
    .regexp 6]
  root := some 7

theorem Builder.build_shape_roundsOfTwo :
    ∃ b' u e, ((Builder.ofSettings { encoding := .utf8 }).setLabel 7).build Tree.roundsOfTwo =
        (.ok (),b') ∧ Tree.roundsOfTwo.unroll = .ok u ∧ u.Spells e ∧
      b'.graph.size = 1 + (e.leaves.map (Leaf.byteCount { encoding := .utf8 })).sum ∧
      b'.graph.Shaped 7 := by
  let b := (Builder.ofSettings { encoding := .utf8 }).setLabel 7
  have ht : Tree.roundsOfTwo.WellFormed := .of_forall rfl rfl (by decide)
  have hok : (b.build Tree.roundsOfTwo).1 = .ok () := by decide +kernel
  have hbuild : b.build Tree.roundsOfTwo = (.ok (),(b.build Tree.roundsOfTwo).2) :=
    Prod.ext hok rfl
  obtain ⟨u,e,hu,he,hsize,hshape⟩ := Builder.build_shape ht hbuild
  exact ⟨_,u,e,hbuild,hu,he,hsize,hshape⟩

end ByteAutomata
