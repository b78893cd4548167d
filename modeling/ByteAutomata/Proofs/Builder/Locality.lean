import ByteAutomata.Proofs.Builder.Connected
import ByteAutomata.Proofs.Graph.Beside

/-! # Constructions in place

Whatever a builder holds already, the nodes of a subtree make a fragment and a part of the graph of
their own. The vertices are counted on from the ones that were there before, and everything else is
as if the subtree were all there is. -/
namespace ByteAutomata

namespace Fragment
variable {first second f : Fragment} (n : Nat) (id : NodeId)

/-- The same fragment, `n` vertices further on. -/
def shift (n : Nat) (f : Fragment) : Fragment :=
  { f with
    entries := f.entries.map (n + ·)
    exits := f.exits.map fun (v,pos) => (n + v,pos) }

theorem shift_alternate :
    (first.alternate second id).shift n = (first.shift n).alternate (second.shift n) id := by
  simp only [alternate, shift, List.map_append, List.length_map]

theorem shift_advanceExits (f : Fragment) (count : Nat) :
    (f.advanceExits count).shift n = (f.shift n).advanceExits count := by
  simp [advanceExits, shift]

theorem shift_moved :
    (first.moved second).shift n = (first.shift n).moved (second.shift n) := by
  have hyields : (first.shift n).yields (second.shift n) = first.yields second := rfl
  have hcount : (second.shift n).entries.length = second.entries.length := List.length_map _
  unfold moved
  rw [hyields, hcount, ← shift_advanceExits]
  split <;> rfl

theorem shift_spliceEntries {ws : List Vertex} (h : first.spliceEntries second = .ok ws) :
    (first.shift n).spliceEntries (second.shift n) = .ok (ws.map (n + ·)) := by
  have hsame : (first.shift n).skip = first.skip := rfl
  unfold spliceEntries at h ⊢
  rw [hsame]
  cases hskip : first.skip with
  | none =>
    rw [hskip] at h
    obtain rfl := Except.ok.inj h
    rfl
  | some skip =>
    simp only [hskip] at h
    split at h
    · rename_i hle
      obtain rfl := Except.ok.inj h
      simp [shift, hle]
    · cases h

theorem shift_concatenate (h : first.concatenate second id = .ok f) :
    (first.shift n).concatenate (second.shift n) id = .ok (f.shift n) := by
  obtain ⟨ws,hws,hf⟩ := bind_eq_ok.mp h
  obtain rfl := Except.ok.inj hf
  rw [concatenate, shift_spliceEntries n hws, ok_bind]
  change Except.ok (_ : Fragment) = _
  have hexits : (if second.isSkippable then first.exits ++ second.exits else second.exits).map
      (fun (v,pos) => (n + v,pos)) =
        if second.isSkippable then (first.shift n).exits ++ (second.shift n).exits
        else (second.shift n).exits := by
    split
    · exact List.map_append
    · rfl
  simp only [shift, hexits]
  rfl

theorem shift_skipLast (f : Fragment) : (f.skipLast id).shift n = (f.shift n).skipLast id := by
  simp [skipLast, shift]

end Fragment

namespace Slot
variable {base : Nat} {slot : Slot} {slots : List Slot} {v : Vertex}

theorem ends_cons :
    Ends base (slot :: slots) v ↔ slot.gap.isOpen = true ∧ v = base ∨ Ends (base + 1) slots v := by
  constructor
  · rintro ⟨i,slot',hslot,rfl,hopen⟩
    cases i with
    | zero =>
      obtain rfl : slot = slot' := by simpa using hslot
      exact Or.inl ⟨hopen,rfl⟩
    | succ i =>
      exact Or.inr ⟨i,slot',by simpa using hslot,(Nat.add_right_comm base 1 i).symm,hopen⟩
  · rintro (⟨hopen,rfl⟩ | ⟨i,slot',hslot,rfl,hopen⟩)
    · exact ⟨0,slot,rfl,rfl,hopen⟩
    · exact ⟨i + 1,slot',by simpa using hslot,Nat.add_right_comm base 1 i,hopen⟩

theorem mem_exits : v ∈ (exits base slots).map Prod.fst ↔ Ends base slots v := by
  induction slots generalizing base with
  | nil => simp [exits, Ends]
  | cons slot slots ih =>
    rw [exits, ends_cons, ← ih]
    split <;> simp_all

end Slot

namespace Assembly
variable {a part whole : Assembly} {s : BuilderSettings} {t : Tree} {id : NodeId}

/-- The assembly `whole` is `part`, built on top of `a`. -/
structure Beside (a part whole : Assembly) : Prop where
  graph : a.graph.Beside part.graph whole.graph
  stack : whole.stack = part.stack.map (Fragment.shift a.graph.size) ++ a.stack
  isGood : whole.isGood = a.isGood

theorem Beside.leaf (h : a.Beside part whole) (id : NodeId) (t : Transition) :
    a.Beside (part.leaf id t) (whole.leaf id t) where
  graph := h.graph.addLabeled t
  stack := by
    rw [Assembly.leaf, Assembly.leaf, h.stack, h.graph.size]
    rfl
  isGood := h.isGood

theorem carries_appendByte {g p w : Graph} (h : g.Beside p w) (hpos : 0 < p.size)
    (s : BuilderSettings) (b : UInt8) :
    Carries (fun p' w' => g.Beside p' w' ∧ 0 < p'.size) (appendByte s p b) (appendByte s w b) := by
  have hlast : w.size - 1 = g.size + (p.size - 1) := by
    rw [h.size]
    omega
  intro p' hp
  obtain ⟨w',hw,hsize,h'⟩ := (h.addLabeled (byteTransition s b)).addEdge (p.size - 1) p.size p' hp
  rw [Graph.size_addLabeled] at hsize
  refine ⟨w',?_,h',by omega⟩
  rw [appendByte, hlast, h.size]
  exact hw

theorem Beside.spell (h : a.Beside part whole) (s : BuilderSettings) (id codePoint : Nat)
    (bytes : List UInt8) :
    Carries a.Beside (part.spell s id codePoint bytes) (whole.spell s id codePoint bytes) := by
  cases bytes with
  | nil => exact .error _
  | cons b rest =>
    have hrun : Carries (fun p w => a.graph.Beside p w ∧ 0 < p.size)
        (rest.foldlM (appendByte s) (part.graph.addLabeled (byteTransition s b)))
        ((rest.map fun b => b).foldlM (appendByte s)
          (whole.graph.addLabeled (byteTransition s b))) :=
      .foldlM ⟨h.graph.addLabeled (byteTransition s b),by simp⟩
        fun p w hpw b _ => carries_appendByte hpw.1 hpw.2 s b
    rw [List.map_id'] at hrun
    refine hrun.mapError.bind fun p w ⟨hpw,hpos⟩ => .ok ⟨hpw,?_,h.isGood⟩
    have hlast : w.size - 1 = a.graph.size + (p.size - 1) := by
      rw [hpw.size]
      omega
    rw [h.stack, h.graph.size, hlast]
    rfl

/-- A change of the topmost fragment that does not depend on the vertices before. -/
theorem Beside.onTop (h : a.Beside part whole)
    {f : Graph → Fragment → Except BuildFailure (Graph × Fragment)}
    (hf : ∀ p w top, a.graph.Beside p w →
      Carries (fun x y => a.graph.Beside x.1 y.1 ∧ y.2 = x.2.shift a.graph.size) (f p top)
        (f w (top.shift a.graph.size))) :
    Carries a.Beside (part.onTop f) (whole.onTop f) := by
  obtain ⟨w,stack,good⟩ := whole
  obtain ⟨hgraph,hstack,hgood⟩ := h
  match part with
  | ⟨p,[],good'⟩ => exact .error _
  | ⟨p,top :: rest,good'⟩ =>
    dsimp only at hstack
    subst hstack
    refine (hf p w top hgraph).bind fun x y hxy => .ok ⟨hxy.1,?_,hgood⟩
    rw [hxy.2]
    rfl

theorem Beside.onTopTwo (h : a.Beside part whole)
    {f : Graph → Fragment → Fragment → Except BuildFailure (Graph × Fragment)}
    (hf : ∀ p w first second, a.graph.Beside p w →
      Carries (fun x y => a.graph.Beside x.1 y.1 ∧ y.2 = x.2.shift a.graph.size)
        (f p first second) (f w (first.shift a.graph.size) (second.shift a.graph.size))) :
    Carries a.Beside (part.onTopTwo f) (whole.onTopTwo f) := by
  obtain ⟨w,stack,good⟩ := whole
  obtain ⟨hgraph,hstack,hgood⟩ := h
  match part with
  | ⟨p,[],good'⟩ => exact .error _
  | ⟨p,[_],good'⟩ => exact .error _
  | ⟨p,second :: first :: rest,good'⟩ =>
    dsimp only at hstack
    subst hstack
    refine (hf p w first second hgraph).bind fun x y hxy => .ok ⟨hxy.1,?_,hgood⟩
    rw [hxy.2]
    rfl

theorem Beside.alternate (h : a.Beside part whole) (id : NodeId) :
    Carries a.Beside (part.alternate id) (whole.alternate id) :=
  h.onTopTwo fun _ _ _ _ hgraph => .ok ⟨hgraph,(Fragment.shift_alternate _ id).symm⟩

theorem Beside.concatenate (h : a.Beside part whole) (id : NodeId) :
    Carries a.Beside (part.concatenate id) (whole.concatenate id) := by
  refine h.onTopTwo fun p w first second hgraph => Carries.mapError ?_
  refine (hgraph.link first.exits second.entries).bind fun p' w' hgraph' => ?_
  change Carries _ ((first.moved second).concatenate second id >>= fun f => pure (p',f))
    (((first.shift a.graph.size).moved (second.shift a.graph.size)).concatenate
      (second.shift a.graph.size) id >>= fun f => pure (w',f))
  rw [← Fragment.shift_moved]
  have hshift : Carries (fun f f' => f' = f.shift a.graph.size)
      ((first.moved second).concatenate second id)
      (((first.moved second).shift a.graph.size).concatenate (second.shift a.graph.size) id) :=
    fun f hf => ⟨_,Fragment.shift_concatenate a.graph.size id hf,rfl⟩
  exact hshift.bind fun f f' hff => .ok ⟨hgraph',hff⟩

theorem Beside.repeatTop (h : a.Beside part whole) (id : NodeId) (greedy : Bool) :
    Carries a.Beside (part.repeatTop id greedy) (whole.repeatTop id greedy) := by
  refine h.onTop fun p w top hgraph => Carries.mapError ?_
  refine (hgraph.link top.exits top.entries).bind fun p' w' hgraph' => .ok ⟨hgraph',?_⟩
  cases greedy with
  | true => simp [Fragment.advanceExits, Fragment.shift]
  | false => rfl

theorem Beside.skipTop (h : a.Beside part whole) (id : NodeId) (greedy : Bool) :
    Carries a.Beside (part.skipTop id greedy) (whole.skipTop id greedy) := by
  refine h.onTop fun p w top hgraph => .ok ⟨hgraph,?_⟩
  cases greedy with
  | true => exact (Fragment.shift_skipLast _ id top).symm
  | false => rfl

theorem Beside.repetition (h : a.Beside part whole) (id min : Nat) (max : Option Nat)
    (greedy : Bool) :
    Carries a.Beside (part.repetition id min max greedy) (whole.repetition id min max greedy) := by
  unfold Assembly.repetition
  split
  · exact h.skipTop id greedy
  · exact (h.repeatTop id greedy).bind fun _ _ h' => h'.skipTop id greedy
  · exact h.repeatTop id greedy
  · exact .error _

/-- A node other than a root does the same, whatever has been built before. -/
theorem Beside.visit (h : a.Beside part whole) (s : BuilderSettings) (label label' : Nat)
    (hkind : ∀ node, t.get? id = some node → node.kind ≠ .regexp) :
    Carries a.Beside (part.visit s label t id) (whole.visit s label' t id) := by
  cases hnode : t.get? id with
  | none =>
    rw [Assembly.visit, Tree.node, hnode]
    exact .error _
  | some node =>
    have hnoroot := hkind node hnode
    rw [visit_eq hnode, visit_eq hnode]
    obtain ⟨kind,left,right⟩ := node
    cases kind with
    | regexp => exact absurd rfl hnoroot
    | alternation => exact h.alternate id
    | concatenation => exact h.concatenate id
    | repetition min max greedy => exact h.repetition id min max greedy
    | literal codePoint => exact h.spell s id codePoint _
    | dot => exact .ok (h.leaf id .any)
    | charClass set => exact .ok (h.leaf id _)

theorem Beside.visits (h : a.Beside part whole) (s : BuilderSettings) (label label' : Nat)
    {ids : List NodeId} (hkind : ∀ x ∈ ids, ∀ node, t.get? x = some node → node.kind ≠ .regexp) :
    Carries a.Beside (ids.foldlM (Assembly.visit s label t) part)
      (ids.foldlM (Assembly.visit s label' t) whole) := by
  have hrun : Carries a.Beside (ids.foldlM (Assembly.visit s label t) part)
      ((ids.map fun x => x).foldlM (Assembly.visit s label' t) whole) :=
    .foldlM h fun _ _ h' x hx => h'.visit s label label' (hkind x hx)
  rwa [List.map_id'] at hrun

/-- Nothing at all, not even a start vertex. -/
def blank : Assembly := ⟨Graph.empty,[],false⟩

theorem holds_blank : blank.Holds [] [] :=
  ⟨⟨Graph.tight_empty.toSound,rfl,fun _ _ h => nomatch h⟩,rfl,rfl⟩

theorem beside_blank (ha : a.graph.Made) : a.Beside blank a :=
  ⟨.empty ha,rfl,rfl⟩

end Assembly

theorem Tree.Reads.kind_ne {t : Tree} {id x : NodeId} {e : Term} {n : Nat} {node : Node}
    (h : t.Reads id e) (hh : t.HeightLE n id) (hx : x ∈ t.postorder n id)
    (hnode : t.get? x = some node) : node.kind ≠ .regexp := by
  obtain ⟨e',he'⟩ := h.descendant ((Tree.mem_postorder hh).mp hx)
  have hoperand := he'.isOperand hnode
  intro hkind
  rw [Node.IsOperand, hkind] at hoperand
  exact hoperand

namespace Term
variable {s : BuilderSettings} {e : Term}

/-- There is a way in and a way out, both at vertices of the term. -/
theorem fragment_bounds (he : e.Encodable s) (base : Nat) (id : NodeId) :
    (Fragment.ofTerm s e base id).entries ≠ [] ∧ (Fragment.ofTerm s e base id).exits ≠ [] ∧
      (∀ v ∈ (Fragment.ofTerm s e base id).entries, base ≤ v ∧ v < base + e.width s) ∧
      ∀ p ∈ (Fragment.ofTerm s e base id).exits, base ≤ p.1 ∧ p.1 < base + e.width s := by
  have hconnected := connected_slots he base
  have hpos : 0 < (e.slots s base).length := by
    rw [length_slots]
    exact e.width_pos he (Leaf.transitions_ne_nil s)
  refine ⟨hconnected.entries_ne_nil hpos,?_,e.front_bounds base he (Leaf.transitions_ne_nil s),?_⟩
  · obtain ⟨v,hv,-⟩ := hconnected.ended 0 hpos
    intro hnil
    have hmem := Slot.mem_exits.mpr hv
    rw [show Slot.exits base (e.slots s base) = [] from hnil] at hmem
    cases hmem
  · intro p hp
    obtain ⟨i,slot,hslot,hv,-⟩ := Slot.mem_exits.mp (List.mem_map_of_mem hp)
    have hi := (List.getElem?_eq_some_iff.mp hslot).1
    rw [length_slots] at hi
    rw [hv]
    exact ⟨Nat.le_add_right base i,Nat.add_lt_add_left hi base⟩

end Term

namespace Builder
variable {t : Tree} {id : NodeId} {e : Term} {n : Nat} {s : BuilderSettings}

section States
variable {b : Builder}

theorem assembly_settle_error {e : BuildFailure} {x : Except BuildFailure Assembly}
    (h : (b.settle x).1 = .error e) : (b.settle x).2.assembly = b.assembly := by
  cases x with
  | error _ => rfl
  | ok a => cases h

/-- A step that fails changes nothing but the buffer. -/
theorem assembly_visit_error {e : BuildFailure} (h : (b.visit t id).1 = .error e) :
    (b.visit t id).2.assembly = b.assembly := by
  unfold visit at h ⊢
  cases hnode : t.node id with
  | error fault => rfl
  | ok node =>
    obtain ⟨kind,left,right⟩ := node
    rw [hnode] at h
    cases kind with
    | literal codePoint => exact assembly_settle_error (b := (b.spelling codePoint).2) h
    | _ => exact assembly_settle_error h

theorem made_visit (h : b.graph.Made) (t : Tree) (id : NodeId) : (b.visit t id).2.graph.Made := by
  have hfollows := b.follows_visit t id
  have hstep := Assembly.made_visit h b.settings b.label t id
  rw [graph]
  cases hx : b.assembly.visit b.settings b.label t id with
  | ok a =>
    rw [hfollows.assembly a hx]
    exact (hx ▸ hstep).of_ok
  | error e =>
    have hresult := hfollows.result
    rw [hx] at hresult
    rw [assembly_visit_error hresult]
    exact h

/-- In whatever state a run over some nodes leaves a builder, its graph has been made by changes. -/
theorem made_visitAll (h : b.graph.Made) (t : Tree) (ids : List NodeId) :
    (b.visitAll t ids).2.graph.Made := by
  induction ids generalizing b with
  | nil => exact h
  | cons id ids ih =>
    have hvisit := made_visit h t id
    rw [visitAll]
    generalize b.visit t id = r at hvisit ⊢
    obtain ⟨_ | _,b'⟩ := r
    · exact hvisit
    · exact ih hvisit

end States

/-- From `b` to `b'` the fragment `f` and the graph `part` are added, with their vertices counted on
from those of `b`, and nothing else changes. -/
structure Adds (part : Multigraph) (f : Fragment) (b b' : Builder) : Prop where
  stack : b'.assembly.stack = f.shift b.graph.size :: b.assembly.stack
  isGood : b'.isGood = b.isGood
  graph : b'.graph.view = b.graph.view.beside part
  made : b'.graph.Made
  kept : ∀ v, v < b.graph.size → b'.graph.label v = b.graph.label v ∧
    ∀ side, b'.graph.neighbours side v = b.graph.neighbours side v
  edges : ∀ side v w, b.graph.size ≤ v → w ∈ b'.graph.neighbours side v →
    v < b'.graph.size ∧ b.graph.size ≤ w ∧ w < b'.graph.size
  entries : ∀ v ∈ (f.shift b.graph.size).entries, b.graph.size ≤ v ∧ v < b'.graph.size
  exits : ∀ p ∈ (f.shift b.graph.size).exits, b.graph.size ≤ p.1 ∧ p.1 < b'.graph.size

/-- A subtree adds one fragment with a graph of its own, which are the same in every state that a
builder can be in, up to the number that their vertices are counted on from. -/
theorem visitAll_subtree (hr : t.Reads id e) (hb : e.IsBasic) (hh : t.HeightLE n id)
    (he : e.Encodable s) :
    ∃ part f, f.entries ≠ [] ∧ f.exits ≠ [] ∧ ∀ b : Builder, b.settings = s → b.graph.Made →
      ∃ b', b.visitAll t (t.postorder n id) = (.ok (),b') ∧ b.Adds part f b' := by
  obtain ⟨a,hrun,hgraph,hstack,-⟩ := Assembly.holds_blank.visits 0 hr hb hh he
  obtain ⟨hentries,hexits,hin,hout⟩ := Term.fragment_bounds he 0 id
  refine ⟨a.graph.view,.ofTerm s e 0 id,hentries,hexits,?_⟩
  rintro b rfl hmade
  obtain ⟨a',hrun',hbeside⟩ := (Assembly.beside_blank hmade).visits b.settings 0 b.label
    (fun x hx node => hr.kind_ne hh hx) a hrun
  obtain ⟨hresult,hassembly,-,-⟩ := b.follows_visitAll t (t.postorder n id)
  rw [hrun'] at hresult hassembly
  refine ⟨(b.visitAll t (t.postorder n id)).2,Prod.ext hresult rfl,?_⟩
  obtain rfl := hassembly a' rfl
  have hnew : ∀ i : Vertex, i < 0 + e.width b.settings → b.graph.size ≤ b.graph.size + i ∧
      b.graph.size + i < (b.visitAll t (t.postorder n id)).2.graph.size := by
    intro i hi
    have hsize := hbeside.graph.size
    rw [hgraph.size, List.nil_append, Term.length_slots] at hsize
    rw [Nat.zero_add] at hi
    exact ⟨Nat.le_add_right _ i,hsize ▸ Nat.add_lt_add_left hi _⟩
  refine ⟨?_,hbeside.isGood,hbeside.graph.view,hbeside.graph.made,fun v hv => ?_,?_,?_,?_⟩
  · rw [hbeside.stack, hstack]
    rfl
  · exact ⟨hbeside.graph.label_of_lt hv,hbeside.graph.neighbours_of_lt hv⟩
  · exact fun side v w hv hw => hbeside.graph.neighbours_of_le hv hw
  · intro v hv
    obtain ⟨i,hi,rfl⟩ := List.mem_map.mp hv
    exact hnew i (hin i hi).2
  · intro p hp
    obtain ⟨q,hq,rfl⟩ := List.mem_map.mp hp
    exact hnew q.1 (hout q hq).2

/-- One letter repeated, or another one. -/
def starOrLetter : Tree where
  nodes := #[{ kind := .literal 97 },.repetition 0 0 none true,{ kind := .literal 98 },
    .alternation 1 2]
  root := none

/-- A builder that has just taken the first letter. -/
def afterLetter : Builder := ((ofSettings {}).visitAll starOrLetter [0]).2

theorem visitAll_subtree_starOrLetter :
    ∃ part f b', f.entries ≠ [] ∧ f.exits ≠ [] ∧
      afterLetter.visitAll starOrLetter [0,1,2,3] = (.ok (),b') ∧ afterLetter.Adds part f b' ∧
      b'.assembly.stack.map (·.entries) = [[2,3],[1],[0]] := by
  have hdescending : starOrLetter.Descending := .of_forall (by decide)
  have hreads : starOrLetter.Reads 3 (.alternation (.repetition 0 none true (.leaf (.literal 97)))
      (.leaf (.literal 98))) := .alternation rfl (.repetition rfl (.leaf rfl)) (.leaf rfl)
  have hencodable : ∀ n, n = 97 ∨ n = 98 → (Leaf.literal n).transitions {} ≠ none := by
    rintro n (rfl | rfl) <;> decide
  obtain ⟨part,f,hentries,hexits,hadds⟩ := visitAll_subtree (s := {}) hreads
    (.alternation (.star true (.leaf _)) (.leaf _)) (hdescending.heightLE (by decide))
    ⟨hencodable 97 (Or.inl rfl),hencodable 98 (Or.inr rfl)⟩
  obtain ⟨b',hrun,hadd⟩ := hadds afterLetter (by decide)
    (made_visitAll (b := ofSettings {}) Assembly.made_start starOrLetter [0])
  refine ⟨part,f,b',hentries,hexits,hrun,hadd,?_⟩
  have hafter : b' = (afterLetter.visitAll starOrLetter [0,1,2,3]).2 :=
    (congrArg Prod.snd hrun).symm
  rw [hafter]
  decide +kernel

end Builder

end ByteAutomata
