import ByteAutomata.Proofs.Tree.Reading
import ByteAutomata.Tree.Unroll

/-! # Unrolled trees

Unrolling only appends nodes, each behind its children, so the terms of older nodes stay as they
are. The image of a node reads as the unrolled term of the node, and nodes that are met again keep
their image. -/
namespace ByteAutomata
namespace Tree
variable {t t' t'' : Tree} {id child : NodeId} {e d e' : Term} {n : Nat}

/-- Every node of `t` is in `t'` as well. -/
def Extends (t t' : Tree) : Prop := ∀ id node, t.get? id = some node → t'.get? id = some node

theorem Extends.refl (t : Tree) : t.Extends t := fun _ _ h => h

theorem Extends.trans (h : t.Extends t') (h' : t'.Extends t'') : t.Extends t'' :=
  fun id node hid => h' id node (h id node hid)

theorem Reads.mono (h : t.Reads id e) (hext : t.Extends t') : t'.Reads id e := by
  induction h with
  | leaf h => exact .leaf (hext _ _ h)
  | alternation h _ _ ihl ihr => exact .alternation (hext _ _ h) ihl ihr
  | concatenation h _ _ ihl ihr => exact .concatenation (hext _ _ h) ihl ihr
  | repetition h _ ih => exact .repetition (hext _ _ h) ih

theorem Reads.lt_size (h : t.Reads id e) : id < t.size := by
  cases h with
  | leaf h => exact lt_size_of_get? h
  | alternation h => exact lt_size_of_get? h
  | concatenation h => exact lt_size_of_get? h
  | repetition h => exact lt_size_of_get? h

theorem not_reads_regexp (h : t.get? id = some (.regexp child)) : ¬ t.Reads id e := by
  intro hr
  cases hr with
  | @leaf _ l h' => cases l <;> cases h.symm.trans h'
  | alternation h' => cases h.symm.trans h'
  | concatenation h' => cases h.symm.trans h'
  | repetition h' => cases h.symm.trans h'

theorem descending_empty : empty.Descending := by
  rintro parent child ⟨node,hnode,-⟩
  exact absurd (lt_size_of_get? hnode) (Nat.not_lt_zero parent)

section Add
variable (node : Node)

theorem get?_add : (t.add node).2.get? (t.add node).1 = some node := by
  simp [add, get?, push, size]

theorem extends_add : t.Extends (t.add node).2 := by
  intro id node' h
  have hlt : id < t.nodes.size := lt_size_of_get? h
  have hpush : (t.nodes.push node)[id]? = t.nodes[id]? := by
    rw [Array.getElem?_push, if_neg (Nat.ne_of_lt hlt)]
  exact hpush.trans h

theorem Descending.add (h : t.Descending) (hc : ∀ c ∈ node.children, c < t.size) :
    (t.add node).2.Descending := by
  rintro parent child ⟨node',hnode,hchild⟩
  have hget : (t.nodes.push node)[parent]? = some node' := hnode
  rw [Array.getElem?_push] at hget
  split at hget
  · rename_i hparent
    obtain rfl := Option.some.inj hget
    exact hparent ▸ hc child hchild
  · exact h parent child ⟨node',hget,hchild⟩

end Add

/-- A node and the tree that holds it behind the nodes of `t`; the node reads as `e`. -/
structure Adds (t : Tree) (r : NodeId × Tree) (e : Term) : Prop where
  keeps : t.Extends r.2
  descending : r.2.Descending
  reads : r.2.Reads r.1 e

theorem Adds.existing (hd : t.Descending) (h : t.Reads id e) : t.Adds (id,t) e := ⟨.refl t,hd,h⟩

section Operators
variable {r : NodeId × Tree}

theorem Adds.leaf (hd : t.Descending) (l : Leaf) : t.Adds (t.add l.node) (.leaf l) where
  keeps := extends_add l.node
  descending := hd.add l.node (by simp)
  reads := .leaf (get?_add l.node)

theorem Descending.add_binary (hd : t.Descending) (kind : NodeKind) {left right : NodeId}
    (hl : t.Reads left d) (hr : t.Reads right e) :
    (t.add ⟨kind,some left,some right⟩).2.Descending := by
  refine hd.add _ fun c hc => ?_
  obtain rfl | rfl : c = left ∨ c = right := by simpa [Node.children] using hc
  · exact hl.lt_size
  · exact hr.lt_size

/-- A binary operator on nodes that adds what the operator on terms says. -/
def Builds (node : NodeId → NodeId → Node) (operator : Term → Term → Term) : Prop :=
  ∀ {t : Tree} {l r : NodeId} {d e : Term}, t.Descending → t.Reads l d → t.Reads r e →
    t.Adds (t.add (node l r)) (operator d e)

theorem Adds.alternation : Builds .alternation .alternation := fun hd hl hr =>
  ⟨extends_add _,hd.add_binary _ hl hr,
    .alternation (get?_add _) (hl.mono (extends_add _)) (hr.mono (extends_add _))⟩

theorem Adds.concatenation : Builds .concatenation .concatenation := fun hd hl hr =>
  ⟨extends_add _,hd.add_binary _ hl hr,
    .concatenation (get?_add _) (hl.mono (extends_add _)) (hr.mono (extends_add _))⟩

theorem Adds.repetition (hd : t.Descending) (hc : t.Reads child e) (min : Nat) (max : Option Nat)
    (greedy : Bool) :
    t.Adds (t.add (.repetition child min max greedy)) (.repetition min max greedy e) where
  keeps := extends_add _
  descending := by
    refine hd.add _ fun c hmem => ?_
    obtain rfl : c = child := by simpa using hmem
    exact hc.lt_size
  reads := .repetition (get?_add _) (hc.mono (extends_add _))

theorem Adds.extend (h : t.Adds r e) {r' : NodeId × Tree} (h' : r.2.Adds r' e') : t.Adds r' e' :=
  ⟨h.keeps.trans h'.keeps,h'.descending,h'.reads⟩

theorem Adds.prepend (h : t.Adds r e) (hc : t.Reads child d) :
    t.Adds (prepend child r) (.concatenation d e) :=
  h.extend (.concatenation h.descending (hc.mono h.keeps) h.reads)

theorem Adds.optional (h : t.Adds r e) (greedy : Bool) :
    t.Adds (optional greedy r) (.repetition 0 (some 1) greedy e) :=
  h.extend (.repetition h.descending h.reads 0 (some 1) greedy)

theorem Adds.copies (h : t.Adds r e) (hc : t.Reads child d) (count : Nat) :
    t.Adds (Nat.repeat (Tree.prepend child) count r) (d.copies count e) := by
  induction count with
  | zero => exact h
  | succ count ih => exact ih.prepend hc

theorem Adds.optionals (hd : t.Descending) (hc : t.Reads child d) (greedy : Bool) (count : Nat) :
    t.Adds (t.optionals child greedy count) (d.options greedy count) := by
  induction count with
  | zero => exact (Adds.existing hd hc).optional greedy
  | succ count ih => exact (ih.prepend hc).optional greedy

end Operators

/-- The nodes of a term, or an error about the node `id` if there is no term. -/
def Makes (t : Tree) (id : NodeId) (e? : Option Term) (x : Except BuildError (NodeId × Tree)) :
    Prop :=
  match e? with
  | some e => ∃ r, x = .ok r ∧ t.Adds r e
  | none => x = .error (.emptyRepetition id)

theorem addRepetition_makes (hd : t.Descending) (hc : t.Reads child e) (id min : Nat)
    (max : Option Nat) (greedy : Bool) :
    t.Makes id (e.unrollRepetition min max greedy)
      (t.addRepetition id child min max greedy) := by
  have hexisting := Adds.existing hd hc
  have hbounded : ∀ min max : Nat, t.Makes id
      (if max < min then none
        else if max = min then some (e.copies (min - 1) e)
        else some (e.copies min (e.options greedy (max - min - 1))))
      (if max < min then .error (.emptyRepetition id)
        else if max = min then .ok (Nat.repeat (prepend child) (min - 1) (child,t))
        else .ok (Nat.repeat (prepend child) min (t.optionals child greedy (max - min - 1)))) := by
    intro min max
    split_ifs
    · exact rfl
    · exact ⟨_,rfl,hexisting.copies hc _⟩
    · exact ⟨_,rfl,(Adds.optionals hd hc greedy _).copies hc _⟩
  match min, max with
  | 0, some 0 => exact rfl
  | 1, some 1 => exact ⟨_,rfl,hexisting⟩
  | 0, some 1 => exact ⟨_,rfl,.repetition hd hc 0 (some 1) greedy⟩
  | 0, none => exact ⟨_,rfl,.repetition hd hc 0 none greedy⟩
  | 1, none => exact ⟨_,rfl,.repetition hd hc 1 none greedy⟩
  | min + 2, none => exact ⟨_,rfl,(Adds.repetition hd hc 1 none greedy).copies hc _⟩
  | 0, some (max + 2) => exact hbounded 0 (max + 2)
  | 1, some 0 => exact hbounded 1 0
  | 1, some (max + 2) => exact hbounded 1 (max + 2)
  | min + 2, some max => exact hbounded (min + 2) max

end Tree

section Bounds

/-- Whether the node is a repetition whose bounds allow no round. -/
def Tree.isEmptyRepetition (t : Tree) (id : NodeId) : Bool :=
  match t.get? id with
  | some ⟨.repetition min (some max) _,_,_⟩ => decide (max < min ∨ min = 0 ∧ max = 0)
  | _ => false

variable {t : Tree} {id c : NodeId} {e : Term} {n : Nat}

theorem Tree.isEmptyRepetition_iff {min : Nat} {max : Option Nat} {greedy : Bool}
    (h : t.get? id = some (.repetition c min max greedy)) :
    t.isEmptyRepetition id = true ↔ ∃ m, max = some m ∧ (m < min ∨ m = 0) := by
  rw [isEmptyRepetition, h]
  cases max with
  | none => simp [Node.repetition]
  | some m =>
    simp only [Node.repetition, decide_eq_true_eq, Option.some.injEq, exists_eq_left']
    omega

theorem Tree.find?_postorder_binary {node : Node} {l r : NodeId} {p : NodeId → Bool}
    (h : t.get? id = some node) (hc : node.children = [l,r]) (hself : p id = false) (n : Nat) :
    (t.postorder (n + 1) id).find? p = none ↔
      (t.postorder n l).find? p = none ∧ (t.postorder n r).find? p = none := by
  rw [postorder_binary h hc, List.find?_append, List.find?_append, Option.or_eq_none_iff,
    Option.or_eq_none_iff]
  simp [hself]

/-- Every repetition on the way allows a round just if the term can be unrolled. -/
theorem Tree.find?_isEmptyRepetition (hr : t.Reads id e) (hh : t.HeightLE n id) :
    (t.postorder n id).find? t.isEmptyRepetition = none ↔ e.unroll ≠ none := by
  induction hr generalizing n with
  | @leaf id l h =>
    obtain ⟨n,rfl,-⟩ := hh.exists_succ h
    rw [postorder_leaf h (Node.children_leaf l)]
    cases l <;> simp [isEmptyRepetition, h, Leaf.node]
  | @alternation id l r d e h hl hr ihl ihr =>
    obtain ⟨n,rfl,hc⟩ := hh.exists_succ h
    have hself : t.isEmptyRepetition id = false := by rw [isEmptyRepetition, h]; rfl
    rw [find?_postorder_binary h (Node.children_alternation l r) hself, ihl (hc l (by simp)),
      ihr (hc r (by simp)), Ne, Ne, Ne, Term.unroll_alternation_eq_none, not_or]
  | @concatenation id l r d e h hl hr ihl ihr =>
    obtain ⟨n,rfl,hc⟩ := hh.exists_succ h
    have hself : t.isEmptyRepetition id = false := by rw [isEmptyRepetition, h]; rfl
    rw [find?_postorder_binary h (Node.children_concatenation l r) hself, ihl (hc l (by simp)),
      ihr (hc r (by simp)), Ne, Ne, Ne, Term.unroll_concatenation_eq_none, not_or]
  | @repetition id c d min max greedy h hc' ih =>
    obtain ⟨n,rfl,hc⟩ := hh.exists_succ h
    have hself : [id].find? t.isEmptyRepetition = none ↔ ¬ t.isEmptyRepetition id = true := by
      simp
    rw [postorder_unary h (Node.children_repetition c min max greedy), List.find?_append,
      Option.or_eq_none_iff, ih (hc c (by simp)), hself, isEmptyRepetition_iff h, Ne, Ne,
      Term.unroll_repetition_eq_none, not_or]

end Bounds

namespace Tree.Unrolling
variable {t : Tree} {u u' : Unrolling} {id c l r : NodeId} {e : Term} {n : Nat}

/-- Images read as the unrolled terms of their nodes. -/
structure Holds (t : Tree) (u : Unrolling) : Prop where
  size : u.image.size = t.size
  descending : u.result.Descending
  image : ∀ id new, u.imageOf id = some new →
    ∃ e e', t.Reads id e ∧ e.unroll = some e' ∧ u.result.Reads new e'

/-- Images of older nodes are not touched. -/
def Keeps (u u' : Unrolling) : Prop := ∀ id new, u.imageOf id = some new → u'.imageOf id = some new

theorem Keeps.trans {u'' : Unrolling} (h : u.Keeps u') (h' : u'.Keeps u'') : u.Keeps u'' :=
  fun id new hid => h' id new (h id new hid)

theorem Holds.reads {new : NodeId} {e' : Term} (h : u.Holds t) (hnew : u.imageOf id = some new)
    (hr : t.Reads id e) (he : e.unroll = some e') : u.result.Reads new e' := by
  obtain ⟨e₁,e₂,hr₁,he₁,hreads⟩ := h.image id new hnew
  obtain rfl := hr.unique hr₁
  obtain rfl : e' = e₂ := Option.some.inj (he.symm.trans he₁)
  exact hreads

theorem Holds.unroll_ne_none (h : u.Holds t) (hnew : (u.imageOf id).isSome) (hr : t.Reads id e) :
    e.unroll ≠ none := by
  obtain ⟨new,hnew⟩ := Option.isSome_iff_exists.mp hnew
  obtain ⟨e₁,e₂,hr₁,he₁,-⟩ := h.image id new hnew
  obtain rfl := hr.unique hr₁
  simp [he₁]

/-- The image of a node, once its nodes have been made. -/
def record (u : Unrolling) (id : NodeId) (p : NodeId × Tree) : Unrolling :=
  ⟨p.2,u.image.setIfInBounds id (some p.1)⟩

theorem imageOf_record (u : Unrolling) (id : NodeId) (p : NodeId × Tree) (hid : id < u.image.size)
    (id' : NodeId) : (u.record id p).imageOf id' = if id' = id then some p.1 else u.imageOf id' := by
  unfold imageOf record
  by_cases h : id' = id
  · subst h
    rw [Array.getElem?_setIfInBounds_self_of_lt hid, if_pos rfl]
    rfl
  · rw [Array.getElem?_setIfInBounds_ne (Ne.symm h), if_neg h]

theorem Holds.record {p : NodeId × Tree} {e' : Term} (h : u.Holds t) (hr : t.Reads id e)
    (he : e.unroll = some e') (hp : u.result.Adds p e') : (u.record id p).Holds t where
  size := by
    rw [Unrolling.record, Array.size_setIfInBounds]
    exact h.size
  descending := hp.descending
  image id' new hnew := by
    rw [imageOf_record u id p (h.size ▸ hr.lt_size)] at hnew
    split at hnew
    · rename_i heq
      obtain rfl := Option.some.inj hnew
      subst heq
      exact ⟨e,e',hr,he,hp.reads⟩
    · obtain ⟨e₁,e₂,hr₁,he₁,hreads⟩ := h.image id' new hnew
      exact ⟨e₁,e₂,hr₁,he₁,hreads.mono hp.keeps⟩

theorem visit_seen (h : (u.imageOf id).isSome) : u.visit t id = .ok u := by
  rw [visit, if_pos h]
  rfl

theorem visit_operator {node : Node} (h : t.get? id = some node) (hnew : u.imageOf id = none)
    (hkind : ∀ min max greedy, node.kind ≠ .repetition min max greedy) :
    u.visit t id = .ok (u.record id (u.result.add
      { node with left := node.left.bind u.imageOf, right := node.right.bind u.imageOf })) := by
  have hnode : t.node id = .ok node := by rw [Tree.node, h]
  rw [visit, if_neg (by simp [hnew]), hnode, mapError_ok, ok_bind]
  rcases node with ⟨kind,left,right⟩
  cases kind with
  | repetition min max greedy => exact absurd rfl (hkind min max greedy)
  | _ => rfl

theorem visit_repetition {min : Nat} {max : Option Nat} {greedy : Bool} {left right : Option NodeId}
    {new : NodeId} (h : t.get? id = some ⟨.repetition min max greedy,left,right⟩)
    (hnew : u.imageOf id = none) (hleft : left.bind u.imageOf = some new) :
    u.visit t id = ((u.result.addRepetition id new min max greedy).mapError .rejected).map
      (u.record id) := by
  have hnode : t.node id = .ok ⟨.repetition min max greedy,left,right⟩ := by rw [Tree.node, h]
  rw [visit, if_neg (by simp [hnew]), hnode, mapError_ok, ok_bind]
  simp only [hleft]
  cases u.result.addRepetition id new min max greedy <;> rfl

theorem visit_noOperand {min : Nat} {max : Option Nat} {greedy : Bool} {left right : Option NodeId}
    (h : t.get? id = some ⟨.repetition min max greedy,left,right⟩) (hnew : u.imageOf id = none)
    (hleft : left.bind u.imageOf = none) :
    u.visit t id = .error (.rejected (.missingOperand id)) := by
  have hnode : t.node id = .ok ⟨.repetition min max greedy,left,right⟩ := by rw [Tree.node, h]
  rw [visit, if_neg (by simp [hnew]), hnode, mapError_ok, ok_bind]
  simp only [hleft]
  rfl

/-- Another state in which the node `id` has an image too. -/
structure Reaches (t : Tree) (u : Unrolling) (id : NodeId) (u' : Unrolling) : Prop where
  holds : u'.Holds t
  keeps : u.Keeps u'
  image : (u'.imageOf id).isSome

/-- A node whose children have their images gets its own. -/
theorem Holds.visit_own {e' : Term} (p : NodeId × Tree) (h : u.Holds t) (hr : t.Reads id e)
    (he : e.unroll = some e') (hp : u.imageOf id = none → u.result.Adds p e')
    (hvisit : u.imageOf id = none → u.visit t id = .ok (u.record id p)) :
    ∃ u', u.visit t id = .ok u' ∧ u.Reaches t id u' := by
  cases hnew : u.imageOf id with
  | some new =>
    have hseen : (u.imageOf id).isSome := by rw [hnew]; rfl
    exact ⟨u,visit_seen hseen,h,fun _ _ h => h,hseen⟩
  | none =>
    have himage := imageOf_record u id p (h.size ▸ hr.lt_size)
    refine ⟨u.record id p,hvisit hnew,h.record hr he (hp hnew),fun id' new hid => ?_,?_⟩
    · rw [himage, if_neg (fun heq => by simp [heq, hnew] at hid)]
      exact hid
    · rw [himage, if_pos rfl]
      rfl

theorem Reaches.step (xs : List NodeId) (hrun : xs.foldlM (visit t) u = .ok u')
    (hkeeps : u.Keeps u') (h : ∃ u'', u'.visit t id = .ok u'' ∧ u'.Reaches t id u'') :
    ∃ u'', (xs ++ [id]).foldlM (visit t) u = .ok u'' ∧ u.Reaches t id u'' := by
  obtain ⟨u'',hvisit,hreaches⟩ := h
  refine ⟨u'',?_,hreaches.holds,hkeeps.trans hreaches.keeps,hreaches.image⟩
  rw [List.foldlM_append, hrun, ok_bind, List.foldlM_cons, hvisit]
  rfl

theorem Reaches.exists (h : u.Reaches t id u') : ∃ new, u'.imageOf id = some new :=
  Option.isSome_iff_exists.mp h.image

/-- The children of a binary operator, one after the other. -/
theorem Reaches.both {xs ys : List NodeId}
    (hl : ∃ u₁, xs.foldlM (visit t) u = .ok u₁ ∧ u.Reaches t l u₁)
    (hr : ∀ u₁, u₁.Holds t → ∃ u₂, ys.foldlM (visit t) u₁ = .ok u₂ ∧ u₁.Reaches t r u₂) :
    ∃ u₂ left right, (xs ++ ys).foldlM (visit t) u = .ok u₂ ∧ u₂.Holds t ∧ u.Keeps u₂ ∧
      u₂.imageOf l = some left ∧ u₂.imageOf r = some right := by
  obtain ⟨u₁,h₁,hreaches₁⟩ := hl
  obtain ⟨u₂,h₂,hreaches₂⟩ := hr u₁ hreaches₁.holds
  obtain ⟨left,hleft⟩ := hreaches₁.exists
  obtain ⟨right,hright⟩ := hreaches₂.exists
  refine ⟨u₂,left,right,?_,hreaches₂.holds,hreaches₁.keeps.trans hreaches₂.keeps,
    hreaches₂.keeps l left hleft,hright⟩
  rw [List.foldlM_append, h₁, ok_bind, h₂]

/-- A binary operator gets an image that is made of those of its operands. -/
theorem Holds.visits_binary {kind : NodeKind} {operator : Term → Term → Term} {d d' e' : Term}
    {xs ys : List NodeId} (hbuilds : Builds (fun left right => ⟨kind,some left,some right⟩) operator)
    (hkind : ∀ min max greedy, kind ≠ .repetition min max greedy)
    (hget : t.get? id = some ⟨kind,some l,some r⟩) (hreads : t.Reads id (operator d e))
    (hunroll : (operator d e).unroll = some (operator d' e')) (hl : t.Reads l d)
    (hd : d.unroll = some d') (hr : t.Reads r e) (he : e.unroll = some e')
    (hleft : ∃ u₁, xs.foldlM (visit t) u = .ok u₁ ∧ u.Reaches t l u₁)
    (hright : ∀ u₁, u₁.Holds t → ∃ u₂, ys.foldlM (visit t) u₁ = .ok u₂ ∧ u₁.Reaches t r u₂) :
    ∃ u', (xs ++ (ys ++ [id])).foldlM (visit t) u = .ok u' ∧ u.Reaches t id u' := by
  obtain ⟨u₂,left,right,hrun,hholds,hkeeps,hleft,hright⟩ := Reaches.both hleft hright
  rw [← List.append_assoc]
  refine Reaches.step _ hrun hkeeps
    (hholds.visit_own (u₂.result.add ⟨kind,some left,some right⟩) hreads hunroll ?_ ?_)
  · intro _
    exact hbuilds hholds.descending (hholds.reads hleft hl hd) (hholds.reads hright hr he)
  · intro hnew
    rw [visit_operator hget hnew hkind]
    simp [hleft, hright]

/-- A subtree that can be unrolled gets an image. -/
theorem Holds.visits {e' : Term} (h : u.Holds t) (hr : t.Reads id e) (hh : t.HeightLE n id)
    (he : e.unroll = some e') :
    ∃ u', (t.postorder n id).foldlM (visit t) u = .ok u' ∧ u.Reaches t id u' := by
  induction hr generalizing n u e' with
  | @leaf id leaf hget =>
    obtain ⟨n,rfl,-⟩ := hh.exists_succ hget
    rw [postorder_leaf hget (Node.children_leaf leaf)]
    refine Reaches.step [] rfl (fun _ _ h => h)
      (Holds.visit_own (u.result.add leaf.node) h (.leaf hget) he ?_ ?_)
    · intro _
      cases he
      exact .leaf h.descending leaf
    · intro hnew
      rw [visit_operator hget hnew (by cases leaf <;> simp [Leaf.node])]
      cases leaf <;> rfl
  | @alternation id l r d e hget hl hr ihl ihr =>
    obtain ⟨n,rfl,hc⟩ := hh.exists_succ hget
    obtain ⟨d',e',hd,he',rfl⟩ := Term.unroll_alternation.mp he
    rw [postorder_binary hget (Node.children_alternation l r)]
    exact Holds.visits_binary Adds.alternation (by simp) hget (.alternation hget hl hr) he hl hd hr
      he' (ihl h (hc l (by simp)) hd) fun u₁ h₁ => ihr h₁ (hc r (by simp)) he'
  | @concatenation id l r d e hget hl hr ihl ihr =>
    obtain ⟨n,rfl,hc⟩ := hh.exists_succ hget
    obtain ⟨d',e',hd,he',rfl⟩ := Term.unroll_concatenation.mp he
    rw [postorder_binary hget (Node.children_concatenation l r)]
    exact Holds.visits_binary Adds.concatenation (by simp) hget (.concatenation hget hl hr) he hl hd
      hr he' (ihl h (hc l (by simp)) hd) fun u₁ h₁ => ihr h₁ (hc r (by simp)) he'
  | @repetition id c d min max greedy hget hc' ih =>
    obtain ⟨n,rfl,hc⟩ := hh.exists_succ hget
    obtain ⟨d',hd,hunroll⟩ := Term.unroll_repetition.mp he
    rw [postorder_unary hget (Node.children_repetition c min max greedy)]
    obtain ⟨u₁,h₁,hreaches⟩ := ih h (hc c (by simp)) hd
    obtain ⟨new,hnew⟩ := hreaches.exists
    have hholds := hreaches.holds
    have hmakes :=
      addRepetition_makes hholds.descending (hholds.reads hnew hc' hd) id min max greedy
    rw [hunroll] at hmakes
    obtain ⟨p,hp,hadds⟩ := hmakes
    refine Reaches.step _ h₁ hreaches.keeps (hholds.visit_own p (.repetition hget hc') he ?_ ?_)
    · exact fun _ => hadds
    · intro hfresh
      rw [visit_repetition hget hfresh hnew, hp]
      rfl

/-- The run over these nodes ends at the first repetition that allows no round. -/
structure StopsAt (t : Tree) (u : Unrolling) (ids : List NodeId) (node : NodeId) : Prop where
  first : ids.find? t.isEmptyRepetition = some node
  error : ids.foldlM (visit t) u = .error (.rejected (.emptyRepetition node))

theorem StopsAt.append_left {xs : List NodeId} {node : NodeId} (h : StopsAt t u xs node)
    (ys : List NodeId) : StopsAt t u (xs ++ ys) node where
  first := by rw [List.find?_append, h.first, Option.some_or]
  error := foldlM_append_error h.error

theorem StopsAt.append_right {xs ys : List NodeId} {node : NodeId} (h : StopsAt t u' ys node)
    (hfind : xs.find? t.isEmptyRepetition = none) (hrun : xs.foldlM (visit t) u = .ok u') :
    StopsAt t u (xs ++ ys) node where
  first := by rw [List.find?_append, hfind, Option.none_or, h.first]
  error := (foldlM_append_ok hrun).trans h.error

/-- The first of two operands that cannot be unrolled ends the run. -/
theorem Holds.stops_binary {d : Term} (h : u.Holds t) (hreads : t.Reads l d)
    (hh : t.HeightLE n l) (zs : List NodeId)
    (hl : d.unroll = none → ∃ node, StopsAt t u (t.postorder n l) node)
    (hr : ∀ u₁, u₁.Holds t → e.unroll = none → ∃ node, StopsAt t u₁ (t.postorder n r) node)
    (hnone : d.unroll = none ∨ e.unroll = none) :
    ∃ node, StopsAt t u (t.postorder n l ++ (t.postorder n r ++ zs)) node := by
  cases hd : d.unroll with
  | none =>
    obtain ⟨node,hnode⟩ := hl hd
    exact ⟨node,hnode.append_left _⟩
  | some d' =>
    have he : e.unroll = none := hnone.resolve_left (by simp [hd])
    obtain ⟨u₁,h₁,hreaches⟩ := h.visits hreads hh hd
    obtain ⟨node,hnode⟩ := hr u₁ hreaches.holds he
    have hfind := (find?_isEmptyRepetition hreads hh).mpr (by simp [hd])
    exact ⟨node,(hnode.append_left zs).append_right hfind h₁⟩

/-- A subtree that cannot be unrolled is left at a repetition that allows no round. -/
theorem Holds.stops (h : u.Holds t) (hr : t.Reads id e) (hh : t.HeightLE n id)
    (he : e.unroll = none) : ∃ node, StopsAt t u (t.postorder n id) node := by
  induction hr generalizing n u with
  | leaf hget => simp [Term.unroll] at he
  | @alternation id l r d e hget hl hr ihl ihr =>
    obtain ⟨n,rfl,hc⟩ := hh.exists_succ hget
    rw [postorder_binary hget (Node.children_alternation l r)]
    exact h.stops_binary hl (hc l (by simp)) [id] (ihl h (hc l (by simp)))
      (fun u₁ h₁ => ihr h₁ (hc r (by simp))) (Term.unroll_alternation_eq_none.mp he)
  | @concatenation id l r d e hget hl hr ihl ihr =>
    obtain ⟨n,rfl,hc⟩ := hh.exists_succ hget
    rw [postorder_binary hget (Node.children_concatenation l r)]
    exact h.stops_binary hl (hc l (by simp)) [id] (ihl h (hc l (by simp)))
      (fun u₁ h₁ => ihr h₁ (hc r (by simp))) (Term.unroll_concatenation_eq_none.mp he)
  | @repetition id c d min max greedy hget hc' ih =>
    obtain ⟨n,rfl,hc⟩ := hh.exists_succ hget
    have hcc := hc c (by simp)
    rw [postorder_unary hget (Node.children_repetition c min max greedy)]
    cases hd : d.unroll with
    | none =>
      obtain ⟨node,hnode⟩ := ih h hcc hd
      exact ⟨node,hnode.append_left [id]⟩
    | some d' =>
      obtain ⟨u₁,h₁,hreaches⟩ := h.visits hc' hcc hd
      obtain ⟨new,hnew⟩ := hreaches.exists
      have hholds := hreaches.holds
      have hunroll : d'.unrollRepetition min max greedy = none := by
        simpa [Term.unroll, hd] using he
      have hmakes :=
        addRepetition_makes hholds.descending (hholds.reads hnew hc' hd) id min max greedy
      rw [hunroll] at hmakes
      -- an image of the repetition itself would be an unrolled form of it
      have hfresh : u₁.imageOf id = none := by
        cases hid : u₁.imageOf id with
        | none => rfl
        | some _ =>
          have hsome : (u₁.imageOf id).isSome := by rw [hid]; rfl
          exact absurd he (hholds.unroll_ne_none hsome (.repetition hget hc'))
      have hempty : t.isEmptyRepetition id = true :=
        (isEmptyRepetition_iff hget).mpr (Term.unrollRepetition_eq_none.mp hunroll)
      have hfind := (find?_isEmptyRepetition hc' hcc).mpr (by simp [hd])
      refine ⟨id,StopsAt.append_right ⟨List.find?_cons_of_pos hempty,?_⟩ hfind h₁⟩
      rw [List.foldlM_cons, visit_repetition hget hfresh hnew, hmakes]
      rfl

end Tree.Unrolling

namespace Tree
variable {t : Tree} {root c : NodeId} {e e' : Term}

theorem Unrolling.imageOf_replicate (t : Tree) (count id : Nat) :
    Unrolling.imageOf ⟨t,Array.replicate count none⟩ id = none := by
  rw [Unrolling.imageOf, Array.getElem?_replicate]
  split <;> rfl

theorem Unrolling.holds_empty (t : Tree) :
    Unrolling.Holds t ⟨empty,Array.replicate t.size none⟩ where
  size := Array.size_replicate
  descending := descending_empty
  image id new h := by
    rw [imageOf_replicate] at h
    cases h

theorem Represents.unroll_eq (h : t.Represents root c e) :
    t.unroll = (t.leaveOrder.foldlM (Unrolling.visit t)
      ⟨empty,Array.replicate t.size none⟩).map fun u =>
        { u.result with root := u.imageOf root } := by
  have hrun : t.foldLeft BuildFailure.fault (Unrolling.visit t)
      ⟨empty,Array.replicate t.size none⟩ = _ := foldLeft_eq h.atRoot h.height
  rw [unroll, h.atRoot, leaveOrder_eq h.atRoot h.height]
  simp only [hrun]
  cases List.foldlM (Unrolling.visit t) _ _ <;> rfl

/-- Unrolling succeeds just if the term of the tree can be unrolled. -/
theorem Represents.unroll_ok (h : t.Represents root c e) (he : e.unroll = some e') :
    ∃ u root' c', t.unroll = .ok u ∧ u.Represents root' c' e' := by
  have hunroll := h.unroll_eq
  rw [h.leaveOrder] at hunroll
  obtain ⟨u,hrun,hreaches⟩ := (Unrolling.holds_empty t).visits h.reads h.heightLE he
  have hholds := hreaches.holds
  obtain ⟨new,hnew⟩ := hreaches.exists
  have hreads := hholds.reads hnew h.reads he
  -- the root itself is no operand, so it has no image yet
  have hfresh : u.imageOf root = none := by
    cases hroot : u.imageOf root with
    | none => rfl
    | some new =>
      obtain ⟨_,_,hroot',-⟩ := hholds.image root new hroot
      exact absurd hroot' (not_reads_regexp h.top)
  let top := u.result.add (.regexp new)
  have hvisit : u.visit t root = .ok (u.record root top) := by
    rw [Unrolling.visit_operator h.top hfresh (by simp [Node.regexp])]
    simp [Node.regexp, hnew, top]
  have hroot : (u.record root top).imageOf root = some top.1 := by
    rw [Unrolling.imageOf_record u root top (hholds.size ▸ lt_size_of_get? h.top), if_pos rfl]
  have hdesc : top.2.Descending := by
    refine hholds.descending.add _ fun c hc => ?_
    obtain rfl : c = new := by simpa using hc
    exact hreads.lt_size
  have htop : top.2.get? top.1 = some (.regexp new) := get?_add _
  have hlt : top.1 < top.2.size := lt_size_of_get? htop
  have hextends : top.2.Extends { top.2 with root := some top.1 } := fun _ _ h => h
  refine ⟨{ top.2 with root := some top.1 },top.1,new,?_,rfl,htop,?_,?_⟩
  · rw [hunroll, foldlM_append_ok hrun, List.foldlM_cons, hvisit]
    exact congrArg (fun root => Except.ok { top.2 with root }) hroot
  · exact (hreads.mono (extends_add _)).mono hextends
  · have hheight' := Descending.heightLE (t := { top.2 with root := some top.1 }) hdesc hlt
    exact hheight'.mono hlt

theorem Represents.unroll_error (h : t.Represents root c e) (he : e.unroll = none) :
    ∃ node, t.leaveOrder.find? t.isEmptyRepetition = some node ∧
      t.unroll = .error (.rejected (.emptyRepetition node)) := by
  obtain ⟨node,hnode⟩ := (Unrolling.holds_empty t).stops h.reads h.heightLE he
  have hstops := hnode.append_left [root]
  rw [← h.leaveOrder] at hstops
  refine ⟨node,hstops.first,?_⟩
  rw [h.unroll_eq, hstops.error]
  rfl

end Tree
end ByteAutomata
