import Mathlib.Algebra.GroupWithZero.Nat
import Mathlib.Algebra.Order.BigOperators.Group.List
import Mathlib.Algebra.Order.Group.Int
import Mathlib.Algebra.Order.Monoid.OrderDual
import Mathlib.Algebra.Ring.Int.Defs
import ByteAutomata.Proofs.Builder.Safety
import ByteAutomata.Proofs.Tree.Images

/-! # Depth of the stack

A construction does not look at the children of a node. All that it notices of a malformed tree is
the number of fragments on the stack, so a surplus at one node can make up for what is missing at
another, and a whole expression within a tree passes for the end. What is wrong in one direction
only cannot be hidden in this way. -/
namespace ByteAutomata

/-- The number of fragments that a node takes from the stack before it puts its own there. -/
def NodeKind.takes : NodeKind → Nat
  | .regexp | .alternation | .concatenation => 2
  | .repetition .. => 1
  | .literal _ | .dot | .charClass _ => 0

namespace Node
variable {node node' : Node}

/-- Whether some child is one that the kind of the node has no use for. -/
def hasSurplus (node : Node) : Bool :=
  match node.kind with
  | .alternation | .concatenation => false
  | .regexp | .repetition .. => node.right.isSome
  | .literal _ | .dot | .charClass _ => node.left.isSome || node.right.isSome

/-- Whether some child is missing that the kind of the node asks for. -/
def lacksOperand (node : Node) : Bool :=
  match node.kind with
  | .alternation | .concatenation => node.left.isNone || node.right.isNone
  | .regexp | .repetition .. => node.left.isNone
  | .literal _ | .dot | .charClass _ => false

/-- What the children put on the stack and the node leaves there. -/
def excess (node : Node) : Int := node.children.length - node.kind.takes

theorem length_children (node : Node) :
    node.children.length = node.left.isSome.toNat + node.right.isSome.toNat := by
  obtain ⟨kind,left,right⟩ := node
  cases left <;> cases right <;> rfl

theorem SameShape.excess_eq (h : node.SameShape node') : node.excess = node'.excess := by
  rw [excess, excess, length_children, length_children, h.kind, h.left, h.right]

theorem IsOperand.excess_eq (h : node.IsOperand) : node.excess = 0 := by
  obtain ⟨l,rfl⟩ | ⟨l,r,rfl⟩ | ⟨l,r,rfl⟩ | ⟨c,min,max,greedy,rfl⟩ := h.cases
  · cases l <;> rfl
  · rfl
  · rfl
  · rfl

theorem excess_nonpos (h : node.hasSurplus = false) : node.excess ≤ 0 := by
  obtain ⟨kind,left,right⟩ := node
  rw [excess, length_children]
  cases kind <;> cases left <;> cases right <;> simp_all [hasSurplus, NodeKind.takes]

theorem excess_nonneg (h : node.lacksOperand = false) (hkind : node.kind ≠ .regexp) :
    0 ≤ node.excess := by
  obtain ⟨kind,left,right⟩ := node
  rw [excess, length_children]
  cases kind <;> cases left <;> cases right <;> simp_all [lacksOperand, NodeKind.takes]

theorem right_eq_none (h : node.hasSurplus = false)
    (hkind : node.kind = .regexp ∨ node.IsRepetition) : node.right = none := by
  rw [hasSurplus] at h
  rcases hkind with hkind | ⟨min,max,greedy,hkind⟩
  · rw [hkind] at h
    simpa using h
  · rw [hkind] at h
    simpa using h

theorem isSome_left (h : node.lacksOperand = false) (hkind : node.kind = .regexp) :
    node.left.isSome := by
  rw [lacksOperand, hkind] at h
  simpa [Option.isSome_iff_ne_none] using h

/-- Where nothing is left over and nothing is missing in total, all is in its place. -/
theorem isOperand_of_excess (h : node.excess = 0)
    (hside : node.hasSurplus = false ∨ node.lacksOperand = false ∧ node.kind ≠ .regexp) :
    node.IsOperand := by
  obtain ⟨kind,left,right⟩ := node
  rw [excess, length_children] at h
  cases kind <;> cases left <;> cases right <;>
    simp_all [hasSurplus, lacksOperand, NodeKind.takes, IsOperand]

end Node

/-- The excess at a node; there is none where there is no node. -/
def Tree.excessAt (t : Tree) (id : NodeId) : Int := ((t.get? id).map Node.excess).getD 0

namespace Assembly
variable {s : BuilderSettings} {label n : Nat} {u : Tree} {id : NodeId} {kind : NodeKind}
variable {a a' a'' : Assembly}

/-- A step that puts one fragment in the place of `n`. -/
structure Replaces (n : Nat) (a a' : Assembly) : Prop where
  length : a'.stack.length + n = a.stack.length + 1
  good : a'.isGood = a.isGood

theorem Replaces.trans (h : a.Replaces n a') (h' : a'.Replaces 1 a'') : a.Replaces n a'' where
  length := by
    have hlength := h'.length
    rw [Nat.add_right_cancel hlength]
    exact h.length
  good := h'.good.trans h.good

theorem replaces_onTop {f : Graph → Fragment → Except BuildFailure (Graph × Fragment)}
    (h : a.onTop f = .ok a') : a.Replaces 1 a' := by
  match a with
  | ⟨g,[],good⟩ => cases h
  | ⟨g,top :: rest,good⟩ =>
    obtain ⟨p,-,hp⟩ := bind_eq_ok.mp h
    obtain rfl := Except.ok.inj hp
    exact ⟨rfl,rfl⟩

theorem replaces_onTopTwo
    {f : Graph → Fragment → Fragment → Except BuildFailure (Graph × Fragment)}
    (h : a.onTopTwo f = .ok a') : a.Replaces 2 a' := by
  match a with
  | ⟨g,[],good⟩ => cases h
  | ⟨g,[_],good⟩ => cases h
  | ⟨g,second :: first :: rest,good⟩ =>
    obtain ⟨p,-,hp⟩ := bind_eq_ok.mp h
    obtain rfl := Except.ok.inj hp
    exact ⟨rfl,rfl⟩

theorem replaces_spell {codePoint : Nat} {bytes : List UInt8}
    (h : a.spell s id codePoint bytes = .ok a') : a.Replaces 0 a' := by
  cases bytes with
  | nil => cases h
  | cons b rest =>
    obtain ⟨g,-,hg⟩ := bind_eq_ok.mp h
    obtain rfl := Except.ok.inj hg
    exact ⟨rfl,rfl⟩

theorem replaces_repetition {min : Nat} {max : Option Nat} {greedy : Bool}
    (h : a.repetition id min max greedy = .ok a') : a.Replaces 1 a' := by
  unfold repetition at h
  split at h
  · exact replaces_onTop h
  · obtain ⟨a₁,h₁,h₂⟩ := bind_eq_ok.mp h
    have hrepeat : a.Replaces 1 a₁ := replaces_onTop h₁
    exact hrepeat.trans (replaces_onTop h₂)
  · exact replaces_onTop h
  · cases h

theorem replaces_apply (hkind : kind ≠ .regexp) (h : a.apply s label id kind = .ok a') :
    a.Replaces kind.takes a' := by
  cases kind with
  | regexp => exact absurd rfl hkind
  | alternation => exact replaces_onTopTwo h
  | concatenation => exact replaces_onTopTwo h
  | repetition min max greedy => exact replaces_repetition h
  | literal codePoint => exact replaces_spell h
  | dot =>
    obtain rfl := Except.ok.inj h
    exact ⟨rfl,rfl⟩
  | charClass set =>
    obtain rfl := Except.ok.inj h
    exact ⟨rfl,rfl⟩

/-- A whole expression ends with the start fragment and one more. -/
theorem length_finish (h : a.finish label id = .ok a') :
    a.stack.length = 2 ∧ a'.stack.length = 1 := by
  unfold finish at h
  split at h
  · cases h
  · rename_i hlength
    obtain ⟨a₁,h₁,h₂⟩ := bind_eq_ok.mp h
    have hjoined : a.Replaces 2 a₁ := replaces_onTopTwo h₁
    have htwo : a.stack.length = 2 := not_not.mp hlength
    have hone := hjoined.length
    refine ⟨htwo,?_⟩
    match a₁ with
    | ⟨g,[],good⟩ => cases h₂
    | ⟨g,top :: rest,good⟩ =>
      obtain ⟨g',-,hg'⟩ := bind_eq_ok.mp h₂
      obtain rfl := Except.ok.inj hg'
      dsimp only at hone ⊢
      omega

/-- One step, whatever the kind of the node. -/
theorem length_visit {node : Node} (hnode : u.get? id = some node)
    (h : a.visit s label u id = .ok a') :
    a'.stack.length + node.kind.takes = a.stack.length + 1 := by
  rw [visit_eq hnode] at h
  by_cases hkind : node.kind = .regexp
  · rw [hkind] at h ⊢
    obtain ⟨htwo,hone⟩ := length_finish h
    rw [htwo, hone]
    rfl
  · exact (replaces_apply hkind h).length

/-- Below its top, a subtree leaves a fragment and what is in excess at its nodes. -/
theorem length_visits {cs : List NodeId} (hh : ∀ c ∈ cs, u.HeightLE n c)
    (h : (cs.flatMap (u.postorder n)).foldlM (visit s label u) a = .ok a') :
    (a'.stack.length : Int) =
      a.stack.length + cs.length + ((cs.flatMap (u.postorder n)).map u.excessAt).sum := by
  refine Tree.postorder_induction (motive := fun a cs ids a' =>
    (a'.stack.length : Int) = a.stack.length + cs.length + (ids.map u.excessAt).sum) hh h ?_ ?_ ?_
  · intro a
    simp
  · intro a a₁ a' c cs xs ys hfirst hrest
    rw [List.length_singleton] at hfirst
    rw [List.map_append, List.sum_append, List.length_cons]
    omega
  · intro n a a₁ a' c node hnode _ _ hchildren hvisit
    have hexcess : u.excessAt c = node.children.length - node.kind.takes := by
      rw [Tree.excessAt, hnode]
      rfl
    have hlength := length_visit hnode hvisit
    rw [List.map_append, List.sum_append, List.map_singleton, List.sum_singleton, hexcess,
      List.length_singleton]
    omega

/-- Only a whole expression makes an assembly good. -/
theorem isGood_foldlM {ids : List NodeId}
    (hids : ∀ id ∈ ids, ∃ node, u.get? id = some node ∧ node.kind ≠ .regexp)
    (h : ids.foldlM (visit s label u) a = .ok a') : a'.isGood = a.isGood := by
  induction ids generalizing a with
  | nil =>
    obtain rfl := Except.ok.inj h
    rfl
  | cons id ids ih =>
    obtain ⟨⟨node,hnode,hkind⟩,hrest⟩ := List.forall_mem_cons.mp hids
    rw [List.foldlM_cons] at h
    obtain ⟨a₁,h₁,hothers⟩ := bind_eq_ok.mp h
    rw [visit_eq hnode] at h₁
    exact (ih hrest hothers).trans (replaces_apply hkind h₁).good

end Assembly

namespace Tree
variable {s : BuilderSettings} {label : Nat} {t u : Tree} {a : Assembly} {root : NodeId}
variable {node : Node}

/-- A tree that goes wrong in one direction at most: it has no surplus child, or it lacks no
operand. Nor does a whole expression end the construction before the root. -/
inductive OneSided (t : Tree) : Prop where
  | sparse
      (hsurplus : ∀ id node, t.Reachable id → t.get? id = some node → node.hasSurplus = false)
      (hrooted : ∀ root id top node, t.root = some root → t.get? root = some top →
        t.Reachable id → t.get? id = some node → node.kind = .regexp → top.kind = .regexp)
  | full
      (hlacks : ∀ id node, t.Reachable id → t.get? id = some node → node.lacksOperand = false)
      -- unrolling drops the right child of a repetition
      (hrepetition : ∀ id node, t.Reachable id → t.get? id = some node → node.IsRepetition →
        node.right = none)
      (hnested : ∀ root id node, t.root = some root → Relation.TransGen t.Child root id →
        t.get? id = some node → node.kind ≠ .regexp)

/-- Where no whole expression is left, none is complete. -/
theorem Closed.not_isGood (h : t.Closed) (hu : t.unroll = .ok u)
    (hkind : ∀ id node, t.Reachable id → t.get? id = some node → node.kind ≠ .regexp)
    (ha : u.leaveOrder.foldlM (Assembly.visit s label u) .start = .ok a) : a.isGood = false := by
  have hunrolled := h.unroll
  rw [hu] at hunrolled
  obtain ⟨hclosed,-⟩ := hunrolled.of_ok
  refine Assembly.isGood_foldlM (fun id hid => ?_) ha
  obtain ⟨node,hnode⟩ := hclosed.exists_node hid
  refine ⟨node,hnode,fun hregexp => ?_⟩
  rcases h.nodes_of_unroll hu hnode with hop | ⟨id',node',hreach,hnode',hshape⟩
  · rw [Node.IsOperand, hregexp] at hop
    exact hop
  · exact hkind id' node' hreach hnode' (hshape.kind.trans hregexp)

/-- At the root there are two fragments just if nothing is in excess below it. -/
theorem Closed.sum_excess {top : NodeId} (hclosed : u.Closed) (htop : u.root = some top)
    (hnode : u.get? top = some node) (hkind : node.kind = .regexp)
    (ha : u.leaveOrder.foldlM (Assembly.visit s label u) .start = .ok a) :
    a.stack.length = 1 ∧ ∃ below : List NodeId,
      (∀ id, id ∈ below ↔ Relation.TransGen u.Child top id) ∧
        node.children.length + (below.map u.excessAt).sum = 1 := by
  obtain ⟨n,hc,horder⟩ := hclosed.leaveOrder_eq htop hnode
  rw [horder, List.foldlM_append] at ha
  obtain ⟨a₁,h₁,hlast⟩ := bind_eq_ok.mp ha
  rw [Assembly.foldlM_singleton hnode, hkind] at hlast
  obtain ⟨htwo,hone⟩ := Assembly.length_finish hlast
  refine ⟨hone,_,fun id => mem_flatMap_postorder hnode hc,?_⟩
  have hdepth := Assembly.length_visits hc h₁
  rw [htwo] at hdepth
  have hstart : Assembly.start.stack.length = 1 := rfl
  omega

/-- Nodes that repetitions stand for have no excess. -/
theorem Traced.excessAt {top id : NodeId} {P : Int → Prop} (h : t.Traced u root top)
    (hzero : P 0) (hsource : ∀ id node, Relation.TransGen t.Child root id →
      t.get? id = some node → P node.excess)
    (hbelow : Relation.TransGen u.Child top id) : P (u.excessAt id) := by
  unfold Tree.excessAt
  cases hnode : u.get? id with
  | none => exact hzero
  | some node =>
    change P node.excess
    rcases h.source id node hbelow hnode with hop | ⟨id',node',hbelow',hnode',hshape⟩
    · rwa [hop.excess_eq]
    · rw [← hshape.excess_eq]
      exact hsource id' node' hbelow' hnode'

/-- Numbers of one sign do not cancel. -/
theorem excessAt_eq_zero {ids : List NodeId} {count : Nat}
    (hsum : count + (ids.map u.excessAt).sum = 1)
    (hsign : (count ≤ 1 ∧ ∀ id ∈ ids, u.excessAt id ≤ 0) ∨
      (1 ≤ count ∧ ∀ id ∈ ids, 0 ≤ u.excessAt id)) :
    count = 1 ∧ ∀ id ∈ ids, u.excessAt id = 0 := by
  rcases hsign with ⟨hcount,hle⟩ | ⟨hcount,hge⟩
  · have hle' : ∀ x ∈ ids.map u.excessAt, x ≤ 0 := List.forall_mem_map.mpr hle
    have hnonpos : (ids.map u.excessAt).sum ≤ 0 := List.sum_nonneg (M := Intᵒᵈ) hle'
    have hzero : (ids.map u.excessAt).sum = 0 := by omega
    refine ⟨by omega,fun id hid => ?_⟩
    exact List.all_zero_of_le_zero_le_of_sum_eq_zero (M := Intᵒᵈ) hle' hzero
      (List.mem_map_of_mem hid)
  · have hge' : ∀ x ∈ ids.map u.excessAt, 0 ≤ x := List.forall_mem_map.mpr hge
    have hnonneg := List.sum_nonneg hge'
    have hzero : (ids.map u.excessAt).sum = 0 := by omega
    refine ⟨by omega,fun id hid => ?_⟩
    exact List.all_zero_of_le_zero_le_of_sum_eq_zero hge' hzero (List.mem_map_of_mem hid)

/-- With one child at the root and no excess below it, every child is in its place. -/
theorem Closed.wellFormed_of_excess {top : NodeId} (h : t.Closed) (hroot : t.root = some root)
    (htop : t.get? root = some node) (hkind : node.kind = .regexp) (hleft : node.left.isSome)
    (hright : node.right = none) (htraced : t.Traced u root top)
    (hzero : ∀ id, Relation.TransGen u.Child top id → u.excessAt id = 0)
    (hrepetition : ∀ id node, Relation.TransGen t.Child root id → t.get? id = some node →
      node.IsRepetition → node.right = none)
    (hside : ∀ id node, Relation.TransGen t.Child root id → t.get? id = some node →
      node.hasSurplus = false ∨ node.lacksOperand = false ∧ node.kind ≠ .regexp) :
    t.WellFormed := by
  obtain ⟨child,hchild⟩ := Option.isSome_iff_exists.mp hleft
  have hregexp : node = .regexp child := by
    obtain ⟨kind,left,right⟩ := node
    obtain rfl : kind = .regexp := hkind
    obtain rfl : left = some child := hchild
    obtain rfl : right = none := hright
    rfl
  refine .of_closed h hroot (hregexp ▸ htop) fun id node' hbelow hnode' => ?_
  rcases htraced.image hrepetition id node' hbelow hnode' with
    ⟨⟨min,max,greedy,hrep⟩,hsome⟩ | ⟨new,node'',hbelow'',hnode'',hshape⟩
  · have hnone := hrepetition id node' hbelow hnode' ⟨min,max,greedy,hrep⟩
    rw [Node.IsOperand, hrep]
    exact ⟨hsome,hnone⟩
  · have hexcess := hzero new hbelow''
    rw [Tree.excessAt, hnode''] at hexcess
    exact Node.isOperand_of_excess (hshape.excess_eq.trans hexcess)
      (hside id node' hbelow hnode')

/-- Where a construction comes to an end, the root is a whole expression. -/
theorem OneSided.kind_eq (h : t.OneSided) (hclosed : t.Closed) (hu : t.unroll = .ok u)
    (ha : u.leaveOrder.foldlM (Assembly.visit s label u) .start = .ok a) (hgood : a.isGood = true)
    (hroot : t.root = some root) (htop : t.get? root = some node) : node.kind = .regexp := by
  by_contra hne
  have hnone : ∀ id node', t.Reachable id → t.get? id = some node' → node'.kind ≠ .regexp := by
    rintro id node' hid hnode' hregexp
    cases h with
    | sparse _ hrooted => exact hne (hrooted root id node node' hroot htop hid hnode' hregexp)
    | full _ _ hnested =>
      have hbelow := (reachable_iff hroot).mp hid
      rcases Relation.reflTransGen_iff_eq_or_transGen.mp hbelow with rfl | hbelow
      · obtain rfl : node = node' := Option.some.inj (htop.symm.trans hnode')
        exact hne hregexp
      · exact hnested root id node' hroot hbelow hnode' hregexp
  rw [hclosed.not_isGood hu hnone ha] at hgood
  cases hgood

/-- What a construction that comes to an end tells about the children of the root and the nodes
below. -/
theorem Closed.traced_excess (h : t.Closed) (hu : t.unroll = .ok u)
    (ha : u.leaveOrder.foldlM (Assembly.visit s label u) .start = .ok a)
    (hroot : t.root = some root) (htop : t.get? root = some node) (hkind : node.kind = .regexp) :
    a.stack.length = 1 ∧ ∃ (top : NodeId) (below : List NodeId), t.Traced u root top ∧
      (∀ id, id ∈ below ↔ Relation.TransGen u.Child top id) ∧
        ((node.left.isSome.toNat + node.right.isSome.toNat : Nat) : Int) +
          (below.map u.excessAt).sum = 1 := by
  have hunrolled := h.unroll
  rw [hu] at hunrolled
  obtain ⟨hclosed,-⟩ := hunrolled.of_ok
  have hoperator : ¬ node.IsRepetition := by
    rintro ⟨min,max,greedy,hrep⟩
    cases hkind.symm.trans hrep
  obtain ⟨top,htraced⟩ := h.traced hroot htop hoperator hu
  obtain ⟨top',htop',hshape⟩ := htraced.shape node htop
  obtain ⟨hone,below,hmem,hsum⟩ :=
    hclosed.sum_excess htraced.atTop htop' (hshape.kind.symm.trans hkind) ha
  rw [Node.length_children, ← hshape.left, ← hshape.right] at hsum
  exact ⟨hone,top,below,htraced,hmem,hsum⟩

theorem OneSided.wellFormed (h : t.OneSided) (hclosed : t.Closed) (hu : t.unroll = .ok u)
    (ha : u.leaveOrder.foldlM (Assembly.visit s label u) .start = .ok a)
    (hgood : a.isGood = true) : t.WellFormed ∧ a.stack.length = 1 := by
  obtain ⟨root,hroot⟩ : ∃ root, t.root = some root := by
    cases hroot : t.root with
    | none =>
      rw [Tree.unroll, hroot] at hu
      cases hu
    | some root => exact ⟨root,rfl⟩
  obtain ⟨node,htop⟩ := get?_eq_some (hclosed.rootInRange root hroot)
  have hkind := h.kind_eq hclosed hu ha hgood hroot htop
  have hself : t.Reachable root := ⟨root,hroot,.refl⟩
  have hreach : ∀ id, Relation.TransGen t.Child root id → t.Reachable id := fun id hbelow =>
    ⟨root,hroot,hbelow.to_reflTransGen⟩
  obtain ⟨hone,top,below,htraced,hmem,hsum⟩ := hclosed.traced_excess hu ha hroot htop hkind
  refine ⟨?_,hone⟩
  cases h with
  | sparse hsurplus _ =>
    have hright := Node.right_eq_none (hsurplus root node hself htop) (Or.inl hkind)
    have hnonpos : ∀ id ∈ below, u.excessAt id ≤ 0 := fun id hid =>
      htraced.excessAt (P := (· ≤ 0)) le_rfl (fun id' node' hb hn =>
        Node.excess_nonpos (hsurplus id' node' (hreach id' hb) hn)) ((hmem id).mp hid)
    rw [hright] at hsum
    obtain ⟨hcount,hzero⟩ := excessAt_eq_zero hsum (Or.inl ⟨Bool.toNat_le _,hnonpos⟩)
    have hleft : node.left.isSome := by simpa using hcount
    exact hclosed.wellFormed_of_excess hroot htop hkind hleft hright htraced
      (fun id hid => hzero id ((hmem id).mpr hid))
      (fun id node' hb hn hrep =>
        Node.right_eq_none (hsurplus id node' (hreach id hb) hn) (Or.inr hrep))
      fun id node' hb hn => Or.inl (hsurplus id node' (hreach id hb) hn)
  | full hlacks hrepetition hnested =>
    have hleft := Node.isSome_left (hlacks root node hself htop) hkind
    have hnonneg : ∀ id ∈ below, 0 ≤ u.excessAt id := fun id hid =>
      htraced.excessAt (P := (0 ≤ ·)) le_rfl (fun id' node' hb hn =>
        Node.excess_nonneg (hlacks id' node' (hreach id' hb) hn)
          (hnested root id' node' hroot hb hn)) ((hmem id).mp hid)
    rw [hleft] at hsum
    obtain ⟨hcount,hzero⟩ := excessAt_eq_zero hsum (Or.inr ⟨Nat.le_add_right 1 _,hnonneg⟩)
    have hright : node.right = none := by simpa using hcount
    exact hclosed.wellFormed_of_excess hroot htop hkind hleft hright htraced
      (fun id hid => hzero id ((hmem id).mpr hid))
      (fun id node' hb hn => hrepetition id node' (hreach id hb) hn)
      fun id node' hb hn => Or.inr ⟨hlacks id node' (hreach id hb) hn,
        hnested root id node' hroot hb hn⟩

end Tree
namespace Builder
variable {t : Tree}

/-- A closed tree that goes wrong in one direction at most is built only if nothing is wrong with
it, and with its fragment alone on the stack; else it is rejected, and nothing is left. -/
theorem build_of_oneSided (b : Builder) (ht : t.Closed) (h : t.OneSided) :
    (∃ b', b.build t = (.ok (),b') ∧ t.WellFormed ∧ b'.assembly.stack.length = 1) ∨
      ∃ e b', b.build t = (.error e,b') ∧ e.IsOrdinary ∧ b'.assembly = .start := by
  obtain ⟨hresult,hassembly,-,-⟩ := b.build_eq t
  have hsafe := safe_assemble b.settings b.label ht
  generalize b.build t = r at hresult hassembly
  obtain ⟨result,b'⟩ := r
  cases ha : assemble b.settings b.label t with
  | error e =>
    rw [ha] at hresult hassembly hsafe
    obtain rfl : result = .error e := hresult
    exact Or.inr ⟨e,b',rfl,hsafe.of_error,hassembly⟩
  | ok a =>
    rw [ha] at hresult hassembly
    obtain rfl : result = .ok () := hresult
    obtain rfl : b'.assembly = a := hassembly
    obtain ⟨u,hu,htree⟩ := bind_eq_ok.mp ha
    have hunrolled := ht.unroll
    rw [hu] at hunrolled
    unfold Assembly.ofTree at htree
    rw [hunrolled.of_ok.1.foldLeft_eq] at htree
    obtain ⟨a,hrun,hgood⟩ := bind_eq_ok.mp htree
    split at hgood
    · rename_i hisGood
      obtain rfl := Except.ok.inj hgood
      obtain ⟨hwell,hone⟩ := h.wellFormed ht hu hrun hisGood
      exact Or.inl ⟨b',rfl,hwell,hone⟩
    · cases hgood

/-- A concatenation of a whole expression and a letter. -/
def expressionThenLetter : Tree where
  nodes := #[{ kind := .literal 0x61 },.regexp 0,{ kind := .literal 0x62 },.concatenation 1 2]
  root := some 3

/-- The concatenation finds two fragments and leaves one, as if it were well-formed. -/
theorem build_expressionThenLetter :
    expressionThenLetter.Closed ∧ ¬ expressionThenLetter.WellFormed ∧
      ((Builder.build {} expressionThenLetter).1 = .ok ()) := by
  have hdesc : expressionThenLetter.Descending := .of_forall (by decide)
  refine ⟨hdesc.closed (by decide),fun h => ?_,by decide +kernel⟩
  obtain ⟨root,child,hroot,htop⟩ := h.rooted
  obtain rfl : 3 = root := Option.some.inj hroot
  cases htop

/-- A concatenation without its second operand, below a whole expression. -/
def halfConcatenation : Tree where
  nodes := #[{ kind := .literal 0x61 },{ kind := .concatenation, left := some 0 },.regexp 1]
  root := some 2

theorem build_of_oneSided_halfConcatenation :
    halfConcatenation.Closed ∧ halfConcatenation.OneSided ∧
      ((∃ b', Builder.build {} halfConcatenation = (.ok (),b') ∧ halfConcatenation.WellFormed ∧
        b'.assembly.stack.length = 1) ∨
      ∃ e b', Builder.build {} halfConcatenation = (.error e,b') ∧ e.IsOrdinary ∧
        b'.assembly = .start) := by
  have hdesc : halfConcatenation.Descending := .of_forall (by decide)
  have hclosed : halfConcatenation.Closed := hdesc.closed (by decide)
  have hsided : halfConcatenation.OneSided := by
    refine .sparse (fun id node _ hnode => ?_) fun root id top node hroot htop _ _ _ => ?_
    · have hall : ∀ i : Fin halfConcatenation.nodes.size,
          (halfConcatenation.nodes[i]).hasSurplus = false := by decide
      obtain ⟨hlt,rfl⟩ := Array.getElem?_eq_some_iff.mp hnode
      exact hall ⟨id,hlt⟩
    · obtain rfl : 2 = root := Option.some.inj hroot
      obtain rfl : Node.regexp 1 = top := Option.some.inj htop
      rfl
  exact ⟨hclosed,hsided,build_of_oneSided {} hclosed hsided⟩

end Builder
end ByteAutomata
