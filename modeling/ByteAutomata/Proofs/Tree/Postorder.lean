import Mathlib.Data.Finset.Card
import Mathlib.Logic.Relation
import ByteAutomata.Proofs.Outcome
import ByteAutomata.Tree.Traversal

/-! # The order of a traversal

Where all paths below a node are finite and stay inside the tree, a traversal yields the events of
the recursive visit, and its nodes are left in postorder. An acyclic tree whose children exist has
no path with more nodes than the tree. -/
namespace ByteAutomata.Tree
variable {t : Tree} {id : NodeId} {m n : Nat}

/-- No path from `id` holds more than `n` nodes, and every child on it exists. -/
def HeightLE (t : Tree) : Nat → NodeId → Prop
  | 0, _ => False
  | n + 1, id => ∃ node, t.get? id = some node ∧ ∀ c ∈ node.children, t.HeightLE n c

/-- The events of a visit by recursion, at most `n` nodes deep. -/
def eventsFrom (t : Tree) : Nat → NodeId → List Event
  | 0, _ => []
  | n + 1, id =>
    match t.get? id with
    | none => []
    | some node => .enter id :: node.children.flatMap (t.eventsFrom n) ++ [.leave id]

def postorder (t : Tree) (n : Nat) (id : NodeId) : List NodeId :=
  (t.eventsFrom n id).filterMap Event.left?

theorem HeightLE.mono (h : t.HeightLE n id) (hnm : n ≤ m) : t.HeightLE m id := by
  induction n generalizing m id with
  | zero => exact h.elim
  | succ n ih =>
    obtain ⟨node,hnode,hc⟩ := h
    obtain ⟨k,rfl⟩ := Nat.exists_eq_add_of_le' hnm
    exact ⟨node,hnode,fun c hcm => ih (hc c hcm) (Nat.le_add_left n k)⟩

theorem HeightLE.exists_succ {node : Node} (h : t.HeightLE n id) (hnode : t.get? id = some node) :
    ∃ k, n = k + 1 ∧ ∀ c ∈ node.children, t.HeightLE k c := by
  cases n with
  | zero => exact h.elim
  | succ k =>
    obtain ⟨node',hnode',hc⟩ := h
    obtain rfl : node = node' := Option.some.inj (hnode.symm.trans hnode')
    exact ⟨k,rfl,hc⟩

theorem eventsFrom_succ {node : Node} (h : t.get? id = some node) (n : Nat) :
    t.eventsFrom (n + 1) id =
      .enter id :: node.children.flatMap (t.eventsFrom n) ++ [.leave id] := by
  simp [eventsFrom, h]

theorem postorder_succ {node : Node} (h : t.get? id = some node) (n : Nat) :
    t.postorder (n + 1) id = node.children.flatMap (t.postorder n) ++ [id] := by
  rw [postorder, eventsFrom_succ h, List.filterMap_append, List.filterMap_cons_none rfl,
    List.filterMap_flatMap]
  rfl

theorem postorder_leaf {node : Node} (h : t.get? id = some node) (hc : node.children = [])
    (n : Nat) : t.postorder (n + 1) id = [id] := by
  rw [postorder_succ h, hc]
  rfl

theorem postorder_unary {node : Node} {c : NodeId} (h : t.get? id = some node)
    (hc : node.children = [c]) (n : Nat) :
    t.postorder (n + 1) id = t.postorder n c ++ [id] := by
  rw [postorder_succ h, hc, List.flatMap_cons, List.flatMap_nil, List.append_nil]

theorem postorder_binary {node : Node} {l r : NodeId} (h : t.get? id = some node)
    (hc : node.children = [l,r]) (n : Nat) :
    t.postorder (n + 1) id = t.postorder n l ++ (t.postorder n r ++ [id]) := by
  rw [postorder_succ h, hc, List.flatMap_cons, List.flatMap_cons, List.flatMap_nil,
    List.append_nil, List.append_assoc]

/-- A deeper limit changes nothing. -/
theorem HeightLE.eventsFrom_eq (h : t.HeightLE n id) (hnm : n ≤ m) :
    t.eventsFrom m id = t.eventsFrom n id := by
  induction n generalizing m id with
  | zero => exact h.elim
  | succ n ih =>
    obtain ⟨node,hnode,hc⟩ := h
    obtain ⟨k,rfl⟩ := Nat.exists_eq_add_of_le' hnm
    have hchildren : node.children.flatMap (t.eventsFrom (k + n)) =
        node.children.flatMap (t.eventsFrom n) :=
      List.flatMap_congr fun c hcm => ih (hc c hcm) (Nat.le_add_left n k)
    rw [← Nat.add_assoc, eventsFrom_succ hnode, eventsFrom_succ hnode, hchildren]

theorem HeightLE.postorder_eq (h : t.HeightLE n id) (hnm : n ≤ m) :
    t.postorder m id = t.postorder n id := by
  rw [postorder, h.eventsFrom_eq hnm, postorder]

section Run

theorem traverseFrom_nil (seen : List Event) : t.traverseFrom [] seen = ⟨seen.reverse,none⟩ := by
  rw [traverseFrom]
  rfl

theorem traverseFrom_event {pending rest : List Pending} {e : Event}
    (h : t.step pending = .event e rest) (seen : List Event) :
    t.traverseFrom pending seen = t.traverseFrom rest (e :: seen) := by
  rw [traverseFrom]
  split <;> simp_all

/-- Pending work is done as if by recursion: the nodes that wait in front are visited in turn. -/
theorem traverseFrom_enter (h : t.HeightLE n id) (rest : List Pending) (seen : List Event) :
    t.traverseFrom (.enter id n :: rest) seen =
      t.traverseFrom rest ((t.eventsFrom n id).reverse ++ seen) := by
  induction n generalizing id rest seen with
  | zero => exact h.elim
  | succ n ih =>
    obtain ⟨node,hnode,hc⟩ := h
    have hstep : t.step (.enter id (n + 1) :: rest) =
        .event (.enter id) (node.children.map (Pending.enter · n) ++ .leave id :: rest) := by
      simp [step, hnode]
    have hchildren : ∀ cs : List NodeId, (∀ c ∈ cs, t.HeightLE n c) → ∀ later seen',
        t.traverseFrom (cs.map (Pending.enter · n) ++ later) seen' =
          t.traverseFrom later ((cs.flatMap (t.eventsFrom n)).reverse ++ seen') := by
      intro cs hcs
      induction cs with
      | nil => intro later seen'; rfl
      | cons c cs ihc =>
        intro later seen'
        rw [List.map_cons, List.cons_append, ih (hcs c List.mem_cons_self),
          ihc fun d hd => hcs d (List.mem_cons_of_mem c hd)]
        simp
    rw [traverseFrom_event hstep, hchildren _ hc, traverseFrom_event rfl, eventsFrom_succ hnode]
    simp

theorem traversal_eq {root : NodeId} (hroot : t.root = some root) (h : t.HeightLE t.size root) :
    t.traversal = ⟨t.eventsFrom t.size root,none⟩ := by
  rw [traversal, hroot]
  change t.traverseFrom [.enter root t.size] [] = _
  rw [traverseFrom_enter h, traverseFrom_nil]
  simp

theorem foldLeft_eq {σ ε : Type} {ofFault : Fault → ε} {f : σ → NodeId → Except ε σ} {init : σ}
    {root : NodeId} (hroot : t.root = some root) (h : t.HeightLE t.size root) :
    t.foldLeft ofFault f init = (t.postorder t.size root).foldlM f init := by
  rw [foldLeft, traversal_eq hroot h, postorder]
  exact bind_pure _

end Run

/-- What a run over the nodes below some others does: it takes one subtree after the other, and
leaves each node right after the nodes below its children. -/
theorem postorder_induction {σ ε : Type} {f : σ → NodeId → Except ε σ}
    {motive : σ → List NodeId → List NodeId → σ → Prop} {cs : List NodeId} {u u' : σ}
    (hh : ∀ c ∈ cs, t.HeightLE n c) (hrun : (cs.flatMap (t.postorder n)).foldlM f u = .ok u')
    (nil : ∀ u, motive u [] [] u)
    (cons : ∀ {u w u' c cs xs ys}, motive u [c] xs w → motive w cs ys u' →
      motive u (c :: cs) (xs ++ ys) u')
    (leave : ∀ {n u w u' c node}, t.get? c = some node → (∀ d ∈ node.children, t.HeightLE n d) →
      (node.children.flatMap (t.postorder n)).foldlM f u = .ok w →
      motive u node.children (node.children.flatMap (t.postorder n)) w → f w c = .ok u' →
      motive u [c] (node.children.flatMap (t.postorder n) ++ [c]) u') :
    motive u cs (cs.flatMap (t.postorder n)) u' := by
  induction n generalizing cs u u' with
  | zero =>
    cases cs with
    | nil =>
      obtain rfl := Except.ok.inj hrun
      exact nil u
    | cons c cs => exact (hh c List.mem_cons_self).elim
  | succ n ih =>
    induction cs generalizing u with
    | nil =>
      obtain rfl := Except.ok.inj hrun
      exact nil u
    | cons c cs ihc =>
      obtain ⟨⟨node,hnode,hchildren⟩,hh⟩ := List.forall_mem_cons.mp hh
      rw [List.flatMap_cons, List.foldlM_append, postorder_succ hnode, List.foldlM_append] at hrun
      obtain ⟨w',hw',hrest⟩ := bind_eq_ok.mp hrun
      obtain ⟨w,hw,hlast⟩ := bind_eq_ok.mp hw'
      rw [List.foldlM_cons] at hlast
      obtain ⟨w'',hleave,hnil⟩ := bind_eq_ok.mp hlast
      obtain rfl := Except.ok.inj hnil
      rw [List.flatMap_cons, postorder_succ hnode]
      exact cons (leave hnode hchildren hw (ih hchildren hw) hleave) (ihc hh hrest)

/-- `child` is a child of the node `parent`. -/
def Child (t : Tree) (parent child : NodeId) : Prop :=
  ∃ node, t.get? parent = some node ∧ child ∈ node.children

theorem child_iff {node : Node} {child : NodeId} (h : t.get? id = some node) :
    t.Child id child ↔ child ∈ node.children := by
  rw [Child, h]
  simp only [Option.some.injEq, exists_eq_left']

theorem get?_eq_some (h : id < t.size) : ∃ node, t.get? id = some node :=
  ⟨t.nodes[id],Array.getElem?_eq_getElem h⟩

theorem lt_size_of_get? {node : Node} (h : t.get? id = some node) : id < t.size :=
  (Array.getElem?_eq_some_iff.mp h).1

/-- A node is not among its ancestors, so each step down leaves fewer nodes to come. -/
theorem heightLE_of_ancestors (hacyclic : ∀ a, ¬ Relation.TransGen t.Child a a)
    (hrange : ∀ a b, t.Child a b → b < t.size) (n : Nat) (seen : Finset NodeId)
    (hsize : ∀ a ∈ seen, a < t.size) (hseen : ∀ a ∈ seen, Relation.TransGen t.Child a id)
    (hid : id < t.size) (hn : t.size ≤ n + seen.card) : t.HeightLE n id := by
  induction n generalizing seen id with
  | zero =>
    have hnew : id ∉ seen := fun h => hacyclic id (hseen id h)
    have hsub : insert id seen ⊆ Finset.range t.size := by
      intro a ha
      rcases Finset.mem_insert.mp ha with rfl | ha
      · exact Finset.mem_range.mpr hid
      · exact Finset.mem_range.mpr (hsize a ha)
    have hcard := Finset.card_le_card hsub
    rw [Finset.card_insert_of_notMem hnew, Finset.card_range] at hcard
    omega
  | succ n ih =>
    have hnew : id ∉ seen := fun h => hacyclic id (hseen id h)
    obtain ⟨node,hnode⟩ := get?_eq_some hid
    refine ⟨node,hnode,fun c hc => ?_⟩
    have hchild : t.Child id c := ⟨node,hnode,hc⟩
    apply ih (insert id seen)
    · intro a ha
      rcases Finset.mem_insert.mp ha with rfl | ha
      · exact hid
      · exact hsize a ha
    · intro a ha
      rcases Finset.mem_insert.mp ha with rfl | ha
      · exact .single hchild
      · exact (hseen a ha).tail hchild
    · exact hrange id c hchild
    · rw [Finset.card_insert_of_notMem hnew]
      omega

theorem heightLE_of_acyclic (hacyclic : ∀ a, ¬ Relation.TransGen t.Child a a)
    (hrange : ∀ a b, t.Child a b → b < t.size) (hid : id < t.size) : t.HeightLE t.size id :=
  heightLE_of_ancestors hacyclic hrange t.size ∅ (by simp) (by simp) hid (by simp)

/-- Children come before their parents. -/
def Descending (t : Tree) : Prop := ∀ parent child, t.Child parent child → child < parent

theorem Descending.lt {a b : NodeId} (h : t.Descending) (hbelow : Relation.TransGen t.Child a b) :
    b < a := by
  induction hbelow with
  | single hchild => exact h _ _ hchild
  | tail _ hchild ih => exact (h _ _ hchild).trans ih

theorem Descending.inRange {parent child : NodeId} (h : t.Descending) (hc : t.Child parent child) :
    child < t.size := by
  have hlt := h parent child hc
  obtain ⟨node,hnode,-⟩ := hc
  exact hlt.trans (lt_size_of_get? hnode)

/-- The index bounds the height. -/
theorem Descending.heightLE (h : t.Descending) (hid : id < t.size) : t.HeightLE (id + 1) id := by
  induction id using Nat.strong_induction_on with
  | _ id ih =>
    obtain ⟨node,hnode⟩ := get?_eq_some hid
    refine ⟨node,hnode,fun c hc => ?_⟩
    have hlt := h id c ⟨node,hnode,hc⟩
    exact (ih c hlt (hlt.trans hid)).mono hlt

section Reachable

/-- A node at the root or below it. -/
def Reachable (t : Tree) (id : NodeId) : Prop :=
  ∃ root, t.root = some root ∧ Relation.ReflTransGen t.Child root id

theorem reachable_iff {root : NodeId} (hroot : t.root = some root) :
    t.Reachable id ↔ Relation.ReflTransGen t.Child root id := by
  rw [Reachable, hroot]
  simp only [Option.some.injEq, exists_eq_left']

theorem Reachable.tail {child : NodeId} (h : t.Reachable id) (hc : t.Child id child) :
    t.Reachable child := by
  obtain ⟨root,hroot,hbelow⟩ := h
  exact ⟨root,hroot,hbelow.tail hc⟩

/-- The nodes in the order in which a traversal leaves them. -/
def leaveOrder (t : Tree) : List NodeId := t.traversal.events.filterMap Event.left?

/-- A tree without cycles, in which all children and the root exist. -/
structure Closed (t : Tree) : Prop where
  acyclic : ∀ id, ¬ Relation.TransGen t.Child id id
  inRange : ∀ parent child, t.Child parent child → child < t.size
  rootInRange : ∀ root, t.root = some root → root < t.size

theorem mem_postorder {x : NodeId} (h : t.HeightLE n id) :
    x ∈ t.postorder n id ↔ Relation.ReflTransGen t.Child id x := by
  induction n generalizing id with
  | zero => exact h.elim
  | succ n ih =>
    obtain ⟨node,hnode,hc⟩ := h
    rw [postorder_succ hnode, List.mem_append, List.mem_singleton, List.mem_flatMap,
      Relation.ReflTransGen.cases_head_iff, or_comm, eq_comm]
    refine or_congr Iff.rfl (exists_congr fun c => ?_)
    rw [child_iff hnode]
    exact and_congr_right fun hmem => ih (hc c hmem)

/-- What a run leaves before the node itself is what lies below it. -/
theorem mem_flatMap_postorder {x : NodeId} {node : Node} (hnode : t.get? id = some node)
    (hc : ∀ c ∈ node.children, t.HeightLE n c) :
    x ∈ node.children.flatMap (t.postorder n) ↔ Relation.TransGen t.Child id x := by
  rw [List.mem_flatMap, Relation.TransGen.head'_iff]
  refine exists_congr fun c => ?_
  rw [child_iff hnode]
  exact and_congr_right fun hmem => mem_postorder (hc c hmem)

theorem leaveOrder_eq {root : NodeId} (hroot : t.root = some root) (h : t.HeightLE t.size root) :
    t.leaveOrder = t.postorder t.size root := by
  rw [leaveOrder, traversal_eq hroot h, postorder]

theorem Descending.closed (h : t.Descending) (hroot : ∀ root, t.root = some root → root < t.size) :
    t.Closed where
  acyclic id hid := Nat.lt_irrefl id (h.lt hid)
  inRange _ _ hc := h.inRange hc
  rootInRange := hroot

theorem traversal_of_none (hroot : t.root = none) : t.traversal = ⟨[],none⟩ := by
  rw [traversal, hroot]
  exact traverseFrom_nil []

namespace Closed

theorem heightLE (h : t.Closed) (hid : id < t.size) : t.HeightLE t.size id :=
  heightLE_of_acyclic h.acyclic h.inRange hid

theorem mem_leaveOrder (h : t.Closed) : id ∈ t.leaveOrder ↔ t.Reachable id := by
  cases hroot : t.root with
  | none =>
    rw [leaveOrder, traversal_of_none hroot]
    exact iff_of_false List.not_mem_nil fun ⟨root,hsome,_⟩ => nomatch hroot.symm.trans hsome
  | some root =>
    have hheight := h.heightLE (h.rootInRange root hroot)
    rw [leaveOrder_eq hroot hheight, mem_postorder hheight, reachable_iff hroot]

theorem foldLeft_eq (h : t.Closed) {σ ε : Type} (ofFault : Fault → ε)
    (f : σ → NodeId → Except ε σ) (init : σ) :
    t.foldLeft ofFault f init = t.leaveOrder.foldlM f init := by
  cases hroot : t.root with
  | none =>
    rw [foldLeft, leaveOrder, traversal_of_none hroot]
    rfl
  | some root =>
    have hheight := h.heightLE (h.rootInRange root hroot)
    rw [Tree.foldLeft_eq hroot hheight, leaveOrder_eq hroot hheight]

theorem exists_node (h : t.Closed) (hid : id ∈ t.leaveOrder) : ∃ node, t.get? id = some node := by
  obtain ⟨root,hroot,hbelow⟩ := h.mem_leaveOrder.mp hid
  rcases Relation.ReflTransGen.cases_tail hbelow with rfl | ⟨parent,-,hchild⟩
  · exact get?_eq_some (h.rootInRange _ hroot)
  · exact get?_eq_some (h.inRange parent id hchild)

end Closed

end Reachable

end ByteAutomata.Tree
