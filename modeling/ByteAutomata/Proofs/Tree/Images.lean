import Mathlib.Data.Option.Basic
import ByteAutomata.Proofs.Tree.Closed

/-! # Images of nodes

Whatever operands a closed tree lacks or has too many of, unrolling gives every node below the root
an image. The image of a repetition leads down to the image of its operand, and any other node
keeps its kind, with the images of its children in their places. -/
namespace ByteAutomata

namespace Node

/-- Nodes of one kind that have their children in the same places. -/
structure SameShape (m n : Node) : Prop where
  kind : m.kind = n.kind
  left : m.left.isSome = n.left.isSome
  right : m.right.isSome = n.right.isSome

def IsRepetition (n : Node) : Prop := ∃ min max greedy, n.kind = .repetition min max greedy

end Node

namespace Tree
variable {t t' : Tree} {id child root : NodeId} {node : Node} {r : NodeId × Tree} {n : Nat}

theorem Child.mono {a b : NodeId} (h : t.Child a b) (hext : t.Extends t') : t'.Child a b := by
  obtain ⟨node,hnode,hc⟩ := h
  exact ⟨node,hext a node hnode,hc⟩

theorem below_mono {a b : NodeId} (h : Relation.ReflTransGen t.Child a b) (hext : t.Extends t') :
    Relation.ReflTransGen t'.Child a b :=
  Relation.ReflTransGen.mono (fun _ _ hchild => Child.mono hchild hext) a b h

/-- New nodes on top of `child`, all of which have their operands. -/
structure Wraps (t : Tree) (child : NodeId) (r : NodeId × Tree) : Prop where
  keeps : t.Extends r.2
  fresh : ∀ id node, r.2.get? id = some node → t.get? id = some node ∨ node.IsOperand
  below : Relation.ReflTransGen r.2.Child r.1 child

section Wrapping

theorem get?_add_cases {new : Node} (h : (t.add new).2.get? id = some node) :
    t.get? id = some node ∨ id = t.size ∧ node = new := by
  have hget : (t.nodes.push new)[id]? = some node := h
  rw [Array.getElem?_push] at hget
  split at hget
  · rename_i hid
    exact Or.inr ⟨hid,(Option.some.inj hget).symm⟩
  · exact Or.inl hget

theorem Wraps.self (t : Tree) (child : NodeId) : t.Wraps child (child,t) :=
  ⟨.refl t,fun _ _ h => Or.inl h,.refl⟩

theorem Wraps.add (h : t.Wraps child r) (hop : node.IsOperand) (hc : r.1 ∈ node.children) :
    t.Wraps child (r.2.add node) where
  keeps := h.keeps.trans (extends_add node)
  fresh id node' hnode := by
    rcases get?_add_cases hnode with hold | ⟨-,rfl⟩
    · exact h.fresh id node' hold
    · exact Or.inr hop
  below := .head ⟨node,get?_add node,hc⟩ (below_mono h.below (extends_add node))

theorem Wraps.prepend (h : t.Wraps child r) (first : NodeId) : t.Wraps child (prepend first r) :=
  h.add ⟨rfl,rfl⟩ (by simp)

theorem Wraps.repetition (h : t.Wraps child r) (min : Nat) (max : Option Nat) (greedy : Bool) :
    t.Wraps child (r.2.add (.repetition r.1 min max greedy)) :=
  h.add ⟨rfl,rfl⟩ (by simp)

/-- Whatever a repetition becomes, its operand is below. -/
theorem wraps_addRepetition {id min : Nat} {max : Option Nat} {greedy : Bool}
    (h : t.addRepetition id child min max greedy = .ok r) : t.Wraps child r :=
  addRepetition_induction h (.self t child) (fun _ hr => hr.prepend child)
    fun _ min max _ hr => hr.repetition min max greedy

end Wrapping

namespace Unrolling
variable {u u' : Unrolling} {new : NodeId} {S : NodeId → Prop}

/-- What the image of a node is, if the node has any operand that it needs to have one. -/
inductive IsImage (t : Tree) (u : Unrolling) (id new : NodeId) : Prop where
  | copy {node node' : Node} (h : t.get? id = some node) (hnew : u.result.get? new = some node')
      (hkind : node.kind = node'.kind)
      (hl : Option.Rel (fun c c' => u.imageOf c = some c') node.left node'.left)
      (hr : Option.Rel (fun c c' => u.imageOf c = some c') node.right node'.right)
  | rounds {min : Nat} {max : Option Nat} {greedy : Bool} {c c' : NodeId} {right : Option NodeId}
      (h : t.get? id = some ⟨.repetition min max greedy,some c,right⟩)
      (hc : u.imageOf c = some c') (hbelow : Relation.ReflTransGen u.result.Child new c')

theorem rel_mono {x y : Option NodeId} (h : u.Keeps u')
    (hxy : Option.Rel (fun c c' => u.imageOf c = some c') x y) :
    Option.Rel (fun c c' => u'.imageOf c = some c') x y := by
  cases hxy with
  | some hc => exact .some (h _ _ hc)
  | none => exact .none

theorem IsImage.mono (h : IsImage t u id new) (hkeeps : u.Keeps u')
    (hext : u.result.Extends u'.result) : IsImage t u' id new := by
  cases h with
  | copy h hnew hkind hl hr =>
    exact .copy h (hext _ _ hnew) hkind (rel_mono hkeeps hl) (rel_mono hkeeps hr)
  | rounds h hc hbelow =>
    exact .rounds h (hkeeps _ _ hc) (below_mono hbelow hext)

/-- Nodes come from the nodes of the source that `S` holds of, and so do images. -/
structure Traces (t : Tree) (S : NodeId → Prop) (u : Unrolling) : Prop where
  size : u.image.size = t.size
  nodes : ∀ new node', u.result.get? new = some node' → node'.IsOperand ∨
    ∃ id node, S id ∧ t.get? id = some node ∧ node.SameShape node'
  image : ∀ id new, u.imageOf id = some new → S id ∧ IsImage t u id new

theorem rel_bind (x : Option NodeId) (h : ∀ c ∈ x, (u.imageOf c).isSome) :
    Option.Rel (fun c c' => u.imageOf c = some c') x (x.bind u.imageOf) := by
  cases x with
  | none => exact .none
  | some c =>
    obtain ⟨c',hc'⟩ := Option.isSome_iff_exists.mp (h c rfl)
    rw [Option.bind_some, hc']
    exact .some hc'

theorem isSome_of_rel {x y : Option NodeId} {R : NodeId → NodeId → Prop} (h : Option.Rel R x y) :
    x.isSome = y.isSome := by
  cases h <;> rfl

theorem keeps_record (hnew : u.imageOf id = none) (hid : id < u.image.size) (p : NodeId × Tree) :
    u.Keeps (u.record id p) := by
  intro id' new hid'
  rw [imageOf_record u id p hid, if_neg fun heq => by simp [heq, hnew] at hid']
  exact hid'

/-- A node that is left with all of its children gets an image of its own. -/
theorem Traces.record {p : NodeId × Tree} (h : u.Traces t S) (hnew : u.imageOf id = none)
    (hid : id < t.size) (hS : S id) (hext : u.result.Extends p.2)
    (hnodes : ∀ new node', p.2.get? new = some node' → u.result.get? new = some node' ∨
      node'.IsOperand ∨ ∃ node, t.get? id = some node ∧ node.SameShape node')
    (himage : IsImage t (u.record id p) id p.1) :
    (u.record id p).Traces t S ∧ u.Keeps (u.record id p) ∧
      ((u.record id p).imageOf id).isSome := by
  have hkeeps := keeps_record hnew (h.size ▸ hid) p
  have hself := imageOf_record u id p (h.size ▸ hid)
  refine ⟨⟨?_,fun new node' hnode => ?_,fun id' new hid' => ?_⟩,hkeeps,?_⟩
  · rw [Unrolling.record, Array.size_setIfInBounds]
    exact h.size
  · rcases hnodes new node' hnode with hold | hop | ⟨node,hnode,hshape⟩
    · exact h.nodes new node' hold
    · exact Or.inl hop
    · exact Or.inr ⟨id,node,hS,hnode,hshape⟩
  · rw [hself] at hid'
    split at hid'
    · rename_i heq
      obtain rfl := Option.some.inj hid'
      subst heq
      exact ⟨hS,himage⟩
    · obtain ⟨hS',himage'⟩ := h.image id' new hid'
      exact ⟨hS',himage'.mono hkeeps hext⟩
  · rw [hself, if_pos rfl]
    rfl

/-- What a visit to the node `id` can do to the state. -/
inductive Visited (t : Tree) (u : Unrolling) (id : NodeId) : Unrolling → Prop where
  | again (hseen : (u.imageOf id).isSome) : Visited t u id u
  | repetition {min : Nat} {max : Option Nat} {greedy : Bool} {c c' : NodeId}
      {right : Option NodeId} {p : NodeId × Tree}
      (hnode : t.get? id = some ⟨.repetition min max greedy,some c,right⟩)
      (hnew : u.imageOf id = none) (hc : u.imageOf c = some c')
      (hmade : u.result.addRepetition id c' min max greedy = .ok p) : Visited t u id (u.record id p)
  | operator {node : Node} (hnode : t.get? id = some node) (hnew : u.imageOf id = none)
      (hkind : ¬ node.IsRepetition) : Visited t u id (u.record id (u.result.add
        { node with left := node.left.bind u.imageOf, right := node.right.bind u.imageOf }))

theorem visited_of_visit (hrun : u.visit t id = .ok u') : u.Visited t id u' := by
  cases hseen : u.imageOf id with
  | some new =>
    have hsome : (u.imageOf id).isSome := by rw [hseen]; rfl
    rw [visit_seen hsome] at hrun
    obtain rfl := Except.ok.inj hrun
    exact .again hsome
  | none =>
    cases hnode : t.get? id with
    | none =>
      have hmissing : t.node id = .error (.missingNode id) := by rw [Tree.node, hnode]
      rw [visit, if_neg (by simp [hseen]), hmissing] at hrun
      cases hrun
    | some node =>
      by_cases hkind : node.IsRepetition
      · obtain ⟨kind,left,right⟩ := node
        obtain ⟨min,max,greedy,rfl⟩ := hkind
        cases hleft : left.bind u.imageOf with
        | none =>
          rw [visit_noOperand hnode hseen hleft] at hrun
          cases hrun
        | some c' =>
          rw [visit_repetition hnode hseen hleft] at hrun
          obtain ⟨c,rfl,hc⟩ := Option.bind_eq_some_iff.mp hleft
          cases hmade : u.result.addRepetition id c' min max greedy with
          | error e =>
            rw [hmade] at hrun
            cases hrun
          | ok p =>
            rw [hmade] at hrun
            obtain rfl := Except.ok.inj hrun
            exact .repetition hnode hseen hc hmade
      · rw [visit_operator hnode hseen fun min max greedy heq => hkind ⟨min,max,greedy,heq⟩] at hrun
        obtain rfl := Except.ok.inj hrun
        exact .operator hnode hseen hkind

theorem Traces.visit (h : u.Traces t S) (hnode : t.get? id = some node) (hS : S id)
    (hc : ∀ c ∈ node.children, (u.imageOf c).isSome) (hrun : u.visit t id = .ok u') :
    u'.Traces t S ∧ u.Keeps u' ∧ (u'.imageOf id).isSome := by
  have hid : id < t.size := lt_size_of_get? hnode
  cases visited_of_visit hrun with
  | again hsome => exact ⟨h,fun _ _ h => h,hsome⟩
  | @repetition min max greedy c c' right p hnode' hnew hc' hmade =>
    have hwraps := wraps_addRepetition hmade
    refine h.record hnew hid hS hwraps.keeps (fun new node' hget => ?_) ?_
    · exact (hwraps.fresh new node' hget).imp_right Or.inl
    · exact .rounds hnode' (keeps_record hnew (h.size ▸ hid) p _ _ hc') hwraps.below
  | @operator node' hnode' hnew hkind =>
    obtain rfl : node = node' := Option.some.inj (hnode.symm.trans hnode')
    have hkeeps := keeps_record hnew (h.size ▸ hid)
    have hl := rel_bind (u := u) node.left fun c hmem =>
      hc c (List.mem_append_left _ (Option.mem_toList.mpr hmem))
    have hr := rel_bind (u := u) node.right fun c hmem =>
      hc c (List.mem_append_right _ (Option.mem_toList.mpr hmem))
    refine h.record hnew hid hS (extends_add _) (fun new node' hget => ?_) ?_
    · rcases get?_add_cases hget with hold | ⟨-,rfl⟩
      · exact Or.inl hold
      · exact Or.inr (Or.inr ⟨_,hnode,rfl,isSome_of_rel hl,isSome_of_rel hr⟩)
    · exact .copy hnode (get?_add _) rfl (rel_mono (hkeeps _) hl) (rel_mono (hkeeps _) hr)

/-- Nodes are left from below, so children have their images in time. -/
theorem Traces.visitsAll {cs : List NodeId} (h : u.Traces t S) (hh : ∀ c ∈ cs, t.HeightLE n c)
    (hS : ∀ c ∈ cs, ∀ x, Relation.ReflTransGen t.Child c x → S x)
    (hrun : (cs.flatMap (t.postorder n)).foldlM (Unrolling.visit t) u = .ok u') :
    u'.Traces t S ∧ u.Keeps u' ∧ ∀ c ∈ cs, (u'.imageOf c).isSome := by
  refine postorder_induction (motive := fun u cs _ u' => u.Traces t S →
    (∀ c ∈ cs, ∀ x, Relation.ReflTransGen t.Child c x → S x) →
      u'.Traces t S ∧ u.Keeps u' ∧ ∀ c ∈ cs, (u'.imageOf c).isSome) hh hrun ?_ ?_ ?_ h hS
  · exact fun u h _ => ⟨h,fun _ _ h => h,fun c hc => nomatch hc⟩
  · intro u w u' c cs _ _ hfirst hrest h hS
    obtain ⟨hSc,hS⟩ := List.forall_mem_cons.mp hS
    obtain ⟨htw,hkw,hc⟩ := hfirst h (List.forall_mem_singleton.mpr hSc)
    obtain ⟨htu,hku,hcs⟩ := hrest htw hS
    obtain ⟨c',hc'⟩ := Option.isSome_iff_exists.mp (hc c List.mem_cons_self)
    have hsome : (u'.imageOf c).isSome := by rw [hku c c' hc']; rfl
    exact ⟨htu,hkw.trans hku,List.forall_mem_cons.mpr ⟨hsome,hcs⟩⟩
  · intro n u w u' c node hnode _ _ hchildren hvisit h hS
    have hSc := List.forall_mem_singleton.mp hS
    obtain ⟨htw,hkw,hall⟩ := hchildren h fun d hd x hx => hSc x (.head ⟨node,hnode,hd⟩ hx)
    obtain ⟨htu,hku,hsome⟩ := htw.visit hnode (hSc c .refl) hall hvisit
    exact ⟨htu,hkw.trans hku,List.forall_mem_singleton.mpr hsome⟩

theorem traces_empty (t : Tree) (S : NodeId → Prop) :
    Traces t S ⟨empty,Array.replicate t.size none⟩ where
  size := Array.size_replicate
  nodes new node' h := absurd (lt_size_of_get? h) (Nat.not_lt_zero new)
  image id new h := by
    rw [imageOf_replicate] at h
    cases h

theorem exists_child_of_rel {node node' : Node} {c : NodeId} {R : NodeId → NodeId → Prop}
    (hl : Option.Rel R node.left node'.left) (hr : Option.Rel R node.right node'.right)
    (hc : c ∈ node.children) : ∃ c' ∈ node'.children, R c c' := by
  obtain ⟨kind,left,right⟩ := node
  obtain ⟨kind',left',right'⟩ := node'
  rcases List.mem_append.mp hc with hc | hc
  · obtain rfl := Option.mem_toList.mp hc
    cases hl with
    | some h => exact ⟨_,List.mem_append_left _ (by simp),h⟩
  · obtain rfl := Option.mem_toList.mp hc
    cases hr with
    | some h => exact ⟨_,List.mem_append_right _ (by simp),h⟩

end Unrolling

/-- The nodes of a tree whose root is no repetition, and those of the tree that it is unrolled to:
each comes from one of the other, except for what repetitions stand for. -/
structure Traced (t u : Tree) (root top : NodeId) : Prop where
  atTop : u.root = some top
  shape : ∀ node, t.get? root = some node → ∃ node', u.get? top = some node' ∧ node.SameShape node'
  source : ∀ new node', Relation.TransGen u.Child top new → u.get? new = some node' →
    node'.IsOperand ∨ ∃ id node, Relation.TransGen t.Child root id ∧ t.get? id = some node ∧
      node.SameShape node'
  /-- The right child of a repetition has no place in the unrolled tree. -/
  image : (∀ id node, Relation.TransGen t.Child root id → t.get? id = some node →
      node.IsRepetition → node.right = none) →
    ∀ id node, Relation.TransGen t.Child root id → t.get? id = some node →
      node.IsRepetition ∧ node.left.isSome ∨ ∃ new node', Relation.TransGen u.Child top new ∧
        u.get? new = some node' ∧ node.SameShape node'

/-- What is below the root is left before it. -/
theorem Closed.leaveOrder_eq (h : t.Closed) (hroot : t.root = some root)
    (htop : t.get? root = some node) :
    ∃ n, (∀ c ∈ node.children, t.HeightLE n c) ∧
      t.leaveOrder = node.children.flatMap (t.postorder n) ++ [root] := by
  have hheight := h.heightLE (h.rootInRange root hroot)
  obtain ⟨n,hn,hc⟩ := hheight.exists_succ htop
  exact ⟨n,hc,by rw [Tree.leaveOrder_eq hroot hheight, hn, postorder_succ htop]⟩

theorem Closed.nodes_of_unroll {u : Tree} {new : NodeId} (h : t.Closed) (hu : t.unroll = .ok u)
    (hnode : u.get? new = some node) :
    node.IsOperand ∨ ∃ id node', t.Reachable id ∧ t.get? id = some node' ∧
      node'.SameShape node := by
  unfold Tree.unroll at hu
  cases hroot : t.root with
  | none =>
    rw [hroot] at hu
    cases hu
  | some root =>
    have hheight := h.heightLE (h.rootInRange root hroot)
    have horder : t.leaveOrder = [root].flatMap (t.postorder t.size) := by
      rw [Tree.leaveOrder_eq hroot hheight, List.flatMap_cons, List.flatMap_nil, List.append_nil]
    simp only [hroot] at hu
    rw [h.foldLeft_eq, horder] at hu
    obtain ⟨w,hw,hfinal⟩ := bind_eq_ok.mp hu
    obtain rfl := Except.ok.inj hfinal
    obtain ⟨htraces,-,-⟩ := (Unrolling.traces_empty t t.Reachable).visitsAll
      (List.forall_mem_singleton.mpr hheight)
      (List.forall_mem_singleton.mpr fun x hx => ⟨root,hroot,hx⟩) hw
    exact htraces.nodes new node hnode

/-- What is left before the root leaves all children of the root with images. -/
theorem Closed.exists_images {u : Tree} (h : t.Closed) (hroot : t.root = some root)
    (htop : t.get? root = some node) (hu : t.unroll = .ok u) :
    ∃ w w' : Unrolling, w.Traces t (Relation.TransGen t.Child root) ∧
      (∀ c ∈ node.children, (w.imageOf c).isSome) ∧ w.visit t root = .ok w' ∧
      u = { w'.result with root := w'.imageOf root } := by
  obtain ⟨n,hc,horder⟩ := h.leaveOrder_eq hroot htop
  unfold Tree.unroll at hu
  simp only [hroot] at hu
  rw [h.foldLeft_eq, horder] at hu
  obtain ⟨w',hrun,hfinal⟩ := bind_eq_ok.mp hu
  rw [List.foldlM_append] at hrun
  obtain ⟨w,hw,hlast⟩ := bind_eq_ok.mp hrun
  rw [List.foldlM_cons] at hlast
  obtain ⟨w'',hvisit,hnil⟩ := bind_eq_ok.mp hlast
  obtain rfl := Except.ok.inj hnil
  have hempty := Unrolling.traces_empty t (Relation.TransGen t.Child root)
  obtain ⟨htraces,-,hall⟩ :=
    hempty.visitsAll hc (fun c hmem x hx => .head' ⟨node,htop,hmem⟩ hx) hw
  exact ⟨w,w'',htraces,hall,hvisit,(Except.ok.inj hfinal).symm⟩

/-- Nodes below the root have images below that of the root. -/
theorem Unrolling.Traces.below {w : Unrolling} {top : NodeId} {node' : Node}
    (h : w.Traces t (Relation.TransGen t.Child root)) (htop : t.get? root = some node)
    (hl : Option.Rel (fun c c' => w.imageOf c = some c') node.left node'.left)
    (hr : Option.Rel (fun c c' => w.imageOf c = some c') node.right node'.right)
    (htop' : t'.get? top = some node') (hext : w.result.Extends t')
    (hrep : ∀ id node, Relation.TransGen t.Child root id → t.get? id = some node →
      node.IsRepetition → node.right = none) (hbelow : Relation.TransGen t.Child root id) :
    ∃ new, w.imageOf id = some new ∧ Relation.TransGen t'.Child top new := by
  induction hbelow with
  | single hchild =>
    obtain ⟨node₁,hnode₁,hmem⟩ := hchild
    obtain rfl : node = node₁ := Option.some.inj (htop.symm.trans hnode₁)
    obtain ⟨c',hc',himage⟩ := exists_child_of_rel hl hr hmem
    exact ⟨c',himage,.single ⟨node',htop',hc'⟩⟩
  | @tail b d hb hchild ih =>
    obtain ⟨new,hnew,hpath⟩ := ih
    obtain ⟨node₁,hnode₁,hmem⟩ := hchild
    cases (h.image b new hnew).2 with
    | @copy node₂ node₂' hnode₂ hnew₂ hkind hl₂ hr₂ =>
      obtain rfl : node₁ = node₂ := Option.some.inj (hnode₁.symm.trans hnode₂)
      obtain ⟨c',hc',himage⟩ := exists_child_of_rel hl₂ hr₂ hmem
      exact ⟨c',himage,hpath.tail ⟨node₂',hext new node₂' hnew₂,hc'⟩⟩
    | @rounds min max greedy c c' right hnode₂ hc' hdown =>
      obtain rfl := Option.some.inj (hnode₁.symm.trans hnode₂)
      obtain rfl : right = none := hrep b _ hb hnode₂ ⟨min,max,greedy,rfl⟩
      obtain rfl : d = c := by simpa [Node.children] using hmem
      exact ⟨c',hc',hpath.trans_left (below_mono hdown hext)⟩

theorem Closed.traced {u : Tree} (h : t.Closed) (hroot : t.root = some root)
    (htop : t.get? root = some node) (hkind : ¬ node.IsRepetition) (hu : t.unroll = .ok u) :
    ∃ top, t.Traced u root top := by
  have hunrolled := h.unroll
  rw [hu] at hunrolled
  obtain ⟨hclosed,-⟩ := hunrolled.of_ok
  obtain ⟨w,w',htraces,hall,hvisit,rfl⟩ := h.exists_images hroot htop hu
  -- images belong to nodes below the root, so the root itself has none yet
  have hfresh : w.imageOf root = none := by
    cases hseen : w.imageOf root with
    | none => rfl
    | some new => exact absurd (htraces.image root new hseen).1 (h.acyclic root)
  rw [Unrolling.visit_operator htop hfresh fun min max greedy heq =>
    hkind ⟨min,max,greedy,heq⟩] at hvisit
  obtain rfl := Except.ok.inj hvisit
  have hlt : root < w.image.size := htraces.size ▸ lt_size_of_get? htop
  have hl := Unrolling.rel_bind (u := w) node.left fun c hmem =>
    hall c (List.mem_append_left _ (Option.mem_toList.mpr hmem))
  have hr := Unrolling.rel_bind (u := w) node.right fun c hmem =>
    hall c (List.mem_append_right _ (Option.mem_toList.mpr hmem))
  have htop' := get?_add (t := w.result)
    { node with left := node.left.bind w.imageOf, right := node.right.bind w.imageOf }
  refine ⟨w.result.size,?_,fun node₁ hnode₁ => ?_,fun new node' hbelow hnode' => ?_,?_⟩
  · exact (Unrolling.imageOf_record w root _ hlt root).trans (if_pos rfl)
  · obtain rfl : node = node₁ := Option.some.inj (htop.symm.trans hnode₁)
    exact ⟨_,htop',rfl,Unrolling.isSome_of_rel hl,Unrolling.isSome_of_rel hr⟩
  · rcases get?_add_cases hnode' with hold | ⟨rfl,-⟩
    · exact htraces.nodes new node' hold
    · exact absurd hbelow (hclosed.acyclic _)
  · intro hrep id node₁ hbelow hnode₁
    obtain ⟨new,hnew,hpath⟩ :=
      htraces.below htop hl hr htop' (extends_add _) hrep hbelow
    cases (htraces.image id new hnew).2 with
    | @copy node₂ node₂' hnode₂ hnew₂ hkind₂ hl₂ hr₂ =>
      obtain rfl : node₁ = node₂ := Option.some.inj (hnode₁.symm.trans hnode₂)
      exact Or.inr ⟨new,node₂',hpath,extends_add _ new node₂' hnew₂,hkind₂,
        Unrolling.isSome_of_rel hl₂,Unrolling.isSome_of_rel hr₂⟩
    | @rounds min max greedy c c' right hnode₂ =>
      obtain rfl := Option.some.inj (hnode₁.symm.trans hnode₂)
      exact Or.inl ⟨⟨min,max,greedy,rfl⟩,rfl⟩

end Tree
end ByteAutomata
