import ByteAutomata.Proofs.Term.Priority
import ByteAutomata.Proofs.Tree.Postorder

/-! # The term of a tree

A well-formed tree has a root of its own kind with one child, and every node below it has exactly
the operands that its kind asks for. Such a tree spells exactly one term. -/
namespace ByteAutomata

def Leaf.node : Leaf → Node
  | literal codePoint => { kind := .literal codePoint }
  | dot => { kind := .dot }
  | charClass set => { kind := .charClass set }

namespace Node
variable (l r c : NodeId)

@[simp] theorem children_leaf (leaf : Leaf) : leaf.node.children = [] := by cases leaf <;> rfl

@[simp] theorem children_alternation : (alternation l r).children = [l,r] := rfl

@[simp] theorem children_concatenation : (concatenation l r).children = [l,r] := rfl

@[simp] theorem children_repetition (min : Nat) (max : Option Nat) (greedy : Bool) :
    (repetition c min max greedy).children = [c] := rfl

@[simp] theorem children_regexp : (regexp c).children = [c] := rfl

end Node

/-- A node below the root that has the operands of its kind and no others. -/
def Node.IsOperand (node : Node) : Prop :=
  match node.kind with
  | .regexp => False
  | .alternation | .concatenation => node.left.isSome ∧ node.right.isSome
  | .repetition .. => node.left.isSome ∧ node.right = none
  | .literal _ | .dot | .charClass _ => node.left = none ∧ node.right = none

instance : DecidablePred Node.IsOperand := fun node =>
  match node with
  | ⟨.regexp,_,_⟩ => isFalse id
  | ⟨.alternation,l,r⟩ | ⟨.concatenation,l,r⟩ =>
    inferInstanceAs (Decidable (l.isSome = true ∧ r.isSome = true))
  | ⟨.repetition _ _ _,l,r⟩ => inferInstanceAs (Decidable (l.isSome = true ∧ r = none))
  | ⟨.literal _,l,r⟩ | ⟨.dot,l,r⟩ | ⟨.charClass _,l,r⟩ =>
    inferInstanceAs (Decidable (l = none ∧ r = none))

/-- The kind of an operand decides which children it has. -/
theorem Node.IsOperand.cases {node : Node} (h : node.IsOperand) :
    (∃ l : Leaf, node = l.node) ∨ (∃ l r, node = .alternation l r) ∨
      (∃ l r, node = .concatenation l r) ∨
      ∃ c min max greedy, node = .repetition c min max greedy := by
  obtain ⟨kind,left,right⟩ := node
  cases kind with
  | regexp => exact h.elim
  | alternation =>
    obtain ⟨l,rfl⟩ := Option.isSome_iff_exists.mp h.1
    obtain ⟨r,rfl⟩ := Option.isSome_iff_exists.mp h.2
    exact Or.inr (Or.inl ⟨l,r,rfl⟩)
  | concatenation =>
    obtain ⟨l,rfl⟩ := Option.isSome_iff_exists.mp h.1
    obtain ⟨r,rfl⟩ := Option.isSome_iff_exists.mp h.2
    exact Or.inr (Or.inr (Or.inl ⟨l,r,rfl⟩))
  | repetition min max greedy =>
    obtain ⟨c,rfl⟩ := Option.isSome_iff_exists.mp h.1
    obtain rfl : right = none := h.2
    exact Or.inr (Or.inr (Or.inr ⟨c,min,max,greedy,rfl⟩))
  | literal codePoint =>
    obtain ⟨rfl,rfl⟩ : left = none ∧ right = none := h
    exact Or.inl ⟨.literal codePoint,rfl⟩
  | dot =>
    obtain ⟨rfl,rfl⟩ : left = none ∧ right = none := h
    exact Or.inl ⟨.dot,rfl⟩
  | charClass set =>
    obtain ⟨rfl,rfl⟩ : left = none ∧ right = none := h
    exact Or.inl ⟨.charClass set,rfl⟩

namespace Tree

structure WellFormed (t : Tree) : Prop where
  acyclic : ∀ id, ¬ Relation.TransGen t.Child id id
  inRange : ∀ parent child, t.Child parent child → child < t.size
  rooted : ∃ root child, t.root = some root ∧ t.get? root = some (.regexp child)
  operands : ∀ root id node, t.root = some root → Relation.TransGen t.Child root id →
    t.get? id = some node → node.IsOperand

/-- The term that a node stands for. -/
inductive Reads (t : Tree) : NodeId → Term → Prop where
  | leaf {id : NodeId} {l : Leaf} (h : t.get? id = some l.node) : Reads t id (.leaf l)
  | alternation {id l r : NodeId} {a b : Term} (h : t.get? id = some (.alternation l r))
      (hl : Reads t l a) (hr : Reads t r b) : Reads t id (.alternation a b)
  | concatenation {id l r : NodeId} {a b : Term} (h : t.get? id = some (.concatenation l r))
      (hl : Reads t l a) (hr : Reads t r b) : Reads t id (.concatenation a b)
  | repetition {id c : NodeId} {a : Term} {min : Nat} {max : Option Nat} {greedy : Bool}
      (h : t.get? id = some (.repetition c min max greedy)) (hc : Reads t c a) :
      Reads t id (.repetition min max greedy a)

/-- The term below the root. -/
def Spells (t : Tree) (e : Term) : Prop :=
  ∃ root child, t.root = some root ∧ t.get? root = some (.regexp child) ∧ t.Reads child e

/-- A term below the root, with no endless way down. -/
structure Represents (t : Tree) (root child : NodeId) (e : Term) : Prop where
  atRoot : t.root = some root
  top : t.get? root = some (.regexp child)
  reads : t.Reads child e
  height : t.HeightLE t.size root

def language (s : BuilderSettings) (t : Tree) : Language UInt8 :=
  {w | ∃ e, t.Spells e ∧ w ∈ e.language s}

variable {t : Tree} {id : NodeId} {e e' : Term}

/-- The kind of a node decides how it is read, and its children what it reads as. -/
theorem Reads.unique (h : t.Reads id e) (h' : t.Reads id e') : e = e' := by
  induction h generalizing e' with
  | @leaf id l h =>
    cases h' with
    | @leaf _ l' h' => cases l <;> cases l' <;> cases h.symm.trans h' <;> rfl
    | alternation h' => cases l <;> cases h.symm.trans h'
    | concatenation h' => cases l <;> cases h.symm.trans h'
    | repetition h' => cases l <;> cases h.symm.trans h'
  | alternation h _ _ ihl ihr =>
    cases h' with
    | @leaf _ l' h' => cases l' <;> cases h.symm.trans h'
    | alternation h' hl' hr' =>
      cases h.symm.trans h'
      rw [ihl hl', ihr hr']
    | concatenation h' => cases h.symm.trans h'
    | repetition h' => cases h.symm.trans h'
  | concatenation h _ _ ihl ihr =>
    cases h' with
    | @leaf _ l' h' => cases l' <;> cases h.symm.trans h'
    | alternation h' => cases h.symm.trans h'
    | concatenation h' hl' hr' =>
      cases h.symm.trans h'
      rw [ihl hl', ihr hr']
    | repetition h' => cases h.symm.trans h'
  | repetition h _ ih =>
    cases h' with
    | @leaf _ l' h' => cases l' <;> cases h.symm.trans h'
    | alternation h' => cases h.symm.trans h'
    | concatenation h' => cases h.symm.trans h'
    | repetition h' hc' =>
      cases h.symm.trans h'
      rw [ih hc']

/-- A node below the root of a well-formed tree stands for a term. -/
theorem WellFormed.exists_reads {n : Nat} {root : NodeId} (h : t.WellFormed)
    (hroot : t.root = some root) (hbelow : Relation.TransGen t.Child root id)
    (hh : t.HeightLE n id) : ∃ e, t.Reads id e := by
  induction n generalizing id with
  | zero => exact hh.elim
  | succ n ih =>
    obtain ⟨node,hnode,hc⟩ := hh
    have hchild : ∀ c ∈ node.children, ∃ e, t.Reads c e := fun c hmem =>
      ih (hbelow.tail ⟨node,hnode,hmem⟩) (hc c hmem)
    obtain ⟨l,rfl⟩ | ⟨l,r,rfl⟩ | ⟨l,r,rfl⟩ | ⟨c,min,max,greedy,rfl⟩ :=
      (h.operands root id node hroot hbelow hnode).cases
    · exact ⟨_,.leaf hnode⟩
    · obtain ⟨d,hd⟩ := hchild l (by simp)
      obtain ⟨e,he⟩ := hchild r (by simp)
      exact ⟨_,.alternation hnode hd he⟩
    · obtain ⟨d,hd⟩ := hchild l (by simp)
      obtain ⟨e,he⟩ := hchild r (by simp)
      exact ⟨_,.concatenation hnode hd he⟩
    · obtain ⟨e,he⟩ := hchild c (by simp)
      exact ⟨_,.repetition hnode he⟩

theorem WellFormed.exists_represents (h : t.WellFormed) :
    ∃ root child e, t.Represents root child e := by
  obtain ⟨root,child,hroot,htop⟩ := h.rooted
  have hheight := heightLE_of_acyclic h.acyclic h.inRange (lt_size_of_get? htop)
  obtain ⟨n,hn,hc⟩ := hheight.exists_succ htop
  have hmem : child ∈ (Node.regexp child).children := by simp
  obtain ⟨e,he⟩ := h.exists_reads hroot (.single ⟨_,htop,hmem⟩) (hc child hmem)
  exact ⟨root,child,e,hroot,htop,he,hheight⟩

theorem WellFormed.closed (h : t.WellFormed) : t.Closed where
  acyclic := h.acyclic
  inRange := h.inRange
  rootInRange root hroot := by
    obtain ⟨root',child,hroot',htop⟩ := h.rooted
    obtain rfl : root = root' := Option.some.inj (hroot.symm.trans hroot')
    exact lt_size_of_get? htop

theorem WellFormed.of_closed {root child : NodeId} (hclosed : t.Closed) (hroot : t.root = some root)
    (htop : t.get? root = some (.regexp child))
    (hop : ∀ id node, Relation.TransGen t.Child root id → t.get? id = some node →
      node.IsOperand) : t.WellFormed where
  acyclic := hclosed.acyclic
  inRange := hclosed.inRange
  rooted := ⟨root,child,hroot,htop⟩
  operands root' id node hroot' hbelow hnode := by
    obtain rfl : root = root' := Option.some.inj (hroot.symm.trans hroot')
    exact hop id node hbelow hnode

theorem Reads.isOperand {node : Node} (h : t.Reads id e) (hnode : t.get? id = some node) :
    node.IsOperand := by
  have hsome : ∀ {node' : Node}, t.get? id = some node' → node'.IsOperand → node.IsOperand :=
    fun h' hop => Option.some.inj (h'.symm.trans hnode) ▸ hop
  cases h with
  | @leaf _ l h => exact hsome h (by cases l <;> exact ⟨rfl,rfl⟩)
  | alternation h => exact hsome h ⟨rfl,rfl⟩
  | concatenation h => exact hsome h ⟨rfl,rfl⟩
  | repetition h => exact hsome h ⟨rfl,rfl⟩

theorem Reads.child {c : NodeId} (h : t.Reads id e) (hc : t.Child id c) : ∃ e', t.Reads c e' := by
  obtain ⟨node,hnode,hmem⟩ := hc
  have hsome : ∀ {node' : Node}, t.get? id = some node' → c ∈ node'.children :=
    fun h' => Option.some.inj (h'.symm.trans hnode) ▸ hmem
  cases h with
  | @leaf _ l h => simpa using hsome h
  | alternation h hl hr =>
    obtain rfl | rfl := by simpa using hsome h
    · exact ⟨_,hl⟩
    · exact ⟨_,hr⟩
  | concatenation h hl hr =>
    obtain rfl | rfl := by simpa using hsome h
    · exact ⟨_,hl⟩
    · exact ⟨_,hr⟩
  | repetition h hr =>
    obtain rfl := by simpa using hsome h
    exact ⟨_,hr⟩

theorem Reads.descendant {x : NodeId} (h : t.Reads id e) (hx : Relation.ReflTransGen t.Child id x) :
    ∃ e', t.Reads x e' := by
  induction hx with
  | refl => exact ⟨e,h⟩
  | tail _ hchild ih =>
    obtain ⟨e',he'⟩ := ih
    exact he'.child hchild

/-- A closed tree needs only a term below its root. -/
theorem WellFormed.of_reads {root child : NodeId} (hclosed : t.Closed) (hroot : t.root = some root)
    (htop : t.get? root = some (.regexp child)) (h : t.Reads child e) : t.WellFormed := by
  refine .of_closed hclosed hroot htop fun id node hbelow hnode => ?_
  obtain ⟨c,⟨top,htop',hmem⟩,hbelow⟩ := Relation.TransGen.head'_iff.mp hbelow
  obtain rfl : Node.regexp child = top := Option.some.inj (htop.symm.trans htop')
  obtain rfl := by simpa using hmem
  obtain ⟨e',he'⟩ := h.descendant hbelow
  exact he'.isOperand hnode

theorem Descending.of_forall
    (h : ∀ i : Fin t.nodes.size, ∀ c ∈ t.nodes[i].children, c < i.val) : t.Descending := by
  rintro parent c ⟨node,hnode,hc⟩
  obtain ⟨hlt,rfl⟩ := Array.getElem?_eq_some_iff.mp hnode
  exact h ⟨parent,hlt⟩ c hc

/-- Where children come before their parents, it is enough to look at each node by itself. -/
theorem WellFormed.of_forall {root child : NodeId} (hroot : t.root = some root)
    (htop : t.get? root = some (.regexp child))
    (h : ∀ i : Fin t.nodes.size, (∀ c ∈ t.nodes[i].children, c < i.val) ∧
      (i.val < root → t.nodes[i].IsOperand)) : t.WellFormed := by
  have hdesc : t.Descending := .of_forall fun i => (h i).1
  have hclosed : t.Closed := hdesc.closed fun root' hroot' => by
    obtain rfl : root = root' := Option.some.inj (hroot.symm.trans hroot')
    exact lt_size_of_get? htop
  refine .of_closed hclosed hroot htop fun id node hbelow hnode => ?_
  obtain ⟨hlt,rfl⟩ := Array.getElem?_eq_some_iff.mp hnode
  exact (h ⟨id,hlt⟩).2 (hdesc.lt hbelow)

theorem Represents.heightLE {root child : NodeId} (h : t.Represents root child e) :
    t.HeightLE t.size child := by
  obtain ⟨n,hn,hc⟩ := h.height.exists_succ h.top
  exact (hc child (by simp)).mono (by omega)

/-- The root is left last. -/
theorem Represents.leaveOrder {root child : NodeId} (h : t.Represents root child e) :
    t.leaveOrder = t.postorder t.size child ++ [root] := by
  obtain ⟨n,hn,hc⟩ := h.height.exists_succ h.top
  have hchild := hc child (by simp)
  have hsame : t.postorder t.size child = t.postorder n child := hchild.postorder_eq (by omega)
  rw [leaveOrder_eq h.atRoot h.height, hsame, hn]
  exact postorder_unary h.top (Node.children_regexp child) n

theorem Represents.spells {root child : NodeId} (h : t.Represents root child e) : t.Spells e :=
  ⟨root,child,h.atRoot,h.top,h.reads⟩

theorem Spells.unique (h : t.Spells e) (h' : t.Spells e') : e = e' := by
  obtain ⟨root,child,hroot,htop,hreads⟩ := h
  obtain ⟨root',child',hroot',htop',hreads'⟩ := h'
  obtain rfl : root = root' := Option.some.inj (hroot.symm.trans hroot')
  obtain rfl : child = child' := by simpa [Node.regexp] using htop.symm.trans htop'
  exact hreads.unique hreads'

theorem Spells.language_eq (h : t.Spells e) (s : BuilderSettings) :
    t.language s = e.language s := by
  ext w
  constructor
  · rintro ⟨e',h',hw⟩
    rwa [h.unique h']
  · exact fun hw => ⟨e,h,hw⟩

end Tree
end ByteAutomata
