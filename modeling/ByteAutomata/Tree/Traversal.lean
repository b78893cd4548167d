import ByteAutomata.Tree.Basic

/-! # Depth-first traversal

A traversal enters a node, visits the left and then the right child, and leaves the node; a shared
child is visited once for each parent. The work ahead is a list of pending entries. A path that
repeats no node is no longer than the tree, so an entry that has used up this length lies on a
cycle and stops the traversal, as a missing node does. -/
namespace ByteAutomata

inductive Event where
  | enter (id : NodeId)
  | leave (id : NodeId)
deriving DecidableEq

def Event.left? : Event → Option NodeId
  | enter _ => none
  | leave id => some id

inductive Pending where
  /-- A node to be entered, with the number of nodes that a path may hold from it on. -/
  | enter (id : NodeId) (allowance : Nat)
  | leave (id : NodeId)
deriving DecidableEq

/-- More than the entries that come after this one on its behalf weigh together. -/
def Pending.weight : Pending → Nat
  | enter _ allowance => Nat.pow 3 (allowance + 1)
  | leave _ => 1

def totalWeight : List Pending → Nat
  | [] => 0
  | p :: rest => p.weight + totalWeight rest

theorem totalWeight_append (xs ys : List Pending) :
    totalWeight (xs ++ ys) = totalWeight xs + totalWeight ys := by
  induction xs with
  | nil => simp [totalWeight]
  | cons p xs ih => simp [totalWeight, ih, Nat.add_assoc]

theorem Pending.weight_enter_succ (id : NodeId) (n : Nat) :
    (enter id (n + 1)).weight = 3 * (enter id n).weight :=
  Nat.mul_comm ..

theorem Pending.one_lt_weight_enter (id : NodeId) (n : Nat) : 1 < (enter id n).weight :=
  Nat.one_lt_pow (Nat.succ_ne_zero n) (by decide)

inductive Step where
  | finished
  | stuck (fault : Fault)
  | event (event : Event) (pending : List Pending)
deriving DecidableEq

namespace Tree

def step (t : Tree) : List Pending → Step
  | [] => .finished
  | .leave id :: rest => .event (.leave id) rest
  | .enter id allowance :: rest =>
    match t.get? id, allowance with
    | none, _ => .stuck (.missingNode id)
    | some _, 0 => .stuck .cyclicTree
    | some node, n + 1 =>
      .event (.enter id) (node.children.map (Pending.enter · n) ++ .leave id :: rest)

theorem totalWeight_children (node : Node) (id : NodeId) (n : Nat) :
    totalWeight (node.children.map (Pending.enter · n)) ≤ 2 * (Pending.enter id n).weight := by
  rcases node with ⟨kind,left,right⟩
  cases left <;> cases right <;> simp [totalWeight, Node.children, Pending.weight, Nat.two_mul]

theorem totalWeight_step {t : Tree} {pending rest : List Pending} {e : Event}
    (h : t.step pending = .event e rest) : totalWeight rest < totalWeight pending := by
  match pending with
  | [] => simp [step] at h
  | .leave id :: later =>
    obtain ⟨rfl,rfl⟩ := Step.event.inj h
    simp [totalWeight, Pending.weight]
  | .enter id allowance :: later =>
    simp only [step] at h
    split at h
    · simp at h
    · simp at h
    · rename_i node n _
      obtain ⟨rfl,rfl⟩ := Step.event.inj h
      have hc := totalWeight_children node id n
      have hp := Pending.one_lt_weight_enter id n
      have hl : (Pending.leave id).weight = 1 := rfl
      rw [totalWeight_append, totalWeight, totalWeight, Pending.weight_enter_succ]
      omega

end Tree

/-- The events of a traversal, and the fault that ended it early, if any. -/
structure Traversal where
  events : List Event
  fault : Option Fault
deriving DecidableEq

namespace Tree

def traverseFrom (t : Tree) (pending : List Pending) (seen : List Event) : Traversal :=
  match _h : t.step pending with
  | .finished => ⟨seen.reverse,none⟩
  | .stuck fault => ⟨seen.reverse,some fault⟩
  | .event e rest => t.traverseFrom rest (e :: seen)
termination_by totalWeight pending
decreasing_by exact totalWeight_step _h

def traversal (t : Tree) : Traversal :=
  t.traverseFrom (t.root.toList.map (Pending.enter · t.size)) []

def events (t : Tree) : Except Fault (List Event) :=
  match t.traversal with
  | ⟨events,none⟩ => .ok events
  | ⟨_,some fault⟩ => .error fault

/-- Folds a step over the nodes in the order in which they are left. The fault of an interrupted
traversal counts only if no step has failed before it. -/
def foldLeft {σ ε : Type} (t : Tree) (ofFault : Fault → ε) (f : σ → NodeId → Except ε σ)
    (init : σ) : Except ε σ := do
  let ⟨events,fault⟩ := t.traversal
  let s ← (events.filterMap Event.left?).foldlM f init
  match fault with
  | none => return s
  | some fault => throw (ofFault fault)

def node (t : Tree) (id : NodeId) : Except Fault Node :=
  match t.get? id with
  | some node => .ok node
  | none => .error (.missingNode id)

end Tree
end ByteAutomata
