import Mathlib.Data.Set.Card
import ByteAutomata.Proofs.Tree.Reading
import ByteAutomata.Tree.Printer

/-! # Traversals by recursion

A traversal works on a stack of events, and the passes over a tree on a stack of results. On a
closed tree both do what a recursion over the nodes does: the events of a node are those of its
children between its own two, and the result of a node is made of the results of its children. -/
namespace ByteAutomata

/-- The event that is pending, whatever its allowance. -/
def Pending.toEvent : Pending → Event
  | enter id _ => .enter id
  | leave id => .leave id

namespace Tree
variable {t : Tree} {id x : NodeId} {n m : Nat} {node : Node} {α : Type}

section Stack
variable {pending rest : List Pending} {seen : List Event} {e : Event}

/-- What stands on top of a stack of events, and the stack after it: the events of the children
take the place of an entered node. -/
def pop (t : Tree) : List Event → Except Fault (Option (Event × List Event))
  | [] => .ok none
  | .leave id :: rest => .ok (some (.leave id,rest))
  | .enter id :: rest => do
    let node ← t.node id
    return some (.enter id,node.children.map .enter ++ .leave id :: rest)

/-- The events that come from a stack until nothing is left of it. -/
inductive Yields (t : Tree) : List Event → List Event → Prop where
  | finished {stack : List Event} (h : t.pop stack = .ok none) : Yields t stack []
  | event {stack rest events : List Event} {e : Event} (h : t.pop stack = .ok (some (e,rest)))
      (hrest : Yields t rest events) : Yields t stack (e :: events)

theorem Yields.unique {stack events events' : List Event} (h : t.Yields stack events)
    (h' : t.Yields stack events') : events = events' := by
  induction h generalizing events' with
  | finished hpop =>
    cases h' with
    | finished => rfl
    | event hpop' => cases hpop.symm.trans hpop'
  | event hpop _ ih =>
    cases h' with
    | finished hpop' => cases hpop.symm.trans hpop'
    | event hpop' hrest' =>
      cases hpop.symm.trans hpop'
      rw [ih hrest']

theorem pop_of_finished (h : t.step pending = .finished) :
    t.pop (pending.map Pending.toEvent) = .ok none := by
  match pending with
  | [] => rfl
  | .leave id :: later => cases h
  | .enter id allowance :: later =>
    simp only [step] at h
    split at h <;> cases h

/-- Allowances only decide whether a step is made. -/
theorem pop_of_event (h : t.step pending = .event e rest) :
    t.pop (pending.map Pending.toEvent) = .ok (some (e,rest.map Pending.toEvent)) := by
  match pending with
  | [] => cases h
  | .leave id :: later =>
    obtain ⟨rfl,rfl⟩ := Step.event.inj h
    rfl
  | .enter id allowance :: later =>
    simp only [step] at h
    split at h
    · cases h
    · cases h
    · rename_i node n hnode
      obtain ⟨rfl,rfl⟩ := Step.event.inj h
      simp [pop, Pending.toEvent, Tree.node, hnode, Function.comp_def]

/-- A traversal that ends without a fault has emptied its stack. -/
theorem yields_of_traverseFrom {events : List Event}
    (h : t.traverseFrom pending seen = ⟨events,none⟩) :
    ∃ later, events = seen.reverse ++ later ∧ t.Yields (pending.map Pending.toEvent) later := by
  fun_induction traverseFrom t pending seen with
  | case1 pending seen hstep =>
    obtain rfl := congrArg Traversal.events h
    exact ⟨[],(List.append_nil _).symm,.finished (pop_of_finished hstep)⟩
  | case2 pending seen fault hstep => cases h
  | case3 pending seen e rest hstep ih =>
    obtain ⟨later,rfl,hyields⟩ := ih h
    refine ⟨e :: later,?_,.event (pop_of_event hstep) hyields⟩
    rw [List.reverse_cons, List.append_assoc, List.singleton_append]

end Stack

section Values
variable (f : NodeKind → List α → α)

/-- The result of a node by recursion, at most `n` nodes deep; what is missing counts as a leaf. -/
def valueFrom (t : Tree) : Nat → NodeId → α
  | 0, _ => f .dot []
  | n + 1, id =>
    match t.get? id with
    | none => f .dot []
    | some node => f node.kind (node.children.map (t.valueFrom n))

theorem valueFrom_succ (h : t.get? id = some node) (n : Nat) :
    t.valueFrom f (n + 1) id = f node.kind (node.children.map (t.valueFrom f n)) := by
  rw [valueFrom, h]

theorem HeightLE.valueFrom_eq (h : t.HeightLE n id) (hnm : n ≤ m) :
    t.valueFrom f m id = t.valueFrom f n id := by
  induction n generalizing m id with
  | zero => exact h.elim
  | succ n ih =>
    obtain ⟨node,hnode,hc⟩ := h
    obtain ⟨k,rfl⟩ := Nat.exists_eq_add_of_le' hnm
    have hchildren : node.children.map (t.valueFrom f (k + n)) =
        node.children.map (t.valueFrom f n) :=
      List.map_congr_left fun c hcm => ih (hc c hcm) (Nat.le_add_left n k)
    rw [← Nat.add_assoc, valueFrom_succ f hnode, valueFrom_succ f hnode, hchildren]

/-- The results on top of a stack, in the order in which they were put there. -/
theorem takeTop_append (results stack : List α) :
    takeTop results.length (results.reverse ++ stack) = .ok (results,stack) := by
  have htake : (results.reverse ++ stack).take results.length = results.reverse :=
    List.take_left' results.length_reverse
  have hdrop : (results.reverse ++ stack).drop results.length = stack :=
    List.drop_left' results.length_reverse
  rw [takeTop, htake, hdrop, if_pos results.length_reverse, List.reverse_reverse]

theorem reduce_eq (h : t.get? id = some node) {results : List α}
    (hlength : results.length = node.children.length) (stack : List α) :
    t.reduce f (results.reverse ++ stack) id = .ok (f node.kind results :: stack) := by
  simp only [reduce, Tree.node, h, ← hlength, ok_bind, takeTop_append]
  rfl

/-- A subtree takes nothing from the stack, and puts one result on it. -/
theorem HeightLE.foldlM_reduce (h : t.HeightLE n id) (stack : List α) :
    (t.postorder n id).foldlM (t.reduce f) stack = .ok (t.valueFrom f n id :: stack) := by
  induction n generalizing id stack with
  | zero => exact h.elim
  | succ n ih =>
    obtain ⟨node,hnode,hc⟩ := h
    have hchildren : ∀ cs : List NodeId, (∀ c ∈ cs, t.HeightLE n c) → ∀ stack,
        (cs.flatMap (t.postorder n)).foldlM (t.reduce f) stack =
          .ok ((cs.map (t.valueFrom f n)).reverse ++ stack) := by
      intro cs hcs
      induction cs with
      | nil => intro stack; rfl
      | cons c cs ihc =>
        intro stack
        rw [List.flatMap_cons, foldlM_append_ok (ih (hcs c List.mem_cons_self) stack),
          ihc fun d hd => hcs d (List.mem_cons_of_mem c hd)]
        simp
    rw [postorder_succ hnode, foldlM_append_ok (hchildren node.children hc stack),
      List.foldlM_cons, reduce_eq f hnode (List.length_map _), valueFrom_succ f hnode]
    rfl

end Values

section Paths

/-- Which child a path goes on to. -/
inductive Turn where
  | left
  | right
deriving DecidableEq

/-- The node at the end of a path. -/
def follow (t : Tree) : NodeId → List Turn → Option NodeId
  | id, [] => some id
  | id, .left :: path => do t.follow (← (← t.get? id).left) path
  | id, .right :: path => do t.follow (← (← t.get? id).right) path

/-- The paths from a node, or from none, to the node `x`. -/
def pathsTo (t : Tree) (x : NodeId) (id? : Option NodeId) : Set (List Turn) :=
  {path | id?.bind (t.follow · path) = some x}

theorem pathsTo_none : t.pathsTo x none = ∅ := by
  ext path
  simp [pathsTo]

/-- A path ends at once, or turns left, or turns right. -/
theorem pathsTo_some (h : t.get? id = some node) :
    t.pathsTo x (some id) = {path | path = [] ∧ id = x} ∪
      ((.left :: ·) '' t.pathsTo x node.left ∪ (.right :: ·) '' t.pathsTo x node.right) := by
  ext path
  match path with
  | [] => simp [pathsTo, follow]
  | .left :: path => simp [pathsTo, follow, h]
  | .right :: path => simp [pathsTo, follow, h]

theorem encard_pathsTo_some (h : t.get? id = some node) :
    (t.pathsTo x (some id)).encard = (if id = x then 1 else 0) +
      ((t.pathsTo x node.left).encard + (t.pathsTo x node.right).encard) := by
  have hend : {path : List Turn | path = [] ∧ id = x}.encard = if id = x then 1 else 0 := by
    by_cases hx : id = x
    · simp [hx]
    · simp [hx]
  rw [pathsTo_some h, Set.encard_union_eq, Set.encard_union_eq, hend,
    List.cons_injective.encard_image, List.cons_injective.encard_image]
  · rw [Set.disjoint_left]
    rintro path ⟨p,-,rfl⟩ ⟨q,-,hq⟩
    cases hq
  · rw [Set.disjoint_left]
    rintro path ⟨rfl,-⟩ (⟨p,-,hp⟩ | ⟨p,-,hp⟩)
    · cases hp
    · cases hp

/-- Each path to a node enters and leaves it once. -/
theorem HeightLE.count_eventsFrom {e : Event} (h : t.HeightLE n id)
    (he : e = .enter x ∨ e = .leave x) :
    ((t.eventsFrom n id).count e : ℕ∞) = (t.pathsTo x (some id)).encard := by
  induction n generalizing id with
  | zero => exact h.elim
  | succ n ih =>
    obtain ⟨node,hnode,hc⟩ := h
    have hchild : ∀ c? : Option NodeId, (∀ c ∈ c?, c ∈ node.children) →
        ((c?.toList.flatMap (t.eventsFrom n)).count e : ℕ∞) = (t.pathsTo x c?).encard := by
      intro c? hmem
      cases c? with
      | none => simp [pathsTo_none]
      | some c => simpa using ih (hc c (hmem c rfl))
    have hleft := hchild node.left fun c hmem => by simp [Node.children, Option.mem_def.mp hmem]
    have hright := hchild node.right fun c hmem => by simp [Node.children, Option.mem_def.mp hmem]
    have hself : [Event.enter id,.leave id].count e = if id = x then 1 else 0 := by
      rcases he with rfl | rfl <;> by_cases hx : id = x <;> simp [hx]
    have hcount : (t.eventsFrom (n + 1) id).count e = [Event.enter id,.leave id].count e +
        ((node.left.toList.flatMap (t.eventsFrom n)).count e +
          (node.right.toList.flatMap (t.eventsFrom n)).count e) := by
      rw [eventsFrom_succ hnode, Node.children, List.flatMap_append]
      simp only [List.count_append, List.count_cons, List.count_nil]
      omega
    rw [hcount, hself, encard_pathsTo_some hnode, ← hleft, ← hright]
    push_cast
    rfl

end Paths

/-- The events of a visit to a node. -/
def visitEvents (t : Tree) (id : NodeId) : List Event := t.eventsFrom t.size id

/-- The result of a node, made of the results of its children. -/
def value (t : Tree) (f : NodeKind → List α → α) (id : NodeId) : α := t.valueFrom f t.size id

namespace Closed

theorem visitEvents_eq (ht : t.Closed) (h : t.get? id = some node) :
    t.visitEvents id = .enter id :: node.children.flatMap t.visitEvents ++ [.leave id] := by
  obtain ⟨k,hk,hc⟩ := (ht.heightLE (lt_size_of_get? h)).exists_succ h
  have hchildren : node.children.flatMap t.visitEvents = node.children.flatMap (t.eventsFrom k) :=
    List.flatMap_congr fun c hcm => (hc c hcm).eventsFrom_eq (by omega)
  rw [hchildren, visitEvents, hk, eventsFrom_succ h]

theorem value_eq (ht : t.Closed) (f : NodeKind → List α → α) (h : t.get? id = some node) :
    t.value f id = f node.kind (node.children.map (t.value f)) := by
  obtain ⟨k,hk,hc⟩ := (ht.heightLE (lt_size_of_get? h)).exists_succ h
  have hchildren : node.children.map (t.value f) = node.children.map (t.valueFrom f k) :=
    List.map_congr_left fun c hcm => (hc c hcm).valueFrom_eq f (by omega)
  rw [hchildren, value, hk, valueFrom_succ f h]

theorem traversal_eq (ht : t.Closed) :
    t.traversal = ⟨t.root.toList.flatMap t.visitEvents,none⟩ := by
  cases hroot : t.root with
  | none => exact traversal_of_none hroot
  | some root =>
    rw [Tree.traversal_eq hroot (ht.heightLE (ht.rootInRange root hroot))]
    simp [visitEvents]

/-- One result is left on the stack for the root. -/
theorem foldLeft_reduce (ht : t.Closed) (f : NodeKind → List α → α) :
    t.foldLeft (fun fault => fault) (t.reduce f) [] = .ok (t.root.toList.map (t.value f)) := by
  cases hroot : t.root with
  | none =>
    rw [foldLeft, traversal_of_none hroot]
    rfl
  | some root =>
    have hheight := ht.heightLE (ht.rootInRange root hroot)
    rw [Tree.foldLeft_eq hroot hheight, hheight.foldlM_reduce f []]
    rfl

theorem listText_eq (ht : t.Closed) :
    t.listText = .ok ((t.root.map (t.value NodeKind.listText)).getD "") := by
  rw [listText, ht.foldLeft_reduce]
  cases t.root <;> simp

theorem outlineText_eq (ht : t.Closed) :
    t.outlineText = .ok ((t.root.map fun root =>
      (t.value (fun kind => Outline.branch kind.label) root).toString).getD "<empty>") := by
  rw [outlineText, ht.foldLeft_reduce]
  cases t.root <;> rfl

end Closed

/-- On a closed tree the traversal with its stack comes to an end with the events of the visit by
recursion, in which a node occurs once for each path from the root. No pass over the nodes that are
left asks for a result that is missing, and it ends with the one that the root has by recursion. -/
theorem traversal_recursive (ht : t.Closed) :
    t.events = .ok (t.root.toList.flatMap t.visitEvents) ∧
      (∀ events, t.Yields (t.root.toList.map .enter) events ↔
        events = t.root.toList.flatMap t.visitEvents) ∧
      (∀ id node, t.get? id = some node →
        t.visitEvents id = .enter id :: node.children.flatMap t.visitEvents ++ [.leave id]) ∧
      (∀ root x, t.root = some root → ∀ e, e = .enter x ∨ e = .leave x →
        ((t.visitEvents root).count e : ℕ∞) = (t.pathsTo x (some root)).encard) ∧
      (∀ (α : Type) (f : NodeKind → List α → α),
        t.foldLeft (fun fault => fault) (t.reduce f) [] = .ok (t.root.toList.map (t.value f)) ∧
          ∀ id node, t.get? id = some node →
            t.value f id = f node.kind (node.children.map (t.value f))) ∧
      t.listText = .ok ((t.root.map (t.value NodeKind.listText)).getD "") ∧
      t.outlineText = .ok ((t.root.map fun root =>
        (t.value (fun kind => Outline.branch kind.label) root).toString).getD "<empty>") := by
  have hyields : t.Yields (t.root.toList.map .enter) (t.root.toList.flatMap t.visitEvents) := by
    obtain ⟨later,hlater,hyields⟩ := yields_of_traverseFrom ht.traversal_eq
    rw [List.reverse_nil, List.nil_append] at hlater
    rw [hlater]
    rwa [List.map_map] at hyields
  refine ⟨?_,fun events => ⟨fun h => h.unique hyields,fun h => h ▸ hyields⟩,
    fun id node => ht.visitEvents_eq,fun root x hroot e he => ?_,
    fun α f => ⟨ht.foldLeft_reduce f,fun id node => ht.value_eq f⟩,ht.listText_eq,
    ht.outlineText_eq⟩
  · rw [events, ht.traversal_eq]
  · exact (ht.heightLE (ht.rootInRange root hroot)).count_eventsFrom he

/-- A letter below three paths, under an alternative without a left operand and as an operand too
many of the root. -/
def letterThrice : Tree where
  nodes := #[{ kind := .literal 97 },.concatenation 0 0,{ kind := .alternation, right := some 1 },
    { kind := .regexp, left := some 2, right := some 0 }]
  root := some 3

theorem traversal_recursive_letterThrice :
    letterThrice.Closed ∧
      letterThrice.Yields [.enter 3] [.enter 3,.enter 2,.enter 1,.enter 0,.leave 0,.enter 0,.leave 0,
        .leave 1,.leave 2,.enter 0,.leave 0,.leave 3] ∧
      (letterThrice.pathsTo 0 (some 3)).encard = 3 ∧
      letterThrice.listText = .ok "(re (alt (cat 'a' 'a')) 'a')" := by
  have hdescending : letterThrice.Descending := .of_forall (by decide)
  have hclosed : letterThrice.Closed := hdescending.closed (by decide)
  obtain ⟨-,hyields,-,hcount,-,htext,-⟩ := traversal_recursive hclosed
  refine ⟨hclosed,(hyields _).mpr (by decide),?_,?_⟩
  · rw [← hcount 3 0 rfl (.leave 0) (Or.inr rfl)]
    rfl
  · rw [htext]
    decide +kernel

end Tree
end ByteAutomata
