import ByteAutomata.Proofs.Tree.Unrolling

/-! # Unrolled closed trees

A closed tree may lack operands or have too many of them. If it can be unrolled at all, the result
is closed again and has the basic repetitions only, because every node is made behind its children
and no repetition is copied as it is. -/
namespace ByteAutomata

/-- Any kind but a repetition other than `?`, `*` and `+`. -/
def NodeKind.isBasic : NodeKind → Bool
  | .repetition 0 (some 1) _ | .repetition 0 none _ | .repetition 1 none _ => true
  | .repetition _ _ _ => false
  | _ => true

/-- An error that a tree can be blamed for: no fault, and none that unrolling rules out. -/
def BuildFailure.IsOrdinary : BuildFailure → Prop
  | .fault _ | .rejected (.unexpandedRepetition _) | .rejected (.unlabeledVertex _) => False
  | .rejected _ => True

namespace Tree
variable {t u : Tree} {id child : NodeId} {node : Node} {r : NodeId × Tree}

/-- Children come before their parents, and all repetitions are basic. -/
structure Tidy (t : Tree) : Prop where
  descending : t.Descending
  basic : ∀ id node, t.get? id = some node → node.kind.isBasic = true

/-- A tree with all nodes of `t` and more behind them, and one of its nodes. -/
structure Appends (t : Tree) (r : NodeId × Tree) : Prop where
  tidy : r.2.Tidy
  size : t.size ≤ r.2.size
  inRange : r.1 < r.2.size

section Appending

theorem size_add (t : Tree) (node : Node) : (t.add node).2.size = t.size + 1 :=
  Array.size_push node

theorem Tidy.empty : Tree.empty.Tidy where
  descending := descending_empty
  basic id _ hnode := absurd (lt_size_of_get? hnode) (Nat.not_lt_zero id)

theorem Tidy.add (h : t.Tidy) (hc : ∀ c ∈ node.children, c < t.size)
    (hbasic : node.kind.isBasic = true) : t.Appends (t.add node) where
  tidy := by
    refine ⟨h.descending.add node hc,fun id node' hnode' => ?_⟩
    have hget : (t.nodes.push node)[id]? = some node' := hnode'
    rw [Array.getElem?_push] at hget
    split at hget
    · obtain rfl := Option.some.inj hget
      exact hbasic
    · exact h.basic id node' hget
  size := by
    rw [size_add]
    exact Nat.le_succ t.size
  inRange := by
    rw [size_add]
    exact Nat.lt_succ_self t.size

theorem Appends.trans {r' : NodeId × Tree} (h : t.Appends r) (h' : r.2.Appends r') :
    t.Appends r' :=
  ⟨h'.tidy,h.size.trans h'.size,h'.inRange⟩

theorem Appends.prepend (h : t.Appends r) (hc : child < t.size) : t.Appends (prepend child r) := by
  refine h.trans (h.tidy.add (fun c hmem => ?_) rfl)
  obtain rfl | rfl : c = child ∨ c = r.1 := by simpa using hmem
  · exact hc.trans_le h.size
  · exact h.inRange

theorem Appends.repetition {min : Nat} {max : Option Nat} {greedy : Bool} (h : t.Appends r)
    (hbasic : (NodeKind.repetition min max greedy).isBasic = true) :
    t.Appends (r.2.add (.repetition r.1 min max greedy)) := by
  refine h.trans (h.tidy.add (fun c hmem => ?_) hbasic)
  obtain rfl : c = r.1 := by simpa using hmem
  exact h.inRange

/-- A repetition stands for its operand, with copies of it in front and basic repetitions on top. -/
theorem addRepetition_induction {min : Nat} {max : Option Nat} {greedy : Bool}
    {motive : NodeId × Tree → Prop}
    (h : t.addRepetition id child min max greedy = .ok r) (hself : motive (child,t))
    (hprepend : ∀ r, motive r → motive (prepend child r))
    (hrepeat : ∀ r min max, (NodeKind.repetition min max greedy).isBasic = true → motive r →
      motive (r.2.add (.repetition r.1 min max greedy))) : motive r := by
  have hiterate : ∀ {f : NodeId × Tree → NodeId × Tree} {r} (count : Nat),
      (∀ r, motive r → motive (f r)) → motive r → motive (Nat.repeat f count r) := by
    intro f r count hf hr
    induction count with
    | zero => exact hr
    | succ count ih => exact hf _ ih
  have hoptional : ∀ r, motive r → motive (optional greedy r) := fun r hr =>
    hrepeat r 0 (some 1) rfl hr
  unfold addRepetition at h
  split at h
  · cases h
  · cases h
    exact hself
  · cases h
    exact hrepeat _ 0 (some 1) rfl hself
  · cases h
    exact hrepeat _ 0 none rfl hself
  · cases h
    exact hrepeat _ 1 none rfl hself
  · cases h
    exact hiterate _ hprepend (hrepeat _ 1 none rfl hself)
  · split at h
    · cases h
    · split at h
      · cases h
        exact hiterate _ hprepend hself
      · cases h
        refine hiterate _ hprepend (hiterate _ ?_ (hoptional _ hself))
        exact fun r hr => hoptional _ (hprepend r hr)

theorem addRepetition_error {min : Nat} {max : Option Nat} {greedy : Bool} {e : BuildError}
    (h : t.addRepetition id child min max greedy = .error e) : e = .emptyRepetition id := by
  unfold addRepetition at h
  split at h
  · cases h
    rfl
  · cases h
  · cases h
  · cases h
  · cases h
  · cases h
  · split at h
    · cases h
      rfl
    · split at h
      · cases h
      · cases h

/-- What a repetition stands for, if it stands for anything, is basic. -/
theorem Tidy.addRepetition (h : t.Tidy) (hc : child < t.size) (id min : Nat) (max : Option Nat)
    (greedy : Bool) :
    EndsBy (· = .emptyRepetition id) t.Appends (t.addRepetition id child min max greedy) := by
  cases hmade : t.addRepetition id child min max greedy with
  | error e => exact .error (addRepetition_error hmade)
  | ok r =>
    refine .ok (addRepetition_induction hmade ⟨h,le_rfl,hc⟩ ?_ ?_)
    · exact fun r hr => hr.prepend hc
    · exact fun r min max hbasic hr => hr.repetition hbasic

end Appending

namespace Unrolling
variable {s : Unrolling}

/-- The nodes made so far are tidy, and images are among them. -/
structure IsTidy (t : Tree) (s : Unrolling) : Prop where
  size : s.image.size = t.size
  result : s.result.Tidy
  image : ∀ id new, s.imageOf id = some new → new < s.result.size

theorem isTidy_empty (t : Tree) : IsTidy t ⟨Tree.empty,Array.replicate t.size none⟩ where
  size := Array.size_replicate
  result := .empty
  image id new hnew := by
    rw [imageOf_replicate] at hnew
    cases hnew

theorem IsTidy.record (h : s.IsTidy t) (hid : id < t.size) (hr : s.result.Appends r) :
    (s.record id r).IsTidy t where
  size := by
    rw [Unrolling.record, Array.size_setIfInBounds]
    exact h.size
  result := hr.tidy
  image id' new hnew := by
    rw [imageOf_record s id r (h.size ▸ hid)] at hnew
    split at hnew
    · obtain rfl := Option.some.inj hnew
      exact hr.inRange
    · exact (h.image id' new hnew).trans_le hr.size

/-- A node that is left gets an image, or ends the run as a repetition without a meaning. -/
theorem IsTidy.visit (h : s.IsTidy t) (hnode : t.get? id = some node) :
    EndsBy BuildFailure.IsOrdinary (IsTidy t) (s.visit t id) := by
  have hid : id < t.size := lt_size_of_get? hnode
  cases hseen : s.imageOf id with
  | some new =>
    rw [visit_seen (by rw [hseen]; rfl)]
    exact .ok h
  | none =>
    -- whatever children the node has, their images are made before
    have himage : ∀ c? : Option NodeId, ∀ c ∈ c?.bind s.imageOf, c < s.result.size := by
      intro c? c hc
      obtain ⟨old,-,hold⟩ := Option.bind_eq_some_iff.mp hc
      exact h.image old c hold
    obtain ⟨kind,left,right⟩ := node
    by_cases hkind : ∃ min max greedy, kind = .repetition min max greedy
    · obtain ⟨min,max,greedy,rfl⟩ := hkind
      cases hleft : left.bind s.imageOf with
      | none =>
        rw [visit_noOperand hnode hseen hleft]
        exact .error trivial
      | some child =>
        have hmade := h.result.addRepetition (himage left child hleft) id min max greedy
        rw [visit_repetition hnode hseen hleft]
        generalize s.result.addRepetition id child min max greedy = made at hmade
        cases hmade with
        | error he =>
          obtain rfl := he
          exact .error trivial
        | ok hr => exact .ok (h.record hid hr)
    · have hbasic : kind.isBasic = true := by
        cases kind with
        | repetition min max greedy => exact absurd ⟨min,max,greedy,rfl⟩ hkind
        | _ => rfl
      rw [visit_operator hnode hseen fun min max greedy heq => hkind ⟨min,max,greedy,heq⟩]
      refine .ok (h.record hid (h.result.add (fun c hc => ?_) hbasic))
      rcases List.mem_append.mp hc with hc | hc
      · exact himage left c (Option.mem_toList.mp hc)
      · exact himage right c (Option.mem_toList.mp hc)

end Unrolling

/-- A closed tree is unrolled to a closed one of basic nodes. -/
theorem Closed.unroll (h : t.Closed) :
    EndsBy BuildFailure.IsOrdinary
      (fun u => u.Closed ∧ ∀ id node, u.get? id = some node → node.kind.isBasic = true)
      t.unroll := by
  unfold Tree.unroll
  cases t.root with
  | none => exact .error trivial
  | some root =>
    have hrun : EndsBy BuildFailure.IsOrdinary (Unrolling.IsTidy t)
        (t.foldLeft .fault (Unrolling.visit t) ⟨Tree.empty,Array.replicate t.size none⟩) := by
      rw [h.foldLeft_eq]
      refine .foldlM (Unrolling.isTidy_empty t) fun s hs id hid => ?_
      obtain ⟨node,hnode⟩ := h.exists_node hid
      exact hs.visit hnode
    refine hrun.bind fun s hs => .ok ⟨?_,hs.result.basic⟩
    exact Descending.closed hs.result.descending fun new hnew => hs.image root new hnew

end Tree
end ByteAutomata
