import Mathlib.Algebra.BigOperators.Group.Finset.Basic
import ByteAutomata.Proofs.Tree.Images

/-! # The order of unrolled nodes

Nodes are made in the order in which a traversal of the unrolled tree leaves them for the first
time. A traversal of the source is cut into the visits of its nodes, and each of them appends what a
traversal from the image still has to leave. -/
namespace ByteAutomata

/-- In this list every number below `k` has been met before, and each other one is met for the
first time right after the one before it, until all numbers below `k'` have been met. -/
inductive Counts : Nat → List Nat → Nat → Prop where
  | nil {k : Nat} : Counts k [] k
  | old {k k' x : Nat} {xs : List Nat} (hx : x < k) (h : Counts k xs k') : Counts k (x :: xs) k'
  | new {k k' : Nat} {xs : List Nat} (h : Counts (k + 1) xs k') : Counts k (k :: xs) k'

namespace Counts
variable {k k' k'' : Nat} {xs ys : List Nat}

theorem append (h : Counts k xs k') (h' : Counts k' ys k'') : Counts k (xs ++ ys) k'' := by
  induction h with
  | nil => exact h'
  | old hx _ ih => exact .old hx (ih h')
  | new _ ih => exact .new (ih h')

theorem of_lt (h : ∀ x ∈ xs, x < k) : Counts k xs k := by
  induction xs with
  | nil => exact .nil
  | cons x xs ih =>
    obtain ⟨hx,hxs⟩ := List.forall_mem_cons.mp h
    exact .old hx (ih hxs)

theorem le (h : Counts k xs k') : k ≤ k' := by
  induction h with
  | nil => exact le_rfl
  | old _ _ ih => exact ih
  | new _ ih => exact Nat.le_of_succ_le ih

theorem next (k : Nat) : Counts k [k] (k + 1) := .new .nil

theorem eraseDups_range_append (h : Counts k xs k') :
    (List.range k ++ xs).eraseDups = List.range k' := by
  induction h with
  | @nil k =>
    rw [List.append_nil]
    induction k with
    | zero => rfl
    | succ k ih =>
      rw [List.range_succ, List.eraseDups_append, ih]
      simp [List.removeAll, List.eraseDups_cons]
  | @old k k' x xs hx _ ih =>
    rw [← ih, List.eraseDups_append, List.eraseDups_append, List.cons_removeAll]
    simp [hx]
  | @new k k' xs _ ih => rw [← ih, List.range_succ, List.append_assoc, List.singleton_append]

/-- Without repetitions, such a list is all the numbers in their order. -/
theorem eraseDups_eq (h : Counts 0 xs k) : xs.eraseDups = List.range k := h.eraseDups_range_append

end Counts

/-- How many nodes are made for a node of this kind. -/
def NodeKind.unrolledSize : NodeKind → Nat
  | .repetition n (some m) _ => if n = m then m - 1 else 2 * m - n - 1
  | .repetition n none _ => max n 1
  | _ => 1

namespace Tree
variable {t t' : Tree} {id child min : Nat} {max : Option Nat} {greedy : Bool} {node : Node}
variable {r : NodeId × Tree} {cs : List NodeId} {n : Nat}

section Order

/-- The nodes below `id` and `id` itself in postorder, where children come before parents. -/
def order (t : Tree) (id : NodeId) : List NodeId := t.postorder (id + 1) id

theorem HeightLE.postorder_mono (h : t.HeightLE n id) (hext : t.Extends t') :
    t'.postorder n id = t.postorder n id := by
  induction n generalizing id with
  | zero => exact h.elim
  | succ n ih =>
    obtain ⟨node,hnode,hc⟩ := h
    rw [postorder_succ hnode, postorder_succ (hext id node hnode)]
    congr 1
    exact List.flatMap_congr fun c hmem => ih (hc c hmem)

theorem Descending.order_eq (h : t.Descending) (hid : id < t.size) (hn : id + 1 ≤ n) :
    t.postorder n id = t.order id := (h.heightLE hid).postorder_eq hn

theorem Descending.order_mono (h : t.Descending) (hid : id < t.size) (hext : t.Extends t') :
    t'.order id = t.order id := (h.heightLE hid).postorder_mono hext

theorem Descending.lt_of_mem_order {x : NodeId} (h : t.Descending) (hid : id < t.size)
    (hx : x ∈ t.order id) : x < t.size := by
  have hbelow := (mem_postorder (h.heightLE hid)).mp hx
  rcases Relation.reflTransGen_iff_eq_or_transGen.mp hbelow with rfl | hbelow
  · exact hid
  · exact (h.lt hbelow).trans hid

/-- A traversal leaves what is below the children, and at last the new node. -/
theorem Descending.order_add (h : t.Descending) (hc : ∀ c ∈ node.children, c < t.size) :
    (t.add node).2.order t.size = node.children.flatMap t.order ++ [t.size] := by
  have hget : (t.add node).2.get? t.size = some node := get?_add node
  rw [order, postorder_succ hget]
  congr 1
  refine List.flatMap_congr fun c hmem => ?_
  have hlt := hc c hmem
  have hsize : t.size ≤ (t.add node).2.size := (size_add t node).symm ▸ Nat.le_succ t.size
  rw [(h.add node hc).order_eq (hlt.trans_le hsize) hlt, h.order_mono hlt (extends_add node)]

end Order

section Adding

/-- A traversal from the new node leaves what it still has to leave below the nodes `cs` of `t`,
and then the nodes that are not in `t`, all in the order of their indices. -/
def Continues (t : Tree) (cs : List NodeId) (r : NodeId × Tree) : Prop :=
  ∀ k, Counts k (cs.flatMap t.order) t.size → Counts k (r.2.order r.1) r.2.size

theorem continues_add (h : t.Descending) (hc : ∀ c ∈ node.children, c < t.size) :
    t.Continues node.children (t.add node) := by
  intro k hk
  change Counts k ((t.add node).2.order t.size) _
  rw [h.order_add hc, size_add]
  exact hk.append (.next t.size)

theorem continues_addRepetition (h : t.Tidy) (hc : child < t.size)
    (hr : t.addRepetition id child min max greedy = .ok r) : t.Continues [child] r := by
  -- all nodes of `t` have been left when the copies of the operand are
  have hleft : ∀ {t'}, t.Extends t' → Counts t.size (t'.order child) t.size := by
    intro t' hext
    rw [h.descending.order_mono hc hext]
    exact .of_lt fun x hx => h.descending.lt_of_mem_order hc hx
  refine (addRepetition_induction (motive := fun r => t.Appends r ∧ t.Extends r.2 ∧
    t.Continues [child] r) hr ?_ ?_ ?_).2.2
  · refine ⟨⟨h,le_rfl,hc⟩,.refl t,fun k hk => ?_⟩
    rwa [List.flatMap_singleton] at hk
  · intro r ⟨happends,hext,hcontinues⟩
    have hlt : ∀ c ∈ (Node.concatenation child r.1).children, c < r.2.size := by
      intro c hmem
      obtain rfl | rfl : c = child ∨ c = r.1 := by simpa using hmem
      · exact hc.trans_le happends.size
      · exact happends.inRange
    refine ⟨happends.prepend hc,hext.trans (extends_add _),fun k hk => ?_⟩
    rw [List.flatMap_singleton] at hk
    refine continues_add happends.tidy.descending hlt k ?_
    have hrest : Counts t.size (r.2.order r.1) r.2.size := by
      apply hcontinues
      rw [List.flatMap_singleton]
      exact hleft (.refl t)
    rw [Node.children_concatenation, List.flatMap_cons, List.flatMap_singleton,
      h.descending.order_mono hc hext]
    exact hk.append hrest
  · intro r min max hbasic ⟨happends,hext,hcontinues⟩
    have hlt : ∀ c ∈ (Node.repetition r.1 min max greedy).children, c < r.2.size := by
      intro c hmem
      obtain rfl : c = r.1 := by simpa using hmem
      exact happends.inRange
    refine ⟨happends.repetition hbasic,hext.trans (extends_add _),fun k hk => ?_⟩
    refine continues_add happends.tidy.descending hlt k ?_
    rw [Node.children_repetition, List.flatMap_singleton]
    exact hcontinues k hk

end Adding

section Sizes

def unrolledSize (t : Tree) (id : NodeId) : Nat :=
  match t.get? id with
  | some node => node.kind.unrolledSize
  | none => 0

theorem size_repeat {f : NodeId × Tree → NodeId × Tree} {added : Nat}
    (hf : ∀ r, (f r).2.size = r.2.size + added) (count : Nat) (r : NodeId × Tree) :
    (Nat.repeat f count r).2.size = r.2.size + count * added := by
  induction count with
  | zero => simp [Nat.repeat]
  | succ count ih =>
    rw [Nat.repeat, hf, ih, Nat.succ_mul]
    omega

theorem size_prepends (child count : Nat) (r : NodeId × Tree) :
    (Nat.repeat (prepend child) count r).2.size = r.2.size + count := by
  have hone : ∀ r, (prepend child r).2.size = r.2.size + 1 := fun r => size_add r.2 _
  rw [size_repeat hone, Nat.mul_one]

theorem size_optionals (t : Tree) (child count : Nat) (greedy : Bool) :
    (t.optionals child greedy count).2.size = t.size + 1 + count * 2 := by
  have htwo : ∀ r, (optional greedy (prepend child r)).2.size = r.2.size + 2 := fun r =>
    (size_add _ _).trans (congrArg Nat.succ (size_add r.2 _))
  rw [optionals, size_repeat htwo]
  exact congrArg (· + count * 2) (size_add t _)

theorem size_addRepetition (hr : t.addRepetition id child min max greedy = .ok r) :
    r.2.size = t.size + (NodeKind.repetition min max greedy).unrolledSize := by
  unfold addRepetition at hr
  unfold NodeKind.unrolledSize
  split at hr
  · cases hr
  · cases hr
    simp
  · cases hr
    exact size_add t _
  · cases hr
    exact size_add t _
  · cases hr
    exact size_add t _
  · rename_i hzero hone
    cases hr
    rw [size_prepends, size_add]
    have hzero : min ≠ 0 := hzero
    simp only
    omega
  · rename_i m hne hzero hone
    split at hr
    · cases hr
    · split at hr
      · cases hr
        rename_i heq
        simp [size_prepends, heq]
      · cases hr
        rw [size_prepends, size_optionals]
        simp only
        split
        · omega
        · omega

end Sizes

namespace Unrolling
variable {u u' w : Unrolling} {new : NodeId}

/-- The nodes of the source that have an image. -/
def seen (t : Tree) (u : Unrolling) : Finset NodeId :=
  (Finset.range t.size).filter fun id => (u.imageOf id).isSome

theorem mem_seen (h : u.image.size = t.size) : id ∈ u.seen t ↔ (u.imageOf id).isSome := by
  unfold seen
  rw [Finset.mem_filter, Finset.mem_range, and_iff_right_iff_imp]
  intro hsome
  by_contra hlt
  have hnone : u.image[id]? = none := Array.getElem?_eq_none (by omega)
  simp [imageOf, hnone] at hsome

/-- The state when some nodes of the source have been left. -/
structure Numbered (t : Tree) (u : Unrolling) : Prop where
  tidy : u.IsTidy t
  reachable : ∀ id new, u.imageOf id = some new → t.Reachable id
  below : ∀ id c, (u.imageOf id).isSome → t.Child id c → (u.imageOf c).isSome
  count : u.result.size = ∑ id ∈ u.seen t, t.unrolledSize id

/-- Between the states `u` and `u'` the nodes `cs` get their images, which continue the order of the
nodes. -/
structure Advances (t : Tree) (cs : List NodeId) (u u' : Unrolling) : Prop where
  numbered : u'.Numbered t
  keeps : u.Keeps u'
  grows : u.result.Extends u'.result
  images : ∀ c ∈ cs, (u'.imageOf c).isSome
  counts : Counts u.result.size ((cs.filterMap u'.imageOf).flatMap u'.result.order) u'.result.size

theorem Numbered.lt_size (h : u.Numbered t) (hnew : u.imageOf id = some new) :
    new < u.result.size := h.tidy.image id new hnew

theorem Numbered.descending (h : u.Numbered t) : u.result.Descending := h.tidy.result.descending

/-- What is below an image is left by then. -/
theorem Numbered.counts_image (h : u.Numbered t) (hnew : u.imageOf id = some new)
    (hext : u.result.Extends t') : Counts u.result.size (t'.order new) u.result.size := by
  have hlt := h.lt_size hnew
  rw [h.descending.order_mono hlt hext]
  exact .of_lt fun x hx => h.descending.lt_of_mem_order hlt hx

theorem Advances.nil (h : u.Numbered t) : u.Advances t [] u :=
  ⟨h,fun _ _ hnew => hnew,.refl _,by simp,.nil⟩

theorem Advances.cons {c : NodeId} (h : u.Advances t [c] w) (h' : w.Advances t cs u') :
    u.Advances t (c :: cs) u' := by
  obtain ⟨new,hnew⟩ := Option.isSome_iff_exists.mp (h.images c List.mem_cons_self)
  have hnew' := h'.keeps c new hnew
  refine ⟨h'.numbered,h.keeps.trans h'.keeps,h.grows.trans h'.grows,?_,?_⟩
  · refine List.forall_mem_cons.mpr ⟨?_,h'.images⟩
    rw [hnew']
    rfl
  · have hfirst := h.counts
    have hsame := h.numbered.descending.order_mono (h.numbered.lt_size hnew) h'.grows
    rw [List.filterMap_cons_some hnew, List.filterMap_nil, List.flatMap_singleton] at hfirst
    rw [List.filterMap_cons_some hnew', List.flatMap_cons, hsame]
    exact hfirst.append h'.counts

section Visits

/-- A node that has no image yet gets one behind all nodes so far. -/
theorem IsTidy.visit_fresh (h : u.IsTidy t) (hnode : t.get? id = some node)
    (hnew : u.imageOf id = none) (hright : node.IsRepetition → node.right = none)
    (hrun : u.visit t id = .ok u') :
    ∃ r, u' = u.record id r ∧ u.result.Extends r.2 ∧
      u.result.Continues (node.children.filterMap u.imageOf) r ∧
      r.2.size = u.result.size + t.unrolledSize id := by
  have hsize : t.unrolledSize id = node.kind.unrolledSize := by
    rw [unrolledSize, hnode]
  rw [hsize]
  cases visited_of_visit hrun with
  | again hseen =>
    rw [hnew] at hseen
    cases hseen
  | @repetition min max greedy c c' right r hnode' _ hc hmade =>
    obtain rfl := Option.some.inj (hnode.symm.trans hnode')
    obtain rfl : right = none := hright ⟨min,max,greedy,rfl⟩
    have hchildren : (Node.children ⟨.repetition min max greedy,some c,none⟩).filterMap
        u.imageOf = [c'] := List.filterMap_cons_some hc
    refine ⟨r,rfl,(wraps_addRepetition hmade).keeps,?_,size_addRepetition hmade⟩
    rw [hchildren]
    exact continues_addRepetition h.result (h.image c c' hc) hmade
  | @operator node' hnode' _ hkind =>
    obtain rfl : node = node' := Option.some.inj (hnode.symm.trans hnode')
    obtain ⟨kind,left,right⟩ := node
    have hone : kind.unrolledSize = 1 := by
      cases kind with
      | repetition min max greedy => exact absurd ⟨min,max,greedy,rfl⟩ hkind
      | _ => rfl
    have hmap : ∀ x : Option NodeId, (x.bind u.imageOf).toList = x.toList.filterMap u.imageOf := by
      intro x
      cases x with
      | none => rfl
      | some c => cases hc : u.imageOf c <;> simp [hc]
    have hchildren : (Node.children ⟨kind,left,right⟩).filterMap u.imageOf =
        Node.children ⟨kind,left.bind u.imageOf,right.bind u.imageOf⟩ := by
      rw [Node.children, Node.children, List.filterMap_append, hmap, hmap]
    refine ⟨_,rfl,extends_add _,?_,hone ▸ size_add u.result _⟩
    rw [hchildren]
    refine continues_add h.result.descending fun c' hc' => ?_
    rw [← hchildren] at hc'
    obtain ⟨c,-,hc⟩ := List.mem_filterMap.mp hc'
    exact h.image c c' hc

/-- A visit touches no image but that of its own node. -/
theorem imageOf_visit (hne : child ≠ id) (hrun : u.visit t id = .ok u') :
    u'.imageOf child = u.imageOf child := by
  have hrecord : ∀ p, (u.record id p).imageOf child = u.imageOf child := fun p =>
    congrArg Option.join (Array.getElem?_setIfInBounds_ne (Ne.symm hne))
  cases visited_of_visit hrun with
  | again => rfl
  | repetition => exact hrecord _
  | operator => exact hrecord _

theorem imageOf_run (hid : id ∉ cs) (hrun : cs.foldlM (Unrolling.visit t) u = .ok u') :
    u'.imageOf id = u.imageOf id := by
  induction cs generalizing u with
  | nil =>
    obtain rfl := Except.ok.inj hrun
    rfl
  | cons c cs ih =>
    obtain ⟨hne,hid⟩ := List.ne_and_not_mem_of_not_mem_cons hid
    rw [List.foldlM_cons] at hrun
    obtain ⟨w,hw,hrest⟩ := bind_eq_ok.mp hrun
    rw [ih hid hrest, imageOf_visit hne hw]

/-- Nodes that have images are passed over. -/
theorem run_seen (hseen : ∀ c ∈ cs, (u.imageOf c).isSome) :
    cs.foldlM (Unrolling.visit t) u = .ok u := by
  induction cs with
  | nil => rfl
  | cons c cs ih =>
    obtain ⟨hc,hcs⟩ := List.forall_mem_cons.mp hseen
    rw [List.foldlM_cons, visit_seen hc, ok_bind, ih hcs]

/-- All that is below a node with an image has one. -/
theorem Numbered.isSome_below (h : u.Numbered t) (hid : (u.imageOf id).isSome)
    (hbelow : Relation.ReflTransGen t.Child id child) : (u.imageOf child).isSome := by
  induction hbelow with
  | refl => exact hid
  | tail _ hchild ih => exact h.below _ _ ih hchild

theorem Numbered.record (h : u.Numbered t) (hnode : id < t.size) (hreach : t.Reachable id)
    (hnew : u.imageOf id = none) (hc : ∀ c, t.Child id c → (u.imageOf c).isSome)
    (htidy : (u.record id r).IsTidy t) (hsize : r.2.size = u.result.size + t.unrolledSize id) :
    (u.record id r).Numbered t := by
  have himage := imageOf_record u id r (h.tidy.size ▸ hnode)
  have hkeeps : u.Keeps (u.record id r) := keeps_record hnew (h.tidy.size ▸ hnode) r
  have hsome : ∀ c, (u.imageOf c).isSome → ((u.record id r).imageOf c).isSome := by
    intro c hc
    obtain ⟨new,hnew⟩ := Option.isSome_iff_exists.mp hc
    rw [hkeeps c new hnew]
    rfl
  refine ⟨htidy,fun id' new hid' => ?_,fun id' c hid' hchild => ?_,?_⟩
  · rw [himage] at hid'
    split at hid'
    · rename_i heq
      exact heq ▸ hreach
    · exact h.reachable id' new hid'
  · rw [himage] at hid'
    split at hid'
    · rename_i heq
      exact hsome c (hc c (heq ▸ hchild))
    · exact hsome c (h.below id' c hid' hchild)
  · have hfresh : id ∉ u.seen t := by
      rw [mem_seen h.tidy.size, hnew]
      exact Bool.false_ne_true
    have hseen : (u.record id r).seen t = insert id (u.seen t) := by
      ext id'
      rw [mem_seen htidy.size, Finset.mem_insert, mem_seen h.tidy.size, himage]
      by_cases heq : id' = id
      · simp [heq]
      · simp [heq]
    rw [hseen, Finset.sum_insert hfresh, ← h.count, add_comm]
    exact hsize

/-- The visit to a node after those to its children. -/
theorem Advances.leave (h : u.Advances t node.children w) (hnode : t.get? id = some node)
    (hreach : t.Reachable id) (hnew : w.imageOf id = none)
    (hright : node.IsRepetition → node.right = none) (hrun : w.visit t id = .ok u') :
    u.Advances t [id] u' := by
  have hid : id < t.size := lt_size_of_get? hnode
  have htidy := h.numbered.tidy.visit hnode
  rw [hrun] at htidy
  obtain ⟨r,rfl,hext,hcontinues,hsize⟩ := h.numbered.tidy.visit_fresh hnode hnew hright hrun
  have hself : (w.record id r).imageOf id = some r.1 :=
    (imageOf_record w id r (h.numbered.tidy.size ▸ hid) id).trans (if_pos rfl)
  refine ⟨h.numbered.record hid hreach hnew ?_ htidy.of_ok hsize,
    h.keeps.trans (keeps_record hnew (h.numbered.tidy.size ▸ hid) r),h.grows.trans hext,?_,?_⟩
  · exact fun c hchild => h.images c ((child_iff hnode).mp hchild)
  · intro c hc
    rw [List.mem_singleton.mp hc, hself]
    rfl
  · rw [List.filterMap_cons_some hself, List.filterMap_nil, List.flatMap_singleton]
    exact hcontinues _ h.counts

/-- A run over what is below the nodes `cs` gives all of them images, in the order in which a
traversal of the images leaves them. -/
theorem Numbered.visitsAll (h : u.Numbered t) (hh : ∀ c ∈ cs, t.HeightLE n c)
    (hacyclic : ∀ id, ¬ Relation.TransGen t.Child id id) (hreach : ∀ c ∈ cs, t.Reachable c)
    (hright : ∀ id node, t.Reachable id → t.get? id = some node → node.IsRepetition →
      node.right = none)
    (hrun : (cs.flatMap (t.postorder n)).foldlM (Unrolling.visit t) u = .ok u') :
    u.Advances t cs u' := by
  refine postorder_induction (motive := fun u cs _ u' => u.Numbered t →
    (∀ c ∈ cs, t.Reachable c) → u.Advances t cs u') hh hrun ?_ ?_ ?_ h hreach
  · exact fun u h _ => .nil h
  · intro u w u' c cs _ _ hfirst hrest h hreach
    obtain ⟨hc,hreach⟩ := List.forall_mem_cons.mp hreach
    have hw := hfirst h (List.forall_mem_singleton.mpr hc)
    exact hw.cons (hrest hw.numbered hreach)
  · intro n u w u' c node hnode hheight hbelow hchildren hvisit h hreach
    have hc := List.forall_mem_singleton.mp hreach
    cases hseen : u.imageOf c with
    | some new =>
      -- then all that is below has been left before
      have hsome : (u.imageOf c).isSome := by rw [hseen]; rfl
      have hall : ∀ x ∈ node.children.flatMap (t.postorder n), (u.imageOf x).isSome := fun x hx =>
        h.isSome_below hsome ((mem_flatMap_postorder hnode hheight).mp hx).to_reflTransGen
      rw [run_seen hall] at hbelow
      obtain rfl := Except.ok.inj hbelow
      rw [visit_seen hsome] at hvisit
      obtain rfl := Except.ok.inj hvisit
      refine ⟨h,fun _ _ hnew => hnew,.refl _,List.forall_mem_singleton.mpr hsome,?_⟩
      rw [List.filterMap_cons_some hseen, List.filterMap_nil, List.flatMap_singleton]
      exact h.counts_image hseen (.refl _)
    | none =>
      have hadvances := hchildren h fun d hd => hc.tail ⟨node,hnode,hd⟩
      refine hadvances.leave hnode hc ?_ (hright c node hc hnode) hvisit
      -- no way from the children leads back to the node
      rw [imageOf_run (fun hback => ?_) hbelow, hseen]
      exact hacyclic c ((mem_flatMap_postorder hnode hheight).mp hback)

end Visits

end Unrolling

end Tree
end ByteAutomata
