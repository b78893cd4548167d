import ByteAutomata.Proofs.Tree.Meaning
import ByteAutomata.Proofs.Tree.Numbering

/-! # The normal form of a tree

An unrolled tree is numbered by its own traversal and has the basic repetitions only. Unrolling such
a tree once more makes the same nodes at the same places. -/
namespace ByteAutomata

namespace Tree
variable {t u : Tree} {id new : NodeId} {node : Node} {r : NodeId × Tree} {k k' : Nat}

/-- The visit to the node `id` of the source is the one that adds the node `new`. -/
def AddsAt (t : Tree) (id new : NodeId) : Prop :=
  ∃ earlier later u u', t.leaveOrder = earlier ++ id :: later ∧
    earlier.foldlM (Unrolling.visit t) ⟨empty,Array.replicate t.size none⟩ = .ok u ∧
    u.visit t id = .ok u' ∧ u.result.size ≤ new ∧ new < u'.result.size

/-- Every node of `u` is added at a node of the source, and a repetition at one that is as greedy. -/
structure Sources (t u : Tree) : Prop where
  added : ∀ new < u.size, ∃ id, t.AddsAt id new
  reachable : ∀ id new, t.AddsAt id new → t.Reachable id
  greedy : ∀ id new node min max greedy, t.AddsAt id new → u.get? new = some node →
    node.kind = .repetition min max greedy → ∃ source min' max', t.get? id = some source ∧
      source.kind = .repetition min' max' greedy

section Provenance
variable {w w' : Unrolling}

/-- A repetition among the nodes that stand for one is as greedy as it is. -/
theorem greedy_of_addRepetition {child min min' : Nat} {max max' : Option Nat}
    {greedy greedy' : Bool} (hr : t.addRepetition id child min max greedy = .ok r)
    (hnode : r.2.get? new = some node) (hkind : node.kind = .repetition min' max' greedy') :
    t.get? new = some node ∨ greedy = greedy' := by
  refine addRepetition_induction (motive := fun r => r.2.get? new = some node →
    t.get? new = some node ∨ greedy = greedy') hr Or.inl (fun r ih hget => ?_)
    (fun r min max _ ih hget => ?_) hnode
  · rcases get?_add_cases hget with hold | ⟨-,rfl⟩
    · exact ih hold
    · cases hkind
  · rcases get?_add_cases hget with hold | ⟨-,rfl⟩
    · exact ih hold
    · cases hkind
      exact Or.inr rfl

theorem Unrolling.extends_visit (hrun : w.visit t id = .ok w') : w.result.Extends w'.result := by
  cases visited_of_visit hrun with
  | again => exact .refl _
  | repetition _ _ _ hmade => exact (wraps_addRepetition hmade).keeps
  | operator => exact extends_add _

theorem Unrolling.extends_run {ids : List NodeId} (hrun : ids.foldlM (visit t) w = .ok w') :
    w.result.Extends w'.result := by
  induction ids generalizing w with
  | nil =>
    obtain rfl := Except.ok.inj hrun
    exact .refl _
  | cons id ids ih =>
    rw [List.foldlM_cons] at hrun
    obtain ⟨_,hvisit,hrest⟩ := bind_eq_ok.mp hrun
    exact (extends_visit hvisit).trans (ih hrest)

/-- A repetition comes from one of the source, which is as greedy as it is. -/
theorem Unrolling.greedy_of_visit {min : Nat} {max : Option Nat} {greedy : Bool}
    (hrun : w.visit t id = .ok w') (hnode : w'.result.get? new = some node)
    (hkind : node.kind = .repetition min max greedy) :
    w.result.get? new = some node ∨ ∃ source min' max', t.get? id = some source ∧
      source.kind = .repetition min' max' greedy := by
  cases visited_of_visit hrun with
  | again => exact Or.inl hnode
  | @repetition min' max' greedy' c c' right r hsource _ _ hmade =>
    rcases greedy_of_addRepetition hmade hnode hkind with hold | rfl
    · exact Or.inl hold
    · exact Or.inr ⟨_,min',max',hsource,rfl⟩
  | operator hsource _ hother =>
    rcases get?_add_cases hnode with hold | ⟨-,rfl⟩
    · exact Or.inl hold
    · exact absurd ⟨min,max,greedy,hkind⟩ hother

theorem AddsAt.greedy {min : Nat} {max : Option Nat} {greedy : Bool} (h : t.AddsAt id new)
    (hrun : t.leaveOrder.foldlM (Unrolling.visit t) ⟨empty,Array.replicate t.size none⟩ = .ok w)
    (hnode : w.result.get? new = some node) (hkind : node.kind = .repetition min max greedy) :
    ∃ source min' max', t.get? id = some source ∧ source.kind = .repetition min' max' greedy := by
  obtain ⟨earlier,later,u,u',horder,hearlier,hvisit,hlow,hhigh⟩ := h
  rw [horder, foldlM_append_ok hearlier, List.foldlM_cons, hvisit] at hrun
  -- the node is there from this visit on
  obtain ⟨node',hnode'⟩ := get?_eq_some hhigh
  obtain rfl : node = node' :=
    Option.some.inj (hnode.symm.trans (Unrolling.extends_run hrun new node' hnode'))
  refine (Unrolling.greedy_of_visit hvisit hnode' hkind).resolve_left fun hold => ?_
  exact absurd (lt_size_of_get? hold) (Nat.not_lt.mpr hlow)

end Provenance

section Again

/-- The first `k` nodes of `u`, each of which is its own image. -/
def copied (u : Tree) (k : Nat) : Unrolling :=
  ⟨⟨u.nodes.extract 0 k,none⟩,
    Array.ofFn fun i : Fin u.size => if i.val < k then some i.val else none⟩

theorem imageOf_copied (hid : id < u.size) :
    (u.copied k).imageOf id = if id < k then some id else none := by
  rw [Unrolling.imageOf, copied, Array.getElem?_ofFn, dif_pos hid]
  rfl

theorem copied_zero (u : Tree) : u.copied 0 = ⟨empty,Array.replicate u.size none⟩ := by
  refine congrArg₂ Unrolling.mk ?_ ?_
  · exact congrArg (Tree.mk · none) (Array.extract_zero)
  · apply Array.ext
    · simp
    · intro i hi hi'
      simp

theorem copied_succ (hnode : u.get? k = some node) :
    (u.copied k).record k ((u.copied k).result.add node) = u.copied (k + 1) := by
  obtain ⟨hk,rfl⟩ := Array.getElem?_eq_some_iff.mp hnode
  have hsize : (u.copied k).result.size = k := by simp [copied, size]; omega
  refine congrArg₂ Unrolling.mk ?_ ?_
  · exact congrArg (Tree.mk · none) (Array.push_extract_getElem hk)
  · change (u.copied k).image.setIfInBounds k (some (u.copied k).result.size) = _
    rw [hsize]
    apply Array.ext
    · simp [copied]
    · intro i hi hi'
      rw [Array.getElem_setIfInBounds (by simpa using hi)]
      by_cases heq : k = i
      · simp [heq]
      · have hlt : i < k ↔ i < k + 1 := by omega
        simp [copied, heq, hlt]

/-- Basic repetitions are copied as they are. -/
theorem addRepetition_of_isBasic {child min : Nat} {max : Option Nat} {greedy : Bool}
    (h : (NodeKind.repetition min max greedy).isBasic = true) :
    t.addRepetition id child min max greedy = .ok (t.add (.repetition child min max greedy)) := by
  unfold NodeKind.isBasic at h
  split at h
  · rename_i heq
    cases heq
    rfl
  · rename_i heq
    cases heq
    rfl
  · rename_i heq
    cases heq
    rfl
  · cases h
  · rename_i hother
    exact absurd rfl (hother min max greedy)

theorem visit_copied (hdesc : u.Descending) (hnode : u.get? k = some node)
    (hbasic : node.kind.isBasic = true)
    (hop : node.IsRepetition → node.left.isSome ∧ node.right = none) :
    (u.copied k).visit u k = .ok (u.copied (k + 1)) := by
  have hk := lt_size_of_get? hnode
  have hnew : (u.copied k).imageOf k = none := by
    rw [imageOf_copied hk, if_neg (Nat.lt_irrefl k)]
  -- the children come before, and are their own images
  have hsame : ∀ c ∈ node.children, (u.copied k).imageOf c = some c := by
    intro c hc
    have hlt := hdesc k c ⟨node,hnode,hc⟩
    rw [imageOf_copied (hlt.trans hk), if_pos hlt]
  obtain ⟨kind,left,right⟩ := node
  by_cases hkind : ∃ min max greedy, kind = .repetition min max greedy
  · obtain ⟨min,max,greedy,rfl⟩ := hkind
    obtain ⟨hleft,rfl⟩ := hop ⟨min,max,greedy,rfl⟩
    obtain ⟨c,rfl⟩ := Option.isSome_iff_exists.mp hleft
    rw [Unrolling.visit_repetition hnode hnew (hsame c (by simp [Node.children])),
      addRepetition_of_isBasic hbasic]
    exact congrArg Except.ok (copied_succ hnode)
  · have hbind : ∀ x : Option NodeId, (∀ c ∈ x, (u.copied k).imageOf c = some c) →
        x.bind (u.copied k).imageOf = x := by
      intro x hx
      cases x with
      | none => rfl
      | some c => exact hx c rfl
    have hleft := hbind left fun c hc =>
      hsame c (List.mem_append_left _ (Option.mem_toList.mpr hc))
    have hright := hbind right fun c hc =>
      hsame c (List.mem_append_right _ (Option.mem_toList.mpr hc))
    rw [Unrolling.visit_operator hnode hnew fun min max greedy heq => hkind ⟨min,max,greedy,heq⟩,
      hleft, hright, copied_succ hnode]

/-- A run makes the nodes of a tree again if it meets them in their order. -/
theorem run_copied {ids : List NodeId} (hdesc : u.Descending)
    (hbasic : ∀ id node, u.get? id = some node → node.kind.isBasic = true)
    (hop : ∀ id node, u.get? id = some node → node.IsRepetition →
      node.left.isSome ∧ node.right = none)
    (hids : Counts k ids k') (hk' : k' ≤ u.size) :
    ids.foldlM (Unrolling.visit u) (u.copied k) = .ok (u.copied k') := by
  induction hids with
  | nil => rfl
  | @old k k' id ids hid hids ih =>
    have hlt : id < u.size := hid.trans_le (hids.le.trans hk')
    have hseen : ((u.copied k).imageOf id).isSome := by
      rw [imageOf_copied hlt, if_pos hid]
      rfl
    rw [List.foldlM_cons, Unrolling.visit_seen hseen, ok_bind, ih hk']
  | @new k k' ids hids ih =>
    obtain ⟨node,hnode⟩ := get?_eq_some (hids.le.trans hk')
    rw [List.foldlM_cons, visit_copied hdesc hnode (hbasic k node hnode) (hop k node hnode),
      ok_bind, ih hk']

end Again

/-- The nodes are all reached, numbered in the order in which a traversal leaves them for the first
time, and no repetition among them can be unrolled any further. -/
structure IsNormal (u : Tree) : Prop where
  basic : ∀ id node, u.get? id = some node → node.kind.isBasic = true
  descending : u.Descending
  reachable : ∀ id < u.size, u.Reachable id
  order : u.leaveOrder.eraseDups = List.range u.size

section Unrolled
variable {w : Unrolling} {root : NodeId}

theorem WellFormed.operands_repetition (h : t.WellFormed) (hid : t.Reachable id)
    (hnode : t.get? id = some node) (hrep : node.IsRepetition) :
    node.left.isSome ∧ node.right = none := by
  obtain ⟨kind,left,right⟩ := node
  obtain ⟨min,max,greedy,rfl⟩ := hrep
  obtain ⟨root,hroot,hbelow⟩ := hid
  rcases Relation.reflTransGen_iff_eq_or_transGen.mp hbelow with rfl | hbelow
  · obtain ⟨root,child,hroot',htop⟩ := h.rooted
    obtain rfl := Option.some.inj (hroot.symm.trans hroot')
    cases Option.some.inj (hnode.symm.trans htop)
  · exact h.operands root id _ hroot hbelow hnode

theorem WellFormed.unroll (h : t.WellFormed) (hu : t.unroll = .ok u) : u.WellFormed := by
  obtain ⟨root,child,e,hrep⟩ := h.exists_represents
  cases he : e.unroll with
  | none =>
    obtain ⟨node,-,herror⟩ := hrep.unroll_error he
    cases hu.symm.trans herror
  | some e' =>
    obtain ⟨u',root',child',hu',hrep'⟩ := hrep.unroll_ok he
    obtain rfl := Except.ok.inj (hu.symm.trans hu')
    have hunrolled := h.closed.unroll
    rw [hu] at hunrolled
    exact .of_reads hunrolled.of_ok.1 hrep'.atRoot hrep'.top hrep'.reads

theorem Unrolling.numbered_empty (t : Tree) :
    Numbered t ⟨empty,Array.replicate t.size none⟩ := by
  have hnone := imageOf_replicate empty t.size
  refine ⟨isTidy_empty t,fun id new hid => ?_,fun id c hid => ?_,?_⟩
  · cases (hnone id).symm.trans hid
  · rw [hnone] at hid
    cases hid
  · have hseen : seen t ⟨empty,Array.replicate t.size none⟩ = ∅ := by
      apply Finset.filter_false_of_mem
      intro id _
      rw [hnone]
      exact Bool.false_ne_true
    rw [hseen]
    rfl

theorem WellFormed.advances (h : t.WellFormed) (hu : t.unroll = .ok u) :
    ∃ root w, t.root = some root ∧
      t.leaveOrder.foldlM (Unrolling.visit t) ⟨empty,Array.replicate t.size none⟩ = .ok w ∧
      u = { w.result with root := w.imageOf root } ∧
      Unrolling.Advances t [root] ⟨empty,Array.replicate t.size none⟩ w := by
  obtain ⟨root,child,e,hrep⟩ := h.exists_represents
  rw [hrep.unroll_eq] at hu
  cases hrun : t.leaveOrder.foldlM (Unrolling.visit t)
      ⟨empty,Array.replicate t.size none⟩ with
  | error e =>
    rw [hrun] at hu
    cases hu
  | ok w =>
    rw [hrun] at hu
    refine ⟨root,w,hrep.atRoot,rfl,(Except.ok.inj hu).symm,?_⟩
    have horder : t.leaveOrder = [root].flatMap (t.postorder t.size) := by
      rw [leaveOrder_eq hrep.atRoot hrep.height, List.flatMap_singleton]
    rw [horder] at hrun
    refine (Unrolling.numbered_empty t).visitsAll (List.forall_mem_singleton.mpr hrep.height)
      h.acyclic (List.forall_mem_singleton.mpr ⟨root,hrep.atRoot,.refl⟩) ?_ hrun
    exact fun id node hid hnode hkind => (h.operands_repetition hid hnode hkind).2

/-- A traversal of the unrolled tree meets its nodes in their order. -/
theorem Unrolling.Advances.counts_leaveOrder
    (h : Advances t [root] ⟨empty,Array.replicate t.size none⟩ w)
    (hu : u = { w.result with root := w.imageOf root }) : Counts 0 u.leaveOrder u.size := by
  subst hu
  set u : Tree := { w.result with root := w.imageOf root }
  obtain ⟨top,htop⟩ := Option.isSome_iff_exists.mp (h.images root List.mem_cons_self)
  have hlt : top < u.size := h.numbered.lt_size htop
  have hdesc : u.Descending := h.numbered.descending
  have hsame : w.result.Extends u := fun _ _ hnode => hnode
  have hcounts := h.counts
  rw [List.filterMap_cons_some htop, List.filterMap_nil, List.flatMap_singleton,
    ← h.numbered.descending.order_mono hlt hsame] at hcounts
  rw [leaveOrder_eq htop ((hdesc.heightLE hlt).mono hlt), hdesc.order_eq hlt hlt]
  exact hcounts

/-- A normal tree is unrolled to itself. -/
theorem WellFormed.unroll_eq_self (h : u.WellFormed) (hnormal : u.IsNormal)
    (hcounts : Counts 0 u.leaveOrder u.size) : u.unroll = .ok u := by
  obtain ⟨root,child,e,hrep⟩ := h.exists_represents
  have hrun : u.leaveOrder.foldlM (Unrolling.visit u) (u.copied 0) = .ok (u.copied u.size) := by
    refine run_copied hnormal.descending hnormal.basic (fun id node hnode hkind => ?_) hcounts le_rfl
    exact h.operands_repetition (hnormal.reachable id (lt_size_of_get? hnode)) hnode hkind
  have hlt : root < u.size := lt_size_of_get? hrep.top
  have hall : u.nodes.extract 0 u.size = u.nodes := Array.extract_size
  rw [hrep.unroll_eq, ← copied_zero, hrun]
  change Except.ok (Tree.mk (u.nodes.extract 0 u.size) ((u.copied u.size).imageOf root)) = _
  rw [hall, imageOf_copied hlt, if_pos hlt, ← hrep.atRoot]

/-- The nodes of an unrolled tree and where they come from. -/
theorem Closed.sources (h : t.Closed)
    (hrun : t.leaveOrder.foldlM (Unrolling.visit t) ⟨empty,Array.replicate t.size none⟩ = .ok w) :
    t.Sources w.result where
  added new hnew := by
    obtain ⟨earlier,id,later,v,v',horder,hsteps⟩ :=
      exists_crossing (fun v => v.result.size) hrun (Nat.zero_le new) hnew
    exact ⟨id,earlier,later,v,v',horder,hsteps⟩
  reachable id new hadds := by
    obtain ⟨earlier,later,v,v',horder,-⟩ := hadds
    apply h.mem_leaveOrder.mp
    rw [horder]
    exact List.mem_append_right earlier List.mem_cons_self
  greedy _ _ _ _ _ _ hadds hnode hkind := hadds.greedy hrun hnode hkind

theorem Unrolling.Advances.mem_seen_iff
    (h : Advances t [root] ⟨empty,Array.replicate t.size none⟩ w) (hroot : t.root = some root) :
    id ∈ w.seen t ↔ t.Reachable id := by
  rw [mem_seen h.numbered.tidy.size]
  constructor
  · intro hsome
    obtain ⟨new,hnew⟩ := Option.isSome_iff_exists.mp hsome
    exact h.numbered.reachable id new hnew
  · intro hid
    have hbelow := (reachable_iff hroot).mp hid
    exact h.numbered.isSome_below (h.images root List.mem_cons_self) hbelow

end Unrolled

/-- An unrolled tree is normal and is unrolled to itself. Its repetitions are as greedy as those
that they come from, and it has as many nodes as the distinct nodes of the source ask for. -/
theorem unroll_normalForm (ht : t.WellFormed) (hu : t.unroll = .ok u) :
    u.IsNormal ∧ t.Sources u ∧
      (∃ nodes : Finset NodeId, (∀ id, id ∈ nodes ↔ t.Reachable id) ∧
        u.size = ∑ id ∈ nodes, t.unrolledSize id) ∧
      u.unroll = .ok u := by
  obtain ⟨root,w,hroot,hrun,huw,hadvances⟩ := ht.advances hu
  have hwell := ht.unroll hu
  have hcounts := hadvances.counts_leaveOrder huw
  have hnumbered := hadvances.numbered
  have hsources := ht.closed.sources hrun
  have hnormal : u.IsNormal := by
    refine ⟨?_,?_,fun id hid => ?_,hcounts.eraseDups_eq⟩
    · rw [huw]
      exact hnumbered.tidy.result.basic
    · rw [huw]
      exact hnumbered.descending
    · have hmem : id ∈ u.leaveOrder.eraseDups := by
        rw [hcounts.eraseDups_eq]
        exact List.mem_range.mpr hid
      exact hwell.closed.mem_leaveOrder.mp (List.mem_eraseDups.mp hmem)
  refine ⟨hnormal,?_,⟨w.seen t,fun id => hadvances.mem_seen_iff hroot,?_⟩,
    hwell.unroll_eq_self hnormal hcounts⟩
  · rw [huw]
    exact ⟨hsources.added,hsources.reachable,hsources.greedy⟩
  · rw [huw]
    exact hnumbered.count

/-- What `sharedRounds` is unrolled to, where the two rounds share all of their nodes. -/
def unrolledRounds : Tree where
  nodes := #[{ kind := .dot },.repetition 0 0 (some 1) false,.concatenation 0 1,
    .concatenation 0 2,.concatenation 3 3,.repetition 4 0 none true,.regexp 5]
  root := some 6

theorem unroll_normalForm_sharedRounds :
    sharedRounds.WellFormed ∧ sharedRounds.unroll = .ok unrolledRounds ∧
      unrolledRounds.IsNormal ∧ sharedRounds.Sources unrolledRounds ∧
      (∃ nodes : Finset NodeId, (∀ id, id ∈ nodes ↔ sharedRounds.Reachable id) ∧
        unrolledRounds.size = ∑ id ∈ nodes, sharedRounds.unrolledSize id) ∧
      unrolledRounds.unroll = .ok unrolledRounds := by
  have ht : sharedRounds.WellFormed := .of_forall rfl rfl (by decide)
  have hu : sharedRounds.unroll = .ok unrolledRounds := by
    obtain ⟨root,child,e,hrep⟩ := ht.exists_represents
    obtain rfl : 4 = root := Option.some.inj hrep.atRoot
    rw [hrep.unroll_eq, leaveOrder_eq hrep.atRoot hrep.height]
    rfl
  exact ⟨ht,hu,unroll_normalForm ht hu⟩

end Tree
end ByteAutomata
