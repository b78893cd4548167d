import Mathlib.Data.List.ReduceOption
import ByteAutomata.Proofs.Builder.Build

/-! # Entry lists

The entries of a term, told operator by operator: a list of the vertices at which its leaves begin,
in the order of preference, with a mark where the empty string is preferred. The start vertex
lists its successors in this order, and so does the fragment of every subtree. -/
namespace ByteAutomata

/-- First vertices of leaves, with `none` as the mark for the empty string. -/
abbrev EntryList := List (Option Vertex)

/-- Of several marks, only the first one counts. -/
def EntryList.keepFirst : EntryList → EntryList
  | [] => []
  | some v :: rest => some v :: keepFirst rest
  | none :: rest => none :: rest.filter Option.isSome

/-- The second list in the place of the mark of the first one. -/
def EntryList.replaceMark (xs ys : EntryList) : EntryList :=
  xs.flatMap fun
    | some v => [some v]
    | none => ys

/-- The entry list of a term whose first vertex is `base`. -/
def Term.entries (s : BuilderSettings) : Term → Nat → EntryList
  | leaf _, base => [some base]
  | alternation l r, base => .keepFirst (l.entries s base ++ r.entries s (base + l.width s))
  | concatenation l r, base => (l.entries s base).replaceMark (r.entries s (base + l.width s))
  | repetition min _ greedy e, base =>
    if min = 0 then
      .keepFirst (if greedy then e.entries s base ++ [none] else none :: e.entries s base)
    else e.entries s base

namespace EntryList
variable (vs : List Vertex) (xs ys : EntryList)

theorem keepFirst_map_append :
    keepFirst (vs.map some ++ xs) = vs.map some ++ xs.keepFirst := by
  induction vs with
  | nil => rfl
  | cons v vs ih => rw [List.map_cons, List.cons_append, keepFirst, ih, List.cons_append]

theorem replaceMark_map_append :
    replaceMark (vs.map some ++ xs) ys = vs.map some ++ xs.replaceMark ys := by
  induction vs with
  | nil => rfl
  | cons v vs ih =>
    rw [List.map_cons, List.cons_append, replaceMark, List.flatMap_cons, ← replaceMark, ih]
    rfl

theorem replaceMark_map : replaceMark (vs.map some) ys = vs.map some := by
  have h := replaceMark_map_append vs [] ys
  have hnil : replaceMark [] ys = [] := rfl
  rwa [hnil, List.append_nil] at h

theorem replaceMark_none_cons : replaceMark (none :: xs) ys = ys ++ xs.replaceMark ys := rfl

theorem filter_isSome_map : (vs.map some).filter Option.isSome = vs.map some := by
  induction vs with
  | nil => rfl
  | cons v vs ih => rw [List.map_cons, List.filter_cons_of_pos rfl, ih]

theorem reduceOption_map_some : (vs.map some).reduceOption = vs := by
  rw [List.reduceOption, List.filterMap_map]
  exact List.filterMap_some

theorem idxOf?_map_some_append :
    (vs.map some ++ xs).idxOf? none = (xs.idxOf? none).map (· + vs.length) := by
  have hnone : (vs.map some).findIdx? (· == none) = none := by simp
  rw [List.idxOf?, List.findIdx?_append, List.length_map, hnone, Option.none_or]

end EntryList

namespace Gap
variable {g h : Gap}

/-- The targets with a mark in the place of the gap. -/
def marked (g : Gap) : EntryList :=
  g.before.map some ++ if g.isOpen then none :: g.after.map some else g.after.map some

theorem marked_of_isOpen (hg : g.isOpen = true) :
    g.marked = g.before.map some ++ none :: g.after.map some := by
  rw [marked, if_pos hg]

theorem marked_of_not_isOpen (hg : g.isOpen = false) : g.marked = g.targets.map some := by
  rw [marked, if_neg (by simp [hg]), targets, List.map_append]

/-- More targets around an open gap. -/
theorem marked_around (h : Gap) (vs ws : List Vertex) :
    marked ⟨vs ++ h.before,h.after ++ ws,h.isOpen⟩ =
      vs.map some ++ (h.marked ++ ws.map some) := by
  rw [marked, marked, List.map_append, List.map_append, List.append_assoc, List.append_assoc]
  cases h.isOpen <;> rfl

theorem filter_isSome_marked : g.marked.filter Option.isSome = g.targets.map some := by
  cases hg : g.isOpen with
  | true =>
    rw [marked_of_isOpen hg, List.filter_append, List.filter_cons_of_neg (by decide),
      EntryList.filter_isSome_map, EntryList.filter_isSome_map, targets, List.map_append]
  | false => rw [marked_of_not_isOpen hg, EntryList.filter_isSome_map]

theorem reduceOption_marked : g.marked.reduceOption = g.targets := by
  cases hg : g.isOpen with
  | true =>
    rw [marked_of_isOpen hg, List.reduceOption_append, List.reduceOption_cons_of_none,
      EntryList.reduceOption_map_some, EntryList.reduceOption_map_some, targets]
  | false => rw [marked_of_not_isOpen hg, EntryList.reduceOption_map_some]

theorem idxOf?_marked : g.marked.idxOf? none = g.skip := by
  cases hg : g.isOpen with
  | true =>
    rw [marked_of_isOpen hg, EntryList.idxOf?_map_some_append, skip, if_pos hg, List.idxOf?_cons,
      if_pos (by decide), Option.map_some, Nat.zero_add]
  | false =>
    rw [marked_of_not_isOpen hg, skip, if_neg (by simp [hg]), List.idxOf?_eq_none_iff]
    simp

/-- Behind an open gap no other mark counts. -/
theorem keepFirst_marked_append (hg : g.isOpen = true) (xs : EntryList) :
    EntryList.keepFirst (g.marked ++ xs) = g.marked ++ xs.filter Option.isSome := by
  rw [marked_of_isOpen hg, List.append_assoc, List.cons_append, EntryList.keepFirst_map_append,
    EntryList.keepFirst, List.filter_append, EntryList.filter_isSome_map, List.append_assoc,
    List.cons_append]

theorem keepFirst_marked : g.marked.keepFirst = g.marked := by
  cases hg : g.isOpen with
  | true =>
    have h := keepFirst_marked_append hg []
    rwa [List.filter_nil, List.append_nil] at h
  | false =>
    have h := EntryList.keepFirst_map_append g.targets []
    rwa [List.append_nil, EntryList.keepFirst, List.append_nil, ← marked_of_not_isOpen hg] at h

theorem marked_alternate :
    (g.alternate h).marked = EntryList.keepFirst (g.marked ++ h.marked) := by
  cases hg : g.isOpen with
  | true =>
    rw [keepFirst_marked_append hg, filter_isSome_marked, marked_of_isOpen hg, alternate,
      if_pos hg, marked_of_isOpen rfl, List.map_append, List.append_assoc, List.cons_append]
  | false =>
    have haround := h.marked_around g.targets []
    rw [List.append_nil, List.map_nil, List.append_nil] at haround
    rw [marked_of_not_isOpen hg, EntryList.keepFirst_map_append, keepFirst_marked, alternate,
      if_neg (by simp [hg]), haround]

theorem marked_sequence : (g.sequence h).marked = g.marked.replaceMark h.marked := by
  cases hg : g.isOpen with
  | true =>
    rw [marked_of_isOpen hg, EntryList.replaceMark_map_append, EntryList.replaceMark_none_cons,
      EntryList.replaceMark_map, sequence, if_pos hg, h.marked_around]
  | false =>
    rw [sequence, if_neg (by simp [hg]), marked_of_not_isOpen hg, EntryList.replaceMark_map]

theorem marked_optional (greedy : Bool) : (g.optional greedy).marked =
    EntryList.keepFirst (if greedy then g.marked ++ [none] else none :: g.marked) := by
  cases greedy with
  | false =>
    have hfirst : EntryList.keepFirst (none :: g.marked) =
        none :: g.marked.filter Option.isSome := rfl
    rw [if_neg Bool.false_ne_true, hfirst, filter_isSome_marked]
    rfl
  | true =>
    rw [if_pos rfl]
    cases hg : g.isOpen with
    | true =>
      rw [keepFirst_marked_append hg, List.filter_cons_of_neg (by decide), List.filter_nil,
        List.append_nil, optional, if_neg (by decide), if_pos hg]
    | false =>
      rw [marked_of_not_isOpen hg, EntryList.keepFirst_map_append, optional, if_neg (by decide),
        if_neg (by simp [hg])]
      rfl

end Gap

/-- The entry list tells the layout of the entries. -/
theorem Term.entries_eq (s : BuilderSettings) (e : Term) (base : Nat) :
    e.entries s base = (e.front s base).marked := by
  induction e generalizing base with
  | leaf l => rfl
  | alternation l r ihl ihr => rw [entries, front, Gap.marked_alternate, ihl, ihr]
  | concatenation l r ihl ihr => rw [entries, front, Gap.marked_sequence, ihl, ihr]
  | repetition min max greedy e ih =>
    rw [entries, front, ih]
    split
    · exact (Gap.marked_optional greedy).symm
    · rfl

/-- The fragment keeps the list without its mark, and the place of the mark. -/
structure Fragment.Lists (f : Fragment) (list : EntryList) : Prop where
  entries : f.entries = list.reduceOption
  skip : f.skip = list.idxOf? none

theorem Fragment.lists_ofTerm (s : BuilderSettings) (e : Term) (base : Nat) (id : NodeId) :
    (ofTerm s e base id).Lists (e.entries s base) := by
  rw [e.entries_eq]
  exact ⟨Gap.reduceOption_marked.symm,Gap.idxOf?_marked.symm⟩

namespace Assembly
variable {s : BuilderSettings} {t : Tree} {a a' : Assembly} {slots : List Slot}
variable {stack : List Fragment} {label : Nat} {id l r : NodeId} {e : Term} {n : Nat}
variable {xs ys : List NodeId}

/-- Every one of the nodes puts the fragment of its term on top of the stack. -/
def Pushes (s : BuilderSettings) (label : Nat) (t : Tree) (a : Assembly) (ids : List NodeId) :
    Prop :=
  ∀ before id, before ++ [id] <+: ids → ∃ a' d slots stack,
    (before ++ [id]).foldlM (visit s label t) a = .ok a' ∧ t.Reads id d ∧
      a'.Holds (slots ++ d.slots s slots.length) (.ofTerm s d slots.length id :: stack)

theorem pushes_nil : Pushes s label t a [] := by
  intro before id hprefix
  simp at hprefix

theorem Pushes.append (hx : Pushes s label t a xs)
    (hrun : xs.foldlM (visit s label t) a = .ok a') (hy : Pushes s label t a' ys) :
    Pushes s label t a (xs ++ ys) := by
  intro before id hprefix
  rcases Nat.lt_or_ge before.length xs.length with hlt | hge
  · refine hx before id (List.prefix_of_prefix_length_le hprefix (List.prefix_append xs ys) ?_)
    rwa [List.length_append, List.length_singleton]
  · obtain ⟨rest,rfl⟩ := List.prefix_of_prefix_length_le (List.prefix_append xs ys)
      ((List.prefix_append before [id]).trans hprefix) hge
    rw [List.append_assoc, List.prefix_append_right_inj] at hprefix
    obtain ⟨a₁,d,slots,stack,hrest,hd,hholds⟩ := hy rest id hprefix
    rw [List.append_assoc, foldlM_append_ok hrun]
    exact ⟨a₁,d,slots,stack,hrest,hd,hholds⟩

theorem Pushes.concat (hx : Pushes s label t a xs)
    (hrun : (xs ++ [id]).foldlM (visit s label t) a = .ok a') (hr : t.Reads id e)
    (ha' : a'.Holds (slots ++ e.slots s slots.length) (.ofTerm s e slots.length id :: stack)) :
    Pushes s label t a (xs ++ [id]) := by
  intro before id' hprefix
  rcases List.prefix_concat_iff.mp hprefix with heq | hprefix
  · obtain ⟨rfl,hid⟩ := List.append_inj' heq rfl
    obtain rfl := List.singleton_inj.mp hid
    exact ⟨a',e,slots,stack,hrun,hr,ha'⟩
  · exact hx before id' hprefix

theorem Holds.pushes_binary {node : Node} (ha : a.Holds slots stack) (h : t.get? id = some node)
    (hchildren : node.children = [l,r]) (hr : t.Reads id e) (hb : e.IsBasic)
    (hh : t.HeightLE (n + 1) id) (he : e.Encodable s)
    (hoperands : Pushes s label t a (t.postorder n l ++ t.postorder n r)) :
    Pushes s label t a (t.postorder (n + 1) id) := by
  obtain ⟨a',hrun,ha'⟩ := ha.visits label hr hb hh he
  rw [Tree.postorder_binary h hchildren, ← List.append_assoc] at hrun ⊢
  exact hoperands.concat hrun hr ha'

/-- A subtree is made of its operands, each of which has been a fragment of its own. -/
theorem Holds.pushes (label : Nat) (ha : a.Holds slots stack) (hr : t.Reads id e) (hb : e.IsBasic)
    (hh : t.HeightLE n id) (he : e.Encodable s) : Pushes s label t a (t.postorder n id) := by
  induction hr generalizing n a slots stack with
  | @leaf id l h =>
    obtain ⟨a',hrun,ha'⟩ := ha.visits label (.leaf h) hb hh he
    obtain ⟨n,rfl,-⟩ := hh.exists_succ h
    rw [Tree.postorder_leaf h (Node.children_leaf l)] at hrun ⊢
    exact pushes_nil.concat hrun (.leaf h) ha'
  | @alternation id l r e₁ e₂ h hl hr ihl ihr =>
    obtain ⟨n,rfl,hc⟩ := hh.exists_succ h
    refine ha.pushes_binary h (Node.children_alternation l r) (.alternation h hl hr) hb hh he ?_
    cases hb with
    | alternation hb₁ hb₂ =>
      have hcl := hc l (by simp)
      obtain ⟨a₁,h₁,ha₁⟩ := ha.visits label hl hb₁ hcl he.1
      exact (ihl ha hb₁ hcl he.1).append h₁ (ihr ha₁ hb₂ (hc r (by simp)) he.2)
  | @concatenation id l r e₁ e₂ h hl hr ihl ihr =>
    obtain ⟨n,rfl,hc⟩ := hh.exists_succ h
    refine ha.pushes_binary h (Node.children_concatenation l r) (.concatenation h hl hr) hb hh he ?_
    cases hb with
    | concatenation hb₁ hb₂ =>
      have hcl := hc l (by simp)
      obtain ⟨a₁,h₁,ha₁⟩ := ha.visits label hl hb₁ hcl he.1
      exact (ihl ha hb₁ hcl he.1).append h₁ (ihr ha₁ hb₂ (hc r (by simp)) he.2)
  | @repetition id c e min max greedy h hc' ih =>
    obtain ⟨a',hrun,ha'⟩ := ha.visits label (.repetition h hc') hb hh he
    obtain ⟨n,rfl,hc⟩ := hh.exists_succ h
    have hoperand := ih ha hb.operand (hc c (by simp)) he
    rw [Tree.postorder_unary h (Node.children_repetition c min max greedy)] at hrun ⊢
    exact hoperand.concat hrun (.repetition h hc') ha'

end Assembly

namespace Builder
variable {b b' : Builder} {t u : Tree} {root child : NodeId} {e : Term}

/-- Whenever a node below the root is left, its fragment is pushed, and lists the entries of the
term. -/
def PushesEntries (b : Builder) (u : Tree) (root : NodeId) : Prop :=
  ∀ before id, before ++ [id] <+: u.leaveOrder → id ≠ root → ∃ b₁ f rest base d,
    b.reset.visitAll u (before ++ [id]) = (.ok (),b₁) ∧ b₁.assembly.stack = f :: rest ∧
      f.node = some id ∧ u.Reads id d ∧ base + d.width b.settings = b₁.graph.size ∧
      f.Lists (d.entries b.settings base)

theorem pushesEntries (h : u.Represents root child e) (hb : e.IsBasic)
    (he : e.Encodable b.settings) : b.PushesEntries u root := by
  intro before id hprefix hne
  rw [h.leaveOrder] at hprefix
  have hbelow : before ++ [id] <+: u.postorder u.size child :=
    (List.prefix_concat_iff.mp hprefix).resolve_left fun heq =>
      hne (List.singleton_inj.mp (List.append_inj' heq rfl).2)
  obtain ⟨a,d,slots,stack,hrun,hd,hholds⟩ :=
    Assembly.holds_start.pushes b.label h.reads hb h.heightLE he before id hbelow
  obtain ⟨hresult,hassembly,-,-⟩ := b.reset.follows_visitAll u (before ++ [id])
  have hleft : (b.reset.visitAll u (before ++ [id])).2.assembly = a := hassembly a hrun
  have hok : (b.reset.visitAll u (before ++ [id])).1 = .ok () :=
    hresult.trans (congrArg (Except.map fun _ => ()) hrun)
  refine ⟨(b.reset.visitAll u (before ++ [id])).2,.ofTerm b.settings d slots.length id,stack,
    slots.length,d,Prod.ext hok rfl,?_,rfl,hd,?_,Fragment.lists_ofTerm b.settings d _ id⟩
  · rw [hleft, hholds.stack]
  · rw [graph, hleft, hholds.graph.size, List.length_append, Term.length_slots]

/-- The start vertex of what a build yields lists its successors in the order of preference, and so
does every fragment on the way there. -/
theorem build_entries (ht : t.WellFormed) (h : b.build t = (.ok (),b')) :
    ∃ u root child e, t.unroll = .ok u ∧ u.Represents root child e ∧
      (b'.graph.outs 0).map some = e.entries b.settings 1 ∧ b.PushesEntries u root := by
  obtain ⟨d,e,u,root,child,-,hd,hu,hrep,he,hn,hshows⟩ := represents_of_build ht h
  refine ⟨u,root,child,e,hu,hrep,?_,pushesEntries hrep (Term.isBasic_of_unroll hd) he⟩
  rw [hshows.automaton_start.1, e.entries_eq, Gap.marked_of_not_isOpen]
  rw [e.isOpen_front, hn]

/-- One or two rounds of a reluctant option or a greedy loop, and a letter. -/
def roundsOfOptions : Tree where
  nodes := #[{ kind := .literal 97 },.repetition 0 0 (some 1) false,{ kind := .literal 98 },
    .repetition 2 0 none true,.alternation 1 3,.repetition 4 1 (some 2) true,{ kind := .dot },
    .concatenation 5 6,.regexp 7]
  root := some 8

theorem build_entries_roundsOfOptions :
    ∃ b' u root child e, build {} roundsOfOptions = (.ok (),b') ∧
      roundsOfOptions.unroll = .ok u ∧ u.Represents root child e ∧
      (b'.graph.outs 0).map some = e.entries {} 1 ∧ PushesEntries {} u root := by
  have ht : roundsOfOptions.WellFormed := .of_forall rfl rfl (by decide)
  have hok : (build {} roundsOfOptions).1 = .ok () := by decide +kernel
  have hbuild : build {} roundsOfOptions = (.ok (),(build {} roundsOfOptions).2) :=
    Prod.ext hok rfl
  obtain ⟨u,root,child,e,hu,hrep,hstart,hpushes⟩ := build_entries ht hbuild
  exact ⟨_,u,root,child,e,hbuild,hu,hrep,hstart,hpushes⟩

end Builder
end ByteAutomata
