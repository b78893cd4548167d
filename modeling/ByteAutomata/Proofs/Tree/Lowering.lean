import Mathlib.Data.List.ReduceOption
import ByteAutomata.Proofs.Expr.Language
import ByteAutomata.Proofs.Intervals
import ByteAutomata.Proofs.Text.Utf8
import ByteAutomata.Proofs.Tree.Unrolling
import ByteAutomata.Tree.OfExpr

/-! # The tree of an expression

What the nodes of an expression read as, and the first node that keeps the expression from having
a tree. A part without a term matches the empty string only. -/
namespace ByteAutomata

def Leaf.ofPiece : Utf8.Piece → Leaf
  | .scalar n => .literal n
  | .stray b => .charClass (.ofRange b b)

def ByteClass.leaf (set : ByteClass) : Leaf :=
  if (Expr.byteClass set).isAnyByte then .dot else .charClass set.toByteSet

namespace Term

/-- A chain of operators that leans to the left. -/
def chain (operator : Term → Term → Term) : List Term → Option Term
  | [] => none
  | first :: rest => some (rest.foldl operator first)

/-- Items without a term are left out. -/
def concatenationOf (items : List (Option Term)) : Option Term :=
  chain .concatenation items.reduceOption

/-- Items without a term make the others optional, reluctantly so if the first item is one. -/
def alternationOf (items : List (Option Term)) : Option Term :=
  (chain .alternation items.reduceOption).map fun e =>
    if items.any (·.isNone) then .repetition 0 (some 1) (items.head?.any (·.isSome)) e else e

end Term

namespace Expr

mutual

/-- The term that an expression stands for. -/
def term? : Expr → Option Term
  | empty | assertion _ => none
  | literal bytes =>
    Term.concatenationOf ((Utf8.pieces bytes).map fun p => some (.leaf (.ofPiece p)))
  | byteClass set => some (.leaf set.leaf)
  | charClass set =>
    match set.toByteClass? with
    | some bytes => some (.leaf bytes.leaf)
    | none => Term.alternationOf ((Tree.scalars set).map fun n => some (.leaf (.literal n)))
  | repetition min max greedy sub =>
    if min = 0 ∧ max = some 0 then none else sub.term?.map (.repetition min max greedy)
  | capture _ _ sub => sub.term?
  | concat items => Term.concatenationOf (terms items)
  | alternation items => Term.alternationOf (terms items)

def terms : List Expr → List (Option Term)
  | [] => []
  | e :: rest => e.term? :: terms rest

end

theorem terms_eq_map (items : List Expr) : terms items = items.map term? := by
  induction items with
  | nil => rfl
  | cons e items ih => rw [terms, ih, List.map_cons]

/-- Why no tree has this node. -/
def obstacle? : Expr → Option PatternError
  | assertion _ => some .unsupportedAssertion
  | byteClass set => if set.isEmpty then some .emptyClass else none
  | charClass set =>
    if set.isEmpty then some .emptyClass
    else if !set.isBelow 0x80 && maxClassSize < Tree.spread set.ranges then some .classTooLarge
    else none
  | _ => none

def firstObstacle? (e : Expr) : Option PatternError := e.nodes.findSome? obstacle?

section FirstObstacle
variable {e sub : Expr} {items : List Expr}

theorem firstObstacle_leaf (h : e.nodes = [e]) : e.firstObstacle? = e.obstacle? := by
  rw [firstObstacle?, h, List.findSome?_singleton]

/-- An operator is no obstacle by itself. -/
theorem firstObstacle_operator {below : List Expr} (h : e.nodes = below ++ [e])
    (hown : e.obstacle? = none) : e.firstObstacle? = below.findSome? obstacle? := by
  rw [firstObstacle?, h, List.findSome?_append, List.findSome?_singleton, hown, Option.or_none]

end FirstObstacle

end Expr

namespace Tree
variable {t t' : Tree} {ids : List (Option NodeId)} {es : List (Option Term)}

def ReadsAll (t : Tree) : List (Option NodeId) → List (Option Term) → Prop :=
  List.Forall₂ (Option.Rel t.Reads)

theorem reads_mono {id? : Option NodeId} {e? : Option Term} (h : Option.Rel t.Reads id? e?)
    (hext : t.Extends t') : Option.Rel t'.Reads id? e? := by
  cases h with
  | some h => exact .some (h.mono hext)
  | none => exact .none

theorem ReadsAll.reduceOption (h : t.ReadsAll ids es) :
    List.Forall₂ t.Reads (ids.filterMap id) es.reduceOption := by
  induction h with
  | nil => exact .nil
  | cons h _ ih =>
    cases h with
    | some h => exact .cons h ih
    | none => exact ih

/-- What is left behind the nodes of an expression: its root reads as the term, and neither is
there if the other is not. -/
structure Lowers (t : Tree) (r : Option NodeId × Tree) (e? : Option Term) : Prop where
  keeps : t.Extends r.2
  descending : r.2.Descending
  reads : Option.Rel r.2.Reads r.1 e?

structure LowersAll (t : Tree) (r : List (Option NodeId) × Tree) (es : List (Option Term)) :
    Prop where
  keeps : t.Extends r.2
  descending : r.2.Descending
  reads : r.2.ReadsAll r.1 es

theorem Adds.lowers {r : NodeId × Tree} {e : Term} (h : t.Adds r e) :
    t.Lowers (some r.1,r.2) (some e) := ⟨h.keeps,h.descending,.some h.reads⟩

theorem Lowers.empty (hd : t.Descending) : t.Lowers (none,t) none := ⟨.refl t,hd,.none⟩

section Operators

variable {node : NodeId → NodeId → Node} {operator : Term → Term → Term}

theorem Builds.foldl (hb : Builds node operator) {left : NodeId} {d : Term} {rest : List NodeId}
    {ds : List Term} (hd : t.Descending) (hleft : t.Reads left d)
    (hrest : List.Forall₂ t.Reads rest ds) :
    t.Adds (rest.foldl (fun r right => r.2.add (node r.1 right)) (left,t))
      (ds.foldl operator d) := by
  induction rest generalizing t left d ds with
  | nil =>
    cases hrest
    exact .existing hd hleft
  | cons right rest ih =>
    cases hrest with
    | cons hright hrest =>
      have hadds := hb hd hleft hright
      have hrest' := hrest.imp fun _ _ h => h.mono hadds.keeps
      have hrec := ih hadds.descending hadds.reads hrest'
      exact hadds.extend hrec

theorem Builds.chain (hb : Builds node operator) {ids : List NodeId} {es : List Term}
    (hd : t.Descending) (h : List.Forall₂ t.Reads ids es) :
    t.Lowers (t.chain node ids) (Term.chain operator es) := by
  cases h with
  | nil => exact .empty hd
  | cons hfirst hrest => exact (hb.foldl hd hfirst hrest).lowers

theorem LowersAll.concatenation {r : List (Option NodeId) × Tree} (h : t.LowersAll r es) :
    t.Lowers (r.2.addConcatenation r.1) (Term.concatenationOf es) := by
  have hchain := Builds.chain Adds.concatenation h.descending h.reads.reduceOption
  exact ⟨h.keeps.trans hchain.keeps,hchain.descending,hchain.reads⟩

theorem ReadsAll.any_isNone (h : t.ReadsAll ids es) : ids.contains none = es.any (·.isNone) := by
  induction h with
  | nil => rfl
  | cons h _ ih =>
    rw [List.contains_cons, List.any_cons, ih]
    cases h <;> rfl

theorem ReadsAll.head_isSome (h : t.ReadsAll ids es) (hne : es.reduceOption ≠ []) :
    (ids.head? != some none) = es.head?.any (·.isSome) := by
  cases h with
  | nil => exact absurd rfl hne
  | cons h _ => cases h <;> rfl

theorem LowersAll.alternation {r : List (Option NodeId) × Tree} (h : t.LowersAll r es) :
    t.Lowers (r.2.addAlternation r.1) (Term.alternationOf es) := by
  have hchain := Builds.chain Adds.alternation h.descending h.reads.reduceOption
  have hskip := h.reads.any_isNone
  have hhead := h.reads.head_isSome
  unfold addAlternation Term.alternationOf
  generalize r.2.chain .alternation (r.1.filterMap id) = made at hchain ⊢
  obtain ⟨keeps,descending,reads⟩ := hchain
  cases he : Term.chain .alternation es.reduceOption with
  | none =>
    rw [he] at reads
    obtain ⟨id?,t'⟩ := made
    cases reads
    exact ⟨h.keeps.trans keeps,descending,.none⟩
  | some e =>
    have hne : es.reduceOption ≠ [] := by
      intro hnil
      simp [Term.chain, hnil] at he
    rw [he] at reads
    obtain ⟨id?,t'⟩ := made
    cases reads with
    | some reads =>
      rw [Option.map_some, ← hskip, ← hhead hne]
      simp only
      split
      · have hadds := Adds.repetition descending reads 0 (some 1) (r.1.head? != some none)
        exact ⟨(h.keeps.trans keeps).trans hadds.keeps,hadds.descending,.some hadds.reads⟩
      · exact ⟨h.keeps.trans keeps,descending,.some reads⟩

end Operators

section Leaves

theorem addLeaves_cons (t : Tree) (kind : NodeKind) (kinds : List NodeKind) :
    t.addLeaves (kind :: kinds) =
      (some t.size :: ((t.push { kind }).addLeaves kinds).1,
        ((t.push { kind }).addLeaves kinds).2) := by
  have hsize : (t.push { kind }).size = t.size + 1 := Array.size_push ..
  simp [addLeaves, List.range'_succ, hsize]

theorem lowersAll_addLeaves (hd : t.Descending) (leaves : List Leaf) {kinds : List NodeKind}
    (hkinds : kinds = leaves.map fun l => l.node.kind) :
    t.LowersAll (t.addLeaves kinds) (leaves.map fun l => some (.leaf l)) := by
  subst hkinds
  induction leaves generalizing t with
  | nil => exact ⟨.refl t,hd,.nil⟩
  | cons l leaves ih =>
    have hadds := Adds.leaf hd l
    have hnode : ({ kind := l.node.kind } : Node) = l.node := by cases l <;> rfl
    rw [List.map_cons, addLeaves_cons, hnode]
    obtain ⟨keeps,descending,reads⟩ := ih hadds.descending
    exact ⟨hadds.keeps.trans keeps,descending,.cons (.some (hadds.reads.mono keeps)) reads⟩

theorem lowers_addLiteral (hd : t.Descending) (bytes : List UInt8) :
    t.Lowers (t.addLiteral bytes) (Expr.literal bytes).term? := by
  have hkinds : (Utf8.pieces bytes).map pieceKind =
      ((Utf8.pieces bytes).map Leaf.ofPiece).map fun l => l.node.kind := by
    rw [List.map_map]
    exact List.map_congr_left fun p _ => by cases p <;> rfl
  have hall := lowersAll_addLeaves hd _ hkinds
  rw [List.map_map] at hall
  exact hall.concatenation

theorem endsIn_addByteClass (hd : t.Descending) (set : ByteClass) :
    EndsIn (t.Lowers · (some (.leaf set.leaf))) (Expr.byteClass set).obstacle?
      (t.addByteClass set) := by
  have hobstacle : (Expr.byteClass set).obstacle? =
      if set.isEmpty then some .emptyClass else none := rfl
  rw [hobstacle, addByteClass, ByteClass.leaf]
  split
  · rename_i hany
    have hne : set.isEmpty = false := by
      obtain ⟨rest,hranges⟩ := List.head?_eq_some_iff.mp (of_decide_eq_true hany)
      simp [Intervals.isEmpty, hranges]
    rw [hne]
    exact .ok (Adds.leaf hd .dot).lowers
  · change EndsIn _ _ (if set.toByteSet.isEmpty = true then _ else _)
    rw [ByteClass.isEmpty_toByteSet]
    split
    · exact .error PatternError.emptyClass
    · exact .ok (Adds.leaf hd (.charClass set.toByteSet)).lowers

theorem endsIn_addCharClass (hd : t.Descending) (set : CharClass) :
    EndsIn (t.Lowers · (Expr.charClass set).term?) (Expr.charClass set).obstacle?
      (t.addCharClass set) := by
  have hobstacle : (Expr.charClass set).obstacle? =
      if set.isEmpty then some .emptyClass
      else if !set.isBelow 0x80 && maxClassSize < spread set.ranges then some .classTooLarge
      else none := rfl
  rw [hobstacle, Expr.term?, addCharClass]
  cases hbytes : set.toByteClass? with
  | some bytes =>
    obtain ⟨hbelow,hempty⟩ := CharClass.toByteClass_eq_some hbytes
    have hends := endsIn_addByteClass hd bytes
    have hbyte : (Expr.byteClass bytes).obstacle? =
        if bytes.isEmpty then some .emptyClass else none := rfl
    rw [hbyte, hempty] at hends
    simpa [hbelow] using hends
  | none =>
    obtain ⟨hbelow,hne⟩ := CharClass.toByteClass_eq_none hbytes
    rw [hne, hbelow, if_neg Bool.false_ne_true]
    simp only [Bool.not_false, Bool.true_and, decide_eq_true_eq]
    split
    · exact .error PatternError.classTooLarge
    · have hkinds : (scalars set).map NodeKind.literal =
          ((scalars set).map Leaf.literal).map fun l => l.node.kind := by
        rw [List.map_map]
        rfl
      have hall := lowersAll_addLeaves hd _ hkinds
      rw [List.map_map] at hall
      exact .ok hall.alternation

end Leaves

section Expr

theorem endsIn_addExprs {items : List Expr} (hd : t.Descending)
    (h : ∀ e ∈ items, ∀ t : Tree, t.Descending →
      EndsIn (t.Lowers · e.term?) e.firstObstacle? (t.addExpr e)) :
    EndsIn (t.LowersAll · (Expr.terms items)) ((Expr.nodesOfAll items).findSome? Expr.obstacle?)
      (t.addExprs items) := by
  induction items generalizing t with
  | nil => exact .ok ⟨.refl t,hd,.nil⟩
  | cons e rest ih =>
    rw [addExprs, Expr.terms, Expr.nodesOfAll, List.findSome?_append]
    refine (h e List.mem_cons_self t hd).bind fun r hr => ?_
    refine (ih hr.descending fun d hmem => h d (List.mem_cons_of_mem e hmem)).bind_ok
      fun r' hr' => ?_
    have hread := reads_mono hr.reads hr'.keeps
    exact .ok ⟨hr.keeps.trans hr'.keeps,hr'.descending,.cons hread hr'.reads⟩

/-- The nodes of an expression read as its term, unless one of them cannot be added. -/
theorem endsIn_addExpr (e : Expr) (hd : t.Descending) :
    EndsIn (t.Lowers · e.term?) e.firstObstacle? (t.addExpr e) := by
  induction e generalizing t with
  | empty => exact .ok (.empty hd)
  | literal bytes => exact .ok (lowers_addLiteral hd bytes)
  | byteClass set =>
    rw [Expr.firstObstacle_leaf rfl]
    exact endsIn_addByteClass hd set
  | charClass set =>
    rw [Expr.firstObstacle_leaf rfl]
    exact endsIn_addCharClass hd set
  | assertion a => exact .error PatternError.unsupportedAssertion
  | repetition min max greedy sub ih =>
    rw [addExpr, Expr.term?, Expr.firstObstacle_operator rfl rfl]
    refine (ih hd).bind_ok fun r hr => ?_
    obtain ⟨id?,t'⟩ := r
    obtain ⟨keeps,descending,reads⟩ := hr
    generalize sub.term? = e? at reads
    cases reads with
    | none =>
      rw [Option.map_none, ite_self]
      exact .ok ⟨keeps,descending,.none⟩
    | some hc =>
      simp only
      split
      · exact .ok ⟨keeps,descending,.none⟩
      · have hadds := Adds.repetition descending hc min max greedy
        exact .ok ⟨keeps.trans hadds.keeps,hadds.descending,.some hadds.reads⟩
  | capture index name sub ih =>
    rw [addExpr, Expr.term?, Expr.firstObstacle_operator rfl rfl]
    exact ih hd
  | concat items ih =>
    rw [addExpr, Expr.term?, Expr.firstObstacle_operator rfl rfl]
    refine (endsIn_addExprs hd fun e he t hd => ih e he hd).bind_ok fun r hr => ?_
    exact .ok hr.concatenation
  | alternation items ih =>
    rw [addExpr, Expr.term?, Expr.firstObstacle_operator rfl rfl]
    refine (endsIn_addExprs hd fun e he t hd => ih e he hd).bind_ok fun r hr => ?_
    exact .ok hr.alternation

end Expr

end Tree
end ByteAutomata
