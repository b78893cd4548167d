import ByteAutomata.Proofs.Intervals
import ByteAutomata.Proofs.Term.Language

/-! # Languages of expressions

The byte strings that an expression matches, where a character stands for its UTF-8 bytes. The
expressions that patterns stand for have ordered bounds, intervals between characters, and no
alternation without alternatives. -/
namespace ByteAutomata
namespace Expr

@[elab_as_elim, induction_eliminator]
protected theorem induction {motive : Expr → Prop} (empty : motive empty)
    (literal : ∀ bytes, motive (literal bytes)) (byteClass : ∀ set, motive (byteClass set))
    (charClass : ∀ set, motive (charClass set)) (assertion : ∀ a, motive (assertion a))
    (repetition : ∀ min max greedy sub, motive sub → motive (repetition min max greedy sub))
    (capture : ∀ index name sub, motive sub → motive (capture index name sub))
    (concat : ∀ items, (∀ e ∈ items, motive e) → motive (concat items))
    (alternation : ∀ items, (∀ e ∈ items, motive e) → motive (alternation items)) :
    ∀ e, motive e :=
  @Expr.rec motive (fun items => ∀ e ∈ items, motive e) empty literal byteClass charClass assertion
    repetition capture concat alternation (List.forall_mem_nil motive)
    fun _ _ he hitems => List.forall_mem_cons.mpr ⟨he,hitems⟩

section Nodes

mutual

/-- The parts of an expression in postorder, so that the expression itself is the last one. -/
@[simp] def nodes : Expr → List Expr
  | empty => [empty]
  | literal bytes => [literal bytes]
  | byteClass set => [byteClass set]
  | charClass set => [charClass set]
  | assertion a => [assertion a]
  | repetition min max greedy sub => sub.nodes ++ [repetition min max greedy sub]
  | capture index name sub => sub.nodes ++ [capture index name sub]
  | concat items => nodesOfAll items ++ [concat items]
  | alternation items => nodesOfAll items ++ [alternation items]

def nodesOfAll : List Expr → List Expr
  | [] => []
  | e :: rest => e.nodes ++ nodesOfAll rest

end

theorem mem_nodesOfAll {d : Expr} {items : List Expr} :
    d ∈ nodesOfAll items ↔ ∃ e ∈ items, d ∈ e.nodes := by
  induction items with
  | nil => simp [nodesOfAll]
  | cons e items ih => simp [nodesOfAll, ih]

/-- What holds of a node by itself if the whole expression is well formed. -/
def IsSound : Expr → Prop
  | charClass set => Intervals.Ends Utf8.IsScalar set.ranges
  | repetition min max _ _ => ∀ m, max = some m → min ≤ m
  | alternation items => items ≠ []
  | empty | literal _ | byteClass _ | assertion _ | capture .. | concat _ => True

def WellFormed (e : Expr) : Prop := ∀ d ∈ e.nodes, d.IsSound

variable {items : List Expr} {sub : Expr} {min index : Nat} {max : Option Nat} {greedy : Bool}
variable {name : Option String} {P : Expr → Prop}

/-- Every node is of a kind. -/
def Each (P : Expr → Prop) (e : Expr) : Prop := ∀ d ∈ e.nodes, P d

theorem each_of_leaf {e : Expr} (hleaf : e.nodes = [e]) (h : P e) : e.Each P := by
  rw [Each, hleaf, List.forall_mem_singleton]
  exact h

theorem each_repetition : (repetition min max greedy sub).Each P ↔
    P (repetition min max greedy sub) ∧ sub.Each P := by
  rw [Each, nodes, List.forall_mem_append, List.forall_mem_singleton, and_comm]
  rfl

theorem each_capture : (capture index name sub).Each P ↔
    P (capture index name sub) ∧ sub.Each P := by
  rw [Each, nodes, List.forall_mem_append, List.forall_mem_singleton, and_comm]
  rfl

theorem forall_mem_nodesOfAll : (∀ d ∈ nodesOfAll items, P d) ↔ ∀ e ∈ items, e.Each P := by
  simp only [mem_nodesOfAll]
  exact ⟨fun h e he d hd => h d ⟨e,he,hd⟩,fun h d ⟨e,he,hd⟩ => h e he d hd⟩

theorem each_concat : (concat items).Each P ↔ P (concat items) ∧ ∀ e ∈ items, e.Each P := by
  rw [Each, nodes, List.forall_mem_append, List.forall_mem_singleton, forall_mem_nodesOfAll,
    and_comm]

theorem each_alternation : (alternation items).Each P ↔
    P (alternation items) ∧ ∀ e ∈ items, e.Each P := by
  rw [Each, nodes, List.forall_mem_append, List.forall_mem_singleton, forall_mem_nodesOfAll,
    and_comm]

theorem wellFormed_charClass {set : CharClass} : (charClass set).WellFormed ↔
    Intervals.Ends Utf8.IsScalar set.ranges := by
  rw [WellFormed, nodes, List.forall_mem_singleton, IsSound]

theorem wellFormed_repetition : (repetition min max greedy sub).WellFormed ↔
    (∀ m, max = some m → min ≤ m) ∧ sub.WellFormed := each_repetition

theorem wellFormed_capture : (capture index name sub).WellFormed ↔ sub.WellFormed :=
  each_capture.trans (and_iff_right trivial)

theorem wellFormed_concat : (concat items).WellFormed ↔ ∀ e ∈ items, e.WellFormed :=
  each_concat.trans (and_iff_right trivial)

theorem wellFormed_alternation :
    (alternation items).WellFormed ↔ items ≠ [] ∧ ∀ e ∈ items, e.WellFormed := each_alternation

end Nodes

section Language

def byteStrings (set : ByteClass) : Language UInt8 :=
  {w | ∃ b : UInt8, set.contains b.toNat = true ∧ w = [b]}

def charStrings (set : CharClass) : Language UInt8 :=
  {w | ∃ n, Utf8.IsScalar n ∧ set.contains n = true ∧ w = Utf8.encode n}

mutual

/-- The byte strings that an expression matches; an assertion takes none of them. -/
def language : Expr → Language UInt8
  | empty | assertion _ => 1
  | literal bytes => {bytes}
  | byteClass set => byteStrings set
  | charClass set => charStrings set
  | repetition min max _ sub => powers sub.language min max
  | capture _ _ sub => sub.language
  | concat items => product items
  | alternation items => union items

def product : List Expr → Language UInt8
  | [] => 1
  | e :: rest => e.language * product rest

def union : List Expr → Language UInt8
  | [] => 0
  | e :: rest => e.language + union rest

end

theorem product_eq (items : List Expr) : product items = (items.map language).prod := by
  induction items with
  | nil => rfl
  | cons e items ih => rw [product, ih, List.map_cons, List.prod_cons]

theorem union_eq (items : List Expr) : union items = (items.map language).sum := by
  induction items with
  | nil => rfl
  | cons e items ih => rw [union, ih, List.map_cons, List.sum_cons]

end Language

end Expr
end ByteAutomata
