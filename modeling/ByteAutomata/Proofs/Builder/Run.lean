import ByteAutomata.Proofs.Builder.Rules

/-! # The run of a construction

The nodes of a subtree are taken in postorder. If all of its literals can be represented, the run
adds the vertices of its term and one fragment, whatever was there before; otherwise it ends at
the first literal that cannot. -/
namespace ByteAutomata

/-- The code point of a literal that cannot be represented, with its node. -/
def Tree.unencodable? (s : BuilderSettings) (t : Tree) (id : NodeId) : Option (Nat × NodeId) :=
  match t.get? id with
  | some ⟨.literal codePoint,_,_⟩ =>
    if s.encoding.encode codePoint = none then some (codePoint,id) else none
  | _ => none

namespace Assembly
variable {s : BuilderSettings} {t : Tree} {a : Assembly} {slots : List Slot}
variable {stack : List Fragment} {label : Nat} {id l r : NodeId} {e : Term} {n : Nat}

theorem visit_eq {node : Node} (h : t.get? id = some node) :
    a.visit s label t id = a.apply s label id node.kind := by
  rw [visit, Tree.node, h]
  rfl

theorem foldlM_singleton {node : Node} (h : t.get? id = some node) :
    [id].foldlM (visit s label t) a = a.apply s label id node.kind := by
  rw [List.foldlM_cons, visit_eq h]
  exact bind_pure _

/-- Both operands, then the operation. -/
theorem foldlM_binary {a₁ a₂ : Assembly} {node : Node} (h : t.get? id = some node)
    (hchildren : node.children = [l,r])
    (h₁ : (t.postorder n l).foldlM (visit s label t) a = .ok a₁)
    (h₂ : (t.postorder n r).foldlM (visit s label t) a₁ = .ok a₂) :
    (t.postorder (n + 1) id).foldlM (visit s label t) a = a₂.apply s label id node.kind := by
  rw [Tree.postorder_binary h hchildren, foldlM_append_ok h₁, foldlM_append_ok h₂,
    foldlM_singleton h]

/-- A subtree adds the vertices of its term and one fragment. -/
theorem Holds.visits (label : Nat) (ha : a.Holds slots stack) (hr : t.Reads id e) (hb : e.IsBasic)
    (hh : t.HeightLE n id) (he : e.Encodable s) :
    ∃ a', (t.postorder n id).foldlM (visit s label t) a = .ok a' ∧ a'.Holds
      (slots ++ e.slots s slots.length) (.ofTerm s e slots.length id :: stack) := by
  induction hr generalizing n a slots stack with
  | @leaf id l h =>
    obtain ⟨n,rfl,-⟩ := hh.exists_succ h
    obtain ⟨a₁,h₁,ha₁⟩ := ha.apply_leaf he label id
    refine ⟨a₁,?_,ha₁⟩
    rw [Tree.postorder_leaf h (Node.children_leaf l), foldlM_singleton h, h₁]
  | @alternation id l r e₁ e₂ h hl hr ihl ihr =>
    obtain ⟨n,rfl,hc⟩ := hh.exists_succ h
    cases hb with
    | alternation hb₁ hb₂ =>
      obtain ⟨a₁,h₁,ha₁⟩ := ihl ha hb₁ (hc l (by simp)) he.1
      obtain ⟨a₂,h₂,ha₂⟩ := ihr ha₁ hb₂ (hc r (by simp)) he.2
      rw [List.length_append, Term.length_slots] at ha₂
      obtain ⟨a₃,h₃,ha₃⟩ := ha₂.alternate id
      exact ⟨a₃,(foldlM_binary h (Node.children_alternation l r) h₁ h₂).trans h₃,ha₃⟩
  | @concatenation id l r e₁ e₂ h hl hr ihl ihr =>
    obtain ⟨n,rfl,hc⟩ := hh.exists_succ h
    cases hb with
    | concatenation hb₁ hb₂ =>
      obtain ⟨a₁,h₁,ha₁⟩ := ihl ha hb₁ (hc l (by simp)) he.1
      obtain ⟨a₂,h₂,ha₂⟩ := ihr ha₁ hb₂ (hc r (by simp)) he.2
      rw [List.length_append, Term.length_slots] at ha₂
      obtain ⟨a₃,h₃,ha₃⟩ := ha₂.concatenate he.2 id
      exact ⟨a₃,(foldlM_binary h (Node.children_concatenation l r) h₁ h₂).trans h₃,ha₃⟩
  | @repetition id c e min max greedy h hc' ih =>
    obtain ⟨n,rfl,hc⟩ := hh.exists_succ h
    obtain ⟨a₁,h₁,ha₁⟩ := ih ha hb.operand (hc c (by simp)) he
    obtain ⟨a₂,h₂,ha₂⟩ := ha₁.repetition he hb id
    refine ⟨a₂,?_,ha₂⟩
    rw [Tree.postorder_unary h (Node.children_repetition c min max greedy), foldlM_append_ok h₁,
      foldlM_singleton h]
    exact h₂

theorem findSome_append_none {xs ys : List NodeId} :
    (xs ++ ys).findSome? (t.unencodable? s) = none ↔
      xs.findSome? (t.unencodable? s) = none ∧ ys.findSome? (t.unencodable? s) = none := by
  rw [List.findSome?_append, Option.or_eq_none_iff]

/-- Every literal on the way can be represented just if every literal of the term can. -/
theorem findSome_unencodable (hr : t.Reads id e) (hh : t.HeightLE n id) :
    (t.postorder n id).findSome? (t.unencodable? s) = none ↔ e.Encodable s := by
  induction hr generalizing n with
  | @leaf id l h =>
    obtain ⟨n,rfl,-⟩ := hh.exists_succ h
    rw [Tree.postorder_leaf h (Node.children_leaf l)]
    cases l <;> simp [Tree.unencodable?, h, Leaf.node, Term.Encodable, Leaf.transitions]
  | @alternation id l r e₁ e₂ h hl hr ihl ihr =>
    obtain ⟨n,rfl,hc⟩ := hh.exists_succ h
    rw [Tree.postorder_binary h (Node.children_alternation l r), findSome_append_none,
      findSome_append_none, ihl (hc l (by simp)), ihr (hc r (by simp))]
    simp [Tree.unencodable?, h, Node.alternation, Term.Encodable]
  | @concatenation id l r e₁ e₂ h hl hr ihl ihr =>
    obtain ⟨n,rfl,hc⟩ := hh.exists_succ h
    rw [Tree.postorder_binary h (Node.children_concatenation l r), findSome_append_none,
      findSome_append_none, ihl (hc l (by simp)), ihr (hc r (by simp))]
    simp [Tree.unencodable?, h, Node.concatenation, Term.Encodable]
  | @repetition id c e min max greedy h hc' ih =>
    obtain ⟨n,rfl,hc⟩ := hh.exists_succ h
    rw [Tree.postorder_unary h (Node.children_repetition c min max greedy), findSome_append_none,
      ih (hc c (by simp))]
    simp [Tree.unencodable?, h, Node.repetition, Term.Encodable]

/-- The run over these nodes ends at the first literal that cannot be represented. -/
def Stops (s : BuilderSettings) (label : Nat) (t : Tree) (a : Assembly) (ids : List NodeId) :
    Prop :=
  ∀ codePoint node, ids.findSome? (t.unencodable? s) = some (codePoint,node) →
    ids.foldlM (visit s label t) a = .error (.rejected (.unencodableLiteral codePoint node))

theorem stops_operator {node : Node} (h : t.get? id = some node)
    (hkind : ∀ codePoint, node.kind ≠ .literal codePoint) : Stops s label t a [id] := by
  intro codePoint other hfind
  rcases node with ⟨kind,left,right⟩
  cases kind with
  | literal codePoint => exact absurd rfl (hkind codePoint)
  | _ => simp [Tree.unencodable?, h] at hfind

theorem Stops.append {xs ys : List NodeId} (hx : Stops s label t a xs)
    (hy : xs.findSome? (t.unencodable? s) = none →
      ∃ a', xs.foldlM (visit s label t) a = .ok a' ∧ Stops s label t a' ys) :
    Stops s label t a (xs ++ ys) := by
  intro codePoint node hfind
  rw [List.findSome?_append] at hfind
  cases hfx : xs.findSome? (t.unencodable? s) with
  | some p =>
    rw [hfx, Option.some_or] at hfind
    exact foldlM_append_error (hx codePoint node (hfx.trans hfind))
  | none =>
    obtain ⟨a',ha',hstops⟩ := hy hfx
    rw [hfx, Option.none_or] at hfind
    rw [foldlM_append_ok ha']
    exact hstops codePoint node hfind

/-- An operand is only entered if all before it could be represented. -/
theorem Holds.stops_binary {e₁ e₂ : Term} {node : Node} (ha : a.Holds slots stack)
    (h : t.get? id = some node) (hkind : ∀ codePoint, node.kind ≠ .literal codePoint)
    (hchildren : node.children = [l,r]) (hc : ∀ c ∈ node.children, t.HeightLE n c)
    (hl : t.Reads l e₁) (hr : t.Reads r e₂) (hb₁ : e₁.IsBasic) (hb₂ : e₂.IsBasic)
    (hsl : t.HeightLE n l → Stops s label t a (t.postorder n l))
    (hsr : ∀ {a₁ : Assembly} {slots₁ stack₁}, a₁.Holds slots₁ stack₁ → t.HeightLE n r →
      Stops s label t a₁ (t.postorder n r)) :
    Stops s label t a (t.postorder (n + 1) id) := by
  have hcl := hc l (by simp [hchildren])
  have hcr := hc r (by simp [hchildren])
  rw [Tree.postorder_binary h hchildren]
  refine (hsl hcl).append fun hfl => ?_
  obtain ⟨a₁,h₁,ha₁⟩ := Holds.visits label ha hl hb₁ hcl ((findSome_unencodable hl hcl).mp hfl)
  refine ⟨a₁,h₁,(hsr ha₁ hcr).append fun hfr => ?_⟩
  obtain ⟨a₂,h₂,-⟩ := Holds.visits label ha₁ hr hb₂ hcr ((findSome_unencodable hr hcr).mp hfr)
  exact ⟨a₂,h₂,stops_operator h hkind⟩

theorem Holds.stops (ha : a.Holds slots stack) (hr : t.Reads id e) (hb : e.IsBasic)
    (hh : t.HeightLE n id) : Stops s label t a (t.postorder n id) := by
  induction hr generalizing n a slots stack with
  | @leaf id l h =>
    obtain ⟨n,rfl,-⟩ := hh.exists_succ h
    rw [Tree.postorder_leaf h (Node.children_leaf l)]
    cases l with
    | literal codePoint =>
      intro codePoint' node hfind
      have hnone : s.encoding.encode codePoint = none ∧ codePoint = codePoint' ∧ id = node := by
        simpa [Tree.unencodable?, h, Leaf.node] using hfind
      obtain ⟨hnone,rfl,rfl⟩ := hnone
      rw [foldlM_singleton h]
      simp [Leaf.node, apply, literal, spell, hnone]
    | dot => exact stops_operator h (by simp [Leaf.node])
    | charClass set => exact stops_operator h (by simp [Leaf.node])
  | @alternation id l r e₁ e₂ h hl hr ihl ihr =>
    obtain ⟨n,rfl,hc⟩ := hh.exists_succ h
    cases hb with
    | alternation hb₁ hb₂ =>
      exact ha.stops_binary h (by simp [Node.alternation]) (Node.children_alternation l r) hc hl hr
        hb₁ hb₂ (ihl ha hb₁) fun ha₁ => ihr ha₁ hb₂
  | @concatenation id l r e₁ e₂ h hl hr ihl ihr =>
    obtain ⟨n,rfl,hc⟩ := hh.exists_succ h
    cases hb with
    | concatenation hb₁ hb₂ =>
      exact ha.stops_binary h (by simp [Node.concatenation]) (Node.children_concatenation l r) hc hl
        hr hb₁ hb₂ (ihl ha hb₁) fun ha₁ => ihr ha₁ hb₂
  | @repetition id c e min max greedy h hc' ih =>
    obtain ⟨n,rfl,hc⟩ := hh.exists_succ h
    have hcc := hc c (by simp)
    rw [Tree.postorder_unary h (Node.children_repetition c min max greedy)]
    refine (ih ha hb.operand hcc).append fun hfc => ?_
    obtain ⟨a₁,h₁,-⟩ := Holds.visits label ha hc' hb.operand hcc
      ((findSome_unencodable hc' hcc).mp hfc)
    exact ⟨a₁,h₁,stops_operator h (by simp [Node.repetition])⟩

end Assembly
end ByteAutomata
