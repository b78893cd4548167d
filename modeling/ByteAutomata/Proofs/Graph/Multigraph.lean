import ByteAutomata.Proofs.Graph.Neighbours

/-! # Plain multigraphs

A multigraph whose vertices have two lists each, one for their successors and one for their
predecessors, with the changes that a graph knows. An edge is entered at both of its ends, so it
occurs there equally often. -/
namespace ByteAutomata

inductive Change where
  | addVertex
  | addEdge (source target : Vertex)
  | addEdgeAt (source target : Vertex) (pos : Nat)
  | setTransition (v : Vertex) (t : Transition)
  /-- Changes the transition of a vertex, if it has any. -/
  | editTransition (v : Vertex) (f : Transition → Transition)
  | clear

/-- An ordered multigraph whose vertices are numbered from zero. -/
@[ext]
structure Multigraph where
  size : Nat := 0
  label : Vertex → Option Transition := fun _ => none
  neighbours : Side → Vertex → List Vertex := fun _ _ => []

namespace Multigraph
variable {m m' : Multigraph} {s : Side} {v w : Vertex}

def outs (m : Multigraph) (v : Vertex) : List Vertex := m.neighbours .outgoing v

def ins (m : Multigraph) (v : Vertex) : List Vertex := m.neighbours .incoming v

/-- What is asked of a vertex, which has to be there. -/
def ask {α : Type} (m : Multigraph) (v : Vertex) (answer : α) : Except Fault α :=
  if v < m.size then .ok answer else .error (.missingVertex v)

def nth (list : List Vertex) (i : Nat) : Except Fault Vertex :=
  match list[i]? with
  | some w => .ok w
  | none => .error (.badPosition i)

def setList (m : Multigraph) (s : Side) (v : Vertex) (list : List Vertex) : Multigraph :=
  { m with neighbours := fun s' u => if s' = s ∧ u = v then list else m.neighbours s' u }

def setLabel (m : Multigraph) (v : Vertex) (label : Option Transition) : Multigraph :=
  { m with label := fun u => if u = v then label else m.label u }

/-- Puts `w` into a list of `v`, in front of the members from position `pos` on. -/
def insertAt (m : Multigraph) (s : Side) (v pos w : Nat) : Except Fault Multigraph := do
  let list ← m.ask v (m.neighbours s v)
  if list.length < pos then throw (.badPosition pos)
  return m.setList s v (list.insertIdx pos w)

/-- Puts `target` among the successors of `source`, and `source` behind the predecessors of
`target`. -/
def addEdgeAt (m : Multigraph) (source target pos : Nat) : Except Fault Multigraph := do
  let m ← m.insertAt .outgoing source pos target
  let ins ← m.ask target (m.ins target)
  return m.setList .incoming target (ins ++ [source])

def apply (m : Multigraph) : Change → Except Fault Multigraph
  | .addVertex => .ok { m with size := m.size + 1 }
  | .addEdge source target => do
    m.addEdgeAt source target (← m.ask source (m.outs source).length)
  | .addEdgeAt source target pos => m.addEdgeAt source target pos
  | .setTransition v t => m.ask v (m.setLabel v (some t))
  | .editTransition v f => m.ask v (m.setLabel v ((m.label v).map f))
  | .clear => .ok {}

def after (changes : List Change) : Except Fault Multigraph := changes.foldlM apply {}

theorem insertAt_length (m : Multigraph) (v w : Vertex) :
    m.insertAt .incoming v (m.ins v).length w = (do
      let ins ← m.ask v (m.ins v)
      return m.setList .incoming v (ins ++ [w])) := by
  by_cases hv : v < m.size
  · simp [insertAt, ask, ins, hv, List.insertIdx_length_self]
    rfl
  · simp [insertAt, ask, ins, hv]

section Edges
variable {t pos : Nat}

/-- An edge needs both vertices, and a position that is not behind the end. -/
theorem addEdgeAt_eq_ok (hv : v < m.size) (hw : w < m.size) (hpos : pos ≤ (m.outs v).length) :
    m.addEdgeAt v w pos = .ok ((m.setList .outgoing v ((m.outs v).insertIdx pos w)).setList
      .incoming w (m.ins w ++ [v])) := by
  have hpos' : ¬ (m.neighbours .outgoing v).length < pos := Nat.not_lt.mpr hpos
  simp [addEdgeAt, insertAt, ask, hv, hpos', setList, hw, ins, outs]

theorem addEdgeAt_eq_error (h : m.size ≤ v ∨ m.size ≤ w ∨ (m.outs v).length < pos) :
    ∃ fault, m.addEdgeAt v w pos = .error fault := by
  by_cases hv : v < m.size
  · by_cases hpos : (m.neighbours .outgoing v).length < pos
    · exact ⟨.badPosition pos,by simp [addEdgeAt, insertAt, ask, hv, hpos]; rfl⟩
    · have hw : ¬ w < m.size := by
        rcases h with h | h | h
        · exact absurd hv (Nat.not_lt.mpr h)
        · exact Nat.not_lt.mpr h
        · exact absurd h hpos
      exact ⟨.missingVertex w,by simp [addEdgeAt, insertAt, ask, hv, hpos, setList, hw]⟩
  · exact ⟨.missingVertex v,by simp [addEdgeAt, insertAt, ask, hv]⟩

theorem addEdgeAt_bounds (h : m.addEdgeAt v w pos = .ok m') :
    v < m.size ∧ w < m.size ∧ pos ≤ (m.outs v).length := by
  have hbounds : ¬ (m.size ≤ v ∨ m.size ≤ w ∨ (m.outs v).length < pos) := by
    intro hbad
    obtain ⟨fault,hfault⟩ := addEdgeAt_eq_error hbad
    rw [hfault] at h
    cases h
  simpa only [not_or, Nat.not_le, Nat.not_lt] using hbounds

/-- Every edge is entered at both of its ends. -/
def Balanced (m : Multigraph) : Prop := ∀ v w, (m.outs v).count w = (m.ins w).count v

theorem outs_setList (outs ins : List Vertex) (a : Vertex) :
    ((m.setList .outgoing v outs).setList .incoming w ins).outs a =
      if a = v then outs else m.outs a := by
  simp [Multigraph.outs, setList]

theorem ins_setList (outs ins : List Vertex) (b : Vertex) :
    ((m.setList .outgoing v outs).setList .incoming w ins).ins b =
      if b = w then ins else m.ins b := by
  simp [Multigraph.ins, setList]

theorem Balanced.insert (hm : m.Balanced) (hpos : pos ≤ (m.outs v).length) :
    ((m.setList .outgoing v ((m.outs v).insertIdx pos w)).setList
      .incoming w (m.ins w ++ [v])).Balanced := by
  intro a b
  have hnew := (List.perm_insertIdx w (m.outs v) hpos).count_eq b
  have hab := hm a b
  rw [outs_setList, ins_setList]
  by_cases ha : a = v
  · subst ha
    by_cases hb : b = w
    · subst hb
      rw [if_pos rfl, if_pos rfl, hnew, List.count_cons_self, List.count_append, hab]
      simp
    · rw [if_pos rfl, if_neg hb, hnew, List.count_cons_of_ne (Ne.symm hb), hab]
  · by_cases hb : b = w
    · subst hb
      rw [if_neg ha, if_pos rfl, hab]
      simp [Ne.symm ha]
    · rw [if_neg ha, if_neg hb, hab]

theorem Balanced.addEdgeAt (hm : m.Balanced) (v w pos : Nat) :
    EndsBy (fun _ => True) Balanced (m.addEdgeAt v w pos) := by
  by_cases h : m.size ≤ v ∨ m.size ≤ w ∨ (m.outs v).length < pos
  · obtain ⟨fault,hfault⟩ := addEdgeAt_eq_error h
    exact hfault ▸ .error trivial
  · simp only [not_or, Nat.not_le, Nat.not_lt] at h
    obtain ⟨hv,hw,hpos⟩ := h
    exact addEdgeAt_eq_ok hv hw hpos ▸ .ok (hm.insert hpos)

theorem endsBy_ask {α : Type} {P : α → Prop} {x : α} (hx : P x) :
    EndsBy (fun _ => True) P (m.ask v x) := by
  rw [ask]
  split
  · exact .ok hx
  · exact .error trivial

theorem Balanced.apply (hm : m.Balanced) (c : Change) :
    EndsBy (fun _ => True) Balanced (m.apply c) := by
  cases c with
  | addVertex => exact .ok hm
  | addEdge v w => exact (endsBy_ask (P := fun _ => True) trivial).bind fun n _ => hm.addEdgeAt v w n
  | addEdgeAt v w pos => exact hm.addEdgeAt v w pos
  | setTransition v t => exact endsBy_ask hm
  | editTransition v f => exact endsBy_ask hm
  | clear => exact .ok fun _ _ => rfl

theorem balanced_after {changes : List Change} (h : after changes = .ok m) : m.Balanced := by
  have hrun : EndsBy (fun _ => True) Balanced (after changes) :=
    EndsBy.foldlM (fun _ _ => rfl) fun m hm c _ => hm.apply c
  exact (h ▸ hrun).of_ok

end Edges

end Multigraph

end ByteAutomata
