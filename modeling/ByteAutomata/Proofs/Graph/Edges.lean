import ByteAutomata.Builder.Assembly
import ByteAutomata.Proofs.Graph.Neighbours

/-! # Changes of a graph

What new vertices, new edges and match marks do to the successors and the conditions of all
vertices. Edges from one vertex go side by side into its successors, from a given position on. -/
namespace ByteAutomata.Graph
variable {g g' : Graph} {v w : Vertex} {pos : Nat}

/-- The vertices of `g` with their conditions, whatever the edges are. -/
structure SameVertices (g g' : Graph) : Prop where
  sound : g'.Sound
  size : g'.size = g.size
  label : ∀ v, g'.label v = g.label v

theorem SameVertices.refl (hg : g.Sound) : g.SameVertices g := ⟨hg,rfl,fun _ => rfl⟩

theorem SameVertices.trans {h : Graph} (hg : g.SameVertices g') (hh : g'.SameVertices h) :
    g.SameVertices h :=
  ⟨hh.sound,hh.size.trans hg.size,fun v => (hh.label v).trans (hg.label v)⟩

/-- The list `ws` inside of another list, from position `pos` on. -/
def spliced (pos : Nat) (ws list : List Vertex) : List Vertex :=
  list.take pos ++ ws ++ list.drop pos

theorem spliced_insertIdx {ws list : List Vertex} (hpos : pos ≤ list.length) :
    spliced (pos + 1) ws (list.insertIdx pos w) = spliced pos (w :: ws) list := by
  induction list generalizing pos with
  | nil =>
    obtain rfl : pos = 0 := by simpa using hpos
    rfl
  | cons x list ih =>
    cases pos with
    | zero => rfl
    | succ pos =>
      have hrest := ih (Nat.le_of_succ_le_succ hpos)
      rw [spliced, spliced] at hrest ⊢
      rw [List.insertIdx_succ_cons, List.take_succ_cons, List.drop_succ_cons, List.take_succ_cons,
        List.drop_succ_cons, List.cons_append, List.cons_append, hrest]
      rfl

section Vertices

@[simp] theorem size_addLabeled (t : Transition) : (g.addLabeled t).size = g.size + 1 := by
  simp [addLabeled, size]

theorem label_addLabeled (t : Transition) (v : Vertex) :
    (g.addLabeled t).label v = if v = g.size then some t else g.label v := by
  simp only [label, addLabeled, Array.getElem?_push]
  by_cases hv : v = g.size
  · subst hv
    simp [size]
  · rw [if_neg hv, if_neg (by simpa [size] using hv)]

theorem adjacency_addLabeled (t : Transition) (s : Side) (v : Vertex) :
    (g.addLabeled t).adjacency s v = g.adjacency s v := by
  simp only [adjacency, addLabeled, Array.getElem?_push]
  by_cases hv : v = g.vertices.size
  · subst hv
    cases s <;> simp [VertexData.side]
  · rw [if_neg hv]

theorem outs_addLabeled (t : Transition) (v : Vertex) : (g.addLabeled t).outs v = g.outs v := by
  have hneighbours : (g.addLabeled t).neighbours = g.neighbours :=
    neighbours_of_adjacency rfl (adjacency_addLabeled t)
  rw [outs, outs, hneighbours]

theorem Sound.addLabeled (hg : g.Sound) (t : Transition) : (g.addLabeled t).Sound :=
  hg.of_adjacency rfl (adjacency_addLabeled t)

end Vertices

section Edges

/-- One edge changes the successors of its source only. -/
theorem Sound.addEdgeAt (hg : g.Sound) (hv : v < g.size) (hw : w < g.size)
    (hpos : pos ≤ (g.outs v).length) :
    ∃ g', g.addEdgeAt v w pos = .ok g' ∧ g.SameVertices g' ∧
      ∀ u, g'.outs u = if u = v then (g.outs v).insertIdx pos w else g.outs u := by
  obtain ⟨g₁,h₁,hsound₁,hsize₁,hlabel₁,hlist₁⟩ := hg.insertNeighbour (s := .outgoing) hv hpos w
  have hw₁ : w < g₁.size := hsize₁ ▸ hw
  obtain ⟨g₂,h₂,hsound₂,hsize₂,hlabel₂,hlist₂⟩ :=
    hsound₁.insertNeighbour (s := .incoming) hw₁ (Nat.le_refl _) v
  refine ⟨g₂,?_,⟨hsound₂,hsize₂.trans hsize₁,fun u => (hlabel₂ u).trans (hlabel₁ u)⟩,fun u => ?_⟩
  · rw [addEdgeAt_eq, h₁]
    exact h₂
  · have hside : g₂.outs u = g₁.outs u := by
      rw [outs, hlist₂, if_neg (by simp), outs]
    rw [hside, outs, hlist₁]
    by_cases hu : u = v <;> simp [hu, outs]

theorem Sound.addEdgesAt (hg : g.Sound) {ws : List Vertex} (hv : v < g.size)
    (hws : ∀ w ∈ ws, w < g.size) (hpos : pos ≤ (g.outs v).length) :
    ∃ g', g.addEdgesAt v pos ws = .ok g' ∧ g.SameVertices g' ∧
      ∀ u, g'.outs u = if u = v then spliced pos ws (g.outs v) else g.outs u := by
  induction ws generalizing g pos with
  | nil =>
    refine ⟨g,rfl,.refl hg,fun u => ?_⟩
    by_cases hu : u = v <;> simp [hu, spliced]
  | cons w ws ih =>
    obtain ⟨g₁,h₁,hsame₁,houts₁⟩ := hg.addEdgeAt hv (hws w List.mem_cons_self) hpos
    have hv₁ : v < g₁.size := hsame₁.size ▸ hv
    have hws₁ : ∀ u ∈ ws, u < g₁.size := fun u hu =>
      hsame₁.size ▸ hws u (List.mem_cons_of_mem w hu)
    have hself : g₁.outs v = (g.outs v).insertIdx pos w := by rw [houts₁, if_pos rfl]
    have hpos₁ : pos + 1 ≤ (g₁.outs v).length := by
      rw [hself, List.length_insertIdx_of_le_length hpos]
      omega
    obtain ⟨g₂,h₂,hsame₂,houts₂⟩ := ih hsame₁.sound hv₁ hws₁ hpos₁
    refine ⟨g₂,?_,hsame₁.trans hsame₂,fun u => ?_⟩
    · rw [Graph.addEdgesAt, h₁]
      exact h₂
    · rw [houts₂, hself, spliced_insertIdx hpos, houts₁]
      by_cases hu : u = v <;> simp [hu]

/-- A new last successor. -/
theorem Sound.addEdge (hg : g.Sound) (hv : v < g.size) (hw : w < g.size) :
    ∃ g', g.addEdge v w = .ok g' ∧ g.SameVertices g' ∧
      ∀ u, g'.outs u = if u = v then g.outs v ++ [w] else g.outs u := by
  obtain ⟨g',h,hsame,houts⟩ := hg.addEdgeAt hv hw (Nat.le_refl _)
  refine ⟨g',?_,hsame,fun u => ?_⟩
  · have hlength : (g.outs v).length = (g.vertices[v]).outgoing.degree g.lists := by
      rw [outs, neighbours, Adjacency.length_toList, adjacency_eq hv]
      rfl
    rw [Graph.addEdge, vertex_eq_ok hv, ok_bind, ← hlength]
    exact h
  · rw [houts, List.insertIdx_length_self]

end Edges

section Marks

/-- A mark changes the condition of one vertex, and no edges. -/
theorem Sound.mark (hg : g.Sound) (hv : v < g.size) (label : Nat) (isMatch : Bool) :
    ∃ g', g.mark v label isMatch = .ok g' ∧ g'.Sound ∧ g'.size = g.size ∧
      (∀ u, g'.outs u = g.outs u) ∧
      ∀ u, g'.label u =
        if u = v then (g.label v).map fun t => { t with label, isMatch } else g.label u := by
  let f : Option Transition → Option Transition := Option.map fun t => { t with label, isMatch }
  have hadjacency : ∀ s u, (g.withLabel v f).adjacency s u = g.adjacency s u :=
    adjacency_withLabel f
  have hneighbours : (g.withLabel v f).neighbours = g.neighbours :=
    neighbours_of_adjacency rfl hadjacency
  refine ⟨g.withLabel v f,?_,hg.of_adjacency rfl hadjacency,?_,fun u => ?_,label_withLabel hv f⟩
  · rw [Graph.mark, modifyTransition, vertex_eq_ok hv]
    rfl
  · exact Array.size_modify ..
  · rw [outs, outs, hneighbours]

end Marks

end ByteAutomata.Graph
