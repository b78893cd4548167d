import ByteAutomata.Proofs.Graph.Multigraph

/-! # Graphs as plain multigraphs

A graph behaves as if each vertex had two lists of its own. All changes of a graph are changes of
these lists and of the conditions, and they fail together, so a graph that has been made by any
changes shows its lists in every answer. No list of the pool is wasted or shared. -/
namespace ByteAutomata

theorem Adjacency.get?_eq (pool : ListPool) (a : Adjacency) (i : Nat) :
    a.get? pool i = (a.toList pool)[i]? := by
  cases a with
  | zero => rfl
  | one v => cases i <;> simp [get?, toList]
  | many index =>
    cases h : pool[index]? with
    | none => simp [get?, toList, h]
    | some list => simp [get?, toList, h]

/-- A position behind the end of the list is refused. -/
theorem Adjacency.insert_eq_error {pool : ListPool} {a : Adjacency} {pos : Nat} (v : Vertex)
    (hpos : (a.toList pool).length < pos) : a.insert pool pos v = .error (.badPosition pos) := by
  cases a with
  | zero =>
    have hne : pos ≠ 0 := by simpa [toList, Nat.pos_iff_ne_zero] using hpos
    exact if_neg hne
  | one w =>
    have hlt : 1 < pos := by simpa [toList] using hpos
    rw [insert, if_neg (by omega), if_neg (by omega)]
  | many index =>
    rw [length_toList] at hpos
    exact if_neg (Nat.not_le.mpr hpos)

/-- The second neighbour needs a new list, and later ones go into that list. -/
theorem Adjacency.insert_cases {pool pool' : ListPool} {a a' : Adjacency} {pos : Nat} {v : Vertex}
    (h : a.insert pool pos v = .ok (a',pool')) :
    ((∀ i, a ≠ many i) ∧ (∀ i, a' ≠ many i) ∧ pool' = pool) ∨
    ((∀ i, a ≠ many i) ∧ a' = many pool.size ∧
      ∃ list : Array Vertex, list.size = 2 ∧ pool' = pool.push list) ∨
    ∃ index, a = many index ∧ a' = many index ∧
      pool' = pool.modify index fun list => list.insertIdxIfInBounds pos v := by
  cases a with
  | zero =>
    simp only [insert] at h
    split at h <;> cases h
    exact Or.inl ⟨by simp,by simp,rfl⟩
  | one w =>
    simp only [insert] at h
    split at h
    · cases h
      exact Or.inr (Or.inl ⟨by simp,rfl,_,rfl,rfl⟩)
    · split at h <;> cases h
      exact Or.inr (Or.inl ⟨by simp,rfl,_,rfl,rfl⟩)
  | many index =>
    simp only [insert] at h
    split at h <;> cases h
    exact Or.inr (Or.inr ⟨index,rfl,rfl,rfl⟩)

/-- A list keeps its own entry of the pool, a new entry is its own, and no entry is short. -/
theorem Adjacency.insert_entries {pool pool' : ListPool} {a a' : Adjacency} {pos : Nat} {v : Vertex}
    (h : a.insert pool pos v = .ok (a',pool'))
    (hlong : ∀ (i : Nat) (list : Array Vertex), pool[i]? = some list → 2 ≤ list.size) :
    (∀ i, a = many i → a' = many i) ∧ (∀ i, pool.size ≤ i → i < pool'.size → a' = many i) ∧
      ∀ (i : Nat) (list : Array Vertex), pool'[i]? = some list → 2 ≤ list.size := by
  obtain ⟨hne,-,rfl⟩ | ⟨hne,rfl,new,hnew,rfl⟩ | ⟨index,rfl,rfl,rfl⟩ := insert_cases h
  · exact ⟨fun i hi => absurd hi (hne i),fun i hle hlt => absurd hlt (Nat.not_lt.mpr hle),hlong⟩
  · refine ⟨fun i hi => absurd hi (hne i),fun i hle hlt => ?_,fun i list hi => ?_⟩
    · rw [Array.size_push] at hlt
      rw [show i = pool.size by omega]
    · rw [Array.getElem?_push] at hi
      split at hi
      · cases hi
        exact Nat.le_of_eq hnew.symm
      · exact hlong i list hi
  · refine ⟨fun i hi => hi,fun i hle hlt => ?_,fun i list hi => ?_⟩
    · rw [Array.size_modify] at hlt
      exact absurd hlt (Nat.not_lt.mpr hle)
    · rw [Array.getElem?_modify] at hi
      split at hi
      · obtain ⟨old,hold,rfl⟩ := Option.map_eq_some_iff.mp hi
        refine Nat.le_trans (hlong _ old hold) ?_
        rw [Array.insertIdxIfInBounds]
        split <;> simp
      · exact hlong i list hi

namespace Graph
variable {g g' : Graph} {s : Side} {v w : Vertex} {pos : Nat}

def ins (g : Graph) (v : Vertex) : List Vertex := g.neighbours .incoming v

/-- The lists and conditions of a graph, wherever they are kept. -/
def view (g : Graph) : Multigraph := ⟨g.size,g.label,g.neighbours⟩

def apply (g : Graph) : Change → Except Fault Graph
  | .addVertex => .ok g.addVertex
  | .addEdge source target => g.addEdge source target
  | .addEdgeAt source target pos => g.addEdgeAt source target pos
  | .setTransition v t => g.setTransition v t
  | .editTransition v f => g.modifyTransition v (Option.map f)
  | .clear => .ok empty

/-- The graph that the changes make out of nothing. -/
def after (changes : List Change) : Except Fault Graph := changes.foldlM apply empty

/-- Every answer of the graph is read off the lists and conditions of `m`. -/
structure Presents (g : Graph) (m : Multigraph) : Prop where
  size : g.size = m.size
  transition : ∀ v, g.transition v = m.ask v (m.label v)
  successors : ∀ v, g.successors v = m.ask v (m.outs v)
  predecessors : ∀ v, g.predecessors v = m.ask v (m.ins v)
  outDegree : ∀ v, g.outDegree v = m.ask v (m.outs v).length
  inDegree : ∀ v, g.inDegree v = m.ask v (m.ins v).length
  successor : ∀ v i, g.successor v i = do Multigraph.nth (← m.ask v (m.outs v)) i
  predecessor : ∀ v i, g.predecessor v i = do Multigraph.nth (← m.ask v (m.ins v)) i
  hasEdge : ∀ v w, g.hasEdge v w = m.ask v ((m.outs v).contains w)

/-- Every list of the pool serves exactly one vertex on one side, and is too long to be stored
there. -/
structure Tight (g : Graph) : Prop extends g.Sound where
  owned : ∀ i, i < g.lists.size → ∃ s v, g.adjacency s v = .many i
  long : ∀ (i : Nat) (list : Array Vertex), g.lists[i]? = some list → 2 ≤ list.size

section Answers

theorem vertex_eq_error (hv : g.size ≤ v) : g.vertex v = .error (.missingVertex v) := by
  simp [vertex, Array.getElem?_eq_none hv]

/-- What is computed from a vertex is asked of it, if the lists give the same. -/
theorem vertex_bind {α β : Type} {f : VertexData → Except Fault β} {x : α}
    {k : α → Except Fault β} (h : ∀ hv : v < g.size, f g.vertices[v] = k x) :
    (g.vertex v >>= f) = (g.view.ask v x >>= k) := by
  rw [Multigraph.ask]
  split
  · rename_i hv
    rw [vertex_eq_ok hv, ok_bind, ok_bind]
    exact h hv
  · rename_i hv
    rw [vertex_eq_error (Nat.le_of_not_lt hv), error_bind, error_bind]

theorem vertex_map {α : Type} {f : VertexData → α} {x : α}
    (h : ∀ hv : v < g.size, f g.vertices[v] = x) :
    (do return f (← g.vertex v)) = g.view.ask v x :=
  (vertex_bind fun hv => by rw [h hv]).trans (bind_pure _)

theorem toList_vertex (hv : v < g.size) (s : Side) :
    ((g.vertices[v]).side s).toList g.lists = g.neighbours s v := by
  rw [neighbours, adjacency_eq hv]

theorem degree_vertex (hv : v < g.size) (s : Side) :
    ((g.vertices[v]).side s).degree g.lists = (g.neighbours s v).length := by
  rw [← toList_vertex hv, Adjacency.length_toList]

theorem nth_vertex (hv : v < g.size) (s : Side) (i : Nat) :
    (match ((g.vertices[v]).side s).get? g.lists i with
      | some w => pure w
      | none => throw (.badPosition i)) = Multigraph.nth (g.neighbours s v) i := by
  rw [Adjacency.get?_eq, toList_vertex hv]
  rfl

/-- A graph answers every question from its view. -/
theorem presents (g : Graph) : g.Presents g.view where
  size := rfl
  transition v := vertex_map fun hv => by
    change _ = g.label v
    rw [label, Array.getElem?_eq_getElem hv]
    rfl
  successors v := vertex_map fun hv => toList_vertex hv .outgoing
  predecessors v := vertex_map fun hv => toList_vertex hv .incoming
  outDegree v := vertex_map fun hv => degree_vertex hv .outgoing
  inDegree v := vertex_map fun hv => degree_vertex hv .incoming
  successor v i := vertex_bind fun hv => nth_vertex hv .outgoing i
  predecessor v i := vertex_bind fun hv => nth_vertex hv .incoming i
  hasEdge v w := by
    simp only [hasEdge, Graph.successors, bind_assoc, pure_bind]
    exact vertex_map fun hv => congrArg (·.contains w) (toList_vertex hv .outgoing)

end Answers

section Changes

/-- A change of a graph that comes out as the one of the lists. -/
inductive Mirrors : Except Fault Graph → Except Fault Multigraph → Prop where
  | error (fault : Fault) : Mirrors (.error fault) (.error fault)
  | ok {g : Graph} (hg : g.Tight) : Mirrors (.ok g) (.ok g.view)

theorem Mirrors.bind {x : Except Fault Graph} {y : Except Fault Multigraph}
    {f : Graph → Except Fault Graph} {k : Multigraph → Except Fault Multigraph} (hx : Mirrors x y)
    (hf : ∀ g, g.Tight → Mirrors (f g) (k g.view)) : Mirrors (x >>= f) (y >>= k) := by
  cases hx with
  | error fault => exact .error fault
  | ok hg => exact hf _ hg

theorem Mirrors.ask {α : Type} {f : VertexData → Except Fault Graph} {x : α}
    {k : α → Except Fault Multigraph} (h : ∀ hv : v < g.size, Mirrors (f g.vertices[v]) (k x)) :
    Mirrors (g.vertex v >>= f) (g.view.ask v x >>= k) := by
  rw [Multigraph.ask]
  split
  · rename_i hv
    rw [vertex_eq_ok hv]
    exact h hv
  · rename_i hv
    rw [vertex_eq_error (Nat.le_of_not_lt hv)]
    exact .error _

theorem Tight.withList (hg : g.Tight) (hv : v < g.size) {a : Adjacency} {pool : ListPool}
    (hpos : pos ≤ (g.neighbours s v).length)
    (h : (g.adjacency s v).insert g.lists pos w = .ok (a,pool)) :
    (g.withList s v a pool).Tight := by
  have hsound : (g.withList s v a pool).Sound := by
    obtain ⟨a',pool',h',-,hsize,hfresh,-⟩ :=
      Adjacency.insert_spec w hpos (fun i => hg.inPool s v i)
    obtain ⟨rfl,rfl⟩ : a' = a ∧ pool' = pool := by simpa using h'.symm.trans h
    exact hg.toSound.withList hv hsize hfresh
  have hself : (g.withList s v a pool).adjacency s v = a := by
    rw [adjacency_withList hv, if_pos ⟨rfl,rfl⟩]
  obtain ⟨hkept,hnew,hlong⟩ := Adjacency.insert_entries h hg.long
  refine ⟨hsound,fun i hi => ?_,hlong⟩
  by_cases hi' : i < g.lists.size
  · obtain ⟨s',u,hu⟩ := hg.owned i hi'
    by_cases hsame : s' = s ∧ u = v
    · obtain ⟨rfl,rfl⟩ := hsame
      exact ⟨s',u,hself.trans (hkept i hu)⟩
    · exact ⟨s',u,by rw [adjacency_withList hv, if_neg hsame, hu]⟩
  · exact ⟨s,v,hself.trans (hnew i (Nat.le_of_not_lt hi') hi)⟩

/-- A member is put into one neighbour list, if the list is there and long enough. -/
theorem Tight.insertNeighbour (hg : g.Tight) (s : Side) (v pos w : Nat) :
    Mirrors (g.insertNeighbour s v pos w) (g.view.insertAt s v pos w) := by
  refine Mirrors.ask fun hv => ?_
  rw [← adjacency_eq hv]
  split
  · rename_i hpos
    rw [Adjacency.insert_eq_error w hpos]
    exact .error _
  · rename_i hpos
    have hpos := Nat.le_of_not_lt hpos
    obtain ⟨g',h,-,hsize,hlabel,hlist⟩ := hg.toSound.insertNeighbour hv hpos w
    rw [Graph.insertNeighbour, vertex_eq_ok hv, ok_bind, ← adjacency_eq hv] at h
    obtain ⟨⟨a,pool⟩,hinsert,⟨⟩⟩ := bind_eq_ok.mp h
    have hview : (g.withList s v a pool).view =
        g.view.setList s v ((g.neighbours s v).insertIdx pos w) :=
      Multigraph.ext hsize (funext hlabel) (funext fun s' => funext (hlist s'))
    rw [hinsert]
    exact hview ▸ Mirrors.ok (hg.withList hv hpos hinsert)

theorem Tight.addEdgeAt (hg : g.Tight) (source target pos : Nat) :
    Mirrors (g.addEdgeAt source target pos) (g.view.addEdgeAt source target pos) := by
  rw [addEdgeAt_eq]
  refine (hg.insertNeighbour .outgoing source pos target).bind fun g' hg' => ?_
  rw [← Multigraph.insertAt_length]
  exact hg'.insertNeighbour .incoming target _ source

theorem Tight.addEdge (hg : g.Tight) (source target : Nat) :
    Mirrors (g.addEdge source target) (g.view.apply (.addEdge source target)) := by
  refine Mirrors.ask fun hv => ?_
  have hlength := degree_vertex hv .outgoing
  change Mirrors (g.addEdgeAt source target (((g.vertices[source]).side .outgoing).degree g.lists)) _
  rw [hlength]
  exact hg.addEdgeAt source target _

/-- Without changes of the neighbour lists the pool stays as it is. -/
theorem Tight.of_adjacency (hg : g.Tight) (hlists : g'.lists = g.lists)
    (hadjacency : ∀ s u, g'.adjacency s u = g.adjacency s u) : g'.Tight where
  toSound := hg.toSound.of_adjacency hlists hadjacency
  owned i hi := by
    obtain ⟨s,u,hu⟩ := hg.owned i (hlists ▸ hi)
    exact ⟨s,u,(hadjacency s u).trans hu⟩
  long i list hlist := hg.long i list (hlists ▸ hlist)

theorem Tight.modifyTransition (hg : g.Tight) (v : Vertex)
    (f : Option Transition → Option Transition) : Mirrors (g.modifyTransition v f)
      (g.view.ask v (g.view.setLabel v (f (g.label v)))) := by
  rw [← bind_pure (g.view.ask v _)]
  refine Mirrors.ask fun hv => ?_
  have hview : (g.withLabel v f).view = g.view.setLabel v (f (g.label v)) :=
    Multigraph.ext (by simp [withLabel, size, view, Multigraph.setLabel])
      (funext (label_withLabel hv f))
      (neighbours_of_adjacency (g := g) rfl (adjacency_withLabel f))
  exact hview ▸ Mirrors.ok (hg.of_adjacency rfl (adjacency_withLabel f))

theorem adjacency_addVertex (s : Side) (u : Vertex) :
    g.addVertex.adjacency s u = g.adjacency s u := by
  simp only [adjacency, addVertex, Array.getElem?_push]
  split
  · rename_i hu
    rw [hu, Array.getElem?_eq_none (Nat.le_refl _)]
    cases s <;> rfl
  · rfl

theorem label_addVertex (u : Vertex) : g.addVertex.label u = g.label u := by
  simp only [label, addVertex, Array.getElem?_push]
  split
  · rename_i hu
    rw [hu, Array.getElem?_eq_none (Nat.le_refl _)]
    rfl
  · rfl

theorem Tight.addVertex (hg : g.Tight) : Mirrors (.ok g.addVertex) (g.view.apply .addVertex) := by
  have hview : g.addVertex.view = { g.view with size := g.size + 1 } :=
    Multigraph.ext (by simp [Graph.addVertex, size, view]) (funext label_addVertex)
      (neighbours_of_adjacency (g := g) rfl adjacency_addVertex)
  rw [Multigraph.apply, show g.view.size = g.size from rfl, ← hview]
  exact Mirrors.ok (hg.of_adjacency rfl adjacency_addVertex)

theorem tight_empty : empty.Tight where
  inPool s v i h := by cases h
  unshared s s' v v' i h h' := by cases h
  owned i hi := by cases hi
  long i list h := by cases h

theorem Tight.apply (hg : g.Tight) (c : Change) : Mirrors (g.apply c) (g.view.apply c) := by
  cases c with
  | addVertex => exact hg.addVertex
  | addEdge source target => exact hg.addEdge source target
  | addEdgeAt source target pos => exact hg.addEdgeAt source target pos
  | setTransition v t => exact hg.modifyTransition v fun _ => some t
  | editTransition v f => exact hg.modifyTransition v (Option.map f)
  | clear => exact .ok tight_empty

theorem Tight.applyAll (hg : g.Tight) (changes : List Change) :
    Mirrors (changes.foldlM Graph.apply g) (changes.foldlM Multigraph.apply g.view) := by
  induction changes generalizing g with
  | nil => exact .ok hg
  | cons c changes ih =>
    rw [List.foldlM_cons, List.foldlM_cons]
    exact (hg.apply c).bind fun g' hg' => ih hg'

end Changes

section Runs
variable {changes : List Change}

theorem mirrors_after (changes : List Change) : Mirrors (after changes) (Multigraph.after changes) :=
  tight_empty.applyAll changes

theorem Mirrors.map_eq {x : Except Fault Graph} {y : Except Fault Multigraph} (h : Mirrors x y) :
    view <$> x = y := by
  cases h <;> rfl

theorem Mirrors.tight {y : Except Fault Multigraph} (h : Mirrors (.ok g) y) : g.Tight := by
  cases h with
  | ok hg => exact hg

theorem Mirrors.error_iff {x : Except Fault Graph} {y : Except Fault Multigraph} (h : Mirrors x y) :
    (∃ fault, x = .error fault) ↔ ∃ fault, y = .error fault := by
  cases h <;> simp

/-- An edge is refused exactly if one of its ends is missing or its place is behind the end. -/
theorem Tight.addEdgeAt_error_iff (hg : g.Tight) (v w pos : Nat) :
    (∃ fault, g.addEdgeAt v w pos = .error fault) ↔
      g.size ≤ v ∨ g.size ≤ w ∨ (g.outs v).length < pos := by
  rw [(hg.addEdgeAt v w pos).error_iff]
  refine ⟨fun ⟨fault,h⟩ => ?_,fun h => Multigraph.addEdgeAt_eq_error h⟩
  by_contra hbounds
  simp only [not_or, Nat.not_le, Nat.not_lt] at hbounds
  rw [Multigraph.addEdgeAt_eq_ok hbounds.1 hbounds.2.1 hbounds.2.2] at h
  cases h

theorem Tight.view_addEdgeAt (hg : g.Tight) {pos : Nat} (h : g.addEdgeAt v w pos = .ok g') :
    g'.view = (g.view.setList .outgoing v ((g.outs v).insertIdx pos w)).setList
      .incoming w (g.ins w ++ [v]) := by
  have hview := (hg.addEdgeAt v w pos).map_eq
  rw [h] at hview
  obtain ⟨hv,hw,hpos⟩ := Multigraph.addEdgeAt_bounds hview.symm
  rw [Multigraph.addEdgeAt_eq_ok hv hw hpos] at hview
  exact Except.ok.inj hview

/-- Changes of a graph are changes of a multigraph, and a graph made by them answers as one. -/
theorem after_refines_multigraph (changes : List Change) :
    view <$> after changes = Multigraph.after changes ∧ ∀ g, after changes = .ok g →
      g.Presents g.view ∧ g.Tight ∧
      (∀ v w pos g', g.addEdgeAt v w pos = .ok g' → g'.view =
        (g.view.setList .outgoing v ((g.outs v).insertIdx pos w)).setList
          .incoming w (g.ins w ++ [v])) ∧
      (∀ v w pos, (∃ fault, g.addEdgeAt v w pos = .error fault) ↔
        g.size ≤ v ∨ g.size ≤ w ∨ (g.outs v).length < pos) ∧
      ∀ v w, (g.outs v).count w = (g.ins w).count v := by
  have hmirrors := mirrors_after changes
  refine ⟨hmirrors.map_eq,fun g hg => ?_⟩
  have htight : g.Tight := (hg ▸ hmirrors).tight
  have hafter : Multigraph.after changes = .ok g.view := by
    rw [← hmirrors.map_eq, hg]
    rfl
  exact ⟨g.presents,htight,fun _ _ _ _ => htight.view_addEdgeAt,htight.addEdgeAt_error_iff,
    Multigraph.balanced_after hafter⟩

/-- A loop and two equal edges, where the lists move into the pool in the middle of the run. -/
theorem after_refines_multigraph_loops :
    ∃ g, after [.addVertex,.addVertex,.addEdge 0 0,.addEdgeAt 0 1 0,.addEdgeAt 0 1 1] = .ok g ∧
      g.outs 0 = [1,1,0] ∧ g.ins 1 = [0,0] ∧ g.lists.size = 2 ∧ g.Tight ∧
      ∀ v w, (g.outs v).count w = (g.ins w).count v := by
  have hrun : after [.addVertex,.addVertex,.addEdge 0 0,.addEdgeAt 0 1 0,.addEdgeAt 0 1 1] =
      .ok _ := rfl
  obtain ⟨-,htight,-,-,hcount⟩ := (after_refines_multigraph _).2 _ hrun
  exact ⟨_,hrun,by decide +kernel,by decide +kernel,by decide +kernel,htight,hcount⟩

end Runs

end Graph

end ByteAutomata
