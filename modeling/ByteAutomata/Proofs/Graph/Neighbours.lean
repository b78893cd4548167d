import ByteAutomata.Proofs.Outcome
import ByteAutomata.Graph.Basic

/-! # Neighbour lists

A vertex has two neighbour lists, and every list of two or more vertices lies in a pool shared by
all of them. In a sound graph no pool entry serves two lists, so an edge changes one list on each
side and nothing else. -/
namespace ByteAutomata

inductive Side where
  | incoming
  | outgoing
deriving DecidableEq

namespace Adjacency

@[simp] theorem length_toList (pool : ListPool) (a : Adjacency) :
    (a.toList pool).length = a.degree pool := by
  cases a <;> simp [toList, degree]

/-- What an insertion does to the list itself, to the other lists of the pool, and to the place
where the list is kept. -/
theorem insert_spec {pool : ListPool} {a : Adjacency} {pos : Nat} (v : Vertex)
    (hpos : pos ≤ (a.toList pool).length) (hpool : ∀ i, a = many i → i < pool.size) :
    ∃ a' pool', a.insert pool pos v = .ok (a',pool') ∧
      a'.toList pool' = (a.toList pool).insertIdx pos v ∧ pool.size ≤ pool'.size ∧
      (∀ i, a' = many i → i < pool'.size ∧ (a = many i ∨ pool.size ≤ i)) ∧
      ∀ i, i < pool.size → a ≠ many i → pool'[i]? = pool[i]? := by
  cases a with
  | zero =>
    obtain rfl : pos = 0 := by simpa [toList] using hpos
    exact ⟨one v,pool,by simp [insert],by simp [toList],Nat.le_refl _,by simp,by simp⟩
  | one w =>
    have hlt : ∀ list : Array Vertex, ∀ i, i < pool.size → (pool.push list)[i]? = pool[i]? := by
      intro list i hi
      rw [Array.getElem?_push, if_neg (Nat.ne_of_lt hi)]
    obtain rfl | rfl : pos = 0 ∨ pos = 1 := by
      have h : pos ≤ 1 := by simpa [toList] using hpos
      omega
    · refine ⟨many pool.size,pool.push #[v,w],by simp [insert],?_,by simp,?_,?_⟩
      · simp [toList]
      · rintro i ⟨⟩
        exact ⟨by simp,Or.inr (Nat.le_refl _)⟩
      · exact fun i hi _ => hlt _ i hi
    · refine ⟨many pool.size,pool.push #[w,v],by simp [insert],?_,by simp,?_,?_⟩
      · simp [toList]
      · rintro i ⟨⟩
        exact ⟨by simp,Or.inr (Nat.le_refl _)⟩
      · exact fun i hi _ => hlt _ i hi
  | many index =>
    have hi := hpool index rfl
    rw [length_toList] at hpos
    refine ⟨many index,pool.modify index fun list => list.insertIdxIfInBounds pos v,
      by simp [insert, hpos],?_,by simp,?_,?_⟩
    · rcases hl : pool[index] with ⟨list⟩
      simp [toList, Array.getElem_modify, hi, hl]
    · rintro i ⟨⟩
      exact ⟨by simpa using hi,Or.inl rfl⟩
    · intro i _ hne
      have hni : index ≠ i := fun h => hne (by rw [h])
      rw [Array.getElem?_modify, if_neg hni]

/-- A list is read from its own pool entry alone. -/
theorem toList_congr {pool pool' : ListPool} {a : Adjacency}
    (h : ∀ i, a = many i → pool'[i]? = pool[i]?) : a.toList pool' = a.toList pool := by
  cases a with
  | zero => rfl
  | one v => rfl
  | many index => simp only [toList, h index rfl]

end Adjacency

namespace VertexData

def side (d : VertexData) : Side → Adjacency
  | .incoming => d.incoming
  | .outgoing => d.outgoing

def setSide (d : VertexData) (side : Side) (a : Adjacency) : VertexData :=
  match side with
  | .incoming => { d with incoming := a }
  | .outgoing => { d with outgoing := a }

theorem side_setSide (d : VertexData) (s s' : Side) (a : Adjacency) :
    (d.setSide s a).side s' = if s' = s then a else d.side s' := by
  cases s <;> cases s' <;> rfl

@[simp] theorem transition_setSide (d : VertexData) (s : Side) (a : Adjacency) :
    (d.setSide s a).transition = d.transition := by
  cases s <;> rfl

end VertexData

namespace Graph

/-- Where a neighbour list is kept; a missing vertex has none. -/
def adjacency (g : Graph) (s : Side) (v : Vertex) : Adjacency :=
  ((g.vertices[v]?).map (·.side s)).getD .zero

def neighbours (g : Graph) (s : Side) (v : Vertex) : List Vertex :=
  (g.adjacency s v).toList g.lists

/-- The successors in order. -/
def outs (g : Graph) (v : Vertex) : List Vertex := g.neighbours .outgoing v

def label (g : Graph) (v : Vertex) : Option Transition := (g.vertices[v]?).bind (·.transition)

/-- Every list in the pool serves at most one neighbour list. -/
structure Sound (g : Graph) : Prop where
  inPool : ∀ s v i, g.adjacency s v = .many i → i < g.lists.size
  unshared : ∀ s s' v v' i, g.adjacency s v = .many i → g.adjacency s' v' = .many i →
    s = s' ∧ v = v'

variable {g : Graph} {s : Side} {v w : Vertex} {pos : Nat}

theorem vertex_eq_ok (hv : v < g.size) : g.vertex v = .ok g.vertices[v] := by
  simp [vertex, Array.getElem?_eq_getElem hv]

theorem adjacency_eq (hv : v < g.size) (s : Side) : g.adjacency s v = (g.vertices[v]).side s := by
  simp [adjacency, Array.getElem?_eq_getElem hv]

theorem adjacency_of_size_le (hv : g.size ≤ v) (s : Side) : g.adjacency s v = .zero := by
  simp [adjacency, Array.getElem?_eq_none hv]

theorem neighbours_of_size_le (hv : g.size ≤ v) (s : Side) : g.neighbours s v = [] := by
  simp [neighbours, adjacency_of_size_le hv, Adjacency.toList]

theorem outs_of_size_le (hv : g.size ≤ v) : g.outs v = [] := neighbours_of_size_le hv .outgoing

theorem label_of_size_le (hv : g.size ≤ v) : g.label v = none := by
  simp [label, Array.getElem?_eq_none hv]

theorem transition_eq_ok (hv : v < g.size) : g.transition v = .ok (g.label v) := by
  simp only [transition, vertex_eq_ok hv, label, Array.getElem?_eq_getElem hv]
  rfl

theorem neighbours_of_adjacency {g' : Graph} (hlists : g'.lists = g.lists)
    (hadjacency : ∀ s u, g'.adjacency s u = g.adjacency s u) : g'.neighbours = g.neighbours :=
  funext fun s => funext fun u => by rw [neighbours, neighbours, hlists, hadjacency]

/-- Without changes of the neighbour lists the pool serves them as before. -/
theorem Sound.of_adjacency (hg : g.Sound) {g' : Graph} (hlists : g'.lists = g.lists)
    (hadjacency : ∀ s u, g'.adjacency s u = g.adjacency s u) : g'.Sound where
  inPool s u i h := by
    rw [hadjacency] at h
    exact hlists ▸ hg.inPool s u i h
  unshared s s' u u' i h h' := by
    rw [hadjacency] at h h'
    exact hg.unshared s s' u u' i h h'

/-- The graph where the condition of a vertex is another one. -/
def withLabel (g : Graph) (v : Vertex) (f : Option Transition → Option Transition) : Graph :=
  { g with vertices := g.vertices.modify v fun d => { d with transition := f d.transition } }

theorem adjacency_withLabel (f : Option Transition → Option Transition) (s : Side) (u : Vertex) :
    (g.withLabel v f).adjacency s u = g.adjacency s u := by
  simp only [withLabel, adjacency, Array.getElem?_modify]
  split
  · rw [Option.map_map]
    cases s <;> rfl
  · rfl

theorem label_withLabel (hv : v < g.size) (f : Option Transition → Option Transition)
    (u : Vertex) : (g.withLabel v f).label u = if u = v then f (g.label v) else g.label u := by
  simp only [withLabel, label, Array.getElem?_modify]
  by_cases hu : u = v
  · subst hu
    rw [if_pos rfl, if_pos rfl, Array.getElem?_eq_getElem (show u < g.vertices.size from hv)]
    rfl
  · rw [if_neg (Ne.symm hu), if_neg hu]

/-- Puts `w` into one neighbour list of `v`. -/
def insertNeighbour (g : Graph) (s : Side) (v : Vertex) (pos : Nat) (w : Vertex) :
    Except Fault Graph := do
  let data ← g.vertex v
  let (a,lists) ← (data.side s).insert g.lists pos w
  return ⟨g.vertices.modify v (·.setSide s a),lists⟩

/-- Both ends of an edge are entered in the same way. -/
theorem addEdgeAt_eq (g : Graph) (source target pos : Nat) :
    g.addEdgeAt source target pos = (do
      let g ← g.insertNeighbour .outgoing source pos target
      g.insertNeighbour .incoming target (g.neighbours .incoming target).length source) := by
  unfold addEdgeAt insertNeighbour
  simp only [bind_assoc, pure_bind]
  refine bind_congr fun data => bind_congr fun p => ?_
  set g' : Graph := ⟨g.vertices.modify source (·.setSide .outgoing p.1),p.2⟩ with hg'
  change (g'.vertex target >>= _) = _
  cases hd : g'.vertex target with
  | error e => rfl
  | ok data =>
    have hl : (g'.neighbours .incoming target).length = data.incoming.degree p.2 := by
      unfold vertex at hd
      split at hd
      · rename_i d he
        cases hd
        rw [neighbours, Adjacency.length_toList, adjacency, he]
        rfl
      · cases hd
    rw [hl]
    rfl

/-- The graph where one list of a vertex is another one, in another pool. -/
def withList (g : Graph) (s : Side) (v : Vertex) (a : Adjacency) (pool : ListPool) : Graph :=
  ⟨g.vertices.modify v (·.setSide s a),pool⟩

theorem adjacency_withList (hv : v < g.size) (a : Adjacency) (pool : ListPool) (s' : Side)
    (u : Vertex) : (g.withList s v a pool).adjacency s' u =
      if s' = s ∧ u = v then a else g.adjacency s' u := by
  by_cases hu : u = v
  · subst u
    have hv' : v < g.vertices.size := hv
    simp only [withList, adjacency, Array.getElem?_modify, Array.getElem?_eq_getElem hv']
    simp [VertexData.side_setSide]
  · simp [withList, adjacency, Array.getElem?_modify, hu, Ne.symm hu]

theorem label_withList (hv : v < g.size) (a : Adjacency) (pool : ListPool) (u : Vertex) :
    (g.withList s v a pool).label u = g.label u := by
  by_cases hu : u = v
  · subst u
    have hv' : v < g.vertices.size := hv
    simp only [withList, label, Array.getElem?_modify, Array.getElem?_eq_getElem hv']
    simp
  · simp [withList, label, Array.getElem?_modify, Ne.symm hu]

/-- The pool entry of another list is neither the one that is changed nor a new one. -/
theorem Sound.entry_ne (hg : g.Sound) {s' : Side} {u : Vertex} (hne : ¬ (s' = s ∧ u = v)) {i : Nat}
    (h : g.adjacency s' u = .many i) : i < g.lists.size ∧ g.adjacency s v ≠ .many i :=
  ⟨hg.inPool s' u i h,fun h' => hne (hg.unshared _ _ _ _ i h h')⟩

theorem Sound.withList (hg : g.Sound) (hv : v < g.size) {a : Adjacency} {pool : ListPool}
    (hsize : g.lists.size ≤ pool.size) (hfresh : ∀ i, a = .many i →
      i < pool.size ∧ (g.adjacency s v = .many i ∨ g.lists.size ≤ i)) :
    (g.withList s v a pool).Sound := by
  have hnew : ∀ {s' u i}, ¬ (s' = s ∧ u = v) → a = .many i → g.adjacency s' u ≠ .many i := by
    intro s' u i hne ha hu
    obtain ⟨hlt,hother⟩ := hg.entry_ne hne hu
    rcases (hfresh i ha).2 with hold | hle
    · exact hother hold
    · exact absurd hlt (Nat.not_lt.mpr hle)
  constructor
  · intro s' u i hi
    rw [adjacency_withList hv] at hi
    split at hi
    · exact (hfresh i hi).1
    · exact Nat.lt_of_lt_of_le (hg.inPool _ _ _ hi) hsize
  · intro s₁ s₂ u₁ u₂ i h₁ h₂
    rw [adjacency_withList hv] at h₁ h₂
    split at h₁ <;> split at h₂
    · rename_i h h'
      exact ⟨h.1.trans h'.1.symm,h.2.trans h'.2.symm⟩
    · rename_i h h'
      exact absurd h₂ (hnew h' h₁)
    · rename_i h h'
      exact absurd h₁ (hnew h h₂)
    · exact hg.unshared _ _ _ _ i h₁ h₂

/-- One neighbour list gets a new member, and no other list changes. -/
theorem Sound.insertNeighbour (hg : g.Sound) (hv : v < g.size)
    (hpos : pos ≤ (g.neighbours s v).length) (w : Vertex) :
    ∃ g', g.insertNeighbour s v pos w = .ok g' ∧ g'.Sound ∧ g'.size = g.size ∧
      (∀ u, g'.label u = g.label u) ∧
      ∀ s' u, g'.neighbours s' u =
        if s' = s ∧ u = v then (g.neighbours s v).insertIdx pos w else g.neighbours s' u := by
  obtain ⟨a,pool,ha,hlist,hsize,hfresh,hrest⟩ :=
    Adjacency.insert_spec w hpos (fun i => hg.inPool s v i)
  have hrun : g.insertNeighbour s v pos w = .ok (g.withList s v a pool) := by
    rw [adjacency_eq hv] at ha
    simp only [Graph.insertNeighbour, vertex_eq_ok hv, ok_bind, ha]
    rfl
  refine ⟨_,hrun,hg.withList hv hsize hfresh,by simp [Graph.withList, size],
    label_withList hv a pool,fun s' u => ?_⟩
  rw [neighbours, adjacency_withList hv]
  split
  · exact hlist
  · rename_i hne
    refine Adjacency.toList_congr fun i hi => ?_
    obtain ⟨hlt,hother⟩ := hg.entry_ne hne hi
    exact hrest i hlt hother

end Graph
end ByteAutomata
