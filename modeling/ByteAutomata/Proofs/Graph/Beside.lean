import ByteAutomata.Proofs.Builder.Changes

/-! # Graphs beside each other

Two multigraphs make one of both, in which the vertices of the second are counted on from those of
the first. A change of the second is a change of both, with its vertices counted on as well, and
does not touch the first. So a graph that is made beside another one is made as if alone. -/
namespace ByteAutomata

/-- The same change, `n` vertices further on. -/
def Change.shift (n : Nat) : Change → Change
  | addVertex => addVertex
  | addEdge source target => addEdge (n + source) (n + target)
  | addEdgeAt source target pos => addEdgeAt (n + source) (n + target) pos
  | setTransition v t => setTransition (n + v) t
  | editTransition v f => editTransition (n + v) f
  | clear => clear

namespace Multigraph
variable {m part part' : Multigraph} {s : Side} {v w : Vertex} {pos : Nat} {c : Change}

/-- The vertices of `part` behind those of `m`, without an edge from one to the other. -/
def beside (m part : Multigraph) : Multigraph where
  size := m.size + part.size
  label v := if v < m.size then m.label v else part.label (v - m.size)
  neighbours s v :=
    if v < m.size then m.neighbours s v else (part.neighbours s (v - m.size)).map (m.size + ·)

@[simp] theorem label_beside_add (m part : Multigraph) (v : Vertex) :
    (m.beside part).label (m.size + v) = part.label v := by
  simp [beside]

@[simp] theorem neighbours_beside_add (m part : Multigraph) (s : Side) (v : Vertex) :
    (m.beside part).neighbours s (m.size + v) = (part.neighbours s v).map (m.size + ·) := by
  simp [beside]

/-- A vertex behind the first ones, counted from there. -/
theorem eq_add_iff_of_le {n u v : Nat} (h : n ≤ u) : u = n + v ↔ u - n = v := by
  omega

theorem beside_setList (list : List Vertex) :
    (m.beside part).setList s (m.size + v) (list.map (m.size + ·)) =
      m.beside (part.setList s v list) := by
  refine Multigraph.ext rfl rfl (funext fun s' => funext fun u => ?_)
  by_cases hu : u < m.size
  · have hne : u ≠ m.size + v := Nat.ne_of_lt (Nat.lt_add_right v hu)
    simp [setList, beside, hu, hne]
  · have heq := eq_add_iff_of_le (v := v) (Nat.le_of_not_lt hu)
    by_cases hsame : s' = s ∧ u - m.size = v
    · simp [setList, beside, hu, heq, hsame]
    · simp [setList, beside, hu, heq, hsame]

theorem beside_setLabel (label : Option Transition) :
    (m.beside part).setLabel (m.size + v) label = m.beside (part.setLabel v label) := by
  refine Multigraph.ext rfl (funext fun u => ?_) rfl
  by_cases hu : u < m.size
  · have hne : u ≠ m.size + v := Nat.ne_of_lt (Nat.lt_add_right v hu)
    simp [setLabel, beside, hu, hne]
  · have heq := eq_add_iff_of_le (v := v) (Nat.le_of_not_lt hu)
    simp [setLabel, beside, hu, heq]

theorem ask_eq_ok {α : Type} {x y : α} : m.ask v x = .ok y ↔ v < m.size ∧ x = y := by
  rw [ask]
  split <;> simp_all

theorem beside_addEdgeAt (h : part.addEdgeAt v w pos = .ok part') :
    part'.size = part.size ∧
      (m.beside part).addEdgeAt (m.size + v) (m.size + w) pos = .ok (m.beside part') := by
  obtain ⟨hv,hw,hpos⟩ := addEdgeAt_bounds h
  rw [addEdgeAt_eq_ok hv hw hpos] at h
  obtain rfl := Except.ok.inj h
  have houts : (m.beside part).outs (m.size + v) = (part.outs v).map (m.size + ·) := by
    simp [outs]
  have hins : (m.beside part).ins (m.size + w) = (part.ins w).map (m.size + ·) := by
    simp [ins]
  refine ⟨rfl,?_⟩
  rw [addEdgeAt_eq_ok (Nat.add_lt_add_left hv m.size) (Nat.add_lt_add_left hw m.size)
    (by rwa [houts, List.length_map]), houts, hins, ← beside_setList, ← beside_setList,
    List.map_append, List.map_insertIdx]
  rfl

/-- What changes the second changes both. -/
theorem beside_apply (hc : c ≠ .clear) (h : part.apply c = .ok part') :
    part.size ≤ part'.size ∧ (m.beside part).apply (c.shift m.size) = .ok (m.beside part') := by
  have hrange : ∀ {v}, v < part.size → m.size + v < (m.beside part).size := fun hv =>
    Nat.add_lt_add_left hv m.size
  cases c with
  | addVertex =>
    obtain rfl := Except.ok.inj h
    exact ⟨Nat.le_succ _,rfl⟩
  | addEdge v w =>
    obtain ⟨n,hn,hedge⟩ := bind_eq_ok.mp h
    obtain ⟨hv,rfl⟩ := ask_eq_ok.mp hn
    obtain ⟨hsize,hedge'⟩ := beside_addEdgeAt (m := m) hedge
    refine ⟨hsize.ge,bind_eq_ok.mpr ⟨(part.outs v).length,ask_eq_ok.mpr ⟨hrange hv,?_⟩,hedge'⟩⟩
    simp [outs]
  | addEdgeAt v w pos =>
    obtain ⟨hsize,hedge⟩ := beside_addEdgeAt (m := m) h
    exact ⟨hsize.ge,hedge⟩
  | setTransition v t =>
    obtain ⟨hv,rfl⟩ := ask_eq_ok.mp h
    exact ⟨Nat.le_refl _,ask_eq_ok.mpr ⟨hrange hv,beside_setLabel _⟩⟩
  | editTransition v f =>
    obtain ⟨hv,rfl⟩ := ask_eq_ok.mp h
    refine ⟨Nat.le_refl _,ask_eq_ok.mpr ⟨hrange hv,?_⟩⟩
    rw [label_beside_add, beside_setLabel]
  | clear => exact absurd rfl hc

end Multigraph

namespace Graph
variable {g part part' whole whole' : Graph} {c : Change}

theorem view_beside_empty (g : Graph) : g.view.beside empty.view = g.view := by
  refine Multigraph.ext rfl (funext fun v => ?_) (funext fun s => funext fun v => ?_)
  · change (if v < g.size then g.label v else empty.label (v - g.size)) = g.label v
    split
    · rfl
    · rename_i hv
      rw [label_of_size_le (Nat.le_of_not_lt hv), label_of_size_le (Nat.zero_le _)]
  · change (if v < g.size then g.neighbours s v
      else (empty.neighbours s (v - g.size)).map (g.size + ·)) = g.neighbours s v
    split
    · rfl
    · rename_i hv
      rw [neighbours_of_size_le (Nat.le_of_not_lt hv), neighbours_of_size_le (Nat.zero_le _)]
      rfl

theorem lt_size_of_mem {s : Side} {v w : Vertex} (h : w ∈ g.neighbours s v) : v < g.size := by
  by_contra hv
  rw [neighbours_of_size_le (Nat.le_of_not_lt hv)] at h
  cases h

/-- Both ends of an edge are there, since it is entered at both of them. -/
theorem Made.ends_lt (hg : g.Made) {s : Side} {v w : Vertex} (h : w ∈ g.neighbours s v) :
    v < g.size ∧ w < g.size := by
  have hcount := hg.tight.2
  refine ⟨lt_size_of_mem h,?_⟩
  cases s with
  | outgoing =>
    have hback : v ∈ g.ins w := by
      rw [← List.count_pos_iff, ← hcount, List.count_pos_iff]
      exact h
    exact lt_size_of_mem hback
  | incoming =>
    have hback : v ∈ g.outs w := by
      rw [← List.count_pos_iff, hcount, List.count_pos_iff]
      exact h
    exact lt_size_of_mem hback

theorem Mirrors.exists_ok {x : Except Fault Graph} {m : Multigraph} (h : Mirrors x (.ok m)) :
    ∃ g, x = .ok g ∧ g.view = m := by
  generalize hy : Except.ok m = y at h
  cases h with
  | error fault => cases hy
  | ok hg => exact ⟨_,rfl,(Except.ok.inj hy).symm⟩

/-- The graph `whole` is `part` beside `g`. -/
structure Beside (g part whole : Graph) : Prop where
  made : whole.Made
  madeAlone : part.Made
  view : whole.view = g.view.beside part.view

theorem Beside.empty (hg : g.Made) : g.Beside Graph.empty g :=
  ⟨hg,⟨[],rfl⟩,g.view_beside_empty.symm⟩

theorem Beside.size (h : g.Beside part whole) : whole.size = g.size + part.size :=
  congrArg Multigraph.size h.view

theorem Beside.label_of_lt (h : g.Beside part whole) {v : Vertex} (hv : v < g.size) :
    whole.label v = g.label v :=
  (congrFun (congrArg Multigraph.label h.view) v).trans (if_pos hv)

theorem Beside.neighbours_of_lt (h : g.Beside part whole) {v : Vertex} (hv : v < g.size)
    (s : Side) : whole.neighbours s v = g.neighbours s v :=
  (congrFun (congrFun (congrArg Multigraph.neighbours h.view) s) v).trans (if_pos hv)

/-- Edges of the second graph stay there. -/
theorem Beside.neighbours_of_le (h : g.Beside part whole) {v w : Vertex} (hv : g.size ≤ v)
    {s : Side} (hw : w ∈ whole.neighbours s v) :
    v < whole.size ∧ g.size ≤ w ∧ w < whole.size := by
  obtain ⟨i,rfl⟩ := Nat.exists_eq_add_of_le hv
  have hlist : whole.neighbours s (g.size + i) = (part.neighbours s i).map (g.size + ·) :=
    (congrFun (congrFun (congrArg Multigraph.neighbours h.view) s) _).trans
      (Multigraph.neighbours_beside_add g.view part.view s i)
  rw [hlist] at hw
  obtain ⟨j,hj,rfl⟩ := List.mem_map.mp hw
  obtain ⟨hi,hj⟩ := h.madeAlone.ends_lt hj
  rw [h.size]
  exact ⟨Nat.add_lt_add_left hi _,Nat.le_add_right _ _,Nat.add_lt_add_left hj _⟩

/-- What can be done to a graph alone can be done to it beside another one. -/
theorem Beside.apply (h : g.Beside part whole) (hc : c ≠ .clear) :
    Carries (fun part' whole' => part.size ≤ part'.size ∧ g.Beside part' whole') (part.apply c)
      (whole.apply (c.shift g.size)) := by
  intro part' hpart
  have hchange : part.view.apply c = .ok part'.view := by
    rw [← (h.madeAlone.tight.1.apply c).map_eq, hpart]
    rfl
  obtain ⟨hsize,hshift⟩ := Multigraph.beside_apply (m := g.view) hc hchange
  have hmirrors := h.made.tight.1.apply (c.shift g.size)
  have hwhole : whole.view.apply (c.shift g.size) = .ok (g.view.beside part'.view) := by
    rw [h.view]
    exact hshift
  rw [hwhole] at hmirrors
  obtain ⟨whole',hrun,hview⟩ := hmirrors.exists_ok
  exact ⟨whole',hrun,hsize,h.made.apply hrun,h.madeAlone.apply hpart,hview⟩

theorem Beside.addLabeled (h : g.Beside part whole) (t : Transition) :
    g.Beside (part.addLabeled t) (whole.addLabeled t) := by
  obtain ⟨_,⟨⟩,-,hvertex⟩ := h.apply (c := .addVertex) nofun part.addVertex rfl
  obtain ⟨whole',hrun,-,hlabel⟩ := hvertex.apply (c := .setTransition part.size t) nofun _
    (part.setTransition_addVertex t)
  have hsame : whole.addVertex.setTransition whole.size t = .ok whole' := by
    rw [h.size]
    exact hrun
  rw [setTransition_addVertex] at hsame
  rwa [Except.ok.inj hsame]

theorem Beside.addEdge (h : g.Beside part whole) (v w : Vertex) :
    Carries (fun part' whole' => part.size ≤ part'.size ∧ g.Beside part' whole')
      (part.addEdge v w) (whole.addEdge (g.size + v) (g.size + w)) :=
  h.apply (c := .addEdge v w) nofun

theorem Beside.addEdgesAt (h : g.Beside part whole) (v : Vertex) (pos : Nat) (ws : List Vertex) :
    Carries g.Beside (part.addEdgesAt v pos ws)
      (whole.addEdgesAt (g.size + v) pos (ws.map (g.size + ·))) := by
  induction ws generalizing part whole pos with
  | nil => exact .ok h
  | cons w ws ih =>
    exact (h.apply (c := .addEdgeAt v w pos) nofun).bind fun _ _ h' => ih h'.2 (pos + 1)

theorem Beside.link (h : g.Beside part whole) (exits : List (Vertex × Nat)) (ws : List Vertex) :
    Carries g.Beside (part.link exits ws)
      (whole.link (exits.map fun (v,pos) => (g.size + v,pos)) (ws.map (g.size + ·))) :=
  .foldlM h fun _ _ h' p _ => h'.addEdgesAt p.1 p.2 ws

end Graph

end ByteAutomata
