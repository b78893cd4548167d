import Mathlib.Data.Fintype.Prod
import ByteAutomata.Proofs.Graph.Beside

/-! # Numbers of 32 bits

Where vertices and lists are numbered with 32 bits, a greater number loses its upper part. That does
no harm as long as they can be told apart: the neighbours that a graph keeps are vertices of it, and
the pool has no more than two lists for each vertex. -/
namespace ByteAutomata

/-- What is left of the number in 32 bits. -/
def Adjacency.narrow : Adjacency → Adjacency
  | zero => zero
  | one v => one (v % 2 ^ 32)
  | many index => many (index % 2 ^ 32)

theorem Adjacency.narrow_eq {a : Adjacency} (hone : ∀ v, a = one v → v < 2 ^ 32)
    (hmany : ∀ i, a = many i → i < 2 ^ 32) : a.narrow = a := by
  cases a with
  | zero => rfl
  | one v => rw [narrow, Nat.mod_eq_of_lt (hone v rfl)]
  | many index => rw [narrow, Nat.mod_eq_of_lt (hmany index rfl)]

namespace Graph
variable {g : Graph} {changes : List Change}

def narrow (g : Graph) : Graph where
  vertices := g.vertices.map fun d =>
    { d with incoming := d.incoming.narrow, outgoing := d.outgoing.narrow }
  lists := g.lists.map fun list => list.map (· % 2 ^ 32)

/-- The graph that the changes make where each of them is kept in numbers of 32 bits. -/
def afterNarrow (changes : List Change) : Except Fault Graph :=
  changes.foldlM (fun g c => narrow <$> g.apply c) empty

/-- Whether 32 bits are enough to tell the vertices apart, and the lists of the pool. -/
def Fits (g : Graph) : Prop := g.size ≤ 2 ^ 32 ∧ g.lists.size ≤ 2 ^ 32

theorem lt_size_of_adjacency {s : Side} {v i : Nat} (h : g.adjacency s v = .many i) :
    v < g.size := by
  by_contra hv
  rw [adjacency_of_size_le (Nat.le_of_not_lt hv)] at h
  cases h

/-- A vertex owns a list on each side at most. -/
theorem Tight.size_lists_le (hg : g.Tight) : g.lists.size ≤ 2 * g.size := by
  let side (outgoing : Bool) : Side := if outgoing then .outgoing else .incoming
  have howner : ∀ i : Fin g.lists.size, ∃ p : Bool × Fin g.size,
      g.adjacency (side p.1) p.2 = .many i := by
    intro i
    obtain ⟨s,v,h⟩ := hg.owned i i.isLt
    cases s with
    | incoming => exact ⟨(false,⟨v,lt_size_of_adjacency h⟩),h⟩
    | outgoing => exact ⟨(true,⟨v,lt_size_of_adjacency h⟩),h⟩
  choose owner howner using howner
  have hinj : Function.Injective owner := by
    intro i j hij
    have hsame := howner i
    rw [hij, howner j] at hsame
    exact Fin.ext (Adjacency.many.inj hsame).symm
  simpa using Fintype.card_le_of_injective owner hinj

theorem Made.fits (hg : g.Made) (h : g.size ≤ 2 ^ 31) : g.Fits := by
  have hlists := hg.tight.1.size_lists_le
  exact ⟨by omega,by omega⟩

theorem Made.narrow_adjacency (hg : g.Made) (h : g.Fits) (s : Side) (v : Vertex) :
    (g.adjacency s v).narrow = g.adjacency s v := by
  refine Adjacency.narrow_eq (fun w hw => ?_) fun i hi => ?_
  · have hmem : w ∈ g.neighbours s v := by simp [neighbours, hw, Adjacency.toList]
    exact (hg.ends_lt hmem).2.trans_le h.1
  · exact (hg.tight.1.inPool s v i hi).trans_le h.2

/-- The members of a list are the neighbours of the vertex that owns it. -/
theorem Made.lt_size_of_mem_list (hg : g.Made) {i : Nat} (hi : i < g.lists.size) {w : Vertex}
    (hw : w ∈ g.lists[i]) : w < g.size := by
  obtain ⟨s,v,howned⟩ := hg.tight.1.owned i hi
  have hmem : w ∈ g.neighbours s v := by
    simpa [neighbours, howned, Adjacency.toList, Array.getElem?_eq_getElem hi] using hw
  exact (hg.ends_lt hmem).2

theorem Made.narrow_eq (hg : g.Made) (h : g.Fits) : g.narrow = g := by
  have hvertices : g.narrow.vertices = g.vertices := by
    refine Array.ext (by simp [narrow]) fun v hv hv' => ?_
    have hadjacency (s : Side) : ((g.vertices[v]).side s).narrow = (g.vertices[v]).side s := by
      rw [← adjacency_eq hv', hg.narrow_adjacency h]
    have hin := hadjacency .incoming
    have hout := hadjacency .outgoing
    simp only [VertexData.side] at hin hout
    simp only [narrow, Array.getElem_map, hin, hout]
  have hlists : g.narrow.lists = g.lists := by
    refine Array.ext (by simp [narrow]) fun i hi hi' => ?_
    have hmembers : ∀ w ∈ g.lists[i], w % 2 ^ 32 = id w := fun w hw =>
      Nat.mod_eq_of_lt ((hg.lt_size_of_mem_list hi' hw).trans_le h.1)
    simp only [narrow, Array.getElem_map]
    rw [Array.map_congr_left hmembers, Array.map_id]
  calc g.narrow = ⟨g.narrow.vertices,g.narrow.lists⟩ := rfl
    _ = g := by rw [hvertices, hlists]

theorem afterNarrow_append (changes : List Change) (c : Change) :
    afterNarrow (changes ++ [c]) = afterNarrow changes >>= fun g => narrow <$> g.apply c := by
  rw [afterNarrow, afterNarrow, List.foldlM_append]
  exact bind_congr fun _ => bind_pure _

/-- As long as 32 bits are enough, it makes no difference that there are no more of them. -/
theorem afterNarrow_eq
    (h : ∀ earlier g, earlier <+: changes → after earlier = .ok g → g.Fits) :
    afterNarrow changes = after changes := by
  induction changes using List.reverseRecOn with
  | nil => rfl
  | append_singleton changes c ih =>
    have hlast : ∀ g, after (changes ++ [c]) = .ok g → g.narrow = g := fun g hg =>
      Made.narrow_eq ⟨_,hg⟩ (h _ g (List.prefix_refl _) hg)
    rw [afterNarrow_append, ih fun earlier g hinitial =>
      h earlier g (hinitial.trans (List.prefix_append _ _))]
    rw [after_append] at hlast ⊢
    cases hafter : after changes with
    | error fault => rfl
    | ok g =>
      rw [hafter, ok_bind] at hlast
      rw [ok_bind, ok_bind]
      cases hstep : g.apply c with
      | error fault => rfl
      | ok g' => exact congrArg Except.ok (hlast g' hstep)

/-- So it is with 2^31 vertices, however many edges they have. -/
theorem afterNarrow_eq_of_size_le
    (h : ∀ earlier g, earlier <+: changes → after earlier = .ok g → g.size ≤ 2 ^ 31) :
    afterNarrow changes = after changes :=
  afterNarrow_eq fun earlier g hinitial hg => Made.fits ⟨earlier,hg⟩ (h earlier g hinitial hg)

end Graph
end ByteAutomata
