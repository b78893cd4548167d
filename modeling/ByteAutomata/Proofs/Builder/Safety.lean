import Mathlib.Data.List.Perm.Subperm
import ByteAutomata.Proofs.Builder.InPlace
import ByteAutomata.Proofs.Builder.Finish
import ByteAutomata.Proofs.Tree.Closed

/-! # Safety of a construction

In a malformed tree an operator takes whatever lies on top of the stack, be it the start fragment
or a part of another expression. Even so, all positions that fragments keep lie inside of what
they refer to, and no vertex is an entry twice or an exit twice, so that every rule can be
applied. -/
namespace ByteAutomata

namespace Graph
variable {g g' g'' : Graph} {v : Vertex}

/-- All vertices but the start vertex have a condition. -/
structure Rooted (g : Graph) : Prop where
  sound : g.Sound
  nonempty : 0 < g.size
  start : g.label 0 = none
  labeled : ∀ v, v ≠ 0 → v < g.size → ∃ t, g.label v = some t

/-- Vertices and edges of `g` are still there in `g'`. -/
structure Grows (g g' : Graph) : Prop where
  rooted : g'.Rooted
  size : g.size ≤ g'.size
  outs : ∀ v, (g.outs v).length ≤ (g'.outs v).length

theorem Grows.refl (h : g.Rooted) : g.Grows g := ⟨h,Nat.le_refl _,fun _ => Nat.le_refl _⟩

theorem Grows.trans (h : g.Grows g') (h' : g'.Grows g'') : g.Grows g'' :=
  ⟨h'.rooted,h.size.trans h'.size,fun v => (h.outs v).trans (h'.outs v)⟩

theorem Rooted.grows_of_same (h : g.Rooted) (hsame : g.SameVertices g')
    (houts : ∀ v, (g.outs v).length ≤ (g'.outs v).length) : g.Grows g' where
  rooted := by
    refine ⟨hsame.sound,hsame.size ▸ h.nonempty,(hsame.label 0).trans h.start,fun v hne hv => ?_⟩
    rw [hsame.label]
    exact h.labeled v hne (hsame.size ▸ hv)
  size := hsame.size.ge
  outs := houts

theorem Rooted.zero_notMem_accepting (h : g.Rooted) : 0 ∉ g.accepting := by
  intro hmem
  obtain ⟨-,hmatch⟩ := List.mem_filter.mp hmem
  have hstart := h.start
  unfold label at hstart
  split at hmatch
  · rename_i heq
    rw [heq] at hstart
    cases hstart
  · cases hmatch

section Vertices

theorem Rooted.addLabeled (h : g.Rooted) (t : Transition) : g.Grows (g.addLabeled t) where
  rooted := by
    refine ⟨h.sound.addLabeled t,by simp,?_,fun v hne hv => ?_⟩
    · rw [label_addLabeled, if_neg h.nonempty.ne, h.start]
    · rw [label_addLabeled]
      split
      · exact ⟨t,rfl⟩
      · rename_i hnew
        rw [size_addLabeled] at hv
        exact h.labeled v hne (Nat.lt_of_le_of_ne (Nat.le_of_lt_succ hv) hnew)
  size := by simp
  outs v := (congrArg List.length (outs_addLabeled t v)).ge

theorem Rooted.appendByte (h : g.Rooted) (s : BuilderSettings) (b : UInt8) :
    ∃ g', Assembly.appendByte s g b = .ok g' ∧ g.Grows g' := by
  have hadd := h.addLabeled (Assembly.byteTransition s b)
  have hprev : g.size - 1 < (g.addLabeled (Assembly.byteTransition s b)).size := by
    rw [size_addLabeled]
    omega
  have hlast : g.size < (g.addLabeled (Assembly.byteTransition s b)).size := by simp
  obtain ⟨g',hg,hsame,houts⟩ := hadd.rooted.sound.addEdge hprev hlast
  refine ⟨g',hg,hadd.trans (hadd.rooted.grows_of_same hsame fun v => ?_)⟩
  rw [houts]
  split
  · rename_i hv
    rw [hv, List.length_append]
    exact Nat.le_add_right _ _
  · exact Nat.le_refl _

theorem Rooted.appendBytes (h : g.Rooted) (s : BuilderSettings) (bytes : List UInt8) :
    ∃ g', bytes.foldlM (Assembly.appendByte s) g = .ok g' ∧ g.Grows g' := by
  induction bytes generalizing g with
  | nil => exact ⟨g,rfl,.refl h⟩
  | cons b bytes ih =>
    obtain ⟨g₁,h₁,hgrows₁⟩ := h.appendByte s b
    obtain ⟨g₂,h₂,hgrows₂⟩ := ih hgrows₁.rooted
    refine ⟨g₂,?_,hgrows₁.trans hgrows₂⟩
    rw [List.foldlM_cons, h₁]
    exact h₂

/-- Only the start vertex cannot complete a match. -/
theorem Rooted.accept (h : g.Rooted) (hv : v < g.size) (label : Nat) :
    EndsBy BuildFailure.IsOrdinary g.Grows (Assembly.accept label g v) := by
  rcases Nat.eq_zero_or_pos v with rfl | hpos
  · exact .error trivial
  · obtain ⟨t,ht⟩ := h.labeled v hpos.ne' hv
    obtain ⟨g',hg,hsound,hsize,houts,hlabel⟩ := h.sound.mark hv label true
    rw [Assembly.accept_eq hv hpos.ne' ht, hg]
    refine .ok ⟨⟨hsound,hsize ▸ h.nonempty,?_,fun u hne hu => ?_⟩,hsize.ge,fun u => ?_⟩
    · rw [hlabel, if_neg hpos.ne, h.start]
    · rw [hlabel]
      split
      · exact ⟨_,congrArg (Option.map _) ht⟩
      · exact h.labeled u hne (hsize ▸ hu)
    · exact (congrArg List.length (houts u)).ge

end Vertices

section Edges

theorem length_spliced (pos : Nat) (ws list : List Vertex) :
    (spliced pos ws list).length = list.length + ws.length := by
  simp only [spliced, List.length_append, List.length_take, List.length_drop]
  omega

/-- Every exit gets all of the targets, behind its position. -/
theorem Sound.link (h : g.Sound) {exits : List (Vertex × Nat)} {ws : List Vertex}
    (hexits : ∀ p ∈ exits, p.1 < g.size ∧ p.2 ≤ (g.outs p.1).length)
    (hws : ∀ w ∈ ws, w < g.size) :
    ∃ g', g.link exits ws = .ok g' ∧ g.SameVertices g' ∧
      (∀ v, (g.outs v).length ≤ (g'.outs v).length) ∧
      ∀ p ∈ exits, p.2 + ws.length ≤ (g'.outs p.1).length := by
  induction exits generalizing g with
  | nil => exact ⟨g,rfl,.refl h,fun _ => Nat.le_refl _,fun p hp => nomatch hp⟩
  | cons p exits ih =>
    obtain ⟨⟨hv,hpos⟩,hrest⟩ := List.forall_mem_cons.mp hexits
    obtain ⟨g₁,h₁,hsame₁,houts₁⟩ := h.addEdgesAt hv hws hpos
    have hlength : ∀ v, (g₁.outs v).length =
        (g.outs v).length + if v = p.1 then ws.length else 0 := by
      intro v
      rw [houts₁]
      split
      · rename_i hp
        rw [hp, length_spliced]
      · rfl
    -- the exits that are left keep their positions, because successors are only added
    have hgrows : ∀ v, (g.outs v).length ≤ (g₁.outs v).length := fun v => by
      rw [hlength]
      exact Nat.le_add_right _ _
    have hself : (g₁.outs p.1).length = (g.outs p.1).length + ws.length := by
      rw [hlength, if_pos rfl]
    obtain ⟨g₂,h₂,hsame₂,houts₂,hlinked⟩ := ih hsame₁.sound
      (fun q hq => ⟨hsame₁.size ▸ (hrest q hq).1,(hrest q hq).2.trans (hgrows q.1)⟩)
      (fun w hw => hsame₁.size ▸ hws w hw)
    refine ⟨g₂,?_,hsame₁.trans hsame₂,fun v => (hgrows v).trans (houts₂ v),?_⟩
    · rw [Graph.link, List.foldlM_cons]
      simp only [h₁]
      exact h₂
    · refine List.forall_mem_cons.mpr ⟨?_,hlinked⟩
      have hle := houts₂ p.1
      omega

end Edges

end Graph

namespace Fragment
variable {g g' : Graph} {f first second : Fragment}

def exitVertices (f : Fragment) : List Vertex := f.exits.map Prod.fst

/-- All that the fragment refers to exists. -/
structure Fits (g : Graph) (f : Fragment) : Prop where
  entries : ∀ w ∈ f.entries, w < g.size
  skip : ∀ i, f.skip = some i → i ≤ f.entries.length
  exits : ∀ p ∈ f.exits, p.1 < g.size ∧ p.2 ≤ (g.outs p.1).length

theorem Fits.mono (h : f.Fits g) (hg : g.Grows g') : f.Fits g' where
  entries w hw := (h.entries w hw).trans_le hg.size
  skip := h.skip
  exits p hp := ⟨(h.exits p hp).1.trans_le hg.size,(h.exits p hp).2.trans (hg.outs p.1)⟩

theorem Fits.path {v w : Vertex} (hv : v < g.size) (hw : w < g.size) (node : Option NodeId) :
    (path v w node).Fits g where
  entries u hu := by
    obtain rfl := List.mem_singleton.mp hu
    exact hv
  skip _ hskip := nomatch hskip
  exits p hp := by
    obtain rfl := List.mem_singleton.mp hp
    exact ⟨hw,Nat.zero_le _⟩

theorem Fits.alternate (h₁ : first.Fits g) (h₂ : second.Fits g) (node : NodeId) :
    (first.alternate second node).Fits g where
  entries := List.forall_mem_append.mpr ⟨h₁.entries,h₂.entries⟩
  skip i hi := by
    have hfirst := h₁.skip
    have hsecond := h₂.skip
    simp only [Fragment.alternate, List.length_append] at hi ⊢
    split at hi
    · rename_i a ha
      obtain rfl := Option.some.inj hi
      exact (hfirst a ha).trans (Nat.le_add_right _ _)
    · rename_i b _ hb
      obtain rfl := Option.some.inj hi
      exact Nat.add_le_add_left (hsecond b hb) _
    · cases hi
  exits := List.forall_mem_append.mpr ⟨h₁.exits,h₂.exits⟩

theorem Fits.skipTop (h : f.Fits g) (node : NodeId) (greedy : Bool) :
    (if greedy then f.skipLast node else f.skipFirst node).Fits g := by
  cases greedy with
  | true =>
    refine ⟨h.entries,fun i hi => ?_,h.exits⟩
    obtain rfl := Option.some.inj hi
    exact Nat.min_le_right _ _
  | false =>
    refine ⟨h.entries,fun i hi => ?_,h.exits⟩
    obtain rfl := Option.some.inj hi
    exact Nat.zero_le _

theorem Fits.advanceExits (h : f.Fits g) {count : Nat}
    (hexits : ∀ p ∈ f.exits, p.2 + count ≤ (g.outs p.1).length) :
    (f.advanceExits count).Fits g where
  entries := h.entries
  skip := h.skip
  exits p hp := by
    obtain ⟨q,hq,rfl⟩ := List.mem_map.mp hp
    exact ⟨(h.exits q hq).1,hexits q hq⟩

@[simp] theorem exitVertices_advanceExits (f : Fragment) (count : Nat) :
    (f.advanceExits count).exitVertices = f.exitVertices := by
  simp [exitVertices, Fragment.advanceExits]

theorem Fits.spliceEntries (h : first.Fits g) (second : Fragment) :
    ∃ entries, first.spliceEntries second = .ok entries ∧
      entries.Subperm (second.entries ++ first.entries) ∧
      ∀ i, first.skip = some i → entries.length = first.entries.length + second.entries.length := by
  unfold Fragment.spliceEntries
  cases hskip : first.skip with
  | none => exact ⟨first.entries,rfl,(List.sublist_append_right _ _).subperm,fun i hi => nomatch hi⟩
  | some i =>
    have hperm : (first.entries.take i ++ second.entries ++ first.entries.drop i).Perm
        (second.entries ++ first.entries) := by
      have hswap : (first.entries.take i ++ second.entries).Perm
          (second.entries ++ first.entries.take i) := List.perm_append_comm
      have hwhole := hswap.append_right (first.entries.drop i)
      rwa [List.append_assoc second.entries, List.take_append_drop] at hwhole
    refine ⟨_,if_pos (h.skip i hskip),hperm.subperm,fun _ _ => ?_⟩
    rw [hperm.length_eq, List.length_append, Nat.add_comm]

/-- Two fragments can always be joined, and what they refer to is put together. -/
theorem Fits.concatenate (h₁ : first.Fits g) (h₂ : second.Fits g) (node : NodeId) :
    ∃ f, first.concatenate second node = .ok f ∧ f.Fits g ∧
      f.entries.Subperm (second.entries ++ first.entries) ∧
      f.exitVertices.Subperm (second.exitVertices ++ first.exitVertices) := by
  obtain ⟨entries,hentries,hsub,hlength⟩ := h₁.spliceEntries second
  refine ⟨_,by rw [Fragment.concatenate, hentries]; rfl,⟨?_,?_,?_⟩,hsub,?_⟩
  · intro w hw
    rcases List.mem_append.mp (hsub.subset hw) with hw | hw
    · exact h₂.entries w hw
    · exact h₁.entries w hw
  · intro i hi
    dsimp only at hi ⊢
    split at hi
    · rename_i a b ha hb
      obtain rfl := Option.some.inj hi
      rw [hlength a ha]
      exact Nat.add_le_add (h₁.skip a ha) (h₂.skip b hb)
    · cases hi
  · intro p hp
    dsimp only at hp
    split at hp
    · exact List.forall_mem_append.mpr ⟨h₁.exits,h₂.exits⟩ p hp
    · exact h₂.exits p hp
  · dsimp only [exitVertices]
    split
    · rw [List.map_append]
      exact List.perm_append_comm.subperm
    · exact (List.sublist_append_left _ _).subperm

end Fragment

namespace Assembly
variable {a : Assembly} {u : Tree} {id : NodeId}
variable {g g' : Graph} {stack rest : List Fragment} {f top first second : Fragment} {good : Bool}

/-- What holds between any two steps of a construction. -/
structure Safe (a : Assembly) : Prop where
  graph : a.graph.Rooted
  fits : ∀ f ∈ a.stack, f.Fits a.graph
  entries : (a.stack.flatMap Fragment.entries).Nodup
  exits : (a.stack.flatMap Fragment.exitVertices).Nodup

theorem Safe.grow (h : Safe ⟨g,stack,good⟩) (hg : g.Grows g') (good' : Bool) :
    Safe ⟨g',stack,good'⟩ :=
  ⟨hg.rooted,fun f hf => (h.fits f hf).mono hg,h.entries,h.exits⟩

theorem nodup_of_subperm {ws us vs : List Vertex} (h : (us ++ vs).Nodup) (hsub : ws.Subperm us) :
    (ws ++ vs).Nodup := by
  obtain ⟨ws',hperm,hsublist⟩ := (List.subperm_append_right vs).mpr hsub
  exact hperm.nodup_iff.mp (h.sublist hsublist)

/-- Another topmost fragment with the same vertices. -/
theorem Safe.replaceTop (h : Safe ⟨g,top :: rest,good⟩) (hf : f.Fits g)
    (hentries : f.entries = top.entries) (hexits : f.exitVertices = top.exitVertices) :
    Safe ⟨g,f :: rest,good⟩ := by
  obtain ⟨hgraph,hfits,hnodup,hnodup'⟩ := h
  obtain ⟨-,hrest⟩ := List.forall_mem_cons.mp hfits
  rw [List.flatMap_cons] at hnodup hnodup'
  refine ⟨hgraph,List.forall_mem_cons.mpr ⟨hf,hrest⟩,?_,?_⟩
  · rwa [List.flatMap_cons, hentries]
  · rwa [List.flatMap_cons, hexits]

/-- One fragment in the place of the two topmost ones, with no vertices but theirs. -/
theorem Safe.replaceTopTwo (h : Safe ⟨g,second :: first :: rest,good⟩) (hf : f.Fits g)
    (hentries : f.entries.Subperm (second.entries ++ first.entries))
    (hexits : f.exitVertices.Subperm (second.exitVertices ++ first.exitVertices)) :
    Safe ⟨g,f :: rest,good⟩ := by
  obtain ⟨hgraph,hfits,hnodup,hnodup'⟩ := h
  obtain ⟨-,hfits⟩ := List.forall_mem_cons.mp hfits
  obtain ⟨-,hrest⟩ := List.forall_mem_cons.mp hfits
  rw [List.flatMap_cons, List.flatMap_cons, ← List.append_assoc] at hnodup hnodup'
  exact ⟨hgraph,List.forall_mem_cons.mpr ⟨hf,hrest⟩,nodup_of_subperm hnodup hentries,
    nodup_of_subperm hnodup' hexits⟩

/-- A fragment of new vertices. -/
theorem Safe.push {v w : Vertex} (h : a.Safe) (hg : a.graph.Grows g) (hv : a.graph.size ≤ v)
    (hv' : v < g.size) (hw : a.graph.size ≤ w) (hw' : w < g.size) (node : Option NodeId) :
    Safe ⟨g,.path v w node :: a.stack,a.isGood⟩ := by
  have hentry : v ∉ a.stack.flatMap Fragment.entries := by
    intro hmem
    obtain ⟨f,hf,hmem⟩ := List.mem_flatMap.mp hmem
    exact Nat.not_lt.mpr hv ((h.fits f hf).entries v hmem)
  have hexit : w ∉ a.stack.flatMap Fragment.exitVertices := by
    intro hmem
    obtain ⟨f,hf,hmem⟩ := List.mem_flatMap.mp hmem
    obtain ⟨p,hp,rfl⟩ := List.mem_map.mp hmem
    exact Nat.not_lt.mpr hw ((h.fits f hf).exits p hp).1
  have hfits : ∀ f ∈ a.stack, f.Fits g := fun f hf => (h.fits f hf).mono hg
  exact ⟨hg.rooted,List.forall_mem_cons.mpr ⟨.path hv' hw' node,hfits⟩,
    List.nodup_cons.mpr ⟨hentry,h.entries⟩,List.nodup_cons.mpr ⟨hexit,h.exits⟩⟩

theorem Safe.leaf (h : a.Safe) (id : NodeId) (t : Transition) : (a.leaf id t).Safe := by
  have hlt : a.graph.size < (a.graph.addLabeled t).size := by simp
  exact h.push (h.graph.addLabeled t) le_rfl hlt le_rfl hlt (some id)

theorem Safe.spell (h : a.Safe) (s : BuilderSettings) (id codePoint : Nat) (bytes : List UInt8) :
    EndsBy BuildFailure.IsOrdinary Safe (a.spell s id codePoint bytes) := by
  cases bytes with
  | nil => exact .error trivial
  | cons b rest =>
    have hfirst := h.graph.addLabeled (byteTransition s b)
    obtain ⟨g,hg,hgrows⟩ := hfirst.rooted.appendBytes s rest
    have hsize := hgrows.size
    rw [Graph.size_addLabeled] at hsize
    have hlast : a.graph.size ≤ g.size - 1 := Nat.le_sub_one_of_lt hsize
    have hlast' : g.size - 1 < g.size := Nat.sub_one_lt_of_lt hsize
    rw [Assembly.spell]
    simp only [hg]
    exact .ok (h.push (hfirst.trans hgrows) le_rfl hsize hlast hlast' (some id))

section Rules

theorem Safe.alternate (h : a.Safe) (id : NodeId) :
    EndsBy BuildFailure.IsOrdinary Safe (a.alternate id) := by
  match a with
  | ⟨g,[],good⟩ => exact .error trivial
  | ⟨g,[_],good⟩ => exact .error trivial
  | ⟨g,second :: first :: rest,good⟩ =>
    have hfits := (h.fits first (by simp)).alternate (h.fits second (by simp)) id
    refine .ok (h.replaceTopTwo hfits List.perm_append_comm.subperm ?_)
    rw [Fragment.exitVertices, Fragment.alternate, List.map_append]
    exact List.perm_append_comm.subperm

/-- Edges from the exits of a fragment move these exits, or leave them where they are. -/
theorem Safe.link (h : Safe ⟨g,stack,good⟩) (hf : f.Fits g) {ws : List Vertex}
    (hws : ∀ w ∈ ws, w < g.size) :
    ∃ g', g.link f.exits ws = .ok g' ∧ Safe ⟨g',stack,good⟩ ∧ g.Grows g' ∧
      (f.advanceExits ws.length).Fits g' := by
  obtain ⟨g',hg,hsame,houts,hlinked⟩ := h.graph.sound.link hf.exits hws
  have hgrows := h.graph.grows_of_same hsame houts
  exact ⟨g',hg,h.grow hgrows good,hgrows,(hf.mono hgrows).advanceExits hlinked⟩

theorem Safe.concatenate (h : a.Safe) (id : NodeId) :
    EndsBy BuildFailure.IsOrdinary Safe (a.concatenate id) := by
  match a with
  | ⟨g,[],good⟩ => exact .error trivial
  | ⟨g,[_],good⟩ => exact .error trivial
  | ⟨g,second :: first :: rest,good⟩ =>
    have hfirst : first.Fits g := h.fits first (by simp)
    have hsecond : second.Fits g := h.fits second (by simp)
    obtain ⟨g',hg,hsafe,hgrows,hadvanced⟩ := h.link hfirst hsecond.entries
    have hmoved : (first.moved second).Fits g' ∧
        (first.moved second).entries = first.entries ∧
        (first.moved second).exitVertices = first.exitVertices := by
      unfold Fragment.moved
      split
      · exact ⟨hfirst.mono hgrows,rfl,rfl⟩
      · exact ⟨hadvanced,rfl,first.exitVertices_advanceExits _⟩
    obtain ⟨hfits,hsameEntries,hsameExits⟩ := hmoved
    obtain ⟨f,hf,hfFits,hentries,hexits⟩ := hfits.concatenate (hsecond.mono hgrows) id
    rw [concatenate_eq hg hf]
    rw [hsameEntries] at hentries
    rw [hsameExits] at hexits
    exact .ok (hsafe.replaceTopTwo hfFits hentries hexits)

theorem Safe.repeatTop (h : a.Safe) (id : NodeId) (greedy : Bool) :
    EndsBy BuildFailure.IsOrdinary Safe (a.repeatTop id greedy) := by
  match a with
  | ⟨g,[],good⟩ => exact .error trivial
  | ⟨g,top :: rest,good⟩ =>
    have htop : top.Fits g := h.fits top (by simp)
    obtain ⟨g',hg,hsafe,hgrows,hadvanced⟩ := h.link htop htop.entries
    have hkept := htop.mono hgrows
    rw [repeatTop_eq hg]
    cases greedy with
    | true =>
      exact .ok (hsafe.replaceTop ⟨hadvanced.entries,hadvanced.skip,hadvanced.exits⟩ rfl
        (top.exitVertices_advanceExits _))
    | false => exact .ok (hsafe.replaceTop ⟨hkept.entries,hkept.skip,hkept.exits⟩ rfl rfl)

theorem Safe.skipTop (h : a.Safe) (id : NodeId) (greedy : Bool) :
    EndsBy BuildFailure.IsOrdinary Safe (a.skipTop id greedy) := by
  match a with
  | ⟨g,[],good⟩ => exact .error trivial
  | ⟨g,top :: rest,good⟩ =>
    have hfits := (h.fits top (by simp)).skipTop id greedy
    cases greedy with
    | true => exact .ok (h.replaceTop hfits rfl rfl)
    | false => exact .ok (h.replaceTop hfits rfl rfl)

theorem Safe.repetition {min : Nat} {max : Option Nat} {greedy : Bool} (h : a.Safe) (id : NodeId)
    (hbasic : (NodeKind.repetition min max greedy).isBasic = true) :
    EndsBy BuildFailure.IsOrdinary Safe (a.repetition id min max greedy) := by
  unfold NodeKind.isBasic at hbasic
  split at hbasic
  · rename_i heq
    cases heq
    exact h.skipTop id greedy
  · rename_i heq
    cases heq
    exact (h.repeatTop id greedy).bind fun a' ha' => ha'.skipTop id greedy
  · rename_i heq
    cases heq
    exact h.repeatTop id greedy
  · cases hbasic
  · rename_i hother
    exact absurd rfl (hother min max greedy)

/-- A whole expression may be ended more than once. -/
theorem Safe.finish (h : a.Safe) (label : Nat) (id : NodeId) :
    EndsBy BuildFailure.IsOrdinary Safe (a.finish label id) := by
  unfold Assembly.finish
  split
  · exact .error trivial
  · refine (h.concatenate id).bind fun a' ha' => ?_
    match a' with
    | ⟨g,[],good⟩ => exact .error trivial
    | ⟨g,top :: rest,good⟩ =>
      have htop : top.Fits g := ha'.fits top (by simp)
      -- marks change no edges, so the fragments below fit the marked graph too
      have hmarks : EndsBy BuildFailure.IsOrdinary g.Grows
          ((top.exits.map Prod.fst).foldlM (accept label) g) := by
        refine .foldlM (.refl ha'.graph) fun g' hg' v hv => ?_
        obtain ⟨p,hp,rfl⟩ := List.mem_map.mp hv
        have hlt : p.1 < g'.size := (htop.exits p hp).1.trans_le hg'.size
        exact (hg'.rooted.accept hlt label).mono (fun _ he => he) fun _ hnext => hg'.trans hnext
      exact hmarks.bind fun g' hg' => .ok (ha'.grow hg' true)

end Rules

/-- One step of a construction. -/
theorem Safe.visit {node : Node} (h : a.Safe) (hnode : u.get? id = some node)
    (hbasic : node.kind.isBasic = true) (s : BuilderSettings) (label : Nat) :
    EndsBy BuildFailure.IsOrdinary Safe (a.visit s label u id) := by
  rw [visit_eq hnode]
  obtain ⟨kind,left,right⟩ := node
  cases kind with
  | regexp => exact h.finish label id
  | alternation => exact h.alternate id
  | concatenation => exact h.concatenate id
  | repetition min max greedy => exact h.repetition id hbasic
  | literal codePoint => exact h.spell s id codePoint _
  | dot => exact .ok (h.leaf id .any)
  | charClass set => exact .ok (h.leaf id _)

theorem safe_start : start.Safe where
  graph := by
    refine ⟨shows_start.sound,Nat.zero_lt_one,rfl,fun v hne hv => absurd ?_ hne⟩
    exact Nat.lt_one_iff.mp hv
  fits f hf := by
    obtain rfl := List.mem_singleton.mp hf
    exact .path Nat.zero_lt_one Nat.zero_lt_one none
  entries := List.nodup_singleton 0
  exits := List.nodup_singleton 0

end Assembly

namespace Builder
variable {t u : Tree}

/-- A construction that goes on with any nodes of an unrolled tree. -/
theorem safe_foldlM (hu : u.Closed)
    (hbasic : ∀ id node, u.get? id = some node → node.kind.isBasic = true) (s : BuilderSettings)
    (label : Nat) {ids : List NodeId} (hids : ∀ id ∈ ids, id ∈ u.leaveOrder) :
    EndsBy BuildFailure.IsOrdinary Assembly.Safe
      (ids.foldlM (Assembly.visit s label u) .start) := by
  refine .foldlM Assembly.safe_start fun a ha id hid => ?_
  obtain ⟨node,hnode⟩ := hu.exists_node (hids id hid)
  exact ha.visit hnode (hbasic id node hnode) s label

theorem safe_assemble (s : BuilderSettings) (label : Nat) (ht : t.Closed) :
    EndsBy BuildFailure.IsOrdinary Assembly.Safe (assemble s label t) := by
  refine ht.unroll.bind fun u hu => ?_
  obtain ⟨hclosed,hbasic⟩ := hu
  unfold Assembly.ofTree
  rw [hclosed.foldLeft_eq]
  refine (safe_foldlM hclosed hbasic s label fun _ hid => hid).bind fun a ha => ?_
  split
  · exact .ok ha
  · exact .error trivial

/-- A closed tree of any shape is built without a fault, and what is built is safe after each
step. -/
theorem build_safe (b : Builder) (ht : t.Closed) :
    (∀ e, (b.build t).1 = .error e → e.IsOrdinary) ∧
      ∀ u, t.unroll = .ok u → ∀ ids, ids <+: u.leaveOrder → ∀ b',
        b.reset.visitAll u ids = (.ok (),b') → b'.assembly.Safe ∧ 0 ∉ b'.graph.accepting := by
  constructor
  · intro e he
    have hsafe := safe_assemble b.settings b.label ht
    rw [(b.build_eq t).1] at he
    generalize assemble b.settings b.label t = x at hsafe he
    cases hsafe with
    | error h =>
      obtain rfl := Except.error.inj he
      exact h
    | ok h => cases he
  · intro u hu ids hids b' hb'
    have hunrolled := ht.unroll
    rw [hu] at hunrolled
    obtain ⟨hclosed,hbasic⟩ := hunrolled.of_ok
    have hrun := safe_foldlM hclosed hbasic b.settings b.label fun id hid => hids.subset hid
    obtain ⟨hresult,hassembly,-,-⟩ := b.reset.follows_visitAll u ids
    rw [hb'] at hresult hassembly
    change _ = Except.map _ (ids.foldlM (Assembly.visit b.settings b.label u) .start) at hresult
    change ∀ a, ids.foldlM (Assembly.visit b.settings b.label u) .start = _ → _ at hassembly
    generalize ids.foldlM (Assembly.visit b.settings b.label u) .start = x
      at hrun hresult hassembly
    cases hrun with
    | error h => cases hresult
    | ok hsafe =>
      obtain rfl := hassembly _ rfl
      exact ⟨hsafe,hsafe.graph.zero_notMem_accepting⟩

/-- A repetition around a whole expression, below a literal and another root. -/
def nestedRoots : Tree where
  nodes := #[{ kind := .literal 0x61 },.regexp 0,.repetition 1 0 (some 3) true,
    { kind := .literal 0x62, left := some 2, right := some 0 },.regexp 3]
  root := some 4

theorem build_safe_nestedRoots :
    nestedRoots.Closed ∧
      (∀ e, (Builder.build {} nestedRoots).1 = .error e → e.IsOrdinary) ∧
      ∀ u, nestedRoots.unroll = .ok u → ∀ ids, ids <+: u.leaveOrder → ∀ b',
        (Builder.reset {}).visitAll u ids = (.ok (),b') →
          b'.assembly.Safe ∧ 0 ∉ b'.graph.accepting := by
  have hdesc : nestedRoots.Descending := .of_forall (by decide)
  have hclosed : nestedRoots.Closed := hdesc.closed (by decide)
  exact ⟨hclosed,build_safe {} hclosed⟩

end Builder
end ByteAutomata
