import ByteAutomata.Proofs.Builder.Run

/-! # The end of a construction

The root joins its term to the start vertex and marks the vertices where the term can end. What a
construction yields is then known for every tree of basic repetitions: an error at the first
literal that cannot be represented, an error for a term that takes no byte, or the automaton of
the term. -/
namespace ByteAutomata

namespace Slot

/-- A vertex where the whole term can end completes a match. -/
def marked (label : Nat) (s : Slot) : Slot :=
  if s.gap.isOpen then
    { s with label := s.label.map fun t => { t with label, isMatch := true } }
  else s

@[simp] theorem gap_marked (label : Nat) (s : Slot) : (s.marked label).gap = s.gap := by
  unfold marked
  split <;> rfl

end Slot

theorem Leaf.transitions_unmarked {s : BuilderSettings} {l : Leaf} {ts : List Transition}
    (h : l.transitions s = some ts) : ∀ t ∈ ts, t.isMatch = false ∧ t.label = 0 := by
  cases l with
  | literal n =>
    obtain ⟨bytes,-,rfl⟩ := Option.map_eq_some_iff.mp h
    intro t ht
    obtain ⟨b,-,rfl⟩ := List.mem_map.mp ht
    unfold Assembly.byteTransition
    dsimp only
    split_ifs <;> exact ⟨rfl,rfl⟩
  | dot =>
    obtain rfl := Option.some.inj h
    simp [Transition.any, Transition.range]
  | charClass set =>
    obtain rfl := Option.some.inj h
    intro t ht
    obtain rfl := List.mem_singleton.mp ht
    unfold Transition.ofSet
    split <;> exact ⟨rfl,rfl⟩

/-- Every vertex of a term has a condition, which completes no match of its own. -/
theorem Term.label_slots {s : BuilderSettings} (e : Term) (base : Nat) :
    ∀ slot ∈ e.slots s base,
      ∃ t, slot.label = some t ∧ t.isMatch = false ∧ t.label = 0 := by
  induction e generalizing base with
  | leaf l =>
    intro slot hslot
    obtain ⟨⟨t,ht,hlabel⟩,-⟩ := Slot.mem_row base hslot
    cases hts : l.transitions s with
    | none => simp [hts] at ht
    | some ts =>
      rw [hts, Option.getD_some] at ht
      exact ⟨t,hlabel,Leaf.transitions_unmarked hts t ht⟩
  | alternation l r ihl ihr =>
    intro slot hslot
    rw [slots, List.mem_append] at hslot
    exact hslot.elim (ihl _ slot) (ihr _ slot)
  | concatenation l r ihl ihr =>
    intro slot hslot
    rw [slots, List.mem_append, List.mem_map] at hslot
    obtain ⟨slot',hslot',rfl⟩ | hslot := hslot
    · exact ihl _ slot' hslot'
    · exact ihr _ slot hslot
  | repetition min max greedy e ih =>
    intro slot hslot
    rw [slots] at hslot
    split at hslot
    · obtain ⟨slot',hslot',rfl⟩ := List.mem_map.mp hslot
      exact ih _ slot' hslot'
    · exact ih _ slot hslot

/-- The vertices of a whole automaton, the start vertex first. -/
def Term.automaton (s : BuilderSettings) (label : Nat) (e : Term) : List Slot :=
  ⟨none,.closed (e.front s 1).targets⟩ :: (e.slots s 1).map (Slot.marked label)

theorem Term.getElem?_automaton {s : BuilderSettings} {label i : Nat} {e : Term} {slot : Slot}
    (h : (e.slots s 1)[i]? = some slot) :
    (e.automaton s label)[1 + i]? = some (slot.marked label) := by
  rw [automaton, Nat.add_comm, List.getElem?_cons_succ, List.getElem?_map, h, Option.map_some]

namespace Assembly
variable {s : BuilderSettings} {t : Tree} {a : Assembly} {pre mid : List Slot} {g : Graph}
variable {stack : List Fragment} {label : Nat} {id c root : NodeId} {e : Term} {n : Nat}

/-- The end of a vertex is marked, unless it is the start vertex. -/
theorem accept_eq {v : Vertex} {t : Transition} (hv : v < g.size) (hne : v ≠ 0)
    (ht : g.label v = some t) : accept label g v = ofFault (g.mark v label true) := by
  have hlabel : g.transition v = .ok (some t) := by rw [Graph.transition_eq_ok hv, ht]
  rw [accept, if_neg hne, hlabel]
  rfl

theorem accept_all (label : Nat) (h : g.Shows (pre ++ mid)) (hpre : pre ≠ [])
    (hlabel : ∀ slot ∈ mid, slot.label ≠ none) :
    ∃ g', ((Slot.exits pre.length mid).map Prod.fst).foldlM (accept label) g = .ok g' ∧
      g'.Shows (pre ++ mid.map (Slot.marked label)) := by
  induction mid generalizing g pre with
  | nil => exact ⟨g,rfl,h⟩
  | cons slot mid ih =>
    have hrest : ∀ slot' ∈ mid, slot'.label ≠ none := fun slot' h' =>
      hlabel slot' (List.mem_cons_of_mem slot h')
    have hshift : ∀ s : Slot, pre ++ [s] ++ mid = pre ++ s :: mid := by simp
    have hlength : ∀ s : Slot, (pre ++ [s]).length = pre.length + 1 := by simp
    have hmarked : ∀ s : Slot, pre ++ [s] ++ mid.map (Slot.marked label) =
        pre ++ s :: mid.map (Slot.marked label) := by simp
    by_cases hopen : slot.gap.isOpen = true
    · obtain ⟨t,ht⟩ := Option.ne_none_iff_exists'.mp (hlabel slot List.mem_cons_self)
      obtain ⟨-,hvertex⟩ := h.vertex pre.length slot (by simp)
      have hlt : pre.length < g.size := by simp [h.size]
      have hpos : pre.length ≠ 0 := fun h0 => hpre (List.eq_nil_of_length_eq_zero h0)
      obtain ⟨g₁,h₁,hshows⟩ := h.mark label true
      rw [← hshift] at hshows
      obtain ⟨g₂,h₂,hfinal⟩ := ih hshows (by simp) hrest
      rw [hlength] at h₂
      rw [hmarked] at hfinal
      refine ⟨g₂,?_,?_⟩
      · rw [Slot.exits, if_pos hopen, List.map_cons, List.foldlM_cons,
          accept_eq hlt hpos (hvertex.trans ht), h₁]
        exact h₂
      · rw [List.map_cons, Slot.marked, if_pos hopen]
        exact hfinal
    · rw [← hshift] at h
      obtain ⟨g₂,h₂,hfinal⟩ := ih h (by simp) hrest
      rw [hlength] at h₂
      rw [hmarked] at hfinal
      refine ⟨g₂,?_,?_⟩
      · rw [Slot.exits, if_neg hopen]
        exact h₂
      · rw [List.map_cons, Slot.marked, if_neg hopen]
        exact hfinal

theorem shows_start : start.graph.Shows [⟨none,.bare⟩] := by
  have hnone : ∀ side v, start.graph.adjacency side v = .zero := by
    intro side v
    rcases Nat.eq_zero_or_pos v with rfl | hv
    · cases side <;> rfl
    · exact Graph.adjacency_of_size_le hv side
  refine ⟨⟨fun side v i h => ?_,fun side side' v v' i h h' => ?_⟩,rfl,fun v slot hv => ?_⟩
  · rw [hnone] at h
    cases h
  · rw [hnone] at h
    cases h
  · cases v with
    | zero =>
      cases hv
      exact ⟨rfl,rfl⟩
    | succ v => cases hv

theorem holds_start : start.Holds [⟨none,.bare⟩] [.single 0 none] := ⟨shows_start,rfl,rfl⟩

/-- The start vertex leads to the entries of the whole term, and is an exit if the term takes no
byte. -/
theorem Holds.join (h : a.Holds (⟨none,.bare⟩ :: e.slots s 1) [.ofTerm s e 1 c,.single 0 none])
    (he : e.Encodable s) (id : NodeId) :
    ∃ g f, a.concatenate id = .ok ⟨g,[f],false⟩ ∧
      g.Shows (⟨none,.lead false (e.front s 1).targets e.nullable .bare⟩ :: e.slots s 1) ∧
      f.exits.map Prod.fst =
        (if e.nullable then [0] else []) ++ (Slot.exits 1 (e.slots s 1)).map Prod.fst := by
  have hws : ∀ w ∈ (e.front s 1).targets, w < a.graph.size := by
    have h' : a.Holds ([⟨none,.bare⟩] ++ e.slots s 1 ++ [])
        [.ofTerm s e 1 c,.single 0 none] := by simpa using h
    exact h'.front_lt he
  obtain ⟨graph,stack',good⟩ := a
  obtain ⟨hshows,rfl,rfl⟩ := h
  have hsplit : graph.Shows ([] ++ [⟨none,.bare⟩] ++ e.slots s 1) := hshows
  obtain ⟨g,hg,hshows'⟩ := hsplit.link hws false e.nullable
  let first := Fragment.single 0 none
  let second := Fragment.ofTerm s e 1 c
  have hf : (first.moved second).concatenate second id = .ok
      { entries := [0]
        exits :=
          if second.isSkippable then
            (first.advanceExits second.entries.length).exits ++ second.exits
          else second.exits
        skip := none
        node := some id } := rfl
  refine ⟨g,_,concatenate_eq hg hf,hshows',?_⟩
  have hskip : second.isSkippable = e.nullable := by
    rw [← e.isOpen_front (s := s) 1]
    exact Gap.isSome_skip _
  rw [hskip]
  cases e.nullable <;> rfl

theorem accept_zero (label : Nat) (g : Graph) :
    accept label g 0 = .error (.rejected .zeroLengthMatch) := rfl

theorem finish_eq {g : Graph} {f : Fragment} (hlength : a.stack.length = 2)
    (h : a.concatenate id = .ok ⟨g,[f],false⟩) :
    a.finish label id =
      ((f.exits.map Prod.fst).foldlM (accept label) g).map fun g => ⟨g,[f],true⟩ := by
  rw [finish, if_neg (by simp [hlength])]
  simp only [h, ok_bind]
  cases hf : (f.exits.map Prod.fst).foldlM (accept label) g <;> simp <;> rfl

/-- An expression that takes no byte has no automaton. -/
theorem Holds.finish_nullable
    (h : a.Holds (⟨none,.bare⟩ :: e.slots s 1) [.ofTerm s e 1 c,.single 0 none])
    (he : e.Encodable s) (hn : e.nullable = true) :
    a.finish label id = .error (.rejected .zeroLengthMatch) := by
  obtain ⟨g,f,hconcat,-,hexits⟩ := h.join he id
  rw [hn, if_pos rfl] at hexits
  rw [finish_eq (by rw [h.stack]; rfl) hconcat, hexits, List.singleton_append, List.foldlM_cons,
    accept_zero]
  rfl

/-- Any other expression has its vertices marked where it can end. -/
theorem Holds.finish_productive
    (h : a.Holds (⟨none,.bare⟩ :: e.slots s 1) [.ofTerm s e 1 c,.single 0 none])
    (he : e.Encodable s) (hn : e.nullable = false) (label : Nat) (id : NodeId) :
    ∃ a', a.finish label id = .ok a' ∧ a'.graph.Shows (e.automaton s label) ∧ a'.isGood = true ∧
      a'.stack.length = 1 := by
  obtain ⟨g,f,hconcat,hshows,hexits⟩ := h.join he id
  rw [hn] at hexits hshows
  have hpart : g.Shows ([⟨none,.lead false (e.front s 1).targets false .bare⟩] ++ e.slots s 1) :=
    hshows
  have hlabel : ∀ slot ∈ e.slots s 1, slot.label ≠ none := by
    intro slot hslot
    obtain ⟨t,ht,-⟩ := e.label_slots 1 slot hslot
    simp [ht]
  obtain ⟨g',hg',hshows'⟩ := accept_all label hpart (by simp) hlabel
  refine ⟨⟨g',[f],true⟩,?_,?_,rfl,rfl⟩
  · rw [finish_eq (by rw [h.stack]; rfl) hconcat, hexits]
    exact congrArg (Except.map _) hg'
  · have hstart : Gap.lead false (e.front s 1).targets false .bare =
        .closed (e.front s 1).targets := by simp [Gap.lead, Gap.bare, Gap.closed]
    rw [hstart] at hshows'
    exact hshows'

section Tree

/-- What a construction yields for a tree whose repetitions are basic. -/
inductive Outcome (s : BuilderSettings) (label : Nat) (t : Tree) (c : NodeId) (e : Term) :
    Except BuildFailure Assembly → Prop where
  | unencodable (he : ¬ e.Encodable s) {codePoint node : Nat}
      (hfirst : (t.postorder t.size c).findSome? (t.unencodable? s) = some (codePoint,node)) :
      Outcome s label t c e (.error (.rejected (.unencodableLiteral codePoint node)))
  | nullable (he : e.Encodable s) (hn : e.nullable = true) :
      Outcome s label t c e (.error (.rejected .zeroLengthMatch))
  | automaton (he : e.Encodable s) (hn : e.nullable = false) {a : Assembly}
      (hgraph : a.graph.Shows (e.automaton s label)) (hgood : a.isGood = true)
      (hstack : a.stack.length = 1) :
      Outcome s label t c e (.ok a)

theorem outcome_ofTree (h : t.Represents root c e) (hb : e.IsBasic) :
    Outcome s label t c e (ofTree s label t) := by
  have hfold : ∀ a, t.foldLeft .fault (visit s label t) a =
      (t.postorder t.size c ++ [root]).foldlM (visit s label t) a := fun a => by
    rw [Tree.foldLeft_eq h.atRoot h.height, ← Tree.leaveOrder_eq h.atRoot h.height, h.leaveOrder]
  cases hfirst : (t.postorder t.size c).findSome? (t.unencodable? s) with
  | some p =>
    obtain ⟨codePoint,node⟩ := p
    have hstop : ofTree s label t = .error (.rejected (.unencodableLiteral codePoint node)) := by
      rw [ofTree, hfold,
        foldlM_append_error (holds_start.stops h.reads hb h.heightLE codePoint node hfirst)]
      rfl
    have he : ¬ e.Encodable s := by
      rw [← findSome_unencodable h.reads h.heightLE, hfirst]
      simp
    rw [hstop]
    exact .unencodable he hfirst
  | none =>
    have he := (findSome_unencodable h.reads h.heightLE).mp hfirst
    obtain ⟨a,ha,hholds⟩ := Holds.visits label holds_start h.reads hb h.heightLE he
    have hrun : ofTree s label t = (a.finish label root >>= fun a =>
        if a.isGood then .ok a else .error (.rejected (.malformedStack a.stack.length))) := by
      rw [ofTree, hfold, foldlM_append_ok ha, foldlM_singleton h.top]
      rfl
    cases hn : e.nullable with
    | true =>
      rw [hrun, hholds.finish_nullable he hn]
      exact .nullable he hn
    | false =>
      obtain ⟨a',ha',hgraph,hgood,hstack⟩ := hholds.finish_productive he hn label root
      rw [hrun, ha', ok_bind, if_pos hgood]
      exact .automaton he hn hgraph hgood hstack

end Tree

end Assembly
end ByteAutomata
