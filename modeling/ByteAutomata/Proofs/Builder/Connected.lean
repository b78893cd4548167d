import Mathlib.Logic.Relation
import ByteAutomata.Proofs.Builder.Layout

/-! # Ways through a layout

Every vertex of a term lies on a way from an entry to a vertex where the term can end. Operators
keep these ways: edges are only added, and where the ends of a first operand are closed, they lead
to the second one. -/
namespace ByteAutomata

theorem Gap.mem_targets_lead {g : Gap} {yields stays : Bool} {ws : List Vertex} {w : Vertex} :
    w ∈ (g.lead yields ws stays).targets ↔ w ∈ g.targets ∨ g.isOpen = true ∧ w ∈ ws := by
  rw [targets_lead]
  cases hopen : g.isOpen with
  | true =>
    simp only [if_true, targets, List.mem_append, true_and]
    exact or_right_comm
  | false => simp

namespace Slot
variable {base : Nat} {v w : Vertex} {xs ys : List Slot} {yields stays : Bool}
variable {ws entries entries' : List Vertex}

/-- An edge out of one of the vertices from `base` on. -/
def Edge (base : Nat) (slots : List Slot) (v w : Vertex) : Prop :=
  ∃ i slot, slots[i]? = some slot ∧ v = base + i ∧ w ∈ slot.gap.targets

/-- A vertex from `base` on where what follows belongs. -/
def Ends (base : Nat) (slots : List Slot) (v : Vertex) : Prop :=
  ∃ i slot, slots[i]? = some slot ∧ v = base + i ∧ slot.gap.isOpen = true

def Way (base : Nat) (slots : List Slot) : Vertex → Vertex → Prop :=
  Relation.ReflTransGen (Edge base slots)

section Parts

theorem getElem?_left {i : Nat} {slot : Slot} (h : xs[i]? = some slot) :
    (xs ++ ys)[i]? = some slot := by
  rw [List.getElem?_append_left (List.getElem?_eq_some_iff.mp h).1, h]

theorem getElem?_right {i : Nat} {slot : Slot} (h : ys[i]? = some slot) :
    (xs ++ ys)[xs.length + i]? = some slot := by
  rw [List.getElem?_append_right (Nat.le_add_right _ _), Nat.add_sub_cancel_left, h]

theorem Edge.left (h : Edge base xs v w) : Edge base (xs ++ ys) v w := by
  obtain ⟨i,slot,hslot,hv,hw⟩ := h
  exact ⟨i,slot,getElem?_left hslot,hv,hw⟩

theorem Edge.right (h : Edge (base + xs.length) ys v w) : Edge base (xs ++ ys) v w := by
  obtain ⟨i,slot,hslot,hv,hw⟩ := h
  exact ⟨xs.length + i,slot,getElem?_right hslot,by rw [hv, Nat.add_assoc],hw⟩

theorem Ends.left (h : Ends base xs v) : Ends base (xs ++ ys) v := by
  obtain ⟨i,slot,hslot,hv,hopen⟩ := h
  exact ⟨i,slot,getElem?_left hslot,hv,hopen⟩

theorem Ends.right (h : Ends (base + xs.length) ys v) : Ends base (xs ++ ys) v := by
  obtain ⟨i,slot,hslot,hv,hopen⟩ := h
  exact ⟨xs.length + i,slot,getElem?_right hslot,by rw [hv, Nat.add_assoc],hopen⟩

theorem Edge.lead (h : Edge base xs v w) :
    Edge base (xs.map (Slot.lead yields ws stays)) v w := by
  obtain ⟨i,slot,hslot,hv,hw⟩ := h
  refine ⟨i,slot.lead yields ws stays,?_,hv,Gap.mem_targets_lead.mpr (Or.inl hw)⟩
  rw [List.getElem?_map, hslot, Option.map_some]

/-- Ends get the edges that are led from them. -/
theorem Ends.edge (h : Ends base xs v) (hw : w ∈ ws) :
    Edge base (xs.map (Slot.lead yields ws stays)) v w := by
  obtain ⟨i,slot,hslot,hv,hopen⟩ := h
  refine ⟨i,slot.lead yields ws stays,?_,hv,Gap.mem_targets_lead.mpr (Or.inr ⟨hopen,hw⟩)⟩
  rw [List.getElem?_map, hslot, Option.map_some]

theorem Ends.stay (h : Ends base xs v) : Ends base (xs.map (Slot.lead yields ws true)) v := by
  obtain ⟨i,slot,hslot,hv,hopen⟩ := h
  refine ⟨i,slot.lead yields ws true,?_,hv,?_⟩
  · rw [List.getElem?_map, hslot, Option.map_some]
  · exact (slot.gap.isOpen_lead yields true ws).trans (by rw [hopen]; rfl)

theorem Way.mono {base' : Nat} (hedge : ∀ v w, Edge base xs v w → Edge base' ys v w)
    (h : Way base xs v w) : Way base' ys v w :=
  Relation.ReflTransGen.mono hedge v w h

end Parts

/-- Every vertex lies on a way from an entry to an end. -/
structure Connected (base : Nat) (slots : List Slot) (entries : List Vertex) : Prop where
  entered : ∀ i, i < slots.length → ∃ w ∈ entries, Way base slots w (base + i)
  ended : ∀ i, i < slots.length → ∃ v, Ends base slots v ∧ Way base slots (base + i) v

theorem Connected.more_entries (h : Connected base xs entries)
    (hsub : ∀ w ∈ entries, w ∈ entries') : Connected base xs entries' where
  entered i hi := by
    obtain ⟨w,hw,hway⟩ := h.entered i hi
    exact ⟨w,hsub w hw,hway⟩
  ended := h.ended

theorem Connected.entries_ne_nil (h : Connected base xs entries) (hpos : 0 < xs.length) :
    entries ≠ [] := by
  obtain ⟨w,hw,-⟩ := h.entered 0 hpos
  exact List.ne_nil_of_mem hw

/-- Edges back change nothing about it. -/
theorem Connected.lead (h : Connected base xs entries) (yields : Bool) (ws : List Vertex) :
    Connected base (xs.map (Slot.lead yields ws true)) entries where
  entered i hi := by
    rw [List.length_map] at hi
    obtain ⟨w,hw,hway⟩ := h.entered i hi
    exact ⟨w,hw,hway.mono fun _ _ => Edge.lead⟩
  ended i hi := by
    rw [List.length_map] at hi
    obtain ⟨v,hv,hway⟩ := h.ended i hi
    exact ⟨v,hv.stay,hway.mono fun _ _ => Edge.lead⟩

theorem Connected.append (hx : Connected base xs entries)
    (hy : Connected (base + xs.length) ys entries') :
    Connected base (xs ++ ys) (entries ++ entries') where
  entered i hi := by
    by_cases hleft : i < xs.length
    · obtain ⟨w,hw,hway⟩ := hx.entered i hleft
      exact ⟨w,List.mem_append_left _ hw,hway.mono fun _ _ => Edge.left⟩
    · obtain ⟨k,rfl⟩ := Nat.exists_eq_add_of_le (Nat.le_of_not_lt hleft)
      rw [List.length_append] at hi
      obtain ⟨w,hw,hway⟩ := hy.entered k (by omega)
      rw [Nat.add_assoc] at hway
      exact ⟨w,List.mem_append_right _ hw,hway.mono fun _ _ => Edge.right⟩
  ended i hi := by
    by_cases hleft : i < xs.length
    · obtain ⟨v,hv,hway⟩ := hx.ended i hleft
      exact ⟨v,hv.left,hway.mono fun _ _ => Edge.left⟩
    · obtain ⟨k,rfl⟩ := Nat.exists_eq_add_of_le (Nat.le_of_not_lt hleft)
      rw [List.length_append] at hi
      obtain ⟨v,hv,hway⟩ := hy.ended k (by omega)
      rw [Nat.add_assoc] at hway
      exact ⟨v,hv.right,hway.mono fun _ _ => Edge.right⟩

/-- The ends of the first part lead to the entries of the second one. -/
theorem Connected.sequence (hx : Connected base xs entries)
    (hy : Connected (base + xs.length) ys entries') (hnonempty : 0 < xs.length)
    (hnonempty' : entries' ≠ [])
    (hrange : ∀ w : Nat, w ∈ entries' →
      base + xs.length ≤ w ∧ w < base + xs.length + ys.length)
    (yields stays : Bool) :
    Connected base (xs.map (Slot.lead yields entries' stays) ++ ys) entries := by
  have hleft : ∀ {v w}, Way base xs v w →
      Way base (xs.map (Slot.lead yields entries' stays) ++ ys) v w := fun hway =>
    hway.mono fun _ _ hedge => hedge.lead.left
  have hlength : (xs.map (Slot.lead yields entries' stays)).length = xs.length :=
    List.length_map _
  have hright : ∀ {v w}, Way (base + xs.length) ys v w →
      Way base (xs.map (Slot.lead yields entries' stays) ++ ys) v w := fun hway =>
    hway.mono fun _ _ hedge => Edge.right (hlength ▸ hedge)
  constructor
  · intro i hi
    by_cases hfirst : i < xs.length
    · obtain ⟨w,hw,hway⟩ := hx.entered i hfirst
      exact ⟨w,hw,hleft hway⟩
    · obtain ⟨k,rfl⟩ := Nat.exists_eq_add_of_le (Nat.le_of_not_lt hfirst)
      rw [List.length_append, hlength] at hi
      obtain ⟨w,hw,hway⟩ := hy.entered k (by omega)
      -- any end of the first part has an edge to the entry that is needed
      obtain ⟨v,hv,hend⟩ := hx.ended 0 hnonempty
      obtain ⟨entry,hentry,hstart⟩ := hx.entered 0 hnonempty
      rw [Nat.add_assoc] at hway
      exact ⟨entry,hentry,((hleft (hstart.trans hend)).tail (hv.edge hw).left).trans (hright hway)⟩
  · intro i hi
    by_cases hfirst : i < xs.length
    · obtain ⟨v,hv,hend⟩ := hx.ended i hfirst
      obtain ⟨w,hw⟩ := List.exists_mem_of_ne_nil entries' hnonempty'
      obtain ⟨hle,hlt⟩ := hrange w hw
      obtain ⟨k,rfl⟩ := Nat.exists_eq_add_of_le hle
      obtain ⟨v',hv',hway⟩ := hy.ended k (by omega)
      exact ⟨v',Ends.right (hlength ▸ hv'),
        ((hleft hend).tail (hv.edge hw).left).trans (hright hway)⟩
    · obtain ⟨k,rfl⟩ := Nat.exists_eq_add_of_le (Nat.le_of_not_lt hfirst)
      rw [List.length_append, hlength] at hi
      obtain ⟨v',hv',hway⟩ := hy.ended k (by omega)
      rw [Nat.add_assoc] at hway
      exact ⟨v',Ends.right (hlength ▸ hv'),hright hway⟩

theorem connected_row {ts : List Transition} (hts : ts ≠ []) (base : Nat) :
    Connected base (row base ts) [base] := by
  induction ts generalizing base with
  | nil => exact absurd rfl hts
  | cons t ts ih =>
    cases ts with
    | nil =>
      have hends : Ends base (row base [t]) base := ⟨0,_,rfl,rfl,rfl⟩
      refine ⟨fun i hi => ?_,fun i hi => ?_⟩
      · obtain rfl : i = 0 := Nat.lt_one_iff.mp hi
        exact ⟨base,List.mem_singleton_self base,.refl⟩
      · obtain rfl : i = 0 := Nat.lt_one_iff.mp hi
        exact ⟨base,hends,.refl⟩
    | cons u us =>
      have hrest := ih (List.cons_ne_nil u us) (base + 1)
      have hsplit : row base (t :: u :: us) =
          [⟨some t,.closed [base + 1]⟩] ++ row (base + 1) (u :: us) := rfl
      have hfirst : Edge base (row base (t :: u :: us)) base (base + 1) :=
        ⟨0,_,rfl,rfl,by simp⟩
      have hright : ∀ {v w}, Way (base + 1) (row (base + 1) (u :: us)) v w →
          Way base (row base (t :: u :: us)) v w := fun hway =>
        hway.mono fun _ _ hedge => hsplit ▸ Edge.right hedge
      refine ⟨fun i hi => ?_,fun i hi => ?_⟩
      · refine ⟨base,List.mem_singleton_self base,?_⟩
        cases i with
        | zero => exact .refl
        | succ i =>
          obtain ⟨w,hw,hway⟩ := hrest.entered i (Nat.lt_of_succ_lt_succ hi)
          obtain rfl := List.mem_singleton.mp hw
          rw [Nat.add_right_comm] at hway
          exact .head hfirst (hright hway)
      · cases i with
        | zero =>
          obtain ⟨v,hv,hway⟩ := hrest.ended 0 (by simp)
          exact ⟨v,hsplit ▸ Ends.right hv,.head hfirst (hright hway)⟩
        | succ i =>
          obtain ⟨v,hv,hway⟩ := hrest.ended i (Nat.lt_of_succ_lt_succ hi)
          rw [Nat.add_right_comm] at hway
          exact ⟨v,hsplit ▸ Ends.right hv,hright hway⟩

theorem row_bounds {ts : List Transition} {slot : Slot} (h : slot ∈ row base ts) (w : Nat)
    (hw : w ∈ slot.gap.targets) : base < w ∧ w < base + ts.length := by
  induction ts generalizing base with
  | nil => cases h
  | cons t ts ih =>
    by_cases hts : ts = []
    · subst hts
      obtain rfl := List.mem_singleton.mp h
      cases hw
    · have hpos := List.length_pos_iff.mpr hts
      rw [row_cons base hts] at h
      rw [List.length_cons]
      rcases List.mem_cons.mp h with rfl | h
      · obtain rfl : w = base + 1 := by simpa using hw
        omega
      · obtain ⟨hlt,hlt'⟩ := ih h
        omega

end Slot

namespace Term
variable {s : BuilderSettings} {e : Term}

/-- No vertex of a term is dead, and none is out of reach. -/
theorem connected_slots (he : e.Encodable s) (base : Nat) :
    Slot.Connected base (e.slots s base) (e.front s base).targets := by
  induction e generalizing base with
  | leaf l =>
    obtain ⟨ts,hts⟩ := Option.ne_none_iff_exists'.mp he
    have hne : ts ≠ [] := fun hnil => l.transitions_ne_nil s (hnil ▸ hts)
    rw [slots, hts, front, Gap.targets_closed]
    exact Slot.connected_row hne base
  | alternation l r ihl ihr =>
    rw [slots, front, Gap.targets_alternate, ← length_slots l base]
    exact (ihl he.1 base).append (ihr he.2 _)
  | concatenation l r ihl ihr =>
    have hl := ihl he.1 base
    have hr := ihr he.2 (base + l.width s)
    have hposl : 0 < (l.slots s base).length := by
      rw [length_slots]
      exact l.width_pos he.1 (Leaf.transitions_ne_nil s)
    have hposr : 0 < (r.slots s (base + l.width s)).length := by
      rw [length_slots]
      exact r.width_pos he.2 (Leaf.transitions_ne_nil s)
    have hrange := r.front_bounds (base + l.width s) he.2 (Leaf.transitions_ne_nil s)
    rw [slots]
    refine Slot.Connected.more_entries (Slot.Connected.sequence hl ?_ hposl
      (hr.entries_ne_nil hposr) ?_ _ _) fun w hw => ?_
    · rwa [length_slots]
    · rwa [length_slots, length_slots]
    · rw [front, Gap.targets_sequence]
      split
      · rw [Gap.targets, List.mem_append] at hw
        simp only [List.mem_append]
        exact hw.imp_left Or.inl
      · exact hw
  | repetition min max greedy e ih =>
    have hentries : ((repetition min max greedy e).front s base).targets =
        (e.front s base).targets := by
      rw [front]
      split
      · exact Gap.targets_optional _ greedy
      · rfl
    rw [slots, hentries]
    split
    · exact (ih he base).lead _ _
    · exact ih he base

/-- Edges stay within the term. -/
theorem targets_bounds (he : e.Encodable s) (base : Nat) :
    ∀ slot ∈ e.slots s base, ∀ w : Nat, w ∈ slot.gap.targets →
      base ≤ w ∧ w < base + e.width s := by
  induction e generalizing base with
  | leaf l =>
    intro slot hslot w hw
    obtain ⟨hlt,hlt'⟩ := Slot.row_bounds hslot w hw
    exact ⟨hlt.le,hlt'⟩
  | alternation l r ihl ihr =>
    intro slot hslot w hw
    rw [slots, List.mem_append] at hslot
    rw [width]
    rcases hslot with hslot | hslot
    · have := ihl he.1 base slot hslot w hw
      omega
    · have := ihr he.2 _ slot hslot w hw
      omega
  | concatenation l r ihl ihr =>
    intro slot hslot w hw
    rw [slots, List.mem_append, List.mem_map] at hslot
    rw [width]
    rcases hslot with ⟨slot',hslot',rfl⟩ | hslot
    · rcases Gap.mem_targets_lead.mp hw with hw | ⟨-,hw⟩
      · have := ihl he.1 base slot' hslot' w hw
        omega
      · have := r.front_bounds _ he.2 (Leaf.transitions_ne_nil s) w hw
        omega
    · have := ihr he.2 _ slot hslot w hw
      omega
  | repetition min max greedy e ih =>
    intro slot hslot w hw
    rw [slots] at hslot
    split at hslot
    · obtain ⟨slot',hslot',rfl⟩ := List.mem_map.mp hslot
      rcases Gap.mem_targets_lead.mp hw with hw | ⟨-,hw⟩
      · exact ih he base slot' hslot' w hw
      · exact e.front_bounds base he (Leaf.transitions_ne_nil s) w hw
    · exact ih he base slot hslot w hw

end Term
end ByteAutomata
