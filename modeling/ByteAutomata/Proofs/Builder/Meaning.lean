import Mathlib.Algebra.BigOperators.Group.List.Basic
import ByteAutomata.Proofs.Builder.Layout

/-! # Equations of a layout

A meaning gives every vertex a value, and the value of a list of targets is the sum of theirs.
The vertices of a layout are tied together by equations: the value of a vertex comes from its
condition and from its successors, with the value of what follows in the place of the gap. -/
namespace ByteAutomata
variable {M : Type} [AddMonoid M]

/-- All of the targets, in order. -/
def reach (F : Vertex → M) (ws : List Vertex) : M := (ws.map F).sum

namespace Gap
variable (F : Vertex → M) (k : M) (g h : Gap) (ws : List Vertex)

/-- The targets, with `k` in the place of the gap. -/
def fill : M := reach F g.before + (if g.isOpen then k else 0) + reach F g.after

theorem reach_append (ws vs : List Vertex) : reach F (ws ++ vs) = reach F ws + reach F vs := by
  rw [reach, List.map_append, List.sum_append, reach, reach]

theorem reach_targets : reach F g.targets = reach F g.before + reach F g.after :=
  reach_append F g.before g.after

@[simp] theorem fill_closed : (closed ws).fill F k = reach F ws := by
  simp [fill, closed, reach]

@[simp] theorem fill_bare : bare.fill F k = k := by simp [fill, bare, reach]

theorem fill_of_not_isOpen (hg : g.isOpen = false) : g.fill F k = reach F g.targets := by
  simp [fill, hg, reach_targets]

theorem fill_zero : g.fill F 0 = reach F g.targets := by
  simp [fill, reach_targets]

theorem fill_alternate : (g.alternate h).fill F k =
    if g.isOpen then g.fill F k + reach F h.targets else reach F g.targets + h.fill F k := by
  unfold alternate
  cases hg : g.isOpen with
  | true => simp [fill, hg, reach_append, reach_targets, add_assoc]
  | false => simp [fill, reach_append, reach_targets, add_assoc]

theorem fill_optional (greedy : Bool) : (g.optional greedy).fill F k =
    if !greedy then k + reach F g.targets
    else if g.isOpen then g.fill F k else reach F g.targets + k := by
  have hnil : reach F [] = 0 := rfl
  unfold optional
  cases greedy <;> cases hg : g.isOpen <;> simp [fill, hg, hnil]

theorem fill_sequence : (g.sequence h).fill F k = g.fill F (h.fill F k) := by
  unfold sequence
  cases hg : g.isOpen with
  | true => simp [fill, hg, reach_append, add_assoc]
  | false => simp [fill, hg]

/-- What is led to comes before what follows. -/
theorem fill_lead_front (stays : Bool) :
    (g.lead false ws stays).fill F k = g.fill F (reach F ws + if stays then k else 0) := by
  unfold lead
  cases hg : g.isOpen with
  | true => simp [fill, hg, reach_append, add_assoc]
  | false => simp [fill, hg]

/-- What follows comes before what is led to. -/
theorem fill_lead_back (stays : Bool) :
    (g.lead true ws stays).fill F k = g.fill F ((if stays then k else 0) + reach F ws) := by
  unfold lead
  cases hg : g.isOpen with
  | true => simp [fill, hg, reach_append, add_assoc]
  | false => simp [fill, hg]

end Gap

namespace Slot
variable {F : Vertex → M} {enter : Option Transition → M → M} {k k' : M} {base : Nat}
variable {xs ys : List Slot}

/-- The vertices from `base` on have values that satisfy their equations, if `k` follows. -/
def Solves (F : Vertex → M) (enter : Option Transition → M → M) (k : M) (base : Nat)
    (slots : List Slot) : Prop :=
  ∀ i slot, slots[i]? = some slot → F (base + i) = enter slot.label (slot.gap.fill F k)

theorem Solves.left (h : Solves F enter k base (xs ++ ys)) : Solves F enter k base xs := by
  intro i slot hi
  have hlt := (List.getElem?_eq_some_iff.mp hi).1
  exact h i slot (by rw [List.getElem?_append_left hlt, hi])

theorem Solves.right (h : Solves F enter k base (xs ++ ys)) :
    Solves F enter k (base + xs.length) ys := by
  intro i slot hi
  rw [Nat.add_assoc]
  refine h (xs.length + i) slot ?_
  rw [List.getElem?_append_right (Nat.le_add_right _ _), Nat.add_sub_cancel_left, hi]

/-- Vertices that lead on take what they lead to for what follows. -/
theorem Solves.of_lead {yields stays : Bool} {ws : List Vertex}
    (hfill : ∀ g : Gap, (g.lead yields ws stays).fill F k = g.fill F k')
    (h : Solves F enter k base (xs.map (Slot.lead yields ws stays))) :
    Solves F enter k' base xs := by
  intro i slot hi
  have hlead := h i (slot.lead yields ws stays) (by rw [List.getElem?_map, hi, Option.map_some])
  rw [hlead, ← hfill]
  rfl

/-- A row takes its conditions one after the other. -/
theorem Solves.row {ts : List Transition} (hts : ts ≠ [])
    (h : Solves F enter k base (Slot.row base ts)) :
    F base = ts.foldr (fun t x => enter (some t) x) k := by
  induction ts generalizing base with
  | nil => exact absurd rfl hts
  | cons t ts ih =>
    cases ts with
    | nil => simpa using h 0 ⟨some t,.bare⟩ rfl
    | cons u us =>
      rw [row_cons base (by simp)] at h
      have hfirst := h 0 ⟨some t,.closed [base + 1]⟩ rfl
      have hsplit : Solves F enter k base
          ([⟨some t,.closed [base + 1]⟩] ++ Slot.row (base + 1) (u :: us)) := h
      have hrest : Solves F enter k (base + 1) (Slot.row (base + 1) (u :: us)) := hsplit.right
      rw [Nat.add_zero, Gap.fill_closed] at hfirst
      rw [hfirst, List.foldr_cons, ← ih (by simp) hrest]
      simp [reach]

end Slot
end ByteAutomata
