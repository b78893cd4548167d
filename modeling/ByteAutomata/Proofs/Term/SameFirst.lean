import ByteAutomata.Proofs.Term.Priority

/-! # Equal first matches

Two ways to match have the same first match if every continuation that accepts some of what they
leave finds the same one first. Later matches that leave the same again do not count. Every way of
putting matches together respects this. -/
namespace ByteAutomata

/-- Whatever follows, the first match that can be continued leaves the same. -/
def SameFirst (f g : List UInt8 → List (List UInt8)) : Prop :=
  ∀ (text : List UInt8) (k : List UInt8 → Option (List UInt8)),
    (f text).findSome? k = (g text).findSome? k

/-- Between `min` and `max` rounds, those without end taking a byte each. -/
def boundedRounds (once : List UInt8 → List (List UInt8)) (min : Nat) (max : Option Nat)
    (greedy : Bool) (text : List UInt8) : List (List UInt8) :=
  (rounds once min text).flatMap fun rest =>
    match max with
    | some max => furtherRounds once greedy (max - min) rest
    | none => endlessRounds once greedy rest

namespace SameFirst
variable {f f' g g' h : List UInt8 → List (List UInt8)} {greedy : Bool}

theorem refl (f : List UInt8 → List (List UInt8)) : SameFirst f f := fun _ _ => rfl

theorem symm (hfg : SameFirst f g) : SameFirst g f := fun text k => (hfg text k).symm

theorem trans (hfg : SameFirst f g) (hgh : SameFirst g h) : SameFirst f h := fun text k =>
  (hfg text k).trans (hgh text k)

/-- Where there is no choice, it is enough that there are the same matches. -/
theorem of_mem (hmem : ∀ text rest, rest ∈ f text ↔ rest ∈ g text)
    (hsingle : ∀ text, ∀ a ∈ g text, ∀ b ∈ g text, a = b) : SameFirst f g := by
  intro text k
  cases hg : (g text).findSome? k with
  | none =>
    rw [List.findSome?_eq_none_iff] at hg ⊢
    exact fun rest hrest => hg rest ((hmem text rest).mp hrest)
  | some found =>
    obtain ⟨rest,hrest,hk⟩ := List.exists_of_findSome?_eq_some hg
    have hall : ∀ a ∈ f text, k a = some found := fun a ha => by
      rw [hsingle text a ((hmem text a).mp ha) rest hrest, hk]
    obtain ⟨first,more,hf⟩ :=
      List.exists_cons_of_ne_nil (List.ne_nil_of_mem ((hmem text rest).mpr hrest))
    rw [hf, List.findSome?_cons_of_isSome]
    · exact hall first (by simp [hf])
    · rw [hall first (by simp [hf])]
      rfl

theorem append (hf : SameFirst f f') (hg : SameFirst g g') :
    SameFirst (fun text => f text ++ g text) fun text => f' text ++ g' text := by
  intro text k
  rw [List.findSome?_append, List.findSome?_append, hf text k, hg text k]

theorem flatMap (hf : SameFirst f f') (hg : SameFirst g g') :
    SameFirst (fun text => (f text).flatMap g) fun text => (f' text).flatMap g' := by
  intro text k
  rw [findSome?_flatMap, findSome?_flatMap, hf text]
  exact findSome?_congr fun rest _ => hg rest k

protected theorem rounds (hf : SameFirst f f') (count : Nat) :
    SameFirst (rounds f count) (rounds f' count) := by
  induction count with
  | zero => exact .refl _
  | succ count ih => exact hf.flatMap ih

protected theorem furtherRounds (hf : SameFirst f f') (count : Nat) :
    SameFirst (furtherRounds f greedy count) (furtherRounds f' greedy count) := by
  induction count with
  | zero => exact .refl _
  | succ count ih =>
    have hmore := hf.flatMap ih
    intro text k
    rw [furtherRounds_succ, furtherRounds_succ]
    cases greedy with
    | true => exact hmore.append (.refl fun text => [text]) text k
    | false => exact (SameFirst.refl fun text => [text]).append hmore text k

protected theorem shorten (hf : SameFirst f f') :
    SameFirst (shorten f) (shorten f') := by
  have hfilter : ∀ (p : List UInt8 → Bool) (xs : List (List UInt8)) (k : List UInt8 → _),
      (xs.filter p).findSome? k =
        xs.findSome? fun rest => if p rest then k rest else (none : Option (List UInt8)) := by
    intro p xs k
    induction xs with
    | nil => rfl
    | cons x xs ih =>
      rw [List.filter_cons, List.findSome?_cons]
      split
      · rw [List.findSome?_cons, ih]
      · exact ih
  intro text k
  rw [shorten, shorten, hfilter, hfilter]
  exact hf text _

protected theorem endlessRounds (hf : SameFirst f f') :
    SameFirst (endlessRounds f greedy) (endlessRounds f' greedy) := fun text k =>
  hf.shorten.furtherRounds text.length text k

protected theorem boundedRounds (hf : SameFirst f f') (min : Nat) (max : Option Nat)
    (greedy : Bool) :
    SameFirst (boundedRounds f min max greedy) (boundedRounds f' min max greedy) := by
  refine (hf.rounds min).flatMap ?_
  cases max with
  | some max => exact hf.furtherRounds (max - min)
  | none => exact hf.endlessRounds

/-- Rounds that take nothing leave the text as it is. -/
theorem boundedRounds_empty (min : Nat) (max : Option Nat) :
    SameFirst (boundedRounds (fun text => [text]) min max greedy)
      fun text => [text] := by
  have hrounds : ∀ text, rounds (fun text => [text]) min text = [text] := by
    intro text
    induction min with
    | zero => rfl
    | succ min ih => rw [rounds, List.flatMap_singleton, ih]
  have hfurther : ∀ count,
      SameFirst (furtherRounds (fun text => [text]) greedy count)
        fun text => [text] := by
    intro count
    induction count with
    | zero => exact .refl _
    | succ count ih =>
      intro text k
      have hmore := ih text k
      rw [furtherRounds_succ, List.flatMap_singleton]
      cases greedy with
      | true =>
        rw [if_pos rfl, List.findSome?_append, hmore, Option.or_self]
      | false =>
        rw [if_neg Bool.false_ne_true, List.findSome?_cons, hmore, List.findSome?_singleton]
        cases k text <;> rfl
  have hendless : ∀ text,
      endlessRounds (fun text => [text]) greedy text = [text] := by
    intro text
    have hshorten : shorten (fun text => [text]) text = [] := by
      simp [shorten]
    rw [endlessRounds_eq, hshorten]
    cases greedy <;> rfl
  intro text k
  rw [boundedRounds, hrounds, List.flatMap_singleton]
  cases max with
  | some max => exact hfurther (max - min) text k
  | none => exact congrArg (List.findSome? k) (hendless text)

end SameFirst
end ByteAutomata
