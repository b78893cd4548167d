import ByteAutomata.Proofs.Term.Language

/-! # Priority of matches

The matches of a term at the head of a text, the most preferred one first. Alternatives are tried
from left to right; a greedy repetition prefers another round to stopping, and a reluctant one
prefers to stop. Unrolling a term keeps the matches and their order. -/
namespace ByteAutomata

theorem findSome?_congr {α β : Type} {f g : α → Option β} {xs : List α}
    (h : ∀ x ∈ xs, f x = g x) : xs.findSome? f = xs.findSome? g := by
  induction xs with
  | nil => rfl
  | cons x xs ih =>
    rw [List.findSome?_cons, List.findSome?_cons, h x List.mem_cons_self,
      ih fun y hy => h y (List.mem_cons_of_mem x hy)]

theorem findSome?_flatMap {α β γ : Type} (f : α → List β) (g : β → Option γ) (xs : List α) :
    (xs.flatMap f).findSome? g = xs.findSome? fun x => (f x).findSome? g := by
  induction xs with
  | nil => rfl
  | cons x xs ih =>
    rw [List.flatMap_cons, List.findSome?_append, ih, List.findSome?_cons]
    cases (f x).findSome? g <;> rfl

/-- The rest of the text behind one byte for each condition. -/
def strip : List (UInt8 → Bool) → List UInt8 → List (List UInt8)
  | [], text => [text]
  | _ :: _, [] => []
  | p :: ps, b :: text => if p b then strip ps text else []

def Leaf.rests (s : BuilderSettings) (l : Leaf) (text : List UInt8) : List (List UInt8) :=
  match l.conditions s with
  | some ps => strip ps text
  | none => []

/-- What is left behind exactly `count` rounds. -/
def rounds (once : List UInt8 → List (List UInt8)) : Nat → List UInt8 → List (List UInt8)
  | 0, text => [text]
  | count + 1, text => (once text).flatMap (rounds once count)

/-- What is left behind at most `count` rounds. -/
def furtherRounds (once : List UInt8 → List (List UInt8)) (greedy : Bool) :
    Nat → List UInt8 → List (List UInt8)
  | 0, text => [text]
  | count + 1, text =>
    let more := (once text).flatMap (furtherRounds once greedy count)
    if greedy then more ++ [text] else text :: more

/-- The rounds that take at least one byte. -/
def shorten (once : List UInt8 → List (List UInt8)) (text : List UInt8) : List (List UInt8) :=
  (once text).filter fun rest => rest.length < text.length

/-- What is left behind any number of rounds that take a byte each. -/
def endlessRounds (once : List UInt8 → List (List UInt8)) (greedy : Bool) (text : List UInt8) :
    List (List UInt8) :=
  furtherRounds (shorten once) greedy text.length text

namespace Term

/-- What the matches of a term at the head of the text leave, the most preferred match first. -/
@[simp] def rests (s : BuilderSettings) : Term → List UInt8 → List (List UInt8)
  | leaf l, text => l.rests s text
  | alternation l r, text => l.rests s text ++ r.rests s text
  | concatenation l r, text => (l.rests s text).flatMap (r.rests s)
  | repetition min max greedy e, text =>
    (rounds (e.rests s) min text).flatMap fun rest =>
      match max with
      | some max => furtherRounds (e.rests s) greedy (max - min) rest
      | none => endlessRounds (e.rests s) greedy rest

/-- The offsets where the matches from `start` on end, the most preferred match first. -/
def matchEnds (s : BuilderSettings) (e : Term) (text : List UInt8) (start : Nat) : List Nat :=
  (e.rests s (text.drop start)).map fun rest => text.length - rest.length

end Term

section Rounds
variable (once : List UInt8 → List (List UInt8)) (greedy : Bool)

theorem rounds_one : rounds once 1 = once := by
  funext text
  simp [rounds]

theorem rounds_add (m n : Nat) (text : List UInt8) :
    rounds once (m + n) text = (rounds once m text).flatMap (rounds once n) := by
  induction m generalizing text with
  | zero => simp [rounds]
  | succ m ih =>
    rw [Nat.succ_add, rounds, rounds, List.flatMap_assoc]
    exact List.flatMap_congr fun t _ => ih t

theorem furtherRounds_zero : furtherRounds once greedy 0 = fun text => [text] := rfl

theorem furtherRounds_succ (count : Nat) (text : List UInt8) :
    furtherRounds once greedy (count + 1) text =
      if greedy then (once text).flatMap (furtherRounds once greedy count) ++ [text]
      else text :: (once text).flatMap (furtherRounds once greedy count) := rfl

theorem length_lt_of_mem_shorten {rest text : List UInt8} (h : rest ∈ shorten once text) :
    rest.length < text.length := by
  simpa using (List.mem_filter.mp h).2

theorem shorten_nil : shorten once [] = [] :=
  List.eq_nil_iff_forall_not_mem.mpr fun rest h => by
    have hlt := length_lt_of_mem_shorten once h
    simp at hlt

/-- More rounds than bytes make no difference. -/
theorem furtherRounds_shorten_eq {m n : Nat} {text : List UInt8} (hm : text.length ≤ m)
    (hn : text.length ≤ n) :
    furtherRounds (shorten once) greedy m text = furtherRounds (shorten once) greedy n text := by
  have hnil : ∀ k, furtherRounds (shorten once) greedy k [] = [[]] := by
    intro k
    cases k <;> simp [furtherRounds, shorten_nil]
  induction m generalizing n text with
  | zero =>
    obtain rfl := List.eq_nil_of_length_eq_zero (Nat.le_zero.mp hm)
    rw [hnil, hnil]
  | succ m ih =>
    cases n with
    | zero =>
      obtain rfl := List.eq_nil_of_length_eq_zero (Nat.le_zero.mp hn)
      rw [hnil, hnil]
    | succ n =>
      have hmore : (shorten once text).flatMap (furtherRounds (shorten once) greedy m) =
          (shorten once text).flatMap (furtherRounds (shorten once) greedy n) := by
        apply List.flatMap_congr
        intro rest hrest
        have hlt := length_lt_of_mem_shorten once hrest
        exact ih (by omega) (by omega)
      rw [furtherRounds_succ, furtherRounds_succ, hmore]

/-- Another round that takes a byte and all that may follow it, or stopping. -/
theorem endlessRounds_eq (text : List UInt8) :
    endlessRounds once greedy text =
      if greedy then (shorten once text).flatMap (endlessRounds once greedy) ++ [text]
      else text :: (shorten once text).flatMap (endlessRounds once greedy) := by
  have hmore : (shorten once text).flatMap (furtherRounds (shorten once) greedy text.length) =
      (shorten once text).flatMap (endlessRounds once greedy) := by
    apply List.flatMap_congr
    intro rest hrest
    have hlt := length_lt_of_mem_shorten once hrest
    exact furtherRounds_shorten_eq once greedy hlt.le le_rfl
  rw [← hmore, ← furtherRounds_succ]
  exact furtherRounds_shorten_eq once greedy le_rfl (Nat.le_succ _)

end Rounds

namespace Term
variable (s : BuilderSettings)

theorem rests_copies (e tail : Term) (n : Nat) (text : List UInt8) :
    (e.copies n tail).rests s text = (rounds (e.rests s) n text).flatMap (tail.rests s) := by
  induction n generalizing text with
  | zero => simp [copies, rounds]
  | succ n ih =>
    rw [copies, rests, rounds, List.flatMap_assoc]
    exact List.flatMap_congr fun rest _ => ih rest

theorem rests_option (e : Term) (greedy : Bool) (text : List UInt8) :
    (repetition 0 (some 1) greedy e).rests s text = furtherRounds (e.rests s) greedy 1 text := by
  simp [rests, rounds]

theorem rests_star (e : Term) (greedy : Bool) (text : List UInt8) :
    (repetition 0 none greedy e).rests s text = endlessRounds (e.rests s) greedy text := by
  simp [rests, rounds]

theorem rests_plus (e : Term) (greedy : Bool) (text : List UInt8) :
    (repetition 1 none greedy e).rests s text =
      (e.rests s text).flatMap (endlessRounds (e.rests s) greedy) := by
  simp [rests, rounds_one]

theorem rests_options (e : Term) (greedy : Bool) (n : Nat) (text : List UInt8) :
    (e.options greedy n).rests s text = furtherRounds (e.rests s) greedy (n + 1) text := by
  induction n generalizing text with
  | zero => exact rests_option s e greedy text
  | succ n ih =>
    have hmore : ∀ t, ((e.rests s t).flatMap ((e.options greedy n).rests s)) =
        (e.rests s t).flatMap (furtherRounds (e.rests s) greedy (n + 1)) :=
      fun t => List.flatMap_congr fun rest _ => ih rest
    rw [options, rests_option, furtherRounds_succ, furtherRounds_succ, ← hmore,
      furtherRounds_zero, List.flatMap_singleton', rests]

theorem rests_unrollRepetition {e e' : Term} {min : Nat} {max : Option Nat} {greedy : Bool}
    (h : e.unrollRepetition min max greedy = some e') (text : List UInt8) :
    e'.rests s text = (repetition min max greedy e).rests s text := by
  obtain ⟨rfl,rfl,rfl⟩ | ⟨n,rfl,rfl,rfl⟩ | ⟨n,rfl,rfl,rfl⟩ | ⟨n,rfl,rfl⟩ :=
    unrollRepetition_cases h
  · rfl
  · rw [rests_copies, rests, rounds_add, List.flatMap_assoc, rounds_one]
    exact List.flatMap_congr fun rest _ => rests_plus s e greedy rest
  · rw [rests_copies, rests, rounds_add, rounds_one]
    simp [furtherRounds_zero]
  · rw [rests_copies, rests]
    refine List.flatMap_congr fun rest _ => ?_
    rw [rests_options]
    simp [Nat.add_assoc]

/-- A term and its unrolled form have the same matches in the same order. -/
theorem rests_unroll {e e' : Term} (h : e.unroll = some e') : e'.rests s = e.rests s := by
  induction e generalizing e' with
  | leaf l =>
    cases h
    rfl
  | alternation l r ihl ihr =>
    obtain ⟨l',r',hl,hr,rfl⟩ := unroll_alternation.mp h
    funext text
    rw [rests, rests, ihl hl, ihr hr]
  | concatenation l r ihl ihr =>
    obtain ⟨l',r',hl,hr,rfl⟩ := unroll_concatenation.mp h
    funext text
    rw [rests, rests, ihl hl, ihr hr]
  | repetition min max greedy e ih =>
    obtain ⟨e₀,he,h⟩ := unroll_repetition.mp h
    funext text
    rw [rests_unrollRepetition s h, rests, rests, ih he]

end Term
end ByteAutomata
