/-! # Sets of numbers as intervals

A set is kept as disjoint intervals in ascending order, each given by its ends. A union joins
intervals that touch. The numbers in use need not be all the numbers there are: those of
characters leave out the surrogates, so the next number after an interval, and the one before it,
depend on what the numbers stand for. -/
namespace ByteAutomata

/-- The numbers in use, from zero to `last`. -/
structure Points where
  last : Nat
  next : Nat → Nat
  prev : Nat → Nat

def AscendingRanges (last : Nat) (ranges : List (Nat × Nat)) : Prop :=
  ranges.Pairwise (fun r s => r.2 < s.1) ∧ ∀ r ∈ ranges, r.1 ≤ r.2 ∧ r.2 ≤ last

structure Intervals (p : Points) where
  ranges : List (Nat × Nat)
  ascending : AscendingRanges p.last ranges
deriving DecidableEq

namespace Intervals

/-- Adds an interval to ascending ones, joined with those that it overlaps, or that are no more
than `reach` away from it. -/
def insertRange (reach : Nat) (r : Nat × Nat) : List (Nat × Nat) → List (Nat × Nat)
  | [] => [r]
  | s :: rest =>
    if r.2 + reach < s.1 then r :: s :: rest
    else if s.2 + reach < r.1 then s :: insertRange reach r rest
    else insertRange reach (min r.1 s.1, max r.2 s.2) rest

theorem lt_insertRange {reach k : Nat} {r : Nat × Nat} {ranges : List (Nat × Nat)} (hr : k < r.1)
    (h : ∀ s ∈ ranges, k < s.1) : ∀ s ∈ insertRange reach r ranges, k < s.1 := by
  induction ranges generalizing r with
  | nil => simpa [insertRange] using hr
  | cons s rest ih =>
    have hs : k < s.1 := h s (by simp)
    have hrest : ∀ s ∈ rest, k < s.1 := fun x hx => h x (by simp [hx])
    unfold insertRange
    split
    · intro x hx
      rcases List.mem_cons.1 hx with rfl | hx
      · exact hr
      · exact h x hx
    · split
      · intro x hx
        rcases List.mem_cons.1 hx with rfl | hx
        · exact hs
        · exact ih hr hrest x hx
      · exact ih (by simp only; omega) hrest

theorem ascending_insertRange {reach last : Nat} {r : Nat × Nat} {ranges : List (Nat × Nat)}
    (hr : r.1 ≤ r.2 ∧ r.2 ≤ last) (h : AscendingRanges last ranges) :
    AscendingRanges last (insertRange reach r ranges) := by
  induction ranges generalizing r with
  | nil => exact ⟨by simp [insertRange],by simpa [insertRange] using hr⟩
  | cons s rest ih =>
    obtain ⟨hp,hb⟩ := h
    obtain ⟨hs,hp'⟩ := List.pairwise_cons.1 hp
    have hsb := hb s (by simp)
    have hrest : AscendingRanges last rest := ⟨hp',fun x hx => hb x (by simp [hx])⟩
    unfold insertRange
    split
    · refine ⟨List.pairwise_cons.2 ⟨?_,hp⟩,?_⟩
      · intro x hx
        rcases List.mem_cons.1 hx with rfl | hx
        · omega
        · have := hs x hx
          omega
      · intro x hx
        rcases List.mem_cons.1 hx with rfl | hx
        · exact hr
        · exact hb x hx
    · split
      · obtain ⟨ip,ib⟩ := ih hr hrest
        refine ⟨List.pairwise_cons.2 ⟨lt_insertRange (by omega) hs,ip⟩,?_⟩
        intro x hx
        rcases List.mem_cons.1 hx with rfl | hx
        · exact hsb
        · exact ib x hx
      · exact ih (by simp only; omega) hrest

theorem ascending_foldr {reach last : Nat} {ranges : List (Nat × Nat)}
    (h : ∀ r ∈ ranges, r.1 ≤ r.2 ∧ r.2 ≤ last) :
    AscendingRanges last (ranges.foldr (insertRange reach) []) := by
  induction ranges with
  | nil => exact ⟨by simp,by simp⟩
  | cons r rest ih =>
    exact ascending_insertRange (h r (by simp)) (ih fun x hx => h x (by simp [hx]))

variable {p : Points}

/-- The set of all intervals given, of which one that is reversed or too high is left out. -/
def collect (reach : Nat) (ranges : List (Nat × Nat)) : Intervals p where
  ranges := (ranges.filter fun r => r.1 ≤ r.2 ∧ r.2 ≤ p.last).foldr (insertRange reach) []
  ascending := ascending_foldr fun r hr => by simpa using (List.mem_filter.1 hr).2

def ofRanges (ranges : List (Nat × Nat)) : Intervals p := collect 1 ranges

def empty : Intervals p := ⟨[],by simp,by simp⟩

def singleton (n : Nat) : Intervals p := ofRanges [(n, n)]

def isEmpty (s : Intervals p) : Bool := s.ranges.isEmpty

def contains (s : Intervals p) (n : Nat) : Bool := s.ranges.any fun r => r.1 ≤ n ∧ n ≤ r.2

def isBelow (s : Intervals p) (n : Nat) : Bool := s.ranges.all fun r => r.2 < n

def union (s t : Intervals p) : Intervals p := ofRanges (s.ranges ++ t.ranges)

def inter (s t : Intervals p) : Intervals p :=
  collect 0 (s.ranges.flatMap fun r => t.ranges.map fun u => (max r.1 u.1, min r.2 u.2))

def between (a b : Nat) : Nat × Nat := (min a b, max a b)

/-- The gaps behind an interval that ends at `n` and between the ones that follow it. A gap goes
from the number after an interval to the number before the next one. -/
def gapsAfter (p : Points) (n : Nat) : List (Nat × Nat) → List (Nat × Nat)
  | [] => if n < p.last then [between (p.next n) p.last] else []
  | r :: rest => between (p.next n) (p.prev r.1) :: gapsAfter p r.2 rest

def gaps (p : Points) : List (Nat × Nat) → List (Nat × Nat)
  | [] => [(0, p.last)]
  | r :: rest =>
    if 0 < r.1 then between 0 (p.prev r.1) :: gapsAfter p r.2 rest else gapsAfter p r.2 rest

def compl (s : Intervals p) : Intervals p := collect 0 (gaps p s.ranges)

def cut (p : Points) (u r : Nat × Nat) : List (Nat × Nat) :=
  if r.2 < u.1 ∨ u.2 < r.1 then [r]
  else
    (if r.1 < u.1 then [(r.1, p.prev u.1)] else [])
      ++ (if u.2 < r.2 then [(p.next u.2, r.2)] else [])

def diff (s t : Intervals p) : Intervals p :=
  collect 0 (t.ranges.foldl (fun pieces u => pieces.flatMap (cut p u)) s.ranges)

def symmDiff (s t : Intervals p) : Intervals p := (s.union t).diff (s.inter t)

def single? (s : Intervals p) : Option Nat :=
  match s.ranges with
  | [(lo, hi)] => if lo = hi then some lo else none
  | _ => none

end Intervals
end ByteAutomata
