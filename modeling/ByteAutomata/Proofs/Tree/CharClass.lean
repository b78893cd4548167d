import Mathlib.Data.Finset.Sort
import ByteAutomata.Proofs.SetOperations
import ByteAutomata.Proofs.Tree.Closed
import ByteAutomata.Proofs.Tree.Denotation

/-! # Classes as alternations

A class that goes beyond ASCII becomes one literal for each of its characters, in ascending order.
Whether it is too large is decided by the ends of its intervals. This counts the surrogates between
the ends as well, although none of them is a character. -/
namespace ByteAutomata

namespace Intervals
variable {ranges : List (Nat × Nat)} {last n : Nat}

/-- All numbers within the intervals, one interval after the other. -/
def numbers (ranges : List (Nat × Nat)) : List Nat :=
  ranges.flatMap fun r => List.range' r.1 (r.2 - r.1 + 1)

theorem mem_numbers (h : ∀ r ∈ ranges, r.1 ≤ r.2) : n ∈ numbers ranges ↔ Covers ranges n := by
  simp only [numbers, List.mem_flatMap, List.mem_range'_1, Covers]
  refine exists_congr fun r => and_congr_right fun hr => ?_
  have hle := h r hr
  omega

theorem pairwise_numbers (h : AscendingRanges last ranges) :
    (numbers ranges).Pairwise (· < ·) := by
  apply List.pairwise_flatMap.mpr
  refine ⟨fun r _ => List.pairwise_lt_range',?_⟩
  apply h.1.imp_of_mem
  intro r s hr _ hrs x hx y hy
  rw [List.mem_range'_1] at hx hy
  have hle := (h.2 r hr).1
  omega

theorem length_numbers : (numbers ranges).length = Tree.spread ranges := by
  have hfoldl : ∀ n, ranges.foldl (fun n r => n + (r.2 - r.1 + 1)) n =
      n + (numbers ranges).length := by
    induction ranges with
    | nil => exact fun n => rfl
    | cons r ranges ih =>
      intro n
      have hcons : numbers (r :: ranges) =
          List.range' r.1 (r.2 - r.1 + 1) ++ numbers ranges := List.flatMap_cons
      rw [List.foldl_cons, ih, hcons, List.length_append, List.length_range', Nat.add_assoc]
  rw [Tree.spread, hfoldl, Nat.zero_add]

/-- The numbers up to the last one are enough for all intervals together. -/
theorem spread_le (h : AscendingRanges last ranges) : Tree.spread ranges ≤ last + 1 := by
  have hsub : (numbers ranges).toFinset ⊆ Finset.range (last + 1) := by
    intro n hn
    obtain ⟨r,hr,-,hhi⟩ := (mem_numbers fun r hr => (h.2 r hr).1).mp (List.mem_toFinset.mp hn)
    exact Finset.mem_range.mpr (Nat.lt_succ_of_le (hhi.trans (h.2 r hr).2))
  have hnodup : (numbers ranges).Nodup := (pairwise_numbers h).imp Nat.ne_of_lt
  rw [← length_numbers, ← List.toFinset_card_of_nodup hnodup]
  exact (Finset.card_le_card hsub).trans_eq (Finset.card_range _)

end Intervals

namespace CharClass
variable {set : CharClass} {n : Nat}

/-- The code points of the characters in a class. -/
def members (set : CharClass) : Finset Nat :=
  (Finset.range 0x110000).filter fun n => Utf8.IsScalar n ∧ set.contains n = true

/-- Some interval starts in front of the surrogates and ends behind them. -/
def SpansSurrogates (set : CharClass) : Prop := ∃ r ∈ set.ranges, r.1 < 0xD800 ∧ 0xDFFF < r.2

theorem mem_members : n ∈ set.members ↔ Utf8.IsScalar n ∧ set.contains n = true := by
  rw [members, Finset.mem_filter, Finset.mem_range, and_iff_right_iff_imp]
  rintro ⟨-,hn⟩
  exact Nat.lt_succ_of_le (Intervals.le_last hn)

theorem scalars_eq : Tree.scalars set = (Intervals.numbers set.ranges).filter Utf8.IsScalar :=
  List.filter_flatMap.symm

theorem sort_members : set.members.sort (· ≤ ·) = Tree.scalars set := by
  have hpairwise : (Tree.scalars set).Pairwise (· < ·) := by
    rw [scalars_eq]
    exact (Intervals.pairwise_numbers set.ascending).filter _
  have hsame : set.members = (Tree.scalars set).toFinset := by
    ext n
    rw [mem_members, List.mem_toFinset, Tree.mem_scalars]
  rw [hsame]
  exact (List.toFinset_sort (· ≤ ·) (hpairwise.imp Nat.ne_of_lt)).mpr (hpairwise.imp Nat.le_of_lt)

/-- What is counted are the members and, within an interval that spans them, the surrogates. -/
theorem spread_eq (hends : Intervals.Ends Utf8.IsScalar set.ranges) (h : ¬ set.SpansSurrogates) :
    Tree.spread set.ranges = set.members.card := by
  rw [← Intervals.length_numbers, ← Finset.length_sort (· ≤ ·), sort_members, scalars_eq,
    List.filter_eq_self.mpr]
  intro n hn
  obtain ⟨r,hr,hlo,hhi⟩ :=
    (Intervals.mem_numbers fun r hr => (set.ascending.2 r hr).1).mp hn
  have hr' : ¬ (r.1 < 0xD800 ∧ 0xDFFF < r.2) := fun hspan => h ⟨r,hr,hspan⟩
  obtain ⟨h₁,h₂⟩ := hends r hr
  apply decide_eq_true
  unfold Utf8.IsScalar at h₁ h₂ ⊢
  omega

theorem lt_spread (h : set.SpansSurrogates) : maxClassSize < Tree.spread set.ranges := by
  obtain ⟨r,hr,hlo,hhi⟩ := h
  have hsub : (List.range' r.1 (r.2 - r.1 + 1)).Sublist (Intervals.numbers set.ranges) :=
    List.sublist_flatten_of_mem (List.mem_map_of_mem hr)
  have hle := hsub.length_le
  rw [List.length_range', Intervals.length_numbers] at hle
  have hmax : maxClassSize = 256 := rfl
  omega

/-- The sum that is compared with the largest size is too large for these reasons. -/
theorem spread_large_iff (hends : Intervals.Ends Utf8.IsScalar set.ranges) :
    maxClassSize < Tree.spread set.ranges ↔
      maxClassSize < set.members.card ∨ set.SpansSurrogates := by
  by_cases hspan : set.SpansSurrogates
  · exact iff_of_true (lt_spread hspan) (Or.inr hspan)
  · rw [spread_eq hends hspan, or_iff_left hspan]

theorem toByteClass_of_wide (h : ∃ n, 0x80 ≤ n ∧ set.contains n = true) :
    set.toByteClass? = none := by
  obtain ⟨n,hn,hset⟩ := h
  cases hbytes : set.toByteClass? with
  | none => rfl
  | some bytes =>
    obtain ⟨r,hr,-,hhi⟩ := Intervals.contains_iff.mp hset
    have hlt := Intervals.isBelow_iff.mp (toByteClass_eq_some hbytes).1 r hr
    omega

end CharClass

/-- Where every item has a term, none is left out and nothing is optional. -/
theorem Term.alternationOf_literals (ns : List Nat) :
    alternationOf (ns.map fun n => some (.leaf (.literal n))) =
      chain .alternation (ns.map fun n => .leaf (.literal n)) := by
  have hall : (ns.map fun n => some (Term.leaf (.literal n))).reduceOption =
      ns.map fun n => .leaf (.literal n) := by
    simp [List.reduceOption, List.filterMap_map]
  have hnone : (ns.map fun n => some (Term.leaf (.literal n))).any (·.isNone) = false := by simp
  rw [alternationOf, hall, hnone]
  exact Option.map_id'

namespace Tree
variable {t : Tree} {set : CharClass}

section Literals

theorem size_addLeaves (t : Tree) (kinds : List NodeKind) :
    (t.addLeaves kinds).2.size = t.size + kinds.length := by
  induction kinds generalizing t with
  | nil => rfl
  | cons kind kinds ih =>
    have hpush : (t.push { kind }).size = t.size + 1 := Array.size_push _
    rw [addLeaves_cons]
    simp only
    rw [ih, hpush, List.length_cons]
    omega

theorem lowersAll_literals (hd : t.Descending) (ns : List Nat) :
    t.LowersAll (t.addLeaves (ns.map .literal)) (ns.map fun n => some (.leaf (.literal n))) := by
  have hkinds : ns.map NodeKind.literal = (ns.map Leaf.literal).map fun l => l.node.kind := by
    rw [List.map_map]
    rfl
  have hall := lowersAll_addLeaves hd _ hkinds
  rwa [List.map_map] at hall

theorem size_chain (operator : NodeId → NodeId → Node) (ids : List NodeId) :
    (t.chain operator ids).2.size = t.size + (ids.length - 1) := by
  have hfoldl : ∀ (ids : List NodeId) (r : NodeId × Tree),
      (ids.foldl (fun r right => r.2.add (operator r.1 right)) r).2.size =
        r.2.size + ids.length := by
    intro ids
    induction ids with
    | nil => exact fun r => rfl
    | cons id ids ih =>
      intro r
      rw [List.foldl_cons, ih, size_add, List.length_cons]
      omega
  cases ids with
  | nil => rfl
  | cons first rest => exact hfoldl rest (first,t)

/-- Where no alternative is empty, none is left out and nothing is optional. -/
theorem addAlternation_map_some (t : Tree) (ids : List NodeId) :
    t.addAlternation (ids.map some) = t.chain .alternation ids := by
  have hids : (ids.map some).filterMap id = ids := by simp [List.filterMap_map]
  have hnone : (ids.map some).contains none = false := by simp
  rw [addAlternation, hids, hnone]
  obtain ⟨id?,t'⟩ := t.chain .alternation ids
  cases id? <;> rfl

/-- One literal for each number, and the alternations that join them from the left. -/
theorem addAlternation_literals (hd : t.Descending) (first : Nat) (rest : List Nat) :
    ∃ id t', (t.addLeaves ((first :: rest).map .literal)).2.addAlternation
        (t.addLeaves ((first :: rest).map .literal)).1 = (some id,t') ∧ t.Extends t' ∧
      t'.Reads id (rest.foldl (fun e n => .alternation e (.leaf (.literal n)))
        (.leaf (.literal first))) ∧
      t'.size + 1 = t.size + 2 * (first :: rest).length := by
  have hlowers := (lowersAll_literals hd (first :: rest)).alternation
  have hterm : Term.alternationOf ((first :: rest).map fun n => some (.leaf (.literal n))) =
      some (rest.foldl (fun e n => .alternation e (.leaf (.literal n)))
        (.leaf (.literal first))) := by
    rw [Term.alternationOf_literals]
    exact congrArg some List.foldl_map
  have hsize : ((t.addLeaves ((first :: rest).map .literal)).2.addAlternation
      (t.addLeaves ((first :: rest).map .literal)).1).2.size + 1 =
        t.size + 2 * (first :: rest).length := by
    have hids : (t.addLeaves ((first :: rest).map .literal)).1 =
        (List.range' t.size (first :: rest).length).map some := by
      rw [addLeaves, List.length_map]
    rw [hids, addAlternation_map_some, size_chain, size_addLeaves, List.length_range',
      List.length_map, List.length_cons]
    omega
  generalize (t.addLeaves ((first :: rest).map .literal)).2.addAlternation
    (t.addLeaves ((first :: rest).map .literal)).1 = made at hlowers hsize ⊢
  obtain ⟨id?,t'⟩ := made
  obtain ⟨keeps,-,reads⟩ := hlowers
  rw [hterm] at reads
  cases reads with
  | @some id _ reads => exact ⟨id,t',rfl,keeps,reads,hsize⟩

end Literals

/-- A class with a member beyond ASCII is too large if it has too many members or spans the
surrogates. Otherwise it becomes the alternation of its members in ascending order. -/
theorem addCharClass_expansion (hd : t.Descending)
    (hends : Intervals.Ends Utf8.IsScalar set.ranges)
    (hwide : ∃ n, 0x80 ≤ n ∧ set.contains n = true) :
    (t.addCharClass set = .error .classTooLarge ↔
      maxClassSize < set.members.card ∨ set.SpansSurrogates) ∧
    (¬ (maxClassSize < set.members.card ∨ set.SpansSurrogates) →
      ∃ id t' first rest, t.addCharClass set = .ok (some id,t') ∧ t.Extends t' ∧
        set.members.sort (· ≤ ·) = first :: rest ∧
        t'.Reads id (rest.foldl (fun e n => .alternation e (.leaf (.literal n)))
          (.leaf (.literal first))) ∧
        t'.size + 1 = t.size + 2 * set.members.card) ∧
    spread set.ranges ≤ 0x110000 := by
  have hbytes := CharClass.toByteClass_of_wide hwide
  have hadd : t.addCharClass set = if maxClassSize < spread set.ranges then .error .classTooLarge
      else .ok ((t.addLeaves ((scalars set).map .literal)).2.addAlternation
        (t.addLeaves ((scalars set).map .literal)).1) := by
    rw [addCharClass, hbytes]
  rw [hadd, ← CharClass.spread_large_iff hends]
  refine ⟨?_,fun hsmall => ?_,Intervals.spread_le set.ascending⟩
  · split
    · rename_i hlarge
      exact iff_of_true rfl hlarge
    · rename_i hsmall
      exact iff_of_false (by simp) hsmall
  · obtain ⟨first,rest,hscalars⟩ := List.exists_cons_of_ne_nil
      (scalars_ne_nil hends (CharClass.toByteClass_eq_none hbytes).2)
    obtain ⟨id,t',hmade,keeps,reads,hsize⟩ := addAlternation_literals hd first rest
    have hcard : set.members.card = (first :: rest).length := by
      rw [← hscalars, ← CharClass.sort_members, Finset.length_sort]
    rw [if_neg hsmall, hscalars, hmade, hcard]
    exact ⟨id,t',first,rest,rfl,keeps,CharClass.sort_members.trans hscalars,reads,hsize⟩

/-- The characters `a`, `b`, `c` and `é`. -/
def lettersAndAccent : CharClass := .ofRanges [(0xE9,0xE9),(0x61,0x63)]

theorem addCharClass_expansion_lettersAndAccent :
    empty.Descending ∧ Intervals.Ends Utf8.IsScalar lettersAndAccent.ranges ∧
      (∃ n, 0x80 ≤ n ∧ lettersAndAccent.contains n = true) ∧
      (empty.addCharClass lettersAndAccent = .error .classTooLarge ↔
        maxClassSize < lettersAndAccent.members.card ∨ lettersAndAccent.SpansSurrogates) ∧
      (¬ (maxClassSize < lettersAndAccent.members.card ∨ lettersAndAccent.SpansSurrogates) →
        ∃ id t' first rest, empty.addCharClass lettersAndAccent = .ok (some id,t') ∧
          empty.Extends t' ∧ lettersAndAccent.members.sort (· ≤ ·) = first :: rest ∧
          t'.Reads id (rest.foldl (fun e n => .alternation e (.leaf (.literal n)))
            (.leaf (.literal first))) ∧
          t'.size + 1 = empty.size + 2 * lettersAndAccent.members.card) ∧
      spread lettersAndAccent.ranges ≤ 0x110000 := by
  have hends : Intervals.Ends Utf8.IsScalar lettersAndAccent.ranges := by
    apply Intervals.ends_ofRanges
    exact Intervals.ends_cons.mpr ⟨by decide,Intervals.ends_cons.mpr ⟨by decide,
      Intervals.ends_nil⟩⟩
  have hwide : ∃ n, 0x80 ≤ n ∧ lettersAndAccent.contains n = true := ⟨0xE9,by decide,by decide⟩
  exact ⟨descending_empty,hends,hwide,addCharClass_expansion descending_empty hends hwide⟩

/-- The two characters next to the surrogates. -/
def besideSurrogates : CharClass := .ofRanges [(0xD7FF,0xE000)]

/-- Two characters are too many if the surrogates lie between them. -/
theorem addCharClass_besideSurrogates :
    Intervals.Ends Utf8.IsScalar besideSurrogates.ranges ∧
      (∃ n, 0x80 ≤ n ∧ besideSurrogates.contains n = true) ∧
      besideSurrogates.members = {0xD7FF,0xE000} ∧
      ¬ maxClassSize < besideSurrogates.members.card ∧
      empty.addCharClass besideSurrogates = .error .classTooLarge := by
  have hends : Intervals.Ends Utf8.IsScalar besideSurrogates.ranges := by
    apply Intervals.ends_ofRanges
    exact Intervals.ends_cons.mpr ⟨by decide,Intervals.ends_nil⟩
  have hmembers : besideSurrogates.members = {0xD7FF,0xE000} := by
    ext n
    have hrange : besideSurrogates.contains n = true ↔ 0xD7FF ≤ n ∧ n ≤ 0xE000 := by
      have hlast : 0xE000 ≤ Points.chars.last := by decide
      rw [besideSurrogates, Intervals.contains_ofRanges]
      simp only [List.mem_singleton, exists_eq_left]
      exact and_iff_right hlast
    rw [CharClass.mem_members, hrange, Finset.mem_insert, Finset.mem_singleton, Utf8.IsScalar]
    omega
  have hsmall : ¬ maxClassSize < besideSurrogates.members.card := by
    rw [hmembers]
    decide
  exact ⟨hends,⟨0xE000,by decide,by decide⟩,hmembers,hsmall,rfl⟩

end Tree
end ByteAutomata
