import ByteAutomata.Expr.Basic
import ByteAutomata.Proofs.ByteSet

/-! # Members of intervals

Joining intervals keeps their members, and every end of the result is an end of an interval that
went in. A class whose members are all in ASCII keeps them when its unit becomes the byte. -/
namespace ByteAutomata
namespace Intervals
variable {p q : Points} {s : Intervals p} {n : Nat}

/-- Whether `n` is in one of the intervals. -/
def Covers (ranges : List (Nat × Nat)) (n : Nat) : Prop := ∃ r ∈ ranges, r.1 ≤ n ∧ n ≤ r.2

theorem covers_cons {r : Nat × Nat} {ranges : List (Nat × Nat)} :
    Covers (r :: ranges) n ↔ (r.1 ≤ n ∧ n ≤ r.2) ∨ Covers ranges n := by simp [Covers]

theorem contains_iff : s.contains n = true ↔ Covers s.ranges n := by simp [contains, Covers]

theorem isBelow_iff : s.isBelow n = true ↔ ∀ r ∈ s.ranges, r.2 < n := by simp [isBelow]

theorem isEmpty_iff : s.isEmpty = true ↔ s.ranges = [] := by simp [isEmpty]

theorem isEmpty_iff_contains : s.isEmpty = true ↔ ∀ n, s.contains n = false := by
  rw [isEmpty_iff]
  constructor
  · intro h n
    rw [contains, h]
    rfl
  · intro h
    rw [List.eq_nil_iff_forall_not_mem]
    intro r hr
    have hfirst : s.contains r.1 = true :=
      contains_iff.mpr ⟨r,hr,le_rfl,(s.ascending.2 r hr).1⟩
    rw [h] at hfirst
    cases hfirst

theorem single?_eq_some_iff : s.single? = some n ↔ ∀ m, s.contains m = true ↔ m = n := by
  constructor
  · intro h m
    unfold single? at h
    split at h
    · rename_i lo hi hranges
      obtain ⟨rfl,rfl⟩ : lo = hi ∧ lo = n := by simpa using h
      rw [contains_iff, hranges]
      simp only [Covers, List.mem_singleton, exists_eq_left]
      omega
    · cases h
  · intro h
    have hends : ∀ r ∈ s.ranges, r.1 = n ∧ r.2 = n := fun r hr => by
      have hle := (s.ascending.2 r hr).1
      exact ⟨(h _).mp (contains_iff.mpr ⟨r,hr,le_rfl,hle⟩),
        (h _).mp (contains_iff.mpr ⟨r,hr,hle,le_rfl⟩)⟩
    obtain ⟨r,hr,-⟩ := contains_iff.mp ((h n).mpr rfl)
    have hp := s.ascending.1
    rw [single?]
    -- two intervals in ascending order would not both be the number
    match hranges : s.ranges with
    | [] => simp [hranges] at hr
    | [(lo,hi)] =>
      obtain ⟨hlo,hhi⟩ : lo = n ∧ hi = n := hends (lo,hi) (by simp [hranges])
      simp [hlo, hhi]
    | u :: v :: rest =>
      rw [hranges] at hp
      have hlt := (List.pairwise_cons.mp hp).1 v List.mem_cons_self
      have hu := hends u (by simp [hranges])
      have hv := hends v (by simp [hranges])
      omega

/-- Intervals are joined only if no number is between them. -/
theorem covers_insertRange {reach : Nat} (hreach : reach ≤ 1) {r : Nat × Nat}
    {ranges : List (Nat × Nat)} (hr : r.1 ≤ r.2) (h : ∀ u ∈ ranges, u.1 ≤ u.2) :
    Covers (insertRange reach r ranges) n ↔ (r.1 ≤ n ∧ n ≤ r.2) ∨ Covers ranges n := by
  induction ranges generalizing r with
  | nil => exact covers_cons
  | cons v rest ih =>
    have hv := h v List.mem_cons_self
    have hrest : ∀ u ∈ rest, u.1 ≤ u.2 := fun u hu => h u (List.mem_cons_of_mem v hu)
    rw [insertRange]
    split
    · exact covers_cons
    · split
      · rw [covers_cons, covers_cons, ih hr hrest]
        exact or_left_comm
      · have hjoined : (min r.1 v.1 ≤ n ∧ n ≤ max r.2 v.2) ↔
            (r.1 ≤ n ∧ n ≤ r.2) ∨ (v.1 ≤ n ∧ n ≤ v.2) := by omega
        rw [ih (by simp only; omega) hrest, covers_cons, hjoined, or_assoc]

theorem covers_foldr_insertRange {reach last : Nat} (hreach : reach ≤ 1)
    {ranges : List (Nat × Nat)} (h : ∀ r ∈ ranges, r.1 ≤ r.2 ∧ r.2 ≤ last) :
    Covers (ranges.foldr (insertRange reach) []) n ↔ Covers ranges n := by
  induction ranges with
  | nil => rfl
  | cons r rest ih =>
    have hrest : ∀ u ∈ rest, u.1 ≤ u.2 ∧ u.2 ≤ last :=
      fun u hu => h u (List.mem_cons_of_mem r hu)
    have hascending : AscendingRanges last (rest.foldr (insertRange reach) []) :=
      ascending_foldr hrest
    rw [List.foldr_cons, covers_insertRange hreach (h r List.mem_cons_self).1
      (fun u hu => (hascending.2 u hu).1), ih hrest, covers_cons]

theorem contains_collect {reach : Nat} (hreach : reach ≤ 1) {ranges : List (Nat × Nat)} :
    (collect reach ranges : Intervals p).contains n = true ↔
      ∃ r ∈ ranges, r.2 ≤ p.last ∧ r.1 ≤ n ∧ n ≤ r.2 := by
  have hvalid : ∀ r ∈ ranges.filter (fun r => r.1 ≤ r.2 ∧ r.2 ≤ p.last),
      r.1 ≤ r.2 ∧ r.2 ≤ p.last := by
    intro r hr
    exact of_decide_eq_true (List.mem_filter.mp hr).2
  rw [contains_iff]
  change Covers (List.foldr (insertRange reach) [] _) n ↔ _
  rw [covers_foldr_insertRange hreach hvalid]
  constructor
  · rintro ⟨r,hr,hn⟩
    obtain ⟨hmem,hle⟩ := List.mem_filter.mp hr
    exact ⟨r,hmem,(of_decide_eq_true hle).2,hn⟩
  · rintro ⟨r,hr,hlast,hlo,hhi⟩
    exact ⟨r,List.mem_filter.mpr ⟨hr,decide_eq_true ⟨hlo.trans hhi,hlast⟩⟩,hlo,hhi⟩

theorem contains_ofRanges {ranges : List (Nat × Nat)} :
    (ofRanges ranges : Intervals p).contains n = true ↔
      ∃ r ∈ ranges, r.2 ≤ p.last ∧ r.1 ≤ n ∧ n ≤ r.2 := contains_collect le_rfl

/-- The unit of a set is of no account as long as all intervals fit. -/
theorem contains_ofRanges_ranges (h : ∀ r ∈ s.ranges, r.2 ≤ q.last) (n : Nat) :
    (ofRanges s.ranges : Intervals q).contains n = s.contains n := by
  rw [Bool.eq_iff_iff, contains_ofRanges, contains_iff]
  constructor
  · rintro ⟨r,hr,-,hn⟩
    exact ⟨r,hr,hn⟩
  · rintro ⟨r,hr,hn⟩
    exact ⟨r,hr,h r hr,hn⟩

section Ends
variable {P : Nat → Prop} {ranges : List (Nat × Nat)} {reach : Nat}

/-- Every interval begins and ends with a number of the kind. -/
def Ends (P : Nat → Prop) (ranges : List (Nat × Nat)) : Prop := ∀ r ∈ ranges, P r.1 ∧ P r.2

theorem ends_nil : Ends P [] := by simp [Ends]

theorem ends_cons {r : Nat × Nat} : Ends P (r :: ranges) ↔ (P r.1 ∧ P r.2) ∧ Ends P ranges :=
  List.forall_mem_cons

theorem ends_append {more : List (Nat × Nat)} :
    Ends P (ranges ++ more) ↔ Ends P ranges ∧ Ends P more := List.forall_mem_append

theorem ends_insertRange {r : Nat × Nat} (hr : P r.1 ∧ P r.2) (h : Ends P ranges) :
    Ends P (insertRange reach r ranges) := by
  induction ranges generalizing r with
  | nil => exact ends_cons.mpr ⟨hr,ends_nil⟩
  | cons u rest ih =>
    obtain ⟨hu,hrest⟩ := ends_cons.mp h
    rw [insertRange]
    split
    · exact ends_cons.mpr ⟨hr,h⟩
    · split
      · exact ends_cons.mpr ⟨hu,ih hr hrest⟩
      · exact ih ⟨min_rec' P hr.1 hu.1,max_rec' P hr.2 hu.2⟩ hrest

theorem ends_collect (h : Ends P ranges) : Ends P (collect reach ranges : Intervals p).ranges := by
  have hvalid : Ends P (ranges.filter fun r => r.1 ≤ r.2 ∧ r.2 ≤ p.last) :=
    fun r hr => h r (List.mem_filter.mp hr).1
  change Ends P (List.foldr _ _ _)
  generalize ranges.filter _ = valid at hvalid ⊢
  induction valid with
  | nil => exact ends_nil
  | cons r rest ih =>
    obtain ⟨hr,hrest⟩ := ends_cons.mp hvalid
    exact ends_insertRange hr (ih hrest)

theorem ends_ofRanges (h : Ends P ranges) : Ends P (ofRanges ranges : Intervals p).ranges :=
  ends_collect h

theorem ends_union {s t : Intervals p} (hs : Ends P s.ranges) (ht : Ends P t.ranges) :
    Ends P (s.union t).ranges := ends_ofRanges (ends_append.mpr ⟨hs,ht⟩)

theorem ends_inter {s t : Intervals p} (hs : Ends P s.ranges) (ht : Ends P t.ranges) :
    Ends P (s.inter t).ranges := by
  refine ends_collect fun r hr => ?_
  obtain ⟨u,hu,hr⟩ := List.mem_flatMap.mp hr
  obtain ⟨v,hv,rfl⟩ := List.mem_map.mp hr
  exact ⟨max_rec' P (hs u hu).1 (ht v hv).1,min_rec' P (hs u hu).2 (ht v hv).2⟩

/-- The steps from a number of the kind towards another one lead to numbers of the kind. -/
structure Closed (p : Points) (P : Nat → Prop) : Prop where
  zero : P 0
  last : P p.last
  next {a b : Nat} (ha : P a) (hb : P b) (h : a < b) : P (p.next a)
  prev {a b : Nat} (ha : P a) (hb : P b) (h : a < b) : P (p.prev b)

theorem ends_between {a b : Nat} (ha : P a) (hb : P b) : P (between a b).1 ∧ P (between a b).2 :=
  ⟨min_rec' P ha hb,max_rec' P ha hb⟩

theorem ends_gapsAfter (hP : Closed p P) (hn : P n) (hafter : ∀ r ∈ ranges, n < r.1)
    (hp : ranges.Pairwise fun r u => r.2 < u.1) (h : Ends P ranges) :
    Ends P (gapsAfter p n ranges) := by
  induction ranges generalizing n with
  | nil =>
    rw [gapsAfter]
    split
    · rename_i hlt
      exact ends_cons.mpr ⟨ends_between (hP.next hn hP.last hlt) hP.last,ends_nil⟩
    · exact ends_nil
  | cons r rest ih =>
    obtain ⟨hr,hrest⟩ := ends_cons.mp h
    obtain ⟨hgap,hp'⟩ := List.pairwise_cons.mp hp
    have hlt := hafter r List.mem_cons_self
    rw [gapsAfter]
    exact ends_cons.mpr ⟨ends_between (hP.next hn hr.1 hlt) (hP.prev hn hr.1 hlt),
      ih hr.2 hgap hp' hrest⟩

theorem ends_gaps (hP : Closed p P) (hp : ranges.Pairwise fun r u => r.2 < u.1)
    (h : Ends P ranges) : Ends P (gaps p ranges) := by
  cases ranges with
  | nil => exact ends_cons.mpr ⟨⟨hP.zero,hP.last⟩,ends_nil⟩
  | cons r rest =>
    obtain ⟨hr,hrest⟩ := ends_cons.mp h
    obtain ⟨hgap,hp'⟩ := List.pairwise_cons.mp hp
    have hbehind := ends_gapsAfter hP hr.2 hgap hp' hrest
    rw [gaps]
    split
    · rename_i hpos
      exact ends_cons.mpr ⟨ends_between hP.zero (hP.prev hP.zero hr.1 hpos),hbehind⟩
    · exact hbehind

theorem ends_compl (hP : Closed p P) (h : Ends P s.ranges) : Ends P s.compl.ranges :=
  ends_collect (ends_gaps hP s.ascending.1 h)

theorem ends_cut (hP : Closed p P) {u r : Nat × Nat} (hu : P u.1 ∧ P u.2) (hr : P r.1 ∧ P r.2) :
    Ends P (cut p u r) := by
  unfold cut
  split
  · exact ends_cons.mpr ⟨hr,ends_nil⟩
  · refine ends_append.mpr ⟨?_,?_⟩
    · split
      · rename_i hlt
        exact ends_cons.mpr ⟨⟨hr.1,hP.prev hr.1 hu.1 hlt⟩,ends_nil⟩
      · exact ends_nil
    · split
      · rename_i hlt
        exact ends_cons.mpr ⟨⟨hP.next hu.2 hr.2 hlt,hr.2⟩,ends_nil⟩
      · exact ends_nil

/-- What is left of intervals without some others. -/
def cutAll (p : Points) (cuts pieces : List (Nat × Nat)) : List (Nat × Nat) :=
  cuts.foldl (fun pieces u => pieces.flatMap (cut p u)) pieces

theorem ends_cutAll (hP : Closed p P) {cuts pieces : List (Nat × Nat)} (hcuts : Ends P cuts)
    (hpieces : Ends P pieces) : Ends P (cutAll p cuts pieces) := by
  induction cuts generalizing pieces with
  | nil => exact hpieces
  | cons u cuts ih =>
    obtain ⟨hu,hcuts⟩ := ends_cons.mp hcuts
    refine ih hcuts fun r hr => ?_
    obtain ⟨v,hv,hr⟩ := List.mem_flatMap.mp hr
    exact ends_cut hP hu (hpieces v hv) r hr

theorem ends_diff (hP : Closed p P) {s t : Intervals p} (hs : Ends P s.ranges)
    (ht : Ends P t.ranges) : Ends P (s.diff t).ranges := ends_collect (ends_cutAll hP ht hs)

theorem ends_symmDiff (hP : Closed p P) {s t : Intervals p} (hs : Ends P s.ranges)
    (ht : Ends P t.ranges) : Ends P (s.symmDiff t).ranges :=
  ends_diff hP (ends_union hs ht) (ends_inter hs ht)

theorem closed_chars : Closed .chars Utf8.IsScalar where
  zero := by decide
  last := by decide
  next := by
    intro a b ha hb h
    simp only [Utf8.IsScalar, Points.chars] at *
    split <;> omega
  prev := by
    intro a b ha hb h
    simp only [Utf8.IsScalar, Points.chars] at *
    split <;> omega

end Ends

/-- Neighbouring intervals leave at least one number out between them. -/
def Canonical (s : Intervals p) : Prop := s.ranges.Pairwise fun r u => r.2 + 1 < u.1

end Intervals

theorem CharClass.contains_toByteClass {s : CharClass} {bytes : ByteClass}
    (h : s.toByteClass? = some bytes) (n : Nat) : bytes.contains n = s.contains n := by
  unfold toByteClass? at h
  split at h
  · rename_i hbelow
    obtain rfl := Option.some.inj h
    refine Intervals.contains_ofRanges_ranges (fun r hr => ?_) n
    have hlt := Intervals.isBelow_iff.mp hbelow r hr
    exact Nat.le_of_lt (hlt.trans (by decide))
  · simp at h

theorem CharClass.toByteClass_eq_some {s : CharClass} {bytes : ByteClass}
    (h : s.toByteClass? = some bytes) : s.isBelow 0x80 = true ∧ bytes.isEmpty = s.isEmpty := by
  have hcontains := contains_toByteClass h
  unfold toByteClass? at h
  split at h
  · rename_i hbelow
    refine ⟨hbelow,?_⟩
    rw [Bool.eq_iff_iff, Intervals.isEmpty_iff_contains, Intervals.isEmpty_iff_contains]
    exact forall_congr' fun n => by rw [hcontains]
  · simp at h

theorem CharClass.toByteClass_eq_none {s : CharClass} (h : s.toByteClass? = none) :
    s.isBelow 0x80 = false ∧ s.isEmpty = false := by
  unfold toByteClass? at h
  split at h
  · simp at h
  · rename_i hbelow
    refine ⟨Bool.eq_false_iff.mpr hbelow,Bool.eq_false_iff.mpr fun hempty => hbelow ?_⟩
    rw [Intervals.isBelow, Intervals.isEmpty_iff.mp hempty]
    rfl

namespace ByteClass
variable {set : ByteClass}

def toByteSet (set : ByteClass) : ByteSet :=
  .ofRanges (set.ranges.map fun r => (UInt8.ofNat r.1,UInt8.ofNat r.2))

theorem contains_toByteSet (set : ByteClass) (b : UInt8) :
    set.toByteSet.contains b = set.contains b.toNat := by
  have hends : ∀ r ∈ set.ranges, (decide (UInt8.ofNat r.1 ≤ b) && decide (b ≤ UInt8.ofNat r.2)) =
      decide (r.1 ≤ b.toNat ∧ b.toNat ≤ r.2) := by
    intro r hr
    obtain ⟨hle,hlast⟩ := set.ascending.2 r hr
    have hhi : r.2 < 0x100 := Nat.lt_succ_of_le hlast
    have hlo : r.1 < 0x100 := hle.trans_lt hhi
    simp only [UInt8.le_iff_toNat_le, UInt8.toNat_ofNat_of_lt' hlo,
      UInt8.toNat_ofNat_of_lt' hhi, Bool.decide_and]
  rw [toByteSet, ByteSet.contains_ofRanges, List.any_map, Intervals.contains, Bool.eq_iff_iff,
    List.any_eq_true, List.any_eq_true]
  exact exists_congr fun r => and_congr_right fun hr => by rw [← hends r hr]; rfl

theorem exists_contains (h : set.isEmpty = false) : ∃ b : UInt8, set.contains b.toNat = true := by
  obtain ⟨r,rest,hranges⟩ := List.exists_cons_of_ne_nil (l := set.ranges) (by
    intro hnil
    simp [Intervals.isEmpty, hnil] at h)
  have hmem : r ∈ set.ranges := by simp [hranges]
  obtain ⟨hle,hlast⟩ := set.ascending.2 r hmem
  have hlt : r.1 < 0x100 := hle.trans_lt (Nat.lt_succ_of_le hlast)
  refine ⟨UInt8.ofNat r.1,Intervals.contains_iff.mpr ⟨r,hmem,?_⟩⟩
  rw [UInt8.toNat_ofNat_of_lt' hlt]
  exact ⟨le_rfl,hle⟩

theorem isEmpty_toByteSet (set : ByteClass) : set.toByteSet.isEmpty = set.isEmpty := by
  cases h : set.isEmpty with
  | true =>
    rw [toByteSet, Intervals.isEmpty_iff.mp h]
    rfl
  | false =>
    obtain ⟨b,hb⟩ := exists_contains h
    rw [← contains_toByteSet] at hb
    refine Bool.eq_false_iff.mpr fun hempty => ?_
    have hbits : set.toByteSet = .empty := congrArg ByteSet.mk (eq_of_beq hempty)
    rw [hbits, ByteSet.contains_empty] at hb
    cases hb

theorem contains_of_isAnyByte (h : (Expr.byteClass set).isAnyByte = true) (b : UInt8) :
    set.contains b.toNat = true := by
  obtain ⟨rest,hranges⟩ := List.head?_eq_some_iff.mp (of_decide_eq_true h)
  have hb := b.toNat_lt
  refine Intervals.contains_iff.mpr ⟨(0,Points.bytes.last),by simp [hranges],Nat.zero_le _,?_⟩
  exact Nat.le_of_lt_succ hb

/-- The first interval of a canonical class tells whether the class holds every byte. -/
theorem isAnyByte_iff (hc : set.Canonical) :
    (Expr.byteClass set).isAnyByte = true ↔ ∀ b : UInt8, set.contains b.toNat = true := by
  refine ⟨contains_of_isAnyByte,fun hall => ?_⟩
  have hmem : ∀ n < 0x100, ∃ r ∈ set.ranges, r.1 ≤ n ∧ n ≤ r.2 := by
    intro n hn
    have hb := hall (UInt8.ofNat n)
    rw [UInt8.toNat_ofNat_of_lt' hn] at hb
    exact Intervals.contains_iff.mp hb
  obtain ⟨v,hv,hzero,-⟩ := hmem 0 (by omega)
  obtain ⟨r,rest,hranges⟩ := List.exists_cons_of_ne_nil (List.ne_nil_of_mem hv)
  have hbounds := set.ascending.2
  unfold Intervals.Canonical at hc
  rw [hranges] at hc hv hmem hbounds
  obtain ⟨hgap,-⟩ := List.pairwise_cons.mp hc
  obtain ⟨hle,hlast⟩ := hbounds r List.mem_cons_self
  have hlast' : r.2 ≤ 0xFF := hlast
  -- later intervals start too late for the byte zero and for the byte behind the first interval
  have hfirst : r.1 = 0 := by
    rcases List.mem_cons.mp hv with rfl | hv
    · omega
    · have hlt := hgap v hv
      omega
  have hwhole : r.2 = 0xFF := by
    by_contra hne
    obtain ⟨u,hu,hlo,hhi⟩ := hmem (r.2 + 1) (by omega)
    rcases List.mem_cons.mp hu with rfl | hu
    · omega
    · have hlt := hgap u hu
      omega
  have hr : r = (0,Points.bytes.last) := Prod.ext hfirst hwhole
  exact decide_eq_true (by rw [hranges, hr]; rfl)

end ByteClass
end ByteAutomata
