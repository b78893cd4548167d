import ByteAutomata.Proofs.Intervals

/-! # Members of complements, intersections and differences

The gaps between intervals are found from their ends, so a complement is right only if no two
intervals touch. Sets of bytes are made with no intervals that touch, and every operation keeps them
so. -/
namespace ByteAutomata
namespace Intervals
variable {p : Points} {s t : Intervals p} {n : Nat}

theorem le_last (h : s.contains n = true) : n ≤ p.last := by
  obtain ⟨r,hr,-,hhi⟩ := contains_iff.mp h
  exact hhi.trans (s.ascending.2 r hr).2

theorem contains_union : (s.union t).contains n = true ↔ s.contains n = true ∨ t.contains n = true := by
  rw [union, contains_ofRanges, contains_iff, contains_iff]
  constructor
  · rintro ⟨r,hr,-,hn⟩
    rcases List.mem_append.mp hr with hr | hr
    · exact Or.inl ⟨r,hr,hn⟩
    · exact Or.inr ⟨r,hr,hn⟩
  · rintro (⟨r,hr,hn⟩ | ⟨r,hr,hn⟩)
    · exact ⟨r,List.mem_append_left _ hr,(s.ascending.2 r hr).2,hn⟩
    · exact ⟨r,List.mem_append_right _ hr,(t.ascending.2 r hr).2,hn⟩

theorem contains_foldl_union {sets : List (Intervals p)} :
    (sets.foldl union s).contains n = true ↔
      s.contains n = true ∨ ∃ t ∈ sets, t.contains n = true := by
  induction sets generalizing s with
  | nil => simp
  | cons t sets ih => rw [List.foldl_cons, ih, contains_union, or_assoc, List.exists_mem_cons_iff]

theorem contains_singleton {m : Nat} :
    (singleton m : Intervals p).contains n = true ↔ m ≤ p.last ∧ n = m := by
  rw [singleton, contains_ofRanges]
  simp only [List.mem_singleton, exists_eq_left]
  omega

theorem contains_inter :
    (s.inter t).contains n = true ↔ s.contains n = true ∧ t.contains n = true := by
  rw [inter, contains_collect (Nat.zero_le 1), contains_iff, contains_iff]
  constructor
  · rintro ⟨r,hr,-,hlo,hhi⟩
    obtain ⟨u,hu,hr⟩ := List.mem_flatMap.mp hr
    obtain ⟨v,hv,rfl⟩ := List.mem_map.mp hr
    obtain ⟨hulo,hvlo⟩ := max_le_iff.mp hlo
    obtain ⟨huhi,hvhi⟩ := le_min_iff.mp hhi
    exact ⟨⟨u,hu,hulo,huhi⟩,v,hv,hvlo,hvhi⟩
  · rintro ⟨⟨u,hu,hulo,huhi⟩,v,hv,hvlo,hvhi⟩
    have hlast := (s.ascending.2 u hu).2
    exact ⟨_,List.mem_flatMap.mpr ⟨u,hu,List.mem_map_of_mem hv⟩,(min_le_left _ _).trans hlast,
      max_le hulo hvlo,le_min huhi hvhi⟩

section Canonical
variable {ranges : List (Nat × Nat)} {reach : Nat}

/-- No number follows an interval at once. -/
theorem canonical_iff : s.Canonical ↔ ∀ r ∈ s.ranges, s.contains (r.2 + 1) = false := by
  have hp := s.ascending.1
  have hb := s.ascending.2
  simp only [← Bool.not_eq_true, contains_iff]
  unfold Canonical
  generalize s.ranges = ranges at hp hb ⊢
  induction ranges with
  | nil => simp
  | cons r rest ih =>
    obtain ⟨hgap,hp⟩ := List.pairwise_cons.mp hp
    obtain ⟨hr,hrest⟩ := List.forall_mem_cons.mp hb
    have htail := ih hp hrest
    rw [List.pairwise_cons, List.forall_mem_cons]
    simp only [covers_cons, not_or]
    constructor
    · rintro ⟨hfar,hrest'⟩
      have htouch := htail.mp hrest'
      refine ⟨⟨by omega,?_⟩,fun u hu => ⟨?_,htouch u hu⟩⟩
      · rintro ⟨u,hu,hlo,-⟩
        have hlt := hfar u hu
        omega
      · have hlt := hfar u hu
        have hle := (hrest u hu).1
        omega
    · rintro ⟨⟨-,hnone⟩,htouch⟩
      refine ⟨fun u hu => ?_,htail.mpr fun u hu => (htouch u hu).2⟩
      have hlt := hgap u hu
      have hle := (hrest u hu).1
      by_contra hnear
      exact hnone ⟨u,hu,by omega,by omega⟩

theorem canonical_insertRange {r : Nat × Nat} (h : ranges.Pairwise fun u v => u.2 + 1 < v.1)
    (hb : ∀ u ∈ ranges, u.1 ≤ u.2) :
    (insertRange 1 r ranges).Pairwise fun u v => u.2 + 1 < v.1 := by
  induction ranges generalizing r with
  | nil => simp [insertRange]
  | cons u rest ih =>
    obtain ⟨hfar,hrest⟩ := List.pairwise_cons.mp h
    obtain ⟨hu,hb⟩ := List.forall_mem_cons.mp hb
    rw [insertRange]
    split
    · rename_i hlt
      refine List.pairwise_cons.mpr ⟨fun v hv => ?_,h⟩
      rcases List.mem_cons.mp hv with rfl | hv
      · exact hlt
      · have := hfar v hv
        omega
    · split
      · rename_i hlt
        exact List.pairwise_cons.mpr ⟨lt_insertRange hlt hfar,ih hrest hb⟩
      · exact ih hrest hb

theorem canonical_ofRanges : (ofRanges ranges : Intervals p).Canonical := by
  have hvalid : ∀ r ∈ ranges.filter (fun r => r.1 ≤ r.2 ∧ r.2 ≤ p.last),
      r.1 ≤ r.2 ∧ r.2 ≤ p.last := by
    intro r hr
    exact of_decide_eq_true (List.mem_filter.mp hr).2
  change List.Pairwise _ (List.foldr (insertRange 1) [] _)
  generalize ranges.filter _ = valid at hvalid
  induction valid with
  | nil => simp
  | cons r rest ih =>
    have hrest := (List.forall_mem_cons.mp hvalid).2
    have hascending : AscendingRanges p.last (rest.foldr (insertRange 1) []) :=
      ascending_foldr hrest
    exact canonical_insertRange (ih hrest) fun u hu => (hascending.2 u hu).1

theorem exists_of_mem_insertRange {r u : Nat × Nat} (h : u ∈ insertRange reach r ranges) :
    u.2 = r.2 ∨ ∃ v ∈ ranges, u.2 = v.2 := by
  induction ranges generalizing r with
  | nil =>
    obtain rfl := List.mem_singleton.mp h
    exact Or.inl rfl
  | cons v rest ih =>
    rw [insertRange] at h
    split at h
    · rcases List.mem_cons.mp h with rfl | h
      · exact Or.inl rfl
      · exact Or.inr ⟨u,h,rfl⟩
    · split at h
      · rcases List.mem_cons.mp h with rfl | h
        · exact Or.inr ⟨u,List.mem_cons_self,rfl⟩
        · rcases ih h with hu | ⟨w,hw,hu⟩
          · exact Or.inl hu
          · exact Or.inr ⟨w,List.mem_cons_of_mem v hw,hu⟩
      · rcases ih h with hu | ⟨w,hw,hu⟩
        · rcases max_choice r.2 v.2 with hmax | hmax
          · exact Or.inl (hu.trans hmax)
          · exact Or.inr ⟨v,List.mem_cons_self,hu.trans hmax⟩
        · exact Or.inr ⟨w,List.mem_cons_of_mem v hw,hu⟩

theorem exists_of_mem_foldr {r : Nat × Nat} (h : r ∈ ranges.foldr (insertRange reach) []) :
    ∃ u ∈ ranges, r.2 = u.2 := by
  induction ranges generalizing r with
  | nil => cases h
  | cons u rest ih =>
    rcases exists_of_mem_insertRange h with hr | ⟨v,hv,hr⟩
    · exact ⟨u,List.mem_cons_self,hr⟩
    · obtain ⟨w,hw,hvw⟩ := ih hv
      exact ⟨w,List.mem_cons_of_mem u hw,hr.trans hvw⟩

/-- Joining makes no new upper ends. -/
theorem exists_of_mem_collect {r : Nat × Nat}
    (h : r ∈ (collect reach ranges : Intervals p).ranges) : ∃ u ∈ ranges, r.2 = u.2 := by
  obtain ⟨u,hu,hr⟩ := exists_of_mem_foldr h
  exact ⟨u,(List.mem_filter.mp hu).1,hr⟩

theorem canonical_inter (hs : s.Canonical) (ht : t.Canonical) : (s.inter t).Canonical := by
  rw [canonical_iff] at hs ht ⊢
  intro r hr
  obtain ⟨u,hu,hend⟩ := exists_of_mem_collect hr
  obtain ⟨v,hv,hu⟩ := List.mem_flatMap.mp hu
  obtain ⟨w,hw,rfl⟩ := List.mem_map.mp hu
  refine Bool.eq_false_iff.mpr fun hmem => ?_
  obtain ⟨hs',ht'⟩ := contains_inter.mp hmem
  rw [hend] at hs' ht'
  rcases min_choice v.2 w.2 with hmin | hmin
  · have hnone := hs v hv
    rw [hmin, hnone] at hs'
    cases hs'
  · have hnone := ht w hw
    rw [hmin, hnone] at ht'
    cases ht'

end Canonical

section Bytes
variable {s t : Intervals .bytes} {ranges : List (Nat × Nat)}

theorem last_bytes : Points.bytes.last = 0xFF := rfl

theorem next_bytes (n : Nat) : Points.bytes.next n = n + 1 := rfl

theorem prev_bytes (n : Nat) : Points.bytes.prev n = n - 1 := rfl

theorem closed_bytes : Closed .bytes (· ≤ 0xFF) where
  zero := Nat.zero_le _
  last := le_rfl
  next := fun _ hb h => Nat.succ_le_of_lt h |>.trans hb
  prev := fun _ hb _ => (Nat.sub_le _ 1).trans hb

theorem covers_gapsAfter {m : Nat} (hm : m ≤ 0xFF) (hafter : ∀ r ∈ ranges, m + 1 < r.1)
    (hp : ranges.Pairwise fun r u => r.2 + 1 < u.1) (hb : ∀ r ∈ ranges, r.1 ≤ r.2 ∧ r.2 ≤ 0xFF) :
    Covers (gapsAfter .bytes m ranges) n ↔ m < n ∧ n ≤ 0xFF ∧ ¬ Covers ranges n := by
  induction ranges generalizing m with
  | nil =>
    have hnone : ¬ Covers [] n := by simp [Covers]
    rw [gapsAfter, last_bytes, next_bytes]
    split
    · rw [covers_cons]
      simp only [hnone, between, or_false, not_false_eq_true, and_true]
      omega
    · simp only [hnone, not_false_eq_true, and_true, false_iff]
      omega
  | cons r rest ih =>
    obtain ⟨hfar,hrest⟩ := List.pairwise_cons.mp hp
    obtain ⟨hr,hb⟩ := List.forall_mem_cons.mp hb
    have hlt := hafter r List.mem_cons_self
    have hbehind : Covers rest n → r.2 + 1 < n := by
      rintro ⟨u,hu,hlo,-⟩
      exact (hfar u hu).trans_le hlo
    have htail := ih hr.2 hfar hrest hb
    rw [gapsAfter, covers_cons, covers_cons, next_bytes, prev_bytes]
    simp only [between, htail]
    by_cases hcovers : Covers rest n
    · have hn := hbehind hcovers
      simp only [hcovers, not_true_eq_false, and_false, or_false, or_true, iff_false]
      omega
    · simp only [hcovers, not_false_eq_true, and_true, or_false]
      omega

theorem covers_gaps (hs : s.Canonical) :
    Covers (gaps .bytes s.ranges) n ↔ n ≤ 0xFF ∧ s.contains n = false := by
  have hb : ∀ r ∈ s.ranges, r.1 ≤ r.2 ∧ r.2 ≤ 0xFF := s.ascending.2
  have hp : s.ranges.Pairwise fun r u => r.2 + 1 < u.1 := hs
  rw [← Bool.not_eq_true, contains_iff]
  generalize s.ranges = ranges at hb hp
  cases ranges with
  | nil => simp [gaps, Covers, Points.bytes]
  | cons r rest =>
    obtain ⟨hfar,hrest⟩ := List.pairwise_cons.mp hp
    obtain ⟨hr,hb⟩ := List.forall_mem_cons.mp hb
    have htail := covers_gapsAfter (n := n) hr.2 hfar hrest hb
    have hbehind : Covers rest n → r.2 + 1 < n := by
      rintro ⟨u,hu,hlo,-⟩
      exact (hfar u hu).trans_le hlo
    rw [gaps, covers_cons]
    by_cases hcovers : Covers rest n
    · have hn := hbehind hcovers
      split
      · rw [covers_cons, htail, prev_bytes]
        simp only [hcovers, between, not_true_eq_false, and_false, or_false, or_true, iff_false]
        omega
      · rw [htail]
        simp only [hcovers, not_true_eq_false, and_false, or_true]
    · split
      · rw [covers_cons, htail, prev_bytes]
        simp only [hcovers, between, not_false_eq_true, and_true, or_false]
        omega
      · rw [htail]
        simp only [hcovers, not_false_eq_true, and_true, or_false]
        omega

theorem contains_compl (hs : s.Canonical) :
    s.compl.contains n = true ↔ n ≤ 0xFF ∧ s.contains n = false := by
  have hends : Ends (· ≤ 0xFF) (gaps .bytes s.ranges) :=
    ends_gaps closed_bytes s.ascending.1 fun r hr => by
      have hb := s.ascending.2 r hr
      exact ⟨hb.1.trans hb.2,hb.2⟩
  rw [compl, contains_collect (Nat.zero_le 1), ← covers_gaps hs]
  exact exists_congr fun r => and_congr_right fun hr => and_iff_right (hends r hr).2

/-- A gap ends before a member, or with the last byte. -/
theorem end_gapsAfter {m : Nat} (hafter : ∀ r ∈ ranges, m + 1 < r.1)
    (hp : ranges.Pairwise fun r u => r.2 + 1 < u.1) (hb : ∀ r ∈ ranges, r.1 ≤ r.2 ∧ r.2 ≤ 0xFF)
    {u : Nat × Nat} (hu : u ∈ gapsAfter .bytes m ranges) :
    u.2 = 0xFF ∨ Covers ranges (u.2 + 1) := by
  induction ranges generalizing m with
  | nil =>
    rw [gapsAfter, last_bytes, next_bytes] at hu
    split at hu
    · obtain rfl := List.mem_singleton.mp hu
      exact Or.inl (max_eq_right (by omega))
    · cases hu
  | cons r rest ih =>
    obtain ⟨hfar,hrest⟩ := List.pairwise_cons.mp hp
    obtain ⟨hr,hb⟩ := List.forall_mem_cons.mp hb
    have hlt := hafter r List.mem_cons_self
    rw [gapsAfter, next_bytes, prev_bytes] at hu
    rw [covers_cons]
    rcases List.mem_cons.mp hu with rfl | hu
    · have hend : max (m + 1) (r.1 - 1) + 1 = r.1 := by omega
      exact Or.inr (Or.inl (by simp only [between, hend]; omega))
    · exact (ih hfar hrest hb hu).imp_right Or.inr

theorem end_gaps (hs : s.Canonical) {u : Nat × Nat} (hu : u ∈ gaps .bytes s.ranges) :
    u.2 = 0xFF ∨ s.contains (u.2 + 1) = true := by
  have hb : ∀ r ∈ s.ranges, r.1 ≤ r.2 ∧ r.2 ≤ 0xFF := s.ascending.2
  have hp : s.ranges.Pairwise fun r u => r.2 + 1 < u.1 := hs
  rw [contains_iff]
  generalize s.ranges = ranges at hb hp hu
  cases ranges with
  | nil =>
    obtain rfl := List.mem_singleton.mp hu
    exact Or.inl rfl
  | cons r rest =>
    obtain ⟨hfar,hrest⟩ := List.pairwise_cons.mp hp
    obtain ⟨hr,hb⟩ := List.forall_mem_cons.mp hb
    rw [covers_cons]
    rw [gaps] at hu
    split at hu
    · rcases List.mem_cons.mp hu with rfl | hu
      · have hend : max 0 (Points.bytes.prev r.1) + 1 = r.1 := by
          rw [prev_bytes]
          omega
        exact Or.inr (Or.inl (by simp only [between, hend]; omega))
      · exact (end_gapsAfter hfar hrest hb hu).imp_right Or.inr
    · exact (end_gapsAfter hfar hrest hb hu).imp_right Or.inr

theorem canonical_compl (hs : s.Canonical) : s.compl.Canonical := by
  rw [canonical_iff]
  intro r hr
  obtain ⟨u,hu,hend⟩ := exists_of_mem_collect hr
  refine Bool.eq_false_iff.mpr fun hmem => ?_
  obtain ⟨hle,hnone⟩ := (contains_compl hs).mp hmem
  rw [hend] at hle hnone
  rcases end_gaps hs hu with hlast | hbehind
  · omega
  · rw [hbehind] at hnone
    cases hnone

theorem covers_append {more : List (Nat × Nat)} :
    Covers (ranges ++ more) n ↔ Covers ranges n ∨ Covers more n := by
  simp only [Covers, List.mem_append, or_and_right, exists_or]

theorem covers_cut {u r : Nat × Nat} (hu : u.1 ≤ u.2) :
    Covers (cut .bytes u r) n ↔ (r.1 ≤ n ∧ n ≤ r.2) ∧ ¬ (u.1 ≤ n ∧ n ≤ u.2) := by
  have hnone : ¬ Covers [] n := by simp [Covers]
  rw [cut, next_bytes, prev_bytes]
  split
  · rw [covers_cons]
    simp only [hnone, or_false]
    omega
  · rw [covers_append]
    split <;> split <;> simp only [covers_cons, hnone, or_false, false_or, or_self, false_iff] <;>
      omega

theorem covers_cutAll {cuts pieces : List (Nat × Nat)} (hcuts : ∀ u ∈ cuts, u.1 ≤ u.2) :
    Covers (cutAll .bytes cuts pieces) n ↔ Covers pieces n ∧ ¬ Covers cuts n := by
  induction cuts generalizing pieces with
  | nil => simp [cutAll, Covers]
  | cons u cuts ih =>
    obtain ⟨hu,hcuts⟩ := List.forall_mem_cons.mp hcuts
    have hcut : Covers (pieces.flatMap (cut .bytes u)) n ↔
        Covers pieces n ∧ ¬ (u.1 ≤ n ∧ n ≤ u.2) := by
      induction pieces with
      | nil => simp [Covers]
      | cons r pieces ihp => rw [List.flatMap_cons, covers_append, covers_cut hu, ihp, covers_cons,
          or_and_right]
    rw [covers_cons, not_or, ← and_assoc, ← hcut]
    exact ih hcuts

theorem contains_diff :
    (s.diff t).contains n = true ↔ s.contains n = true ∧ t.contains n = false := by
  have hends : Ends (· ≤ 0xFF) (cutAll .bytes t.ranges s.ranges) := by
    have hbounds : ∀ s : Intervals .bytes, Ends (· ≤ 0xFF) s.ranges := fun s r hr =>
      ⟨(s.ascending.2 r hr).1.trans (s.ascending.2 r hr).2,(s.ascending.2 r hr).2⟩
    exact ends_cutAll closed_bytes (hbounds t) (hbounds s)
  have hcut : Covers (cutAll .bytes t.ranges s.ranges) n ↔
      Covers s.ranges n ∧ ¬ Covers t.ranges n :=
    covers_cutAll fun u hu => (t.ascending.2 u hu).1
  rw [← Bool.not_eq_true, contains_iff (s := s), contains_iff (s := t), ← hcut]
  refine (contains_collect (Nat.zero_le 1)).trans ?_
  exact exists_congr fun r => and_congr_right fun hr => and_iff_right (hends r hr).2

theorem end_cut {u r w : Nat × Nat} (hu : u.1 ≤ u.2) (hw : w ∈ cut .bytes u r) :
    w.2 = r.2 ∨ u.1 ≤ w.2 + 1 ∧ w.2 + 1 ≤ u.2 := by
  rw [cut, prev_bytes] at hw
  split at hw
  · obtain rfl := List.mem_singleton.mp hw
    exact Or.inl rfl
  · rcases List.mem_append.mp hw with hw | hw
    · split at hw
      · rename_i hlt
        obtain rfl := List.mem_singleton.mp hw
        exact Or.inr (by simp only; omega)
      · cases hw
    · split at hw
      · obtain rfl := List.mem_singleton.mp hw
        exact Or.inl rfl
      · cases hw

theorem end_cutAll {cuts pieces : List (Nat × Nat)} (hcuts : ∀ u ∈ cuts, u.1 ≤ u.2)
    {w : Nat × Nat} (hw : w ∈ cutAll .bytes cuts pieces) :
    (∃ r ∈ pieces, w.2 = r.2) ∨ Covers cuts (w.2 + 1) := by
  induction cuts generalizing pieces with
  | nil => exact Or.inl ⟨w,hw,rfl⟩
  | cons u cuts ih =>
    obtain ⟨hu,hcuts⟩ := List.forall_mem_cons.mp hcuts
    rw [covers_cons]
    rcases ih hcuts hw with ⟨r,hr,hend⟩ | hcovers
    · obtain ⟨v,hv,hr⟩ := List.mem_flatMap.mp hr
      rcases end_cut hu hr with hsame | hbefore
      · exact Or.inl ⟨v,hv,hend.trans hsame⟩
      · exact Or.inr (Or.inl (hend ▸ hbefore))
    · exact Or.inr (Or.inr hcovers)

theorem canonical_diff (hs : s.Canonical) : (s.diff t).Canonical := by
  rw [canonical_iff] at hs ⊢
  intro r hr
  obtain ⟨w,hw,hend⟩ := exists_of_mem_collect hr
  refine Bool.eq_false_iff.mpr fun hmem => ?_
  obtain ⟨hin,hout⟩ := contains_diff.mp hmem
  rw [hend] at hin hout
  rcases end_cutAll (fun u hu => (t.ascending.2 u hu).1) hw with ⟨v,hv,hsame⟩ | hcovers
  · have hnone := hs v hv
    rw [hsame, hnone] at hin
    cases hin
  · rw [contains_iff.mpr hcovers] at hout
    cases hout

theorem contains_symmDiff : (s.symmDiff t).contains n = true ↔
    (s.contains n = true ∨ t.contains n = true) ∧ ¬ (s.contains n = true ∧ t.contains n = true) := by
  rw [symmDiff, contains_diff, contains_union, ← Bool.not_eq_true, contains_inter]

theorem canonical_symmDiff : (s.symmDiff t).Canonical := canonical_diff canonical_ofRanges

end Bytes

end Intervals
end ByteAutomata
