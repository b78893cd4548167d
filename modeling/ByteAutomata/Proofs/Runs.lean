import Mathlib.Data.List.Sort
import ByteAutomata.Proofs.ByteSet

/-! # Runs of a byte set

The runs of a set are separated: each pair is in order, and a byte is left out between one run and
the next. No other separated list covers the same bytes, so the runs are a normal form of the set.
Here sets are told apart by their members, and runs by the bytes that they cover. -/
namespace ByteAutomata.ByteSet
variable {s t : ByteSet} {b : UInt8} {r : UInt8 × UInt8} {runs₁ runs₂ : List (UInt8 × UInt8)}

theorem ext_contains (h : ∀ b, s.contains b = t.contains b) : s = t := by
  obtain ⟨bits⟩ := s
  obtain ⟨bits'⟩ := t
  congr 1
  apply BitVec.eq_of_getLsbD_eq
  intro i hi
  have hbit := h (UInt8.ofNat i)
  rwa [contains, contains, UInt8.toNat_ofNat_of_lt' hi] at hbit

/-- Runs in ascending order, each with its ends in order, and at least one byte between any two. -/
structure Separated (runs : List (UInt8 × UInt8)) : Prop where
  ordered : ∀ r ∈ runs, r.1 ≤ r.2
  apart : runs.Pairwise fun r r' => r.2.toNat + 1 < r'.1.toNat

/-- One of the runs has `b` in it. -/
def Covered (runs : List (UInt8 × UInt8)) (b : UInt8) : Prop := ∃ r ∈ runs, r.1 ≤ b ∧ b ≤ r.2

theorem contains_ofRanges_iff {runs : List (UInt8 × UInt8)} :
    (ofRanges runs).contains b = true ↔ Covered runs b := by
  simp [contains_ofRanges, Covered]

theorem not_covered_nil : ¬ Covered [] b := by simp [Covered]

theorem covered_cons : Covered (r :: runs₁) b ↔ (r.1 ≤ b ∧ b ≤ r.2) ∨ Covered runs₁ b := by
  simp [Covered]

section Members
variable {bytes : List UInt8}

/-- The first run begins with the first byte. -/
theorem runs_cons (b : UInt8) (rest : List UInt8) : ∃ hi more, runs (b :: rest) = (b,hi) :: more := by
  rw [runs]
  split
  · exact ⟨b,[],rfl⟩
  · split
    · exact ⟨_,_,rfl⟩
    · exact ⟨b,_,rfl⟩

/-- What a new first byte does to the runs: it begins a run, or moves the first one down. -/
theorem runs_cons_cases (hbytes : (b :: bytes).Pairwise (· < ·)) :
    (bytes = [] ∧ runs (b :: bytes) = [(b,b)]) ∨
    (∃ lo hi more, runs bytes = (lo,hi) :: more ∧ b.toNat + 1 = lo.toNat ∧
      runs (b :: bytes) = (b,hi) :: more) ∨
    ∃ lo hi more, runs bytes = (lo,hi) :: more ∧ b.toNat + 1 < lo.toNat ∧
      runs (b :: bytes) = (b,b) :: (lo,hi) :: more := by
  cases bytes with
  | nil => exact Or.inl ⟨rfl,rfl⟩
  | cons lo rest =>
    obtain ⟨hi,more,hruns⟩ := runs_cons lo rest
    have hlt : b.toNat < lo.toNat :=
      UInt8.lt_iff_toNat_lt.mp ((List.pairwise_cons.mp hbytes).1 lo List.mem_cons_self)
    rw [runs, hruns]
    by_cases hnext : b.toNat + 1 = lo.toNat
    · exact Or.inr (Or.inl ⟨lo,hi,more,rfl,hnext,if_pos hnext⟩)
    · exact Or.inr (Or.inr ⟨lo,hi,more,rfl,by omega,if_neg hnext⟩)

theorem separated_runs (hbytes : bytes.Pairwise (· < ·)) : Separated (runs bytes) := by
  induction bytes with
  | nil => exact ⟨by simp [runs],.nil⟩
  | cons b bytes ih =>
    obtain ⟨hordered,hapart⟩ := ih hbytes.of_cons
    obtain ⟨-,hruns⟩ | ⟨lo,hi,more,hrest,hnext,hruns⟩ | ⟨lo,hi,more,hrest,hgap,hruns⟩ :=
      runs_cons_cases hbytes
    · rw [hruns]
      exact ⟨by simp,List.pairwise_singleton ..⟩
    · rw [hrest] at hordered hapart
      rw [hruns]
      refine ⟨List.forall_mem_cons.mpr ⟨?_,fun r hr => hordered r (List.mem_cons_of_mem _ hr)⟩,
        List.pairwise_cons.mpr (List.pairwise_cons.mp hapart)⟩
      have hle := UInt8.le_iff_toNat_le.mp (hordered (lo,hi) List.mem_cons_self)
      rw [UInt8.le_iff_toNat_le]
      dsimp only at hle ⊢
      omega
    · rw [hrest] at hordered hapart
      rw [hruns]
      refine ⟨List.forall_mem_cons.mpr ⟨UInt8.le_refl b,hordered⟩,
        List.pairwise_cons.mpr ⟨?_,hapart⟩⟩
      have hle := UInt8.le_iff_toNat_le.mp (hordered (lo,hi) List.mem_cons_self)
      intro r hr
      rcases List.mem_cons.mp hr with rfl | hr
      · exact hgap
      · have hfar := (List.pairwise_cons.mp hapart).1 r hr
        dsimp only at hle hfar ⊢
        omega

theorem covered_runs (hbytes : bytes.Pairwise (· < ·)) : Covered (runs bytes) b ↔ b ∈ bytes := by
  induction bytes with
  | nil => simp [runs, Covered]
  | cons c bytes ih =>
    have hrest := ih hbytes.of_cons
    have hfirst : c ≤ b ∧ b ≤ c ↔ b = c := by
      rw [UInt8.le_iff_toNat_le, UInt8.le_iff_toNat_le, ← UInt8.toNat_inj]
      omega
    rw [List.mem_cons, ← hrest]
    obtain ⟨rfl,hruns⟩ | ⟨lo,hi,more,hmore,hnext,hruns⟩ | ⟨lo,hi,more,hmore,-,hruns⟩ :=
      runs_cons_cases hbytes
    · rw [hruns, covered_cons, hfirst]
      rfl
    · have hle := UInt8.le_iff_toNat_le.mp
        ((separated_runs hbytes.of_cons).ordered (lo,hi) (hmore ▸ List.mem_cons_self))
      have hjoined : c ≤ b ∧ b ≤ hi ↔ b = c ∨ (lo ≤ b ∧ b ≤ hi) := by
        simp only [UInt8.le_iff_toNat_le, ← UInt8.toNat_inj]
        dsimp only at hle
        omega
      rw [hruns, hmore, covered_cons, covered_cons, hjoined, or_assoc]
    · rw [hruns, hmore, covered_cons, hfirst]

end Members

theorem separated_ranges (s : ByteSet) : Separated s.ranges := separated_runs s.pairwise_toList

theorem covered_ranges : Covered s.ranges b ↔ s.contains b = true :=
  (covered_runs s.pairwise_toList).trans mem_toList

theorem ofRanges_ranges (s : ByteSet) : ofRanges s.ranges = s :=
  ext_contains fun _ => Bool.eq_iff_iff.mpr (contains_ofRanges_iff.trans covered_ranges)

section Uniqueness

theorem Separated.tail (h : Separated (r :: runs₁)) : Separated runs₁ :=
  ⟨fun r' hr' => h.ordered r' (List.mem_cons_of_mem r hr'),h.apart.of_cons⟩

theorem Separated.head_le (h : Separated (r :: runs₁)) : r.1.toNat ≤ r.2.toNat :=
  UInt8.le_iff_toNat_le.mp (h.ordered r List.mem_cons_self)

/-- Later runs lie above the first one, with a byte between. -/
theorem Separated.lt_of_covered (h : Separated (r :: runs₁)) (hb : Covered runs₁ b) :
    r.2.toNat + 1 < b.toNat := by
  obtain ⟨r',hr',hle,-⟩ := hb
  have hfar := (List.pairwise_cons.mp h.apart).1 r' hr'
  have hle' := UInt8.le_iff_toNat_le.mp hle
  omega

/-- The first run begins with the least byte that is covered. -/
theorem Separated.first_le (h : Separated (r :: runs₁)) (hb : Covered (r :: runs₁) b) :
    r.1.toNat ≤ b.toNat := by
  rcases covered_cons.mp hb with hb | hb
  · exact UInt8.le_iff_toNat_le.mp hb.1
  · have hlt := h.lt_of_covered hb
    have hle := h.head_le
    omega

theorem covered_first (h : Separated (r :: runs₁)) : Covered (r :: runs₁) r.1 :=
  covered_cons.mpr (Or.inl ⟨UInt8.le_refl r.1,h.ordered r List.mem_cons_self⟩)

/-- Two lists that begin with the same byte have first runs that end alike: the byte behind the
shorter one would be covered by one list only. -/
theorem Separated.last_le {r' : UInt8 × UInt8} (h : Separated (r :: runs₁)) (hfirst : r.1 = r'.1)
    (hsame : ∀ b, Covered (r' :: runs₂) b → Covered (r :: runs₁) b) :
    r'.2.toNat ≤ r.2.toNat := by
  by_contra hlt
  have hmax := r'.2.toNat_lt
  have hnext : (UInt8.ofNat (r.2.toNat + 1)).toNat = r.2.toNat + 1 :=
    UInt8.toNat_ofNat_of_lt' (by simp only [UInt8.size]; omega)
  have hle := h.head_le
  have hcovered : Covered (r' :: runs₂) (UInt8.ofNat (r.2.toNat + 1)) := by
    refine covered_cons.mpr (Or.inl ?_)
    rw [UInt8.le_iff_toNat_le, UInt8.le_iff_toNat_le, hnext, ← hfirst]
    omega
  rcases covered_cons.mp (hsame _ hcovered) with hin | hin
  · have hin' := UInt8.le_iff_toNat_le.mp hin.2
    omega
  · have hin' := h.lt_of_covered hin
    omega

/-- Separated runs are decided by the bytes that they cover. -/
theorem Separated.eq_of_covered (h₁ : Separated runs₁) (h₂ : Separated runs₂)
    (hsame : ∀ b, Covered runs₁ b ↔ Covered runs₂ b) : runs₁ = runs₂ := by
  induction runs₁ generalizing runs₂ with
  | nil =>
    cases runs₂ with
    | nil => rfl
    | cons r runs₂ => exact absurd ((hsame r.1).mpr (covered_first h₂)) not_covered_nil
  | cons r runs₁ ih =>
    cases runs₂ with
    | nil => exact absurd ((hsame r.1).mp (covered_first h₁)) not_covered_nil
    | cons r' runs₂ =>
      have hfirst : r.1 = r'.1 := by
        have hle := h₁.first_le ((hsame r'.1).mpr (covered_first h₂))
        have hge := h₂.first_le ((hsame r.1).mp (covered_first h₁))
        exact UInt8.toNat_inj.mp (Nat.le_antisymm hle hge)
      have hlast : r.2 = r'.2 := by
        have hle := h₂.last_le hfirst.symm fun b => (hsame b).mp
        have hge := h₁.last_le hfirst fun b => (hsame b).mpr
        exact UInt8.toNat_inj.mp (Nat.le_antisymm hle hge)
      obtain rfl : r = r' := Prod.ext hfirst hlast
      -- what the later runs cover is what is covered above the first run
      have habove : ∀ {runs : List (UInt8 × UInt8)}, Separated (r :: runs) → ∀ b : UInt8,
          (Covered runs b ↔ Covered (r :: runs) b ∧ r.2.toNat < b.toNat) := by
        intro runs h b
        rw [covered_cons]
        constructor
        · intro hb
          have hlt := h.lt_of_covered hb
          exact ⟨Or.inr hb,by omega⟩
        · rintro ⟨hb | hb,hlt⟩
          · have hle := UInt8.le_iff_toNat_le.mp hb.2
            omega
          · exact hb
      rw [ih h₁.tail h₂.tail fun b => by rw [habove h₁ b, habove h₂ b, hsame b]]

theorem eq_ranges_iff {runs : List (UInt8 × UInt8)} :
    (Separated runs ∧ ∀ b, Covered runs b ↔ s.contains b = true) ↔ runs = s.ranges := by
  constructor
  · rintro ⟨hseparated,hcovered⟩
    exact hseparated.eq_of_covered s.separated_ranges fun b =>
      (hcovered b).trans covered_ranges.symm
  · rintro rfl
    exact ⟨s.separated_ranges,fun _ => covered_ranges⟩

end Uniqueness

section Single

/-- The members of a single run, counted up from its first byte. -/
theorem toList_of_ranges (h : s.ranges = [r]) :
    s.toList = (List.range' r.1.toNat (r.2.toNat - r.1.toNat + 1)).map UInt8.ofNat := by
  have hmax := r.2.toNat_lt
  have hle : r.1.toNat ≤ r.2.toNat := (h ▸ s.separated_ranges).head_le
  have hsmall : ∀ n ∈ List.range' r.1.toNat (r.2.toNat - r.1.toNat + 1), n < UInt8.size := by
    intro n hn
    rw [List.mem_range'_1] at hn
    simp only [UInt8.size]
    omega
  refine s.pairwise_toList.eq_of_mem_iff ?_ fun b => ?_
  · rw [List.pairwise_map]
    refine List.Pairwise.imp_of_mem ?_ List.pairwise_lt_range'
    intro m n hm hn hlt
    rwa [UInt8.lt_iff_toNat_lt, UInt8.toNat_ofNat_of_lt' (hsmall m hm),
      UInt8.toNat_ofNat_of_lt' (hsmall n hn)]
  · have hcovered : Covered [r] b ↔ r.1 ≤ b ∧ b ≤ r.2 := by simp [Covered]
    rw [mem_toList, ← covered_ranges, h, hcovered, List.mem_map]
    constructor
    · rintro ⟨hlo,hhi⟩
      rw [UInt8.le_iff_toNat_le] at hlo hhi
      exact ⟨b.toNat,List.mem_range'_1.mpr (by omega),UInt8.ofNat_toNat⟩
    · rintro ⟨n,hn,rfl⟩
      rw [UInt8.le_iff_toNat_le, UInt8.le_iff_toNat_le, UInt8.toNat_ofNat_of_lt' (hsmall n hn)]
      rw [List.mem_range'_1] at hn
      omega

/-- The count of members finds a single run. -/
theorem asRange_eq_some_iff : s.asRange = some r ↔ s.ranges = [r] := by
  constructor
  · intro h
    obtain ⟨lo,hi⟩ := r
    have hcovered : ∀ b, Covered [(lo,hi)] b ↔ s.contains b = true := fun b => by
      simp [contains_asRange h, Covered]
    have hlo : lo ∈ s.toList := List.mem_of_head? (asRange_eq_some.mp h).1
    have hle : lo ≤ hi := by
      obtain ⟨r,hr,hfirst⟩ := (hcovered lo).mpr (mem_toList.mp hlo)
      obtain rfl := List.mem_singleton.mp hr
      exact hfirst.2
    exact (eq_ranges_iff.mp ⟨⟨by simpa using hle,List.pairwise_singleton ..⟩,hcovered⟩).symm
  · intro h
    have hle : r.1.toNat ≤ r.2.toNat := (h ▸ s.separated_ranges).head_le
    have hlast : r.1.toNat + (r.2.toNat - r.1.toNat) = r.2.toNat := Nat.add_sub_cancel' hle
    rw [show r = (r.1,r.2) from rfl, asRange_eq_some, card, toList_of_ranges h]
    refine ⟨?_,?_,by rw [List.length_map, List.length_range']⟩
    · rw [List.head?_map, List.head?_range', if_neg (Nat.succ_ne_zero _), Option.map_some,
        UInt8.ofNat_toNat]
    · rw [List.getLast?_map, List.getLast?_range', if_neg (Nat.succ_ne_zero _), Option.map_some,
        ← Nat.add_assoc, Nat.add_sub_cancel, hlast, UInt8.ofNat_toNat]

end Single

/-- The runs of a set are its one separated list: sets are equal just if their runs are, and a set
is taken for a range just if it is a single run. -/
theorem ranges_normalForm (s : ByteSet) :
    Separated s.ranges ∧ (∀ b, Covered s.ranges b ↔ s.contains b = true) ∧
      ofRanges s.ranges = s ∧
      (∀ runs, (Separated runs ∧ ∀ b, Covered runs b ↔ s.contains b = true) ↔ runs = s.ranges) ∧
      (∀ t : ByteSet, s = t ↔ s.ranges = t.ranges) ∧
      (∀ r, s.asRange = some r ↔ s.ranges = [r]) ∧
      ∀ b, (Transition.ofSet s).accepts b = s.contains b := by
  refine ⟨s.separated_ranges,fun _ => covered_ranges,s.ofRanges_ranges,fun _ => eq_ranges_iff,
    fun t => ⟨fun h => congrArg ranges h,fun h => ?_⟩,fun _ => asRange_eq_some_iff,
    Transition.accepts_ofSet s⟩
  rw [← s.ofRanges_ranges, h, t.ofRanges_ranges]

end ByteAutomata.ByteSet
