import Mathlib.Data.Finset.Card
import Mathlib.Order.Interval.Finset.Nat
import ByteAutomata.Proofs.Builder.Layout
import ByteAutomata.Proofs.Term.Language

/-! # Members of byte sets

Each operation on byte sets, told by the bytes that belong to its result, and the bytes that a
transition made from a set accepts. -/
namespace ByteAutomata

theorem toNat_otherCase (b : UInt8) :
    (otherCase b).toNat =
      if 0x41 ≤ b.toNat ∧ b.toNat ≤ 0x5A then b.toNat + 0x20
      else if 0x61 ≤ b.toNat ∧ b.toNat ≤ 0x7A then b.toNat - 0x20
      else b.toNat := by
  have hb := b.toNat_lt
  simp only [otherCase, UInt8.le_iff_toNat_le, UInt8.reduceToNat]
  split_ifs with hupper hlower
  · rw [UInt8.toNat_add]
    exact Nat.mod_eq_of_lt (by simp; omega)
  · exact UInt8.toNat_sub_of_le b 0x20 (UInt8.le_iff_toNat_le.mpr (by simp; omega))
  · rfl

theorem otherCase_otherCase (b : UInt8) : otherCase (otherCase b) = b := by
  have hb := toNat_otherCase b
  have hbb := toNat_otherCase (otherCase b)
  rw [← UInt8.toNat_inj, hbb, hb]
  split_ifs <;> omega

namespace ByteSet
variable {s : ByteSet} {b c lo hi : UInt8}

@[simp] theorem contains_empty (b : UInt8) : empty.contains b = false := by
  simp [contains, empty]

theorem contains_insert (s : ByteSet) (b c : UInt8) :
    (s.insert b).contains c = (s.contains c || c == b) := by
  have hc := c.toNat_lt
  rw [contains, insert, BitVec.getLsbD_or, BitVec.getLsbD_twoPow]
  congr 1
  by_cases h : c = b
  · subst h
    simpa using hc
  · have hne : b.toNat ≠ c.toNat := fun h' => h (UInt8.toNat_inj.mp h'.symm)
    simp [h, hne]

theorem getLsbD_rangeMask (h : lo ≤ hi) (b : UInt8) :
    (rangeMask lo hi).getLsbD b.toNat = (decide (lo ≤ b) && decide (b ≤ hi)) := by
  have hb := b.toNat_lt
  have hhi := hi.toNat_lt
  rw [UInt8.le_iff_toNat_le] at h
  simp only [rangeMask, BitVec.getLsbD_shiftLeft, BitVec.getLsbD_ushiftRight, BitVec.getLsbD_allOnes,
    UInt8.le_iff_toNat_le]
  by_cases h₁ : lo.toNat ≤ b.toNat <;> by_cases h₂ : b.toNat ≤ hi.toNat <;> simp [h₁, h₂] <;> omega

theorem contains_insertRange (s : ByteSet) (lo hi b : UInt8) :
    (s.insertRange lo hi).contains b = (s.contains b || decide (lo ≤ b) && decide (b ≤ hi)) := by
  unfold insertRange
  split
  · rename_i h
    rw [contains, BitVec.getLsbD_or, getLsbD_rangeMask h]
    rfl
  · rename_i h
    have hempty : ¬ (lo ≤ b ∧ b ≤ hi) := fun hb => h (UInt8.le_trans hb.1 hb.2)
    rw [← Bool.decide_and, decide_eq_false hempty, Bool.or_false]

theorem contains_ofRanges (ranges : List (UInt8 × UInt8)) (b : UInt8) :
    (ofRanges ranges).contains b = ranges.any fun r => decide (r.1 ≤ b) && decide (b ≤ r.2) := by
  have hfold : ∀ s : ByteSet, (ranges.foldl (fun s r => s.insertRange r.1 r.2) s).contains b =
      (s.contains b || ranges.any fun r => decide (r.1 ≤ b) && decide (b ≤ r.2)) := by
    induction ranges with
    | nil => simp
    | cons r ranges ih =>
      intro s
      rw [List.foldl_cons, ih, contains_insertRange, List.any_cons, Bool.or_assoc]
  rw [ofRanges, hfold, contains_empty, Bool.false_or]

section Fold

/-- Whether `b` is the letter of index `i`, in any case. -/
def isLetter (i : Nat) (b : UInt8) : Bool := b == capital i || b == small i

theorem isLetter_iff {i : Nat} (hi : i < 26) (b : UInt8) :
    isLetter i b = true ↔ b.toNat = 0x41 + i ∨ b.toNat = 0x61 + i := by
  have hcapital : (0x41 + i) % 256 = 0x41 + i := Nat.mod_eq_of_lt (by omega)
  have hsmall : (0x61 + i) % 256 = 0x61 + i := Nat.mod_eq_of_lt (by omega)
  simp [isLetter, capital, small, ← UInt8.toNat_inj, hcapital, hsmall]

theorem isLetter_otherCase {i : Nat} (hi : i < 26) (b : UInt8) :
    isLetter i (otherCase b) = isLetter i b := by
  have hb := toNat_otherCase b
  rw [Bool.eq_iff_iff, isLetter_iff hi, isLetter_iff hi, hb]
  split_ifs <;> omega

theorem otherCase_of_not_isLetter (h : ∀ i < 26, isLetter i b = false) : otherCase b = b := by
  have hnone : ∀ i < 26, ¬ (b.toNat = 0x41 + i ∨ b.toNat = 0x61 + i) := by
    intro i hi hletter
    have htrue := (isLetter_iff hi b).mpr hletter
    simp [h i hi] at htrue
  rw [← UInt8.toNat_inj, toNat_otherCase]
  split_ifs with hupper hlower
  · exact absurd (Or.inl (by omega)) (hnone (b.toNat - 0x41) (by omega))
  · exact absurd (Or.inr (by omega)) (hnone (b.toNat - 0x61) (by omega))
  · rfl

/-- Folding one letter adds it wherever its other case is a member. -/
theorem contains_foldLetter (s : ByteSet) {i : Nat} (hi : i < 26) (b : UInt8) :
    (s.foldLetter i).contains b = (s.contains b || isLetter i b && s.contains (otherCase b)) := by
  have hcapital : otherCase (capital i) = small i := by
    have hmod : (0x41 + i) % 256 = 0x41 + i := Nat.mod_eq_of_lt (by omega)
    have hmod' : (0x61 + i) % 256 = 0x61 + i := Nat.mod_eq_of_lt (by omega)
    have htoNat : (capital i).toNat = 0x41 + i := by simp [capital, hmod]
    rw [← UInt8.toNat_inj, toNat_otherCase, htoNat, if_pos (by omega)]
    simp [small, hmod']
    omega
  have hsmall : otherCase (small i) = capital i := by rw [← hcapital, otherCase_otherCase]
  unfold foldLetter isLetter
  by_cases h₁ : b = capital i
  · subst h₁
    rw [hcapital]
    cases hc : s.contains (capital i) <;> cases hs : s.contains (small i) <;>
      simp [contains_insert, hc]
  · by_cases h₂ : b = small i
    · subst h₂
      rw [hsmall]
      cases hc : s.contains (capital i) <;> cases hs : s.contains (small i) <;>
        simp [contains_insert, hs]
    · have hb₁ : (b == capital i) = false := beq_eq_false_iff_ne.mpr h₁
      have hb₂ : (b == small i) = false := beq_eq_false_iff_ne.mpr h₂
      split <;> simp [contains_insert, hb₁, hb₂]

theorem contains_foldl_foldLetter (is : List Nat) (his : ∀ i ∈ is, i < 26) (s : ByteSet)
    (b : UInt8) :
    (is.foldl foldLetter s).contains b =
      (s.contains b || is.any (isLetter · b) && s.contains (otherCase b)) := by
  induction is generalizing s with
  | nil => simp
  | cons i is ih =>
    have hi := his i List.mem_cons_self
    rw [List.foldl_cons, ih (fun j hj => his j (List.mem_cons_of_mem i hj)),
      contains_foldLetter s hi, contains_foldLetter s hi, isLetter_otherCase hi,
      otherCase_otherCase, List.any_cons]
    cases s.contains b <;> cases s.contains (otherCase b) <;> cases isLetter i b <;> simp

theorem contains_foldCase (s : ByteSet) (b : UInt8) :
    s.foldCase.contains b = (s.contains b || s.contains (otherCase b)) := by
  rw [foldCase, contains_foldl_foldLetter _ (fun i hi => List.mem_range.mp hi)]
  by_cases h : (List.range 26).any (isLetter · b) = true
  · rw [h, Bool.true_and]
  · have hnone : ∀ i < 26, isLetter i b = false := by
      simpa [List.any_eq_true, List.mem_range] using h
    rw [Bool.eq_false_iff.mpr h, otherCase_of_not_isLetter hnone]
    simp

end Fold

section Range

theorem mem_allBytes (b : UInt8) : b ∈ allBytes :=
  List.mem_map.mpr ⟨b.toNat,List.mem_range.mpr b.toNat_lt,UInt8.ofNat_toNat⟩

theorem pairwise_allBytes : allBytes.Pairwise (· < ·) := by
  rw [allBytes, List.pairwise_map]
  refine List.Pairwise.imp_of_mem ?_ List.pairwise_lt_range
  intro a b ha hb hlt
  rw [List.mem_range] at ha hb
  rw [UInt8.lt_iff_toNat_lt, UInt8.toNat_ofNat_of_lt' ha, UInt8.toNat_ofNat_of_lt' hb]
  exact hlt

@[simp] theorem mem_toList : b ∈ s.toList ↔ s.contains b = true := by
  simp [toList, mem_allBytes]

theorem pairwise_toList (s : ByteSet) : s.toList.Pairwise (· < ·) := pairwise_allBytes.filter _

theorem head_le (h : s.toList.head? = some lo) (hb : s.contains b = true) : lo ≤ b := by
  obtain ⟨rest,hrest⟩ := List.head?_eq_some_iff.mp h
  have hpair := s.pairwise_toList
  have hmem := mem_toList.mpr hb
  rw [hrest] at hpair hmem
  rcases List.mem_cons.mp hmem with rfl | hmem
  · exact UInt8.le_refl b
  · exact UInt8.le_of_lt ((List.pairwise_cons.mp hpair).1 b hmem)

theorem le_last (h : s.toList.getLast? = some hi) (hb : s.contains b = true) : b ≤ hi := by
  obtain ⟨front,hfront⟩ := List.getLast?_eq_some_iff.mp h
  have hpair := s.pairwise_toList
  have hmem := mem_toList.mpr hb
  rw [hfront] at hpair hmem
  rcases List.mem_append.mp hmem with hmem | hmem
  · exact UInt8.le_of_lt ((List.pairwise_append.mp hpair).2.2 b hmem hi (by simp))
  · obtain rfl : b = hi := by simpa using hmem
    exact UInt8.le_refl b

theorem asRange_eq_some : s.asRange = some (lo,hi) ↔
    s.toList.head? = some lo ∧ s.toList.getLast? = some hi ∧ hi.toNat - lo.toNat + 1 = s.card := by
  simp only [asRange, Option.bind_eq_bind, Option.bind_eq_some_iff]
  constructor
  · rintro ⟨first,hfirst,last,hlast,hcard⟩
    split at hcard
    · rename_i hsize
      obtain ⟨rfl,rfl⟩ : first = lo ∧ last = hi := by simpa using hcard
      exact ⟨hfirst,hlast,hsize⟩
    · cases hcard
  · rintro ⟨hfirst,hlast,hsize⟩
    exact ⟨lo,hfirst,hi,hlast,if_pos hsize⟩

/-- A set with as many members as lie between its first and last one has all of them. -/
theorem contains_asRange (h : s.asRange = some (lo,hi)) (b : UInt8) :
    s.contains b = decide (lo ≤ b ∧ b ≤ hi) := by
  obtain ⟨hfirst,hlast,hsize⟩ := asRange_eq_some.mp h
  let members := (s.toList.map UInt8.toNat).toFinset
  have hnodup : (s.toList.map UInt8.toNat).Nodup :=
    (s.pairwise_toList.imp fun h => UInt8.ne_of_lt h).map UInt8.toNat
      fun _ _ hne heq => hne (UInt8.toNat_inj.mp heq)
  have hmembers : members.card = s.card := by
    rw [List.toFinset_card_of_nodup hnodup, List.length_map, card]
  have hsub : members ⊆ Finset.Icc lo.toNat hi.toNat := by
    intro n hn
    obtain ⟨c,hc,rfl⟩ := List.mem_map.mp (List.mem_toFinset.mp hn)
    have hcs := mem_toList.mp hc
    exact Finset.mem_Icc.mpr ⟨UInt8.le_iff_toNat_le.mp (head_le hfirst hcs),
      UInt8.le_iff_toNat_le.mp (le_last hlast hcs)⟩
  have hall : members = Finset.Icc lo.toNat hi.toNat := by
    apply Finset.eq_of_subset_of_card_le hsub
    rw [Nat.card_Icc, hmembers]
    omega
  rw [Bool.eq_iff_iff, decide_eq_true_iff, UInt8.le_iff_toNat_le, UInt8.le_iff_toNat_le,
    ← Finset.mem_Icc, ← hall, ← mem_toList]
  simp [members, UInt8.toNat_inj]

end Range

end ByteSet

namespace Transition

theorem accepts_ofSet (set : ByteSet) (b : UInt8) : (ofSet set).accepts b = set.contains b := by
  unfold ofSet
  split
  · rename_i lo hi h
    rw [ByteSet.contains_asRange h]
    rfl
  · rfl

theorem accepts_any (b : UInt8) : any.accepts b = true := by
  have hb := b.toNat_lt
  have hle : (0x00 : UInt8) ≤ b ∧ b ≤ 0xFF := by
    rw [UInt8.le_iff_toNat_le, UInt8.le_iff_toNat_le]
    simp
    omega
  exact decide_eq_true hle

theorem accepts_byteTransition (s : BuilderSettings) (b x : UInt8) :
    (Assembly.byteTransition s b).accepts x = s.allows b x := by
  simp only [Assembly.byteTransition, BuilderSettings.allows, otherCase]
  cases s.caseSensitive with
  | true => simp [literal, accepts, Kind.accepts]
  | false =>
    by_cases hupper : 0x41 ≤ b ∧ b ≤ 0x5A
    · simp [hupper, either, accepts, Kind.accepts]
    · by_cases hlower : 0x61 ≤ b ∧ b ≤ 0x7A
      · simp [hupper, hlower, either, accepts, Kind.accepts, Bool.or_comm]
      · simp [hupper, hlower, literal, accepts, Kind.accepts]

end Transition

/-- The conditions on the vertices of a leaf are those of the leaf. -/
theorem Leaf.conditions_eq (s : BuilderSettings) (l : Leaf) :
    l.conditions s = (l.transitions s).map (·.map Transition.accepts) := by
  cases l with
  | literal n =>
    have hbyte : Transition.accepts ∘ Assembly.byteTransition s = s.allows := by
      funext b x
      exact Transition.accepts_byteTransition s b x
    simp [conditions, transitions, Option.map_map, Function.comp_def, ← hbyte]
  | dot =>
    have hany : Transition.any.accepts = fun _ => true := by
      funext x
      exact Transition.accepts_any x
    simp [conditions, transitions, hany]
  | charClass set =>
    have hset : (Transition.ofSet (if s.caseSensitive then set else set.foldCase)).accepts =
        fun x => set.contains x || (!s.caseSensitive && set.contains (otherCase x)) := by
      funext x
      rw [Transition.accepts_ofSet]
      cases s.caseSensitive <;> simp [ByteSet.contains_foldCase]
    simp [conditions, transitions, hset]

end ByteAutomata
