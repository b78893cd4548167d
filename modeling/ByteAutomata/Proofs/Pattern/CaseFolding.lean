import ByteAutomata.Proofs.CaseFolding
import ByteAutomata.Proofs.Expr.OfAst
import ByteAutomata.Proofs.SetOperations

/-! # Classes without case

A class of bytes in which cases are ignored from the innermost item on, against the same class with
its cases, which are ignored at the end. The sets agree as long as nothing tells the cases of a
letter apart that are not both there: a complement does, unless it is taken of a set that holds both
cases of a letter or none, and so do the other set operations. -/
namespace ByteAutomata

section Cases
variable {n : Nat}

theorem otherCasePoint_otherCasePoint (n : Nat) : otherCasePoint (otherCasePoint n) = n := by
  unfold otherCasePoint
  split_ifs <;> omega

theorem otherCasePoint_le_iff : otherCasePoint n ≤ 0xFF ↔ n ≤ 0xFF := by
  unfold otherCasePoint
  split_ifs <;> omega

end Cases

namespace Intervals
variable {p : Points} {s t : Intervals p} {n : Nat}

/-- Whether the set has the number in either case. -/
def HasCase (s : Intervals p) (n : Nat) : Prop :=
  s.contains n = true ∨ s.contains (otherCasePoint n) = true

/-- Of every letter the set has both cases or none. -/
def IsCaseClosed (s : Intervals p) : Prop :=
  ∀ n, s.contains n = true → s.contains (otherCasePoint n) = true

theorem hasCase_otherCasePoint : s.HasCase (otherCasePoint n) ↔ s.HasCase n := by
  rw [HasCase, otherCasePoint_otherCasePoint]
  exact or_comm

theorem IsCaseClosed.contains_otherCasePoint (h : s.IsCaseClosed) (n : Nat) :
    s.contains (otherCasePoint n) = s.contains n := by
  rw [Bool.eq_iff_iff]
  refine ⟨fun hn => ?_,h n⟩
  have hother := h _ hn
  rwa [otherCasePoint_otherCasePoint] at hother

theorem IsCaseClosed.hasCase_iff (h : s.IsCaseClosed) : s.HasCase n ↔ s.contains n = true := by
  rw [HasCase, h.contains_otherCasePoint, or_self]

theorem hasCase_union : (s.union t).HasCase n ↔ s.HasCase n ∨ t.HasCase n := by
  rw [HasCase, contains_union, contains_union]
  exact or_or_or_comm

end Intervals

namespace Pattern
variable {s s' t t' : ByteClass} {n : Nat}

section Folding

/-- The groups that are met are the pairs of letters. -/
theorem mem_met : n ∈ (Alphabet.bytes.caseGroups.filter fun group => group.any s.contains).flatten ↔
    ∃ i < 26, (s.contains (0x41 + i) = true ∨ s.contains (0x61 + i) = true) ∧
      (n = 0x41 + i ∨ n = 0x61 + i) := by
  simp only [Alphabet.bytes, List.mem_flatten, List.mem_filter, List.mem_map, List.mem_range]
  constructor
  · rintro ⟨group,⟨⟨i,hi,rfl⟩,hmet⟩,hn⟩
    exact ⟨i,hi,by simpa using hmet,by simpa using hn⟩
  · rintro ⟨i,hi,hmet,hn⟩
    exact ⟨[0x41 + i,0x61 + i],⟨⟨i,hi,rfl⟩,by simpa using hmet⟩,by simpa using hn⟩

theorem contains_fold : (Alphabet.bytes.fold s).contains n = true ↔ s.HasCase n := by
  have hcapital : ∀ i < 26, otherCasePoint (0x41 + i) = 0x61 + i ∧
      otherCasePoint (0x61 + i) = 0x41 + i := by decide
  rw [Alphabet.fold, Intervals.contains_ofRanges]
  simp only [List.mem_append, List.mem_map]
  constructor
  · rintro ⟨r,hr | ⟨m,hm,rfl⟩,-,hlo,hhi⟩
    · exact Or.inl (Intervals.contains_iff.mpr ⟨r,hr,hlo,hhi⟩)
    · obtain rfl : m = n := Nat.le_antisymm hlo hhi
      obtain ⟨i,hi,hmet,rfl | rfl⟩ := mem_met.mp hm
      · rwa [Intervals.HasCase, (hcapital i hi).1]
      · rw [Intervals.HasCase, (hcapital i hi).2]
        exact hmet.symm
  · rintro (hn | hn)
    · obtain ⟨r,hr,hlo,hhi⟩ := Intervals.contains_iff.mp hn
      exact ⟨r,Or.inl hr,(s.ascending.2 r hr).2,hlo,hhi⟩
    · by_cases hsame : otherCasePoint n = n
      · rw [hsame] at hn
        obtain ⟨r,hr,hlo,hhi⟩ := Intervals.contains_iff.mp hn
        exact ⟨r,Or.inl hr,(s.ascending.2 r hr).2,hlo,hhi⟩
      · have hletter : ∃ i < 26, n = 0x41 + i ∨ n = 0x61 + i := by
          unfold otherCasePoint at hsame
          split_ifs at hsame with hupper hlower
          · exact ⟨n - 0x41,by omega,Or.inl (by omega)⟩
          · exact ⟨n - 0x61,by omega,Or.inr (by omega)⟩
          · exact absurd rfl hsame
        have hle := otherCasePoint_le_iff.mp (Intervals.le_last hn)
        obtain ⟨i,hi,hn'⟩ := hletter
        refine ⟨(n,n),Or.inr ⟨n,mem_met.mpr ⟨i,hi,?_,hn'⟩,rfl⟩,hle,le_rfl,le_rfl⟩
        rcases hn' with rfl | rfl
        · exact Or.inr ((hcapital i hi).1 ▸ hn)
        · exact Or.inl ((hcapital i hi).2 ▸ hn)

theorem byteStrings_ignoringCase (h : ∀ n, t.contains n = true ↔ s.HasCase n) :
    Expr.byteStrings t = ignoringCase (Expr.byteStrings s) := by
  have hother : ∀ b : UInt8, (otherCase b).toNat = otherCasePoint b.toNat := toNat_otherCase
  ext w
  rw [mem_ignoringCase]
  constructor
  · rintro ⟨x,hx,rfl⟩
    rcases (h _).mp hx with hx | hx
    · exact ⟨[x],⟨x,hx,rfl⟩,.cons (Or.inl rfl) .nil⟩
    · refine ⟨[otherCase x],⟨otherCase x,by rwa [hother],rfl⟩,.cons (Or.inr ?_) .nil⟩
      exact (otherCase_otherCase x).symm
  · rintro ⟨u,⟨b,hb,rfl⟩,hw⟩
    obtain ⟨x,rest,hx,hrest,rfl⟩ := List.forall₂_cons_left_iff.mp hw
    obtain rfl := List.forall₂_nil_left_iff.mp hrest
    refine ⟨x,(h _).mpr ?_,rfl⟩
    rcases hx with rfl | rfl
    · exact Or.inl hb
    · rw [hother, Intervals.hasCase_otherCasePoint]
      exact Or.inl hb

end Folding

section Conditions

/-- The sets have the same letters, if not in the same cases. -/
def SameLetters (s t : ByteClass) : Prop := ∀ n, s.HasCase n ↔ t.HasCase n

/-- Whether an item as a whole has the same letters when cases are ignored inside of it. -/
def ClassItem.KeepsLetters (item : ClassItem) : Prop :=
  ∀ s t, item.members Alphabet.bytes true = .ok s → item.members Alphabet.bytes false = .ok t →
    SameLetters s t

/-- Whether a set operation tells no cases of a letter apart: an intersection finds a letter that
both operands have in the same case, a difference leaves no letter of which it takes the other case
away, and a symmetric difference only has letters in the same cases twice. -/
def SetOperation.KeepsCases (op : SetOperation) (s t : ByteClass) : Prop :=
  match op with
  | .intersection => ∀ n, s.contains n = true → t.contains (otherCasePoint n) = true →
      (s.inter t).HasCase n
  | .difference => ∀ n, s.contains n = true → t.contains (otherCasePoint n) = true →
      t.contains n = true
  | .symmetricDifference => ∀ n, s.HasCase n → t.HasCase n → s.contains n = t.contains n

mutual

/-- Whether all that is negated in an item has both cases of a letter or none, and no set operation
tells cases apart. A class in which this fails may still have the letters that are lost elsewhere,
as `[[^a]aA]` has. -/
def ClassItem.IsCaseSafe : ClassItem → Prop
  | .ascii _ kind negated => negated = true → (Intervals.ofRanges kind.ranges : ByteClass).IsCaseClosed
  | .bracketed span negated set => (ClassItem.bracketed span negated set).KeepsLetters ∨
      set.IsCaseSafe ∧
        (negated = true → ∀ s, set.members Alphabet.bytes false = .ok s → s.IsCaseClosed)
  | .union _ items => AllCaseSafe items
  | .empty _ | .literal _ | .range .. | .property .. | .shorthand .. => True

def ClassSet.IsCaseSafe : ClassSet → Prop
  | .item i => i.IsCaseSafe
  | .operation _ op left right => left.IsCaseSafe ∧ right.IsCaseSafe ∧
      ∀ s t, left.members Alphabet.bytes false = .ok s → right.members Alphabet.bytes false = .ok t →
        op.KeepsCases s t

def AllCaseSafe : List ClassItem → Prop
  | [] => True
  | item :: rest => item.IsCaseSafe ∧ AllCaseSafe rest

end

end Conditions

section Canonical

theorem canonical_fold : (Alphabet.bytes.fold s).Canonical := Intervals.canonical_ofRanges

theorem canonical_folded (hs : s.Canonical) (folds : Bool) :
    (if folds then Alphabet.bytes.fold s else s).Canonical := by
  split
  · exact canonical_fold
  · exact hs

theorem canonical_finish (hs : s.Canonical) (folds negated : Bool) :
    (Alphabet.bytes.finish folds negated s).Canonical := by
  have hfolded := canonical_folded hs folds
  unfold Alphabet.finish
  cases negated with
  | false => exact hfolded
  | true => exact Intervals.canonical_compl hfolded

theorem canonical_operate (hs : s.Canonical) (ht : t.Canonical) (folds : Bool) (op : SetOperation) :
    (Alphabet.bytes.operate folds op s t).Canonical := by
  have hs' := canonical_folded hs folds
  have ht' := canonical_folded ht folds
  cases op with
  | intersection => exact Intervals.canonical_inter hs' ht'
  | difference => exact Intervals.canonical_diff hs'
  | symmetricDifference => exact Intervals.canonical_symmDiff

mutual

theorem canonical_members {folds : Bool} : ∀ {item : ClassItem} {s : ByteClass},
    item.members Alphabet.bytes folds = .ok s → s.Canonical
  | .empty _, s, h => by
    cases h
    exact List.Pairwise.nil
  | .literal _, s, h => by
    obtain ⟨n,-,h⟩ := bind_eq_ok.mp h
    cases h
    exact Intervals.canonical_ofRanges
  | .range _ _ _, s, h => by
    obtain ⟨m,-,h⟩ := bind_eq_ok.mp h
    obtain ⟨n,-,h⟩ := bind_eq_ok.mp h
    cases h
    exact Intervals.canonical_ofRanges
  | .ascii _ kind negated, s, h | .shorthand _ kind negated, s, h => by
    cases h
    exact canonical_finish Intervals.canonical_ofRanges _ negated
  | .property .., s, h => nomatch h
  | .bracketed _ negated set, s, h => by
    obtain ⟨u,hu,h⟩ := bind_eq_ok.mp h
    cases h
    exact canonical_finish (canonical_setMembers hu) folds negated
  | .union _ items, s, h => canonical_unionOfMembers h

theorem canonical_setMembers {folds : Bool} : ∀ {set : ClassSet} {s : ByteClass},
    set.members Alphabet.bytes folds = .ok s → s.Canonical
  | .item i, s, h => canonical_members h
  | .operation _ op left right, s, h => by
    obtain ⟨u,hu,h⟩ := bind_eq_ok.mp h
    obtain ⟨v,hv,h⟩ := bind_eq_ok.mp h
    cases h
    exact canonical_operate (canonical_setMembers hu) (canonical_setMembers hv) folds op

theorem canonical_unionOfMembers {folds : Bool} : ∀ {items : List ClassItem} {s : ByteClass},
    unionOfMembers Alphabet.bytes folds items = .ok s → s.Canonical
  | [], s, h => by
    cases h
    exact List.Pairwise.nil
  | item :: rest, s, h => by
    obtain ⟨u,-,h⟩ := bind_eq_ok.mp h
    obtain ⟨v,-,h⟩ := bind_eq_ok.mp h
    cases h
    exact Intervals.canonical_ofRanges

end

end Canonical

section Members

/-- One of the sets has all cases of the letters that the other one has in some case. -/
theorem sameLetters_of_contains (h : ∀ n, s.contains n = true ↔ t.HasCase n) : SameLetters s t :=
  fun n => by rw [Intervals.HasCase, h, h, Intervals.hasCase_otherCasePoint, or_self]

theorem contains_folded (h : SameLetters s t) (n : Nat) :
    (Alphabet.bytes.fold s).contains n = true ↔ t.HasCase n := contains_fold.trans (h n)

/-- A complement keeps the letters if it is taken of both cases at once. -/
theorem contains_finish (ht : t.Canonical) (h : SameLetters s t) {negated : Bool}
    (hclosed : negated = true → t.IsCaseClosed) (n : Nat) :
    (Alphabet.bytes.finish true negated s).contains n = true ↔
      (Alphabet.bytes.finish false negated t).HasCase n := by
  cases negated with
  | false => exact contains_folded h n
  | true =>
    have hsame := (hclosed rfl).contains_otherCasePoint n
    have hfold := contains_folded h n
    rw [(hclosed rfl).hasCase_iff] at hfold
    change (Alphabet.bytes.fold s).compl.contains n = true ↔ t.compl.HasCase n
    rw [Intervals.HasCase, Intervals.contains_compl canonical_fold,
      Intervals.contains_compl ht, Intervals.contains_compl ht, hsame,
      otherCasePoint_le_iff, or_self, Bool.eq_iff_iff.mpr hfold]

theorem contains_operate (hs : SameLetters s s') (ht : SameLetters t t') {op : SetOperation}
    (hop : op.KeepsCases s' t') (n : Nat) :
    (Alphabet.bytes.operate true op s t).contains n = true ↔
      (Alphabet.bytes.operate false op s' t').HasCase n := by
  have hs' := contains_folded hs n
  have ht' := contains_folded ht n
  have htwice := otherCasePoint_otherCasePoint n
  cases op with
  | intersection =>
    change ((Alphabet.bytes.fold s).inter (Alphabet.bytes.fold t)).contains n = true ↔
      (s'.inter t').HasCase n
    have hn := hop n
    have hother := hop (otherCasePoint n)
    rw [htwice, Intervals.hasCase_otherCasePoint] at hother
    rw [Intervals.contains_inter, hs', ht']
    constructor
    · rintro ⟨hs | hs,ht | ht⟩
      · exact Or.inl (Intervals.contains_inter.mpr ⟨hs,ht⟩)
      · exact hn hs ht
      · exact hother hs ht
      · exact Or.inr (Intervals.contains_inter.mpr ⟨hs,ht⟩)
    · rintro (hboth | hboth) <;> obtain ⟨hs,ht⟩ := Intervals.contains_inter.mp hboth
      · exact ⟨Or.inl hs,Or.inl ht⟩
      · exact ⟨Or.inr hs,Or.inr ht⟩
  | difference =>
    change ((Alphabet.bytes.fold s).diff (Alphabet.bytes.fold t)).contains n = true ↔
      (s'.diff t').HasCase n
    have hn := hop n
    have hother := hop (otherCasePoint n)
    rw [htwice] at hother
    rw [Intervals.contains_diff, hs', ← Bool.not_eq_true, ht']
    simp only [Intervals.HasCase, Intervals.contains_diff] at *
    grind
  | symmetricDifference =>
    change ((Alphabet.bytes.fold s).symmDiff (Alphabet.bytes.fold t)).contains n = true ↔
      (s'.symmDiff t').HasCase n
    have hn := hop n
    have hother := hop (otherCasePoint n)
    rw [Intervals.hasCase_otherCasePoint, Intervals.hasCase_otherCasePoint] at hother
    rw [Intervals.contains_symmDiff, hs', ht']
    simp only [Intervals.HasCase, Intervals.contains_symmDiff] at *
    grind

theorem sameLetters_finish (ht : t.Canonical) (h : SameLetters s t) {negated : Bool}
    (hclosed : negated = true → t.IsCaseClosed) : SameLetters
      (Alphabet.bytes.finish true negated s) (Alphabet.bytes.finish false negated t) :=
  sameLetters_of_contains (contains_finish ht h hclosed)

theorem sameLetters_operate (hs : SameLetters s s') (ht : SameLetters t t') {op : SetOperation}
    (hop : op.KeepsCases s' t') : SameLetters
      (Alphabet.bytes.operate true op s t) (Alphabet.bytes.operate false op s' t') :=
  sameLetters_of_contains (contains_operate hs ht hop)

theorem sameLetters_union (hs : SameLetters s s') (ht : SameLetters t t') :
    SameLetters (s.union t) (s'.union t') := fun n => by
  rw [Intervals.hasCase_union, Intervals.hasCase_union, hs n, ht n]

mutual

/-- Whether cases are ignored inside or not, an item has the same letters. -/
theorem sameLetters_members : ∀ {item : ClassItem} {s t : ByteClass}, item.IsCaseSafe →
    item.members Alphabet.bytes true = .ok s → item.members Alphabet.bytes false = .ok t →
    SameLetters s t
  | .empty _, s, t, _, hs, ht | .literal _, s, t, _, hs, ht | .range .., s, t, _, hs, ht
  | .shorthand .., s, t, _, hs, ht => by
    -- Cases are not looked at inside of these.
    cases hs.symm.trans ht
    exact fun _ => Iff.rfl
  | .ascii _ kind negated, s, t, hsafe, hs, ht => by
    cases hs
    cases ht
    exact sameLetters_finish Intervals.canonical_ofRanges (fun _ => Iff.rfl) hsafe
  | .property .., s, t, _, hs, _ => nomatch hs
  | .bracketed span negated set, s, t, hsafe, hs, ht => by
    rcases hsafe with hkeeps | ⟨hset,hclosed⟩
    · exact hkeeps s t hs ht
    · obtain ⟨u,hu,hs⟩ := bind_eq_ok.mp hs
      obtain ⟨v,hv,ht⟩ := bind_eq_ok.mp ht
      cases hs
      cases ht
      exact sameLetters_finish (canonical_setMembers hv) (sameLetters_setMembers hset hu hv)
        fun hneg => hclosed hneg v hv
  | .union _ items, s, t, hsafe, hs, ht => sameLetters_unionOfMembers hsafe hs ht

theorem sameLetters_setMembers : ∀ {set : ClassSet} {s t : ByteClass}, set.IsCaseSafe →
    set.members Alphabet.bytes true = .ok s → set.members Alphabet.bytes false = .ok t →
    SameLetters s t
  | .item i, s, t, hsafe, hs, ht => sameLetters_members hsafe hs ht
  | .operation _ op left right, s, t, hsafe, hs, ht => by
    obtain ⟨u,hu,hs⟩ := bind_eq_ok.mp hs
    obtain ⟨u',hu',hs⟩ := bind_eq_ok.mp hs
    obtain ⟨v,hv,ht⟩ := bind_eq_ok.mp ht
    obtain ⟨v',hv',ht⟩ := bind_eq_ok.mp ht
    cases hs
    cases ht
    exact sameLetters_operate (sameLetters_setMembers hsafe.1 hu hv)
      (sameLetters_setMembers hsafe.2.1 hu' hv') (hsafe.2.2 v v' hv hv')

theorem sameLetters_unionOfMembers : ∀ {items : List ClassItem} {s t : ByteClass},
    AllCaseSafe items → unionOfMembers Alphabet.bytes true items = .ok s →
    unionOfMembers Alphabet.bytes false items = .ok t → SameLetters s t
  | [], s, t, _, hs, ht => by
    cases hs
    cases ht
    exact fun _ => Iff.rfl
  | item :: rest, s, t, hsafe, hs, ht => by
    obtain ⟨u,hu,hs⟩ := bind_eq_ok.mp hs
    obtain ⟨u',hu',hs⟩ := bind_eq_ok.mp hs
    obtain ⟨v,hv,ht⟩ := bind_eq_ok.mp ht
    obtain ⟨v',hv',ht⟩ := bind_eq_ok.mp ht
    cases hs
    cases ht
    exact sameLetters_union (sameLetters_members hsafe.1 hu hv)
      (sameLetters_unionOfMembers hsafe.2 hu' hv')

end

end Members

section Closed

/-- What has been folded has all cases, also if a complement is taken of it. -/
theorem isCaseClosed_finish (s : ByteClass) (negated : Bool) :
    (Alphabet.bytes.finish true negated s).IsCaseClosed := by
  have hfold : (Alphabet.bytes.fold s).IsCaseClosed := fun n hn =>
    contains_fold.mpr (Intervals.hasCase_otherCasePoint.mpr (contains_fold.mp hn))
  cases negated with
  | false => exact hfold
  | true =>
    intro n hn
    change (Alphabet.bytes.fold s).compl.contains n = true at hn
    change (Alphabet.bytes.fold s).compl.contains (otherCasePoint n) = true
    rwa [Intervals.contains_compl canonical_fold, hfold.contains_otherCasePoint,
      otherCasePoint_le_iff, ← Intervals.contains_compl canonical_fold]

theorem isCaseClosed_of_le (h : ∀ n ≤ 0xFF, s.contains n = true →
    s.contains (otherCasePoint n) = true) : s.IsCaseClosed := fun n hn =>
  h n (Intervals.le_last hn) hn

theorem isCaseClosed_shorthandClass (kind : ShorthandKind) (negated : Bool) :
    (Alphabet.bytes.shorthandClass kind negated).IsCaseClosed := by
  refine isCaseClosed_of_le fun n hn => ?_
  have hall : ∀ n < 0x100, (Alphabet.bytes.shorthandClass kind negated).contains n = true →
      (Alphabet.bytes.shorthandClass kind negated).contains (otherCasePoint n) = true := by
    cases kind <;> cases negated <;> decide +kernel
  exact hall n (Nat.lt_succ_of_le hn)

end Closed

end Pattern
end ByteAutomata
