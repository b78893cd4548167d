import ByteAutomata.Expr.Trim
import ByteAutomata.Proofs.Expr.Language
import ByteAutomata.Proofs.Text.Utf8

/-! # Nodes of simplified expressions

The simplifying constructors and the trimming of reluctant ends make only nodes of the kinds that
they are given, apart from nodes in simple form. So well-formed expressions stay well formed, and
tidy ones stay tidy. -/
namespace ByteAutomata.Expr
open Intervals (Ends)
variable {e : Expr} {items : List Expr} {P : Expr → Prop}

/-- A kind of sound nodes that holds every node in simple form. -/
structure Kept (P : Expr → Prop) : Prop where
  sound {e : Expr} (h : P e) : e.IsSound
  empty : P empty
  literal (bytes : List UInt8) : P (literal bytes)
  byteClass (set : ByteClass) : P (byteClass set)
  charClass {set : CharClass} (h : Ends Utf8.IsScalar set.ranges) : P (charClass set)
  assertion (a : Assertion) : P (assertion a)
  repetition {min : Nat} {max : Option Nat} {greedy : Bool} {sub : Expr}
    (h : ∀ m, max = some m → min ≤ m) : P (repetition min max greedy sub)
  capture (index : Nat) (name : Option String) (sub : Expr) : P (capture index name sub)
  concat {items : List Expr} (hlen : 2 ≤ items.length)
    (hitems : ∀ e ∈ items, e.concatItems = [e] ∨ ∃ more, e ∈ more ∧ P (concat more)) :
    P (concat items)
  alternation {items : List Expr} (hlen : 2 ≤ items.length) : P (alternation items)

theorem kept_isSound : Kept IsSound where
  sound h := h
  empty := trivial
  literal _ := trivial
  byteClass _ := trivial
  charClass h := h
  assertion _ := trivial
  repetition h := h
  capture _ _ _ := trivial
  concat _ _ := trivial
  alternation hlen := List.ne_nil_of_length_pos (Nat.lt_of_lt_of_le Nat.two_pos hlen)

section Kept
variable (hP : Kept P)
include hP

theorem Each.wellFormed (h : e.Each P) : e.WellFormed := fun d hd => hP.sound (h d hd)

theorem each_fail : fail.Each P := each_of_leaf rfl (hP.byteClass .empty)

theorem each_ofByteClass (set : ByteClass) : (ofByteClass set).Each P := by
  unfold ofByteClass
  split
  · exact each_fail hP
  · split
    · exact each_of_leaf rfl (hP.literal _)
    · exact each_of_leaf rfl (hP.byteClass set)

theorem each_ofCharClass {set : CharClass} (h : Ends Utf8.IsScalar set.ranges) :
    (ofCharClass set).Each P := by
  unfold ofCharClass
  split
  · exact each_fail hP
  · split
    · exact each_of_leaf rfl (hP.literal _)
    · exact each_of_leaf rfl (hP.charClass h)

end Kept

section Repetition

/-- A repetition, unless its bounds allow no round or exactly one. -/
def boundedRepetition (min : Nat) (max : Option Nat) (greedy : Bool) (sub : Expr) : Expr :=
  if min = 0 ∧ max = some 0 then empty
  else if min = 1 ∧ max = some 1 then sub
  else repetition min max greedy sub

theorem repeated_eq (min : Nat) (max : Option Nat) (greedy : Bool) (sub : Expr) :
    repeated min max greedy sub =
      if sub.onlyEmpty then
        boundedRepetition (min.min 1) (some ((max.getD 1).min 1)) greedy sub
      else boundedRepetition min max greedy sub := by
  unfold repeated
  cases sub.onlyEmpty <;> rfl

variable {min : Nat} {max : Option Nat} {greedy : Bool}

theorem le_capped (hbounds : ∀ m, max = some m → min ≤ m) :
    ∀ m, some ((max.getD 1).min 1) = some m → min.min 1 ≤ m := by
  intro m hm
  obtain rfl := Option.some.inj hm
  refine Nat.le_min.mpr ⟨?_,Nat.min_le_right min 1⟩
  cases max with
  | none => exact Nat.min_le_right min 1
  | some m => exact (Nat.min_le_left min 1).trans (hbounds m rfl)

theorem each_boundedRepetition (hP : Kept P) (hbounds : ∀ m, max = some m → min ≤ m)
    (h : e.Each P) : (boundedRepetition min max greedy e).Each P := by
  unfold boundedRepetition
  split
  · exact each_of_leaf rfl hP.empty
  · split
    · exact h
    · exact each_repetition.mpr ⟨hP.repetition hbounds,h⟩

theorem each_repeated (hP : Kept P) (hbounds : ∀ m, max = some m → min ≤ m) (h : e.Each P) :
    (repeated min max greedy e).Each P := by
  rw [repeated_eq]
  split
  · exact each_boundedRepetition hP (le_capped hbounds) h
  · exact each_boundedRepetition hP hbounds h

end Repetition

section Sequence

/-- What an item of a concatenation in simple form is. -/
def IsItem (P : Expr → Prop) (e : Expr) : Prop :=
  e.Each P ∧ (e.concatItems = [e] ∨ ∃ more, e ∈ more ∧ P (concat more))

theorem isItem_concatItems (h : e.Each P) : ∀ d ∈ e.concatItems, d.IsItem P := by
  cases e with
  | empty => simp [concatItems]
  | concat items =>
    obtain ⟨hconcat,hitems⟩ := each_concat.mp h
    exact fun d hd => ⟨hitems d hd,Or.inr ⟨items,hd,hconcat⟩⟩
  | _ =>
    intro d hd
    obtain rfl := List.mem_singleton.mp hd
    exact ⟨h,Or.inl rfl⟩

theorem isItem_literal (hP : Kept P) (bytes : List UInt8) : (literal bytes).IsItem P :=
  ⟨each_of_leaf rfl (hP.literal bytes),Or.inl rfl⟩

theorem isItem_joinLiterals (hP : Kept P) (h : ∀ e ∈ items, e.IsItem P) :
    ∀ e ∈ joinLiterals items, e.IsItem P := by
  fun_induction joinLiterals items with
  | case1 a rest b more hrest ih =>
    have htail := ih (List.forall_mem_cons.mp h).2
    rw [hrest] at htail
    exact List.forall_mem_cons.mpr ⟨isItem_literal hP _,(List.forall_mem_cons.mp htail).2⟩
  | case2 a rest hrest ih =>
    exact List.forall_mem_cons.mpr ⟨isItem_literal hP a,ih (List.forall_mem_cons.mp h).2⟩
  | case3 e rest _ ih =>
    obtain ⟨he,hrest⟩ := List.forall_mem_cons.mp h
    exact List.forall_mem_cons.mpr ⟨he,ih hrest⟩
  | case4 => exact h

theorem each_sequence (hP : Kept P) (h : ∀ e ∈ items, e.Each P) : (sequence items).Each P := by
  have hjoined : ∀ e ∈ joinLiterals (items.flatMap concatItems), e.IsItem P := by
    refine isItem_joinLiterals hP fun d hd => ?_
    obtain ⟨e,he,hd⟩ := List.mem_flatMap.mp hd
    exact isItem_concatItems (h e he) d hd
  unfold sequence
  generalize joinLiterals (items.flatMap concatItems) = joined at hjoined
  split
  · exact each_of_leaf rfl hP.empty
  · exact (hjoined _ List.mem_cons_self).1
  · rename_i hnil hsingle
    have hlen : 2 ≤ joined.length := by
      match joined with
      | [] => exact absurd rfl hnil
      | [e] => exact absurd rfl (hsingle e)
      | _ :: _ :: _ => exact Nat.le_add_left 2 _
    exact each_concat.mpr
      ⟨hP.concat hlen fun e he => (hjoined e he).2,fun e he => (hjoined e he).1⟩

end Sequence

section Choice

theorem each_alternationItems (h : e.Each P) : ∀ d ∈ e.alternationItems, d.Each P := by
  unfold alternationItems
  split
  · exact (each_alternation.mp h).2
  · simpa using h

theorem isScalar_of_charLiteral {n : Nat} (h : charLiteral? e = some n) : Utf8.IsScalar n := by
  unfold charLiteral? at h
  split at h
  · exact (Utf8.eq_of_single h).1
  · simp at h

theorem ends_of_asCharClass {set : CharClass} (he : e.WellFormed) (h : asCharClass? e = some set) :
    Ends Utf8.IsScalar set.ranges := by
  unfold asCharClass? at h
  split at h
  · obtain rfl := Option.some.inj h
    exact wellFormed_charClass.mp he
  · rename_i bytes
    unfold ByteClass.toCharClass? at h
    split at h
    · rename_i hbelow
      obtain rfl := Option.some.inj h
      refine Intervals.ends_ofRanges fun r hr => ?_
      have hhi := Intervals.isBelow_iff.mp hbelow r hr
      have hle := (bytes.ascending.2 r hr).1
      exact ⟨Or.inl (by omega),Or.inl (by omega)⟩
    · simp at h
  · simp at h

section MapM
variable {β : Type} {f : Expr → Option β} {bs : List β} (h : items.mapM f = some bs)
include h

theorem forall₂_of_mapM : List.Forall₂ (fun e b => f e = some b) items bs := by
  induction items generalizing bs with
  | nil =>
    obtain rfl : [] = bs := by simpa using h
    exact .nil
  | cons e items ih =>
    simp only [List.mapM_cons, Option.pure_def, Option.bind_eq_bind, Option.bind_eq_some_iff,
      Option.some.injEq] at h
    obtain ⟨b,hb,rest,hrest,rfl⟩ := h
    exact .cons hb (ih hrest)

theorem mem_of_mapM : ∀ b ∈ bs, ∃ e ∈ items, f e = some b := by
  replace h := forall₂_of_mapM h
  induction h with
  | nil => simp
  | @cons e b items bs hb _ ih =>
    refine List.forall_mem_cons.mpr ⟨⟨e,List.mem_cons_self,hb⟩,fun c hc => ?_⟩
    obtain ⟨d,hd,hdc⟩ := ih c hc
    exact ⟨d,List.mem_cons_of_mem e hd,hdc⟩

theorem exists_of_mapM : ∀ e ∈ items, ∃ b, f e = some b := by
  replace h := forall₂_of_mapM h
  induction h with
  | nil => simp
  | cons hb _ ih => exact List.forall_mem_cons.mpr ⟨⟨_,hb⟩,ih⟩

end MapM

section Symbol

/-- A class, or a literal of at least one byte. -/
def IsSymbol : Expr → Prop
  | literal bytes => bytes ≠ []
  | byteClass _ | charClass _ => True
  | empty | assertion _ | repetition .. | capture .. | concat _ | alternation _ => False

theorem isSymbol_ofByteClass (set : ByteClass) : (ofByteClass set).IsSymbol := by
  unfold ofByteClass
  split
  · trivial
  · split
    · exact List.cons_ne_nil _ _
    · trivial

theorem isSymbol_ofCharClass (set : CharClass) : (ofCharClass set).IsSymbol := by
  unfold ofCharClass
  split
  · trivial
  · split
    · exact Utf8.encode_ne_nil _
    · trivial

theorem isSymbol_of_charLiteral {n : Nat} (h : charLiteral? e = some n) : e.IsSymbol := by
  unfold charLiteral? at h
  split at h
  · rw [(Utf8.eq_of_single h).2]
    exact Utf8.encode_ne_nil n
  · cases h

theorem isSymbol_of_byteLiteral {n : Nat} (h : byteLiteral? e = some n) : e.IsSymbol := by
  unfold byteLiteral? at h
  split at h
  · exact List.cons_ne_nil _ _
  · cases h

theorem isSymbol_of_asCharClass {set : CharClass} (h : asCharClass? e = some set) : e.IsSymbol := by
  unfold asCharClass? at h
  split at h
  · trivial
  · trivial
  · cases h

theorem isSymbol_of_asByteClass {set : ByteClass} (h : asByteClass? e = some set) : e.IsSymbol := by
  unfold asByteClass? at h
  split at h
  · trivial
  · trivial
  · cases h

/-- Only symbols are merged, and they make up a symbol. -/
theorem isSymbol_mergedClass {merged : Expr} (hm : mergedClass? items = some merged) :
    merged.IsSymbol ∧ ∀ e ∈ items, e.IsSymbol := by
  simp only [mergedClass?, Option.orElse_eq_orElse, Option.orElse_eq_or, Option.or_eq_some_iff,
    Option.map_eq_some_iff] at hm
  obtain ⟨ns,h,rfl⟩ | ⟨-,⟨ns,h,rfl⟩ | ⟨-,⟨sets,h,rfl⟩ | ⟨-,⟨sets,h,rfl⟩⟩⟩⟩ := hm
  · exact ⟨isSymbol_ofCharClass _,fun e he =>
      (exists_of_mapM h e he).elim fun _ => isSymbol_of_charLiteral⟩
  · exact ⟨isSymbol_ofByteClass _,fun e he =>
      (exists_of_mapM h e he).elim fun _ => isSymbol_of_byteLiteral⟩
  · exact ⟨isSymbol_ofCharClass _,fun e he =>
      (exists_of_mapM h e he).elim fun _ => isSymbol_of_asCharClass⟩
  · exact ⟨isSymbol_ofByteClass _,fun e he =>
      (exists_of_mapM h e he).elim fun _ => isSymbol_of_asByteClass⟩

theorem IsSymbol.onlyEmpty (h : e.IsSymbol) : e.onlyEmpty = false := by
  cases e with
  | literal bytes => exact List.isEmpty_eq_false_iff.mpr h
  | byteClass set => rfl
  | charClass set => rfl
  | empty | assertion _ | repetition _ _ _ _ | capture _ _ _ | concat _ | alternation _ => cases h

end Symbol

theorem ends_foldl_union {p : Points} {Q : Nat → Prop} {sets : List (Intervals p)}
    {s : Intervals p} (hs : Ends Q s.ranges) (h : ∀ t ∈ sets, Ends Q t.ranges) :
    Ends Q (sets.foldl Intervals.union s).ranges := by
  induction sets generalizing s with
  | nil => exact hs
  | cons t sets ih =>
    exact ih (Intervals.ends_union hs (h t List.mem_cons_self))
      fun u hu => h u (List.mem_cons_of_mem t hu)

theorem each_mergedClass (hP : Kept P) {merged : Expr} (h : ∀ e ∈ items, e.Each P)
    (hm : mergedClass? items = some merged) : merged.Each P := by
  simp only [mergedClass?, Option.orElse_eq_orElse, Option.orElse_eq_or, Option.or_eq_some_iff,
    Option.map_eq_some_iff] at hm
  obtain ⟨ns,hns,rfl⟩ | ⟨-,⟨ns,-,rfl⟩ | ⟨-,⟨sets,hsets,rfl⟩ | ⟨-,⟨sets,-,rfl⟩⟩⟩⟩ := hm
  · refine each_ofCharClass hP (Intervals.ends_ofRanges fun r hr => ?_)
    obtain ⟨n,hn,rfl⟩ := List.mem_map.mp hr
    obtain ⟨e,-,he⟩ := mem_of_mapM hns n hn
    exact ⟨isScalar_of_charLiteral he,isScalar_of_charLiteral he⟩
  · exact each_ofByteClass hP _
  · refine each_ofCharClass hP (ends_foldl_union Intervals.ends_nil fun set hset => ?_)
    obtain ⟨e,he,hclass⟩ := mem_of_mapM hsets set hset
    exact ends_of_asCharClass (Each.wellFormed hP (h e he)) hclass
  · exact each_ofByteClass hP _

theorem eq_map_concat {lists : List (List Expr)} (h : items.mapM itemsOfConcat? = some lists) :
    items = lists.map concat := by
  rw [← List.forall₂_eq_eq_eq, List.forall₂_map_right_iff]
  refine (forall₂_of_mapM h).imp fun e es he => ?_
  cases e <;> simp_all [itemsOfConcat?]

/-- Leading items are only shared by concatenations. -/
theorem eq_of_sharedStart {lists : List (List Expr)} {n : Nat}
    (h : sharedStart? items = some (lists,n)) : lists ≠ [] ∧ items = lists.map concat := by
  unfold sharedStart? at h
  split at h
  · rename_i first rest hm
    obtain ⟨-,rfl,-⟩ : _ ∧ first :: rest = lists ∧ _ := by simpa using h
    exact ⟨by simp,eq_map_concat hm⟩
  · simp at h

theorem each_alternatives (h : ∀ e ∈ items, e.Each P) :
    ∀ e ∈ items.flatMap alternationItems, e.Each P := by
  intro d hd
  obtain ⟨e,he,hd⟩ := List.mem_flatMap.mp hd
  exact each_alternationItems (h e he) d hd

theorem each_of_sharedStart {lists : List (List Expr)} {n : Nat}
    (hs : sharedStart? (items.flatMap alternationItems) = some (lists,n))
    (h : ∀ e ∈ items, e.Each P) : ∀ es ∈ lists, ∀ e ∈ es, e.Each P := by
  have hconcats : ∀ e ∈ lists.map concat, e.Each P := (eq_of_sharedStart hs).2 ▸ each_alternatives h
  exact fun es hes => (each_concat.mp (hconcats _ (List.mem_map_of_mem hes))).2

/-- What the alternatives have behind their shared leading items. -/
theorem each_tails (hP : Kept P) {lists : List (List Expr)} (n : Nat)
    (h : ∀ es ∈ lists, ∀ e ∈ es, e.Each P) :
    ∀ e ∈ lists.map fun es => sequence (es.drop n), e.Each P := by
  intro d hd
  obtain ⟨es,hes,rfl⟩ := List.mem_map.mp hd
  exact each_sequence hP fun d hd => h es hes d (List.mem_of_mem_drop hd)

/-- The shared leading items with what comes behind them. -/
theorem each_sharedStart {lists : List (List Expr)} (n : Nat)
    (h : ∀ es ∈ lists, ∀ e ∈ es, e.Each P) (he : e.Each P) :
    ∀ d ∈ (lists.headD []).take n ++ [e], d.Each P := by
  refine List.forall_mem_append.mpr ⟨fun d hd => ?_,List.forall_mem_singleton.mpr he⟩
  cases lists with
  | nil => simp at hd
  | cons first more => exact h first List.mem_cons_self d (List.mem_of_mem_take hd)

theorem each_choice (hP : Kept P) (h : ∀ e ∈ items, e.Each P) : (choice items).Each P := by
  fun_induction choice items with
  | case1 items heq => exact each_fail hP
  | case2 items e heq => exact each_alternatives h e (heq ▸ List.mem_cons_self)
  | case3 items e f rest heq merged hm => exact each_mergedClass hP (heq ▸ each_alternatives h) hm
  | case4 items e f rest heq hm lists n hs ih =>
    have hlists := each_of_sharedStart (heq ▸ hs) h
    exact each_sequence hP (each_sharedStart n hlists (ih (each_tails hP n hlists)))
  | case5 items e f rest heq hm hs =>
    exact each_alternation.mpr ⟨hP.alternation (Nat.le_add_left 2 _),heq ▸ each_alternatives h⟩

end Choice

section Trim

theorem trimEach_eq (items : List Expr) : trimEach items = items.map trimLazyEnd := by
  induction items with
  | nil => rfl
  | cons e items ih => rw [trimEach, ih, List.map_cons]

/-- The items that are left are items as they were, but for the last one, which is trimmed. -/
theorem forall_mem_trimLast {Q : Expr → Prop} (h : ∀ e ∈ items, Q e)
    (htrim : ∀ e ∈ items, e.trimLazyEnd.isEmpty = false → Q e.trimLazyEnd) :
    ∀ e ∈ trimLast items, Q e := by
  induction items with
  | nil => exact h
  | cons e rest ih =>
    obtain ⟨he,hrest⟩ := List.forall_mem_cons.mp h
    obtain ⟨hlast,hresttrim⟩ := List.forall_mem_cons.mp htrim
    rw [trimLast]
    split
    · dsimp only
      split
      · exact List.forall_mem_nil Q
      · rename_i hleft
        exact List.forall_mem_singleton.mpr (hlast (Bool.eq_false_iff.mpr hleft))
    · exact List.forall_mem_cons.mpr ⟨he,ih hrest hresttrim⟩

/-- A reluctant repetition at the end keeps the rounds that it must make. -/
theorem trimLazyEnd_reluctant (min : Nat) (max : Option Nat) (sub : Expr) :
    (repetition (min + 2) max false sub).trimLazyEnd =
      sequence [repeated (min + 1) (some (min + 1)) true sub,sub.trimLazyEnd] := rfl

theorem each_trimLazyEnd (hP : Kept P) (h : e.Each P) : e.trimLazyEnd.Each P := by
  induction e with
  | empty | literal _ | byteClass _ | charClass _ | assertion _ => exact h
  | repetition min max greedy sub ih =>
    obtain ⟨-,hsub⟩ := each_repetition.mp h
    cases greedy with
    | true => exact h
    | false =>
      match min with
      | 0 => exact each_of_leaf rfl hP.empty
      | 1 => exact ih hsub
      | min + 2 =>
        rw [trimLazyEnd_reluctant]
        have hcopies : (repeated (min + 1) (some (min + 1)) true sub).Each P :=
          each_repeated hP (fun m hm => (Option.some.inj hm).le) hsub
        refine each_sequence hP fun d hd => ?_
        rcases List.mem_cons.mp hd with rfl | hd
        · exact hcopies
        · obtain rfl := List.mem_singleton.mp hd
          exact ih hsub
  | capture index name sub ih =>
    exact each_capture.mpr ⟨hP.capture index name _,ih (each_capture.mp h).2⟩
  | concat items ih =>
    obtain ⟨-,hitems⟩ := each_concat.mp h
    exact each_sequence hP (forall_mem_trimLast hitems fun e he _ => ih e he (hitems e he))
  | alternation items ih =>
    obtain ⟨-,hitems⟩ := each_alternation.mp h
    rw [trimLazyEnd, trimEach_eq]
    refine each_choice hP fun d hd => ?_
    obtain ⟨e,he,rfl⟩ := List.mem_map.mp hd
    exact ih e he (hitems e he)

end Trim

section WellFormed
variable {lists : List (List Expr)}

theorem wellFormed_alternatives (h : ∀ e ∈ items, e.WellFormed) :
    ∀ e ∈ items.flatMap alternationItems, e.WellFormed := each_alternatives h

theorem wellFormed_of_sharedStart {n : Nat}
    (hs : sharedStart? (items.flatMap alternationItems) = some (lists,n))
    (h : ∀ e ∈ items, e.WellFormed) : ∀ es ∈ lists, ∀ e ∈ es, e.WellFormed :=
  each_of_sharedStart hs h

theorem wellFormed_tails (n : Nat) (h : ∀ es ∈ lists, ∀ e ∈ es, e.WellFormed) :
    ∀ e ∈ lists.map fun es => sequence (es.drop n), e.WellFormed := each_tails kept_isSound n h

theorem wellFormed_trimLazyEnd (h : e.WellFormed) : e.trimLazyEnd.WellFormed :=
  each_trimLazyEnd kept_isSound h

end WellFormed

end ByteAutomata.Expr
