import ByteAutomata.Proofs.Tree.Lowering

/-! # What the tree of an expression denotes

With literals read as their UTF-8 bytes, the term of an expression has the language of the
expression, and there is no term just if the empty string is all that is matched. -/
namespace ByteAutomata

section Strings
variable {α : Type}

theorem singleton_mul_singleton (u v : List α) : ({u} * {v} : Language α) = {u ++ v} := by
  ext w
  rw [Language.mem_mul]
  constructor
  · rintro ⟨a,rfl,b,rfl,rfl⟩
    rfl
  · rintro rfl
    exact ⟨u,rfl,v,rfl,rfl⟩

theorem prod_map_singleton {β : Type} (f : β → List α) (xs : List β) :
    (xs.map fun x => ({f x} : Language α)).prod = {xs.flatMap f} := by
  induction xs with
  | nil => rfl
  | cons x xs ih => rw [List.map_cons, List.prod_cons, ih, singleton_mul_singleton,
      List.flatMap_cons]

theorem mem_sum {ls : List (Language α)} {w : List α} : w ∈ ls.sum ↔ ∃ l ∈ ls, w ∈ l := by
  induction ls with
  | nil => simp
  | cons l ls ih => simp [Language.mem_add, ih]

end Strings

section Leaves
variable {s : BuilderSettings}

theorem forall_allows_iff (hcase : s.caseSensitive = true) {bytes w : List UInt8} :
    List.Forall₂ (fun p b => p b = true) (bytes.map s.allows) w ↔ w = bytes := by
  have hallows : ∀ b x : UInt8, s.allows b x = true ↔ b = x := by
    intro b x
    simp only [BuilderSettings.allows, hcase, Bool.not_true, Bool.false_and, Bool.or_false,
      beq_iff_eq]
    exact eq_comm
  rw [List.forall₂_map_left_iff]
  simp only [hallows]
  rw [List.forall₂_eq_eq_eq]
  exact eq_comm

/-- With case, a literal stands for its bytes in the encoding. -/
theorem Leaf.mem_language_encoded (hcase : s.caseSensitive = true) {n : Nat} {w : List UInt8} :
    w ∈ (literal n).language s ↔ s.encoding.encode n = some w := by
  change (∃ ps, (s.encoding.encode n).map _ = some ps ∧ _) ↔ _
  cases s.encoding.encode n with
  | none => simp
  | some bytes =>
    rw [Option.some_inj, eq_comm]
    simp [forall_allows_iff hcase]

theorem Leaf.language_literal (hcase : s.caseSensitive = true) (hutf : s.encoding = .utf8) {n : Nat}
    (hn : Utf8.IsScalar n) : (literal n).language s = {Utf8.encode n} := by
  have hencode : s.encoding.encode n = some (Utf8.encode n) := by
    rw [hutf]
    exact if_pos hn
  ext w
  rw [mem_language_encoded hcase, hencode, Option.some_inj]
  exact eq_comm

theorem Leaf.language_charClass (hcase : s.caseSensitive = true) (set : ByteSet) :
    (charClass set).language s = {w | ∃ b, set.contains b = true ∧ w = [b]} := by
  ext w
  change (∃ ps, some _ = some ps ∧ _) ↔ _
  simp [hcase, List.forall₂_cons_left_iff]
  rfl

theorem Leaf.language_dot : dot.language s = {w | ∃ b, w = [b]} := by
  ext w
  change (∃ ps, some _ = some ps ∧ _) ↔ _
  simp [List.forall₂_cons_left_iff]
  rfl

theorem ByteClass.language_leaf (hcase : s.caseSensitive = true) (set : ByteClass) :
    set.leaf.language s = Expr.byteStrings set := by
  unfold leaf
  split
  · rename_i hany
    have hall := contains_of_isAnyByte hany
    rw [Leaf.language_dot]
    ext w
    exact exists_congr fun b => ⟨fun h => ⟨hall b,h⟩,And.right⟩
  · rw [Leaf.language_charClass hcase]
    simp only [contains_toByteSet]
    rfl

theorem Leaf.language_ofPiece (hcase : s.caseSensitive = true) (hutf : s.encoding = .utf8)
    {p : Utf8.Piece} (hp : p.IsValid) : (Leaf.ofPiece p).language s = {p.bytes} := by
  cases p with
  | scalar n => exact language_literal hcase hutf hp
  | stray b =>
    have hmem : ∀ x, (ByteSet.ofRange b b).contains x = true ↔ x = b := by
      intro x
      rw [ByteSet.ofRange, ByteSet.contains_insertRange]
      simp [← UInt8.toNat_inj, UInt8.le_iff_toNat_le]
      omega
    rw [ofPiece, language_charClass hcase]
    simp only [hmem, exists_eq_left]
    rfl

end Leaves

/-- The term of a language; there is none just for the language of the empty string. -/
inductive Denotes (s : BuilderSettings) (l : Language UInt8) : Option Term → Prop where
  | nothing (h : l = 1) : Denotes s l none
  | term {e : Term} (he : e.language s = l) (hne : ∃ w ∈ l, w ≠ []) : Denotes s l (some e)

namespace Denotes
variable {s : BuilderSettings} {l : Language UInt8} {e? : Option Term}
variable {ls : List (Language UInt8)} {es : List (Option Term)}

theorem leaf {l : Language UInt8} {x : Leaf} (h : x.language s = l) (hne : ∃ w ∈ l, w ≠ []) :
    Denotes s l (some (.leaf x)) := .term h hne

theorem exists_mem (h : Denotes s l e?) : ∃ w, w ∈ l := by
  cases h with
  | nothing h => exact ⟨[],h ▸ rfl⟩
  | term he hne =>
    obtain ⟨w,hw,-⟩ := hne
    exact ⟨w,hw⟩

theorem eq_none_iff (h : Denotes s l e?) : e? = none ↔ l = 1 := by
  cases h with
  | nothing h => exact iff_of_true rfl h
  | term he hne =>
    obtain ⟨w,hw,hnil⟩ := hne
    refine iff_of_false (by simp) fun h => hnil ?_
    rwa [h] at hw

section Operators

theorem exists_mem_prod (h : List.Forall₂ (Denotes s) ls es) : ∃ w, w ∈ ls.prod := by
  induction h with
  | nil => exact ⟨[],rfl⟩
  | cons h _ ih =>
    obtain ⟨u,hu⟩ := h.exists_mem
    obtain ⟨v,hv⟩ := ih
    exact ⟨u ++ v,Language.append_mem_mul hu hv⟩

theorem prod_reduceOption (h : List.Forall₂ (Denotes s) ls es) :
    (es.reduceOption.map (Term.language s)).prod = ls.prod := by
  induction h with
  | nil => rfl
  | cons h _ ih =>
    cases h with
    | nothing h => rw [List.reduceOption_cons_of_none, ih, List.prod_cons, h, one_mul]
    | term he _ =>
      rw [List.reduceOption_cons_of_some, List.map_cons, List.prod_cons, ih, he, List.prod_cons]

theorem exists_ne_nil_prod (h : List.Forall₂ (Denotes s) ls es) (hne : es.reduceOption ≠ []) :
    ∃ w ∈ ls.prod, w ≠ [] := by
  induction h with
  | nil => exact absurd rfl hne
  | cons h hrest ih =>
    cases h with
    | nothing h =>
      rw [List.prod_cons, h, one_mul]
      exact ih hne
    | term he hsome =>
      obtain ⟨u,hu,hnil⟩ := hsome
      obtain ⟨v,hv⟩ := exists_mem_prod hrest
      exact ⟨u ++ v,Language.append_mem_mul hu hv,by simp [hnil]⟩

theorem language_foldl_concatenation (d : Term) (rest : List Term) :
    (rest.foldl .concatenation d).language s =
      d.language s * (rest.map (Term.language s)).prod := by
  induction rest generalizing d with
  | nil => simp
  | cons e rest ih => rw [List.foldl_cons, ih, Term.language, List.map_cons, List.prod_cons,
      mul_assoc]

theorem concatenation (h : List.Forall₂ (Denotes s) ls es) :
    Denotes s ls.prod (Term.concatenationOf es) := by
  have hprod := prod_reduceOption h
  have hne := exists_ne_nil_prod h
  unfold Term.concatenationOf
  cases hes : es.reduceOption with
  | nil => exact .nothing (by rw [← hprod, hes]; rfl)
  | cons d rest =>
    refine .term ?_ (hne (by simp [hes]))
    rw [language_foldl_concatenation, ← hprod, hes, List.map_cons, List.prod_cons]

theorem sum_reduceOption (h : List.Forall₂ (Denotes s) ls es) :
    ls.sum = (if es.any (·.isNone) then 1 else 0) + (es.reduceOption.map (Term.language s)).sum := by
  induction h with
  | nil => simp
  | cons h _ ih =>
    rw [List.sum_cons, ih, List.any_cons]
    cases h with
    | nothing h =>
      rw [List.reduceOption_cons_of_none, h, ← add_assoc]
      split <;> simp
    | term he _ =>
      rw [List.reduceOption_cons_of_some, List.map_cons, List.sum_cons, he, add_left_comm]
      simp

theorem language_foldl_alternation (d : Term) (rest : List Term) :
    (rest.foldl .alternation d).language s =
      d.language s + (rest.map (Term.language s)).sum := by
  induction rest generalizing d with
  | nil => simp
  | cons e rest ih => rw [List.foldl_cons, ih, Term.language, List.map_cons, List.sum_cons,
      add_assoc]

theorem exists_ne_nil_sum (h : List.Forall₂ (Denotes s) ls es) (hne : es.reduceOption ≠ []) :
    ∃ w ∈ ls.sum, w ≠ [] := by
  induction h with
  | nil => exact absurd rfl hne
  | cons h _ ih =>
    rw [List.sum_cons]
    cases h with
    | nothing h =>
      obtain ⟨w,hw,hnil⟩ := ih hne
      exact ⟨w,Or.inr hw,hnil⟩
    | term he hsome =>
      obtain ⟨w,hw,hnil⟩ := hsome
      exact ⟨w,Or.inl hw,hnil⟩

theorem alternation (hitems : es ≠ []) (h : List.Forall₂ (Denotes s) ls es) :
    Denotes s ls.sum (Term.alternationOf es) := by
  have hsum := sum_reduceOption h
  have hne := exists_ne_nil_sum h
  unfold Term.alternationOf
  cases hes : es.reduceOption with
  | nil =>
    have hskip : es.any (·.isNone) = true := by
      obtain ⟨e?,rest,rfl⟩ := List.exists_cons_of_ne_nil hitems
      cases e? with
      | none => rfl
      | some e => simp at hes
    refine .nothing ?_
    rw [hsum, hskip, hes]
    simp
  | cons d rest =>
    rw [hes] at hsum hne
    refine .term ?_ (hne (by simp))
    rw [hsum, List.map_cons, List.sum_cons]
    split
    · rw [Term.language_option, language_foldl_alternation]
    · rw [language_foldl_alternation, zero_add]

theorem repetition {min : Nat} {max : Option Nat} {greedy : Bool} (h : Denotes s l e?)
    (hbounds : ∀ m, max = some m → min ≤ m) :
    Denotes s (powers l min max)
      (if min = 0 ∧ max = some 0 then none else e?.map (.repetition min max greedy)) := by
  split
  · rename_i hzero
    obtain ⟨rfl,rfl⟩ := hzero
    exact .nothing (powers_zero_zero l)
  · rename_i hsome
    cases h with
    | nothing h => exact .nothing (by rw [h, powers_one hbounds])
    | term he hne =>
      obtain ⟨w,hw,hnil⟩ := hne
      refine .term (by rw [Term.language, he]) ?_
      have hpow : (List.replicate (min ⊔ 1) w).flatten ∈ l ^ (min ⊔ 1) := by
        refine Language.mem_pow.mpr ⟨_,rfl,List.length_replicate,fun u hu => ?_⟩
        rwa [List.eq_of_mem_replicate hu]
      refine ⟨_,mem_powers.mpr ⟨min ⊔ 1,le_sup_left,?_,hpow⟩,?_⟩
      · intro m hm
        have hle := hbounds m hm
        have hpos : m ≠ 0 := fun hzero => hsome ⟨by omega,by rw [hm, hzero]⟩
        exact sup_le hle (Nat.one_le_iff_ne_zero.mpr hpos)
      · simp [hnil]

end Operators

end Denotes

section Classes
variable {s : BuilderSettings} {set : CharClass} {n : Nat}

theorem Tree.mem_scalars : n ∈ Tree.scalars set ↔ Utf8.IsScalar n ∧ set.contains n = true := by
  rw [Intervals.contains_iff]
  simp only [scalars, List.mem_flatMap, List.mem_filter, List.mem_range'_1, decide_eq_true_eq]
  constructor
  · rintro ⟨r,hr,⟨hlo,hhi⟩,hn⟩
    have hle := (set.ascending.2 r hr).1
    exact ⟨hn,r,hr,hlo,by omega⟩
  · rintro ⟨hn,r,hr,hlo,hhi⟩
    exact ⟨r,hr,⟨hlo,by omega⟩,hn⟩

theorem Tree.scalars_ne_nil (hends : Intervals.Ends Utf8.IsScalar set.ranges)
    (hne : set.isEmpty = false) : Tree.scalars set ≠ [] := by
  obtain ⟨r,rest,hranges⟩ := List.exists_cons_of_ne_nil (l := set.ranges) fun hnil => by
    simp [Intervals.isEmpty, hnil] at hne
  have hr : r ∈ set.ranges := by simp [hranges]
  have hcontains : set.contains r.1 = true :=
    Intervals.contains_iff.mpr ⟨r,hr,le_rfl,(set.ascending.2 r hr).1⟩
  exact List.ne_nil_of_mem (Tree.mem_scalars.mpr ⟨(hends r hr).1,hcontains⟩)

/-- In ASCII bytes and characters are the same. -/
theorem byteStrings_eq_charStrings {bytes : ByteClass}
    (hsame : ∀ n, bytes.contains n = set.contains n) (hascii : ∀ n, set.contains n = true → n < 0x80) :
    Expr.byteStrings bytes = Expr.charStrings set := by
  have hencode : ∀ n < 0x80, Utf8.encode n = [UInt8.ofNat n] := fun n hn => if_pos hn
  ext w
  constructor
  · rintro ⟨b,hb,rfl⟩
    rw [hsame] at hb
    have hlt := hascii _ hb
    exact ⟨b.toNat,Or.inl (by omega),hb,by rw [hencode _ hlt, UInt8.ofNat_toNat]⟩
  · rintro ⟨n,-,hn,rfl⟩
    have hlt := hascii n hn
    refine ⟨UInt8.ofNat n,?_,hencode n hlt⟩
    rwa [hsame, UInt8.toNat_ofNat_of_lt' (hlt.trans (by decide))]

theorem byteStrings_toByteClass {bytes : ByteClass} (h : set.toByteClass? = some bytes) :
    Expr.byteStrings bytes = Expr.charStrings set := by
  have hbelow := Intervals.isBelow_iff.mp (CharClass.toByteClass_eq_some h).1
  refine byteStrings_eq_charStrings (CharClass.contains_toByteClass h) fun n hn => ?_
  obtain ⟨r,hr,-,hhi⟩ := Intervals.contains_iff.mp hn
  exact hhi.trans_lt (hbelow r hr)

theorem Denotes.byteClass (hcase : s.caseSensitive = true) {set : ByteClass}
    (hne : set.isEmpty = false) : Denotes s (Expr.byteStrings set) (some (.leaf set.leaf)) := by
  obtain ⟨b,hb⟩ := ByteClass.exists_contains hne
  exact .leaf (ByteClass.language_leaf hcase set) ⟨[b],⟨b,hb,rfl⟩,by simp⟩

theorem Denotes.chars (hcase : s.caseSensitive = true) (hutf : s.encoding = .utf8)
    (hends : Intervals.Ends Utf8.IsScalar set.ranges) (hne : set.isEmpty = false) :
    Denotes s (Expr.charStrings set)
      (Term.alternationOf ((Tree.scalars set).map fun n => some (.leaf (.literal n)))) := by
  have hsum : Expr.charStrings set =
      ((Tree.scalars set).map fun n => ({Utf8.encode n} : Language UInt8)).sum := by
    ext w
    rw [mem_sum]
    constructor
    · rintro ⟨n,hn,hset,rfl⟩
      exact ⟨_,List.mem_map_of_mem (Tree.mem_scalars.mpr ⟨hn,hset⟩),rfl⟩
    · rintro ⟨l,hl,hw⟩
      obtain ⟨n,hn,rfl⟩ := List.mem_map.mp hl
      obtain ⟨hscalar,hset⟩ := Tree.mem_scalars.mp hn
      exact ⟨n,hscalar,hset,hw⟩
  have hnil := Tree.scalars_ne_nil hends hne
  rw [hsum]
  refine .alternation (by simpa using hnil) ?_
  rw [List.forall₂_map_left_iff, List.forall₂_map_right_iff, List.forall₂_same]
  intro n hn
  have hlanguage := Leaf.language_literal hcase hutf (Tree.mem_scalars.mp hn).1
  exact .leaf hlanguage ⟨_,rfl,Utf8.encode_ne_nil n⟩

end Classes

namespace Expr
variable {s : BuilderSettings} {e : Expr} {items : List Expr}

theorem firstObstacle_of_mem (h : (nodesOfAll items).findSome? obstacle? = none) (he : e ∈ items) :
    e.firstObstacle? = none := by
  rw [List.findSome?_eq_none_iff] at h
  exact List.findSome?_eq_none_iff.mpr fun d hd => h d (mem_nodesOfAll.mpr ⟨e,he,hd⟩)

theorem denotes_terms (hitems : ∀ e ∈ items, Denotes s e.language e.term?) :
    List.Forall₂ (Denotes s) (items.map language) (terms items) := by
  rw [terms_eq_map, List.forall₂_map_left_iff, List.forall₂_map_right_iff, List.forall₂_same]
  exact hitems

theorem denotes_literal (hcase : s.caseSensitive = true) (hutf : s.encoding = .utf8)
    (bytes : List UInt8) : Denotes s {bytes} (literal bytes).term? := by
  obtain ⟨hbytes,hvalid⟩ := Utf8.flatMap_pieces bytes
  have hprod : ((Utf8.pieces bytes).map fun p => ({p.bytes} : Language UInt8)).prod = {bytes} := by
    rw [prod_map_singleton, hbytes]
  rw [← hprod, term?]
  refine .concatenation ?_
  rw [List.forall₂_map_left_iff, List.forall₂_map_right_iff, List.forall₂_same]
  intro p hp
  refine .leaf (Leaf.language_ofPiece hcase hutf (hvalid p hp)) ⟨_,rfl,?_⟩
  exact Utf8.Piece.bytes_ne_nil p

/-- An expression without obstacles has the language of its term. -/
theorem denotes_term (hcase : s.caseSensitive = true) (hutf : s.encoding = .utf8)
    (hw : e.WellFormed) (hno : e.firstObstacle? = none) : Denotes s e.language e.term? := by
  induction e with
  | empty => exact .nothing rfl
  | literal bytes => exact denotes_literal hcase hutf bytes
  | byteClass set =>
    rw [firstObstacle_leaf rfl] at hno
    have hne : set.isEmpty = false := by
      cases hempty : set.isEmpty with
      | false => rfl
      | true => simp [obstacle?, hempty] at hno
    exact .byteClass hcase hne
  | charClass set =>
    rw [firstObstacle_leaf rfl] at hno
    have hne : set.isEmpty = false := by
      cases hempty : set.isEmpty with
      | false => rfl
      | true => simp [obstacle?, hempty] at hno
    rw [language, term?]
    cases hbytes : set.toByteClass? with
    | some bytes =>
      rw [← byteStrings_toByteClass hbytes]
      exact .byteClass hcase ((CharClass.toByteClass_eq_some hbytes).2.trans hne)
    | none => exact .chars hcase hutf (wellFormed_charClass.mp hw) hne
  | assertion a => simp [firstObstacle?, nodes, obstacle?] at hno
  | repetition min max greedy sub ih =>
    obtain ⟨hbounds,hsub⟩ := wellFormed_repetition.mp hw
    rw [firstObstacle_operator rfl rfl] at hno
    rw [language, term?]
    exact (ih hsub hno).repetition hbounds
  | capture index name sub ih =>
    rw [firstObstacle_operator rfl rfl] at hno
    rw [language, term?]
    exact ih (wellFormed_capture.mp hw) hno
  | concat items ih =>
    rw [firstObstacle_operator rfl rfl] at hno
    rw [language, term?, product_eq]
    exact .concatenation (denotes_terms fun e he =>
      ih e he (wellFormed_concat.mp hw e he) (firstObstacle_of_mem hno he))
  | alternation items ih =>
    obtain ⟨hnil,hitems⟩ := wellFormed_alternation.mp hw
    rw [firstObstacle_operator rfl rfl] at hno
    rw [language, term?, union_eq]
    have hterms : terms items ≠ [] := by
      obtain ⟨e,rest,rfl⟩ := List.exists_cons_of_ne_nil hnil
      simp [terms]
    exact .alternation hterms (denotes_terms fun e he =>
      ih e he (hitems e he) (firstObstacle_of_mem hno he))

end Expr

end ByteAutomata
