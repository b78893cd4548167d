import Mathlib.Algebra.BigOperators.Ring.List
import ByteAutomata.Proofs.Expr.Matches
import ByteAutomata.Proofs.Expr.ReluctantEnds
import ByteAutomata.Proofs.SetOperations
import ByteAutomata.Proofs.Tree.Denotation

/-! # Languages of simplified expressions

The simplifying constructors change how an expression is written, not what it matches: neighbouring
literals are joined, classes are merged, and leading items that all alternatives share are taken out
in front. -/
namespace ByteAutomata.Expr
open Intervals (Ends)
variable {e : Expr} {items more : List Expr}

section Sequence

theorem product_append : product (items ++ more) = product items * product more := by
  rw [product_eq, product_eq, product_eq, List.map_append, List.prod_append]

theorem product_singleton (e : Expr) : product [e] = e.language := mul_one _

theorem product_concatItems (e : Expr) : product e.concatItems = e.language := by
  unfold concatItems
  split
  · rfl
  · rfl
  · exact product_singleton _

theorem product_flatMap (items : List Expr) :
    product (items.flatMap concatItems) = product items := by
  induction items with
  | nil => rfl
  | cons e items ih => rw [List.flatMap_cons, product_append, product_concatItems, ih, product]

theorem product_joinLiterals (items : List Expr) : product (joinLiterals items) = product items := by
  fun_induction joinLiterals items with
  | case1 a rest b more hrest ih =>
    rw [product, product, ← ih, hrest, product, ← mul_assoc, language, language, language,
      singleton_mul_singleton]
  | case2 a rest hrest ih => rw [product, product, ih]
  | case3 e rest _ ih => rw [product, product, ih]
  | case4 => rfl

theorem language_sequence (items : List Expr) : (sequence items).language = product items := by
  rw [← product_flatMap, ← product_joinLiterals, sequence]
  generalize joinLiterals (items.flatMap concatItems) = joined
  split
  · rfl
  · exact (product_singleton _).symm
  · rfl

end Sequence

section Classes

theorem byteStrings_of_isEmpty {set : ByteClass} (h : set.isEmpty = true) : byteStrings set = 0 := by
  ext w
  refine iff_of_false ?_ (Language.notMem_zero w)
  rintro ⟨b,hb,-⟩
  rw [Intervals.isEmpty_iff_contains.mp h] at hb
  cases hb

theorem charStrings_of_isEmpty {set : CharClass} (h : set.isEmpty = true) : charStrings set = 0 := by
  ext w
  refine iff_of_false ?_ (Language.notMem_zero w)
  rintro ⟨n,-,hn,-⟩
  rw [Intervals.isEmpty_iff_contains.mp h] at hn
  cases hn

theorem language_fail : fail.language = 0 := byteStrings_of_isEmpty rfl

theorem language_ofByteClass (set : ByteClass) : (ofByteClass set).language = byteStrings set := by
  unfold ofByteClass
  split
  · rename_i hempty
    rw [language_fail, byteStrings_of_isEmpty hempty]
  · split
    · rename_i n hsingle
      have hall := Intervals.single?_eq_some_iff.mp hsingle
      have hlast : n ≤ 0xFF := Intervals.le_last ((hall n).mpr rfl)
      have hbyte : (UInt8.ofNat n).toNat = n := UInt8.toNat_ofNat_of_lt' (Nat.lt_succ_of_le hlast)
      ext w
      constructor
      · rintro rfl
        exact ⟨UInt8.ofNat n,(hall _).mpr hbyte,rfl⟩
      · rintro ⟨b,hb,rfl⟩
        rw [← (hall _).mp hb, UInt8.ofNat_toNat]
        rfl
    · rfl

theorem language_ofCharClass {set : CharClass} (h : Ends Utf8.IsScalar set.ranges) :
    (ofCharClass set).language = charStrings set := by
  unfold ofCharClass
  split
  · rename_i hempty
    rw [language_fail, charStrings_of_isEmpty hempty]
  · split
    · rename_i n hsingle
      have hall := Intervals.single?_eq_some_iff.mp hsingle
      obtain ⟨r,hr,-,-⟩ := Intervals.contains_iff.mp ((hall n).mpr rfl)
      have hfirst : r.1 = n :=
        (hall _).mp (Intervals.contains_iff.mpr ⟨r,hr,le_rfl,(set.ascending.2 r hr).1⟩)
      have hscalar : Utf8.IsScalar n := hfirst ▸ (h r hr).1
      ext w
      constructor
      · rintro rfl
        exact ⟨n,hscalar,(hall n).mpr rfl,rfl⟩
      · rintro ⟨m,-,hm,rfl⟩
        rw [(hall m).mp hm]
        rfl
    · rfl

end Classes

section Choice

theorem union_append : union (items ++ more) = union items + union more := by
  rw [union_eq, union_eq, union_eq, List.map_append, List.sum_append]

theorem union_alternationItems (e : Expr) : union e.alternationItems = e.language := by
  unfold alternationItems
  split
  · rfl
  · exact add_zero _

theorem union_flatMap (items : List Expr) :
    union (items.flatMap alternationItems) = union items := by
  induction items with
  | nil => rfl
  | cons e items ih => rw [List.flatMap_cons, union_append, union_alternationItems, ih, union]

/-- What all items are read as stands for the union of the items. -/
theorem union_of_mapM {β : Type} {f : Expr → Option β} {g : β → Language UInt8} {bs : List β}
    (hf : ∀ e b, f e = some b → e.language = g b) (h : items.mapM f = some bs) :
    union items = (bs.map g).sum := by
  have hsame : items.map language = bs.map g := by
    rw [← List.forall₂_eq_eq_eq, List.forall₂_map_left_iff, List.forall₂_map_right_iff]
    exact (forall₂_of_mapM h).imp hf
  rw [union_eq, hsame]

theorem contains_points {p : Points} {ns : List Nat} {m : Nat} (hm : m ≤ p.last) :
    (Intervals.ofRanges (ns.map fun n => (n,n)) : Intervals p).contains m = true ↔ m ∈ ns := by
  rw [Intervals.contains_ofRanges]
  constructor
  · rintro ⟨r,hr,-,hlo,hhi⟩
    obtain ⟨n,hn,rfl⟩ := List.mem_map.mp hr
    exact Nat.le_antisymm hlo hhi ▸ hn
  · intro hmem
    exact ⟨_,List.mem_map_of_mem hmem,hm,le_rfl,le_rfl⟩

theorem language_of_charLiteral {n : Nat} (h : charLiteral? e = some n) :
    e.language = {Utf8.encode n} := by
  unfold charLiteral? at h
  split at h
  · rw [(Utf8.eq_of_single h).2]
    rfl
  · cases h

theorem language_of_byteLiteral {n : Nat} (h : byteLiteral? e = some n) :
    n ≤ 0xFF ∧ e.language = {[UInt8.ofNat n]} := by
  unfold byteLiteral? at h
  split at h
  · rename_i b
    obtain rfl := Option.some.inj h
    exact ⟨Nat.le_of_lt_succ b.toNat_lt,by rw [UInt8.ofNat_toNat]; rfl⟩
  · cases h

theorem language_of_asCharClass {set : CharClass} (h : asCharClass? e = some set) :
    e.language = charStrings set := by
  unfold asCharClass? at h
  split at h
  · obtain rfl := Option.some.inj h
    rfl
  · rename_i bytes
    unfold ByteClass.toCharClass? at h
    split at h
    · rename_i hbelow
      obtain rfl := Option.some.inj h
      have hascii := Intervals.isBelow_iff.mp hbelow
      have hsame : ∀ n, (Intervals.ofRanges bytes.ranges : CharClass).contains n =
          bytes.contains n :=
        Intervals.contains_ofRanges_ranges fun r hr => (hascii r hr).le.trans (by decide)
      refine byteStrings_eq_charStrings (fun n => (hsame n).symm) fun n hn => ?_
      rw [hsame] at hn
      obtain ⟨r,hr,-,hhi⟩ := Intervals.contains_iff.mp hn
      exact hhi.trans_lt (hascii r hr)
    · cases h
  · cases h

theorem language_of_asByteClass {set : ByteClass} (h : asByteClass? e = some set) :
    e.language = byteStrings set := by
  unfold asByteClass? at h
  split at h
  · obtain rfl := Option.some.inj h
    rfl
  · exact (byteStrings_toByteClass h).symm
  · cases h

theorem charStrings_foldl_union (sets : List CharClass) :
    charStrings (sets.foldl Intervals.union .empty) = (sets.map charStrings).sum := by
  ext w
  rw [mem_sum]
  constructor
  · rintro ⟨n,hn,hmem,rfl⟩
    rcases Intervals.contains_foldl_union.mp hmem with hnone | ⟨set,hset,hmem⟩
    · cases hnone
    · exact ⟨_,List.mem_map_of_mem hset,n,hn,hmem,rfl⟩
  · rintro ⟨l,hl,hw⟩
    obtain ⟨set,hset,rfl⟩ := List.mem_map.mp hl
    obtain ⟨n,hn,hmem,rfl⟩ := hw
    exact ⟨n,hn,Intervals.contains_foldl_union.mpr (Or.inr ⟨set,hset,hmem⟩),rfl⟩

theorem byteStrings_foldl_union (sets : List ByteClass) :
    byteStrings (sets.foldl Intervals.union .empty) = (sets.map byteStrings).sum := by
  ext w
  rw [mem_sum]
  constructor
  · rintro ⟨b,hmem,rfl⟩
    rcases Intervals.contains_foldl_union.mp hmem with hnone | ⟨set,hset,hmem⟩
    · cases hnone
    · exact ⟨_,List.mem_map_of_mem hset,b,hmem,rfl⟩
  · rintro ⟨l,hl,hw⟩
    obtain ⟨set,hset,rfl⟩ := List.mem_map.mp hl
    obtain ⟨b,hmem,rfl⟩ := hw
    exact ⟨b,Intervals.contains_foldl_union.mpr (Or.inr ⟨set,hset,hmem⟩),rfl⟩

theorem charStrings_points {ns : List Nat} (h : ∀ n ∈ ns, Utf8.IsScalar n) :
    charStrings (.ofRanges (ns.map fun n => (n,n))) =
      (ns.map fun n => ({Utf8.encode n} : Language UInt8)).sum := by
  have hlast : ∀ n, Utf8.IsScalar n → n ≤ Points.chars.last := fun n hn => by
    change n ≤ 0x10FFFF
    unfold Utf8.IsScalar at hn
    omega
  ext w
  rw [mem_sum]
  constructor
  · rintro ⟨n,hn,hmem,rfl⟩
    exact ⟨_,List.mem_map_of_mem ((contains_points (hlast n hn)).mp hmem),rfl⟩
  · rintro ⟨l,hl,hw⟩
    obtain ⟨n,hn,rfl⟩ := List.mem_map.mp hl
    exact ⟨n,h n hn,(contains_points (hlast n (h n hn))).mpr hn,hw⟩

theorem byteStrings_points {ns : List Nat} (h : ∀ n ∈ ns, n ≤ 0xFF) :
    byteStrings (.ofRanges (ns.map fun n => (n,n))) =
      (ns.map fun n => ({[UInt8.ofNat n]} : Language UInt8)).sum := by
  have hlast : ∀ b : UInt8, b.toNat ≤ Points.bytes.last := fun b => Nat.le_of_lt_succ b.toNat_lt
  ext w
  rw [mem_sum]
  constructor
  · rintro ⟨b,hmem,rfl⟩
    refine ⟨_,List.mem_map_of_mem ((contains_points (hlast b)).mp hmem),?_⟩
    rw [UInt8.ofNat_toNat]
    rfl
  · rintro ⟨l,hl,hw⟩
    obtain ⟨n,hn,rfl⟩ := List.mem_map.mp hl
    refine ⟨UInt8.ofNat n,(contains_points (hlast _)).mpr ?_,hw⟩
    rwa [UInt8.toNat_ofNat_of_lt' (Nat.lt_succ_of_le (h n hn))]

/-- A merged class matches what any of its members matches. -/
theorem language_mergedClass {merged : Expr} (h : ∀ e ∈ items, e.WellFormed)
    (hm : mergedClass? items = some merged) : merged.language = union items := by
  simp only [mergedClass?, Option.orElse_eq_orElse, Option.orElse_eq_or, Option.or_eq_some_iff,
    Option.map_eq_some_iff] at hm
  obtain ⟨ns,hns,rfl⟩ | ⟨-,⟨ns,hns,rfl⟩ | ⟨-,⟨sets,hsets,rfl⟩ | ⟨-,⟨sets,hsets,rfl⟩⟩⟩⟩ := hm
  · have hscalar : ∀ n ∈ ns, Utf8.IsScalar n := fun n hn => by
      obtain ⟨e,-,he⟩ := mem_of_mapM hns n hn
      exact isScalar_of_charLiteral he
    have hends : Ends Utf8.IsScalar
        (Intervals.ofRanges (ns.map fun n => (n,n)) : CharClass).ranges :=
      Intervals.ends_ofRanges fun r hr => by
        obtain ⟨n,hn,rfl⟩ := List.mem_map.mp hr
        exact ⟨hscalar n hn,hscalar n hn⟩
    rw [language_ofCharClass hends, charStrings_points hscalar,
      union_of_mapM (fun _ _ he => language_of_charLiteral he) hns]
  · have hbytes : ∀ n ∈ ns, n ≤ 0xFF := fun n hn => by
      obtain ⟨e,-,he⟩ := mem_of_mapM hns n hn
      exact (language_of_byteLiteral he).1
    rw [language_ofByteClass, byteStrings_points hbytes,
      union_of_mapM (fun _ _ he => (language_of_byteLiteral he).2) hns]
  · have hends : Ends Utf8.IsScalar (sets.foldl Intervals.union .empty).ranges :=
      ends_foldl_union Intervals.ends_nil fun set hset => by
        obtain ⟨e,he,hclass⟩ := mem_of_mapM hsets set hset
        exact ends_of_asCharClass (h e he) hclass
    rw [language_ofCharClass hends, charStrings_foldl_union,
      union_of_mapM (fun _ _ he => language_of_asCharClass he) hsets]
  · rw [language_ofByteClass, byteStrings_foldl_union,
      union_of_mapM (fun _ _ he => language_of_asByteClass he) hsets]

theorem take_of_commonLength {es fs : List Expr} {n : Nat} (h : n ≤ commonLength es fs) :
    es.take n = fs.take n := by
  fun_induction commonLength es fs generalizing n with
  | case1 e es fs ih =>
    cases n with
    | zero => rfl
    | succ n => rw [List.take_succ_cons, List.take_succ_cons, ih (Nat.le_of_succ_le_succ h)]
  | case2 e es f fs hne =>
    obtain rfl := Nat.le_zero.mp h
    rfl
  | case3 es fs _ =>
    obtain rfl := Nat.le_zero.mp h
    rfl

/-- What the alternatives share is in front of every one of them. -/
theorem take_of_sharedStart {lists : List (List Expr)} {n : Nat}
    (h : sharedStart? items = some (lists,n)) :
    ∀ es ∈ lists, (lists.headD []).take n ++ es.drop n = es := by
  unfold sharedStart? at h
  split at h
  · rename_i first rest _
    obtain ⟨-,rfl,hn⟩ : _ ∧ first :: rest = lists ∧ _ := by simpa using h
    have hcommon := (foldl_commonLength_le first rest first.length).2
    rw [hn] at hcommon
    intro es hes
    have htake : first.take n = es.take n := by
      rcases List.mem_cons.mp hes with rfl | hes
      · rfl
      · exact take_of_commonLength (hcommon es hes)
    rw [List.headD_cons, htake, List.take_append_drop]
  · cases h

theorem language_choice (h : ∀ e ∈ items, e.WellFormed) :
    (choice items).language = union items := by
  fun_induction choice items with
  | case1 items heq =>
    rw [language_fail, ← union_flatMap, heq]
    rfl
  | case2 items e heq =>
    rw [← union_flatMap, heq]
    exact (add_zero _).symm
  | case3 items e f rest heq merged hm =>
    rw [language_mergedClass (heq ▸ wellFormed_alternatives h) hm, ← heq, union_flatMap]
  | case4 items e f rest heq hm lists n hs ih =>
    obtain ⟨-,hitems⟩ := eq_of_sharedStart hs
    have hlists := wellFormed_of_sharedStart (heq ▸ hs) h
    have htails := ih (wellFormed_tails n hlists)
    have hparts : ∀ es ∈ lists, (concat es).language =
        product ((lists.headD []).take n) * (sequence (es.drop n)).language := fun es hes => by
      rw [language_sequence, ← product_append, take_of_sharedStart hs es hes]
      rfl
    have hunion : union items = union (lists.map concat) := by rw [← union_flatMap, heq, hitems]
    rw [language_sequence, product_append, product_singleton, htails, hunion, union_eq, union_eq,
      List.map_map, List.map_map, ← List.sum_map_mul_left]
    exact congrArg List.sum (List.map_congr_left fun es hes => (hparts es hes).symm)
  | case5 items e f rest heq hm hs =>
    rw [← union_flatMap, heq]
    rfl

end Choice

section OnlyEmpty

theorem language_of_onlyEmpty (hwell : e.WellFormed) (h : e.onlyEmpty = true) : e.language = 1 := by
  induction e with
  | empty => rfl
  | literal bytes =>
    obtain rfl : bytes = [] := by simpa [onlyEmpty] using h
    rfl
  | byteClass set => cases h
  | charClass set => cases h
  | assertion a => rfl
  | repetition min max greedy sub ih =>
    obtain ⟨hbounds,hsub⟩ := wellFormed_repetition.mp hwell
    rw [language, ih hsub ((Bool.and_eq_true _ _).mp h).2, powers_one hbounds]
  | capture index name sub ih => exact ih (wellFormed_capture.mp hwell) h
  | concat items ih =>
    have hitems := wellFormed_concat.mp hwell
    have hempty := allOnlyEmpty_iff.mp h
    rw [language, product_eq]
    exact List.prod_eq_one fun l hl => by
      obtain ⟨e,he,rfl⟩ := List.mem_map.mp hl
      exact ih e he (hitems e he) (hempty e he)
  | alternation items ih =>
    obtain ⟨hne,hitems⟩ := wellFormed_alternation.mp hwell
    have hempty := allOnlyEmpty_iff.mp h
    have hone : ∀ e ∈ items, e.language = 1 := fun e he => ih e he (hitems e he) (hempty e he)
    ext w
    rw [language, union_eq, mem_sum]
    constructor
    · rintro ⟨l,hl,hw⟩
      obtain ⟨e,he,rfl⟩ := List.mem_map.mp hl
      rwa [hone e he] at hw
    · intro hw
      obtain ⟨e,rest,rfl⟩ := List.exists_cons_of_ne_nil hne
      exact ⟨_,List.mem_map_of_mem List.mem_cons_self,by rwa [hone e List.mem_cons_self]⟩

theorem onlyEmpty_sequence (items : List Expr) :
    (sequence items).onlyEmpty = true ↔ ∀ e ∈ items, e.onlyEmpty = true := by
  have hitem : ∀ e : Expr, (∀ d ∈ e.concatItems, d.onlyEmpty = true) ↔ e.onlyEmpty = true := by
    intro e
    unfold concatItems
    split
    · simp [onlyEmpty]
    · exact allOnlyEmpty_iff.symm
    · simp
  have hflat : (∀ d ∈ items.flatMap concatItems, d.onlyEmpty = true) ↔
      ∀ e ∈ items, e.onlyEmpty = true := by
    rw [List.forall_mem_flatMap]
    exact forall₂_congr fun e _ => hitem e
  have hjoin : ∀ es : List Expr, (∀ e ∈ joinLiterals es, e.onlyEmpty = true) ↔
      ∀ e ∈ es, e.onlyEmpty = true := by
    intro es
    fun_induction joinLiterals es with
    | case1 a rest b more hrest ih =>
      rw [List.forall_mem_cons, List.forall_mem_cons, ← ih, hrest, List.forall_mem_cons]
      simp [onlyEmpty, and_assoc]
    | case2 a rest hrest ih => rw [List.forall_mem_cons, List.forall_mem_cons, ih]
    | case3 e rest _ ih => rw [List.forall_mem_cons, List.forall_mem_cons, ih]
    | case4 => rfl
  rw [← hflat, ← hjoin, sequence]
  generalize joinLiterals (items.flatMap concatItems) = joined
  split
  · simp [onlyEmpty]
  · simp
  · exact allOnlyEmpty_iff

theorem onlyEmpty_flatMap (items : List Expr) :
    (∀ d ∈ items.flatMap alternationItems, d.onlyEmpty = true) ↔
      ∀ e ∈ items, e.onlyEmpty = true := by
  have hitem : ∀ e : Expr, (∀ d ∈ e.alternationItems, d.onlyEmpty = true) ↔
      e.onlyEmpty = true := by
    intro e
    unfold alternationItems
    split
    · exact allOnlyEmpty_iff.symm
    · simp
  rw [List.forall_mem_flatMap]
  exact forall₂_congr fun e _ => hitem e

theorem onlyEmpty_choice (hne : items ≠ []) (h : ∀ e ∈ items, e.WellFormed) :
    (choice items).onlyEmpty = true ↔ ∀ e ∈ items, e.onlyEmpty = true := by
  rw [← onlyEmpty_flatMap]
  fun_induction choice items with
  | case1 items heq =>
    have hle := length_le_flatMap h
    rw [heq, List.length_nil] at hle
    exact absurd (List.length_eq_zero_iff.mp (Nat.le_zero.mp hle)) hne
  | case2 items e heq => rw [heq, List.forall_mem_singleton]
  | case3 items e f rest heq merged hm =>
    obtain ⟨hmerged,hitems⟩ := isSymbol_mergedClass hm
    rw [heq, hmerged.onlyEmpty, List.forall_mem_cons, (hitems e List.mem_cons_self).onlyEmpty]
    simp
  | case4 items e f rest heq hm lists n hs ih =>
    obtain ⟨hlists,hitems⟩ := eq_of_sharedStart hs
    have hwell := wellFormed_of_sharedStart (heq ▸ hs) h
    have htails := ih (by simpa using hlists) (wellFormed_tails n hwell)
    have htake := take_of_sharedStart hs
    rw [onlyEmpty_flatMap, List.forall_mem_map] at htails
    rw [heq, hitems, onlyEmpty_sequence, List.forall_mem_append, List.forall_mem_singleton, htails,
      List.forall_mem_map]
    have hconcat : ∀ es ∈ lists, (concat es).onlyEmpty = true ↔
        (∀ e ∈ (lists.headD []).take n, e.onlyEmpty = true) ∧
          (sequence (es.drop n)).onlyEmpty = true := fun es hes => by
      rw [onlyEmpty_sequence, ← List.forall_mem_append, htake es hes]
      exact allOnlyEmpty_iff
    constructor
    · rintro ⟨hstart,hbehind⟩ es hes
      exact (hconcat es hes).mpr ⟨hstart,hbehind es hes⟩
    · intro hall
      obtain ⟨first,more,rfl⟩ := List.exists_cons_of_ne_nil hlists
      exact ⟨((hconcat first List.mem_cons_self).mp (hall first List.mem_cons_self)).1,
        fun es hes => ((hconcat es hes).mp (hall es hes)).2⟩
  | case5 items e f rest heq hm hs =>
    rw [heq]
    exact allOnlyEmpty_iff

end OnlyEmpty

section Repetition
variable {min : Nat} {max : Option Nat} {greedy : Bool}

theorem language_boundedRepetition (min : Nat) (max : Option Nat) (greedy : Bool) (e : Expr) :
    (boundedRepetition min max greedy e).language = powers e.language min max := by
  unfold boundedRepetition
  split
  · rename_i hzero
    rw [hzero.1, hzero.2, powers_zero_zero]
    rfl
  · split
    · rename_i hone
      rw [hone.1, hone.2, powers_exactly, pow_one]
    · rfl

theorem language_repeated (hbounds : ∀ m, max = some m → min ≤ m) (hwell : e.WellFormed) :
    (repeated min max greedy e).language = powers e.language min max := by
  rw [repeated_eq]
  split
  · rename_i hempty
    rw [language_boundedRepetition, language_of_onlyEmpty hwell hempty, powers_one hbounds,
      powers_one (le_capped hbounds)]
  · exact language_boundedRepetition min max greedy e

end Repetition

end ByteAutomata.Expr
