import ByteAutomata.Proofs.Expr.Build
import ByteAutomata.Proofs.Term.Priority

/-! # Matches of expressions

The matches of an expression in the order of preference. Within a given text, what is left of it
tells the position, so conditions on positions are conditions on rests. Sequences keep all matches
when they are simplified, and repetitions keep the first one that can be continued. -/
namespace ByteAutomata

/-- How a text is matched, as far as engines may differ: the conditions that hold at a position, and
the rounds of an unlimited repetition, where rounds that take nothing may be treated in any way. A
reluctant one prefers to stop. -/
structure Matching where
  holds : Assertion → List UInt8 → Bool
  endless : (List UInt8 → List (List UInt8)) → Bool → List UInt8 → List (List UInt8)
  head_endless : ∀ once text, (endless once false text).head? = some text

/-- The matching where every round of an unlimited repetition takes a byte. -/
def Matching.advancing (holds : Assertion → List UInt8 → Bool) : Matching where
  holds := holds
  endless := endlessRounds
  head_endless once text := by
    rw [endlessRounds_eq]
    rfl

namespace Expr
variable (m : Matching)

mutual

/-- What the matches of an expression at the head of the text leave, the most preferred one
first. -/
@[simp] def rests : Expr → List UInt8 → List (List UInt8)
  | empty, text => [text]
  | literal bytes, text => strip (bytes.map fun b x => x == b) text
  | byteClass set, text => strip [fun x => set.contains x.toNat] text
  | charClass set, text =>
    match Utf8.decodeHead text with
    | some (n,rest) => if set.contains n then [rest] else []
    | none => []
  | assertion a, text => if m.holds a text then [text] else []
  | repetition min max greedy sub, text =>
    (rounds sub.rests min text).flatMap fun rest =>
      match max with
      | some max => furtherRounds sub.rests greedy (max - min) rest
      | none => m.endless sub.rests greedy rest
  | capture _ _ sub, text => sub.rests text
  | concat items, text => restsBehindAll items text
  | alternation items, text => restsBehindAny items text

/-- Behind all items, one after the other. -/
def restsBehindAll : List Expr → List UInt8 → List (List UInt8)
  | [], text => [text]
  | e :: more, text => (e.rests text).flatMap (restsBehindAll more)

/-- Behind one of the items. -/
def restsBehindAny : List Expr → List UInt8 → List (List UInt8)
  | [], _ => []
  | e :: more, text => e.rests text ++ restsBehindAny more text

end

/-- What the most preferred match leaves. -/
def first (e : Expr) (text : List UInt8) : Option (List UInt8) := (e.rests m text).head?

/-- The offset where the most preferred match from `start` on ends. -/
def matchEnd (e : Expr) (text : List UInt8) (start : Nat) : Option Nat :=
  (e.first m (text.drop start)).map fun rest => text.length - rest.length

variable {m} {e : Expr} {items more : List Expr} {text : List UInt8}

section Sequence

theorem restsBehindAll_singleton (e : Expr) : restsBehindAll m [e] = e.rests m := by
  funext text
  rw [restsBehindAll]
  exact List.flatMap_singleton' _

theorem restsBehindAll_append (text : List UInt8) :
    restsBehindAll m (items ++ more) text =
      (restsBehindAll m items text).flatMap (restsBehindAll m more) := by
  induction items generalizing text with
  | nil => simp [restsBehindAll]
  | cons e items ih =>
    rw [List.cons_append, restsBehindAll, restsBehindAll, List.flatMap_assoc]
    exact List.flatMap_congr fun rest _ => ih rest

theorem restsBehindAll_concatItems (e : Expr) : restsBehindAll m e.concatItems = e.rests m := by
  unfold concatItems
  split
  · rfl
  · rfl
  · exact restsBehindAll_singleton _

theorem restsBehindAll_flatMap (items : List Expr) :
    restsBehindAll m (items.flatMap concatItems) = restsBehindAll m items := by
  induction items with
  | nil => rfl
  | cons e items ih =>
    funext text
    rw [List.flatMap_cons, restsBehindAll_append, restsBehindAll_concatItems, ih, restsBehindAll]

theorem strip_append (ps qs : List (UInt8 → Bool)) (text : List UInt8) :
    strip (ps ++ qs) text = (strip ps text).flatMap (strip qs) := by
  induction ps generalizing text with
  | nil => simp [strip]
  | cons p ps ih =>
    cases text with
    | nil => rfl
    | cons b text =>
      rw [List.cons_append, strip, strip]
      split
      · exact ih text
      · rfl

theorem restsBehindAll_joinLiterals (items : List Expr) :
    restsBehindAll m (joinLiterals items) = restsBehindAll m items := by
  fun_induction joinLiterals items with
  | case1 a rest b more hrest ih =>
    funext text
    rw [restsBehindAll, restsBehindAll, ← ih, hrest, rests, rests, List.map_append, strip_append,
      List.flatMap_assoc]
    exact List.flatMap_congr fun rest _ => by rw [restsBehindAll, rests]
  | case2 a rest hrest ih =>
    funext text
    rw [restsBehindAll, restsBehindAll, ih]
  | case3 e rest _ ih =>
    funext text
    rw [restsBehindAll, restsBehindAll, ih]
  | case4 => rfl

theorem rests_sequence (items : List Expr) : (sequence items).rests m = restsBehindAll m items := by
  rw [← restsBehindAll_flatMap, ← restsBehindAll_joinLiterals, sequence]
  generalize joinLiterals (items.flatMap concatItems) = joined
  split
  · rfl
  · exact (restsBehindAll_singleton _).symm
  · rfl

end Sequence

section Repeated

theorem rounds_onlyEmpty {once : List UInt8 → List (List UInt8)}
    (h : ∀ text, ∀ rest ∈ once text, rest = text) (count : Nat) :
    ∀ text, ∀ rest ∈ rounds once count text, rest = text := by
  induction count with
  | zero =>
    intro text rest hrest
    simpa [rounds] using hrest
  | succ count ih =>
    intro text rest hrest
    obtain ⟨middle,hmiddle,hrest⟩ := List.mem_flatMap.mp hrest
    rw [ih middle rest hrest, h text middle hmiddle]

theorem furtherRounds_onlyEmpty {once : List UInt8 → List (List UInt8)} {greedy : Bool}
    (h : ∀ text, ∀ rest ∈ once text, rest = text) (count : Nat) :
    ∀ text, ∀ rest ∈ furtherRounds once greedy count text, rest = text := by
  induction count with
  | zero =>
    intro text rest hrest
    simpa [furtherRounds] using hrest
  | succ count ih =>
    intro text rest hrest
    rw [furtherRounds_succ] at hrest
    have hcases : rest = text ∨ rest ∈ (once text).flatMap (furtherRounds once greedy count) := by
      cases greedy with
      | true => simpa [or_comm] using hrest
      | false => simpa using hrest
    rcases hcases with rfl | hmore
    · rfl
    · obtain ⟨middle,hmiddle,hrest⟩ := List.mem_flatMap.mp hmore
      rw [ih middle rest hrest, h text middle hmiddle]

theorem allOnlyEmpty_iff : onlyEmpty.allOnlyEmpty items = true ↔ ∀ e ∈ items, e.onlyEmpty = true := by
  induction items with
  | nil => simp [onlyEmpty.allOnlyEmpty]
  | cons e items ih => simp [onlyEmpty.allOnlyEmpty, ih]

theorem eq_of_mem_restsBehindAll (h : ∀ e ∈ items, ∀ text, ∀ rest ∈ e.rests m text, rest = text) :
    ∀ text, ∀ rest ∈ restsBehindAll m items text, rest = text := by
  induction items with
  | nil =>
    intro text rest hrest
    simpa [restsBehindAll] using hrest
  | cons e items ih =>
    obtain ⟨he,hitems⟩ := List.forall_mem_cons.mp h
    intro text rest hrest
    obtain ⟨middle,hmiddle,hrest⟩ := List.mem_flatMap.mp hrest
    rw [ih hitems middle rest hrest, he text middle hmiddle]

theorem mem_restsBehindAny {rest : List UInt8} :
    rest ∈ restsBehindAny m items text ↔ ∃ e ∈ items, rest ∈ e.rests m text := by
  induction items with
  | nil => simp [restsBehindAny]
  | cons e items ih => simp [restsBehindAny, ih]

/-- What matches only the empty string leaves the whole text. -/
theorem eq_of_onlyEmpty (h : e.onlyEmpty = true) :
    ∀ text, ∀ rest ∈ e.rests m text, rest = text := by
  induction e with
  | empty =>
    intro text rest hrest
    simpa [rests] using hrest
  | literal bytes =>
    obtain rfl : bytes = [] := by simpa [onlyEmpty] using h
    intro text rest hrest
    simpa [rests, strip] using hrest
  | byteClass set => simp [onlyEmpty] at h
  | charClass set => simp [onlyEmpty] at h
  | assertion a =>
    intro text rest hrest
    rw [rests] at hrest
    split at hrest
    · simpa using hrest
    · simp at hrest
  | repetition min max greedy sub ih =>
    obtain ⟨hmax,hsub⟩ := (Bool.and_eq_true _ _).mp h
    obtain ⟨n,rfl⟩ := Option.isSome_iff_exists.mp hmax
    intro text rest hrest
    obtain ⟨middle,hmiddle,hrest⟩ := List.mem_flatMap.mp hrest
    rw [furtherRounds_onlyEmpty (ih hsub) (n - min) middle rest hrest,
      rounds_onlyEmpty (ih hsub) min text middle hmiddle]
  | capture index name sub ih => exact ih h
  | concat items ih =>
    have hitems := allOnlyEmpty_iff.mp h
    exact eq_of_mem_restsBehindAll fun e he => ih e he (hitems e he)
  | alternation items ih =>
    have hitems := allOnlyEmpty_iff.mp h
    intro text rest hrest
    obtain ⟨e,he,hrest⟩ := mem_restsBehindAny.mp hrest
    exact ih e he (hitems e he) text rest hrest

/-- Matches that all leave the same are as good as one of them. -/
theorem findSome?_eq {β : Type} {rests : List (List UInt8)} (h : ∀ rest ∈ rests, rest = text)
    (k : List UInt8 → Option β) : rests.findSome? k = if rests = [] then none else k text := by
  obtain ⟨n,rfl⟩ : ∃ n, rests = List.replicate n text :=
    ⟨rests.length,List.eq_replicate_iff.mpr ⟨rfl,h⟩⟩
  rw [List.findSome?_replicate]
  simp

theorem rounds_eq_nil {once : List UInt8 → List (List UInt8)}
    (h : ∀ text, ∀ rest ∈ once text, rest = text) (count : Nat) (text : List UInt8) :
    rounds once (count + 1) text = [] ↔ once text = [] := by
  induction count with
  | zero => rw [rounds_one]
  | succ count ih =>
    rw [rounds, List.flatMap_eq_nil_iff]
    constructor
    · intro hall
      by_contra hne
      obtain ⟨rest,hrest⟩ := List.exists_mem_of_ne_nil _ hne
      have hnil := hall rest hrest
      rw [h text rest hrest] at hnil
      exact hne (ih.mp hnil)
    · intro hnil rest hrest
      rw [hnil] at hrest
      cases hrest

theorem rests_exactly {count : Nat} (text : List UInt8) :
    (repetition count (some count) true e).rests m text = rounds (e.rests m) count text := by
  simp [rests, furtherRounds_zero]

/-- An exact number of rounds keeps its first match when it is simplified, whatever follows. -/
theorem findSome?_repeated {β : Type} (e : Expr) (count : Nat) (text : List UInt8)
    (k : List UInt8 → Option β) :
    ((repeated (count + 1) (some (count + 1)) true e).rests m text).findSome? k =
      (rounds (e.rests m) (count + 1) text).findSome? k := by
  rw [repeated_eq]
  split
  · rename_i honly
    have hbounded : boundedRepetition ((count + 1).min 1)
        (some (((some (count + 1)).getD 1).min 1)) true e = e := by
      simp [boundedRepetition]
    have hrests := eq_of_onlyEmpty (m := m) honly
    have hempty : e.rests m text = [] ↔ rounds (e.rests m) (count + 1) text = [] :=
      (rounds_eq_nil hrests count text).symm
    rw [hbounded, findSome?_eq (hrests text) k,
      findSome?_eq (rounds_onlyEmpty hrests (count + 1) text) k, if_congr hempty rfl rfl]
  · unfold boundedRepetition
    split
    · simp_all
    · split
      · rename_i hone
        rw [hone.1, rounds_one]
      · rw [rests_exactly]

end Repeated

end Expr
end ByteAutomata
