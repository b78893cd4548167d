import ByteAutomata.Proofs.Expr.Matches

/-! # Trimming and the first match

A reluctant repetition at the end of an expression stops as soon as it may, so its further rounds
never belong to the first match. Trimming drops them and keeps the first match at every position,
although it changes the language. The prefix in front of a trimmed end may backtrack in any way: all
its matches are tried in their order, and each of them is continued in the same way as before.

Simplifying an alternation does not keep the first match in general, as alternatives with the same
leading items may prefer to match these in different ways. What is needed of it is asked for the
alternations that trimming makes. -/
namespace ByteAutomata.Expr
variable {m : Matching} {e : Expr} {items : List Expr}

/-- Whether an alternation has the same first matches when it is simplified. -/
def KeepsFirst (m : Matching) (items : List Expr) : Prop :=
  ∀ text, (choice items).first m text = (alternation items).first m text

mutual

/-- The alternatives that trimming makes alternations of. -/
def trimmedChoices : Expr → List (List Expr)
  | repetition min _ greedy sub => if greedy ∨ min = 0 then [] else sub.trimmedChoices
  | capture _ _ sub => sub.trimmedChoices
  | concat items => trimmedChoicesOfLast items
  | alternation items => trimEach items :: trimmedChoicesOfEach items
  | empty | literal _ | byteClass _ | charClass _ | assertion _ => []

def trimmedChoicesOfLast : List Expr → List (List Expr)
  | [] => []
  | e :: rest =>
    if trimLast rest = [] then e.trimmedChoices ++ trimmedChoicesOfLast rest
    else trimmedChoicesOfLast rest

def trimmedChoicesOfEach : List Expr → List (List Expr)
  | [] => []
  | e :: rest => e.trimmedChoices ++ trimmedChoicesOfEach rest

end

section First

theorem findSome?_some {α : Type} (xs : List α) : xs.findSome? some = xs.head? := by
  cases xs <;> rfl

theorem first_sequence (text : List UInt8) :
    (sequence items).first m text = (restsBehindAll m items text).head? := by
  rw [first, rests_sequence]

theorem first_alternation (text : List UInt8) :
    (alternation items).first m text = items.findSome? fun e => e.first m text := by
  rw [first, rests]
  induction items with
  | nil => rfl
  | cons e items ih =>
    rw [restsBehindAny, List.head?_append, ih, List.findSome?_cons, first]
    cases (e.rests m text).head? <;> rfl

/-- The first match of a reluctant repetition makes no further rounds. -/
theorem first_reluctant (min : Nat) (max : Option Nat) (text : List UInt8) :
    (repetition min max false e).first m text = (rounds (e.rests m) min text).head? := by
  have hbounded : ∀ count rest,
      (furtherRounds (e.rests m) false count rest).head? = some rest := by
    intro count rest
    cases count <;> rfl
  rw [first, rests, List.head?_flatMap, ← findSome?_some]
  refine findSome?_congr fun rest _ => ?_
  cases max with
  | none => exact m.head_endless (e.rests m) rest
  | some max => exact hbounded (max - min) rest

theorem first_repetition_one (max : Option Nat) (text : List UInt8) :
    (repetition 1 max false e).first m text = e.first m text := by
  rw [first_reluctant, rounds_one, first]

/-- All rounds but the last one may backtrack. -/
theorem first_repetition_succ (min : Nat) (max : Option Nat) (text : List UInt8) :
    (repetition (min + 1) max false e).first m text =
      (rounds (e.rests m) min text).findSome? (e.first m) := by
  rw [first_reluctant, rounds_add, rounds_one, List.head?_flatMap]
  rfl

end First

section Choice

theorem first_alternationItems (items : List Expr) (text : List UInt8) :
    (alternation (items.flatMap alternationItems)).first m text =
      (alternation items).first m text := by
  rw [first_alternation, first_alternation, findSome?_flatMap]
  refine findSome?_congr fun e _ => ?_
  unfold alternationItems
  split
  · exact (first_alternation text).symm
  · rw [List.findSome?_singleton]

/-- Nothing but shared leading items and alternatives that make up a class changes alternatives. -/
theorem keepsFirst (hmerged : mergedClass? (items.flatMap alternationItems) = none)
    (hshared : sharedStart? (items.flatMap alternationItems) = none) : KeepsFirst m items := by
  intro text
  rw [← first_alternationItems items, choice]
  split
  · rename_i hnil
    rw [hnil]
    cases text <;> rfl
  · rename_i e hsingle
    rw [hsingle, first_alternation, List.findSome?_singleton]
  · rename_i e f rest hflat
    rw [hflat] at hmerged hshared ⊢
    rw [hmerged]
    dsimp only
    split
    · rename_i hsome
      rw [hshared] at hsome
      cases hsome
    · rfl

/-- `a??b|a??a` is simplified to `a??(?:b|a)`, which matches less of `ab`. -/
example :
    let m := Matching.advancing fun _ _ => true
    let start := repetition 0 (some 1) false (literal [0x61])
    let items := [concat [start,literal [0x62]],concat [start,literal [0x61]]]
    (choice items).first m [0x61,0x62] = some [0x62] ∧
      (alternation items).first m [0x61,0x62] = some [] := by decide +kernel

end Choice

section Trimmed

/-- Where nothing is left of the items behind, their first match takes nothing. -/
theorem head_trimLast (h : ∀ e ∈ items, (∀ alts ∈ e.trimmedChoices, KeepsFirst m alts) →
      ∀ text, e.trimLazyEnd.first m text = e.first m text)
    (hkeeps : ∀ alts ∈ trimmedChoicesOfLast items, KeepsFirst m alts) (text : List UInt8) :
    (restsBehindAll m (trimLast items) text).head? = (restsBehindAll m items text).head? := by
  induction items generalizing text with
  | nil => rfl
  | cons e rest ih =>
    obtain ⟨he,hrest⟩ := List.forall_mem_cons.mp h
    rw [trimmedChoicesOfLast] at hkeeps
    rw [trimLast, restsBehindAll, List.head?_flatMap]
    split
    · -- nothing is left of the items behind, so the end is in `e`
      rename_i hnil
      rw [if_pos hnil] at hkeeps
      obtain ⟨hlast,hbehind⟩ := List.forall_mem_append.mp hkeeps
      have hstop : ∀ text, (restsBehindAll m rest text).head? = some text := by
        intro text
        rw [← ih hrest hbehind text, hnil]
        rfl
      have hfirst : (e.rests m text).findSome? (fun rest' => (restsBehindAll m rest rest').head?) =
          e.trimLazyEnd.first m text := by
        rw [funext hstop, findSome?_some, he hlast text, first]
      rw [hfirst]
      dsimp only
      split
      · rename_i hempty
        have htrimmed : e.trimLazyEnd = empty := by
          cases hd : e.trimLazyEnd with
          | empty => rfl
          | _ => simp [hd, isEmpty] at hempty
        rw [htrimmed]
        rfl
      · rw [restsBehindAll_singleton, first]
    · rename_i hne
      rw [if_neg hne] at hkeeps
      rw [restsBehindAll, List.head?_flatMap]
      exact findSome?_congr fun rest' _ => ih hrest hkeeps rest'

theorem first_trimEach (h : ∀ e ∈ items, (∀ alts ∈ e.trimmedChoices, KeepsFirst m alts) →
      ∀ text, e.trimLazyEnd.first m text = e.first m text)
    (hkeeps : ∀ alts ∈ trimmedChoicesOfEach items, KeepsFirst m alts) (text : List UInt8) :
    (trimEach items).findSome? (fun e => e.first m text) =
      items.findSome? fun e => e.first m text := by
  induction items with
  | nil => rfl
  | cons e rest ih =>
    obtain ⟨he,hrest⟩ := List.forall_mem_cons.mp h
    obtain ⟨hhead,htail⟩ := List.forall_mem_append.mp hkeeps
    rw [trimEach, List.findSome?_cons, List.findSome?_cons, he hhead text, ih hrest htail]

theorem first_trimLazyEnd (hkeeps : ∀ alts ∈ e.trimmedChoices, KeepsFirst m alts)
    (text : List UInt8) : e.trimLazyEnd.first m text = e.first m text := by
  induction e generalizing text with
  | empty | literal _ | byteClass _ | charClass _ | assertion _ => rfl
  | repetition min max greedy sub ih =>
    cases greedy with
    | true => rfl
    | false =>
      match min with
      | 0 => rw [first_reluctant]; rfl
      | 1 => rw [first_repetition_one]; exact ih hkeeps text
      | min + 2 =>
        -- the rounds in front of the last one backtrack as before
        have hsub : ∀ rest, sub.trimLazyEnd.first m rest = sub.first m rest :=
          fun rest => ih hkeeps rest
        rw [first_repetition_succ, trimLazyEnd_reluctant, first_sequence, restsBehindAll,
          restsBehindAll_singleton, List.head?_flatMap, findSome?_repeated]
        exact findSome?_congr fun rest _ => hsub rest
  | capture index name sub ih => exact ih hkeeps text
  | concat items ih =>
    rw [trimLazyEnd, first_sequence, head_trimLast ih hkeeps text]
    rfl
  | alternation items ih =>
    obtain ⟨hchoice,heach⟩ := List.forall_mem_cons.mp hkeeps
    rw [trimLazyEnd, hchoice text, first_alternation, first_alternation,
      first_trimEach ih heach text]

/-- Trimming keeps the end of the first match from every position on, and whether there is one. -/
theorem matchEnd_trimLazyEnd (hkeeps : ∀ alts ∈ e.trimmedChoices, KeepsFirst m alts)
    (text : List UInt8) (start : Nat) :
    e.trimLazyEnd.matchEnd m text start = e.matchEnd m text start := by
  have hfirst := first_trimLazyEnd hkeeps (text.drop start)
  rw [matchEnd, matchEnd, hfirst]

/-- `x(?:ab*?|(c+?d){2,3}?)e??`. -/
def reluctantEnds : Expr :=
  concat [literal [0x78],
    alternation [
      concat [literal [0x61],repetition 0 none false (literal [0x62])],
      repetition 2 (some 3) false (capture 1 none
        (concat [repetition 1 none false (literal [0x63]),literal [0x64]]))],
    repetition 0 (some 1) false (literal [0x65])]

theorem matchEnd_trimLazyEnd_reluctantEnds :
    let m := Matching.advancing fun _ _ => true
    let text : List UInt8 := [0x7A,0x78,0x63,0x64,0x63,0x63,0x64,0x65]
    (∀ alts ∈ reluctantEnds.trimmedChoices, KeepsFirst m alts) ∧
      reluctantEnds.trimLazyEnd.matchEnd m text 1 = reluctantEnds.matchEnd m text 1 ∧
      reluctantEnds.matchEnd m text 1 = some 7 := by
  intro m text
  have hkeeps : ∀ alts ∈ reluctantEnds.trimmedChoices, KeepsFirst m alts := by
    have hlists : ∀ alts ∈ reluctantEnds.trimmedChoices,
        mergedClass? (alts.flatMap alternationItems) = none ∧
          sharedStart? (alts.flatMap alternationItems) = none := by decide +kernel
    intro alts halts
    obtain ⟨hmerged,hshared⟩ := hlists alts halts
    exact keepsFirst hmerged hshared
  exact ⟨hkeeps,matchEnd_trimLazyEnd hkeeps text 1,by decide +kernel⟩

end Trimmed

end ByteAutomata.Expr
