import ByteAutomata.Proofs.Expr.Matches
import ByteAutomata.Proofs.Term.Matches
import ByteAutomata.Proofs.Term.SameFirst
import ByteAutomata.Proofs.Tree.CharClass

/-! # The order of alternatives

Alternatives that match the empty string only have no nodes of their own: all of them together make
the others optional. Skipping is preferred if the first alternative is one of them and comes last
otherwise. This is the order of the alternatives if the empty ones come last or one comes first. -/
namespace ByteAutomata

namespace Term
variable {s : BuilderSettings} {es : List (Option Term)}

/-- What the matches of a term leave. Without a term all of the text is left. -/
def restsOf (s : BuilderSettings) : Option Term → List UInt8 → List (List UInt8)
  | none, text => [text]
  | some e, text => e.rests s text

/-- What is left behind one after the other. -/
def restsInTurn (s : BuilderSettings) : List (Option Term) → List UInt8 → List (List UInt8)
  | [], text => [text]
  | e? :: more, text => (restsOf s e? text).flatMap (restsInTurn s more)

theorem restsInTurn_reduceOption (es : List (Option Term)) :
    restsInTurn s (es.reduceOption.map some) = restsInTurn s es := by
  induction es with
  | nil => rfl
  | cons e? es ih =>
    funext text
    cases e? with
    | none => rw [List.reduceOption_cons_of_none, ih, restsInTurn, restsOf, List.flatMap_singleton]
    | some e => rw [List.reduceOption_cons_of_some, List.map_cons, restsInTurn, restsInTurn, ih]

theorem rests_foldl_concatenation (d : Term) (rest : List Term) (text : List UInt8) :
    (rest.foldl .concatenation d).rests s text =
      (d.rests s text).flatMap (restsInTurn s (rest.map some)) := by
  induction rest generalizing d with
  | nil => exact (List.flatMap_singleton' _).symm
  | cons e rest ih =>
    rw [List.foldl_cons, ih, rests, List.flatMap_assoc]
    rfl

theorem restsOf_concatenationOf (es : List (Option Term)) :
    restsOf s (concatenationOf es) = restsInTurn s es := by
  rw [← restsInTurn_reduceOption, concatenationOf]
  cases es.reduceOption with
  | nil => rfl
  | cons d rest =>
    funext text
    exact rests_foldl_concatenation d rest text

theorem rests_foldl_alternation (d : Term) (rest : List Term) (text : List UInt8) :
    (rest.foldl .alternation d).rests s text = (d :: rest).flatMap (rests s · text) := by
  induction rest generalizing d with
  | nil => simp
  | cons e rest ih =>
    rw [List.foldl_cons, ih, List.flatMap_cons, List.flatMap_cons, List.flatMap_cons, rests,
      List.append_assoc]

section Alternatives
variable (text : List UInt8) (k : List UInt8 → Option (List UInt8))

/-- What is found first behind an alternative. -/
def found (s : BuilderSettings) (e? : Option Term) : Option (List UInt8) :=
  (restsOf s e? text).findSome? k

/-- An alternative that is tried again in vain can be left out. -/
theorem findSome?_reduceOption {f : Option Term → Option (List UInt8)} (hf : f none = none)
    (es : List (Option Term)) : (es.reduceOption.findSome? fun e => f (some e)) = es.findSome? f := by
  induction es with
  | nil => rfl
  | cons e? es ih =>
    cases e? with
    | none => rw [List.reduceOption_cons_of_none, List.findSome?_cons, hf, ih]
    | some e => rw [List.reduceOption_cons_of_some, List.findSome?_cons, List.findSome?_cons, ih]

/-- Skipping all alternatives comes first or last, wherever an empty alternative stands. -/
theorem found_alternationOf (hes : es ≠ []) :
    found text k s (alternationOf es) =
      if es.head? = some none then
        (k text).or (es.reduceOption.findSome? fun e => found text k s (some e))
      else
        (es.reduceOption.findSome? fun e => found text k s (some e)).or
          (if none ∈ es then k text else none) := by
  have hskip : es.any (·.isNone) = true ↔ none ∈ es := by simp
  unfold alternationOf
  cases hothers : es.reduceOption with
  | nil =>
    -- all alternatives are empty, the first one too
    obtain ⟨e?,rest,rfl⟩ := List.exists_cons_of_ne_nil hes
    cases e? with
    | none => simp [chain, found, restsOf]
    | some e => simp at hothers
  | cons d rest =>
    have hchain : ((rest.foldl .alternation d).rests s text).findSome? k =
        (d :: rest).findSome? fun e => found text k s (some e) := by
      rw [rests_foldl_alternation, findSome?_flatMap]
      rfl
    have hoption : ∀ greedy, found text k s (some (.repetition 0 (some 1) greedy
        (rest.foldl .alternation d))) = if greedy then
          ((d :: rest).findSome? fun e => found text k s (some e)).or (k text)
        else (k text).or ((d :: rest).findSome? fun e => found text k s (some e)) := by
      intro greedy
      rw [found, restsOf, rests_option, furtherRounds_succ, furtherRounds_zero,
        List.flatMap_singleton', ← hchain]
      cases greedy with
      | true => simp [List.findSome?_append]
      | false =>
        simp only [Bool.false_eq_true, if_false, List.findSome?_cons]
        cases k text <;> rfl
    rw [chain, Option.map_some, if_congr hskip rfl rfl]
    by_cases hnone : none ∈ es
    · rw [if_pos hnone, if_pos hnone, hoption]
      obtain ⟨e?,more,rfl⟩ := List.exists_cons_of_ne_nil hes
      cases e? <;> simp
    · have hhead : es.head? ≠ some none := fun h => hnone (List.mem_of_mem_head? h)
      rw [if_neg hnone, if_neg hnone, if_neg hhead, Option.or_none]
      exact hchain

/-- Where an empty alternative comes first or none is followed by another one, the alternatives are
tried in their order. -/
theorem found_alternationOf_ordered (hes : es ≠ [])
    (horder : es.head? = some none ∨
      ∃ (taking : List Term) (count : Nat), es = taking.map some ++ List.replicate count none) :
    found text k s (alternationOf es) = es.findSome? (found text k s) := by
  have hempty : found text k s none = k text := List.findSome?_singleton
  rw [found_alternationOf text k hes]
  by_cases hhead : es.head? = some none
  · obtain ⟨rest,rfl⟩ := List.head?_eq_some_iff.mp hhead
    rw [if_pos hhead, List.reduceOption_cons_of_none, List.findSome?_cons, hempty]
    cases hk : k text with
    | some found => rfl
    | none => exact findSome?_reduceOption (hempty.trans hk) rest
  · obtain ⟨taking,count,rfl⟩ := horder.resolve_left hhead
    have htaking : (taking.map some ++ List.replicate count none).reduceOption = taking := by
      rw [List.reduceOption_append, List.reduceOption_replicate_none, List.append_nil,
        List.reduceOption, List.filterMap_map]
      exact List.filterMap_some
    have hskipping : (List.replicate count none).findSome? (found text k s) =
        if none ∈ taking.map some ++ List.replicate count none then k text else none := by
      rw [List.findSome?_replicate, hempty]
      by_cases hcount : count = 0
      · simp [hcount]
      · simp [hcount]
    rw [if_neg hhead, htaking, List.findSome?_append, hskipping, List.findSome?_map]
    rfl

end Alternatives

end Term
namespace Expr

section Texts
variable {m : Matching} {text rest : List UInt8}

theorem mem_rests_literal {bytes : List UInt8} :
    rest ∈ (literal bytes).rests m text ↔ text = bytes ++ rest := by
  have hsame : ∀ w, List.Forall₂ (fun p b => p b = true) (bytes.map fun b x => x == b) w ↔
      bytes = w := by
    intro w
    have heq : (fun b x : UInt8 => (x == b) = true) = Eq := by
      funext b x
      exact propext (beq_iff_eq.trans eq_comm)
    rw [List.forall₂_map_left_iff, heq, List.forall₂_eq_eq_eq]
  rw [rests, mem_strip]
  simp only [hsame, exists_eq_left']

theorem mem_rests_byteClass {set : ByteClass} :
    rest ∈ (byteClass set).rests m text ↔ ∃ w ∈ byteStrings set, text = w ++ rest := by
  rw [rests, mem_strip]
  refine exists_congr fun w => and_congr_left' ?_
  rw [List.forall₂_cons_left_iff]
  simp only [List.forall₂_nil_left_iff]
  constructor
  · rintro ⟨b,_,hb,rfl,rfl⟩
    exact ⟨b,hb,rfl⟩
  · rintro ⟨b,hb,rfl⟩
    exact ⟨b,[],hb,rfl,rfl⟩

theorem mem_rests_charClass {set : CharClass} :
    rest ∈ (charClass set).rests m text ↔ ∃ w ∈ charStrings set, text = w ++ rest := by
  rw [rests]
  constructor
  · intro h
    split at h
    · rename_i n rest' hread
      split at h
      · rename_i hset
        obtain rfl := List.mem_singleton.mp h
        obtain ⟨hscalar,rfl⟩ := Utf8.decodeHead_eq_some hread
        exact ⟨_,⟨n,hscalar,hset,rfl⟩,rfl⟩
      · cases h
    · cases h
  · rintro ⟨_,⟨n,hscalar,hset,rfl⟩,rfl⟩
    rw [Utf8.decodeHead_encode hscalar]
    simp [hset]

theorem eq_of_mem_rests_charClass {set : CharClass} {rest' : List UInt8}
    (h : rest ∈ (charClass set).rests m text) (h' : rest' ∈ (charClass set).rests m text) :
    rest = rest' := by
  rw [rests] at h h'
  cases hread : Utf8.decodeHead text with
  | none =>
    rw [hread] at h
    cases h
  | some r =>
    rw [hread] at h h'
    by_cases hset : set.contains r.1 = true
    · simp only [if_pos hset] at h h'
      exact (List.mem_singleton.mp h).trans (List.mem_singleton.mp h').symm
    · simp only [if_neg hset] at h
      cases h

end Texts

variable {s : BuilderSettings} {m : Matching} {e : Expr} {items : List Expr}

/-- Of the alternatives that match the empty string only, one comes first or all come last. -/
def KeepsOrder : Expr → Prop
  | alternation items => (∃ e, items.head? = some e ∧ e.language = 1) ∨
      ∃ taking skipping, items = taking ++ skipping ∧ (∀ e ∈ taking, e.language ≠ 1) ∧
        ∀ e ∈ skipping, e.language = 1
  | _ => True

section Leaves
variable (hcase : s.caseSensitive = true) (hutf : s.encoding = .utf8)
include hcase

theorem sameFirst_byteClass (set : ByteClass) :
    SameFirst (Term.restsOf s (byteClass set).term?) ((byteClass set).rests m) := by
  refine .of_mem (fun text rest => ?_) fun text a ha b hb => eq_of_mem_strip ha hb
  rw [mem_rests_byteClass, ← ByteClass.language_leaf hcase]
  exact Leaf.mem_rests

include hutf

theorem sameFirst_literal (bytes : List UInt8) :
    SameFirst (Term.restsOf s (literal bytes).term?) ((literal bytes).rests m) := by
  have hpieces : ∀ ps : List Utf8.Piece, (∀ p ∈ ps, p.IsValid) → ∀ text rest,
      rest ∈ Term.restsInTurn s (ps.map fun p => some (.leaf (.ofPiece p))) text ↔
        text = ps.flatMap Utf8.Piece.bytes ++ rest := by
    intro ps hps
    induction ps with
    | nil => exact fun text rest => List.mem_singleton.trans eq_comm
    | cons p ps ih =>
      intro text rest
      obtain ⟨hp,hps⟩ := List.forall_mem_cons.mp hps
      rw [List.map_cons, Term.restsInTurn, List.mem_flatMap, List.flatMap_cons, List.append_assoc]
      simp only [ih hps, Term.restsOf, Term.rests, Leaf.mem_rests,
        Leaf.language_ofPiece hcase hutf hp]
      constructor
      · rintro ⟨_,⟨_,rfl,rfl⟩,rfl⟩
        rfl
      · rintro rfl
        exact ⟨_,⟨_,rfl,rfl⟩,rfl⟩
  obtain ⟨hbytes,hvalid⟩ := Utf8.flatMap_pieces bytes
  refine .of_mem (fun text rest => ?_) fun text a ha b hb => eq_of_mem_strip ha hb
  rw [term?, Term.restsOf_concatenationOf, hpieces _ hvalid, hbytes, mem_rests_literal]

theorem sameFirst_charClass {set : CharClass} (hends : Intervals.Ends Utf8.IsScalar set.ranges) :
    SameFirst (Term.restsOf s (charClass set).term?) ((charClass set).rests m) := by
  refine .of_mem (fun text rest => ?_) fun text a ha b hb => eq_of_mem_rests_charClass ha hb
  rw [mem_rests_charClass, term?]
  cases hbytes : set.toByteClass? with
  | some bytes =>
    rw [← byteStrings_toByteClass hbytes, ← ByteClass.language_leaf hcase]
    exact Leaf.mem_rests
  | none =>
    have hne := Tree.scalars_ne_nil hends (CharClass.toByteClass_eq_none hbytes).2
    have hmem : rest ∈ (Tree.scalars set).flatMap
        (fun n => (Leaf.literal n).rests s text) ↔ ∃ w ∈ charStrings set, text = w ++ rest := by
      rw [List.mem_flatMap]
      constructor
      · rintro ⟨n,hn,hrest⟩
        obtain ⟨hscalar,hset⟩ := Tree.mem_scalars.mp hn
        obtain ⟨w,hw,htext⟩ := Leaf.mem_rests.mp hrest
        rw [Leaf.language_literal hcase hutf hscalar] at hw
        exact ⟨w,⟨n,hscalar,hset,hw⟩,htext⟩
      · rintro ⟨w,⟨n,hscalar,hset,hw⟩,htext⟩
        refine ⟨n,Tree.mem_scalars.mpr ⟨hscalar,hset⟩,Leaf.mem_rests.mpr ⟨w,?_,htext⟩⟩
        rw [Leaf.language_literal hcase hutf hscalar]
        exact hw
    obtain ⟨first,more,hscalars⟩ := List.exists_cons_of_ne_nil hne
    simp only
    rw [Term.alternationOf_literals, ← hmem, hscalars, List.map_cons, Term.chain, Term.restsOf,
      Term.rests_foldl_alternation, List.flatMap_cons, List.flatMap_cons, List.flatMap_map]
    rfl

end Leaves

section Items
variable {holds : Assertion → List UInt8 → Bool}

theorem sameFirst_concat (h : ∀ e ∈ items, SameFirst (Term.restsOf s e.term?) (e.rests m)) :
    SameFirst (Term.restsOf s (concat items).term?) ((concat items).rests m) := by
  rw [term?, Term.restsOf_concatenationOf]
  change SameFirst _ (restsBehindAll m items)
  induction items with
  | nil => exact .refl _
  | cons e items ih =>
    obtain ⟨he,hitems⟩ := List.forall_mem_cons.mp h
    exact he.flatMap (ih hitems)

theorem sameFirst_repetition {min : Nat} {max : Option Nat} {greedy : Bool} {sub : Expr}
    (h : SameFirst (Term.restsOf s sub.term?) (sub.rests (.advancing holds))) :
    SameFirst (Term.restsOf s (repetition min max greedy sub).term?)
      ((repetition min max greedy sub).rests (.advancing holds)) := by
  change SameFirst _ (boundedRounds (sub.rests (.advancing holds)) min max greedy)
  rw [term?]
  split
  · rename_i hzero
    obtain ⟨rfl,rfl⟩ := hzero
    intro text k
    simp [boundedRounds, rounds, furtherRounds, Term.restsOf]
  · have hsame := h.boundedRounds min max greedy
    cases hterm : sub.term? with
    | none =>
      rw [hterm] at hsame
      exact (SameFirst.boundedRounds_empty min max).symm.trans hsame
    | some e =>
      rw [hterm] at hsame
      exact hsame

/-- The items are found in their order, and those that have no term leave the text as it is. -/
theorem findSome?_terms (h : ∀ e ∈ items, SameFirst (Term.restsOf s e.term?) (e.rests m))
    (text : List UInt8) (k : List UInt8 → Option (List UInt8)) :
    (terms items).findSome? (Term.found text k s) = (restsBehindAny m items text).findSome? k := by
  induction items with
  | nil => rfl
  | cons e items ih =>
    obtain ⟨he,hitems⟩ := List.forall_mem_cons.mp h
    have hfirst : Term.found text k s e.term? = (e.rests m text).findSome? k := he text k
    rw [terms, List.findSome?_cons, restsBehindAny, List.findSome?_append, hfirst, ih hitems]
    cases (e.rests m text).findSome? k <;> rfl

theorem terms_ordered (hitems : ∀ e ∈ items, Denotes s e.language e.term?)
    (horder : (alternation items).KeepsOrder) :
    (terms items).head? = some none ∨ ∃ (taking : List Term) (count : Nat),
      terms items = taking.map some ++ List.replicate count none := by
  rw [terms_eq_map]
  rcases horder with ⟨e,hhead,he⟩ | ⟨taking,skipping,rfl,htaking,hskipping⟩
  · obtain ⟨rest,rfl⟩ := List.head?_eq_some_iff.mp hhead
    have hnone := (hitems e List.mem_cons_self).eq_none_iff.mpr he
    exact Or.inl (by rw [List.map_cons, hnone, List.head?_cons])
  · have hsome : ∀ e ∈ taking, ∃ d, e.term? = some d := by
      intro e he
      apply Option.ne_none_iff_exists'.mp
      exact fun hnone => htaking e he
        ((hitems e (List.mem_append_left _ he)).eq_none_iff.mp hnone)
    have hnone : ∀ e ∈ skipping, e.term? = none := fun e he =>
      (hitems e (List.mem_append_right _ he)).eq_none_iff.mpr (hskipping e he)
    have htaken : (taking.filterMap term?).map some = taking.map term? := by
      rw [List.map_filterMap_some_eq_filter_map_isSome, List.filter_eq_self]
      intro e? he?
      obtain ⟨e,he,rfl⟩ := List.mem_map.mp he?
      obtain ⟨d,hd⟩ := hsome e he
      rw [hd]
      rfl
    have hskipped : skipping.map term? = List.replicate skipping.length none :=
      List.map_eq_replicate_iff.mpr hnone
    refine Or.inr ⟨taking.filterMap term?,skipping.length,?_⟩
    rw [List.map_append, htaken, hskipped]

theorem sameFirst_alternation (hnil : items ≠ [])
    (hdenotes : ∀ e ∈ items, Denotes s e.language e.term?)
    (horder : (alternation items).KeepsOrder)
    (h : ∀ e ∈ items, SameFirst (Term.restsOf s e.term?) (e.rests m)) :
    SameFirst (Term.restsOf s (alternation items).term?) ((alternation items).rests m) := by
  intro text k
  have hterms : terms items ≠ [] := by
    rw [terms_eq_map]
    exact fun hmap => hnil (List.map_eq_nil_iff.mp hmap)
  change Term.found text k s (Term.alternationOf (terms items)) = _
  rw [Term.found_alternationOf_ordered text k hterms (terms_ordered hdenotes horder),
    findSome?_terms h, rests]

end Items

/-- An expression and its tree have the same first match, whatever follows. -/
theorem sameFirst_term (hcase : s.caseSensitive = true) (hutf : s.encoding = .utf8)
    (holds : Assertion → List UInt8 → Bool) (hw : e.WellFormed) (hno : e.firstObstacle? = none)
    (horder : e.Each KeepsOrder) :
    SameFirst (Term.restsOf s e.term?) (e.rests (.advancing holds)) := by
  induction e with
  | empty => exact .refl _
  | literal bytes => exact sameFirst_literal hcase hutf bytes
  | byteClass set => exact sameFirst_byteClass hcase set
  | charClass set => exact sameFirst_charClass hcase hutf (wellFormed_charClass.mp hw)
  | assertion a => simp [firstObstacle?, nodes, obstacle?] at hno
  | repetition min max greedy sub ih =>
    obtain ⟨hbounds,hsub⟩ := wellFormed_repetition.mp hw
    rw [firstObstacle_operator rfl rfl] at hno
    exact sameFirst_repetition (ih hsub hno (each_repetition.mp horder).2)
  | capture index name sub ih =>
    rw [firstObstacle_operator rfl rfl] at hno
    exact ih (wellFormed_capture.mp hw) hno (each_capture.mp horder).2
  | concat items ih =>
    rw [firstObstacle_operator rfl rfl] at hno
    exact sameFirst_concat fun e he => ih e he (wellFormed_concat.mp hw e he)
      (firstObstacle_of_mem hno he) ((each_concat.mp horder).2 e he)
  | alternation items ih =>
    obtain ⟨hnil,hitems⟩ := wellFormed_alternation.mp hw
    obtain ⟨hown,hbelow⟩ := each_alternation.mp horder
    rw [firstObstacle_operator rfl rfl] at hno
    refine sameFirst_alternation hnil (fun e he => ?_) hown fun e he => ?_
    · exact denotes_term hcase hutf (hitems e he) (firstObstacle_of_mem hno he)
    · exact ih e he (hitems e he) (firstObstacle_of_mem hno he) (hbelow e he)

end Expr

/-- Where the first match from `start` on ends that `k` can continue; `k` tells what is left then. -/
def continuedEnd (rests : List UInt8 → List (List UInt8)) (k : List UInt8 → Option (List UInt8))
    (text : List UInt8) (start : Nat) : Option Nat :=
  ((rests (text.drop start)).findSome? k).map fun rest => text.length - rest.length

namespace Tree
variable {s : BuilderSettings} {t t' : Tree} {id? : Option NodeId} {items : List Expr}

/-- Alternatives are tried in their order, whatever follows, if the order of the empty ones among
them can be kept. -/
theorem addExpr_alternation_order (hcase : s.caseSensitive = true) (hutf : s.encoding = .utf8)
    (hd : t.Descending) (hw : (Expr.alternation items).WellFormed)
    (horder : (Expr.alternation items).Each Expr.KeepsOrder)
    (hadd : t.addExpr (.alternation items) = .ok (id?,t')) :
    ∃ e?, Option.Rel t'.Reads id? e? ∧ ∀ holds k text start,
      continuedEnd (Term.restsOf s e?) k text start =
        continuedEnd ((Expr.alternation items).rests (.advancing holds)) k text start := by
  have hends := endsIn_addExpr (.alternation items) hd
  rw [hadd] at hends
  generalize hno : (Expr.alternation items).firstObstacle? = obstacle? at hends
  cases hends with
  | ok hlowers =>
    refine ⟨_,hlowers.reads,fun holds k text start => ?_⟩
    have hsame := Expr.sameFirst_term hcase hutf holds hw hno horder
    exact congrArg (Option.map _) (hsame (text.drop start) k)

/-- The alternatives of `a|(?:|b)|`. -/
def nestedEmpty : List Expr :=
  [.literal [0x61],.alternation [.empty,.literal [0x62]],.empty]

theorem addExpr_alternation_order_nestedEmpty :
    let s : BuilderSettings := { encoding := .utf8 }
    let e := Expr.alternation nestedEmpty
    s.caseSensitive = true ∧ s.encoding = .utf8 ∧ empty.Descending ∧ e.WellFormed ∧
      e.Each Expr.KeepsOrder ∧ ∃ id? t', empty.addExpr e = .ok (id?,t') ∧
        ∃ e?, Option.Rel t'.Reads id? e? ∧ ∀ holds k text start,
          continuedEnd (Term.restsOf s e?) k text start =
            continuedEnd (e.rests (.advancing holds)) k text start := by
  intro s e
  have hliteral : ∀ b, (Expr.literal [b]).language ≠ 1 := by
    intro b h
    have hmem : [b] ∈ (Expr.literal [b]).language := rfl
    rw [h] at hmem
    cases hmem
  have hinner : (Expr.alternation [.empty,.literal [0x62]]).language ≠ 1 := by
    intro h
    have hmem : [0x62] ∈ (Expr.alternation [.empty,.literal [0x62]]).language :=
      Or.inr (Or.inl rfl)
    rw [h] at hmem
    cases hmem
  have hnodes : ∀ d ∈ e.nodes, d = .literal [0x61] ∨ d = .empty ∨ d = .literal [0x62] ∨
      d = .alternation [.empty,.literal [0x62]] ∨ d = .empty ∨ d = e := by
    intro d hd
    simpa [e, nestedEmpty, Expr.nodes, Expr.nodesOfAll] using hd
  have hw : e.WellFormed := by
    intro d hd
    rcases hnodes d hd with rfl | rfl | rfl | rfl | rfl | rfl
    · trivial
    · trivial
    · trivial
    · exact List.cons_ne_nil _ _
    · trivial
    · exact List.cons_ne_nil _ _
  have horder : e.Each Expr.KeepsOrder := by
    intro d hd
    rcases hnodes d hd with rfl | rfl | rfl | rfl | rfl | rfl
    · trivial
    · trivial
    · trivial
    · exact Or.inl ⟨.empty,rfl,rfl⟩
    · trivial
    · refine Or.inr ⟨[.literal [0x61],.alternation [.empty,.literal [0x62]]],[.empty],rfl,?_,?_⟩
      · simp [hliteral, hinner]
      · exact List.forall_mem_singleton.mpr rfl
  let t' : Tree :=
    { nodes := #[{ kind := .literal 0x61 },{ kind := .literal 0x62 },
        .repetition 1 0 (some 1) false,.alternation 0 2,.repetition 3 0 (some 1) true] }
  have hadd : empty.addExpr e = .ok (some 4,t') := by decide +kernel
  exact ⟨rfl,rfl,descending_empty,hw,horder,_,_,hadd,
    addExpr_alternation_order rfl rfl descending_empty hw horder hadd⟩

/-- The alternatives of `a||b`. -/
def emptyBetween : List Expr := [.literal [0x61],.empty,.literal [0x62]]

/-- In front of `b` or `c`, the second alternative of `a||b` is found in `bc`, but its tree tries
`b` first. -/
theorem addExpr_alternation_emptyBetween :
    let s : BuilderSettings := { encoding := .utf8 }
    let m : Matching := .advancing fun _ _ => false
    let k := (Expr.byteClass (.ofRanges [(0x62,0x63)])).first m
    ∃ id t' e, empty.addExpr (.alternation emptyBetween) = .ok (some id,t') ∧ t'.Reads id e ∧
      continuedEnd (e.rests s) k [0x62,0x63] 0 = some 2 ∧
      continuedEnd ((Expr.alternation emptyBetween).rests m) k [0x62,0x63] 0 = some 1 := by
  intro s m k
  let t' : Tree :=
    { nodes := #[{ kind := .literal 0x61 },{ kind := .literal 0x62 },.alternation 0 1,
        .repetition 2 0 (some 1) true] }
  have hadd : empty.addExpr (.alternation emptyBetween) = .ok (some 3,t') := by decide +kernel
  have ha : t'.Reads 0 (.leaf (.literal 0x61)) := .leaf rfl
  have hb : t'.Reads 1 (.leaf (.literal 0x62)) := .leaf rfl
  have hreads : t'.Reads 3 (.repetition 0 (some 1) true
      (.alternation (.leaf (.literal 0x61)) (.leaf (.literal 0x62)))) :=
    .repetition rfl (.alternation rfl ha hb)
  exact ⟨3,t',_,hadd,hreads,by decide +kernel,by decide +kernel⟩

end Tree

end ByteAutomata
