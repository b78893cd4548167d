import ByteAutomata.Compile
import ByteAutomata.Proofs.Expr.Build
import ByteAutomata.Proofs.Outcome
import ByteAutomata.Proofs.Pattern.Sound

/-! # Expressions of patterns

The classes of a pattern have intervals between characters, whatever sets they are made from, and
its counts are in order, so the expression that it stands for is well formed. There is such an
expression unless the pattern names characters that are not to be had. -/
namespace ByteAutomata
namespace Pattern
open Intervals (Ends Closed)

section Alphabet
variable {p : Points} {a : Alphabet p} {P : Nat → Prop} {s t : Intervals p} {folds : Bool}

/-- All numbers that classes are made from are of a kind that set operations do not leave. -/
structure Alphabet.Within (a : Alphabet p) (P : Nat → Prop) : Prop where
  closed : Closed p P
  ascii {n : Nat} (h : n < 0x80) : P n
  number {lit : Literal} {n : Nat} (h : a.number lit = .ok n) : P n
  shorthand (kind : ShorthandKind) : Ends P (a.shorthand kind)
  property {span : Span} {name : String} {s : Intervals p} (h : a.property span name = .ok s) :
    Ends P s.ranges
  caseGroups : ∀ group ∈ a.caseGroups, ∀ n ∈ group, P n

namespace Alphabet.Within

theorem fold (ha : a.Within P) (hs : Ends P s.ranges) : Ends P (a.fold s).ranges := by
  refine Intervals.ends_ofRanges (Intervals.ends_append.mpr ⟨hs,fun r hr => ?_⟩)
  obtain ⟨n,hn,rfl⟩ := List.mem_map.mp hr
  obtain ⟨group,hgroup,hmem⟩ := List.mem_flatten.mp hn
  have hP := ha.caseGroups group (List.mem_filter.mp hgroup).1 n hmem
  exact ⟨hP,hP⟩

theorem folded (ha : a.Within P) (hs : Ends P s.ranges) (folds : Bool) :
    Ends P (if folds then a.fold s else s).ranges := by
  split
  · exact ha.fold hs
  · exact hs

theorem finish (ha : a.Within P) (hs : Ends P s.ranges) (folds negated : Bool) :
    Ends P (a.finish folds negated s).ranges := by
  have hfolded := ha.folded hs folds
  unfold Alphabet.finish
  cases negated with
  | false => exact hfolded
  | true => exact Intervals.ends_compl ha.closed hfolded

theorem operate (ha : a.Within P) (hs : Ends P s.ranges) (ht : Ends P t.ranges) (folds : Bool)
    (op : SetOperation) : Ends P (a.operate folds op s t).ranges := by
  have hs' := ha.folded hs folds
  have ht' := ha.folded ht folds
  cases op with
  | intersection => exact Intervals.ends_inter hs' ht'
  | difference => exact Intervals.ends_diff ha.closed hs' ht'
  | symmetricDifference => exact Intervals.ends_symmDiff ha.closed hs' ht'

theorem shorthandClass (ha : a.Within P) (kind : ShorthandKind) (negated : Bool) :
    Ends P (a.shorthandClass kind negated).ranges :=
  ha.finish (Intervals.ends_ofRanges (ha.shorthand kind)) false negated

theorem propertyClass (ha : a.Within P) {span : Span} {name : String} {negated : Bool}
    (h : a.propertyClass folds span name negated = .ok s) : Ends P s.ranges := by
  obtain ⟨t,ht,hs⟩ := bind_eq_ok.mp h
  cases hs
  exact ha.finish (ha.property ht) folds negated

theorem asciiRanges (ha : a.Within P) (kind : AsciiKind) : Ends P kind.ranges := by
  have hbelow : ∀ r ∈ kind.ranges, r.1 < 0x80 ∧ r.2 < 0x80 := by cases kind <;> decide
  exact fun r hr => ⟨ha.ascii (hbelow r hr).1,ha.ascii (hbelow r hr).2⟩

end Alphabet.Within

mutual

theorem ends_members (ha : a.Within P) : ∀ {item : ClassItem} {s : Intervals p},
    item.members a folds = .ok s → Ends P s.ranges
  | .empty _, s, h => by
    obtain rfl : Intervals.empty = s := by simpa [ClassItem.members] using h
    exact Intervals.ends_nil
  | .literal lit, s, h => by
    obtain ⟨n,hn,hs⟩ := bind_eq_ok.mp h
    cases hs
    exact Intervals.ends_ofRanges
      (Intervals.ends_cons.mpr ⟨⟨ha.number hn,ha.number hn⟩,Intervals.ends_nil⟩)
  | .range _ lo hi, s, h => by
    obtain ⟨m,hm,h⟩ := bind_eq_ok.mp h
    obtain ⟨n,hn,hs⟩ := bind_eq_ok.mp h
    cases hs
    exact Intervals.ends_ofRanges
      (Intervals.ends_cons.mpr ⟨⟨ha.number hm,ha.number hn⟩,Intervals.ends_nil⟩)
  | .ascii _ kind negated, s, h => by
    cases h
    exact ha.finish (Intervals.ends_ofRanges (ha.asciiRanges kind)) folds negated
  | .property .., s, h => ha.propertyClass h
  | .shorthand _ kind negated, s, h => by
    cases h
    exact ha.shorthandClass kind negated
  | .bracketed _ negated set, s, h => by
    obtain ⟨t,ht,hs⟩ := bind_eq_ok.mp h
    cases hs
    exact ha.finish (ends_setMembers ha ht) folds negated
  | .union _ items, s, h => ends_unionOfMembers ha h

theorem ends_setMembers (ha : a.Within P) : ∀ {set : ClassSet} {s : Intervals p},
    set.members a folds = .ok s → Ends P s.ranges
  | .item i, s, h => ends_members ha h
  | .operation _ op left right, s, h => by
    obtain ⟨t,ht,h⟩ := bind_eq_ok.mp h
    obtain ⟨u,hu,hs⟩ := bind_eq_ok.mp h
    cases hs
    exact ha.operate (ends_setMembers ha ht) (ends_setMembers ha hu) folds op

theorem ends_unionOfMembers (ha : a.Within P) : ∀ {items : List ClassItem} {s : Intervals p},
    unionOfMembers a folds items = .ok s → Ends P s.ranges
  | [], s, h => by
    cases h
    exact Intervals.ends_nil
  | item :: rest, s, h => by
    obtain ⟨t,ht,h⟩ := bind_eq_ok.mp h
    obtain ⟨u,hu,hs⟩ := bind_eq_ok.mp h
    cases hs
    exact Intervals.ends_union (ends_members ha ht) (ends_unionOfMembers ha hu)

end

theorem within_chars (properties : Unicode.PropertyTable) :
    (Alphabet.chars properties).Within Utf8.IsScalar where
  closed := Intervals.closed_chars
  ascii h := Or.inl (by omega)
  number := by
    intro lit n h
    cases h
    exact lit.char.valid
  shorthand kind := by
    have hranges : Ends Utf8.IsScalar Unicode.digitRanges ∧
        Ends Utf8.IsScalar Unicode.blankRanges ∧ Ends Utf8.IsScalar Unicode.wordRanges := by
      unfold Ends
      decide +kernel
    cases kind with
    | digit => exact hranges.1
    | space => exact hranges.2.1
    | word => exact hranges.2.2
  property := by
    intro span name s h
    simp only [Alphabet.chars] at h
    split at h
    · rename_i ranges _
      cases h
      refine Intervals.ends_ofRanges fun r hr => ?_
      obtain ⟨⟨lo,hi⟩,-,rfl⟩ := List.mem_map.mp hr
      exact ⟨lo.valid,hi.valid⟩
    · cases h
    · cases h
  caseGroups := by
    change ∀ group ∈ Unicode.caseGroups, ∀ n ∈ group, Utf8.IsScalar n
    decide +kernel

end Alphabet

section Flags
variable {P : Expr → Prop} (hP : Expr.Kept P) (flags : Flags)
include hP

theorem each_literal (lit : Literal) : (flags.literal lit).Each P := by
  have hscalar : Utf8.IsScalar lit.char.toNat := lit.char.valid
  have hsingle : Ends Utf8.IsScalar (Intervals.singleton lit.char.toNat : CharClass).ranges :=
    Intervals.ends_ofRanges (Intervals.ends_cons.mpr ⟨⟨hscalar,hscalar⟩,Intervals.ends_nil⟩)
  unfold Flags.literal
  dsimp only
  split
  · split
    · exact Expr.each_ofCharClass hP ((within_chars _).fold hsingle)
    · exact Expr.each_of_leaf rfl (hP.literal _)
  · split
    · exact Expr.each_of_leaf rfl (hP.literal _)
    · split
      · exact Expr.each_ofByteClass hP _
      · exact Expr.each_of_leaf rfl (hP.literal _)

theorem each_dot : flags.dot.Each P := by
  have hexceptions : ∀ {ranges : List (Nat × Nat)}, Ends Utf8.IsScalar ranges →
      Ends Utf8.IsScalar (Intervals.ofRanges ranges : CharClass).compl.ranges := fun h =>
    Intervals.ends_compl Intervals.closed_chars (Intervals.ends_ofRanges h)
  unfold Flags.dot
  dsimp only
  split
  · exact Expr.each_ofCharClass hP (hexceptions (by unfold Ends; split_ifs <;> decide))
  · exact Expr.each_ofByteClass hP _

theorem each_shorthandClass (kind : ShorthandKind) (negated : Bool) :
    (flags.shorthandClass kind negated).Each P := by
  unfold Flags.shorthandClass
  split
  · exact Expr.each_ofCharClass hP ((within_chars _).shorthandClass kind negated)
  · exact Expr.each_ofByteClass hP _

theorem each_propertyClass {span : Span} {name : String} {negated : Bool} {e : Expr}
    (h : flags.propertyClass span name negated = .ok e) : e.Each P := by
  unfold Flags.propertyClass at h
  dsimp only at h
  split at h
  · obtain ⟨s,hs,he⟩ := bind_eq_ok.mp h
    cases he
    exact Expr.each_ofCharClass hP ((within_chars _).propertyClass hs)
  · cases h

theorem each_bracketed {negated : Bool} {set : ClassSet} {e : Expr}
    (h : flags.bracketed negated set = .ok e) : e.Each P := by
  unfold Flags.bracketed at h
  dsimp only at h
  split at h
  · obtain ⟨s,hs,he⟩ := bind_eq_ok.mp h
    cases he
    exact Expr.each_ofCharClass hP
      ((within_chars _).finish (ends_setMembers (within_chars _) hs) flags.caseInsensitive negated)
  · obtain ⟨s,hs,he⟩ := bind_eq_ok.mp h
    cases he
    exact Expr.each_ofByteClass hP _

end Flags

section ToExpr
variable {P : Expr → Prop}

section Inversion
variable {flags : Flags} {span : Span} {items : List Ast} {r : Expr × Flags}

theorem toExpr_repetition {count : Count} {greedy : Bool} {sub : Ast}
    (h : (Ast.repetition span count greedy sub).toExpr flags = .ok r) :
    ∃ q, sub.toExpr flags = .ok q ∧
      r = (.repeated count.min count.max (greedy != q.2.swapGreed) q.1,q.2) := by
  obtain ⟨q,hq,hr⟩ := bind_eq_ok.mp h
  exact ⟨q,hq,(Except.ok.inj hr).symm⟩

theorem toExpr_alternation (h : (Ast.alternation span items).toExpr flags = .ok r) :
    ∃ q, toExprs flags items = .ok q ∧ r = (.choice q.1,q.2) := by
  obtain ⟨q,hq,hr⟩ := bind_eq_ok.mp h
  exact ⟨q,hq,(Except.ok.inj hr).symm⟩

theorem toExpr_concat (h : (Ast.concat span items).toExpr flags = .ok r) :
    ∃ q, toExprs flags items = .ok q ∧ r = (.sequence q.1,q.2) := by
  obtain ⟨q,hq,hr⟩ := bind_eq_ok.mp h
  exact ⟨q,hq,(Except.ok.inj hr).symm⟩

theorem toExprs_cons {ast : Ast} {r : List Expr × Flags}
    (h : toExprs flags (ast :: items) = .ok r) :
    ∃ q p, ast.toExpr flags = .ok q ∧ toExprs q.2 items = .ok p ∧ r = (q.1 :: p.1,p.2) := by
  obtain ⟨q,hq,h⟩ := bind_eq_ok.mp h
  obtain ⟨p,hp,hr⟩ := bind_eq_ok.mp h
  exact ⟨q,p,hq,hp,(Except.ok.inj hr).symm⟩

end Inversion

mutual

/-- A part of a pattern with ordered counts stands for an expression of sound nodes in simple
form. -/
theorem each_toExpr (hP : Expr.Kept P) : ∀ {ast : Ast} {flags : Flags} {r : Expr × Flags},
    ast.WellFormed → ast.toExpr flags = .ok r → r.1.Each P
  | .empty _, flags, r, _, h => by
    cases h
    exact Expr.each_of_leaf rfl hP.empty
  | .flags _ list, flags, r, _, h => by
    cases h
    exact Expr.each_of_leaf rfl hP.empty
  | .literal lit, flags, r, _, h => by
    cases h
    exact each_literal hP flags lit
  | .dot _, flags, r, _, h => by
    cases h
    exact each_dot hP flags
  | .assertion _ kind, flags, r, _, h => by
    cases h
    exact Expr.each_of_leaf rfl (hP.assertion _)
  | .propertyClass .., flags, r, _, h => by
    obtain ⟨e,he,hr⟩ := bind_eq_ok.mp h
    cases hr
    exact each_propertyClass hP flags he
  | .shorthandClass _ kind negated, flags, r, _, h => by
    cases h
    exact each_shorthandClass hP flags kind negated
  | .bracketed _ negated set, flags, r, _, h => by
    obtain ⟨e,he,hr⟩ := bind_eq_ok.mp h
    cases hr
    exact each_bracketed hP flags he
  | .repetition _ count greedy sub, flags, r, hwell, h => by
    obtain ⟨q,hq,rfl⟩ := toExpr_repetition h
    exact Expr.each_repeated hP hwell.1 (each_toExpr hP hwell.2 hq)
  | .group _ (.flags list) sub, flags, r, hwell, h => by
    obtain ⟨q,hq,hr⟩ := bind_eq_ok.mp h
    cases hr
    have hsub : sub.WellFormed := hwell.2
    have heach := each_toExpr hP hsub hq
    exact heach
  | .group _ (.capture index name) sub, flags, r, hwell, h => by
    obtain ⟨q,hq,hr⟩ := bind_eq_ok.mp h
    cases hr
    have hsub : sub.WellFormed := hwell.2
    exact Expr.each_capture.mpr ⟨hP.capture index name _,each_toExpr hP hsub hq⟩
  | .alternation _ items, flags, r, hwell, h => by
    obtain ⟨q,hq,rfl⟩ := toExpr_alternation h
    have hitems : EachOf Ast.IsSound items := hwell.2
    exact Expr.each_choice hP (each_toExprs hP hitems hq)
  | .concat _ items, flags, r, hwell, h => by
    obtain ⟨q,hq,rfl⟩ := toExpr_concat h
    have hitems : EachOf Ast.IsSound items := hwell.2
    exact Expr.each_sequence hP (each_toExprs hP hitems hq)

theorem each_toExprs (hP : Expr.Kept P) : ∀ {items : List Ast} {flags : Flags}
    {r : List Expr × Flags}, EachOf Ast.IsSound items → toExprs flags items = .ok r → ∀ e ∈ r.1, e.Each P
  | [], flags, r, _, h => by
    cases h
    simp
  | ast :: rest, flags, r, hwell, h => by
    obtain ⟨q,p,hq,hp,rfl⟩ := toExprs_cons h
    exact List.forall_mem_cons.mpr
      ⟨each_toExpr hP hwell.1 hq,each_toExprs hP hwell.2 hp⟩

end

end ToExpr

section Refusals

/-- Whether the error is about characters that are named but not to be had. -/
def IsUnicodeError (error : SyntaxError) : Prop :=
  error.cause ∈ [.unicodeNotAllowed,.unicodePropertyNotFound,.unicodePropertyValueNotFound]

/-- What fails, fails for want of characters. -/
abbrev Refuses {α : Type} (x : Except SyntaxError α) : Prop :=
  EndsBy IsUnicodeError (fun _ => True) x

theorem refuses_ok {α : Type} (x : α) : Refuses (.ok x : Except SyntaxError α) := .ok trivial

theorem Refuses.bind {α β : Type} {x : Except SyntaxError α} {f : α → Except SyntaxError β}
    (hx : Refuses x) (hf : ∀ a, Refuses (f a)) : Refuses (x >>= f) :=
  EndsBy.bind hx fun a _ => hf a

/-- All errors of an alphabet are about characters. -/
structure Alphabet.Refuses {p : Points} (a : Alphabet p) : Prop where
  number (lit : Literal) : Pattern.Refuses (a.number lit)
  property (span : Span) (name : String) : Pattern.Refuses (a.property span name)

theorem refuses_bytes : Alphabet.bytes.Refuses where
  number lit := by
    change Refuses (Alphabet.byteOf lit)
    unfold Alphabet.byteOf
    split
    · exact refuses_ok _
    · exact .error (by simp [IsUnicodeError])
  property span name := .error (by simp [IsUnicodeError])

theorem refuses_chars (properties : Unicode.PropertyTable) :
    (Alphabet.chars properties).Refuses where
  number lit := refuses_ok _
  property span name := by
    simp only [Alphabet.chars]
    split
    · exact refuses_ok _
    · exact .error (by simp [IsUnicodeError])
    · exact .error (by simp [IsUnicodeError])

section Members
variable {p : Points} {a : Alphabet p} {folds : Bool}

theorem Alphabet.Refuses.propertyClass (ha : a.Refuses) (span : Span) (name : String)
    (negated : Bool) : Pattern.Refuses (a.propertyClass folds span name negated) :=
  (ha.property span name).bind fun _ => refuses_ok _

mutual

theorem refuses_members (ha : a.Refuses) : ∀ item : ClassItem, Refuses (item.members a folds)
  | .empty _ => refuses_ok _
  | .literal lit => (ha.number lit).bind fun _ => refuses_ok _
  | .range _ lo hi => (ha.number lo).bind fun _ => (ha.number hi).bind fun _ => refuses_ok _
  | .ascii .. => refuses_ok _
  | .property span name negated => ha.propertyClass span name negated
  | .shorthand .. => refuses_ok _
  | .bracketed _ _ set => (refuses_setMembers ha set).bind fun _ => refuses_ok _
  | .union _ items => refuses_unionOfMembers ha items

theorem refuses_setMembers (ha : a.Refuses) : ∀ set : ClassSet, Refuses (set.members a folds)
  | .item i => refuses_members ha i
  | .operation _ _ left right => (refuses_setMembers ha left).bind fun _ =>
      (refuses_setMembers ha right).bind fun _ => refuses_ok _

theorem refuses_unionOfMembers (ha : a.Refuses) : ∀ items : List ClassItem,
    Refuses (unionOfMembers a folds items)
  | [] => refuses_ok _
  | item :: rest => (refuses_members ha item).bind fun _ =>
      (refuses_unionOfMembers ha rest).bind fun _ => refuses_ok _

end

end Members

theorem refuses_propertyClass (flags : Flags) (span : Span) (name : String) (negated : Bool) :
    Refuses (flags.propertyClass span name negated) := by
  unfold Flags.propertyClass
  dsimp only
  split
  · exact ((refuses_chars _).propertyClass span name negated).bind fun _ => refuses_ok _
  · exact (refuses_bytes.propertyClass span name negated).bind fun _ => refuses_ok _

theorem refuses_bracketed (flags : Flags) (negated : Bool) (set : ClassSet) :
    Refuses (flags.bracketed negated set) := by
  unfold Flags.bracketed
  dsimp only
  split
  · exact (refuses_setMembers (refuses_chars _) set).bind fun _ => refuses_ok _
  · exact (refuses_setMembers refuses_bytes set).bind fun _ => refuses_ok _

mutual

/-- A parsed pattern has a meaning unless it names characters that are not to be had. -/
theorem refuses_toExpr : ∀ (ast : Ast) (flags : Flags), Refuses (ast.toExpr flags)
  | .empty _, _ | .flags .., _ | .literal _, _ | .dot _, _ | .assertion .., _
  | .shorthandClass .., _ => refuses_ok _
  | .propertyClass span name negated, flags =>
    (refuses_propertyClass flags span name negated).bind fun _ => refuses_ok _
  | .bracketed _ negated set, flags =>
    (refuses_bracketed flags negated set).bind fun _ => refuses_ok _
  | .repetition _ _ _ sub, flags => (refuses_toExpr sub flags).bind fun _ => refuses_ok _
  | .group _ (.flags _) sub, _ => (refuses_toExpr sub _).bind fun _ => refuses_ok _
  | .group _ (.capture ..) sub, flags => (refuses_toExpr sub flags).bind fun _ => refuses_ok _
  | .alternation _ items, flags => (refuses_toExprs items flags).bind fun _ => refuses_ok _
  | .concat _ items, flags => (refuses_toExprs items flags).bind fun _ => refuses_ok _

theorem refuses_toExprs : ∀ (items : List Ast) (flags : Flags), Refuses (toExprs flags items)
  | [], _ => refuses_ok _
  | ast :: rest, flags => (refuses_toExpr ast flags).bind fun _ =>
      (refuses_toExprs rest _).bind fun _ => refuses_ok _

end

end Refusals

end Pattern

/-- The expression of a pattern is well formed. -/
theorem Expr.wellFormed_ofPattern {settings : PatternSettings} {caseInsensitive : Bool}
    {pattern : String} {e : Expr} (h : ofPattern settings caseInsensitive pattern = .ok e) :
    e.WellFormed := by
  obtain ⟨ast,hast,h⟩ := bind_eq_ok.mp h
  obtain ⟨r,hr,he⟩ := bind_eq_ok.mp h
  cases he
  exact Pattern.each_toExpr Expr.kept_isSound (Pattern.wellFormed_parse hast) hr

end ByteAutomata
