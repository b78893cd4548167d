import Mathlib.Algebra.Ring.Nat
import Mathlib.Tactic.Common
import ByteAutomata.Pattern.Parser

/-! # What is true of all parsed patterns

Reversed counts are refused where they are read, so no parsed pattern has any, and the two digits of
a byte give no more than a byte. What every result of a reader satisfies is found from what the
results of its parts satisfy. -/
namespace ByteAutomata

namespace Reader
variable {ε α β σ : Type} {P : α → Prop} {Q : β → Prop}

/-- Whatever the reader yields satisfies `P`. -/
def Ensures (P : α → Prop) (x : Reader ε α) : Prop := ∀ c a r, x c = .ok (a,r) → P a

theorem ensures_pure {a : α} (h : P a) : Ensures P (pure a : Reader ε α) := by
  intro c b r hrun
  cases hrun
  exact h

theorem ensures_fail (e : ε) : Ensures P (Reader.fail e : Reader ε α) := by
  intro c a r hrun
  cases hrun

theorem Ensures.bind {x : Reader ε α} {f : α → Reader ε β} (hx : Ensures P x)
    (hf : ∀ a, P a → Ensures Q (f a)) : Ensures Q (x >>= f) := by
  intro c b r hrun
  change Reader.bind x f c = _ at hrun
  unfold Reader.bind at hrun
  split at hrun
  · cases hrun
  · rename_i a d hd hread
    split at hrun
    · cases hrun
    · rename_i b' r' hr hnext
      cases hrun
      exact hf a (hx c a _ hread) d b _ hnext

theorem ensures_true (x : Reader ε α) : Ensures (fun _ => True) x := fun _ _ _ _ => trivial

theorem Ensures.mono {Q : α → Prop} {x : Reader ε α} (hx : Ensures P x) (h : ∀ a, P a → Q a) :
    Ensures Q x := fun c a r hrun => h a (hx c a r hrun)

/-- Only what is done last counts. -/
theorem ensures_bind {x : Reader ε α} {f : α → Reader ε β} (hf : ∀ a, Ensures Q (f a)) :
    Ensures Q (x >>= f) := (ensures_true x).bind fun a _ => hf a

theorem ensures_ite {c : Prop} [Decidable c] {x y : Reader ε α} (hx : c → Ensures P x)
    (hy : ¬ c → Ensures P y) : Ensures P (if c then x else y) := by
  split
  · exact hx ‹_›
  · exact hy ‹_›

theorem ensures_fail_bind (e : ε) (f : α → Reader ε β) : Ensures Q (Reader.fail e >>= f) := by
  have hnone : Ensures (fun _ => False) (Reader.fail e : Reader ε α) := ensures_fail e
  exact hnone.bind fun _ h => h.elim

/-- What every round keeps holds of the state at the end of the text. -/
theorem ensures_loop {I : σ → Prop} {onEnd : σ → Reader ε β}
    {onChar : σ → Char → Position → Reader ε (σ ⊕ β)} (hend : ∀ s, I s → Ensures Q (onEnd s))
    (hchar : ∀ s x pos, I s → Ensures (Sum.elim I Q) (onChar s x pos)) {s : σ} (h : I s) :
    Ensures Q (loop onEnd onChar s) := by
  intro c
  fun_induction loop onEnd onChar s c with
  | case1 s c hrest =>
    intro b r hrun
    exact hend s h c b r hrun
  | case2 s c x tail hrest hn e hread =>
    intro b r hrun
    cases hrun
  | case3 s c x tail hrest hn b d hd hread =>
    intro b' r hrun
    cases hrun
    exact hchar s x c.pos h c.next (.inr b) _ hread
  | case4 s c x tail hrest hn s' d hd hread hlt e hloop ih =>
    intro b r hrun
    cases hrun
  | case5 s c x tail hrest hn s' d hd hread hlt b r' hr hloop ih =>
    intro b' r hrun
    cases hrun
    have hs' : I s' := hchar s x c.pos h c.next (.inl s') _ hread
    exact ih hs' b _ hloop

theorem Ensures.run {x : Reader ε α} (hx : Ensures P x) {text : List Char} {a : α}
    (h : x.run text = .ok a) : P a := by
  unfold Reader.run at h
  cases hread : x { rest := text } with
  | error e => simp [hread, Except.map] at h
  | ok r =>
    obtain ⟨b,r⟩ := r
    rw [hread] at h
    obtain rfl : b = a := by simpa [Except.map] using h
    exact hx _ b r hread

end Reader

namespace Hex

theorem toNat_lt_of_isDigit {c : Char} (h : isDigit c = true) : c.toNat < 0x80 := by
  simp only [isDigit, Char.isDigit, Bool.or_eq_true, Bool.and_eq_true, decide_eq_true_eq,
    Char.le_def, UInt32.le_iff_toNat_le] at h
  rcases h with (⟨-,h⟩ | ⟨-,h⟩) | ⟨-,h⟩
  all_goals exact Nat.lt_of_le_of_lt h (by decide)

theorem value_lt {c : Char} (h : isDigit c = true) : value c < 16 := by
  have hall : ∀ n < 0x80, isDigit (Char.ofNat n) = true → value (Char.ofNat n) < 16 := by decide
  have hc := hall c.toNat (toNat_lt_of_isDigit h)
  rw [Char.ofNat_toNat] at hc
  exact hc h

theorem foldl_lt {digits : List Char} (h : ∀ d ∈ digits, isDigit d = true) (n : Nat) :
    digits.foldl (fun n d => n * 16 + value d) n < (n + 1) * 16 ^ digits.length := by
  induction digits generalizing n with
  | nil => simp
  | cons d digits ih =>
    obtain ⟨hd,hdigits⟩ := List.forall_mem_cons.mp h
    have hvalue := value_lt hd
    calc (d :: digits).foldl (fun n d => n * 16 + value d) n
      _ < (n * 16 + value d + 1) * 16 ^ digits.length := ih hdigits _
      _ ≤ (n + 1) * 16 * 16 ^ digits.length := Nat.mul_le_mul_right _ (by omega)
      _ = (n + 1) * 16 ^ (d :: digits).length := by
        rw [List.length_cons, Nat.pow_succ', Nat.mul_assoc]

theorem toNat_lt {digits : List Char} {c : Char} (h : ∀ d ∈ digits, isDigit d = true)
    (hc : char? digits = some c) : c.toNat < 16 ^ digits.length := by
  obtain ⟨hvalid,hc⟩ := Option.dite_none_right_eq_some.mp hc
  obtain rfl := Option.some.inj hc
  have hlt := foldl_lt h 0
  rw [Nat.zero_add, Nat.one_mul] at hlt
  exact hlt

end Hex

namespace Pattern
open Reader hiding fail

/-- What is written with two digits is a byte. -/
def Literal.IsSound (lit : Literal) : Prop := lit.isByte = true → lit.char.toNat < 0x100

/-- What holds of every node of a parsed pattern by itself: counts are in order, and what is written
as a byte is one. -/
def Ast.IsSound : Ast → Prop
  | .literal lit => lit.IsSound
  | .repetition _ count _ _ => ∀ m, count.max = some m → count.min ≤ m
  | .empty _ | .flags .. | .dot _ | .assertion .. | .propertyClass .. | .shorthandClass ..
  | .bracketed .. | .group .. | .alternation .. | .concat .. => True

mutual

/-- Every node is of a kind. -/
def Ast.Each (P : Ast → Prop) : Ast → Prop
  | .empty span => P (.empty span)
  | .flags span list => P (.flags span list)
  | .literal lit => P (.literal lit)
  | .dot span => P (.dot span)
  | .assertion span kind => P (.assertion span kind)
  | .propertyClass span name negated => P (.propertyClass span name negated)
  | .shorthandClass span kind negated => P (.shorthandClass span kind negated)
  | .bracketed span negated set => P (.bracketed span negated set)
  | .repetition span count greedy sub => P (.repetition span count greedy sub) ∧ sub.Each P
  | .group span kind sub => P (.group span kind sub) ∧ sub.Each P
  | .alternation span items => P (.alternation span items) ∧ EachOf P items
  | .concat span items => P (.concat span items) ∧ EachOf P items

def EachOf (P : Ast → Prop) : List Ast → Prop
  | [] => True
  | ast :: rest => ast.Each P ∧ EachOf P rest

end

theorem eachOf_iff {P : Ast → Prop} {items : List Ast} :
    EachOf P items ↔ ∀ ast ∈ items, ast.Each P := by
  induction items with
  | nil => simp [EachOf]
  | cons ast items ih => rw [EachOf, ih, List.forall_mem_cons]

mutual

theorem Ast.Each.mono {P Q : Ast → Prop} (hPQ : ∀ a, P a → Q a) : ∀ {ast : Ast}, ast.Each P →
    ast.Each Q
  | .empty _, h | .flags .., h | .literal _, h | .dot _, h | .assertion .., h | .propertyClass .., h
  | .shorthandClass .., h | .bracketed .., h => hPQ _ h
  | .repetition .., h | .group .., h => ⟨hPQ _ h.1,h.2.mono hPQ⟩
  | .alternation .., h | .concat .., h => ⟨hPQ _ h.1,h.2.mono hPQ⟩

theorem EachOf.mono {P Q : Ast → Prop} (hPQ : ∀ a, P a → Q a) : ∀ {items : List Ast},
    EachOf P items → EachOf Q items
  | [], _ => trivial
  | _ :: _, h => ⟨h.1.mono hPQ,h.2.mono hPQ⟩

end

mutual

theorem Ast.Each.and {P Q : Ast → Prop} : ∀ {ast : Ast}, ast.Each P → ast.Each Q →
    ast.Each fun a => P a ∧ Q a
  | .empty _, hp, hq | .flags .., hp, hq | .literal _, hp, hq | .dot _, hp, hq
  | .assertion .., hp, hq | .propertyClass .., hp, hq | .shorthandClass .., hp, hq
  | .bracketed .., hp, hq => ⟨hp,hq⟩
  | .repetition .., hp, hq | .group .., hp, hq => ⟨⟨hp.1,hq.1⟩,hp.2.and hq.2⟩
  | .alternation .., hp, hq | .concat .., hp, hq => ⟨⟨hp.1,hq.1⟩,hp.2.and hq.2⟩

theorem EachOf.and {P Q : Ast → Prop} : ∀ {items : List Ast}, EachOf P items → EachOf Q items →
    EachOf (fun a => P a ∧ Q a) items
  | [], _, _ => trivial
  | _ :: _, hp, hq => ⟨hp.1.and hq.1,hp.2.and hq.2⟩

end

def Ast.WellFormed (ast : Ast) : Prop := ast.Each IsSound

theorem ensures_countedRepetition (start : Position) {operand : Ast} (h : operand.WellFormed) :
    Ensures Ast.WellFormed (countedRepetition start operand) := by
  unfold countedRepetition
  refine ensures_bind fun count => ensures_bind fun _ => ensures_ite
    (fun _ => ensures_bind fun _ => ensures_fail_bind _ _) fun _ => ?_
  refine ensures_bind fun _ => ensures_bind fun _ => ?_
  have hlast : ∀ isLazy : Bool, Ensures Ast.WellFormed (do
      if count.max.any (· < count.min) then
        PatternReader.fail .repetitionCountInvalid (← spanFrom start)
      return .repetition (← spanFrom operand.span.start) count (!isLazy) operand) := by
    intro isLazy
    refine ensures_ite (fun _ => ensures_bind fun _ => ensures_fail_bind _ _) fun hle => ?_
    refine ensures_bind fun span => ensures_pure ⟨fun m hm => ?_,h⟩
    simpa [hm] using hle
  exact ensures_ite (fun _ => ensures_bind fun _ => hlast _) fun _ => hlast _

theorem ensures_signRepetition {count : Count} {operand : Ast}
    (hcount : ∀ m, count.max = some m → count.min ≤ m) (h : operand.WellFormed) :
    Ensures Ast.WellFormed (signRepetition count operand) := by
  have hlast : ∀ isLazy : Bool, Ensures Ast.WellFormed (do
      return .repetition (← spanFrom operand.span.start) count (!isLazy) operand :
        PatternReader Ast) :=
    fun isLazy => ensures_bind fun span => ensures_pure ⟨hcount,h⟩
  exact ensures_bind fun isLazy =>
    ensures_ite (fun _ => ensures_bind fun _ => hlast isLazy) fun _ => hlast isLazy

section Escape

theorem ensures_hexDigit : Ensures (fun c => Hex.isDigit c = true) hexDigit := by
  refine ensures_bind fun head => ?_
  cases head with
  | none => exact ensures_bind fun _ => ensures_fail _
  | some c => exact ensures_ite (fun h => ensures_pure h) fun _ => ensures_bind fun _ => ensures_fail _

theorem ensures_moreHexDigits (n : Nat) {seen : List Char}
    (h : ∀ d ∈ seen, Hex.isDigit d = true) :
    Ensures (fun digits => digits.length = seen.length + n ∧ ∀ d ∈ digits, Hex.isDigit d = true)
      (moreHexDigits n seen) := by
  induction n generalizing seen with
  | zero => exact ensures_pure ⟨List.length_reverse,fun d hd => h d (List.mem_reverse.mp hd)⟩
  | succ n ih =>
    have hmore : Ensures (fun digits => digits.length = seen.length + (n + 1) ∧
        ∀ d ∈ digits, Hex.isDigit d = true) (do moreHexDigits n ((← hexDigit) :: seen)) := by
      refine ensures_hexDigit.bind fun d hd => ?_
      have hcons := ih (List.forall_mem_cons.mpr ⟨hd,h⟩)
      rwa [List.length_cons, Nat.add_right_comm] at hcons
    exact ensures_bind fun _ => ensures_ite
      (fun _ => ensures_bind fun _ => ensures_fail_bind _ _) fun _ => hmore

theorem ensures_hexFixed (start : Position) (count : Nat) (isByte : Bool) :
    Ensures (fun lit => lit.isByte = isByte ∧ lit.char.toNat < 16 ^ (1 + (count - 1)))
      (hexFixed start count isByte) := by
  refine ensures_bind fun _ => ensures_hexDigit.bind fun d hd => ?_
  refine (ensures_moreHexDigits (count - 1) (List.forall_mem_singleton.mpr hd)).bind
    fun digits hdigits => ensures_bind fun _ => ?_
  split
  · rename_i char hchar
    refine ensures_bind fun span => ensures_pure ⟨rfl,?_⟩
    have hlt := Hex.toNat_lt hdigits.2 hchar
    rwa [hdigits.1] at hlt
  · exact ensures_bind fun _ => ensures_fail _

theorem ensures_hexBraced (start : Position) : Ensures Literal.IsSound (hexBraced start) := by
  refine ensures_bind fun brace => ensures_bind fun head => ensures_bind fun _ => ensures_bind
    fun seen => ensures_bind fun ended => ?_
  refine ensures_ite (fun _ => ensures_bind fun _ => ensures_fail_bind _ _) fun _ => ?_
  refine ensures_bind fun digitsSpan => ensures_bind fun _ => ensures_ite
    (fun _ => ensures_bind fun _ => ensures_fail_bind _ _) fun _ => ?_
  split
  · exact ensures_bind fun span => ensures_pure fun h => nomatch h
  · exact ensures_fail _

theorem ensures_hexLiteral (start : Position) (letter : Char) :
    Ensures Literal.IsSound (hexLiteral start letter) := by
  have hfixed : ∀ count, Ensures Literal.IsSound (hexFixed start count false) := fun count =>
    (ensures_hexFixed start count false).mono fun lit hlit hbyte => by
      rw [hlit.1] at hbyte
      cases hbyte
  have hbyte : Ensures Literal.IsSound (hexFixed start 2 true) :=
    (ensures_hexFixed start 2 true).mono fun lit hlit _ => hlit.2
  refine ensures_bind fun more => ensures_ite (fun _ => ensures_bind fun _ => ensures_fail_bind _ _)
    fun _ => ensures_bind fun braced => ?_
  exact ensures_ite (fun _ => ensures_hexBraced start) fun _ =>
    ensures_ite (fun _ => hbyte) fun _ => ensures_ite (fun _ => hfixed 4) fun _ => hfixed 8

theorem ensures_escape (start : Position) :
    Ensures (fun p => p.toAst.WellFormed) (escape start) := by
  have hchar : ∀ span char, (Primitive.literal { span, char }).toAst.WellFormed :=
    fun span char h => nomatch h
  have hassertion : ∀ kind, Ensures (fun p => p.toAst.WellFormed) (assertion start kind) := by
    intro kind
    have hlast : ∀ special : Option AssertionKind, Ensures (fun p => p.toAst.WellFormed) (do
        return .assertion (← spanFrom start) (special.getD kind) : PatternReader Primitive) :=
      fun special => ensures_bind fun span => ensures_pure trivial
    exact ensures_bind fun braced => ensures_ite (fun _ => ensures_bind hlast)
      fun _ => ensures_bind hlast
  refine ensures_bind fun head => ?_
  cases head with
  | none => exact ensures_bind fun _ => ensures_fail _
  | some c =>
    refine ensures_ite (fun _ => ensures_bind fun _ => ensures_fail _) fun _ => ensures_ite
      (fun _ => (ensures_hexLiteral start c).bind fun lit hlit => ensures_pure hlit) fun _ =>
      ensures_ite (fun _ => ensures_bind fun name => ensures_bind fun span => ensures_pure trivial)
      fun _ => ensures_bind fun _ => ensures_bind fun span => ?_
    split
    · exact ensures_pure trivial
    · exact ensures_pure (hchar span _)
    · exact hassertion _
    · exact ensures_ite (fun _ => ensures_pure (hchar span _)) fun _ => ensures_fail _

end Escape

theorem ensures_bracketed (start : Position) : Ensures Ast.WellFormed (bracketed start) := by
  have hclose : ∀ stack : ClassStack,
      Ensures (Sum.elim (fun _ => True) Ast.WellFormed) (closeClass stack) := by
    rintro ⟨c,outer⟩
    refine ensures_bind fun span => ?_
    cases outer with
    | nil => exact ensures_pure trivial
    | cons around further => exact ensures_pure trivial
  have hstep : ∀ (stack : ClassStack) (x : Char) (pos : Position),
      Ensures (Sum.elim (fun _ => True) Ast.WellFormed) (classStep stack x pos) := by
    rintro ⟨c,outer⟩ x pos
    refine ensures_ite (fun _ => ensures_bind fun item? => ?_) fun _ =>
      ensures_ite (fun _ => hclose _) fun _ => ?_
    · cases item? with
      | some item => exact ensures_pure trivial
      | none => exact ensures_bind fun _ => ensures_pure trivial
    · refine ensures_bind fun doubled => ?_
      split
      · exact ensures_bind fun _ => ensures_bind fun _ => ensures_pure trivial
      · exact ensures_bind fun _ => ensures_pure trivial
  refine ensures_bind fun c => ensures_bind fun _ => ?_
  refine ensures_loop (I := fun _ => True) (fun _ _ => ensures_fail _) (fun stack x pos _ => ?_)
    trivial
  refine (hstep stack x pos).bind fun next hnext => ?_
  cases next with
  | inl stack => exact ensures_bind fun _ => ensures_pure trivial
  | inr ast => exact ensures_pure hnext

section State

theorem Branch.wellFormed_toAst {b : Branch} (h : ∀ ast ∈ b.items, ast.WellFormed)
    (finish : Position) : (b.toAst finish).WellFormed := by
  unfold toAst
  split
  · trivial
  · rename_i item heq
    exact h item (heq ▸ List.mem_cons_self)
  · exact ⟨trivial,eachOf_iff.mpr fun ast hast => h ast (List.mem_reverse.mp hast)⟩

structure Contents.WellFormed (c : Contents) : Prop where
  done : ∀ ast ∈ c.done, ast.WellFormed
  items : ∀ ast ∈ c.branch.items, ast.WellFormed

structure State.WellFormed (s : State) : Prop where
  contents : s.contents.WellFormed
  around : ∀ group ∈ s.groups, group.around.WellFormed

variable {c : Contents} {s : State} {ast : Ast}

theorem Contents.WellFormed.push (h : c.WellFormed) (hast : ast.WellFormed) : (c.push ast).WellFormed :=
  ⟨h.done,List.forall_mem_cons.mpr ⟨hast,h.items⟩⟩

theorem Contents.WellFormed.split (h : c.WellFormed) (bar behind : Position) :
    (c.split bar behind).WellFormed :=
  ⟨List.forall_mem_cons.mpr ⟨Branch.wellFormed_toAst h.items bar,h.done⟩,by simp [Contents.split]⟩

theorem Contents.WellFormed.toAst (h : c.WellFormed) (finish : Position) :
    (c.toAst finish).WellFormed := by
  unfold Contents.toAst
  split
  · exact Branch.wellFormed_toAst h.items finish
  · refine ⟨trivial,eachOf_iff.mpr fun ast hast => ?_⟩
    rcases List.mem_cons.mp (List.mem_reverse.mp hast) with rfl | hast
    · exact Branch.wellFormed_toAst h.items finish
    · exact h.done ast hast

theorem Contents.WellFormed.takeOperand {operand : Ast} {rest : Contents} (h : c.WellFormed)
    (htake : c.takeOperand? = some (operand,rest)) : operand.WellFormed ∧ rest.WellFormed := by
  unfold Contents.takeOperand? at htake
  split at htake
  · rename_i first items heq
    obtain ⟨-,rfl,rfl⟩ : _ ∧ first = operand ∧ _ = rest := by simpa using htake
    obtain ⟨hfirst,hitems⟩ := List.forall_mem_cons.mp (heq ▸ h.items)
    exact ⟨hfirst,h.done,hitems⟩
  · simp at htake

theorem State.WellFormed.push (h : s.WellFormed) (hast : ast.WellFormed) : (s.push ast).WellFormed :=
  ⟨h.contents.push hast,h.around⟩

theorem ensures_push {x : PatternReader Ast} (h : s.WellFormed) (hx : Ensures Ast.WellFormed x) :
    Ensures State.WellFormed (do return s.push (← x)) :=
  hx.bind fun _ hast => ensures_pure (h.push hast)

theorem ensures_repeated {start : Position} {f : Ast → PatternReader Ast} (h : s.WellFormed)
    (hf : ∀ operand : Ast, operand.WellFormed → Ensures Ast.WellFormed (f operand)) :
    Ensures State.WellFormed (s.repeated start f) := by
  unfold State.repeated
  split
  · rename_i operand contents htake
    obtain ⟨hoperand,hcontents⟩ := h.contents.takeOperand htake
    exact (hf operand hoperand).bind fun _ hast => ensures_pure ⟨hcontents.push hast,h.around⟩
  · exact ensures_fail _

theorem ensures_closeGroup (h : s.WellFormed) (start : Position) :
    Ensures State.WellFormed (s.closeGroup start) := by
  unfold State.closeGroup
  split
  · exact ensures_bind fun _ => ensures_fail _
  · rename_i group groups heq
    obtain ⟨hgroup,hgroups⟩ := List.forall_mem_cons.mp (heq ▸ h.around)
    exact ensures_bind fun _ => ensures_bind fun _ =>
      ensures_pure ⟨hgroup.push ⟨trivial,h.contents.toAst start⟩,hgroups⟩

theorem ensures_enter (h : s.WellFormed) (span : Span) (kind : GroupKind) :
    Ensures State.WellFormed (s.enter span kind) := by
  refine ensures_bind fun cursor => ensures_bind fun pos => ensures_pure ⟨?_,?_⟩
  · exact ⟨by simp,by simp⟩
  · exact List.forall_mem_cons.mpr ⟨h.contents,h.around⟩

theorem ensures_openGroup (h : s.WellFormed) (start : Position) :
    Ensures State.WellFormed (s.openGroup start) := by
  refine ensures_bind fun span => ensures_bind fun head => ?_
  cases head with
  | flags flags =>
    exact ensures_bind fun _ => ensures_bind fun _ => ensures_pure (h.push trivial)
  | noCapture flags =>
    exact (ensures_enter h span _).bind fun _ hs => ensures_bind fun _ => ensures_pure hs
  | capture =>
    exact (ensures_enter h span _).bind fun _ hs => ensures_pure ⟨hs.contents,hs.around⟩
  | named name =>
    exact (ensures_enter h span _).bind fun _ hs => ensures_pure ⟨hs.contents,hs.around⟩

/-- Reading one more part keeps the counts in order. -/
theorem ensures_step (h : s.WellFormed) (x : Char) (start : Position) :
    Ensures State.WellFormed (s.step x start) := by
  unfold State.step
  split
  · exact ensures_openGroup h start
  · exact ensures_closeGroup h start
  · exact ensures_bind fun _ => ensures_pure ⟨h.contents.split _ _,h.around⟩
  · exact ensures_push h (ensures_bracketed start)
  · exact ensures_repeated h fun operand => ensures_signRepetition (by simp)
  · exact ensures_repeated h fun operand => ensures_signRepetition (by simp)
  · exact ensures_repeated h fun operand => ensures_signRepetition (by simp)
  · exact ensures_repeated h fun operand => ensures_countedRepetition start
  · exact (ensures_escape start).bind fun p hp => ensures_pure (h.push hp)
  · exact ensures_bind fun _ => ensures_pure (h.push trivial)
  · exact ensures_bind fun _ => ensures_pure (h.push trivial)
  · exact ensures_bind fun _ => ensures_pure (h.push trivial)
  · exact ensures_bind fun _ => ensures_pure (h.push fun hbyte => nomatch hbyte)

theorem ensures_finish (h : s.WellFormed) : Ensures Ast.WellFormed s.finish := by
  unfold State.finish
  split
  · exact ensures_fail _
  · exact ensures_bind fun pos => ensures_pure (h.contents.toAst pos)

end State

theorem ensures_ast : Ensures Ast.WellFormed ast := by
  refine ensures_bind fun start => ensures_bind fun _ => ?_
  refine ensures_loop (fun s hs => ensures_finish hs) (fun s x pos hs => ?_) ⟨⟨?_,?_⟩,?_⟩
  · exact (ensures_step hs x pos).bind fun s' hs' => ensures_bind fun _ => ensures_pure hs'
  all_goals simp

/-- No repetition of a parsed pattern has reversed counts. -/
theorem wellFormed_parse {pattern : List Char} {parsed : Ast} (h : parse pattern = .ok parsed) :
    parsed.WellFormed := by
  unfold parse at h
  cases hread : ast.run pattern with
  | error e => simp [hread, bind, Except.bind] at h
  | ok a =>
    have ha := ensures_ast.run hread
    rw [hread] at h
    cases hnest : a.checkNesting 0 with
    | error e => simp [hnest, bind, Except.bind] at h
    | ok u =>
      obtain rfl : a = parsed := by simpa [hnest, bind, Except.bind, pure, Except.pure] using h
      exact ha

end Pattern
end ByteAutomata
