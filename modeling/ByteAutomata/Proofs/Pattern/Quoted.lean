import Mathlib.Tactic.Common
import ByteAutomata.Pattern.Parser

/-! # Reading quoted characters

A quoted character is read as a literal, whatever it means otherwise. So alternatives that are one
quoted character each are read as an alternation of their literals, and a quoted text as its
literals, one after another. -/
namespace ByteAutomata

namespace Reader
variable {ε α β σ : Type} {onEnd : σ → Reader ε β} {s s' : σ} {x : Char} {tail : List Char}
variable {onChar : σ → Char → Position → Reader ε (σ ⊕ β)} {c d : Cursor}

theorem bind_ok {y : Reader ε α} {f : α → Reader ε β} {a : α} {b : β} {r : Cursor}
    (hd : d.length ≤ c.length) (hr : r.length ≤ d.length) (h : y c = .ok (a,⟨d,hd⟩))
    (hf : f a d = .ok (b,⟨r,hr⟩)) : (y >>= f) c = .ok (b,⟨r,Nat.le_trans hr hd⟩) := by
  change Reader.bind y f c = _
  unfold Reader.bind
  simp only [h, hf]

/-- What is left by the first reader is read by the second one. -/
theorem bind_next {y : Reader ε α} {f : α → Reader ε β} {a : α} (hd : d.length ≤ c.length)
    (h : y c = .ok (a,⟨d,hd⟩)) : ((y >>= f) c).map Prod.fst = (f a d).map Prod.fst := by
  change (Reader.bind y f c).map Prod.fst = _
  unfold Reader.bind
  simp only [h]
  cases f a d with
  | error e => rfl
  | ok r => rfl

theorem loop_end (h : c.rest = []) : loop onEnd onChar s c = onEnd s c := by
  rw [loop]
  split
  · rfl
  · rename_i h'
    rw [h] at h'
    cases h'

theorem loop_next (hd : d.length ≤ c.next.length) (h : c.rest = x :: tail)
    (hread : onChar s x c.pos c.next = .ok (.inl s',⟨d,hd⟩)) :
    (loop onEnd onChar s c).map Prod.fst = (loop onEnd onChar s' d).map Prod.fst := by
  conv_lhs => rw [loop]
  split
  · rename_i h'
    rw [h] at h'
    cases h'
  · rename_i x' tail' h'
    obtain ⟨rfl,rfl⟩ : x = x' ∧ tail = tail' := by simpa using h.symm.trans h'
    simp only [hread]
    cases loop onEnd onChar s' d with
    | error e => rfl
    | ok r => rfl

end Reader

namespace Pattern
open Reader hiding fail

/-- One round of reading. -/
def State.round (s : State) (x : Char) (start : Position) : PatternReader (State ⊕ Ast) := do
  let s ← s.step x start
  skipBlanks
  return .inl s

/-- What is read up to the end of the text, where blanks count. -/
def State.readFrom (s : State) (text : List Char) (pos : Position) : Except SyntaxError Ast :=
  (loop State.finish State.round s ⟨text,pos,false⟩).map Prod.fst

theorem run_ast (text : List Char) :
    ast.run text = State.readFrom { contents := { start := {} } } text {} :=
  (bind_next (y := position) (a := {}) (Nat.le_refl _) rfl).trans
    (bind_next (y := skipBlanks) (d := ⟨text,{},false⟩) (Nat.le_refl _) rfl)

section Rounds
variable {s s' : State} {text rest : List Char} {pos pos' : Position} {x : Char}

theorem readFrom_end (h : s.groups = []) :
    s.readFrom [] pos = .ok (s.contents.toAst pos) := by
  rw [State.readFrom, loop_end rfl, State.finish]
  simp only [h]
  rfl

theorem readFrom_round (hd : rest.length ≤ text.length)
    (h : s.step x pos ⟨text,pos.next x,false⟩ = .ok (s',⟨⟨rest,pos',false⟩,hd⟩)) :
    s.readFrom (x :: text) pos = s'.readFrom rest pos' := by
  refine loop_next (d := ⟨rest,pos',false⟩) hd rfl ?_
  exact bind_ok (y := s.step x pos) _ _ h
    (bind_ok (y := skipBlanks) (Nat.le_refl _) (Nat.le_refl _) rfl rfl)

theorem readFrom_bar : s.readFrom ('|' :: text) pos =
    State.readFrom { s with contents := s.contents.split pos (pos.next '|') } text
      (pos.next '|') := readFrom_round (Nat.le_refl _) rfl

/-- A character without a special meaning stands for itself. -/
theorem readFrom_plain (h : isMeta x = false) : s.readFrom (x :: text) pos =
    (s.push (.literal { span := ⟨pos,pos.next x⟩, char := x })).readFrom text (pos.next x) := by
  apply readFrom_round (Nat.le_refl _)
  unfold State.step
  split
  all_goals first | rfl | exact absurd h (by decide)

/-- Behind a backslash a special meaning is lost. -/
theorem escapeOf_meta (h : isMeta x = true) (start : Position) :
    escapeOf start x ⟨x :: text,pos,false⟩ =
      .ok (.literal { span := ⟨start,pos.next x⟩, char := x },
        ⟨⟨text,pos.next x,false⟩,Nat.le_succ _⟩) := by
  have hall : ("\\.+*?()|[]\x7b\x7d^$#&-~".toList.all fun x => decide (x.isDigit = false ∧
      ¬ (x = 'x' ∨ x = 'u' ∨ x = 'U') ∧ ¬ (x = 'p' ∨ x = 'P') ∧ shorthand? x = none ∧
      controlChar? x = none ∧ assertionKind? x = none)) = true := by decide
  obtain ⟨hdigit,hhex,hproperty,hshorthand,hcontrol,hassertion⟩ :=
    of_decide_eq_true (List.all_eq_true.mp hall x (List.contains_iff_mem.mp h))
  have hescapable : isEscapable x = true := by rw [isEscapable, h, Bool.true_or]
  unfold escapeOf
  rw [if_neg (by simp [hdigit]), if_neg hhex, if_neg hproperty]
  simp only [hshorthand, hcontrol, hassertion, hescapable]
  rfl

theorem readFrom_escaped (h : isMeta x = true) : s.readFrom ('\\' :: x :: text) pos =
    (s.push (.literal { span := ⟨pos,(pos.next '\\').next x⟩, char := x })).readFrom text
      ((pos.next '\\').next x) := by
  have hescape : escape pos ⟨x :: text,pos.next '\\',false⟩ = _ :=
    Reader.bind_ok (y := head?) (a := some x) (Nat.le_refl _) (Nat.le_succ _) rfl (escapeOf_meta h pos)
  apply readFrom_round (Nat.le_succ _)
  exact Reader.bind_ok (Nat.le_succ _) (Nat.le_refl _) hescape rfl

/-- A quoted character is a literal. -/
theorem readFrom_quoted (s : State) (x : Char) (text : List Char) (pos : Position) :
    ∃ span pos', s.readFrom (quote [x] ++ text) pos =
      (s.push (.literal { span, char := x })).readFrom text pos' := by
  cases h : isMeta x with
  | true =>
    have hquote : quote [x] = ['\\',x] := by simp [quote, h]
    rw [hquote]
    exact ⟨_,_,readFrom_escaped h⟩
  | false =>
    have hquote : quote [x] = [x] := by simp [quote, h]
    rw [hquote]
    exact ⟨_,_,readFrom_plain h⟩

end Rounds

section Alternatives
variable {cs : List Char} {s : State}

/-- A pattern with the characters as its alternatives. -/
def quotedAlternatives (cs : List Char) : List Char :=
  ['|'].intercalate (cs.map fun c => quote [c])

/-- Alternatives of which a single one needs no alternation. -/
def alternativesOf (span : Span) : List Ast → Ast
  | [item] => item
  | items => .alternation span items

theorem toAst_push {c : Contents} (h : c.branch.items = []) (item : Ast) (finish : Position) :
    (c.push item).toAst finish = alternativesOf ⟨c.start,finish⟩ (c.done.reverse ++ [item]) := by
  have hbranch : (c.push item).branch.toAst finish = item := by simp [Contents.push, Branch.toAst, h]
  unfold Contents.toAst
  rw [hbranch]
  cases hdone : c.done with
  | nil => simp [Contents.push, hdone, alternativesOf]
  | cons first done =>
    have hlist : (first :: done).reverse ++ [item] = (item :: first :: done).reverse := by simp
    rw [hlist]
    simp only [Contents.push, hdone]
    unfold alternativesOf
    split
    · rename_i heq
      simpa using congrArg List.length heq
    · rfl

theorem done_split {c : Contents} (h : c.branch.items = []) (item : Ast) (bar behind : Position) :
    ((c.push item).split bar behind).done = item :: c.done := by
  simp [Contents.push, Contents.split, Branch.toAst, h]

theorem readFrom_alternatives (hne : cs ≠ []) (hgroups : s.groups = [])
    (hitems : s.contents.branch.items = []) (pos : Position) :
    ∃ lits : List Literal, lits.map (·.char) = cs ∧ (∀ lit ∈ lits, lit.isByte = false) ∧
      ∃ span, s.readFrom (quotedAlternatives cs) pos =
        .ok (alternativesOf span (s.contents.done.reverse ++ lits.map Ast.literal)) := by
  induction cs generalizing s pos with
  | nil => exact absurd rfl hne
  | cons c cs ih =>
    cases cs with
    | nil =>
      have htext : quotedAlternatives [c] = quote [c] ++ [] := by
        simp [quotedAlternatives, List.intercalate]
      obtain ⟨span,pos',hread⟩ := readFrom_quoted s c [] pos
      refine ⟨[{ span, char := c }],rfl,by simp,⟨s.contents.start,pos'⟩,?_⟩
      rw [htext, hread, readFrom_end (s := s.push _) hgroups]
      exact congrArg Except.ok (toAst_push hitems _ pos')
    | cons d cs =>
      have htext : quotedAlternatives (c :: d :: cs) =
          quote [c] ++ '|' :: quotedAlternatives (d :: cs) := by
        simp [quotedAlternatives, List.intercalate]
      obtain ⟨span,pos',hread⟩ := readFrom_quoted s c ('|' :: quotedAlternatives (d :: cs)) pos
      let lit : Literal := { span, char := c }
      let s' : State := { s.push (.literal lit) with
        contents := (s.push (.literal lit)).contents.split pos' (pos'.next '|') }
      obtain ⟨lits,hchars,hbytes,whole,hrest⟩ :=
        ih (s := s') (by simp) hgroups rfl (pos'.next '|')
      have hdone : s'.contents.done = .literal lit :: s.contents.done :=
        done_split hitems _ pos' (pos'.next '|')
      refine ⟨lit :: lits,by simp [lit, hchars],List.forall_mem_cons.mpr ⟨rfl,hbytes⟩,whole,?_⟩
      rw [htext, hread, readFrom_bar, hrest, hdone]
      simp

theorem checkAll_literals (depth : Nat) (lits : List Literal) :
    checkAll depth (lits.map Ast.literal) = .ok () := by
  induction lits with
  | nil => rfl
  | cons lit lits ih => exact ih

theorem checkNesting_alternativesOf (span : Span) (lits : List Literal) :
    (alternativesOf span (lits.map Ast.literal)).checkNesting 0 = .ok () := by
  match lits with
  | [] => rfl
  | [lit] => rfl
  | lit :: next :: more => exact checkAll_literals 1 (lit :: next :: more)

/-- Alternatives of one quoted character each are read as their literals. -/
theorem parse_quotedAlternatives (hne : cs ≠ []) :
    ∃ lits : List Literal, lits.map (·.char) = cs ∧ (∀ lit ∈ lits, lit.isByte = false) ∧
      ∃ span, parse (quotedAlternatives cs) = .ok (alternativesOf span (lits.map Ast.literal)) := by
  obtain ⟨lits,hchars,hbytes,span,hread⟩ := readFrom_alternatives hne
    (s := { contents := { start := {} } }) rfl rfl {}
  refine ⟨lits,hchars,hbytes,span,?_⟩
  have hnesting := checkNesting_alternativesOf span lits
  rw [parse, run_ast, hread]
  change ((alternativesOf span (lits.map Ast.literal)).checkNesting 0 >>= fun _ => pure _) = _
  rw [hnesting]
  rfl

end Alternatives

section Text
variable {s : State}

/-- Items of which a single one needs no concatenation. -/
def concatenationOf (span : Span) : List Ast → Ast
  | [] => .empty span
  | [item] => item
  | items => .concat span items

theorem toAst_branch {b : Branch} {items : List Ast} (h : b.items = items.reverse)
    (finish : Position) : b.toAst finish = concatenationOf ⟨b.start,finish⟩ items := by
  unfold Branch.toAst concatenationOf
  rw [h]
  match items with
  | [] => rfl
  | [item] => rfl
  | first :: second :: rest =>
    split
    · rename_i heq
      simpa using congrArg List.length heq
    · rename_i heq
      simpa using congrArg List.length heq
    · rw [List.reverse_reverse]

theorem readFrom_text (cs : List Char) (hgroups : s.groups = []) (hdone : s.contents.done = [])
    (items : List Ast) (hitems : s.contents.branch.items = items.reverse) (pos : Position) :
    ∃ lits : List Literal, lits.map (·.char) = cs ∧ (∀ lit ∈ lits, lit.isByte = false) ∧
      ∃ span, s.readFrom (quote cs) pos =
        .ok (concatenationOf span (items ++ lits.map Ast.literal)) := by
  induction cs generalizing s items pos with
  | nil =>
    refine ⟨[],rfl,by simp,⟨s.contents.branch.start,pos⟩,?_⟩
    have hcontents : s.contents.toAst pos = s.contents.branch.toAst pos := by
      rw [Contents.toAst, hdone]
    change s.readFrom [] pos = _
    rw [readFrom_end hgroups, hcontents, toAst_branch hitems, List.map_nil, List.append_nil]
  | cons c cs ih =>
    have htext : quote (c :: cs) = quote [c] ++ quote cs := by simp [quote]
    obtain ⟨span,pos',hread⟩ := readFrom_quoted s c (quote cs) pos
    let lit : Literal := { span, char := c }
    have hpush : (s.push (.literal lit)).contents.branch.items =
        (items ++ [Ast.literal lit]).reverse := by
      simp [State.push, Contents.push, hitems]
    obtain ⟨lits,hchars,hbytes,whole,hrest⟩ :=
      ih (s := s.push (.literal lit)) hgroups hdone (items ++ [.literal lit]) hpush pos'
    refine ⟨lit :: lits,by simp [lit, hchars],List.forall_mem_cons.mpr ⟨rfl,hbytes⟩,whole,?_⟩
    rw [htext, hread, hrest, List.append_assoc]
    rfl

theorem checkNesting_concatenationOf (span : Span) (lits : List Literal) :
    (concatenationOf span (lits.map Ast.literal)).checkNesting 0 = .ok () := by
  match lits with
  | [] => rfl
  | [lit] => rfl
  | _ :: _ :: _ => exact checkAll_literals 1 _

/-- A quoted text is read as the literals of its characters. -/
theorem parse_quote (cs : List Char) :
    ∃ lits : List Literal, lits.map (·.char) = cs ∧ (∀ lit ∈ lits, lit.isByte = false) ∧
      ∃ span, parse (quote cs) = .ok (concatenationOf span (lits.map Ast.literal)) := by
  obtain ⟨lits,hchars,hbytes,span,hread⟩ :=
    readFrom_text (s := { contents := { start := {} } }) cs rfl rfl [] rfl {}
  refine ⟨lits,hchars,hbytes,span,?_⟩
  have hnesting := checkNesting_concatenationOf span lits
  rw [parse, run_ast, hread]
  change ((concatenationOf span (lits.map Ast.literal)).checkNesting 0 >>= fun _ => pure _) = _
  rw [hnesting]
  rfl

end Text

end Pattern
end ByteAutomata
