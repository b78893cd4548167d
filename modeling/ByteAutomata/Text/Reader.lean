import ByteAutomata.Text.Position
import ByteAutomata.Unicode.Blank

/-! # Readers

A reader takes a part of a text from the front of what is left of it. It never leaves more than it
was given, which is what lets the loops at the end of this file run to the end of any text. Where
white space is ignored, some readers also skip blanks and comments. -/
namespace ByteAutomata

open Unicode (isBlank)

structure Cursor where
  rest : List Char
  pos : Position := {}
  /-- Whether white space and comments are ignored. -/
  ignoresBlanks : Bool := false
deriving DecidableEq

namespace Cursor

def length (c : Cursor) : Nat := c.rest.length

def next (c : Cursor) : Cursor :=
  match c.rest with
  | [] => c
  | x :: rest => { c with rest, pos := c.pos.next x }

theorem length_next (c : Cursor) : c.next.length ≤ c.length := by
  unfold next
  split <;> simp_all [length]

theorem length_next_lt {c : Cursor} {x : Char} {rest : List Char} (h : c.rest = x :: rest) :
    c.next.length < c.length := by
  simp [next, h, length]

/-- Skips blanks and comments; a comment goes on to the end of its line. -/
def skip (inComment : Bool) : List Char → Position → List Char × Position
  | [], pos => ([], pos)
  | x :: rest, pos =>
    if inComment then skip (x != '\n') rest (pos.next x)
    else if isBlank x then skip false rest (pos.next x)
    else if x = '#' then skip true rest (pos.next x)
    else (x :: rest, pos)

theorem length_skip (inComment : Bool) (rest : List Char) (pos : Position) :
    (skip inComment rest pos).1.length ≤ rest.length := by
  fun_induction skip inComment rest pos <;> simp_all <;> omega

def skipBlanks (c : Cursor) : Cursor :=
  if c.ignoresBlanks then
    let (rest, pos) := skip false c.rest c.pos
    { c with rest, pos }
  else c

theorem length_skipBlanks (c : Cursor) : c.skipBlanks.length ≤ c.length := by
  unfold skipBlanks
  split
  · exact length_skip false c.rest c.pos
  · exact Nat.le_refl _

end Cursor

/-- What is left by a reader that was given `c`. -/
abbrev Remainder (c : Cursor) := { d : Cursor // d.length ≤ c.length }

def Reader (ε α : Type) : Type := (c : Cursor) → Except ε (α × Remainder c)

namespace Reader

variable {ε : Type}

protected def pure {α : Type} (a : α) : Reader ε α := fun c => .ok (a, ⟨c,Nat.le_refl _⟩)

protected def bind {α β : Type} (x : Reader ε α) (f : α → Reader ε β) : Reader ε β := fun c =>
  match x c with
  | .error e => .error e
  | .ok (a, ⟨d,hd⟩) =>
    match f a d with
    | .error e => .error e
    | .ok (b, ⟨r,hr⟩) => .ok (b, ⟨r,Nat.le_trans hr hd⟩)

instance : Monad (Reader ε) where
  pure := Reader.pure
  bind := Reader.bind

def fail {α : Type} (error : ε) : Reader ε α := fun _ => .error error

def ofExcept {α : Type} (x : Except ε α) : Reader ε α := fun c =>
  x.map fun a => (a, ⟨c,Nat.le_refl _⟩)

def cursor : Reader ε Cursor := fun c => .ok (c, ⟨c,Nat.le_refl _⟩)

def position : Reader ε Position := return (← cursor).pos

def head? : Reader ε (Option Char) := return (← cursor).rest.head?

def atEnd : Reader ε Bool := return (← cursor).rest.isEmpty

def isAt (x : Char) : Reader ε Bool := return (← head?) == some x

def here : Reader ε Span := return ⟨← position,← position⟩

def spanFrom (start : Position) : Reader ε Span := return ⟨start,← position⟩

def headSpan : Reader ε Span := do
  let c ← cursor
  return ⟨c.pos,c.next.pos⟩

def advance : Reader ε Unit := fun c => .ok ((), ⟨c.next,c.length_next⟩)

def skipBlanks : Reader ε Unit := fun c => .ok ((), ⟨c.skipBlanks,c.length_skipBlanks⟩)

/-- Takes a character and then any ignored blanks, and tells whether anything is left. -/
def advanceSkip : Reader ε Bool := do
  advance
  skipBlanks
  return !(← atEnd)

def setIgnoresBlanks (yes : Bool) : Reader ε Unit := fun c =>
  .ok ((), ⟨{ c with ignoresBlanks := yes },Nat.le_refl _⟩)

def accept (text : String) : Reader ε Bool := do
  if text.toList.isPrefixOf (← cursor).rest then
    text.toList.forM fun _ => advance
    return true
  else return false

/-- Takes nothing if `x` gives no result. -/
def attempt {α : Type} (x : Reader ε (Option α)) : Reader ε (Option α) := fun c =>
  match x c with
  | .ok (none, _) => .ok (none, ⟨c,Nat.le_refl _⟩)
  | r => r

/-- Takes characters as long as `f` accepts them, and any ignored blanks after each if `skips`
holds. `f` is given the character with its span. -/
def scan {σ : Type} (skips : Bool) (f : σ → Char → Span → Except ε (Option σ)) (s : σ)
    (c : Cursor) : Except ε (σ × Remainder c) :=
  match h : c.rest with
  | [] => .ok (s, ⟨c,Nat.le_refl _⟩)
  | x :: _ =>
    match f s x ⟨c.pos,c.next.pos⟩ with
    | .error e => .error e
    | .ok none => .ok (s, ⟨c,Nat.le_refl _⟩)
    | .ok (some s) =>
      let d := if skips then c.next.skipBlanks else c.next
      have hd : d.length < c.length := by
        have hn := Cursor.length_next_lt h
        have hs := Cursor.length_skipBlanks c.next
        simp only [d]
        split <;> omega
      match scan skips f s d with
      | .error e => .error e
      | .ok (s, ⟨r,hr⟩) => .ok (s, ⟨r,by omega⟩)
termination_by c.length

def takeWhile (skips : Bool) (test : Char → Bool) : Reader ε (List Char) := do
  let step (seen : List Char) (x : Char) (_ : Span) : Except ε (Option (List Char)) :=
    .ok (if test x then some (x :: seen) else none)
  let seen ← scan skips step []
  return seen.reverse

/-- Takes character after character: `onChar` goes on behind the character, whose start it is
given, and gives the state for the next round or the result; `onEnd` gives the result at the end
of the text. -/
def loop {σ β : Type} (onEnd : σ → Reader ε β) (onChar : σ → Char → Position → Reader ε (σ ⊕ β))
    (s : σ) (c : Cursor) : Except ε (β × Remainder c) :=
  match h : c.rest with
  | [] => onEnd s c
  | x :: _ =>
    have hn := Cursor.length_next_lt h
    match onChar s x c.pos c.next with
    | .error e => .error e
    | .ok (.inr b, ⟨d,hd⟩) => .ok (b, ⟨d,by omega⟩)
    | .ok (.inl s, ⟨d,hd⟩) =>
      have : d.length < c.length := by omega
      match loop onEnd onChar s d with
      | .error e => .error e
      | .ok (b, ⟨r,hr⟩) => .ok (b, ⟨r,by omega⟩)
termination_by c.length

def run {α : Type} (x : Reader ε α) (text : List Char) : Except ε α :=
  (x { rest := text }).map Prod.fst

end Reader
end ByteAutomata
