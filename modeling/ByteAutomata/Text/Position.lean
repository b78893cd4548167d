/-! # Positions in a text

A position counts bytes from zero, and lines and columns from one; a column is a character. -/
namespace ByteAutomata

structure Position where
  offset : Nat := 0
  line : Nat := 1
  column : Nat := 1
deriving DecidableEq

def Position.next (p : Position) (c : Char) : Position :=
  if c = '\n' then ⟨p.offset + c.utf8Size,p.line + 1,1⟩
  else ⟨p.offset + c.utf8Size,p.line,p.column + 1⟩

structure Span where
  start : Position
  finish : Position
deriving DecidableEq

end ByteAutomata
