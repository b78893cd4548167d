import ByteAutomata.Toml.Error

/-! # Blanks, comments and line ends

A line ends in a line feed, before which a carriage return may stand. A carriage return stands
nowhere else. -/
namespace ByteAutomata.Toml

open Reader
open TomlReader (unexpected)

/-- Whether a character may stand in a comment or, except for quotes, in a string. -/
def isTextChar (c : Char) : Bool := c == '\t' || (' ' ≤ c && c != '\x7f')

def isBlank (c : Char) : Bool := c == ' ' || c == '\t'

def skipSpaces : TomlReader Unit := do
  let _ ← takeWhile false isBlank

/-- Where the characters between two tokens have led. -/
inductive Gap where
  | plain
  | inComment
  | afterReturn
deriving DecidableEq

namespace Gap

def ofBreak? (x : Char) : Option Gap :=
  if x = '\n' then some plain
  else if x = '\r' then some afterReturn
  else if x = '#' then some inComment
  else none

def step (gap : Gap) (x : Char) (span : Span) : Except TomlError (Option Gap) :=
  match gap with
  | plain => .ok (if isBlank x then some plain else ofBreak? x)
  | afterReturn => if x = '\n' then .ok (some plain) else .error (.unexpected span.start)
  | inComment =>
    if x = '\n' then .ok (some plain)
    else if x = '\r' then .ok (some afterReturn)
    else if isTextChar x then .ok (some inComment)
    else .error (.unexpected span.start)

end Gap

def skipGap (start : Gap) : TomlReader Unit := do
  if (← scan false Gap.step start) = .afterReturn then unexpected

end ByteAutomata.Toml
