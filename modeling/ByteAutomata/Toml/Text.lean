import ByteAutomata.Text.Hex
import ByteAutomata.Toml.Blank

/-! # Quoted strings

A string stands between double quotes, inside which a backslash starts an escape, or between
single quotes, inside which every character stands for itself. Between tripled quotes it may have
line ends and lone quotes; a line end right behind the opening quotes does not count. -/
namespace ByteAutomata.Toml

open Reader
open TomlReader (unexpected)

def escapedCode (count : Nat) (start : Position) : TomlReader Char := do
  let digits := (← cursor).rest.take count
  digits.forM fun _ => advance
  if digits.length < count ∨ !digits.all Hex.isDigit then fail (.invalid start)
  match Hex.char? digits with
  | some c => return c
  | none => fail (.invalid start)

def escape (start : Position) : TomlReader Char := do
  let letter ← head?
  advance
  match letter with
  | some 'b' => return '\x08'
  | some 't' => return '\t'
  | some 'n' => return '\n'
  | some 'f' => return '\x0c'
  | some 'r' => return '\r'
  | some '"' => return '"'
  | some '\\' => return '\\'
  | some 'u' => escapedCode 4 start
  | some 'U' => escapedCode 8 start
  | _ => fail (.invalid start)

def hasEscapes (quote : Char) : Bool := quote == '"'

def lineText (quote : Char) : TomlReader String :=
  loop (fun _ => unexpected) (fun seen x start => do
    if x = quote then return .inr (String.ofList seen.reverse)
    else if x = '\\' ∧ hasEscapes quote then return .inl ((← escape start) :: seen)
    else if isTextChar x then return .inl (x :: seen)
    else fail (.unexpected start)) []

def acceptLineEnd : TomlReader Bool := do
  if ← accept "\n" then return true else accept "\r\n"

/-- Takes a line end, any blanks before it, and all blanks and line ends behind it. -/
def acceptFold : TomlReader Bool := do
  let fold ← attempt do
    skipSpaces
    if ← acceptLineEnd then return some () else return none
  if fold.isSome then
    let step (afterReturn : Bool) (x : Char) (span : Span) : Except TomlError (Option Bool) :=
      if x = '\n' then .ok (some false)
      else if afterReturn then .error (.unexpected span.start)
      else if x = '\r' then .ok (some true)
      else .ok (if isBlank x then some false else none)
    if ← scan false step false then unexpected
  return fold.isSome

/-- The quotes that follow the first one: two more end the string, and up to two that follow those
belong to it. -/
def quoteRun (quote : Char) : TomlReader (Nat × Bool) := do
  let two := String.ofList [quote, quote]
  if ← accept two then
    if ← accept two then return (2, true)
    else if ← accept (String.singleton quote) then return (1, true)
    else return (0, true)
  else return (1, false)

/-- The rest of a string that ends in tripled quotes. -/
def blockText (quote : Char) : TomlReader String := do
  let _ ← acceptLineEnd
  loop (fun _ => unexpected) (fun seen x start => do
    if x = quote then
      let (count, ends) ← quoteRun quote
      let seen := List.replicate count quote ++ seen
      return if ends then .inr (String.ofList seen.reverse) else .inl seen
    else if x = '\\' ∧ hasEscapes quote then
      if ← acceptFold then return .inl seen else return .inl ((← escape start) :: seen)
    else if x = '\r' then
      if ← accept "\n" then return .inl ('\n' :: seen) else fail (.unexpected start)
    else if x = '\n' ∨ isTextChar x then return .inl (x :: seen)
    else fail (.unexpected start)) []

def stringText (quote : Char) : TomlReader String := do
  advance
  if ← accept (String.ofList [quote, quote]) then blockText quote else lineText quote

end ByteAutomata.Toml
