import ByteAutomata.Toml.Moment
import ByteAutomata.Toml.Table
import ByteAutomata.Toml.Text

/-! # Reading TOML documents

A document is a sequence of lines. Each is empty, opens a table, or gives a key its value. -/
namespace ByteAutomata.Toml

open Reader
open TomlReader (unexpected nestLimitExceeded expect)

/-- Keys have fewer parts than this, and values fewer levels. -/
def nestLimit : Nat := 80

/-! ## Keys -/

def isBareKeyChar (c : Char) : Bool := c.isAlphanum || c == '_' || c == '-'

def keyPart : TomlReader String := do
  match ← head? with
  | some '"' => advance; lineText '"'
  | some '\'' => advance; lineText '\''
  | _ =>
    let name ← takeWhile false isBareKeyChar
    if name.isEmpty then unexpected else return String.ofList name

def keyPath (count : Nat) : TomlReader KeyPath :=
  match count with
  | 0 => nestLimitExceeded
  | count + 1 => do
    skipSpaces
    let part ← keyPart
    skipSpaces
    if ← accept "." then
      let path ← keyPath count
      return { path with parents := part :: path.parents }
    else return { last := part }

def key : TomlReader KeyPath := keyPath (nestLimit - 1)

/-! ## Values -/

def isWordChar (c : Char) : Bool :=
  c.isAlphanum || c == '+' || c == '-' || c == '.' || c == ':' || c == '_'

def wordValue? (word : List Char) : Option Value :=
  if word = "true".toList then some (.boolean true)
  else if word = "false".toList then some (.boolean false)
  else if Moment.isMoment word then some (.moment (String.ofList word))
  else ((integer? word).map Value.integer).or ((float? word).map Value.float)

def timeAfterBlank : TomlReader (Option (List Char)) :=
  attempt do
    if ← accept " " then
      let time ← takeWhile false isWordChar
      return if Moment.isZonedTime time then some time else none
    else return none

def word : TomlReader Value := do
  let start ← position
  let text ← takeWhile false isWordChar
  match wordValue? text with
  | none => fail (.invalid start)
  | some v =>
    if Moment.isDate text then
      match ← timeAfterBlank with
      | some time => return .moment (String.ofList (text ++ ' ' :: time))
      | none => return v
    else return v

/-- The rest of a list, whose items are separated by commas; a comma may follow the last one. -/
def listItems (item : TomlReader Value) : TomlReader (List Value) := do
  let spacedItem : TomlReader Value := do
    let v ← item
    skipGap .plain
    return v
  skipGap .plain
  if ← accept "]" then return []
  let first ← spacedItem
  loop (fun _ => unexpected) (fun seen x start => do
    if x = ']' then return .inr seen.reverse
    else if x != ',' then fail (.unexpected start)
    else
      skipGap .plain
      if ← accept "]" then return .inr seen.reverse else return .inl ((← spacedItem) :: seen))
    [first]

def entry (item : TomlReader Value) : TomlReader (KeyPath × Value) := do
  let path ← key
  expect "="
  skipSpaces
  let v ← item
  skipSpaces
  return (path, v)

/-- The rest of a table between braces, which stands on one line. -/
def tableEntries (item : TomlReader Value) : TomlReader (List (String × Value)) := do
  let withEntry (items : Items) : TomlReader Items := do
    let (path, v) ← entry item
    ofExcept (items.insert path v)
  skipSpaces
  if ← accept "\x7d" then return []
  let first ← withEntry []
  loop (fun _ => unexpected) (fun items x start => do
    if x = '\x7d' then return .inr (entriesOf items)
    else if x = ',' then return .inl (← withEntry items)
    else fail (.unexpected start)) first

def value (depth : Nat) : TomlReader Value := do
  match ← head? with
  | some '"' => return .string (← stringText '"')
  | some '\'' => return .string (← stringText '\'')
  | some '[' =>
    match depth with
    | 0 => nestLimitExceeded
    | depth + 1 => do
      advance
      return .list (← listItems (value depth))
  | some '\x7b' =>
    match depth with
    | 0 => nestLimitExceeded
    | depth + 1 => do
      advance
      return .table (← tableEntries (value depth))
  | _ => word

/-! ## Documents -/

def header (d : Document) : TomlReader Document := do
  if ← accept "[" then
    let path ← key
    expect "]]"
    ofExcept (d.openElement path)
  else
    let path ← key
    expect "]"
    ofExcept (d.openTable path)

def statement (d : Document) : TomlReader Document := do
  if ← atEnd then return d
  else if ← accept "[" then
    let d ← header d
    skipSpaces
    return d
  else
    let (path, v) ← entry (value (nestLimit - 1))
    ofExcept (d.insert path v)

def document : TomlReader Document := do
  let _ ← accept "\ufeff"
  skipGap .plain
  let first ← statement {}
  loop pure (fun d x start => do
    match Gap.ofBreak? x with
    | none => fail (.unexpected start)
    | some gap =>
      skipGap gap
      return .inl (← statement d)) first

def parse (text : String) : Except TomlError (List (String × Value)) := do
  return entriesOf (← document.run text.toList).items

end ByteAutomata.Toml
