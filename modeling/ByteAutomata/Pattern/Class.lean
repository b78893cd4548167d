import ByteAutomata.Pattern.Escape

/-! # Classes in brackets

A class lists characters, ranges, named classes and further classes, and combines such lists with
`&&`, `--` and `~~`, which all associate to the left. The readers of this file start behind the
character named in their comments. -/
namespace ByteAutomata.Pattern

open Reader hiding fail
open PatternReader (fail)
open Unicode (isBlank)

structure ItemList where
  span : Span
  items : List ClassItem := []

namespace ItemList

def push (l : ItemList) (item : ClassItem) : ItemList :=
  let start := if l.items.isEmpty then item.span.start else l.span.start
  { span := ⟨start,item.span.finish⟩, items := item :: l.items }

def toItem (l : ItemList) : ClassItem :=
  match l.items with
  | [] => .empty l.span
  | [item] => item
  | items => .union l.span items.reverse

end ItemList

structure OpenClass where
  span : Span
  negated : Bool
  /-- The operator whose right operand is being read, with its left operand. -/
  pending : Option (SetOperation × ClassSet) := none
  list : ItemList

namespace OpenClass

def push (c : OpenClass) (item : ClassItem) : OpenClass := { c with list := c.list.push item }

def toSet (c : OpenClass) : ClassSet :=
  let right := ClassSet.item c.list.toItem
  match c.pending with
  | none => right
  | some (op, left) => .operation ⟨left.span.start,right.span.finish⟩ op left right

end OpenClass

def asciiKind? (name : String) : Option AsciiKind :=
  [("alnum", .alnum), ("alpha", .alpha), ("ascii", .ascii), ("blank", .blank), ("cntrl", .cntrl),
    ("digit", .digit), ("graph", .graph), ("lower", .lower), ("print", .print),
    ("punct", .punct), ("space", .space), ("upper", .upper), ("word", .word),
    ("xdigit", AsciiKind.xdigit)].lookup name

def asciiClass (start : Position) : PatternReader (Option ClassItem) := attempt do
  if !(← accept ":") then return none
  let negated ← accept "^"
  let name ← takeWhile false (· != ':')
  if !(← accept ":]") then return none
  match asciiKind? (String.ofList name) with
  | some kind => return some (.ascii (← spanFrom start) kind negated)
  | none => return none

def hyphenStep (list : ItemList) (x : Char) (span : Span) : Except SyntaxError (Option ItemList) :=
  .ok (if x = '-' then some (list.push (.literal { span, char := x })) else none)

/-- The beginning of a class, behind its bracket. Hyphens in front stand for themselves, and so
does a bracket that comes first. -/
def openClass (start : Position) : PatternReader OpenClass := do
  skipBlanks
  if ← atEnd then fail .classUnclosed (← spanFrom start)
  let negated ← isAt '^'
  if negated then
    if !(← advanceSkip) then fail .classUnclosed (← spanFrom start)
  let list ← scan true hyphenStep { span := ← here }
  if ← atEnd then fail .classUnclosed ⟨start,start⟩
  if list.items.isEmpty ∧ (← isAt ']') = true then
    let list := list.push (.literal { span := ← headSpan, char := ']' })
    if !(← advanceSkip) then fail .classUnclosed (← spanFrom start)
    return { span := ← spanFrom start, negated, list }
  return { span := ← spanFrom start, negated, list }

def classPrimitive (start : Position) (x : Char) : PatternReader Primitive := do
  if x = '\\' then escape start
  else return .literal { span := ← spanFrom start, char := x }

def Primitive.toClassItem : Primitive → Except SyntaxError ClassItem
  | literal lit => .ok (.literal lit)
  | shorthand span kind negated => .ok (.shorthand span kind negated)
  | property span name negated => .ok (.property span name negated)
  | p => .error ⟨.classEscapeInvalid,p.span⟩

def Primitive.toRangeEnd : Primitive → Except SyntaxError Literal
  | literal lit => .ok lit
  | p => .error ⟨.classRangeLiteral,p.span⟩

/-- The character behind the next one that tells whether a hyphen joins a range. Where blanks are
ignored, it is the first one that is not blank, the sign of one comment aside; if nothing else
comes, it is whatever follows at once. -/
def afterHyphen? (c : Cursor) : Option Char :=
  let rest := c.rest.tail
  if c.ignoresBlanks then
    let visible :=
      match rest.dropWhile isBlank with
      | '#' :: comment => comment.dropWhile isBlank
      | other => other
    visible.head?.or rest.head?
  else rest.head?

/-- An item or a range, behind its first character. `whole` is the span of the class so far. -/
def classRange (whole : Span) (start : Position) (x : Char) : PatternReader ClassItem := do
  let first ← classPrimitive start x
  skipBlanks
  if ← atEnd then fail .classUnclosed whole
  let after := afterHyphen? (← cursor)
  if (← isAt '-') = false ∨ after = some ']' ∨ after = some '-' then
    ofExcept first.toClassItem
  else
    if !(← advanceSkip) then fail .classUnclosed whole
    match ← head? with
    | none => fail .classUnclosed whole
    | some y =>
      let secondStart ← position
      advance
      let second ← classPrimitive secondStart y
      let lo ← ofExcept first.toRangeEnd
      let hi ← ofExcept second.toRangeEnd
      let span : Span := ⟨first.span.start,second.span.finish⟩
      if lo.char ≤ hi.char then return .range span lo hi else fail .classRangeInvalid span

/-- The class that is being read, and the ones around it, from the inside out. -/
abbrev ClassStack := OpenClass × List OpenClass

def setOperation? : Char → Option SetOperation
  | '&' => some .intersection
  | '-' => some .difference
  | '~' => some .symmetricDifference
  | _ => none

def closeClass : ClassStack → PatternReader (ClassStack ⊕ Ast)
  | (c, outer) => do
    let span ← spanFrom c.span.start
    match outer with
    | [] => return .inr (.bracketed span c.negated c.toSet)
    | around :: further =>
      return .inl (around.push (.bracketed span c.negated c.toSet), further)

def classStep (stack : ClassStack) (x : Char) (start : Position) :
    PatternReader (ClassStack ⊕ Ast) := do
  let (c, outer) := stack
  if x = '[' then
    match ← asciiClass start with
    | some item => return .inl (c.push item, outer)
    | none => return .inl (← openClass start, c :: outer)
  else if x = ']' then closeClass stack
  else
    match setOperation? x, ← isAt x with
    | some op, true =>
      advance
      return .inl ({ c with pending := some (op, c.toSet), list := { span := ← here } }, outer)
    | _, _ => return .inl (c.push (← classRange c.span start x), outer)

def bracketed (start : Position) : PatternReader Ast := do
  let c ← openClass start
  skipBlanks
  let onEnd (stack : ClassStack) : PatternReader Ast := fail .classUnclosed stack.1.span
  let onChar (stack : ClassStack) (x : Char) (start : Position) :
      PatternReader (ClassStack ⊕ Ast) := do
    match ← classStep stack x start with
    | .inl stack =>
      skipBlanks
      return .inl stack
    | .inr ast => return .inr ast
  loop onEnd onChar (c, [])

end ByteAutomata.Pattern
