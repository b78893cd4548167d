import ByteAutomata.Expr.Build
import ByteAutomata.Pattern.Ast
import ByteAutomata.Pattern.SyntaxError
import ByteAutomata.Unicode.Blank
import ByteAutomata.Unicode.CaseFold
import ByteAutomata.Unicode.Digit
import ByteAutomata.Unicode.Property
import ByteAutomata.Unicode.Word

/-! # The meaning of a pattern

Flags, cases and named classes are resolved from the first item to the last: flags that are set
somewhere hold up to the end of the group around, other alternatives included. Bytes are the unit
of everything that is written while the Unicode flag is cleared, and characters are the unit
otherwise. -/
namespace ByteAutomata.Pattern

structure Flags where
  caseInsensitive : Bool := false
  multiLine : Bool := false
  dotMatchesNewLine : Bool := false
  swapGreed : Bool := false
  unicode : Bool := false
  crlf : Bool := false
  /-- The classes that properties name, which no flag changes. -/
  properties : Unicode.PropertyTable := []
deriving DecidableEq

def Flags.set (flags : Flags) : Flag × Bool → Flags
  | (.caseInsensitive, yes) => { flags with caseInsensitive := yes }
  | (.multiLine, yes) => { flags with multiLine := yes }
  | (.dotMatchesNewLine, yes) => { flags with dotMatchesNewLine := yes }
  | (.swapGreed, yes) => { flags with swapGreed := yes }
  | (.unicode, yes) => { flags with unicode := yes }
  | (.crlf, yes) => { flags with crlf := yes }
  | (.ignoreWhitespace, _) => flags

def Flags.update (flags : Flags) (list : FlagList) : Flags := list.foldl Flags.set flags

structure Alphabet (p : Points) where
  number : Literal → Except SyntaxError Nat
  shorthand : ShorthandKind → List (Nat × Nat)
  property : Span → String → Except SyntaxError (Intervals p)
  caseGroups : List (List Nat)

def AsciiKind.ranges : AsciiKind → List (Nat × Nat)
  | alnum => [(0x30, 0x39), (0x41, 0x5A), (0x61, 0x7A)]
  | alpha => [(0x41, 0x5A), (0x61, 0x7A)]
  | ascii => [(0x00, 0x7F)]
  | blank => [(0x09, 0x09), (0x20, 0x20)]
  | cntrl => [(0x00, 0x1F), (0x7F, 0x7F)]
  | digit => [(0x30, 0x39)]
  | graph => [(0x21, 0x7E)]
  | lower => [(0x61, 0x7A)]
  | print => [(0x20, 0x7E)]
  | punct => [(0x21, 0x2F), (0x3A, 0x40), (0x5B, 0x60), (0x7B, 0x7E)]
  | space => [(0x09, 0x0D), (0x20, 0x20)]
  | upper => [(0x41, 0x5A)]
  | word => [(0x30, 0x39), (0x41, 0x5A), (0x5F, 0x5F), (0x61, 0x7A)]
  | xdigit => [(0x30, 0x39), (0x41, 0x46), (0x61, 0x66)]

def ShorthandKind.asciiKind : ShorthandKind → AsciiKind
  | digit => .digit
  | space => .space
  | word => .word

namespace Alphabet

def byteOf (lit : Literal) : Except SyntaxError Nat :=
  if lit.isByte ∨ lit.char.toNat < 0x80 then .ok lit.char.toNat
  else .error ⟨.unicodeNotAllowed,lit.span⟩

def bytes : Alphabet .bytes where
  number := byteOf
  shorthand kind := kind.asciiKind.ranges
  property span _ := .error ⟨.unicodeNotAllowed,span⟩
  caseGroups := (List.range 26).map fun i => [0x41 + i, 0x61 + i]

def chars (properties : Unicode.PropertyTable) : Alphabet .chars where
  number lit := .ok lit.char.toNat
  shorthand
    | .digit => Unicode.digitRanges
    | .space => Unicode.blankRanges
    | .word => Unicode.wordRanges
  property span name :=
    match properties.lookup name with
    | some (some ranges) => .ok (.ofRanges (ranges.map fun r => (r.1.toNat, r.2.toNat)))
    | some none => .error ⟨.unicodePropertyValueNotFound,span⟩
    | none => .error ⟨.unicodePropertyNotFound,span⟩
  caseGroups := Unicode.caseGroups

variable {p : Points}

/-- The least set around `s` that holds every case group that it meets. -/
def fold (a : Alphabet p) (s : Intervals p) : Intervals p :=
  let met := a.caseGroups.filter fun group => group.any s.contains
  .ofRanges (s.ranges ++ met.flatten.map fun n => (n, n))

/-- A class in which cases may be ignored, and which may be negated after that. -/
def finish (a : Alphabet p) (folds negated : Bool) (s : Intervals p) : Intervals p :=
  let s := if folds then a.fold s else s
  if negated then s.compl else s

def operate (a : Alphabet p) (folds : Bool) (op : SetOperation) (s t : Intervals p) :
    Intervals p :=
  let s := if folds then a.fold s else s
  let t := if folds then a.fold t else t
  match op with
  | .intersection => s.inter t
  | .difference => s.diff t
  | .symmetricDifference => s.symmDiff t

def shorthandClass (a : Alphabet p) (kind : ShorthandKind) (negated : Bool) : Intervals p :=
  a.finish false negated (.ofRanges (a.shorthand kind))

def propertyClass (a : Alphabet p) (folds : Bool) (span : Span) (name : String) (negated : Bool) :
    Except SyntaxError (Intervals p) := do
  return a.finish folds negated (← a.property span name)

end Alphabet

mutual

/-- The members that an item stands for; `folds` tells whether cases are ignored. -/
def ClassItem.members {p : Points} (a : Alphabet p) (folds : Bool) :
    ClassItem → Except SyntaxError (Intervals p)
  | .empty _ => .ok .empty
  | .literal lit => do return .singleton (← a.number lit)
  | .range _ lo hi => do return .ofRanges [(← a.number lo, ← a.number hi)]
  | .ascii _ kind negated => .ok (a.finish folds negated (.ofRanges kind.ranges))
  | .property span name negated => a.propertyClass folds span name negated
  | .shorthand _ kind negated => .ok (a.shorthandClass kind negated)
  | .bracketed _ negated set => do return a.finish folds negated (← set.members a folds)
  | .union _ items => unionOfMembers a folds items

def ClassSet.members {p : Points} (a : Alphabet p) (folds : Bool) :
    ClassSet → Except SyntaxError (Intervals p)
  | .item i => i.members a folds
  | .operation _ op left right => do
    let s ← left.members a folds
    let t ← right.members a folds
    return a.operate folds op s t

def unionOfMembers {p : Points} (a : Alphabet p) (folds : Bool) :
    List ClassItem → Except SyntaxError (Intervals p)
  | [] => .ok .empty
  | item :: rest => do
    let s ← item.members a folds
    let t ← unionOfMembers a folds rest
    return s.union t

end

namespace Flags

def literal (flags : Flags) (lit : Literal) : Expr :=
  let n := lit.char.toNat
  if flags.unicode then
    let s : CharClass := .singleton n
    if flags.caseInsensitive then .ofCharClass ((Alphabet.chars flags.properties).fold s)
    else .literal (Utf8.encode n)
  else if lit.isByte ∧ 0x80 ≤ n then .literal [UInt8.ofNat n]
  else if flags.caseInsensitive ∧ n < 0x80 then
    .ofByteClass (Alphabet.bytes.fold (.singleton n))
  else .literal (Utf8.encode n)

def dot (flags : Flags) : Expr :=
  let exceptions :=
    if flags.dotMatchesNewLine then []
    else if flags.crlf then [(0x0A, 0x0A), (0x0D, 0x0D)]
    else [(0x0A, 0x0A)]
  if flags.unicode then .ofCharClass (Intervals.ofRanges exceptions).compl
  else .ofByteClass (Intervals.ofRanges exceptions).compl

def assertion (flags : Flags) (kind : AssertionKind) : Assertion :=
  let line (whole lf crlf : Assertion) : Assertion :=
    if flags.multiLine then if flags.crlf then crlf else lf else whole
  let word (ascii unicode : Assertion) : Assertion := if flags.unicode then unicode else ascii
  match kind with
  | .startLine => line .start .startLF .startCRLF
  | .endLine => line .finish .finishLF .finishCRLF
  | .startText => .start
  | .endText => .finish
  | .wordBoundary => word .wordAscii .wordUnicode
  | .notWordBoundary => word .wordAsciiNegate .wordUnicodeNegate
  | .wordStart => word .wordStartAscii .wordStartUnicode
  | .wordEnd => word .wordEndAscii .wordEndUnicode
  | .wordStartHalf => word .wordStartHalfAscii .wordStartHalfUnicode
  | .wordEndHalf => word .wordEndHalfAscii .wordEndHalfUnicode

def shorthandClass (flags : Flags) (kind : ShorthandKind) (negated : Bool) : Expr :=
  if flags.unicode then
    .ofCharClass ((Alphabet.chars flags.properties).shorthandClass kind negated)
  else .ofByteClass (Alphabet.bytes.shorthandClass kind negated)

def propertyClass (flags : Flags) (span : Span) (name : String) (negated : Bool) :
    Except SyntaxError Expr := do
  let folds := flags.caseInsensitive
  if flags.unicode then
    return .ofCharClass
      (← (Alphabet.chars flags.properties).propertyClass folds span name negated)
  else return .ofByteClass (← Alphabet.bytes.propertyClass folds span name negated)

def bracketed (flags : Flags) (negated : Bool) (set : ClassSet) : Except SyntaxError Expr := do
  let folds := flags.caseInsensitive
  if flags.unicode then
    let s ← set.members (Alphabet.chars flags.properties) folds
    return .ofCharClass ((Alphabet.chars flags.properties).finish folds negated s)
  else
    let s ← set.members Alphabet.bytes folds
    return .ofByteClass (Alphabet.bytes.finish folds negated s)

end Flags

mutual

/-- The expression of a part, and the flags that hold behind it. -/
def Ast.toExpr (flags : Flags) : Ast → Except SyntaxError (Expr × Flags)
  | .empty _ => .ok (.empty, flags)
  | .flags _ list => .ok (.empty, flags.update list)
  | .literal lit => .ok (flags.literal lit, flags)
  | .dot _ => .ok (flags.dot, flags)
  | .assertion _ kind => .ok (.assertion (flags.assertion kind), flags)
  | .propertyClass span name negated => do
    return (← flags.propertyClass span name negated, flags)
  | .shorthandClass _ kind negated => .ok (flags.shorthandClass kind negated, flags)
  | .bracketed _ negated set => do return (← flags.bracketed negated set, flags)
  | .repetition _ count greedy sub => do
    let (e, flags) ← sub.toExpr flags
    return (.repeated count.min count.max (greedy != flags.swapGreed) e, flags)
  | .group _ (.flags list) sub => do return ((← sub.toExpr (flags.update list)).1, flags)
  | .group _ (.capture index name) sub => do
    return (.capture index name (← sub.toExpr flags).1, flags)
  | .alternation _ items => do
    let (es, flags) ← toExprs flags items
    return (.choice es, flags)
  | .concat _ items => do
    let (es, flags) ← toExprs flags items
    return (.sequence es, flags)

def toExprs (flags : Flags) : List Ast → Except SyntaxError (List Expr × Flags)
  | [] => .ok ([], flags)
  | ast :: rest => do
    let (e, flags) ← ast.toExpr flags
    let (es, flags) ← toExprs flags rest
    return (e :: es, flags)

end

end ByteAutomata.Pattern
