import ByteAutomata.Text.Position

/-! # Parsed patterns

The structure of a pattern as it is written. Every part keeps the span that it was read from, for
the errors that are found only when the whole pattern is known. -/
namespace ByteAutomata.Pattern

structure Literal where
  span : Span
  char : Char
  /-- Whether the literal is written as a byte, with exactly two hexadecimal digits. -/
  isByte : Bool := false
deriving DecidableEq

inductive Flag where
  | caseInsensitive
  | multiLine
  | dotMatchesNewLine
  | swapGreed
  | unicode
  | crlf
  | ignoreWhitespace
deriving DecidableEq

abbrev FlagList := List (Flag × Bool)

def FlagList.value? (flags : FlagList) (flag : Flag) : Option Bool :=
  (flags.find? fun f => f.1 = flag).map Prod.snd

inductive AsciiKind where
  | alnum
  | alpha
  | ascii
  | blank
  | cntrl
  | digit
  | graph
  | lower
  | print
  | punct
  | space
  | upper
  | word
  | xdigit
deriving DecidableEq

/-- The classes that are named by a letter behind a backslash. -/
inductive ShorthandKind where
  | digit
  | space
  | word
deriving DecidableEq

inductive AssertionKind where
  | startLine
  | endLine
  | startText
  | endText
  | wordBoundary
  | notWordBoundary
  | wordStart
  | wordEnd
  | wordStartHalf
  | wordEndHalf
deriving DecidableEq

inductive SetOperation where
  | intersection
  | difference
  | symmetricDifference
deriving DecidableEq

mutual

inductive ClassItem where
  | empty (span : Span)
  | literal (lit : Literal)
  | range (span : Span) (lo hi : Literal)
  | ascii (span : Span) (kind : AsciiKind) (negated : Bool)
  | property (span : Span) (name : String) (negated : Bool)
  | shorthand (span : Span) (kind : ShorthandKind) (negated : Bool)
  | bracketed (span : Span) (negated : Bool) (set : ClassSet)
  | union (span : Span) (items : List ClassItem)

inductive ClassSet where
  | item (item : ClassItem)
  | operation (span : Span) (op : SetOperation) (left right : ClassSet)

end

def ClassItem.span : ClassItem → Span
  | empty span => span
  | literal lit => lit.span
  | range span .. => span
  | ascii span .. => span
  | property span .. => span
  | shorthand span .. => span
  | bracketed span .. => span
  | union span _ => span

def ClassSet.span : ClassSet → Span
  | item i => i.span
  | operation span .. => span

structure Count where
  min : Nat
  max : Option Nat
deriving DecidableEq

inductive GroupKind where
  | capture (index : Nat) (name : Option String)
  | flags (flags : FlagList)
deriving DecidableEq

inductive Ast where
  | empty (span : Span)
  | flags (span : Span) (flags : FlagList)
  | literal (lit : Literal)
  | dot (span : Span)
  | assertion (span : Span) (kind : AssertionKind)
  | propertyClass (span : Span) (name : String) (negated : Bool)
  | shorthandClass (span : Span) (kind : ShorthandKind) (negated : Bool)
  | bracketed (span : Span) (negated : Bool) (set : ClassSet)
  | repetition (span : Span) (count : Count) (greedy : Bool) (sub : Ast)
  | group (span : Span) (kind : GroupKind) (sub : Ast)
  | alternation (span : Span) (items : List Ast)
  | concat (span : Span) (items : List Ast)

def Ast.span : Ast → Span
  | empty span => span
  | flags span _ => span
  | literal lit => lit.span
  | dot span => span
  | assertion span _ => span
  | propertyClass span .. => span
  | shorthandClass span .. => span
  | bracketed span .. => span
  | repetition span .. => span
  | group span .. => span
  | alternation span _ => span
  | concat span _ => span

end ByteAutomata.Pattern
