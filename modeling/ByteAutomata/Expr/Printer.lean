import ByteAutomata.Expr.Basic
import ByteAutomata.Text.Numeral

/-! # The text of an expression

An expression is written as a nested list with the name of each form in front. -/
namespace ByteAutomata

def Assertion.name : Assertion → String
  | start => "Start"
  | finish => "End"
  | startLF => "StartLF"
  | finishLF => "EndLF"
  | startCRLF => "StartCRLF"
  | finishCRLF => "EndCRLF"
  | wordAscii => "WordAscii"
  | wordAsciiNegate => "WordAsciiNegate"
  | wordUnicode => "WordUnicode"
  | wordUnicodeNegate => "WordUnicodeNegate"
  | wordStartAscii => "WordStartAscii"
  | wordEndAscii => "WordEndAscii"
  | wordStartUnicode => "WordStartUnicode"
  | wordEndUnicode => "WordEndUnicode"
  | wordStartHalfAscii => "WordStartHalfAscii"
  | wordEndHalfAscii => "WordEndHalfAscii"
  | wordStartHalfUnicode => "WordStartHalfUnicode"
  | wordEndHalfUnicode => "WordEndHalfUnicode"

namespace Expr

def rangesText (width : Nat) (ranges : List (Nat × Nat)) : String :=
  String.join (ranges.map fun r =>
    " " ++ Numeral.lowerHex width r.1 ++ "-" ++ Numeral.lowerHex width r.2)

mutual

protected def toString : Expr → String
  | empty => "empty"
  | literal bytes => "(lit " ++ String.join (bytes.map fun b => Numeral.lowerHex 2 b.toNat) ++ ")"
  | byteClass set => "(bytes" ++ rangesText 2 set.ranges ++ ")"
  | charClass set => "(unicode" ++ rangesText 1 set.ranges ++ ")"
  | assertion a => "(look " ++ a.name ++ ")"
  | repetition min max greedy sub =>
    "(rep " ++ toString min ++ " " ++ (max.map toString).getD "inf"
      ++ (if greedy then " greedy " else " lazy ") ++ sub.toString ++ ")"
  | capture index name sub =>
    "(cap " ++ toString index ++ (name.map fun n => " <" ++ n ++ ">").getD "" ++ " "
      ++ sub.toString ++ ")"
  | concat items => "(cat" ++ itemsText items ++ ")"
  | alternation items => "(alt" ++ itemsText items ++ ")"

def itemsText : List Expr → String
  | [] => ""
  | e :: rest => " " ++ e.toString ++ itemsText rest

end

instance : ToString Expr := ⟨Expr.toString⟩

end Expr
end ByteAutomata
