import ByteAutomata.Text.Numeral
import ByteAutomata.Unicode.Printable

/-! # Quoted text

Text in double quotes, in which a character that cannot be shown is written by its code. -/
namespace ByteAutomata.Quoted

def charText (c : Char) : String :=
  if c = '\t' then "\\t"
  else if c = '\n' then "\\n"
  else if c = '\r' then "\\r"
  else if c = '\x00' then "\\0"
  else if c = '\\' ∨ c = '"' then String.ofList ['\\', c]
  else if Unicode.isPrintable c then String.singleton c
  else "\\u\x7b" ++ Numeral.lowerHex 1 c.toNat ++ "\x7d"

def encode (text : String) : String := "\"" ++ String.join (text.toList.map charText) ++ "\""

end ByteAutomata.Quoted
