import ByteAutomata.Pattern.SyntaxError

/-! # Why a pattern has no tree -/
namespace ByteAutomata

/-- A class of characters beyond ASCII is listed character by character, up to this number. -/
def maxClassSize : Nat := 256

inductive PatternError where
  | syntaxError (error : SyntaxError)
  | unsupportedAssertion
  | emptyClass
  | classTooLarge
  | emptyPattern
deriving DecidableEq

def PatternError.message : PatternError → String
  | syntaxError error => error.message
  | unsupportedAssertion => "anchors and word boundaries are not supported"
  | emptyClass => "character class matches nothing"
  | classTooLarge =>
    "character class is too large (max: " ++ toString maxClassSize ++ " code points)"
  | emptyPattern => "pattern matches only the empty string"

end ByteAutomata
