import ByteAutomata.Encoding
import ByteAutomata.Unicode.Property

/-! # Settings

How patterns are read and how their automata are built. -/
namespace ByteAutomata

structure BuilderSettings where
  /-- When false, an ASCII letter stands for both of its cases. -/
  caseSensitive : Bool := true
  encoding : Encoding := .ascii
  sizeHint : Nat := 0
deriving DecidableEq

structure PatternSettings where
  dotMatchesNewLine : Bool := true
  /-- Whether the pattern is plain text, in which no character has a special meaning. -/
  fixedString : Bool := false
  /-- What classes such as `\p{Greek}` name. -/
  properties : Unicode.PropertyTable := []
deriving DecidableEq

structure Settings where
  builder : BuilderSettings := {}
  pattern : PatternSettings := {}
deriving DecidableEq

end ByteAutomata
