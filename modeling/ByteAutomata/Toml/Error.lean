import ByteAutomata.Text.Reader

/-! # What is wrong with a TOML document -/
namespace ByteAutomata

inductive TomlError where
  /-- No rule accepts what stands at this position. -/
  | unexpected (pos : Position)
  | invalid (start : Position)
  | nestLimitExceeded (pos : Position)
  /-- A table is opened twice, or a key has a value already. -/
  | redefined (key : String)
deriving DecidableEq

abbrev TomlReader := Reader TomlError

namespace TomlReader

def unexpected {α : Type} : TomlReader α := do Reader.fail (.unexpected (← Reader.position))

def nestLimitExceeded {α : Type} : TomlReader α := do
  Reader.fail (.nestLimitExceeded (← Reader.position))

def expect (text : String) : TomlReader Unit := do
  if !(← Reader.accept text) then unexpected

end TomlReader
end ByteAutomata
