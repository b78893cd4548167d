import ByteAutomata.Text.Quoted
import ByteAutomata.Toml.Value
import ByteAutomata.Toml.Error

/-! # Why settings cannot be read -/
namespace ByteAutomata

def Toml.Value.description : Toml.Value → String
  | boolean b => "bool " ++ toString b
  | integer n => "signed int `" ++ toString n ++ "`"
  | float x => "float `" ++ toString x ++ "`"
  | string text => "string " ++ Quoted.encode text
  | list _ => "sequence"
  | moment _ | table _ => "map"

/-- How a value differs from what a setting takes. -/
inductive Mismatch where
  | invalidType (found expected : String)
  | invalidValue (found expected : String)
  | unknownVariant (found : String) (known : List String)
deriving DecidableEq

def Mismatch.message : Mismatch → String
  | invalidType found expected => "invalid type: found " ++ found ++ ", expected " ++ expected
  | invalidValue found expected => "invalid value " ++ found ++ ", expected " ++ expected
  | unknownVariant found known =>
    "unknown variant: found `" ++ found ++ "`, expected `one of " ++
      ", ".intercalate (known.map fun name => "`" ++ name ++ "`") ++ "`"

inductive SettingsError where
  | missing
  | malformed (error : TomlError)
  | mismatch (path : List String) (cause : Mismatch)
deriving DecidableEq

/-- The same error for a value that lies under `key`. -/
def SettingsError.under (key : String) : SettingsError → SettingsError
  | mismatch path cause => mismatch (key :: path) cause
  | error => error

end ByteAutomata
