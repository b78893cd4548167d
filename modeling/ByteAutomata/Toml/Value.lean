import ByteAutomata.Text.Binary64

/-! # Values of a TOML document -/
namespace ByteAutomata.Toml

inductive Value where
  | boolean (b : Bool)
  | integer (n : Int)
  | float (x : Binary64)
  | string (text : String)
  | moment (text : String)
  | list (items : List Value)
  | table (entries : List (String × Value))

/-- The key under which the table that stands for a moment has the moment's text. -/
def momentKey : String := "$__toml_private_datetime"

def Value.entries? : Value → Option (List (String × Value))
  | table entries => some entries
  | moment text => some [(momentKey, string text)]
  | _ => none

end ByteAutomata.Toml
