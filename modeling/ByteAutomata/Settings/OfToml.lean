import ByteAutomata.Settings.Basic
import ByteAutomata.Settings.Error
import ByteAutomata.Toml.Parser

/-! # Settings in TOML

Settings that a document leaves out have their defaults, and keys that name no setting are
ignored. A group of settings is a table, or a list of their values in order. -/
namespace ByteAutomata

open Toml (Value)

abbrev Decoder (α : Type) := Value → Except SettingsError α

namespace Decoder

def mismatch {α : Type} (cause : Mismatch) : Except SettingsError α := .error (.mismatch [] cause)

def invalidType {α : Type} (v : Value) (expected : String) : Except SettingsError α :=
  mismatch (.invalidType v.description expected)

def boolean : Decoder Bool
  | .boolean b => .ok b
  | v => invalidType v "a boolean"

def natural : Decoder Nat
  | .integer n =>
    if 0 ≤ n then .ok n.toNat
    else mismatch (.invalidValue (Value.integer n).description "usize")
  | v => invalidType v "usize"

def encodingNamed (name : String) : Except SettingsError Encoding :=
  match Encoding.ofSettingName? name with
  | some e => .ok e
  | none => mismatch (.unknownVariant name (Encoding.all.map Encoding.settingName))

/-- The entry whose key comes first in the order of keys. -/
def firstEntry? (entries : List (String × Value)) : Option (String × Value) :=
  (entries.mergeSort fun a b => a.1 ≤ b.1).head?

/-- An encoding is given by its name. The first key of a table is taken for a name too, but it
would need a value without content, and there is none. -/
def encoding : Decoder Encoding
  | .string name => encodingNamed name
  | v =>
    match v.entries? with
    | none => invalidType v "enum EncodingKind"
    | some entries =>
      match firstEntry? entries with
      | none => invalidType v "enum"
      | some (key, inner) =>
        (encodingNamed key >>= fun _ => invalidType inner "unit").mapError (·.under key)

def find? (index : Nat) (name : String) (group : Value) : Option (String × Value) :=
  match group with
  | .list items => items[index]?.map (toString index, ·)
  | v => do (name, ·) <$> (← v.entries?).lookup name

def setting {α : Type} (index : Nat) (name : String) (decode : Decoder α) (default : α) :
    Decoder α := fun group =>
  match find? index name group with
  | some (key, v) => (decode v).mapError (·.under key)
  | none => .ok default

def expectGroup (expected : String) (v : Value) : Except SettingsError Unit :=
  match v with
  | .list _ => .ok ()
  | v => if v.entries?.isSome then .ok () else invalidType v expected

def builderSettings : Decoder BuilderSettings := fun group => do
  expectGroup "struct BuilderConfig" group
  return {
    caseSensitive := ← setting 0 "case_sensitive" boolean true group
    encoding := ← setting 1 "encoding" encoding .ascii group
    sizeHint := ← setting 2 "size_hint" natural 0 group }

def patternSettings : Decoder PatternSettings := fun group => do
  expectGroup "struct ParserConfig" group
  return {
    dotMatchesNewLine := ← setting 0 "dot_matches_new_line" boolean true group
    fixedString := ← setting 1 "fixed_string" boolean false group }

def settings : Decoder Settings := fun group => do
  return {
    builder := ← setting 0 "builder" builderSettings {} group
    pattern := ← setting 1 "parser" patternSettings {} group }

end Decoder

def Settings.load (text : Option String) : Except SettingsError Settings :=
  match text with
  | none => .error .missing
  | some text =>
    match Toml.parse text with
    | .error e => .error (.malformed e)
    | .ok entries => Decoder.settings (.table entries)

end ByteAutomata
