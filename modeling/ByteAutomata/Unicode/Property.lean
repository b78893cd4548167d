/-! # Properties of characters

Which characters have a property is data of its own, left to the user of the library. -/
namespace ByteAutomata.Unicode

/-- The characters that texts such as `L` or `Script=Greek` name, as ranges from the first to the
last one. A text may also name a property that has no such value. -/
abbrev PropertyTable := List (String × Option (List (Char × Char)))

end ByteAutomata.Unicode
