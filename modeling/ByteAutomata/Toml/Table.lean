import ByteAutomata.Toml.Error
import ByteAutomata.Toml.Value

/-! # Tables in the making

A document fills its tables piece by piece. How a table came to be decides how it may be extended:
a table that a header opened takes keys only behind that header, and a table that a dotted key
made takes them only by dotted keys. -/
namespace ByteAutomata.Toml

inductive Origin where
  | opened
  /-- The table lies on the way to one that a header opened. -/
  | implied
  /-- The table was made by a dotted key. -/
  | dotted
deriving DecidableEq

inductive Item where
  | value (v : Value)
  | table (origin : Origin) (items : List (String × Item))
  /-- A list to which headers add tables; it is never empty. -/
  | tables (earlier : List (List (String × Item))) (last : List (String × Item))

abbrev Items := List (String × Item)

mutual

def Item.toValue : Item → Value
  | .value v => v
  | .table _ items => .table (entriesOf items)
  | .tables earlier last => .list (tableList earlier ++ [.table (entriesOf last)])

def entriesOf : List (String × Item) → List (String × Value)
  | [] => []
  | (key, item) :: rest => (key, item.toValue) :: entriesOf rest

def tableList : List (List (String × Item)) → List Value
  | [] => []
  | items :: rest => .table (entriesOf items) :: tableList rest

end

structure KeyPath where
  parents : List String := []
  last : String
deriving DecidableEq

def KeyPath.toList (path : KeyPath) : List String := path.parents ++ [path.last]

namespace Items

def alter (key : String) (f : Option Item → Except TomlError Item) : Items → Except TomlError Items
  | [] => return [(key, ← f none)]
  | (k, item) :: rest => do
    if k = key then return (k, ← f (some item)) :: rest
    else return (k, item) :: (← alter key f rest)

/-- Changes the table to which the keys lead. Tables that are missing on the way are made with the
given origin, and a list of tables leads to its last one. -/
def alterTable (made : Origin) (f : Origin → Items → Except TomlError Items) (origin : Origin)
    (items : Items) : List String → Except TomlError Items
  | [] => f origin items
  | key :: path => alter key (fun
    | none => return .table made (← alterTable made f made [] path)
    | some (.table origin inner) => do
      if made = .dotted ∧ origin = .opened then throw (.redefined key)
      return .table origin (← alterTable made f origin inner path)
    | some (.tables earlier last) =>
      return .tables earlier (← alterTable made f .opened last path)
    | some (.value _) => throw (.redefined key)) items

/-- Adds an entry to an opened table. A dotted key must lead to a table of dotted keys. -/
def insert (items : Items) (path : KeyPath) (v : Value) : Except TomlError Items :=
  items.alterTable .dotted (fun origin inner => do
    if path.parents ≠ [] ∧ origin ≠ .dotted then throw (.redefined path.last)
    alter path.last (fun
      | none => return .value v
      | some _ => throw (.redefined path.last)) inner) .opened path.parents

def alterHeader (items : Items) (path : KeyPath) (f : Option Item → Option Item) :
    Except TomlError Items :=
  items.alterTable .implied (fun _ inner =>
    alter path.last (fun item => (f item).elim (throw (.redefined path.last)) pure) inner)
    .opened path.parents

def openTable (items : Items) (path : KeyPath) : Except TomlError Items :=
  items.alterHeader path fun
    | none => some (.table .opened [])
    | some (.table .implied inner) => some (.table .opened inner)
    | _ => none

def openElement (items : Items) (path : KeyPath) : Except TomlError Items :=
  items.alterHeader path fun
    | none => some (.tables [] [])
    | some (.tables earlier last) => some (.tables (earlier ++ [last]) [])
    | _ => none

end Items

/-- A document that is being read. Keys go into the table that the latest header opened. -/
structure Document where
  items : Items := []
  current : List String := []

namespace Document

def openTable (d : Document) (path : KeyPath) : Except TomlError Document :=
  return { items := ← d.items.openTable path, current := path.toList }

def openElement (d : Document) (path : KeyPath) : Except TomlError Document :=
  return { items := ← d.items.openElement path, current := path.toList }

def insert (d : Document) (path : KeyPath) (v : Value) : Except TomlError Document :=
  return { d with
    items := ← d.items.alterTable .implied (fun _ inner => inner.insert path v) .opened d.current }

end Document
end ByteAutomata.Toml
