namespace Sigil.Toml

inductive Value where
  | string (s : String)
  /-- An integer of 64 bits with sign. -/
  | integer (n : Int)
  | float (text : String)
  | boolean (b : Bool)
  | dateTime (text : String)
  | array (values : List Value)
  | table (entries : List (String × Value))

/-- A document under construction: what a key stands for so far. -/
inductive Item where
  /-- A value that is complete, be it a table or an array in a line. -/
  | value (v : Value)
  /-- A table. It is implicit until a header defines it, and dotted if dotted keys made it. -/
  | table (implicit dotted : Bool) (entries : List (String × Item))
  /-- The tables of an array of tables; the last one is open. -/
  | tables (elements : List (List (String × Item)))

/-- Keys with what they stand for, in the order in which they appear. -/
abbrev Entries := List (String × Item)

namespace Entries

/-- Puts what `item` makes of the entry of a key in its place, or at the end if there is none. -/
def alter (key : String) (item : Option Item → Option Item) : Entries → Option Entries
  | [] => (item none).map fun i => [(key, i)]
  | (k, i) :: rest =>
    if k = key then (item (some i)).map fun i => (k, i) :: rest
    else (alter key item rest).map ((k, i) :: ·)

/-- Follows a path of keys to a table and edits it, given whether it is dotted. Missing tables are
made. Dotted keys enter only tables that no header has defined. -/
def descend (dotted : Bool) (edit : Bool → Entries → Option Entries) :
    (path : List String) → Bool → Entries → Option Entries
  | [], isDotted, entries => edit isDotted entries
  | key :: path, _, entries => entries.alter key fun
    | none => (descend dotted edit path dotted []).map (.table true dotted)
    | some (.value _) => none
    | some (.table implicit isDotted inner) =>
      if dotted ∧ ¬ implicit then none
      else (descend dotted edit path isDotted inner).map (.table implicit isDotted)
    | some (.tables elements) =>
      elements.getLast?.bind fun last =>
        (descend dotted edit path false last).map fun last =>
          .tables (elements.dropLast ++ [last])

def atTable (path : List String) (edit : Entries → Option Entries) (entries : Entries) :
    Option Entries :=
  entries.descend false (fun _ => edit) path false

/-- Gives a key its value. The tables on the way to a dotted key must not be used in any other
way. -/
def assign (path : List String) (key : String) (v : Value) (entries : Entries) : Option Entries :=
  entries.descend true
    (fun isDotted table =>
      if isDotted = path.isEmpty then none
      else table.alter key fun
        | none => some (.value v)
        | some _ => none)
    path false

/-- Defines the table that a header names. Each table is defined once. -/
def defineTable (path : List String) (key : String) (entries : Entries) : Option Entries :=
  entries.atTable path fun table => table.alter key fun
    | none => some (.table false false [])
    | some (.table true false inner) => some (.table false false inner)
    | some _ => none

def appendTable (path : List String) (key : String) (entries : Entries) : Option Entries :=
  entries.atTable path fun table => table.alter key fun
    | none => some (.tables [[]])
    | some (.tables elements) => some (.tables (elements ++ [[]]))
    | some _ => none

end Entries

mutual

def Item.complete : Item → Value
  | .value v => v
  | .table _ _ entries => .table (completeEntries entries)
  | .tables elements => .array (completeElements elements)

def completeEntries : List (String × Item) → List (String × Value)
  | [] => []
  | (key, item) :: rest => (key, item.complete) :: completeEntries rest

def completeElements : List (List (String × Item)) → List Value
  | [] => []
  | entries :: rest => .table (completeEntries entries) :: completeElements rest

end

end Sigil.Toml
