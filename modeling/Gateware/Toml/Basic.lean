/-! # TOML data

A document is a table: names with values, which may be tables again. Dates and fractional numbers
are only told from other values.
-/
namespace Gateware

inductive Toml where
  | text (s : String)
  | integer (i : Int)
  | truth (b : Bool)
  /-- a date, a time or a fractional number -/
  | other
  | list (items : List Toml)
  | table (entries : List (String × Toml))

namespace Toml

def find? (entries : List (String × Toml)) (name : String) : Option Toml :=
  (entries.find? fun e => e.1 == name).map (·.2)

end Toml

/-- A part of a document under construction. Only tables and the last element of a list of tables
can still grow. -/
inductive TomlItem where
  | value (v : Toml)
  /-- a table; `implied` if only longer keys mention it so far, `dotted` if a key of a pair made
  it -/
  | table (implied dotted : Bool) (entries : List (String × TomlItem))
  /-- the tables of a list, in order -/
  | tables (elements : List (List (String × TomlItem)))

namespace TomlItem

mutual
def toToml : TomlItem → Toml
  | .value v => v
  | .table _ _ entries => .table (entriesToToml entries)
  | .tables elements => .list (elementsToToml elements)

def entriesToToml : List (String × TomlItem) → List (String × Toml)
  | [] => []
  | (name, item) :: rest => (name, item.toToml) :: entriesToToml rest

def elementsToToml : List (List (String × TomlItem)) → List Toml
  | [] => []
  | entries :: rest => .table (entriesToToml entries) :: elementsToToml rest
end

abbrev Entries := List (String × TomlItem)

/-- The entries with the item of a name changed; `change` gets `none` if there is none. -/
def alter (change : Option TomlItem → Option TomlItem) (name : String) :
    Entries → Option Entries
  | [] => (change none).map fun item => [(name, item)]
  | (n, item) :: rest =>
    if n = name then (change (some item)).map fun item => (n, item) :: rest
    else (alter change name rest).map fun rest => (n, item) :: rest

/-- The entries changed at the end of a path through tables, given whether the table there was made
by a dotted key; missing tables on the way are made. A pair reaches through dotted keys, and then
every table on the way must be one that no header has opened. -/
def descend (dotted : Bool) (change : Bool → Entries → Option Entries) :
    List String → Bool → Entries → Option Entries
  | [], here, entries => change here entries
  | key :: path, _, entries =>
    alter (fun
      | none => (descend dotted change path dotted []).map (.table true dotted)
      | some (.value _) => none
      | some (.table implied d inner) =>
        if dotted && !implied then none
        else (descend dotted change path d inner).map (.table implied d)
      | some (.tables elements) =>
        match elements.getLast? with
        | none => none
        | some inner =>
          (descend dotted change path false inner).map fun inner =>
            .tables (elements.dropLast ++ [inner])) key entries

def insertPair (path : List String) (key : String) (v : Toml) (entries : Entries) :
    Option Entries :=
  descend true (fun dotted inner =>
    if dotted == path.isEmpty then none
    else alter (fun
      | none => some (.value v)
      | some _ => none) key inner) path false entries

def openTable (path : List String) (key : String) (entries : Entries) : Option Entries :=
  descend false (fun _ inner => alter (fun
    | none => some (.table false false [])
    | some (.table true false entries) => some (.table false false entries)
    | some _ => none) key inner) path false entries

def openElement (path : List String) (key : String) (entries : Entries) : Option Entries :=
  descend false (fun _ inner => alter (fun
    | none => some (.tables [[]])
    | some (.tables elements) => some (.tables (elements ++ [[]]))
    | some _ => none) key inner) path false entries

def within (change : Entries → Option Entries) (header : List String) (entries : Entries) :
    Option Entries :=
  descend false (fun _ inner => change inner) header false entries

end TomlItem

end Gateware
