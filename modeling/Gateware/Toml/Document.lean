import Gateware.Toml.Number

/-! # TOML documents

A document is a sequence of lines: pairs of a key and a value, headers that open a table or one more
table of a list, and lines that say nothing. No key is given twice, and no table is opened twice.
-/
namespace Gateware.Toml

def word (text : String) (v : Toml) : Reader Toml := fun cs =>
  if text.toList.isPrefixOf cs then some (v, cs.drop text.length) else none

def scalar : Reader Toml := fun cs =>
  match cs with
  | [] => none
  | c :: _ =>
    if c = '"' ∨ c = '\'' then (string cs).map fun (s, rest) => (.text s, rest)
    else if c = 't' then word "true" (.truth true) cs
    else if c = 'f' then word "false" (.truth false) cs
    else if c.isDigit ∨ c = '+' ∨ c = '-' ∨ c = 'i' ∨ c = 'n' then numberOrDate cs
    else none

/-- An array after its opening bracket. Its items may stand on several lines, and a comma may follow
the last one. -/
def array (item : Reader Toml) : Reader Toml := fun cs =>
  let spaced : Reader Toml := fun cs =>
    (item (skipSpace cs)).map fun (v, rest) => (v, skipSpace rest)
  let (items, rest) := separated spaced ',' cs
  let rest := match rest with
    | ',' :: more => if items.isEmpty then rest else more
    | _ => rest
  (after? ']' (skipSpace rest)).map fun rest => (.list items, rest)

def inlinePair (item : Reader Toml) : Reader ((List String × String) × Toml) := fun cs => do
  let (name, rest) ← key cs
  let rest ← after? '=' rest
  let (v, rest) ← item (skipBlanks rest)
  some ((name, v), skipBlanks rest)

def insertPairs : List ((List String × String) × Toml) → TomlItem.Entries →
    Option TomlItem.Entries
  | [], entries => some entries
  | ((path, name), v) :: rest, entries => do
    let entries ← TomlItem.insertPair path name v entries
    insertPairs rest entries

/-- A table after its opening brace, on one line. -/
def inlineTable (item : Reader Toml) : Reader Toml := fun cs => do
  let (pairs, rest) := separated (inlinePair item) ',' cs
  let entries ← insertPairs pairs []
  let rest ← after? '\x7d' (skipBlanks rest)
  some (.table (TomlItem.entriesToToml entries), rest)

/-- A value in which arrays and tables nest at most `depth` deep. -/
def value : Nat → Reader Toml
  | 0 => scalar
  | depth + 1 => fun cs =>
    match cs with
    | '[' :: rest => array (value depth) rest
    | '\x7b' :: rest => inlineTable (value depth) rest
    | _ => scalar cs

inductive Line where
  | pair (path : List String) (key : String) (v : Toml)
  | opens (path : List String) (key : String)
  | opensElement (path : List String) (key : String)

def header : Reader Line
  | '[' :: rest => do
    let ((path, name), rest) ← key rest
    let rest ← after? ']' rest
    let rest ← after? ']' rest
    some (.opensElement path name, rest)
  | cs => do
    let ((path, name), rest) ← key cs
    let rest ← after? ']' rest
    some (.opens path name, rest)

def pair : Reader Line := fun cs => do
  let ((path, name), rest) ← key cs
  let rest ← after? '=' rest
  let (v, rest) ← value (nestingLimit - 1) (skipBlanks rest)
  some (.pair path name v, rest)

/-- A line that says something, without its end. -/
def line : Reader Line
  | '[' :: rest => header rest
  | cs => pair cs

/-- The lines of a document, at most `tries` of them. -/
def lines : Nat → List Char → Option (List Line)
  | 0, cs => if cs.isEmpty then some [] else none
  | tries + 1, cs =>
    match skipBlanks cs with
    | [] => some []
    | '#' :: rest => do
      let rest ← lineEnd? ('#' :: rest)
      lines tries rest
    | c :: rest =>
      match lineBreak? (c :: rest) with
      | some rest => lines tries rest
      | none => do
        let (l, rest) ← line (c :: rest)
        let rest ← lineEnd? rest
        let tail ← lines tries rest
        some (l :: tail)

/-- The document that lines make; `current` is the path of the table opened last. -/
def build : List String → TomlItem.Entries → List Line → Option TomlItem.Entries
  | _, entries, [] => some entries
  | current, entries, .pair path name v :: rest => do
    let entries ← TomlItem.within (TomlItem.insertPair path name v) current entries
    build current entries rest
  | _, entries, .opens path name :: rest => do
    let entries ← TomlItem.openTable path name entries
    build (path ++ [name]) entries rest
  | _, entries, .opensElement path name :: rest => do
    let entries ← TomlItem.openElement path name entries
    build (path ++ [name]) entries rest

/-- The characters of a text without the mark that may begin it. -/
def content (s : String) : List Char :=
  match s.toList with
  | '\ufeff' :: rest => rest
  | cs => cs

def parse (s : String) : Option (List (String × Toml)) := do
  let cs := content s
  let ls ← lines (cs.length + 1) cs
  let entries ← build [] [] ls
  some (TomlItem.entriesToToml entries)

end Gateware.Toml
