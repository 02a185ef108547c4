/-! # The words of TOML

A reader takes what it reads from the front of the input and leaves the rest, or fails. Here are the
readers of blanks, line ends, strings and keys.
-/
namespace Gateware.Toml

abbrev Reader (α : Type) := List Char → Option (α × List Char)

/-- The items that follow, each after a separator; a separator without an item is left. -/
def separatedTail {α : Type} (item : Reader α) (separator : Char) (cs : List Char) :
    List α × List Char :=
  match cs with
  | [] => ([], [])
  | c :: rest =>
    if c = separator then
      match item rest with
      | none => ([], c :: rest)
      | some (a, after) =>
        if _shorter : after.length < rest.length + 1 then
          let tail := separatedTail item separator after
          (a :: tail.1, tail.2)
        else ([a], after)
    else ([], c :: rest)
termination_by cs.length
decreasing_by exact _shorter

def separated {α : Type} (item : Reader α) (separator : Char) (cs : List Char) :
    List α × List Char :=
  match item cs with
  | none => ([], cs)
  | some (a, rest) =>
    let tail := separatedTail item separator rest
    (a :: tail.1, tail.2)

def isBlank (c : Char) : Bool := c == ' ' || c == '\t'

/-- Whether a character may stand in comments and strings as it is. -/
def isPlain (c : Char) : Bool := c == '\t' || (32 ≤ c.toNat && c.toNat != 127)

def skipBlanks (cs : List Char) : List Char := cs.dropWhile isBlank

def lineBreak? : List Char → Option (List Char)
  | '\n' :: rest => some rest
  | '\r' :: '\n' :: rest => some rest
  | _ => none

def skipComment : List Char → List Char
  | '#' :: rest => rest.dropWhile isPlain
  | cs => cs

/-- The end of a line after blanks and a comment; the input may end there too. -/
def lineEnd? (cs : List Char) : Option (List Char) :=
  match skipComment (skipBlanks cs) with
  | [] => some []
  | rest => lineBreak? rest

/-- Blanks, comments and line ends, at most `tries` lines of them. -/
def skipLines : Nat → List Char → List Char
  | 0, cs => cs
  | tries + 1, cs =>
    let here := skipBlanks cs
    match lineBreak? (skipComment here) with
    | some rest => skipLines tries rest
    | none => here

/-- Everything that may stand between the items of an array. -/
def skipSpace (cs : List Char) : List Char := skipLines cs.length cs

/-! ## Strings -/

def digitValue? (base : Nat) (c : Char) : Option Nat :=
  let value :=
    if c.isDigit then some (c.toNat - '0'.toNat)
    else if 'a' ≤ c ∧ c ≤ 'f' then some (c.toNat - 'a'.toNat + 10)
    else if 'A' ≤ c ∧ c ≤ 'F' then some (c.toNat - 'A'.toNat + 10)
    else none
  value.filter (· < base)

def digitsValue? (base : Nat) : Nat → List Char → Option Nat
  | value, [] => some value
  | value, c :: cs => do
    let digit ← digitValue? base c
    digitsValue? base (value * base + digit) cs

/-- The character with the number that `count` hexadecimal digits give. -/
def escapedCode (count : Nat) : Reader Char := fun cs => do
  let digits := cs.take count
  if digits.length < count then none
  let code ← digitsValue? 16 0 digits
  if code.isValidChar then some (Char.ofNat code, cs.drop count) else none

def escaped : Reader Char
  | 'b' :: rest => some ('\x08', rest)
  | 't' :: rest => some ('\t', rest)
  | 'n' :: rest => some ('\n', rest)
  | 'f' :: rest => some ('\x0c', rest)
  | 'r' :: rest => some ('\r', rest)
  | '"' :: rest => some ('"', rest)
  | '\\' :: rest => some ('\\', rest)
  | 'u' :: rest => escapedCode 4 rest
  | 'U' :: rest => escapedCode 8 rest
  | _ => none

/-- A string on one line up to its closing quote, which takes at most `tries` characters. -/
def basicBody : Nat → Reader (List Char)
  | tries + 1, '\\' :: rest => do
    let (c, rest) ← escaped rest
    let (tail, rest) ← basicBody tries rest
    some (c :: tail, rest)
  | tries + 1, c :: rest =>
    if c = '"' then some ([], rest)
    else if isPlain c then do
      let (tail, rest) ← basicBody tries rest
      some (c :: tail, rest)
    else none
  | _, _ => none

/-- The quotes that may stand right before the closing ones. -/
def closingQuotes (quote : Char) : Reader (List Char)
  | a :: b :: rest =>
    if a = quote then
      if b = quote then some ([a, b], rest) else some ([a], b :: rest)
    else some ([], a :: b :: rest)
  | [a] => if a = quote then some ([a], []) else some ([], [a])
  | [] => some ([], [])

/-- Blanks and line ends, at most `tries` lines of them. -/
def skipBreaks : Nat → List Char → List Char
  | 0, cs => cs
  | tries + 1, cs =>
    let here := skipBlanks cs
    match lineBreak? here with
    | some rest => skipBreaks tries rest
    | none => here

/-- A string over several lines up to its closing quotes. A backslash at the end of a line drops the
line end and all blanks and line ends after it. -/
def multiBody : Nat → Reader (List Char)
  | _, '"' :: '"' :: '"' :: rest => closingQuotes '"' rest
  | tries + 1, '\\' :: rest =>
    match lineBreak? (skipBlanks rest) with
    | some rest => multiBody tries (skipBreaks rest.length rest)
    | none => do
      let (c, rest) ← escaped rest
      let (tail, rest) ← multiBody tries rest
      some (c :: tail, rest)
  | tries + 1, c :: rest =>
    match lineBreak? (c :: rest) with
    | some rest => do
      let (tail, rest) ← multiBody tries rest
      some ('\n' :: tail, rest)
    | none =>
      if isPlain c then do
        let (tail, rest) ← multiBody tries rest
        some (c :: tail, rest)
      else none
  | _, _ => none

def literalBody : Reader (List Char)
  | [] => none
  | c :: rest =>
    if c = '\'' then some ([], rest)
    else if isPlain c then do
      let (tail, rest) ← literalBody rest
      some (c :: tail, rest)
    else none

def multiLiteralBody : Nat → Reader (List Char)
  | _, '\'' :: '\'' :: '\'' :: rest => closingQuotes '\'' rest
  | tries + 1, c :: rest =>
    match lineBreak? (c :: rest) with
    | some rest => do
      let (tail, rest) ← multiLiteralBody tries rest
      some ('\n' :: tail, rest)
    | none =>
      if isPlain c then do
        let (tail, rest) ← multiLiteralBody tries rest
        some (c :: tail, rest)
      else none
  | _, _ => none

/-- A line end right after the opening quotes does not belong to the string. -/
def dropLineBreak (cs : List Char) : List Char := (lineBreak? cs).getD cs

def shortString : Reader String
  | '"' :: rest => (basicBody rest.length rest).map fun (s, rest) => (String.ofList s, rest)
  | '\'' :: rest => (literalBody rest).map fun (s, rest) => (String.ofList s, rest)
  | _ => none

def string : Reader String
  | '"' :: '"' :: '"' :: rest =>
    let body := dropLineBreak rest
    (multiBody body.length body).map fun (s, rest) => (String.ofList s, rest)
  | '\'' :: '\'' :: '\'' :: rest =>
    let body := dropLineBreak rest
    (multiLiteralBody body.length body).map fun (s, rest) => (String.ofList s, rest)
  | cs => shortString cs

/-! ## Keys -/

def isKeyChar (c : Char) : Bool := c.isAlphanum || c == '_' || c == '-'

/-- One part of a key: a word or a string on one line. -/
def simpleKey : Reader String := fun cs =>
  match cs.takeWhile isKeyChar with
  | [] => shortString cs
  | word => some (String.ofList word, cs.dropWhile isKeyChar)

def keyPart : Reader String := fun cs =>
  (simpleKey (skipBlanks cs)).map fun (name, rest) => (name, skipBlanks rest)

def nestingLimit : Nat := 80

/-- A key: parts with dots between them, as the path to the last part and that part. -/
def key : Reader (List String × String) := fun cs =>
  let (parts, rest) := separated keyPart '.' cs
  match parts.getLast? with
  | none => none
  | some last => if parts.length < nestingLimit then some ((parts.dropLast, last), rest) else none

end Gateware.Toml
