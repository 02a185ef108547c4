import Gateware.Value.Walk

/-! # Statements

A statement assigns, branches on a condition or switches on a selector. A case of a switch lists
patterns; a case without any is the default case. Statements of one block run in order, and a later
assignment to the same bits wins.
-/
namespace Gateware

inductive Pattern where
  /-- the selector is this number -/
  | int (value : Nat)
  /-- one character per selector bit, the last for the lowest: `0`, `1`, or anything for either -/
  | bits (pattern : String)
deriving DecidableEq, Repr

/-- Whether the bits of `raw`, lowest first, fit the characters. -/
def bitsFit (raw : Nat) : Nat → List Char → Bool
  | _, [] => true
  | i, c :: cs =>
    (if c = '0' then !raw.testBit i else if c = '1' then raw.testBit i else true) &&
      bitsFit raw (i + 1) cs

/-- Whether a selector of `width` bits that holds `raw` fits the pattern. -/
def Pattern.fits (p : Pattern) (raw width : Nat) : Bool :=
  match p with
  | .int value => value == Bits.truncate raw width
  | .bits pattern => bitsFit (Bits.truncate raw width) 0 pattern.toList.reverse

mutual
inductive Statement where
  | assign (target source : Value)
  /-- `taken` if the condition is not zero -/
  | branch (condition : Value) (taken : List Statement) (otherwise : Option (List Statement))
  /-- the body of the first case that fits the selector -/
  | switch (selector : Value) (cases : List Case)
inductive Case where
  | mk (patterns : List Pattern) (body : List Statement)
end

abbrev Block := List Statement

instance : Inhabited Statement := ⟨.switch default []⟩

namespace Case

def patterns : Case → List Pattern
  | ⟨patterns, _⟩ => patterns

def body : Case → List Statement
  | ⟨_, body⟩ => body

def isDefault (c : Case) : Bool := c.patterns.isEmpty

def fits (c : Case) (raw width : Nat) : Bool :=
  c.isDefault || c.patterns.any fun p => p.fits raw width

end Case

end Gateware
