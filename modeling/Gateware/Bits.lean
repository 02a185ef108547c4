/-! # Bit patterns and the numbers they stand for

A bit pattern is a natural number below `2 ^ wordBits`. Numbers enter a pattern by two's
complement (`ofInt`), lose their high bits by `truncate` and are read back either as the whole
word (`reading`) or from a narrower width (`signExtend`).
-/
namespace Gateware

/-- The length of a word; no constant is wider. -/
def wordBits : Nat := 128

namespace Bits

/-- The pattern whose low `width` bits are set; a word has no bits above `wordBits`. -/
def mask (width : Nat) : Nat := 1 <<< min width wordBits - 1

def truncate (raw width : Nat) : Nat := raw % 1 <<< min width wordBits

/-- The two's-complement word of a number. -/
def ofInt (value : Int) : Nat := (value % (1 <<< wordBits : Nat)).toNat

def reading (raw : Nat) : Int :=
  if raw < 1 <<< (wordBits - 1) then raw else (raw : Int) - (1 <<< wordBits : Nat)

/-- The low `width` bits read as a two's-complement number. No bits read as zero. -/
def signExtend (raw width : Nat) : Int :=
  let w := min width wordBits
  let low := truncate raw width
  if w = 0 then 0 else if low < 1 <<< (w - 1) then low else (low : Int) - (1 <<< w : Nat)

/-- A word moved up by `amount` bits; what leaves the word is lost. -/
def shiftLeft (raw amount : Nat) : Nat :=
  if amount < wordBits then (raw <<< amount) % 1 <<< wordBits else 0

/-- How many binary digits a number has; zero has none. -/
def length (n : Nat) : Nat := if n = 0 then 0 else n.log2 + 1

/-- The least width that holds `value`: at least one bit, one more for the sign of a negative
number and, on request, for the sign of a positive one. -/
def needed (value : Int) (sign : Bool) : Nat :=
  match value with
  | .ofNat 0 => 1
  | .ofNat n => length n + sign.toNat
  | .negSucc n => length n + 1

end Bits

end Gateware
