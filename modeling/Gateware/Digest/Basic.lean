import Gateware.Datum.Bytes
import Gateware.Datum.Text
import Gateware.Datum.Tree
import Gateware.Digest.Xxh3

/-! # Fingerprints

The fingerprint of a datum is the hash of its binary form, written as sixteen bytes with the lowest
first. Trees with equal fingerprints are taken to be equal.
-/
namespace Gateware

structure Digest where
  bytes : List UInt8
deriving DecidableEq, Repr

namespace Digest

def ofBytes (data : ByteArray) : Digest :=
  let h := Xxh3.hash data
  ⟨littleEndian 8 h.low.toNat ++ littleEndian 8 h.high.toNat⟩

def ofDatum (d : Datum) : Digest := ofBytes ⟨d.bytes.toArray⟩

def text (d : Digest) : String := String.join (d.bytes.map fun b => hexByte b.toNat)

/-- The first digits, enough to tell digests apart at a glance. -/
def short (d : Digest) : String :=
  "ContentHash(" ++ String.join ((d.bytes.take 2).map fun b => hexByte b.toNat) ++ "..)"

end Digest

def Module.fingerprint (m : Module) : Digest := .ofDatum m.datum

/-- Whether no node has a domain or mentions a signal, so that the fingerprint does not depend on
the numbering of signals. -/
def Module.signalFree (m : Module) : Bool :=
  m.nodes.all fun (_, n) =>
    n.declared.isEmpty && n.resolved.isEmpty && n.blocks.values.all (fun v => v.signals.isEmpty) &&
      n.specials.all fun s => s.signals.isEmpty

end Gateware
