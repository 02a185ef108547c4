import Gateware.Signal

/-! # States

A state gives bits to finitely many signals; a signal without an entry holds its reset value. The
entries stand in the order of the signal numbers, so two states with the same entries are equal.
-/
namespace Gateware

namespace Entries

def get? : List (Nat × Nat) → Nat → Option Nat
  | [], _ => none
  | (i, bits) :: rest, id => if i = id then some bits else get? rest id

/-- Ordered entries with one more, or with one replaced. -/
def insert : List (Nat × Nat) → Nat → Nat → List (Nat × Nat)
  | [], id, bits => [(id, bits)]
  | (i, b) :: rest, id, bits =>
    if id < i then (id, bits) :: (i, b) :: rest
    else if id = i then (id, bits) :: rest
    else (i, b) :: insert rest id bits

abbrev Ordered (entries : List (Nat × Nat)) : Prop := entries.Pairwise fun a b => a.1 < b.1

theorem mem_insert {entries : List (Nat × Nat)} {id bits : Nat} {e : Nat × Nat}
    (h : e ∈ insert entries id bits) : e = (id, bits) ∨ e ∈ entries := by
  induction entries with
  | nil => exact Or.inl (List.mem_singleton.mp h)
  | cons head rest ih =>
    obtain ⟨i, b⟩ := head
    simp only [insert] at h
    split at h
    · simpa using h
    · split at h
      · rcases List.mem_cons.mp h with h | h
        · exact Or.inl h
        · exact Or.inr (List.mem_cons_of_mem _ h)
      · rcases List.mem_cons.mp h with h | h
        · exact Or.inr (h ▸ List.mem_cons_self)
        · exact (ih h).imp_right (List.mem_cons_of_mem _)

theorem insert_ordered {entries : List (Nat × Nat)} (h : Ordered entries) (id bits : Nat) :
    Ordered (insert entries id bits) := by
  induction entries with
  | nil => simp [insert]
  | cons head rest ih =>
    obtain ⟨i, b⟩ := head
    obtain ⟨below, ordered⟩ := List.pairwise_cons.mp h
    simp only [insert]
    split
    · rename_i lt
      refine List.pairwise_cons.mpr ⟨fun e he => ?_, h⟩
      rcases List.mem_cons.mp he with he | he
      · simpa [he] using lt
      · exact Nat.lt_trans lt (below e he)
    · split
      · rename_i eq
        exact List.pairwise_cons.mpr ⟨fun e he => by simpa [eq] using below e he, ordered⟩
      · refine List.pairwise_cons.mpr ⟨fun e he => ?_, ih ordered⟩
        rcases mem_insert he with he | he
        · rw [he]
          dsimp only
          omega
        · exact below e he

end Entries

structure State where
  entries : List (Nat × Nat)
  ordered : Entries.Ordered entries
deriving DecidableEq

namespace State

/-- Every signal at its reset value. -/
def empty : State := ⟨[], List.Pairwise.nil⟩

instance : Inhabited State := ⟨empty⟩

def get (st : State) (s : Signal) : Nat := (Entries.get? st.entries s.id).getD s.resetBits

/-- The state with the bits of a signal set, cut to its width. -/
def setBits (st : State) (s : Signal) (raw : Nat) : State :=
  ⟨Entries.insert st.entries s.id (Bits.truncate raw s.width),
    Entries.insert_ordered st.ordered _ _⟩

/-- The state with a signal set to a number, wrapped to its width. -/
def set (st : State) (s : Signal) (value : Int) : State := st.setBits s (Bits.ofInt value)

def value (st : State) (s : Signal) : Int := s.shape.read (st.get s)

def resetAll (st : State) (signals : List Signal) : State :=
  signals.foldl (fun st s => st.setBits s s.resetBits) st

end State

end Gateware
