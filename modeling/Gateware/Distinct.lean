/-! # Repeats in lists

Lists of signals, names and domains are read with repeats and kept without them. `keepFirst` keeps
what is met first, and `firstRepeat?` finds what is met again.
-/
namespace Gateware

/-- The entries whose key neither `seen` nor an earlier entry has, in their order. -/
def keepFirst {α β : Type} [DecidableEq β] (key : α → β) : List β → List α → List α
  | _, [] => []
  | seen, a :: rest =>
    if key a ∈ seen then keepFirst key seen rest else a :: keepFirst key (key a :: seen) rest

/-- The first entry that `earlier` or an entry before it has already. -/
def firstRepeat? {α : Type} [DecidableEq α] : List α → List α → Option α
  | _, [] => none
  | earlier, a :: rest => if a ∈ earlier then some a else firstRepeat? (a :: earlier) rest

end Gateware
