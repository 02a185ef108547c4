import Gateware.Statement.Walk
import Mathlib

/-! # Induction over values and statements

A property of all values follows if each kind of value has it whenever its parts do; the parts of a
selection are its index and the leaves of its row. Likewise for statements and their bodies.
-/

namespace Gateware

theorem Row.mem_leaves {row : Row} {v : Value} (h : .value v ∈ row) : v ∈ Row.leaves row := by
  induction row with
  | nil => cases h
  | cons e es ih =>
    rw [Row.leaves]
    rcases List.mem_cons.mp h with rfl | h
    · exact List.mem_append_left _ (List.mem_singleton.mpr rfl)
    · exact List.mem_append_right _ (ih h)

@[induction_eliminator]
theorem Value.byParts {P : Value → Prop} (const : ∀ c, P (.const c)) (signal : ∀ s, P (.signal s))
    (clock : ∀ d, P (.clock d)) (reset : ∀ d, P (.reset d))
    (op : ∀ o vs, (∀ v ∈ vs, P v) → P (.op o vs))
    (slice : ∀ v start stop, P v → P (.slice v start stop))
    (concat : ∀ vs, (∀ v ∈ vs, P v) → P (.concat vs)) (repl : ∀ v count, P v → P (.repl v count))
    (select : ∀ row index, (∀ v ∈ Row.leaves row, P v) → P index → P (.select row index)) :
    ∀ v, P v := by
  -- an element and a row have the property of all their leaves
  refine @Value.rec P (fun e => ∀ v ∈ Element.leaves e, P v) (fun vs => ∀ v ∈ vs, P v)
    (fun row => ∀ v ∈ Row.leaves row, P v) const signal clock reset op slice concat repl select
    ?_ ?_ ?_ ?_ ?_ ?_
  · simp [Element.leaves]
  · simp [Element.leaves]
  · simp
  · simp +contextual
  · simp [Row.leaves]
  · simp only [Row.leaves, List.mem_append]
    exact fun e es he hes v hv => hv.elim (he v) (hes v)

/-- A row begins with a value or with a row inside it. -/
theorem Row.byElements {R : List Element → Prop} (nil : R [])
    (value : ∀ v es, R es → R (.value v :: es))
    (row : ∀ inner es, R inner → R es → R (.row inner :: es)) : ∀ es, R es
  | [] => nil
  | .value v :: es => value v es (Row.byElements nil value row es)
  | .row inner :: es =>
    row inner es (Row.byElements nil value row inner) (Row.byElements nil value row es)

@[induction_eliminator]
theorem Statement.byParts {P : Statement → Prop}
    (assign : ∀ target source, P (.assign target source))
    (branch : ∀ condition taken otherwise, (∀ s ∈ taken, P s) →
      (∀ body, otherwise = some body → ∀ s ∈ body, P s) → P (.branch condition taken otherwise))
    (switch : ∀ selector cases, (∀ c ∈ cases, ∀ s ∈ Case.body c, P s) →
      P (.switch selector cases)) : ∀ s, P s := by
  refine @Statement.rec P (fun c => ∀ s ∈ Case.body c, P s) (fun block => ∀ s ∈ block, P s)
    (fun otherwise => ∀ body, otherwise = some body → ∀ s ∈ body, P s)
    (fun cases => ∀ c ∈ cases, ∀ s ∈ Case.body c, P s) assign branch switch ?_ ?_ ?_ ?_ ?_ ?_ ?_
  · exact fun _ _ hbody => hbody
  · simp
  · simp +contextual
  · simp
  · simp
  · simp
  · intro c cases hc hcases
    exact List.forall_mem_cons.mpr ⟨hc, hcases⟩

end Gateware
