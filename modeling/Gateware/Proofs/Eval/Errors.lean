import Gateware.Proofs.Accepted
import Gateware.Proofs.Eval.Block

/-! # How evaluation can fail

Neither evaluation nor a single run of a block ends unsettled. The two structural errors, a
selection that meets no value and a store in something that is no place, come from malformed values
only: where every row that is selected from holds values and at least one, and every target is a
place, they do not occur.
-/
namespace Gateware

/-- The computation does not end by running out of passes. -/
def Ends {α : Type} (x : Except EvalError α) : Prop := ∀ n, x ≠ .error (.unsettled n)

/-- The errors that come from the form of a value and not from a state. -/
def EvalError.structural : EvalError → Bool
  | .nothingSelected _ | .notAssignable _ => true
  | _ => false

/-- What went wrong, apart from the value where it did. -/
inductive EvalError.Kind where
  | tooWide
  | domainSignal
  | divisionByZero
  | nothingSelected
  | notAssignable
  | unsettled
deriving DecidableEq, Repr

def EvalError.kind : EvalError → EvalError.Kind
  | .tooWide _ => .tooWide
  | .domainSignal _ => .domainSignal
  | .divisionByZero _ => .divisionByZero
  | .nothingSelected _ => .nothingSelected
  | .notAssignable _ => .notAssignable
  | .unsettled _ => .unsettled

/-- The result of a computation, or else the kind of its error. -/
def outcome {α : Type} (x : Except EvalError α) : Except EvalError.Kind α :=
  x.mapError EvalError.kind

section

variable {α β : Type} {x y : Except EvalError α}

theorem outcome_eq_ok {a : α} : outcome x = .ok a ↔ x = .ok a := by
  cases x with
  | error e => simp [outcome, Except.mapError]
  | ok b => simp [outcome, Except.mapError]

/-- Computations that go on alike from first parts of one outcome have one outcome. -/
theorem outcome_bind_congr {f g : α → Except EvalError β} (h : outcome x = outcome y)
    (hfg : ∀ a, outcome (f a) = outcome (g a)) : outcome (x >>= f) = outcome (y >>= g) := by
  cases y with
  | ok a =>
    rw [outcome_eq_ok.mp h]
    exact hfg a
  | error e =>
    cases x with
    | ok a => cases h
    | error e' =>
      have hkind : e'.kind = e.kind := Except.error.inj h
      exact congrArg Except.error hkind

/-- Of two values of one width either both are too wide or neither is. -/
theorem outcome_guarded {width : Nat} {u v : Value}
    (h : width ≤ evalLimit → outcome x = outcome y) :
    outcome (if evalLimit < width then .error (.tooWide u) else x) =
      outcome (if evalLimit < width then .error (.tooWide v) else y) := by
  by_cases hw : evalLimit < width
  · rw [if_pos hw, if_pos hw]
    rfl
  · rw [if_neg hw, if_neg hw]
    exact h (Nat.le_of_not_lt hw)

end

/-- The computation ends and, of something well formed, does not fail for its form. -/
structure EndsWell (formed : Prop) {α : Type} (x : Except EvalError α) : Prop where
  ends : Ends x
  sound : formed → ∀ e, x = .error e → e.structural = false

theorem Ends.ok {α : Type} (a : α) : Ends (.ok a : Except EvalError α) := nofun

theorem Ends.bind {α β : Type} {x : Except EvalError α} {f : α → Except EvalError β} (hx : Ends x)
    (hf : ∀ a, x = .ok a → Ends (f a)) : Ends (x >>= f) := by
  cases x with
  | error e => exact fun n h => hx n (by cases h; rfl)
  | ok a => exact hf a rfl

namespace EndsWell

variable {α β : Type} {formed formed' : Prop} {x y : Except EvalError α}

theorem ok (a : α) : EndsWell formed (.ok a : Except EvalError α) := ⟨Ends.ok a, nofun⟩

/-- An error of a state is no structural one. -/
theorem error {e : EvalError} (hends : ∀ n, e ≠ .unsettled n) (h : formed → e.structural = false) :
    EndsWell formed (.error e : Except EvalError α) :=
  ⟨fun n he => hends n (Except.error.inj he), fun hf _ he => Except.error.inj he ▸ h hf⟩

theorem bind {f : α → Except EvalError β} (hx : EndsWell formed x)
    (hf : ∀ a, x = .ok a → EndsWell formed (f a)) : EndsWell formed (x >>= f) := by
  refine ⟨hx.ends.bind fun a ha => (hf a ha).ends, fun h e he => ?_⟩
  cases x with
  | error e' =>
    cases he
    exact hx.sound h e rfl
  | ok a => exact (hf a rfl).sound h e he

theorem guarded {p : Prop} [Decidable p] (hx : EndsWell formed x) (hy : EndsWell formed y) :
    EndsWell formed (if p then x else y) := by
  split
  · exact hx
  · exact hy

/-- What is enough for the form of a part is enough if the form of the whole gives it. -/
theorem of_part (hx : EndsWell formed' x) (h : formed → formed') : EndsWell formed x :=
  ⟨hx.ends, fun hf => hx.sound (h hf)⟩

end EndsWell

/-! ## Values -/

/-- Every selection of the value has a value to pick, whatever its index. -/
def Value.Whole (v : Value) : Prop := v.everyRow (fun row => row.filled && row.flat) = true

theorem Value.whole_iff {v : Value} :
    v.Whole ↔ v.everyRow Row.filled = true ∧ v.everyRow Row.flat = true := by
  rw [Value.Whole, Value.everyRow_and, Bool.and_eq_true]

theorem Value.Whole.parts {vs : List Value}
    (h : Value.allEveryRow (fun row => row.filled && row.flat) vs = true) : ∀ v ∈ vs, v.Whole :=
  Value.allEveryRow_iff.mp h

section

variable {row : Row} {index : Value}

theorem Value.Whole.selector (h : (Value.select row index).Whole) : index.Whole :=
  (Bool.and_eq_true_iff.mp h).2

theorem Value.Whole.element (h : (Value.select row index).Whole) {u : Value}
    (hu : .value u ∈ row) : u.Whole :=
  Row.everyRow_leaves (Bool.and_eq_true_iff.mp (Bool.and_eq_true_iff.mp h).1).2 u
    (Row.mem_leaves hu)

/-- Whatever the place, a whole selection has a value there. -/
theorem Value.Whole.picks (h : (Value.select row index).Whole) (i : Nat) :
    ∃ u, row[min i (row.length - 1)]? = some (.value u) := by
  simp only [Value.Whole, Value.everyRow, Bool.and_eq_true] at h
  obtain ⟨⟨⟨hfilled, hflat⟩, -⟩, -⟩ := h
  have hpos : 0 < row.length := by
    cases row with
    | nil => cases hfilled
    | cons e es => exact Nat.succ_pos _
  obtain ⟨e, he⟩ : ∃ e, row[min i (row.length - 1)]? = some e :=
    ⟨_, List.getElem?_eq_getElem (by omega)⟩
  cases e with
  | value u => exact ⟨u, he⟩
  | row es => exact absurd (List.all_eq_true.mp hflat _ (List.mem_of_getElem? he)) nofun

end

/-- A value without selections has nothing to pick from. -/
theorem Value.whole_of_selects {v : Value} (h : v.selects = false) : v.Whole := by
  induction v with
  | const c | signal c | clock c | reset c => rfl
  | op o vs ih =>
    exact Value.allEveryRow_iff.mpr fun v hv => ih v hv (Value.anySelects_eq_false.mp h v hv)
  | slice v start stop ih => exact ih h
  | concat vs ih =>
    exact Value.allEveryRow_iff.mpr fun v hv => ih v hv (Value.anySelects_eq_false.mp h v hv)
  | repl v count ih => exact ih h
  | select row index _ _ => cases h

section

variable {st : State} {formed : Prop}

theorem Value.evalAll_endsWell {vs : List Value} (h : ∀ v ∈ vs, EndsWell formed (v.eval st)) :
    EndsWell formed (Value.evalAll st vs) := by
  induction vs with
  | nil => exact .ok _
  | cons v vs ih =>
    exact (h v List.mem_cons_self).bind fun _ _ =>
      (ih fun u hu => h u (List.mem_cons_of_mem _ hu)).bind fun _ _ => .ok _

theorem Value.evalParts_endsWell {vs : List Value} (h : ∀ v ∈ vs, EndsWell formed (v.eval st)) :
    EndsWell formed (Value.evalParts st vs) := by
  induction vs with
  | nil => exact .ok _
  | cons v vs ih =>
    exact (h v List.mem_cons_self).bind fun _ _ =>
      (ih fun u hu => h u (List.mem_cons_of_mem _ hu)).bind fun _ _ => .ok _

/-- A whole value fails for the state only. -/
theorem Value.eval_endsWell (v : Value) : EndsWell v.Whole (v.eval st) := by
  have tooWide (u : Value) {formed : Prop} :
      EndsWell formed (.error (.tooWide u) : Except EvalError Nat) := .error nofun fun _ => rfl
  induction v with
  | const c | signal s => exact .guarded (tooWide _) (.ok _)
  | clock d | reset d => exact .error nofun fun _ => rfl
  | op o vs ih =>
    refine .guarded (tooWide _) (.bind (Value.evalAll_endsWell fun v hv =>
      (ih v hv).of_part fun h => Value.Whole.parts h v hv) fun ns _ => ?_)
    split
    · exact .ok _
    · exact .error nofun fun _ => rfl
  | slice v start stop ih => exact .guarded (tooWide _) (ih.bind fun _ _ => .ok _)
  | concat vs ih =>
    exact .guarded (tooWide _) (.bind (Value.evalParts_endsWell fun v hv =>
      (ih v hv).of_part fun h => Value.Whole.parts h v hv) fun _ _ => .ok _)
  | repl v count ih => exact .guarded (tooWide _) (ih.bind fun _ _ => .ok _)
  | select row index ihr ihi =>
    refine .guarded (tooWide _) ((ihi.of_part Value.Whole.selector).bind fun bits _ => ?_)
    dsimp only
    rw [Row.evalAt_eq]
    split
    · rename_i result hresult
      obtain ⟨e, he, hresult⟩ := Option.bind_eq_some_iff.mp hresult
      obtain ⟨u, rfl, rfl⟩ := Element.eval_eq_some.mp hresult
      have hmem := List.mem_of_getElem? he
      have hu := (ihr u (Row.mem_leaves hmem)).of_part
        fun h : (Value.select row index).Whole => h.element hmem
      exact (hu.bind fun _ _ => .ok _).bind fun _ _ => .ok _
    · rename_i hnone
      refine .error nofun fun h => ?_
      obtain ⟨u, hu⟩ := h.picks _
      rw [hu] at hnone
      cases hnone

theorem Value.number_endsWell (v : Value) : EndsWell v.Whole (v.number st) :=
  v.eval_endsWell.bind fun _ _ => .ok _

end

/-! ## Stores -/

/-- A place that can be stored in: every part of it is one, and every selection picks one. -/
def Value.WholePlace (t : Value) : Prop := t.assignable = true ∧ t.Whole

section

variable {read write : State} {formed : Prop}

theorem Value.storeParts_endsWell {vs : List Value} {bits : Nat}
    (h : ∀ v ∈ vs, ∀ bits write, EndsWell formed (v.store read bits write)) :
    EndsWell formed (Value.storeParts read vs bits write) := by
  induction vs generalizing bits write with
  | nil => exact .ok _
  | cons v vs ih =>
    exact (h v List.mem_cons_self _ _).bind fun _ _ =>
      ih fun u hu => h u (List.mem_cons_of_mem _ hu)

theorem Value.store_endsWell (t : Value) (bits : Nat) :
    EndsWell t.WholePlace (t.store read bits write) := by
  induction t generalizing bits write with
  | const c | op o vs _ | repl v count _ => exact .error nofun fun h => nomatch h.1
  | clock d | reset d => exact .error nofun fun _ => rfl
  | signal s => exact .ok _
  | slice v start stop ih =>
    exact (v.eval_endsWell.of_part And.right).bind fun _ _ => (ih _).of_part id
  | concat vs ih =>
    refine Value.storeParts_endsWell fun v hv bits write => (ih v hv bits).of_part fun h => ?_
    exact ⟨Value.allAssignable_iff.mp h.1 v hv, Value.Whole.parts h.2 v hv⟩
  | select row index ihr _ =>
    refine (index.number_endsWell.of_part fun h => h.2.selector).bind fun n _ => ?_
    rw [Row.storeAt_eq]
    split
    · rename_i result hresult
      obtain ⟨e, he, hresult⟩ := Option.bind_eq_some_iff.mp hresult
      cases e with
      | value u =>
        cases hresult
        have hmem := List.mem_of_getElem? he
        refine (ihr u (Row.mem_leaves hmem) _).of_part fun h => ?_
        exact ⟨Row.assignable_leaves h.1 u (Row.mem_leaves hmem), h.2.element hmem⟩
      | row es => cases hresult
    · rename_i hnone
      refine .error nofun fun h => ?_
      obtain ⟨u, hu⟩ := h.2.picks _
      rw [hu] at hnone
      cases hnone

/-! ## Statements -/

/-- The targets are whole places, and everything read is whole. -/
def Statement.WellFormed : Statement → Prop :=
  Statement.Every (fun target source => target.WholePlace ∧ source.Whole) Value.Whole

def Block.WellFormed : Block → Prop :=
  Block.Every (fun target source => target.WholePlace ∧ source.Whole) Value.Whole

theorem Block.execute_endsWell_of {block : Block}
    (h : ∀ s ∈ block, ∀ write, EndsWell formed (s.execute read write)) :
    EndsWell formed (Block.execute read block write) := by
  induction block generalizing write with
  | nil => exact .ok _
  | cons s rest ih =>
    exact (h s List.mem_cons_self _).bind fun _ _ => ih fun t ht => h t (List.mem_cons_of_mem _ ht)

theorem Case.execute_endsWell_of {cases : List Case} {bits width : Nat}
    (h : ∀ c ∈ cases, ∀ s ∈ c.body, ∀ write, EndsWell formed (s.execute read write)) :
    EndsWell formed (Case.execute read bits width cases write) := by
  induction cases with
  | nil => exact .ok _
  | cons c rest ih =>
    obtain ⟨patterns, body⟩ := c
    exact .guarded (Block.execute_endsWell_of (h _ List.mem_cons_self))
      (ih fun c hc => h c (List.mem_cons_of_mem _ hc))

theorem Statement.execute_endsWell (s : Statement) :
    EndsWell s.WellFormed (s.execute read write) := by
  induction s generalizing write with
  | assign target source =>
    exact (source.number_endsWell.of_part And.right).bind fun _ _ =>
      (target.store_endsWell _).of_part And.left
  | branch condition taken otherwise iht iho =>
    refine (condition.eval_endsWell.of_part And.left).bind fun _ _ => .guarded
      (Block.execute_endsWell_of fun s hs write =>
        (iht s hs).of_part fun h => Block.every_iff.mp h.2.1 s hs) ?_
    cases otherwise with
    | none => exact .ok _
    | some body =>
      exact Block.execute_endsWell_of fun s hs write =>
        (iho body rfl s hs).of_part fun h => Block.every_iff.mp h.2.2 s hs
  | switch selector cases ih =>
    exact (selector.eval_endsWell.of_part And.left).bind fun _ _ =>
      Case.execute_endsWell_of fun c hc s hs write => (ih c hc s hs).of_part fun h =>
        Block.every_iff.mp (Case.every_iff.mp h.2 c hc) s hs

/-- A well-formed block fails for the state only. -/
theorem Block.execute_endsWell (block : Block) :
    EndsWell (Block.WellFormed block) (Block.execute read block write) :=
  Block.execute_endsWell_of fun s hs _ =>
    s.execute_endsWell.of_part fun h => Block.every_iff.mp h s hs

theorem Block.pass_ends (block : Block) (current : State) : Ends (Block.pass block current) :=
  (Block.execute_endsWell block).ends

theorem Block.WellFormed.iterate {block : Block} (h : Block.WellFormed block) {limit left : Nat}
    {current : State} {e : EvalError} (he : Block.iterate block limit left current = .error e) :
    e.structural = false := by
  induction left generalizing current with
  | zero =>
    cases he
    rfl
  | succ left ih =>
    rw [Block.iterate] at he
    cases hp : Block.pass block current with
    | error e' =>
      rw [hp] at he
      cases he
      exact (Block.execute_endsWell block).sound h e hp
    | ok next =>
      rw [hp] at he
      dsimp only [bind, Except.bind] at he
      split at he
      · cases he
      · exact ih he

end

end Gateware
