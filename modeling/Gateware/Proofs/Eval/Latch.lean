import Gateware.Proofs.Eval.Settle

/-! # Settled logic remembers nothing

The assignments of a block that run in a pass are those whose conditions and selectors choose them.
A settled state is reproduced by a pass from reset values, so what no such assignment drives is at
its reset value there, and what the block held before it settled has no part in the outcome.
-/
namespace Gateware

/-! ## The assignments that run -/

section

variable (read : State)

mutual
/-- The assignments that a run of the statement makes, in their order. -/
def Statement.fired : Statement → Block
  | .assign target source => [.assign target source]
  | .branch condition taken otherwise =>
    match condition.eval read with
    | .ok bits => if bits ≠ 0 then Block.fired taken else Block.firedOtherwise otherwise
    | .error _ => []
  | .switch selector cases =>
    match selector.eval read with
    | .ok bits => Case.fired bits selector.width cases
    | .error _ => []

def Block.fired : List Statement → Block
  | [] => []
  | s :: rest => s.fired ++ Block.fired rest

def Block.firedOtherwise : Option (List Statement) → Block
  | none => []
  | some body => Block.fired body

def Case.fired (bits width : Nat) : List Case → Block
  | [] => []
  | ⟨patterns, body⟩ :: rest =>
    if (Case.mk patterns body).fits bits width then Block.fired body
    else Case.fired bits width rest
end

end

section

variable {read write out : State}

theorem Block.execute_append_eq_ok {a b : Block} :
    Block.execute read (a ++ b) write = .ok out ↔
      ∃ next, Block.execute read a write = .ok next ∧ Block.execute read b next = .ok out := by
  induction a generalizing write with
  | nil => simp [Block.execute]
  | cons s rest ih =>
    simp only [List.cons_append, Block.execute_cons_eq_ok, ih]
    constructor
    · rintro ⟨first, hs, next, hrest, hb⟩
      exact ⟨next, ⟨first, hs, hrest⟩, hb⟩
    · rintro ⟨next, ⟨first, hs, hrest⟩, hb⟩
      exact ⟨first, hs, next, hrest, hb⟩

theorem Block.execute_fired_of {block : Block}
    (h : ∀ s ∈ block, ∀ write out, s.execute read write = .ok out →
      Block.execute read (s.fired read) write = .ok out)
    (he : Block.execute read block write = .ok out) :
    Block.execute read (Block.fired read block) write = .ok out := by
  induction block generalizing write with
  | nil => exact he
  | cons s rest ih =>
    obtain ⟨next, hs, hrest⟩ := Block.execute_cons_eq_ok.mp he
    rw [Block.fired, Block.execute_append_eq_ok]
    exact ⟨next, h s List.mem_cons_self _ _ hs,
      ih (fun t ht => h t (List.mem_cons_of_mem _ ht)) hrest⟩

theorem Case.execute_fired_of {cases : List Case} {bits width : Nat}
    (h : ∀ c ∈ cases, ∀ s ∈ c.body, ∀ write out, s.execute read write = .ok out →
      Block.execute read (s.fired read) write = .ok out)
    (he : Case.execute read bits width cases write = .ok out) :
    Block.execute read (Case.fired read bits width cases) write = .ok out := by
  induction cases with
  | nil => exact he
  | cons c rest ih =>
    obtain ⟨patterns, body⟩ := c
    rw [Case.execute] at he
    rw [Case.fired]
    split
    · rename_i hfits
      rw [if_pos hfits] at he
      exact Block.execute_fired_of (h _ List.mem_cons_self) he
    · rename_i hfits
      rw [if_neg hfits] at he
      exact ih (fun c hc => h c (List.mem_cons_of_mem _ hc)) he

theorem Statement.execute_fired {s : Statement} (he : s.execute read write = .ok out) :
    Block.execute read (s.fired read) write = .ok out := by
  induction s generalizing write out with
  | assign target source => rwa [Statement.fired, Block.execute_singleton]
  | branch condition taken otherwise iht iho =>
    obtain ⟨bits, hbits, he⟩ := Statement.execute_branch_eq_ok.mp he
    simp only [Statement.fired, hbits]
    split
    · rename_i htaken
      rw [if_pos htaken] at he
      exact Block.execute_fired_of (fun s hs write out => iht s hs) he
    · rename_i htaken
      rw [if_neg htaken] at he
      cases otherwise with
      | none => exact he
      | some body => exact Block.execute_fired_of (fun s hs write out => iho body rfl s hs) he
  | switch selector cases ih =>
    obtain ⟨bits, hbits, he⟩ := Statement.execute_switch_eq_ok.mp he
    simp only [Statement.fired, hbits]
    exact Case.execute_fired_of (fun c hc s hs write out => ih c hc s hs) he

/-- A run that succeeds is the run of the assignments it makes. -/
theorem Block.execute_fired {block : Block} (he : Block.execute read block write = .ok out) :
    Block.execute read (Block.fired read block) write = .ok out :=
  Block.execute_fired_of (fun _ _ _ _ => Statement.execute_fired) he

end

/-! ## Reset values -/

theorem Bits.truncate_truncate (raw width : Nat) :
    Bits.truncate (Bits.truncate raw width) width = Bits.truncate raw width := by
  rw [Bits.truncate_eq, Bits.truncate_eq, Nat.mod_mod]

theorem State.get_resetAll {signals : List Signal} (hnodup : (signals.map Signal.id).Nodup)
    {s : Signal} (hs : s ∈ signals) (st : State) :
    (st.resetAll signals).get s = s.resetBits := by
  induction signals generalizing st with
  | nil => cases hs
  | cons t rest ih =>
    obtain ⟨hfresh, hrest⟩ := List.nodup_cons.mp hnodup
    rcases List.mem_cons.mp hs with rfl | hs
    · have hkept := (State.agreeOn_resetAll (st.setBits s s.resetBits) rest).get hfresh
      have hset : (st.setBits s s.resetBits).get s = s.resetBits := by
        rw [State.get_setBits, if_pos rfl]
        exact Bits.truncate_truncate _ _
      exact hkept.symm.trans hset
    · exact ih hrest hs _

theorem Block.pass_unfired {block : Block} {a a' : State} (h : Block.pass block a = .ok a')
    {s : Signal} (hs : s ∈ Block.drives block)
    (hfired : ¬ Block.Drives (Block.fired a block) s.id) : a'.get s = s.resetBits := by
  have hentry : (a.resetAll (Block.drives block)).entry s.id = a'.entry s.id :=
    Block.execute_frame (fun t ht hid => hfired (Block.drives_iff.mpr ⟨t, ht, hid⟩))
      (Block.execute_fired h)
  have hnodup : ((Block.drives block).map Signal.id).Nodup := nodup_keys_keepFirst _ _ _
  rw [State.get_eq_entry, ← hentry, ← State.get_eq_entry]
  exact State.get_resetAll hnodup hs a

/-- Settling is free of latches. A pass over the settled state from reset values gives that state
again, so a driven signal none of whose assignments runs is at its reset value. Signals that are not
driven have their input values. Other inputs with the same bits in the signals that the block
mentions and does not drive settle too, and every signal that is driven or had the same bits in both
inputs ends with the same bits. -/
theorem Block.settle_latch_free {block : Block} {inputs out : State}
    (settled : Block.settle block inputs = .ok out) :
    Block.execute out block (out.resetAll (Block.drives block)) = .ok out ∧
    (∀ s ∈ Block.drives block, ¬ Block.Drives (Block.fired out block) s.id →
      out.get s = s.resetBits) ∧
    (∀ s : Signal, ¬ Block.Drives block s.id → out.get s = inputs.get s) ∧
    ∀ other : State,
      (∀ v ∈ Block.values block, ∀ s ∈ v.signals, ¬ Block.Drives block s.id →
        other.get s = inputs.get s) →
      ∃ out', Block.settle block other = .ok out' ∧
        ∀ s : Signal, Block.Drives block s.id ∨ other.get s = inputs.get s →
          out'.get s = out.get s := by
  obtain ⟨hpass, hframe⟩ := Block.settle_eq_ok settled
  refine ⟨hpass, fun s hs hfired => Block.pass_unfired hpass hs hfired, hframe, ?_⟩
  intro other hother
  have halike := Block.settle_alike hother
  rw [settled] at halike
  obtain ⟨out', settled', hsame⟩ := halike.eq_ok
  obtain ⟨-, hframe'⟩ := Block.settle_eq_ok settled'
  refine ⟨out', settled', fun s hs => ?_⟩
  by_cases hd : Block.Drives block s.id
  · exact hsame s (Or.inr hd)
  · rw [hframe' s hd, hframe s hd, hs.resolve_left hd]

/-- A signal with a reset value of its own, assigned under a condition and copied before that. -/
def gatedSignal : Signal := { Signal.named 2 "y" 8 with reset := 90 }

def gatedBlock : Block :=
  let en := Value.signal (.named 0 "en" 1)
  let x := Value.signal (.named 1 "x" 8)
  let y := Value.signal gatedSignal
  let z := Value.signal (.named 3 "z" 8)
  [.assign z y, .branch en [.assign y x] none]

/-- Inputs that close the gate by an entry and hold old bits in a driven signal. -/
def staleInputs : State :=
  ((State.empty.setBits (.named 0 "en" 1) 0).setBits (.named 1 "x" 8) 3).setBits gatedSignal 7

/-- Inputs that leave the gate at its reset value. -/
def freshInputs : State := State.empty.setBits (.named 1 "x" 8) 3

theorem Block.settle_latch_free_gated :
    ∃ out out', Block.settle gatedBlock staleInputs = .ok out ∧
      Block.execute out gatedBlock (out.resetAll (Block.drives gatedBlock)) = .ok out ∧
      out.get gatedSignal = 90 ∧ out.get (.named 1 "x" 8) = 3 ∧
      Block.settle gatedBlock freshInputs = .ok out' ∧
      out'.get (.named 3 "z" 8) = out.get (.named 3 "z" 8) ∧
      out'.get (.named 0 "en" 1) = out.get (.named 0 "en" 1) := by
  obtain ⟨out, settled, unfired⟩ : ∃ out, Block.settle gatedBlock staleInputs = .ok out ∧
      ¬ Block.Drives (Block.fired out gatedBlock) gatedSignal.id :=
    ⟨_, rfl, by decide⟩
  obtain ⟨hpass, hreset, hframe, hother⟩ := Block.settle_latch_free settled
  obtain ⟨out', settled', hsame⟩ := hother freshInputs (by decide)
  refine ⟨out, out', settled, hpass, ?_, ?_, settled', ?_, ?_⟩
  · exact hreset gatedSignal (by decide) unfired
  · exact hframe _ (by decide)
  · exact hsame _ (Or.inl (by decide))
  · exact hsame _ (Or.inr rfl)

end Gateware
