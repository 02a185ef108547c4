import Gateware.Proofs.Eval.Latch

/-! # Consistent states are found

A consistent state is one that a pass reproduces. A block without loops that has one for its inputs
settles there, provided that no pass on the way fails: the passes start from reset values, and a
value that means something in the consistent state need not mean anything before that is reached.
-/
namespace Gateware

namespace Block

def passes (block : Block) : Nat → State → Except EvalError State
  | 0, st => .ok st
  | k + 1, st => do
    let next ← Block.pass block st
    Block.passes block k next

variable {block : Block} {a b st out : State}

theorem passes_succ_eq_ok {k : Nat} :
    Block.passes block (k + 1) a = .ok st ↔
      ∃ next, Block.pass block a = .ok next ∧ Block.passes block k next = .ok st := by
  rw [Block.passes, bind_eq_ok]

theorem passes_alike (k : Nat) (h : a.LooksLike (Block.Concerns block) b) :
    EndAlike (Block.Concerns block) (Block.passes block k a) (Block.passes block k b) := by
  induction k generalizing a b with
  | zero => exact .done h
  | succ k ih => exact (pass_alike h).bind fun _ _ _ _ hnext => ih hnext

theorem passes_frame {k : Nat} (h : Block.passes block k a = .ok st) :
    a.AgreeOn (fun i => ¬ Block.Drives block i) st := by
  induction k generalizing a with
  | zero =>
    cases h
    exact State.AgreeOn.refl _ _
  | succ k ih =>
    obtain ⟨next, hnext, h⟩ := passes_succ_eq_ok.mp h
    exact (pass_frame hnext).trans (ih h)

/-- Passes that fail do so in one of them, if they do not run out. -/
theorem iterate_eq_error {limit left : Nat} {e : EvalError}
    (h : Block.iterate block limit left a = .error e) :
    e = .unsettled limit ∨
      ∃ k st, Block.passes block k a = .ok st ∧ Block.pass block st = .error e := by
  induction left generalizing a with
  | zero =>
    cases h
    exact Or.inl rfl
  | succ left ih =>
    rw [Block.iterate] at h
    cases hpass : Block.pass block a with
    | error e' =>
      rw [hpass] at h
      cases h
      exact Or.inr ⟨0, a, rfl, hpass⟩
    | ok next =>
      rw [hpass] at h
      have hrest : Block.iterate block limit left next = .error e := by
        by_cases hsame : next = a
        · simp [bind, Except.bind, hsame, pure, Except.pure] at h
        · simpa [bind, Except.bind, hsame] using h
      refine (ih hrest).imp_right ?_
      rintro ⟨k, st, hst, hfail⟩
      exact ⟨k + 1, st, passes_succ_eq_ok.mpr ⟨next, hpass, hst⟩, hfail⟩

section

variable {rank : Nat → Nat} (plain : Block.PlainTargets block) (ranked : Block.RankedBy rank block)
  (fixed : Block.pass block out = .ok out)

include plain ranked fixed

/-- Each pass fixes one more level at the bits of the consistent state. -/
theorem passes_layer {j k : Nat} (hj : a.AgreeOn (Block.Layer block rank j) out)
    (h : Block.passes block k a = .ok st) : st.AgreeOn (Block.Layer block rank (j + k)) out := by
  induction k generalizing a j with
  | zero =>
    cases h
    exact hj
  | succ k ih =>
    obtain ⟨next, hnext, h⟩ := passes_succ_eq_ok.mp h
    have hlayer := ih (pass_layer plain ranked hj hnext fixed) h
    have hsucc : j + 1 + k = j + (k + 1) := by omega
    rwa [hsucc] at hlayer

/-- A state on the way in which a pass fails has levels left to fix, and among what the block reads
there is a driven signal without its final bits. -/
theorem passes_of_failure {k : Nat} {e : EvalError}
    (hframe : a.AgreeOn (¬ Block.Drives block ·) out) (h : Block.passes block k a = .ok st)
    (hfail : Block.pass block st = .error e) :
    k < (Block.drives block).length ∧
      ∃ s ∈ Block.sources block, Block.Drives block s.id ∧ st.get s ≠ out.get s := by
  have hlayer : st.AgreeOn (Block.Layer block rank (0 + k)) out :=
    passes_layer plain ranked fixed (hframe.mono fun i hi hd => Nat.not_lt_zero _ (hi hd)) h
  rw [Nat.zero_add] at hlayer
  constructor
  · by_contra hk
    -- no level is left, so that the state is the consistent one
    have hsame : st = out := hlayer.eq fun i hi => (level_lt_length hi).trans_le (by omega)
    rw [hsame, fixed] at hfail
    cases hfail
  · by_contra hnone
    push Not at hnone
    have hrest : st.AgreeOn (¬ Block.Drives block ·) out := (passes_frame h).symm.trans hframe
    have hreads : ∀ s ∈ Block.sources block, st.get s = out.get s := by
      intro s hs
      by_cases hd : Block.Drives block s.id
      · exact hnone s hs hd
      · exact hrest.get hd
    have hwrites : (st.resetAll (Block.drives block)).AgreeOn (fun _ => True)
        (out.resetAll (Block.drives block)) :=
      State.AgreeOn.resetAll (hrest.mono fun i hi => hi.2)
    have hpass : Block.pass block st = Block.pass block out := by
      rw [Block.pass, Block.pass, hwrites.eq fun _ => trivial, Block.execute_congr hreads]
    rw [hpass, fixed] at hfail
    cases hfail

/-- With the consistent state itself as inputs, settling gives it back or fails on the way. -/
theorem settle_self :
    Block.settle block out = .ok out ∨
      ∃ k st e, Block.passes block k (out.resetAll (Block.drives block)) = .ok st ∧
        Block.pass block st = .error e ∧ Block.settle block out = .error e := by
  cases hsettle : Block.settle block out with
  | ok found =>
    rw [eq_of_settle plain ranked fixed hsettle]
    exact Or.inl rfl
  | error e =>
    rcases iterate_eq_error hsettle with rfl | ⟨k, st, hst, hfail⟩
    · exact absurd hsettle (settle_ends plain ranked _ _)
    · exact Or.inr ⟨k, st, e, hst, hfail, rfl⟩

end

end Block

/-- A block without loops that has a consistent state for its inputs settles, with the bits of that
state, unless a pass on the way fails. Then settling fails with the error of that pass. It is one of
the first, at most as many as there are driven signals, and the state it reads does not have the
final bits yet in some driven signal that the block reads. -/
theorem Block.settle_finds {block : Block} (plain : Block.PlainTargets block) {rank : Nat → Nat}
    (ranked : Block.RankedBy rank block) {inputs out : State}
    (agree : ∀ v ∈ Block.values block, ∀ s ∈ v.signals, ¬ Block.Drives block s.id →
      out.get s = inputs.get s)
    (fixed : Block.execute out block (out.resetAll (Block.drives block)) = .ok out) :
    (∃ found, Block.settle block inputs = .ok found ∧
      ∀ s : Signal, Block.Drives block s.id ∨ out.get s = inputs.get s →
        found.get s = out.get s) ∨
    ∃ k < (Block.drives block).length, ∃ st e,
      Block.passes block k (inputs.resetAll (Block.drives block)) = .ok st ∧
      (∃ s ∈ Block.sources block, Block.Drives block s.id ∧ st.get s ≠ out.get s) ∧
      Block.pass block st = .error e ∧ Block.settle block inputs = .error e := by
  have hinputs : ∀ v ∈ Block.values block, ∀ s ∈ v.signals, ¬ Block.Drives block s.id →
      inputs.get s = out.get s := fun v hv s hs hd => (agree v hv s hs hd).symm
  -- the runs from the inputs and from the consistent state itself end alike
  have halike := Block.settle_alike hinputs
  rcases Block.settle_self plain ranked fixed with hself | ⟨k, st, e, hst, hfail, hself⟩
  · rw [hself] at halike
    obtain ⟨found, hfound, hsame⟩ := halike.eq_ok
    obtain ⟨-, hkept⟩ := Block.settle_eq_ok hfound
    refine Or.inl ⟨found, hfound, fun s hs => ?_⟩
    by_cases hd : Block.Drives block s.id
    · exact hsame s (Or.inr hd)
    · rw [hkept s hd, hs.resolve_left hd]
  · rw [hself] at halike
    have hpasses := Block.passes_alike k (Block.looksLike_resetAll hinputs)
    rw [hst] at hpasses
    obtain ⟨st', hst', hsame⟩ := hpasses.eq_ok
    have hpass := Block.pass_alike hsame
    rw [hfail] at hpass
    have hframe := (State.agreeOn_resetAll out (Block.drives block)).symm
    obtain ⟨hk, s, hs, hd, hne⟩ := Block.passes_of_failure plain ranked fixed hframe hst hfail
    refine Or.inr ⟨k, hk, st', e, hst', ⟨s, hs, hd, ?_⟩, hpass.eq_error, halike.eq_error⟩
    rwa [hsame s (Or.inr hd)]

/-- A remainder by a driven signal, which is three in the end and starts at its reset value. -/
def remainderBlock (reset : Int) : Block :=
  let x := Value.signal { Signal.named 0 "x" 4 with reset }
  let y := Value.signal (.named 1 "y" 4)
  let a := Value.signal (.named 2 "a" 4)
  [.assign y (.op .mod [a, x]), .assign x (.int 3)]

def remainderInputs : State := State.empty.setBits (.named 2 "a" 4) 7

def remainderOut : State := (remainderInputs.setBits (.named 0 "x" 4) 3).setBits (.named 1 "y" 4) 1

theorem remainderBlock_plain (reset : Int) : Block.PlainTargets (remainderBlock reset) := by
  repeat' constructor

theorem remainderBlock_ranked (reset : Int) : Block.RankedBy id (remainderBlock reset) := by
  simp [Block.RankedBy, Block.EveryFlow, Statement.EveryFlow, remainderBlock, Value.int,
    Value.addressSignals, Value.signals, Value.allSignals, Value.targets, Signal.named,
    Block.Drives, Block.drives, distinctSignals, keepFirst, Block.targets, Statement.targets]

theorem remainderOut_get (reset : Int) {s : Signal}
    (hs : ¬ Block.Drives (remainderBlock reset) s.id) :
    remainderOut.get s = remainderInputs.get s := by
  have hids : (Block.drives (remainderBlock reset)).map Signal.id = [1, 0] := rfl
  rw [Block.Drives, hids, List.mem_cons, List.mem_singleton, not_or] at hs
  have hx : (Signal.named 0 "x" 4).id ≠ s.id := Ne.symm hs.2
  have hy : (Signal.named 1 "y" 4).id ≠ s.id := Ne.symm hs.1
  rw [remainderOut, State.get_setBits, if_neg hy, State.get_setBits, if_neg hx]

theorem Block.settle_finds_remainder :
    (Block.PlainTargets (remainderBlock 2) ∧ Block.RankedBy id (remainderBlock 2) ∧
      Block.pass (remainderBlock 2) remainderOut = .ok remainderOut ∧
      ∃ found, Block.settle (remainderBlock 2) remainderInputs = .ok found ∧
        found.get (.named 1 "y" 4) = 1 ∧ found.get (.named 2 "a" 4) = 7) ∧
    ∃ k < 2, ∃ st e, Block.passes (remainderBlock 0) k
        (remainderInputs.resetAll (Block.drives (remainderBlock 0))) = .ok st ∧
      Block.pass (remainderBlock 0) st = .error e ∧
      Block.settle (remainderBlock 0) remainderInputs = .error e := by
  have agree : ∀ reset, ∀ v ∈ Block.values (remainderBlock reset), ∀ s ∈ v.signals,
      ¬ Block.Drives (remainderBlock reset) s.id → remainderOut.get s = remainderInputs.get s :=
    fun reset _ _ _ _ hd => remainderOut_get reset hd
  constructor
  · refine ⟨remainderBlock_plain 2, remainderBlock_ranked 2, rfl, ?_⟩
    rcases Block.settle_finds (remainderBlock_plain 2) (remainderBlock_ranked 2) (agree 2) rfl with
      ⟨found, hfound, hsame⟩ | ⟨_, _, _, _, _, _, _, hfail⟩
    · exact ⟨found, hfound, hsame _ (Or.inl (by decide)), hsame _ (Or.inr rfl)⟩
    · cases hfail
  · rcases Block.settle_finds (remainderBlock_plain 0) (remainderBlock_ranked 0) (agree 0) rfl with
      ⟨_, hfound, _⟩ | ⟨k, hk, st, e, hst, -, hfail, hsettle⟩
    · cases hfound
    · exact ⟨k, hk, st, e, hst, hfail, hsettle⟩

/-- A copy of a signal, and a slice of one of the two that is selected by a signal set later. -/
def crossedBlock : Block :=
  let i := Value.signal (.named 0 "i" 1)
  let b := Value.signal (.named 1 "b" 2)
  let a := Value.signal (.named 2 "a" 2)
  [.assign a b, .assign (.slice (.select [.value a, .value b] i) 1 2) (.int 0), .assign i (.int 1)]

def crossedOut : State :=
  ((State.empty.setBits (.named 0 "i" 1) 1).setBits (.named 1 "b" 2) 1).setBits (.named 2 "a" 2) 1

/-- A consistent state is missed if a pass on the way divides by zero, and it may be missed if the
target of an assignment is a slice over a selection: the selected signal that is read back need not
be the one that is written, and so it can depend on a signal of higher rank. -/
theorem Block.settle_misses :
    (Block.PlainTargets (remainderBlock 0) ∧ Block.RankedBy id (remainderBlock 0) ∧
      (∀ s : Signal, ¬ Block.Drives (remainderBlock 0) s.id →
        remainderOut.get s = remainderInputs.get s) ∧
      Block.pass (remainderBlock 0) remainderOut = .ok remainderOut ∧
      ∃ value, Block.settle (remainderBlock 0) remainderInputs =
        .error (.divisionByZero value)) ∧
    Block.RankedBy id crossedBlock ∧
      (∀ s : Signal, ¬ Block.Drives crossedBlock s.id → crossedOut.get s = State.empty.get s) ∧
      Block.pass crossedBlock crossedOut = .ok crossedOut ∧
      ∃ found, Block.settle crossedBlock State.empty = .ok found ∧
        found.get (.named 1 "b" 2) ≠ crossedOut.get (.named 1 "b" 2) := by
  have ranked : Block.RankedBy id crossedBlock := by
    simp [Block.RankedBy, Block.EveryFlow, Statement.EveryFlow, crossedBlock, Value.int,
      Value.addressSignals, Row.addressSignals, Element.addressSignals, Value.signals,
      Value.targets, Row.targets, Element.targets, Signal.named, Block.Drives, Block.drives,
      distinctSignals, keepFirst, Block.targets, Statement.targets]
  have kept : ∀ s : Signal, ¬ Block.Drives crossedBlock s.id →
      crossedOut.get s = State.empty.get s := by
    intro s hs
    have hids : (Block.drives crossedBlock).map Signal.id = [2, 1, 0] := rfl
    simp only [Block.Drives, hids, List.mem_cons, List.not_mem_nil, or_false, not_or] at hs
    simp [crossedOut, State.get_setBits, Signal.named, Ne.symm hs.1, Ne.symm hs.2.1,
      Ne.symm hs.2.2]
  exact ⟨⟨remainderBlock_plain 0, remainderBlock_ranked 0, fun s hs => remainderOut_get 0 hs, rfl,
    _, rfl⟩, ranked, kept, rfl, _, rfl, by decide⟩

end Gateware
