import Gateware.Proofs.Lower.Write

/-! # Lowering keeps the meaning of statements

A block and its lowered form, run on the same states, write the same state whenever both succeed.
The rows of the block hold unsigned elements of one width; indices have any shape.
-/
namespace Gateware

def Block.RowsPass (check : Row → Bool) : Block → Prop :=
  Block.Every
    (fun target source => target.everyRow check = true ∧ source.everyRow check = true)
    (fun guard => guard.everyRow check = true)

section

variable {read : State}

theorem Value.everyRow_regular {v : Value} (hc : v.checkComplete = .ok ())
    (hf : v.everyRow Row.filled = true) (hu : v.everyRow Row.uniform = true) :
    v.everyRow Row.regular = true := by
  have hflat := (Value.checkComplete_iff v).mp hc
  change v.everyRow (fun row => (row.filled && row.flat) && row.uniform) = true
  rw [Value.everyRow_and, Value.everyRow_and, hf, hflat, hu]
  rfl

/-- What a statement needs for its lowered form to keep its meaning. -/
abbrev Statement.Lowerable (s : Statement) : Prop :=
  s.Every
    (fun target source => target.everyRow Row.regular = true ∧ target.plainSlices = true ∧
      source.everyRow Row.regular = true)
    (fun guard => guard.everyRow Row.regular = true)

/-- A statement and its lowered form, where both succeed, write the same state. -/
def Statement.Agrees (read : State) (s : Statement) : Prop :=
  Statement.Related (· = ·) read read s s.lower

theorem lowerAssign_agrees {target source : Value} (ht : target.everyRow Row.regular = true)
    (hp : target.plainSlices = true) (hs : source.everyRow Row.regular = true) :
    (Statement.assign target source).Agrees read := by
  rintro write _ out out' rfl h h'
  obtain ⟨n, hn, hstore⟩ := Statement.execute_assign_eq_ok.mp h
  obtain ⟨t', ht', h'⟩ := Value.splitsWell ht hp id _ h'
  obtain ⟨n', hn', hstore'⟩ := Statement.execute_assign_eq_ok.mp h'
  have he := ht'.2 _ _ _ (Bits.ofInt_lt n) hstore
  rw [(Value.lowerReads_follows hs).number hn hn', hstore'] at he
  exact (Except.ok.inj he).symm

theorem Block.agrees {block : Block} (h : ∀ s ∈ block, s.Agrees read) :
    List.Forall₂ (Statement.Related (· = ·) read read) block (Block.lower block) := by
  rw [Block.lower_eq_map]
  exact List.forall₂_map_right_iff.mpr (List.forall₂_same.mpr h)

theorem Statement.lowerable_agrees {s : Statement} (h : s.Lowerable) : s.Agrees read := by
  induction s with
  | assign target source => exact lowerAssign_agrees h.1 h.2.1 h.2.2
  | branch condition taken otherwise iht iho =>
    rintro write _ out out' rfl he he'
    obtain ⟨bits, hb, he⟩ := Statement.execute_branch_eq_ok.mp he
    obtain ⟨bits', hb', he'⟩ := Statement.execute_branch_eq_ok.mp he'
    obtain rfl := (Value.lowerReads_follows h.1 bits' hb').2 bits hb
    split at he
    · rename_i h0
      rw [if_pos h0] at he'
      exact Block.execute_related
        (Block.agrees fun s hs => iht s hs (Block.every_iff.mp h.2.1 s hs)) rfl he he'
    · rename_i h0
      rw [if_neg h0] at he'
      cases otherwise with
      | none => exact Except.ok.inj (he.symm.trans he')
      | some body =>
        exact Block.execute_related
          (Block.agrees fun s hs => iho body rfl s hs (Block.every_iff.mp h.2.2 s hs)) rfl he he'
  | switch selector cases ih =>
    rintro write _ out out' rfl he he'
    obtain ⟨bits, hb, he⟩ := Statement.execute_switch_eq_ok.mp he
    obtain ⟨bits', hb', he'⟩ := Statement.execute_switch_eq_ok.mp he'
    obtain ⟨hshape, hbits⟩ := Value.lowerReads_follows h.1 bits' hb'
    obtain rfl := hbits bits hb
    rw [Value.width, hshape] at he'
    rw [Case.lower_eq_map] at he'
    refine Case.execute_related ?_ rfl he he'
    refine List.forall₂_map_right_iff.mpr (List.forall₂_same.mpr fun c hc =>
      ⟨rfl, Block.agrees fun s hs => ?_⟩)
    exact ih c hc s hs (Block.every_iff.mp (Case.every_iff.mp h.2 c hc) s hs)

end

/-- Lowering keeps the meaning of a block of accepted statements over filled rows of unsigned
elements of one width, if no target slices a selection: run on the same states, the block and its
lowered form write the same state whenever both succeed. In particular a clock edge leads to the
same next state. -/
theorem Block.execute_lower {block : Block} (accepted : Block.Accepted block)
    (filled : Block.RowsPass Row.filled block) (uniform : Block.RowsPass Row.uniform block)
    (plain : Block.PlainTargets block) :
    (∀ read write out out', Block.execute read block write = .ok out →
      Block.execute read (Block.lower block) write = .ok out' → out = out') ∧
    (∀ current next next', Block.tick block current = .ok next →
      Block.tick (Block.lower block) current = .ok next' → next = next') := by
  have hrows : Block.RowsPass Row.regular block := by
    refine (accepted.combine filled (fun t v h h' => And.intro h h') fun c h h' =>
      And.intro h h').combine uniform (fun t v h hu => ?_) fun c h hu => ?_
    · obtain ⟨⟨ht, hs⟩, hft, hfs⟩ := h
      exact ⟨Value.everyRow_regular ht.2 hft hu.1, Value.everyRow_regular hs hfs hu.2⟩
    · exact Value.everyRow_regular h.1 h.2 hu
  have hlower : ∀ s ∈ block, s.Lowerable := by
    refine Block.every_iff.mp (hrows.combine plain (fun t v h hp => ?_) fun c h _ => h)
    exact ⟨h.1, hp, h.2⟩
  have hexecute : ∀ read write out out', Block.execute read block write = .ok out →
      Block.execute read (Block.lower block) write = .ok out' → out = out' :=
    fun read write out out' => Block.execute_related
      (Block.agrees fun s hs => Statement.lowerable_agrees (hlower s hs)) rfl
  exact ⟨hexecute, fun current => hexecute current current⟩

/-- Two selected places side by side are written with the signals they stand for in the other
order; one index is signed and the other is itself selected. -/
def swapBlock : Block :=
  let a := Value.signal (.named 0 "a" 4)
  let b := Value.signal (.named 1 "b" 4)
  let i := Value.signal { id := 2, shape := .ofSigned 2 }
  [.branch (.select [.value a, .value b] i)
    [.assign
      (.concat [.select [.value a, .value b] i,
        .select [.value b, .value a] (.select [.value a, .value b] i)])
      (.concat [b, a])] none]

/-- A state in which the signed index of `swapBlock` is negative. -/
def swapState : State :=
  ((State.empty.setBits (.named 0 "a" 4) 5).setBits (.named 1 "b" 4) 9).set
    { id := 2, shape := .ofSigned 2 } (-1)

theorem Block.execute_lower_swap :
    Block.Accepted swapBlock ∧ Block.RowsPass Row.filled swapBlock ∧
      Block.RowsPass Row.uniform swapBlock ∧ Block.PlainTargets swapBlock ∧
      ∃ next, Block.tick swapBlock swapState = .ok next ∧
        Block.tick (Block.lower swapBlock) swapState = .ok next := by
  have accepted : Block.Accepted swapBlock := by repeat' constructor
  have filled : Block.RowsPass Row.filled swapBlock := by repeat' constructor
  have uniform : Block.RowsPass Row.uniform swapBlock := by repeat' constructor
  have plain : Block.PlainTargets swapBlock := by repeat' constructor
  obtain ⟨next, h⟩ : ∃ next, Block.tick swapBlock swapState = .ok next := ⟨_, rfl⟩
  obtain ⟨next', h'⟩ : ∃ next, Block.tick (Block.lower swapBlock) swapState = .ok next := ⟨_, rfl⟩
  obtain rfl := (Block.execute_lower accepted filled uniform plain).2 _ _ _ h h'
  exact ⟨accepted, filled, uniform, plain, next, h, h'⟩

end Gateware
