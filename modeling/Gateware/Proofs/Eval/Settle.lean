import Gateware.Proofs.Eval.Alike
import Gateware.Proofs.Eval.Errors
import Gateware.Proofs.Eval.Landing

/-! # Settling without loops

A block has no loops if its driven signals can be ranked so that every assignment reads driven
signals of smaller rank only. Each pass then fixes one more rank, and the passes end in the only
state that a pass reproduces.
-/
namespace Gateware

section

variable (flow : Signal → Signal → Prop)

mutual
/-- Every flow in a statement is allowed: from what an assignment reads, or a condition or selector
around it, to what the assignment drives. -/
def Statement.EveryFlow : Statement → Prop
  | .assign target source =>
    ∀ r ∈ target.addressSignals ++ source.signals, ∀ t ∈ target.targets, flow r t
  | .branch condition taken otherwise =>
    (∀ r ∈ condition.signals, ∀ t ∈ Block.targets taken ++ Block.otherwiseTargets otherwise,
      flow r t) ∧ Block.EveryFlow taken ∧ Block.EveryOtherwiseFlow otherwise
  | .switch selector cases =>
    (∀ r ∈ selector.signals, ∀ t ∈ Case.targets cases, flow r t) ∧ Case.EveryFlow cases

def Block.EveryFlow : List Statement → Prop
  | [] => True
  | s :: rest => s.EveryFlow ∧ Block.EveryFlow rest

def Block.EveryOtherwiseFlow : Option (List Statement) → Prop
  | none => True
  | some body => Block.EveryFlow body

def Case.EveryFlow : List Case → Prop
  | [] => True
  | ⟨_, body⟩ :: rest => Block.EveryFlow body ∧ Case.EveryFlow rest
end

variable {flow}

theorem Block.everyFlow_iff {block : Block} :
    Block.EveryFlow flow block ↔ ∀ s ∈ block, s.EveryFlow flow := by
  induction block with
  | nil => simp [Block.EveryFlow]
  | cons s rest ih => simp [Block.EveryFlow, ih]

theorem Case.everyFlow_iff {cases : List Case} :
    Case.EveryFlow flow cases ↔ ∀ c ∈ cases, Block.EveryFlow flow c.body := by
  induction cases with
  | nil => simp [Case.EveryFlow]
  | cons c rest ih =>
    obtain ⟨patterns, body⟩ := c
    simp [Case.EveryFlow, ih, Case.body]

end

/-! ## One pass -/

section

variable {on : Nat → Prop} {read read' : State}

/-- Run from states that agree on some signals, the statement ends in states that do. -/
def Statement.KeepsTogether (on : Nat → Prop) (read read' : State) (s : Statement) : Prop :=
  Statement.Related (State.AgreeOn on) read read' s s

theorem Statement.keepsTogether_of_targets {s : Statement}
    (h : ∀ i, on i → ∀ t ∈ s.targets, t.id ≠ i) : s.KeepsTogether on read read' := by
  intro write write' out out' hw he he' i hi
  have hs := Statement.leaves_of_targets (h i hi)
  rw [← hs _ _ _ he, ← hs _ _ _ he', hw i hi]

end

section

variable {flow : Signal → Signal → Prop} {driven low next : Nat → Prop} {read read' : State}

/-- If what flows to the signals `next` comes from the signals `low` on which the read states agree,
then either all of what is read is the same or nothing of what is driven is among `next`. -/
theorem reads_or_leaves (hstep : ∀ r t, flow r t → driven t.id → next t.id → low r.id)
    (hread : read.AgreeOn low read') {reads targets : List Signal}
    (hflow : ∀ r ∈ reads, ∀ t ∈ targets, flow r t) (hdriven : ∀ t ∈ targets, driven t.id) :
    (∀ r ∈ reads, read.get r = read'.get r) ∨ ∀ i, next i → ∀ t ∈ targets, t.id ≠ i := by
  by_cases h : ∀ r ∈ reads, low r.id
  · exact Or.inl fun r hr => hread.get (h r hr)
  · push Not at h
    obtain ⟨r, hr, hlow⟩ := h
    refine Or.inr fun i hi t ht hti => hlow (hstep r t (hflow r hr t ht) (hdriven t ht) ?_)
    rwa [hti]

/-- A statement run from states that agree on `next`, reading states that agree on `low`, keeps the
agreement. -/
theorem Statement.keepsTogether (hstep : ∀ r t, flow r t → driven t.id → next t.id → low r.id)
    (hread : read.AgreeOn low read') {s : Statement}
    (hplain : s.Every (fun target _ => target.plainSlices = true) fun _ => True)
    (hflow : s.EveryFlow flow) (hdriven : ∀ t ∈ s.targets, driven t.id) :
    s.KeepsTogether next read read' := by
  induction s with
  | assign target source =>
    rcases reads_or_leaves hstep hread hflow hdriven with hsame | hleaves
    · intro write write' out out' hw he he'
      obtain ⟨n, hn, he⟩ := Statement.execute_assign_eq_ok.mp he
      obtain ⟨n', hn', he'⟩ := Statement.execute_assign_eq_ok.mp he'
      rw [Value.number_congr fun s hs => hsame s (List.mem_append_right _ hs), hn'] at hn
      cases hn
      exact Value.storesWithin hplain (fun s hs => hsame s (List.mem_append_left _ hs))
        (fun _ _ => rfl) hw he he'
    · exact Statement.keepsTogether_of_targets hleaves
  | branch condition taken otherwise iht iho =>
    rcases reads_or_leaves hstep hread hflow.1 hdriven with hsame | hleaves
    · intro write write' out out' hw he he'
      obtain ⟨bits, hb, he⟩ := Statement.execute_branch_eq_ok.mp he
      obtain ⟨bits', hb', he'⟩ := Statement.execute_branch_eq_ok.mp he'
      rw [Value.eval_congr hsame, hb'] at hb
      cases hb
      split at he
      · rename_i h0
        rw [if_pos h0] at he'
        exact Block.execute_related (List.forall₂_same.mpr fun s hs => iht s hs
          (Block.every_iff.mp hplain.2.1 s hs) (Block.everyFlow_iff.mp hflow.2.1 s hs)
          fun t ht => hdriven t (Statement.mem_targets_taken hs ht)) hw he he'
      · rename_i h0
        rw [if_neg h0] at he'
        cases otherwise with
        | none =>
          cases he
          cases he'
          exact hw
        | some body =>
          exact Block.execute_related (List.forall₂_same.mpr fun s hs => iho body rfl s hs
            (Block.every_iff.mp hplain.2.2 s hs) (Block.everyFlow_iff.mp hflow.2.2 s hs)
            fun t ht => hdriven t (Statement.mem_targets_otherwise hs ht)) hw he he'
    · exact Statement.keepsTogether_of_targets hleaves
  | switch selector cases ih =>
    rcases reads_or_leaves hstep hread hflow.1 hdriven with hsame | hleaves
    · intro write write' out out' hw he he'
      obtain ⟨bits, hb, he⟩ := Statement.execute_switch_eq_ok.mp he
      obtain ⟨bits', hb', he'⟩ := Statement.execute_switch_eq_ok.mp he'
      rw [Value.eval_congr hsame, hb'] at hb
      cases hb
      exact Case.execute_related (List.forall₂_same.mpr fun c hc => ⟨rfl,
        List.forall₂_same.mpr fun s hs => ih c hc s hs
          (Block.every_iff.mp (Case.every_iff.mp hplain.2 c hc) s hs)
          (Block.everyFlow_iff.mp (Case.everyFlow_iff.mp hflow.2 c hc) s hs)
          fun t ht => hdriven t (Statement.mem_targets_case hc hs ht)⟩) hw he he'
    · exact Statement.keepsTogether_of_targets hleaves

end

/-! ## Ranks and passes -/

namespace Block

/-- Every assignment reads, itself or through the conditions and selectors around it, only driven
signals of smaller rank than those it drives. -/
def RankedBy (rank : Nat → Nat) (block : Block) : Prop :=
  Block.EveryFlow (fun r t => Block.Drives block r.id → rank r.id < rank t.id) block

/-- How many driven signals have a smaller rank. -/
def level (block : Block) (rank : Nat → Nat) (i : Nat) : Nat :=
  (((Block.drives block).map Signal.id).toFinset.filter fun j => rank j < rank i).card

/-- The signals that are not driven or lie below a level. -/
def Layer (block : Block) (rank : Nat → Nat) (k i : Nat) : Prop :=
  Block.Drives block i → Block.level block rank i < k

variable {block : Block} {rank : Nat → Nat} {k : Nat} {a b a' b' : State}

theorem level_lt_length {i : Nat} (h : Block.Drives block i) :
    Block.level block rank i < (Block.drives block).length := by
  have hlt : Block.level block rank i < ((Block.drives block).map Signal.id).toFinset.card := by
    refine Finset.card_lt_card (Finset.filter_ssubset.mpr ⟨i, List.mem_toFinset.mpr h, ?_⟩)
    exact Nat.lt_irrefl _
  have hle := List.toFinset_card_le ((Block.drives block).map Signal.id)
  rw [List.length_map] at hle
  exact hlt.trans_le hle

theorem level_lt_level {r t : Nat} (hr : Block.Drives block r) (hlt : rank r < rank t) :
    Block.level block rank r < Block.level block rank t := by
  refine Finset.card_lt_card (Finset.ssubset_iff_of_subset ?_ |>.mpr ⟨r, ?_, ?_⟩)
  · exact Finset.monotone_filter_right _ fun j _ hj => hj.trans hlt
  · exact Finset.mem_filter.mpr ⟨List.mem_toFinset.mpr hr, hlt⟩
  · simp

/-- A pass changes driven signals only. -/
theorem pass_frame (h : Block.pass block a = .ok a') :
    a.AgreeOn (fun i => ¬ Block.Drives block i) a' := by
  intro i hi
  rw [State.agreeOn_resetAll a (Block.drives block) i hi]
  exact Block.execute_frame (fun t ht hti => hi (drives_iff.mpr ⟨t, ht, hti⟩)) h

/-- Each pass brings states together on one more layer. -/
theorem pass_layer (plain : Block.PlainTargets block) (ranked : Block.RankedBy rank block)
    (hab : a.AgreeOn (Block.Layer block rank k) b) (ha : Block.pass block a = .ok a')
    (hb : Block.pass block b = .ok b') : a'.AgreeOn (Block.Layer block rank (k + 1)) b' := by
  have hstep : ∀ r t : Signal, (Block.Drives block r.id → rank r.id < rank t.id) →
      Block.Drives block t.id → Block.Layer block rank (k + 1) t.id →
      Block.Layer block rank k r.id := by
    intro r t hflow ht hnext hr
    have hlevel := level_lt_level hr (hflow hr)
    have hbound := hnext ht
    omega
  refine Block.execute_related (List.forall₂_same.mpr fun s hs => ?_) ?_ ha hb
  · refine Statement.keepsTogether hstep hab (Block.every_iff.mp plain s hs)
      (Block.everyFlow_iff.mp ranked s hs) fun t ht => ?_
    exact drives_iff.mpr ⟨t, Block.mem_targets hs ht, rfl⟩
  · exact State.AgreeOn.resetAll (hab.mono fun i hi hd => absurd hd hi.2)

/-- States that agree on what is not driven and that a pass reproduces are equal. -/
theorem eq_of_pass (plain : Block.PlainTargets block) (ranked : Block.RankedBy rank block)
    (hab : a.AgreeOn (fun i => ¬ Block.Drives block i) b) (ha : Block.pass block a = .ok a)
    (hb : Block.pass block b = .ok b) : a = b := by
  -- the pass from each state is the state itself, so every layer gives the next one
  have hlayers : ∀ k, a.AgreeOn (Block.Layer block rank k) b := by
    intro k
    induction k with
    | zero => exact hab.mono fun i hi hd => Nat.not_lt_zero _ (hi hd)
    | succ k ih => exact pass_layer plain ranked ih ha hb
  exact (hlayers _).eq fun i => level_lt_length

/-- What the passes end in is reproduced by a pass and keeps what is not driven. -/
theorem iterate_eq_ok {limit left : Nat} {out : State}
    (h : Block.iterate block limit left a = .ok out) :
    Block.pass block out = .ok out ∧ a.AgreeOn (fun i => ¬ Block.Drives block i) out := by
  induction left generalizing a with
  | zero => cases h
  | succ left ih =>
    obtain ⟨next, hnext, h⟩ := bind_eq_ok.mp h
    split at h
    · rename_i hsame
      cases h
      subst hsame
      exact ⟨hnext, State.AgreeOn.refl _ _⟩
    · obtain ⟨hout, hframe⟩ := ih h
      exact ⟨hout, (pass_frame hnext).trans hframe⟩

/-- Once `k` levels are fixed, a pass for each of the others is enough, and one to see it. -/
theorem iterate_ends (plain : Block.PlainTargets block) (ranked : Block.RankedBy rank block)
    {limit left : Nat}
    (hfixed : ∀ next, Block.pass block a = .ok next → a.AgreeOn (Block.Layer block rank k) next)
    (hleft : (Block.drives block).length ≤ left + k) :
    Ends (Block.iterate block limit (left + 1) a) := by
  induction left generalizing a k with
  | zero =>
    refine (Block.pass_ends block a).bind fun next hnext => ?_
    -- no level is left, so that the pass changes nothing
    have hsame : a = next := (hfixed next hnext).eq fun i hi =>
      (level_lt_length hi).trans_le (by omega)
    rw [if_pos hsame.symm]
    exact Ends.ok _
  | succ left ih =>
    refine (Block.pass_ends block a).bind fun next hnext => ?_
    split
    · exact Ends.ok _
    · exact ih (fun next' hnext' => pass_layer plain ranked (hfixed next hnext) hnext hnext')
        (by omega)

/-! ## The same passes -/

/-- The signals that decide what the passes of a block do, and those that they change: the signals
it mentions, and every handle of a driven one. -/
def Concerns (block : Block) (s : Signal) : Prop :=
  (∃ v ∈ Block.values block, s ∈ v.signals) ∨ Block.Drives block s.id

theorem entry_of_looksLike (h : a.LooksLike (Block.Concerns block) b) {i : Nat}
    (hi : Block.Drives block i) : a.entry i = b.entry i := by
  refine State.entry_eq_of_get fun s hs => h s (Or.inr ?_)
  rwa [hs]

theorem pass_alike (h : a.LooksLike (Block.Concerns block) b) :
    EndAlike (Block.Concerns block) (Block.pass block a) (Block.pass block b) :=
  Block.execute_alike (fun v hv _ hx => Or.inl ⟨v, hv, hx⟩) h (h.resetAll _)

/-- A pass changes nothing if it does not change the driven signals. -/
theorem pass_eq_self (h : Block.pass block a = .ok a') :
    a' = a ↔ ∀ i, Block.Drives block i → a'.entry i = a.entry i := by
  constructor
  · intro heq i _
    rw [heq]
  · intro hdriven
    have hall : a'.AgreeOn (fun _ => True) a := by
      intro i _
      by_cases hi : Block.Drives block i
      · exact hdriven i hi
      · exact (pass_frame h i hi).symm
    exact hall.eq fun _ => trivial

theorem iterate_alike {limit : Nat} (left : Nat) (h : a.LooksLike (Block.Concerns block) b) :
    EndAlike (Block.Concerns block) (Block.iterate block limit left a)
      (Block.iterate block limit left b) := by
  induction left generalizing a b with
  | zero => exact .failed _
  | succ left ih =>
    refine (pass_alike h).bind fun a' b' ha hb hnext => ?_
    -- both runs see no change after the same pass
    have hsame : a' = a ↔ b' = b := by
      rw [pass_eq_self ha, pass_eq_self hb]
      refine forall₂_congr fun i hi => ?_
      rw [entry_of_looksLike hnext hi, entry_of_looksLike h hi]
    by_cases hstill : a' = a
    · rw [if_pos hstill, if_pos (hsame.mp hstill)]
      exact .done hnext
    · rw [if_neg hstill, if_neg (mt hsame.mpr hstill)]
      exact ih hnext

/-- Inputs that hold the same bits in the signals that are mentioned and not driven look the same
once the driven ones are reset. -/
theorem looksLike_resetAll
    (h : ∀ v ∈ Block.values block, ∀ s ∈ v.signals, ¬ Block.Drives block s.id → a.get s = b.get s) :
    (a.resetAll (Block.drives block)).LooksLike (Block.Concerns block)
      (b.resetAll (Block.drives block)) := by
  have hdriven : (a.resetAll (Block.drives block)).AgreeOn (Block.Drives block)
      (b.resetAll (Block.drives block)) :=
    State.AgreeOn.resetAll fun i hi => absurd hi.1 hi.2
  intro s hs
  by_cases hd : Block.Drives block s.id
  · exact hdriven.get hd
  · obtain ⟨v, hv, hsv⟩ := hs.resolve_right hd
    have ha := (State.agreeOn_resetAll a (Block.drives block)).get hd
    have hb := (State.agreeOn_resetAll b (Block.drives block)).get hd
    rw [← ha, ← hb]
    exact h v hv s hsv hd

theorem settle_alike
    (h : ∀ v ∈ Block.values block, ∀ s ∈ v.signals, ¬ Block.Drives block s.id → a.get s = b.get s) :
    EndAlike (Block.Concerns block) (Block.settle block a) (Block.settle block b) :=
  iterate_alike _ (looksLike_resetAll h)

theorem settle_eq_ok {out : State} (h : Block.settle block a = .ok out) :
    Block.pass block out = .ok out ∧
      ∀ s : Signal, ¬ Block.Drives block s.id → out.get s = a.get s := by
  obtain ⟨hpass, hframe⟩ := iterate_eq_ok h
  have hkept := (State.agreeOn_resetAll a (Block.drives block)).trans hframe
  exact ⟨hpass, fun s hs => (hkept.get hs).symm⟩

theorem settle_ends (plain : Block.PlainTargets block) (ranked : Block.RankedBy rank block)
    (a : State) : Ends (Block.settle block a) := by
  refine iterate_ends plain ranked (k := 0) (fun next hnext => ?_) (Nat.le_succ _)
  exact (pass_frame hnext).mono fun i hi hd => Nat.not_lt_zero _ (hi hd)

/-- With a state as inputs that a pass reproduces, settling can only give it back. -/
theorem eq_of_settle (plain : Block.PlainTargets block) (ranked : Block.RankedBy rank block)
    (fixed : Block.pass block a = .ok a) (h : Block.settle block a = .ok b) : b = a := by
  obtain ⟨hpass, hkept⟩ := settle_eq_ok h
  have hagree : b.AgreeOn (fun i => ¬ Block.Drives block i) a := fun i hi =>
    State.entry_eq_of_get fun s hs => hkept s (by rwa [hs])
  exact eq_of_pass plain ranked hagree hpass fixed

/-- Settling finds the bits of every state that a pass reproduces and that has those of the inputs in
the signals that the block mentions and does not drive. -/
theorem settle_get_unique (plain : Block.PlainTargets block) (ranked : Block.RankedBy rank block)
    {inputs out other : State} (settled : Block.settle block inputs = .ok out)
    (agree : ∀ v ∈ Block.values block, ∀ s ∈ v.signals, ¬ Block.Drives block s.id →
      other.get s = inputs.get s)
    (fixed : Block.pass block other = .ok other) {s : Signal}
    (hs : Block.Drives block s.id ∨ other.get s = inputs.get s) : other.get s = out.get s := by
  have halike := settle_alike agree
  rw [settled] at halike
  obtain ⟨found, hfound, hsame⟩ := halike.eq_ok
  rw [eq_of_settle plain ranked fixed hfound] at hsame
  by_cases hd : Block.Drives block s.id
  · exact hsame s (Or.inr hd)
  · rw [hs.resolve_left hd, (settle_eq_ok settled).2 s hd]

end Block

/-- A block without loops settles: the passes never run out, and what they end in agrees with the
inputs on the signals that are not driven, is reproduced by a pass, and is the only such state. A
state that a pass reproduces and that agrees with the inputs only on what the block mentions still
has the same bits in all that is driven. -/
theorem Block.settle_unique {block : Block} (plain : Block.PlainTargets block) {rank : Nat → Nat}
    (ranked : Block.RankedBy rank block) (inputs : State) :
    (∀ passes, Block.settle block inputs ≠ .error (.unsettled passes)) ∧
    ∀ out, Block.settle block inputs = .ok out →
      (∀ s : Signal, ¬ Block.Drives block s.id → out.get s = inputs.get s) ∧
      Block.pass block out = .ok out ∧
      (∀ other : State, (∀ s : Signal, ¬ Block.Drives block s.id → other.get s = inputs.get s) →
        Block.pass block other = .ok other → other = out) ∧
      ∀ other : State, (∀ v ∈ Block.values block, ∀ s ∈ v.signals, ¬ Block.Drives block s.id →
          other.get s = inputs.get s) → Block.pass block other = .ok other →
        ∀ s : Signal, Block.Drives block s.id ∨ other.get s = inputs.get s →
          other.get s = out.get s := by
  refine ⟨Block.settle_ends plain ranked inputs, fun out hout => ?_⟩
  obtain ⟨hpass, hkept⟩ := Block.settle_eq_ok hout
  refine ⟨hkept, hpass, fun other hother hfixed => ?_, fun other hother hfixed s =>
    Block.settle_get_unique plain ranked hout hother hfixed⟩
  refine Block.eq_of_pass plain ranked (fun i hi => ?_) hfixed hpass
  exact State.entry_eq_of_get fun s hs => by
    subst hs
    rw [hother s hi, hkept s hi]

/-- A chain of three dependent assignments in the wrong order; the last of them writes parts of two
signals. -/
def chainBlock : Block :=
  let a := Value.signal (.named 0 "a" 4)
  let x := Value.signal (.named 1 "x" 4)
  let y := Value.signal (.named 2 "y" 4)
  let z := Value.signal (.named 3 "z" 4)
  let w := Value.signal (.named 4 "w" 4)
  [.assign (.slice (.concat [z, w]) 2 6) y, .branch x [.assign y x] none, .assign x a]

theorem Block.settle_unique_chain :
    Block.PlainTargets chainBlock ∧ Block.RankedBy id chainBlock ∧
      ∃ out, Block.settle chainBlock (State.empty.setBits (.named 0 "a" 4) 11) = .ok out ∧
        out.get (.named 3 "z" 4) = 12 ∧ out.get (.named 4 "w" 4) = 2 ∧
        Block.pass chainBlock out = .ok out := by
  have plain : Block.PlainTargets chainBlock := by repeat' constructor
  have ranked : Block.RankedBy id chainBlock := by
    simp [Block.RankedBy, Block.EveryFlow, Block.EveryOtherwiseFlow, Statement.EveryFlow,
      chainBlock, Value.addressSignals, Value.allAddressSignals, Value.signals, Value.targets,
      Value.allTargets, Block.targets, Block.otherwiseTargets, Statement.targets, Signal.named,
      Block.Drives, Block.drives, distinctSignals, keepFirst]
  obtain ⟨out, h, hz, hw⟩ : ∃ out,
      Block.settle chainBlock (State.empty.setBits (.named 0 "a" 4) 11) = .ok out ∧
        out.get (.named 3 "z" 4) = 12 ∧ out.get (.named 4 "w" 4) = 2 := ⟨_, rfl, rfl, rfl⟩
  obtain ⟨-, hpass, -⟩ := (Block.settle_unique plain ranked _).2 out h
  exact ⟨plain, ranked, out, h, hz, hw, hpass⟩

end Gateware
