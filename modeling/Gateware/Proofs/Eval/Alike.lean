import Gateware.Proofs.Accepted
import Gateware.Proofs.Eval.Frame

/-! # Runs that end alike

What a block does depends on the signals it mentions: run on states that look the same there, it
fails with the same error or ends in states that look the same. If its targets are places, each
signal it mentions is one that it drives or one that its effect is said to depend on.
-/
namespace Gateware

/-- One state looks like another at some signals: they hold the same bits there. -/
def State.LooksLike (on : Signal → Prop) (a b : State) : Prop := ∀ s, on s → a.get s = b.get s

/-- Two runs fail with the same error, or both succeed in states that look the same. -/
inductive EndAlike (on : Signal → Prop) :
    Except EvalError State → Except EvalError State → Prop where
  | failed (e : EvalError) : EndAlike on (.error e) (.error e)
  | done {a b : State} : a.LooksLike on b → EndAlike on (.ok a) (.ok b)

section

variable {on : Signal → Prop} {a b : State}

theorem State.LooksLike.setBits (h : a.LooksLike on b) (s : Signal) (raw : Nat) :
    (a.setBits s raw).LooksLike on (b.setBits s raw) := by
  intro t ht
  rw [State.get_setBits, State.get_setBits, h t ht]

theorem State.LooksLike.resetAll (h : a.LooksLike on b) (signals : List Signal) :
    (a.resetAll signals).LooksLike on (b.resetAll signals) := by
  induction signals generalizing a b with
  | nil => exact h
  | cons s rest ih => exact ih (h.setBits s s.resetBits)

namespace EndAlike

variable {x y : Except EvalError State} {f g : State → Except EvalError State}

theorem bind (h : EndAlike on x y)
    (hfg : ∀ a b, x = .ok a → y = .ok b → a.LooksLike on b → EndAlike on (f a) (g b)) :
    EndAlike on (x >>= f) (y >>= g) := by
  cases h with
  | failed e => exact .failed e
  | done hab => exact hfg _ _ rfl rfl hab

theorem eq_error {e : EvalError} (h : EndAlike on x (.error e)) : x = .error e := by
  cases h
  rfl

theorem eq_ok {b : State} (h : EndAlike on x (.ok b)) : ∃ a, x = .ok a ∧ a.LooksLike on b := by
  cases h with
  | done hab => exact ⟨_, rfl, hab⟩

/-- What both runs read first is the same. -/
theorem afterReading {α : Type} {x y : Except EvalError α} {f g : α → Except EvalError State}
    (h : x = y) (hfg : ∀ a, EndAlike on (f a) (g a)) : EndAlike on (x >>= f) (y >>= g) := by
  subst h
  cases x with
  | error e => exact .failed e
  | ok a => exact hfg a

end EndAlike

end

/-! ## Stores and statements -/

section

variable {on : Signal → Prop} {read read' : State}

theorem Value.storeParts_alike {vs : List Value}
    (h : ∀ v ∈ vs, ∀ bits write write', State.LooksLike on write write' →
      EndAlike on (v.store read bits write) (v.store read' bits write'))
    (bits : Nat) {write write' : State} (hw : write.LooksLike on write') :
    EndAlike on (Value.storeParts read vs bits write) (Value.storeParts read' vs bits write') := by
  induction vs generalizing bits write write' with
  | nil => exact .done hw
  | cons v vs ih =>
    rw [Value.storeParts, Value.storeParts]
    refine (h v List.mem_cons_self _ _ _ hw).bind fun next next' _ _ hnext => ?_
    exact ih (fun u hu => h u (List.mem_cons_of_mem _ hu)) _ hnext

/-- A store looks at the signals of its target only, in the state that is read and in the one that
is written. -/
theorem Value.store_alike (hread : read.LooksLike on read') {t : Value} (ht : ∀ s ∈ t.signals, on s)
    (bits : Nat) {write write' : State} (hw : write.LooksLike on write') :
    EndAlike on (t.store read bits write) (t.store read' bits write') := by
  induction t generalizing bits write write' with
  | const c | clock d | reset d | op o vs _ | repl v count _ => exact .failed _
  | signal s => exact .done (hw.setBits s bits)
  | slice v start stop ih =>
    rw [Value.store, Value.store]
    have hcurrent : v.eval write = v.eval write' := Value.eval_congr fun s hs => hw s (ht s hs)
    exact .afterReading hcurrent fun current => ih ht _ hw
  | concat vs ih =>
    refine Value.storeParts_alike (fun v hv bits write write' hw => ih v hv ?_ bits hw) bits hw
    intro s hs
    refine ht s ?_
    rw [Value.signals, Value.allSignals_eq]
    exact List.mem_flatMap_of_mem hv hs
  | select row index ihr _ =>
    rw [Value.store, Value.store]
    have hindex : index.number read = index.number read' :=
      Value.number_congr fun s hs => hread s (ht s (List.mem_append_right _ hs))
    refine .afterReading hindex fun n => ?_
    rw [Row.storeAt_eq, Row.storeAt_eq]
    cases hplace : row[min (if 0 ≤ n then n.toNat else row.length) (row.length - 1)]? with
    | none => exact .failed _
    | some e =>
      cases e with
      | row es => exact .failed _
      | value u =>
        have hu := Row.mem_leaves (List.mem_of_getElem? hplace)
        refine ihr u hu (fun s hs => ht s (List.mem_append_left _ ?_)) bits hw
        rw [Row.signals_eq]
        exact List.mem_flatMap_of_mem hu hs

/-- Run on states that look the same, the statement ends alike. -/
def Statement.RunsAlike (on : Signal → Prop) (read read' : State) (s : Statement) : Prop :=
  ∀ write write' : State, write.LooksLike on write' →
    EndAlike on (s.execute read write) (s.execute read' write')

theorem Block.execute_alike_of {block : Block} (h : ∀ s ∈ block, s.RunsAlike on read read')
    {write write' : State} (hw : write.LooksLike on write') :
    EndAlike on (Block.execute read block write) (Block.execute read' block write') := by
  induction block generalizing write write' with
  | nil => exact .done hw
  | cons s rest ih =>
    rw [Block.execute, Block.execute]
    refine (h s List.mem_cons_self _ _ hw).bind fun next next' _ _ hnext => ?_
    exact ih (fun t ht => h t (List.mem_cons_of_mem _ ht)) hnext

theorem Case.execute_alike_of {cases : List Case} {bits width : Nat}
    (h : ∀ c ∈ cases, ∀ s ∈ c.body, s.RunsAlike on read read') {write write' : State}
    (hw : write.LooksLike on write') :
    EndAlike on (Case.execute read bits width cases write)
      (Case.execute read' bits width cases write') := by
  induction cases with
  | nil => exact .done hw
  | cons c rest ih =>
    obtain ⟨patterns, body⟩ := c
    rw [Case.execute, Case.execute]
    split
    · exact Block.execute_alike_of (h _ List.mem_cons_self) hw
    · exact ih fun c hc => h c (List.mem_cons_of_mem _ hc)

theorem Statement.runsAlike (hread : read.LooksLike on read') {s : Statement}
    (hs : ∀ v ∈ s.values, ∀ x ∈ v.signals, on x) : s.RunsAlike on read read' := by
  induction s with
  | assign target source =>
    intro write write' hw
    rw [Statement.execute, Statement.execute]
    have htarget := hs target List.mem_cons_self
    have hsource := hs source (List.mem_cons_of_mem _ List.mem_cons_self)
    have hnumber : source.number read = source.number read' :=
      Value.number_congr fun x hx => hread x (hsource x hx)
    exact .afterReading hnumber fun n => Value.store_alike hread htarget _ hw
  | branch condition taken otherwise iht iho =>
    intro write write' hw
    rw [Statement.execute, Statement.execute]
    have hcondition : condition.eval read = condition.eval read' :=
      Value.eval_congr fun x hx => hread x (hs condition List.mem_cons_self x hx)
    refine .afterReading hcondition fun bits => ?_
    split
    · exact Block.execute_alike_of (fun s hmem => iht s hmem fun v hv =>
        hs v (Statement.mem_values_taken hmem hv)) hw
    · cases otherwise with
      | none => exact .done hw
      | some body =>
        exact Block.execute_alike_of (fun s hmem => iho body rfl s hmem fun v hv =>
          hs v (Statement.mem_values_otherwise hmem hv)) hw
  | switch selector cases ih =>
    intro write write' hw
    rw [Statement.execute, Statement.execute]
    have hselector : selector.eval read = selector.eval read' :=
      Value.eval_congr fun x hx => hread x (hs selector List.mem_cons_self x hx)
    refine .afterReading hselector fun bits => ?_
    exact Case.execute_alike_of (fun c hc s hmem => ih c hc s hmem fun v hv =>
      hs v (Statement.mem_values_case hc hmem hv)) hw

/-- A block looks at the signals it mentions only. -/
theorem Block.execute_alike {block : Block}
    (hblock : ∀ v ∈ Block.values block, ∀ x ∈ v.signals, on x) (hread : read.LooksLike on read')
    {write write' : State} (hw : write.LooksLike on write') :
    EndAlike on (Block.execute read block write) (Block.execute read' block write') :=
  Block.execute_alike_of (fun s hs => Statement.runsAlike hread fun v hv =>
    hblock v (Block.mem_values.mpr ⟨s, hs, hv⟩)) hw

end

/-! ## What is read and driven -/

/-- A place mentions the signals that it drives and those that decide where it writes. -/
theorem Value.mem_signals_of_assignable {t : Value} (h : t.assignable = true) {x : Signal}
    (hx : x ∈ t.signals) : x ∈ t.targets ∨ x ∈ t.addressSignals := by
  induction t with
  | const c | op o vs _ | repl v count _ => cases h
  | signal s => exact Or.inl hx
  | clock d | reset d => cases hx
  | slice v start stop ih => exact ih h hx
  | concat vs ih =>
    rw [Value.signals, Value.allSignals_eq] at hx
    obtain ⟨v, hv, hx⟩ := List.mem_flatMap.mp hx
    rw [Value.targets, Value.addressSignals, Value.allTargets_eq, Value.allAddressSignals_eq]
    exact (ih v hv (Value.allAssignable_iff.mp h v hv) hx).imp (List.mem_flatMap_of_mem hv)
      (List.mem_flatMap_of_mem hv)
  | select row index ihr _ =>
    rw [Value.targets, Value.addressSignals, Row.targets_eq, Row.addressSignals_eq]
    rcases List.mem_append.mp hx with hx | hx
    · rw [Row.signals_eq] at hx
      obtain ⟨v, hv, hx⟩ := List.mem_flatMap.mp hx
      exact (ihr v hv (Row.assignable_leaves h v hv) hx).imp (List.mem_flatMap_of_mem hv)
        fun hx => List.mem_append_right _ (List.mem_flatMap_of_mem hv hx)
    · exact Or.inr (List.mem_append_left _ hx)

/-- A statement whose targets are places mentions the signals that it drives and those that its
effect depends on. -/
theorem Statement.mem_targets_or_sources {s : Statement}
    (h : s.Every (fun target _ => target.assignable = true) fun _ => True) {v : Value}
    (hv : v ∈ s.values) {x : Signal} (hx : x ∈ v.signals) : x ∈ s.targets ∨ x ∈ s.sources := by
  induction s with
  | assign target source =>
    rcases List.mem_cons.mp hv with rfl | hv
    · exact (Value.mem_signals_of_assignable h hx).imp_right (List.mem_append_left _)
    · rw [List.mem_singleton.mp hv] at hx
      exact Or.inr (List.mem_append_right _ hx)
  | branch condition taken otherwise iht iho =>
    rcases List.mem_cons.mp hv with rfl | hv
    · exact Or.inr (List.mem_append_left _ (List.mem_append_left _ hx))
    rcases List.mem_append.mp hv with hv | hv
    · obtain ⟨s, hs, hv⟩ := Block.mem_values.mp hv
      have hmem := iht s hs (Block.every_iff.mp h.2.1 s hs) hv
      exact hmem.imp (Statement.mem_targets_taken hs) (Statement.mem_sources_taken hs)
    · cases otherwise with
      | none => cases hv
      | some body =>
        obtain ⟨s, hs, hv⟩ := Block.mem_values.mp hv
        have hmem := iho body rfl s hs (Block.every_iff.mp h.2.2 s hs) hv
        exact hmem.imp (Statement.mem_targets_otherwise hs) (Statement.mem_sources_otherwise hs)
  | switch selector cases ih =>
    rcases List.mem_cons.mp hv with rfl | hv
    · exact Or.inr (List.mem_append_left _ hx)
    rw [Case.values_eq] at hv
    obtain ⟨c, hc, hv⟩ := List.mem_flatMap.mp hv
    obtain ⟨s, hs, hv⟩ := Block.mem_values.mp hv
    have hmem := ih c hc s hs (Block.every_iff.mp (Case.every_iff.mp h.2 c hc) s hs) hv
    exact hmem.imp (Statement.mem_targets_case hc hs) (Statement.mem_sources_case hc hs)

namespace Block

def DrivesPlaces (block : Block) : Prop :=
  Block.Every (fun target _ => target.assignable = true) (fun _ => True) block

theorem mem_targets_or_sources {block : Block} (places : Block.DrivesPlaces block) {v : Value}
    (hv : v ∈ Block.values block) {x : Signal} (hx : x ∈ v.signals) :
    x ∈ Block.targets block ++ Block.sources block := by
  obtain ⟨s, hs, hv⟩ := Block.mem_values.mp hv
  rw [List.mem_append]
  exact (Statement.mem_targets_or_sources (Block.every_iff.mp places s hs) hv hx).imp
    (Block.mem_targets hs) (Block.mem_sources hs)

end Block

/-- One clock edge depends on the signals that the block drives or reads, if its targets are places:
in two states that hold the same bits there it fails with the same error, or it ends in states that
hold the same bits in all driven signals. It changes no others. -/
theorem Block.tick_depends {block : Block} (places : Block.DrivesPlaces block) {a b : State}
    (same : ∀ s ∈ Block.targets block ++ Block.sources block, a.get s = b.get s) :
    ((∃ e, Block.tick block a = .error e ∧ Block.tick block b = .error e) ∨
      ∃ a' b', Block.tick block a = .ok a' ∧ Block.tick block b = .ok b' ∧
        ∀ s ∈ Block.targets block, a'.get s = b'.get s) ∧
    ∀ st st', Block.tick block st = .ok st' →
      ∀ s : Signal, ¬ Block.Drives block s.id → st'.get s = st.get s := by
  refine ⟨?_, fun st st' h s hs => ?_⟩
  · have hmentioned : ∀ v ∈ Block.values block, ∀ x ∈ v.signals,
        x ∈ Block.targets block ++ Block.sources block :=
      fun v hv x hx => Block.mem_targets_or_sources places hv hx
    have halike := Block.execute_alike hmentioned same same
    unfold Block.tick
    generalize Block.execute a block a = x at halike
    generalize Block.execute b block b = y at halike
    cases halike with
    | failed e => exact Or.inl ⟨e, rfl, rfl⟩
    | done h =>
      exact Or.inr ⟨_, _, rfl, rfl, fun s hs => h s (List.mem_append_left _ hs)⟩
  · have hentry : st.entry s.id = st'.entry s.id :=
      Block.execute_frame (fun t ht hid => hs (Block.drives_iff.mpr ⟨t, ht, hid⟩)) h
    rw [State.get_eq_entry, State.get_eq_entry, hentry]

/-- A guarded write of a remainder through a selected slice, next to a whole signal. -/
def guardedWrite : Block :=
  let a := Value.signal (.named 0 "a" 4)
  let b := Value.signal (.named 1 "b" 4)
  let q := Value.signal (.named 2 "q" 2)
  let i := Value.signal (.named 3 "i" 1)
  let x := Value.signal (.named 4 "x" 4)
  let d := Value.signal (.named 5 "d" 2)
  [.branch x [.assign (.concat [.slice (.select [.value a, .value b] i) 1 3, q]) (.op .mod [x, d])]
    none]

/-- A state with an index, a dividend and a divisor for that block, and a signal foreign to it. -/
def guardedState (d foreign : Nat) : State :=
  (((State.empty.setBits (.named 3 "i" 1) 1).setBits (.named 4 "x" 4) 11).setBits
    (.named 5 "d" 2) d).setBits (.named 6 "f" 4) foreign

theorem Block.tick_depends_guarded :
    Block.DrivesPlaces guardedWrite ∧
      (∀ d, ∀ s ∈ Block.targets guardedWrite ++ Block.sources guardedWrite,
        (guardedState d 3).get s = (guardedState d 9).get s) ∧
      (∃ a b, Block.tick guardedWrite (guardedState 3 3) = .ok a ∧
        Block.tick guardedWrite (guardedState 3 9) = .ok b ∧ a.get (.named 1 "b" 4) = 4 ∧
        (∀ s ∈ Block.targets guardedWrite, a.get s = b.get s) ∧ b.get (.named 6 "f" 4) = 9) ∧
      ∃ e, Block.tick guardedWrite (guardedState 0 3) = .error e ∧
        Block.tick guardedWrite (guardedState 0 9) = .error e := by
  have places : Block.DrivesPlaces guardedWrite := by repeat' constructor
  have same : ∀ d, ∀ s ∈ Block.targets guardedWrite ++ Block.sources guardedWrite,
      (guardedState d 3).get s = (guardedState d 9).get s := by
    intro d s hs
    have hforeign : ∀ s ∈ Block.targets guardedWrite ++ Block.sources guardedWrite, s.id ≠ 6 := by
      decide
    have hne : (Signal.named 6 "f" 4).id ≠ s.id := Ne.symm (hforeign s hs)
    simp only [guardedState, State.get_setBits, if_neg hne]
  refine ⟨places, same, ?_, ?_⟩
  · obtain ⟨hruns, hframe⟩ := Block.tick_depends places (same 3)
    obtain ⟨a, ha, hb⟩ : ∃ a, Block.tick guardedWrite (guardedState 3 3) = .ok a ∧
        a.get (.named 1 "b" 4) = 4 := ⟨_, rfl, rfl⟩
    rcases hruns with ⟨e, he, -⟩ | ⟨a', b, ha', hb', hsame⟩
    · rw [ha] at he
      cases he
    · rw [ha] at ha'
      cases ha'
      refine ⟨a, b, ha, hb', hb, hsame, ?_⟩
      exact hframe _ _ hb' (.named 6 "f" 4) (by decide)
  · obtain ⟨hruns, -⟩ := Block.tick_depends places (same 0)
    rcases hruns with h | ⟨a, _, ha, -⟩
    · exact h
    · cases ha

end Gateware
