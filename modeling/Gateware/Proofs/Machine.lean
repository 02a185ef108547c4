import Gateware.Machine
import Gateware.Proofs.Eval.Frame
import Gateware.Proofs.Lower.Read

/-! # A machine stays in its states

The register of a built machine holds every code and is reset to one of them. If it is assigned
through `Machine.next` only, one tick keeps a code in it, and so do runs of any length in which the
other signals change freely between the ticks. Then exactly one state is the current one.
-/
namespace Gateware

/-! ## What assignments keep -/

section

variable {P : State → Prop} {read write out : State}

theorem Block.execute_keeps_of {block : Block}
    (h : ∀ s ∈ block, ∀ write out, P write → s.execute read write = .ok out → P out)
    (hw : P write) (he : Block.execute read block write = .ok out) : P out := by
  induction block generalizing write with
  | nil =>
    cases he
    exact hw
  | cons s rest ih =>
    obtain ⟨next, hnext, hrest⟩ := Block.execute_cons_eq_ok.mp he
    have hP := h s List.mem_cons_self write next hw hnext
    exact ih (fun t ht => h t (List.mem_cons_of_mem _ ht)) hP hrest

theorem Case.execute_keeps_of {cases : List Case} {bits width : Nat}
    (h : ∀ c ∈ cases, ∀ s ∈ c.body, ∀ write out, P write →
      s.execute read write = .ok out → P out)
    (hw : P write) (he : Case.execute read bits width cases write = .ok out) : P out := by
  induction cases with
  | nil =>
    cases he
    exact hw
  | cons c rest ih =>
    obtain ⟨patterns, body⟩ := c
    rw [Case.execute] at he
    split at he
    · exact Block.execute_keeps_of (h _ List.mem_cons_self) hw he
    · exact ih (fun c hc => h c (List.mem_cons_of_mem _ hc)) he

theorem Statement.execute_keeps {s : Statement}
    (h : s.Every
      (fun target source => ∀ write out, P write →
        (Statement.assign target source).execute read write = .ok out → P out)
      (fun _ => True))
    (hw : P write) (he : s.execute read write = .ok out) : P out := by
  induction s generalizing write out with
  | assign target source => exact h write out hw he
  | branch condition taken otherwise iht iho =>
    obtain ⟨bits, -, he⟩ := Statement.execute_branch_eq_ok.mp he
    split at he
    · refine Block.execute_keeps_of (fun s hs write out hw he => ?_) hw he
      exact iht s hs (Block.every_iff.mp h.2.1 s hs) hw he
    · cases otherwise with
      | none =>
        cases he
        exact hw
      | some body =>
        refine Block.execute_keeps_of (fun s hs write out hw he => ?_) hw he
        exact iho body rfl s hs (Block.every_iff.mp h.2.2 s hs) hw he
  | switch selector cases ih =>
    obtain ⟨bits, -, he⟩ := Statement.execute_switch_eq_ok.mp he
    refine Case.execute_keeps_of (fun c hc s hs write out hw he => ?_) hw he
    exact ih c hc s hs (Block.every_iff.mp (Case.every_iff.mp h.2 c hc) s hs) hw he

/-- What every assignment of a block keeps, the block keeps. -/
theorem Block.execute_keeps {block : Block}
    (h : Block.Every
      (fun target source => ∀ write out, P write →
        (Statement.assign target source).execute read write = .ok out → P out)
      (fun _ => True) block)
    (hw : P write) (he : Block.execute read block write = .ok out) : P out :=
  Block.execute_keeps_of
    (fun s hs _ _ hw he => Statement.execute_keeps (Block.every_iff.mp h s hs) hw he) hw he

end

namespace Machine

variable {m : Machine}

/-! ## Codes -/

theorem encoding_eq_ok {s : String} {code : Nat} :
    m.encoding s = .ok code ↔ code < m.states.length ∧ m.states.idxOf s = code := by
  have hfind : m.states.idxOf? s = some code ↔
      code < m.states.length ∧ m.states.idxOf s = code := List.findIdx?_eq_some_iff_findIdx_eq
  rw [← hfind, encoding]
  cases m.states.idxOf? s with
  | none => simp
  | some c => simp

/-- What building a machine settles about its states and its register. -/
structure WellBuilt (m : Machine) : Prop where
  nodup : m.states.Nodup
  shape : m.state.shape = .ofUnsigned (Bits.needed (m.states.length - 1 : Nat) false)
  reset : ∃ code < m.states.length, m.state.reset = code

theorem resetCode_lt {name : String} {states : List String} {reset : Option String} {code : Nat}
    (hne : states.isEmpty = false) (h : resetCode name states reset = .ok code) :
    code < states.length := by
  cases reset with
  | none =>
    cases h
    exact List.length_pos_of_ne_nil (by simpa using hne)
  | some s =>
    simp only [resetCode] at h
    split at h
    · rename_i c hc
      cases h
      exact (List.findIdx?_eq_some_iff_findIdx_eq.mp hc).1
    · cases h

/-- A machine that was built has different states, a register for their codes and no bodies. -/
theorem build_eq_ok {id : Nat} {name domain : String} {states : List String}
    {reset : Option String} (h : build id name states reset domain = .ok m) :
    states.Nodup ∧ ∃ code < states.length, m =
      { name, domain, states
        state := { Signal.named id (name ++ "_state")
          (Bits.needed (states.length - 1 : Nat) false) with reset := code } } := by
  unfold build at h
  split at h
  · cases h
  · split at h
    · cases h
    · rename_i hne
      split at h
      · cases h
      · rename_i hrepeat
        obtain ⟨code, hcode, h⟩ := bind_eq_ok.mp h
        cases h
        have hlt := resetCode_lt (Bool.eq_false_of_not_eq_true hne) hcode
        exact ⟨(firstRepeat?_eq_none.mp hrepeat).1, code, hlt, rfl⟩

theorem build_wellBuilt {id : Nat} {name domain : String} {states : List String}
    {reset : Option String} (h : build id name states reset domain = .ok m) :
    m.WellBuilt ∧ m.states = states := by
  obtain ⟨hnodup, code, hlt, rfl⟩ := build_eq_ok h
  exact ⟨⟨hnodup, rfl, code, hlt, rfl⟩, rfl⟩

namespace WellBuilt

/-- The register can hold the code of every state. -/
theorem lt_two_pow (h : m.WellBuilt) {code : Nat} (hcode : code < m.states.length) :
    code < 2 ^ m.state.width := by
  have hlast := Bits.lt_two_pow_needed (m.states.length - 1)
  rw [Signal.width, h.shape]
  exact lt_of_le_of_lt (by omega) hlast

theorem width_le (h : m.WellBuilt) (hsmall : m.states.length ≤ 2 ^ evalLimit) :
    m.state.width ≤ evalLimit := by
  have hpos : 0 < evalLimit := by decide
  have hlimit := Nat.two_pow_pos evalLimit
  rw [Signal.width, h.shape]
  exact Bits.needed_le hpos (by omega)

theorem resetBits_lt (h : m.WellBuilt) : m.state.resetBits < m.states.length := by
  obtain ⟨code, hlt, hreset⟩ := h.reset
  rw [Signal.resetBits, hreset]
  exact lt_of_le_of_lt (Bits.truncate_ofInt_le code _) hlt

end WellBuilt

/-! ## Runs -/

/-- The register holds a code, or nothing yet. -/
def Coded (m : Machine) (st : State) : Prop :=
  ∀ bits, st.entry m.state.id = some bits → bits < m.states.length

theorem Coded.get_lt {st : State} (h : m.Coded st) (hm : m.WellBuilt) :
    st.get m.state < m.states.length := by
  rw [State.get_eq_entry]
  cases hentry : st.entry m.state.id with
  | none => exact hm.resetBits_lt
  | some bits => exact h bits hentry

/-- Whatever assigns to the register is a statement that `next` gives for some state. -/
def MovedByNext (m : Machine) : Block → Prop :=
  Block.Every
    (fun target source => (∀ t ∈ target.targets, t.id ≠ m.state.id) ∨
      ∃ s, m.next s = .ok (.assign target source))
    (fun _ => True)

theorem next_eq_ok {s : String} {statement : Statement} (h : m.next s = .ok statement) :
    ∃ code, m.encoding s = .ok code ∧ statement = .assign (.signal m.state) (.int code) := by
  obtain ⟨code, hcode, h⟩ := bind_eq_ok.mp h
  obtain ⟨-, -, rfl⟩ := Statement.checkedAssign_eq_ok.mp h
  exact ⟨code, hcode, rfl⟩

/-- The switch over bodies that move the register by `next` does so itself. -/
theorem switch_movedByNext {bodies : List (Nat × Block)} {s : Statement}
    (hbodies : ∀ b ∈ bodies, m.MovedByNext b.2) (h : m.switch bodies = .ok s) :
    m.MovedByNext [s] := by
  refine ⟨Statement.checkedSwitch_every (fun _ => trivial) ?_ h, trivial⟩
  intro c hc
  obtain ⟨b, hb, rfl⟩ := List.mem_map.mp hc
  exact hbodies b hb

section

variable {read write out : State}

/-- A move stores a code: what the register cuts off only makes it smaller. -/
theorem coded_of_next {s : String} {target source : Value}
    (h : m.next s = .ok (.assign target source))
    (he : (Statement.assign target source).execute read write = .ok out) : m.Coded out := by
  obtain ⟨code, hcode, hassign⟩ := next_eq_ok h
  cases hassign
  obtain ⟨n, hn, he⟩ := Statement.execute_assign_eq_ok.mp he
  cases he
  obtain rfl := Value.number_int hn
  have hlt := (encoding_eq_ok.mp hcode).1
  intro bits hbits
  rw [State.entry_setBits, if_pos rfl] at hbits
  cases hbits
  exact lt_of_le_of_lt (Bits.truncate_ofInt_le code _) hlt

theorem Coded.congr {a b : State} (h : m.Coded a)
    (hab : a.entry m.state.id = b.entry m.state.id) : m.Coded b := by
  intro bits hbits
  exact h bits (hab.trans hbits)

/-- One tick keeps a code in the register: every assignment does. -/
theorem Coded.tick {block : Block} (hm : m.MovedByNext block) {now next : State}
    (hnow : m.Coded now) (h : Block.tick block now = .ok next) : m.Coded next := by
  refine Block.execute_keeps (hm.combine hm (fun target source hmove _ => ?_) fun _ h _ => h) hnow h
  intro write out hw he
  rcases hmove with hother | ⟨state, hnext⟩
  · obtain ⟨n, -, hstore⟩ := Statement.execute_assign_eq_ok.mp he
    exact hw.congr (Value.store_frame hother hstore)
  · exact coded_of_next hnext he

end

end Machine

/-- States reached by ticks of the block and, before and after them, by changes of every signal but
the register. -/
inductive Block.Runs (block : Block) (register : Nat) (start : State) : State → Prop
  | start : Runs block register start start
  | tick {now next : State} (run : Runs block register start now)
      (h : Block.tick block now = .ok next) : Runs block register start next
  | change {now next : State} (run : Runs block register start now)
      (h : now.entry register = next.entry register) : Runs block register start next

namespace Machine

variable {m : Machine} {st : State}

theorem Coded.runs {block : Block} (hm : m.MovedByNext block) {start now : State}
    (hstart : m.Coded start) (run : Block.Runs block m.state.id start now) : m.Coded now := by
  induction run with
  | start => exact hstart
  | tick _ h ih => exact ih.tick hm h
  | change _ h ih => exact ih.congr h

/-! ## The current state -/

/-- Below the evaluation limit the register stands for the bits it holds. -/
theorem WellBuilt.number_state (h : m.WellBuilt) (hsmall : m.states.length ≤ 2 ^ evalLimit)
    (hlt : st.get m.state < m.states.length) :
    (Value.signal m.state).number st = .ok (st.get m.state) := by
  have hwidth := h.width_le hsmall
  have hbits := h.lt_two_pow hlt
  have heval : (Value.signal m.state).eval st = .ok (st.get m.state) := by
    rw [Value.eval_signal_eq_ok]
    exact ⟨hwidth, Bits.truncate_of_lt (hwidth.trans (by decide)) hbits⟩
  refine Value.number_eq_ok.mpr ⟨_, heval, ?_⟩
  exact Shape.read_unsigned (by simp [h.shape, Shape.ofUnsigned]) hwidth hbits

theorem WellBuilt.eval_isAt (h : m.WellBuilt) (hsmall : m.states.length ≤ 2 ^ evalLimit)
    (hlt : st.get m.state < m.states.length) {code : Nat} (hcode : code < m.states.length) :
    (Value.op .eq [.signal m.state, .int code]).eval st =
      .ok (if st.get m.state = code then 1 else 0) := by
  have hpos : 0 < evalLimit := by decide
  have hwidth : Bits.needed code false ≤ evalLimit := Bits.needed_le hpos (by omega)
  have hint : (Value.int code).eval st = .ok code := Value.eval_int.mpr ⟨hwidth, rfl⟩
  have hread : (Value.int code).shape.read code = code :=
    Value.number_int (Value.number_eq_ok.mpr ⟨code, hint, rfl⟩)
  have hnumber : (Value.int code).number st = .ok code := Value.number_eq_ok.mpr ⟨code, hint, hread⟩
  have hall : Value.evalAll st [.signal m.state, .int code] =
      .ok [(st.get m.state : Int), (code : Int)] :=
    Value.evalAll_cons_eq_ok.mpr ⟨_, h.number_state hsmall hlt, _,
      Value.evalAll_cons_eq_ok.mpr ⟨_, hnumber, _, Value.evalAll_nil_eq_ok.mpr rfl, rfl⟩, rfl⟩
  refine Value.eval_op_eq_ok.mpr ⟨(by decide : 1 ≤ evalLimit), _, hall, _, rfl, ?_⟩
  change Bits.truncate (Bits.ofInt (truth ((st.get m.state : Int) == code))) 1 = _
  by_cases he : st.get m.state = code
  · rw [if_pos he, he, beq_self_eq_true]
    decide
  · have hne : ((st.get m.state : Int) == code) = false :=
      beq_false_of_ne fun h => he (by exact_mod_cast h)
    rw [if_neg he, hne]
    decide

/-- The register of a built machine, moved by `next` only, holds the code of exactly one state after
any run, and that state is the one that is ongoing. -/
theorem stays_in_states {id : Nat} {name domain : String} {states : List String}
    {reset : Option String}
    (built : build id name states reset domain = .ok { m with bodies := [] })
    {block : Block} (moved : m.MovedByNext block) {start now : State}
    (declared : ∀ bits, start.entry m.state.id = some bits → ∃ s, m.encoding s = .ok bits)
    (run : Block.Runs block m.state.id start now) :
    now.get m.state < states.length ∧
      ∃ current ∈ states, m.encoding current = .ok (now.get m.state) ∧
        (states.length ≤ 2 ^ evalLimit → ∀ s ∈ states, ∃ v, m.ongoing s = .ok v ∧
          v.eval now = .ok (if s = current then 1 else 0)) := by
  obtain ⟨⟨hnodup, hshape, hreset⟩, hstates⟩ := build_wellBuilt built
  have hm : m.WellBuilt := ⟨hnodup, hshape, hreset⟩
  obtain rfl : m.states = states := hstates
  have hstart : m.Coded start := by
    intro bits hbits
    obtain ⟨s, hs⟩ := declared bits hbits
    exact (encoding_eq_ok.mp hs).1
  have hlt := (hstart.runs moved run).get_lt hm
  have hcurrent : m.states.idxOf m.states[now.get m.state] = now.get m.state :=
    hm.nodup.idxOf_getElem _ hlt
  refine ⟨hlt, m.states[now.get m.state], List.getElem_mem hlt,
    encoding_eq_ok.mpr ⟨hlt, hcurrent⟩, fun hsmall s hs => ?_⟩
  have hcode : m.states.idxOf s < m.states.length := List.idxOf_lt_length_iff.mpr hs
  have hencoding : m.encoding s = .ok (m.states.idxOf s) := encoding_eq_ok.mpr ⟨hcode, rfl⟩
  refine ⟨_, by rw [ongoing, hencoding]; rfl, ?_⟩
  rw [hm.eval_isAt hsmall hlt hcode]
  -- Two states have one code only if they are the same.
  have hsame : now.get m.state = m.states.idxOf s ↔ s = m.states[now.get m.state] := by
    constructor
    · intro he
      simp only [he]
      exact (List.getElem_idxOf hcode).symm
    · intro he
      rw [he, hcurrent]
  simp only [hsame]

/-- Three states, of which the second is entered on reset; it waits for a signal. -/
def walker : Machine where
  name := "walk"
  domain := "sync"
  state := { Signal.named 0 "walk_state" 2 with reset := 1 }
  states := ["idle", "wait", "done"]
  bodies := [("sync",
    [(1, [.branch (.signal (.named 1 "ready" 1))
        [.assign (.signal { Signal.named 0 "walk_state" 2 with reset := 1 }) (.int 2)] none]),
      (2, [.assign (.signal { Signal.named 0 "walk_state" 2 with reset := 1 }) (.int 0)])])]

/-- The switch of the machine beside another register. -/
def walkerBlock : Block :=
  [.switch (.signal walker.state)
    [⟨[.int 1], [.branch (.signal (.named 1 "ready" 1)) [.assign (.signal walker.state) (.int 2)]
      none]⟩,
      ⟨[.int 2], [.assign (.signal walker.state) (.int 0)]⟩],
    .assign (.signal (.named 2 "seen" 1)) (.signal (.named 1 "ready" 1))]

theorem walkerBlock_moved : walker.MovedByNext walkerBlock := by
  have hdone : walker.next "done" = .ok (.assign (.signal walker.state) (.int 2)) := rfl
  have hidle : walker.next "idle" = .ok (.assign (.signal walker.state) (.int 0)) := rfl
  have hswitch : walker.MovedByNext [walkerBlock[0]] := by
    refine switch_movedByNext (List.forall_mem_cons.mpr ⟨?_, List.forall_mem_singleton.mpr ?_⟩)
      (rfl : walker.switch [(1, _), (2, _)] = _)
    · exact ⟨⟨trivial, ⟨.inr ⟨"done", hdone⟩, trivial⟩, trivial⟩, trivial⟩
    · exact ⟨.inr ⟨"idle", hidle⟩, trivial⟩
  refine ⟨hswitch.1, .inl ?_, trivial⟩
  simp [Value.targets, walker, Signal.named]

/-- The machine waits through a tick, moves in the next one, and the signal falls again. -/
def walkerRun : List State :=
  let waited := State.empty.setBits (.named 2 "seen" 1) 0
  let ready := waited.setBits (.named 1 "ready" 1) 1
  let moved := (ready.setBits walker.state 2).setBits (.named 2 "seen" 1) 1
  [waited, ready, moved, moved.setBits (.named 1 "ready" 1) 0]

theorem stays_in_states_walker :
    build 0 "walk" ["idle", "wait", "done"] (some "wait") "sync" =
        .ok { walker with bodies := [] } ∧
      walker.switches = .ok [("sync", walkerBlock[0])] ∧ walker.MovedByNext walkerBlock ∧
      Block.Runs walkerBlock walker.state.id .empty walkerRun[3] ∧
      walkerRun[3].get walker.state = 2 ∧
      ∃ current ∈ walker.states, walker.encoding current = .ok 2 ∧
        ∀ s ∈ walker.states, ∃ v, walker.ongoing s = .ok v ∧
          v.eval walkerRun[3] = .ok (if s = current then 1 else 0) := by
  have built : build 0 "walk" ["idle", "wait", "done"] (some "wait") "sync" =
      .ok { walker with bodies := [] } := rfl
  have hwaited : Block.Runs walkerBlock walker.state.id .empty walkerRun[0] := .tick .start rfl
  have hready : Block.Runs walkerBlock walker.state.id .empty walkerRun[1] := .change hwaited rfl
  have hmoved : Block.Runs walkerBlock walker.state.id .empty walkerRun[2] := .tick hready rfl
  have run : Block.Runs walkerBlock walker.state.id .empty walkerRun[3] := .change hmoved rfl
  obtain ⟨-, current, hmem, hcode, hongoing⟩ :=
    stays_in_states built walkerBlock_moved (by rintro bits ⟨⟩) run
  exact ⟨built, rfl, walkerBlock_moved, run, rfl, current, hmem, hcode, hongoing (by decide)⟩

end Machine

end Gateware
