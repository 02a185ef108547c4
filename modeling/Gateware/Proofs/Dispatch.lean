import Gateware.Proofs.Machine
import Gateware.Proofs.Naming
import Gateware.Proofs.Switch

/-! # A machine runs the statements of its state

Statements are given to a machine in any number of calls, in any order of domains and states. The
machine files them by domain and code, and `Machine.bodies_of_calls` says what it holds after the
calls: the domains and, in each, the states as they are met first, with all that was given for both.

The register has room for every code, so no case is lost on the way into a switch. In each domain
the switch then runs what was given there for the state whose code the register holds.
-/
namespace Gateware

theorem nodup_eraseDups {α : Type} [DecidableEq α] (as : List α) : as.eraseDups.Nodup := by
  have h := nodup_keys_keepFirst id [] as
  rw [keys_keepFirst] at h
  simpa using h

theorem eraseDups_concat {α : Type} [DecidableEq α] (as : List α) (a : α) :
    (as ++ [a]).eraseDups = if a ∈ as then as.eraseDups else as.eraseDups ++ [a] := by
  rw [List.eraseDups_append]
  by_cases h : a ∈ as
  · simp [List.removeAll, h]
  · simp [List.removeAll, h, List.eraseDups_cons]

namespace Machine

/-! ## Calls -/

inductive Call
  | on (state domain : String) (block : Block)
  | comb (state : String) (block : Block)
  | sync (state : String) (block : Block)

namespace Call

def make (m : Machine) : Call → Except ConstructionError Machine
  | .on state domain block => m.on state domain block
  | .comb state block => m.comb state block
  | .sync state block => m.sync state block

def state : Call → String
  | .on state _ _ | .comb state _ | .sync state _ => state

def block : Call → Block
  | .on _ _ block | .comb _ block | .sync _ block => block

def domain (clock : String) : Call → String
  | .on _ domain _ => domain
  | .comb _ _ => combDomain
  | .sync _ _ => clock

end Call

/-- The domains that the calls give statements for, in the order of first use. -/
def domainsOf (clock : String) (calls : List Call) : List String :=
  (calls.map (Call.domain clock)).eraseDups

def callsIn (clock domain : String) (calls : List Call) : List Call :=
  calls.filter fun c => c.domain clock = domain

/-- The states that the calls give statements for, in the order of first use. -/
def statesOf (calls : List Call) : List String := (calls.map Call.state).eraseDups

/-- The statements that the calls give for one state, in the order of the calls. -/
def given (calls : List Call) (state : String) : Block :=
  (calls.filter fun c => c.state = state).flatMap Call.block

variable {m : Machine} {clock : String} {calls : List Call}

theorem mem_statesOf {s : String} : s ∈ statesOf calls ↔ ∃ c ∈ calls, c.state = s := by
  simp [statesOf]

theorem mem_domainsOf {d : String} :
    d ∈ domainsOf clock calls ↔ ∃ c ∈ calls, c.domain clock = d := by
  simp [domainsOf]

theorem given_of_not_mem {s : String} (h : s ∉ statesOf calls) : given calls s = [] := by
  have hnone : (calls.filter fun c => c.state = s) = [] := by
    refine List.filter_eq_nil_iff.mpr fun c hc hs => h ?_
    exact mem_statesOf.mpr ⟨c, hc, of_decide_eq_true hs⟩
  rw [given, hnone, List.flatMap_nil]

theorem callsIn_of_not_mem {d : String} (h : d ∉ domainsOf clock calls) :
    callsIn clock d calls = [] := by
  refine List.filter_eq_nil_iff.mpr fun c hc hd => h ?_
  exact mem_domainsOf.mpr ⟨c, hc, of_decide_eq_true hd⟩

theorem given_concat (c : Call) (s : String) :
    given (calls ++ [c]) s = if s = c.state then given calls s ++ c.block else given calls s := by
  by_cases h : s = c.state
  · simp [given, h]
  · simp [given, h, Ne.symm h]

theorem callsIn_concat (c : Call) (d : String) :
    callsIn clock d (calls ++ [c]) =
      if d = c.domain clock then callsIn clock d calls ++ [c] else callsIn clock d calls := by
  by_cases h : d = c.domain clock
  · simp [callsIn, h]
  · simp [callsIn, h, Ne.symm h]

/-! ## What a machine holds after calls -/

/-- Entries made from keys stay so: the changed one is at its key, or comes after the others. -/
theorem amend_map {κ ι α : Type} [DecidableEq κ] [DecidableEq ι] (place : ι → κ) (new : ι)
    (entry : ι → List α) (change : List α → List α) {keys : List ι} (hnodup : keys.Nodup)
    (hplace : ∀ k ∈ keys, place k = place new → k = new) (hentry : new ∉ keys → entry new = []) :
    amend (place new) change (keys.map fun k => (place k, entry k)) =
      (if new ∈ keys then keys else keys ++ [new]).map
        fun k => (place k, if k = new then change (entry k) else entry k) := by
  induction keys with
  | nil => simp [amend, hentry]
  | cons k keys ih =>
    obtain ⟨hk, hkeys⟩ := List.nodup_cons.mp hnodup
    rw [List.map_cons, amend]
    by_cases hnew : k = new
    · subst hnew
      -- The other keys differ from the one that was met.
      have hrest : keys.map (fun j => (place j, if j = k then change (entry j) else entry j)) =
          keys.map fun j => (place j, entry j) := by
        refine List.map_congr_left fun j hj => ?_
        have hne : j ≠ k := fun h => hk (h ▸ hj)
        rw [if_neg hne]
      rw [if_pos rfl, if_pos List.mem_cons_self, List.map_cons, if_pos rfl, hrest]
    · have hne : place k ≠ place new := fun h => hnew (hplace k List.mem_cons_self h)
      have hmem : new ∈ k :: keys ↔ new ∈ keys := by simp [Ne.symm hnew]
      rw [if_neg hne, ih hkeys (fun j hj => hplace j (List.mem_cons_of_mem k hj))
        (fun h => hentry (mt hmem.mp h))]
      simp only [hmem]
      split
      · rw [List.map_cons, if_neg hnew]
      · rw [List.cons_append, List.map_cons, if_neg hnew]

def filed (states : List String) (calls : List Call) : List (Nat × Block) :=
  (statesOf calls).map fun s => (states.idxOf s, given calls s)

theorem filed_concat {states : List String} {c : Call} (hstate : c.state ∈ states) :
    amend (states.idxOf c.state) (· ++ c.block) (filed states calls) =
      filed states (calls ++ [c]) := by
  have hamend := amend_map (fun s => states.idxOf s) c.state (given calls) (· ++ c.block)
    (nodup_eraseDups (calls.map Call.state))
    (fun s _ h => ((List.idxOf_inj hstate).mp h.symm).symm) given_of_not_mem
  simp only [filed, statesOf, List.map_append, List.map_singleton, eraseDups_concat, given_concat]
  simpa only [List.mem_eraseDups] using hamend

def filedBy (clock : String) (states : List String) (calls : List Call) :
    List (String × List (Nat × Block)) :=
  (domainsOf clock calls).map fun d => (d, filed states (callsIn clock d calls))

theorem filedBy_concat {states : List String} {c : Call} (hstate : c.state ∈ states) :
    amend (c.domain clock) (amend (states.idxOf c.state) (· ++ c.block))
        (filedBy clock states calls) =
      filedBy clock states (calls ++ [c]) := by
  have hamend := amend_map id (c.domain clock) (fun d => filed states (callsIn clock d calls))
    (amend (states.idxOf c.state) (· ++ c.block))
    (nodup_eraseDups (calls.map (Call.domain clock))) (fun _ _ h => h)
    (fun h => by rw [callsIn_of_not_mem h]; rfl)
  have hentry : ∀ d, (if d = c.domain clock then
        amend (states.idxOf c.state) (· ++ c.block) (filed states (callsIn clock d calls))
      else filed states (callsIn clock d calls)) =
      filed states (callsIn clock d (calls ++ [c])) := by
    intro d
    rw [callsIn_concat]
    split
    · exact filed_concat hstate
    · rfl
  simp only [id, hentry, List.mem_eraseDups, ← eraseDups_concat] at hamend
  rw [filedBy, domainsOf, hamend, filedBy, domainsOf, List.map_append, List.map_singleton]

theorem make_eq_ok {c : Call} {m' : Machine} (h : c.make m = .ok m') :
    c.state ∈ m.states ∧
      m' = { m with
        bodies := amend (c.domain m.domain) (amend (m.states.idxOf c.state) (· ++ c.block))
          m.bodies } := by
  have hon : m.on c.state (c.domain m.domain) c.block = .ok m' := by
    cases c with
    | on state domain block => exact h
    | comb state block => exact h
    | sync state block => exact h
  obtain ⟨code, hcode, hm⟩ := bind_eq_ok.mp hon
  obtain ⟨hlt, rfl⟩ := encoding_eq_ok.mp hcode
  exact ⟨List.idxOf_lt_length_iff.mp hlt, (Except.ok.inj hm).symm⟩

/-- After the calls a new machine holds, for each domain and state they name, what they give. -/
theorem bodies_of_calls (hnew : m.bodies = []) {m' : Machine}
    (made : calls.foldlM Call.make m = .ok m') :
    (∀ c ∈ calls, c.state ∈ m.states) ∧
      m' = { m with bodies := filedBy m.domain m.states calls } := by
  induction calls using List.reverseRecOn generalizing m' with
  | nil =>
    cases made
    obtain ⟨name, domain, state, states, bodies⟩ := m
    obtain rfl : bodies = [] := hnew
    exact ⟨by simp, rfl⟩
  | append_singleton calls c ih =>
    rw [List.foldlM_append] at made
    obtain ⟨before, hbefore, hlast⟩ := bind_eq_ok.mp made
    obtain ⟨hstates, rfl⟩ := ih hbefore
    rw [List.foldlM_cons] at hlast
    obtain ⟨after, hafter, hpure⟩ := bind_eq_ok.mp hlast
    cases hpure
    obtain ⟨hstate, rfl⟩ := make_eq_ok hafter
    refine ⟨?_, by rw [← filedBy_concat hstate]⟩
    intro c' hc'
    rcases List.mem_append.mp hc' with hc' | hc'
    · exact hstates c' hc'
    · rw [List.mem_singleton.mp hc']
      exact hstate

/-! ## The switches -/

/-- The switch on the register over the statements that the calls give. -/
def dispatch (m : Machine) (calls : List Call) : Statement :=
  .switch (.signal m.state)
    ((statesOf calls).map fun s => ⟨[.int (m.states.idxOf s)], given calls s⟩)

/-- The register has room for every code, so every case stays. -/
theorem WellBuilt.switch_filed (hm : m.WellBuilt) (hstates : ∀ c ∈ calls, c.state ∈ m.states) :
    m.switch (filed m.states calls) = .ok (m.dispatch calls) := by
  have hwidth : 0 < m.state.width := by
    rw [Signal.width, hm.shape, ← Pattern.bitsNeeded_eq]
    exact Pattern.bitsNeeded_pos _
  rw [switch, Statement.checkedSwitch]
  change (pruneCases _ _ _).result.map _ = _
  rw [pruneCases_of_numbers, filed, List.map_map]
  · rfl
  · intro c hc
    obtain ⟨b, hb, rfl⟩ := List.mem_map.mp hc
    obtain ⟨s, hs, rfl⟩ := List.mem_map.mp hb
    obtain ⟨call, hcall, rfl⟩ := mem_statesOf.mp hs
    have hcode := List.idxOf_lt_length_iff.mpr (hstates call hcall)
    exact ⟨_, rfl, Pattern.bitsNeeded_le hwidth (hm.lt_two_pow hcode)⟩

theorem switches_of_ok {domains : List String} {entry : String → List (Nat × Block)}
    {lowered : String → Statement} (hbodies : m.bodies = domains.map fun d => (d, entry d))
    (h : ∀ d, m.switch (entry d) = .ok (lowered d)) :
    m.switches = .ok (domains.map fun d => (d, lowered d)) := by
  rw [switches, hbodies]
  clear hbodies
  induction domains with
  | nil => rfl
  | cons d rest ih =>
    rw [List.map_cons, switches.go, h, ih]
    rfl

/-- In the switch at most one case fits, the one of the state whose code the register holds. -/
theorem dispatch_execute (hstates : ∀ c ∈ calls, c.state ∈ m.states) {read : State} {code : Nat}
    (heval : (Value.signal m.state).eval read = .ok code) (write : State) :
    (∀ s, m.encoding s = .ok code →
        (m.dispatch calls).execute read write = Block.execute read (given calls s) write) ∧
      ((∀ c ∈ calls, m.encoding c.state ≠ .ok code) →
        (m.dispatch calls).execute read write = .ok write) := by
  obtain ⟨hwidth, hbits⟩ := Value.eval_signal_eq_ok.mp heval
  have hcode : Bits.truncate code m.state.width = code := by
    refine Bits.truncate_of_lt (hwidth.trans (by decide)) ?_
    rw [← hbits]
    exact Bits.truncate_lt _ _
  have hexecute : (m.dispatch calls).execute read write =
      ((statesOf calls).find? fun s => m.states.idxOf s == code).elim (.ok write)
        fun s => Block.execute read (given calls s) write := by
    rw [dispatch, Statement.execute, heval]
    refine (Case.execute_eq_runFirst read code m.state.width _ write).trans ?_
    rw [Case.runFirst, List.find?_map]
    simp only [Function.comp_def, Case.fits_number hcode]
    cases (statesOf calls).find? fun s => m.states.idxOf s == code with
    | none => rfl
    | some s => rfl
  rw [hexecute]
  cases hfind : (statesOf calls).find? fun s => m.states.idxOf s == code with
  | none =>
    refine ⟨fun s hs => ?_, fun _ => rfl⟩
    have hnone : s ∉ statesOf calls := fun hmem =>
      List.find?_eq_none.mp hfind s hmem (by simpa using (encoding_eq_ok.mp hs).2)
    rw [given_of_not_mem hnone]
    rfl
  | some current =>
    have hcurrent : m.states.idxOf current = code := by simpa using List.find?_some hfind
    obtain ⟨c, hc, rfl⟩ := mem_statesOf.mp (List.mem_of_find?_eq_some hfind)
    have hmem := hstates c hc
    refine ⟨fun s hs => ?_, fun hno => ?_⟩
    · have hsame : c.state = s :=
        (List.idxOf_inj hmem).mp (hcurrent.trans (encoding_eq_ok.mp hs).2.symm)
      rw [hsame, Option.elim_some]
    · refine absurd (encoding_eq_ok.mpr ⟨?_, hcurrent⟩) (hno c hc)
      rw [← hcurrent]
      exact List.idxOf_lt_length_iff.mpr hmem

theorem WellBuilt.eval_state (h : m.WellBuilt) (hsmall : m.states.length ≤ 2 ^ evalLimit)
    (read : State) :
    (Value.signal m.state).eval read = .ok (Bits.truncate (read.get m.state) m.state.width) :=
  Value.eval_signal_eq_ok.mpr ⟨h.width_le hsmall, rfl⟩

/-- A built machine with statements given to it always lowers, to one switch for each domain in the
order of first use, with one case for each state that has statements there. While the register holds
the code of a state, a switch runs what was given in its domain for the state, call after call; it
does nothing while nothing was given for the code, be it that of a state or of none. The register
always has a value unless there are more states than the evaluator can tell apart. -/
theorem switches_run_given {id : Nat} {name domain : String} {states : List String}
    {reset : Option String} (built : build id name states reset domain = .ok m) {m' : Machine}
    (made : calls.foldlM Call.make m = .ok m') :
    m'.switches = .ok ((domainsOf m.domain calls).map
        fun d => (d, m'.dispatch (callsIn m.domain d calls))) ∧
      (∀ d ∈ domainsOf m.domain calls, ∀ read write code,
        (Value.signal m'.state).eval read = .ok code →
          (∀ s, m'.encoding s = .ok code →
            (m'.dispatch (callsIn m.domain d calls)).execute read write =
              Block.execute read (given (callsIn m.domain d calls) s) write) ∧
          ((∀ c ∈ callsIn m.domain d calls, m'.encoding c.state ≠ .ok code) →
            (m'.dispatch (callsIn m.domain d calls)).execute read write = .ok write)) ∧
      (states.length ≤ 2 ^ evalLimit → ∀ read, (Value.signal m'.state).eval read =
        .ok (Bits.truncate (read.get m'.state) m'.state.width)) := by
  obtain ⟨hm, hstates⟩ := build_wellBuilt built
  have hnew : m.bodies = [] := by
    obtain ⟨-, code, -, rfl⟩ := build_eq_ok built
    rfl
  obtain ⟨hcalls, rfl⟩ := bodies_of_calls hnew made
  have hin : ∀ d, ∀ c ∈ callsIn m.domain d calls, c.state ∈ m.states :=
    fun d c hc => hcalls c (List.mem_filter.mp hc).1
  refine ⟨?_, fun d _ read write code heval => dispatch_execute (hin d) heval write, ?_⟩
  · exact switches_of_ok rfl fun d => hm.switch_filed (hin d)
  · intro hsmall read
    exact hm.eval_state (hstates ▸ hsmall) read

/-- Statements for two domains and two states, given in turn. -/
def walkerCalls : List Call :=
  [.sync "wait" [.assign (.signal walker.state) (.int 2)],
    .comb "idle" [.assign (.signal (.named 3 "free" 1)) (.int 1)],
    .on "wait" "sync" [.assign (.signal (.named 2 "seen" 1)) (.int 1)]]

/-- The register starts at the second state; three is the code of none. -/
theorem switches_run_given_walker :
    ∃ m' waiting free, walkerCalls.foldlM Call.make { walker with bodies := [] } = .ok m' ∧
      m'.switches = .ok [("sync", waiting), ("comb", free)] ∧
      waiting.execute .empty .empty =
        .ok ((State.empty.setBits walker.state 2).setBits (.named 2 "seen" 1) 1) ∧
      free.execute .empty .empty = .ok .empty ∧
      ∀ write, waiting.execute (State.empty.setBits walker.state 3) write = .ok write := by
  have built : build 0 "walk" ["idle", "wait", "done"] (some "wait") "sync" =
      .ok { walker with bodies := [] } := rfl
  have made : walkerCalls.foldlM Call.make { walker with bodies := [] } =
      .ok { walker with bodies := filedBy "sync" walker.states walkerCalls } := rfl
  obtain ⟨hswitches, hrun, -⟩ := switches_run_given built made
  have hsync : "sync" ∈ domainsOf "sync" walkerCalls := by decide
  have hcomb : "comb" ∈ domainsOf "sync" walkerCalls := by decide
  refine ⟨_, _, _, made, hswitches, ?_, ?_, fun write => ?_⟩
  · exact ((hrun "sync" hsync .empty .empty 1 rfl).1 "wait" rfl).trans rfl
  · refine (hrun "comb" hcomb .empty .empty 1 rfl).2 (List.forall_mem_singleton.mpr ?_)
    rintro ⟨⟩
  · refine (hrun "sync" hsync _ write 3 rfl).2 fun c _ hc => ?_
    exact absurd (encoding_eq_ok.mp hc).1 (by decide)

end Machine

end Gateware
