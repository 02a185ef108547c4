import Gateware.Proofs.Domain.Drivers

/-! # Machines that are refused

A machine is added switch by switch, and each switch passes the check of drivers on its own. The
first one that is refused ends the addition; those before it stay in the node with their drivers. So
a node is left as it was only if the first switch is refused already.
-/
namespace Gateware

theorem Blocks.length_extend (blocks : Blocks) (domain : String) (more : Block) :
    ((blocks.extend domain more).flatMap (·.2)).length =
      (blocks.flatMap (·.2)).length + more.length := by
  induction blocks with
  | nil => simp [Blocks.extend]
  | cons b rest ih =>
    obtain ⟨d, block⟩ := b
    rw [Blocks.extend]
    split
    · simp only [List.flatMap_cons, List.length_append]
      omega
    · simp only [List.flatMap_cons, List.length_append, ih]
      omega

namespace Node

variable {n n' : Node} {domain : String} {e : ConstructionError}

/-! ## One switch -/

theorem conflict?_eq_some {signals : List Signal} {signal : Signal} {previous : String}
    (h : n.conflict? domain signals = some (signal, previous)) :
    signal ∈ signals ∧ n.drivers.get? signal.id = some previous ∧ previous ≠ domain := by
  induction signals with
  | nil => cases h
  | cons s rest ih =>
    have hrest : n.conflict? domain rest = some (signal, previous) → signal ∈ s :: rest ∧
        n.drivers.get? signal.id = some previous ∧ previous ≠ domain := by
      intro h
      obtain ⟨hmem, hfacts⟩ := ih h
      exact ⟨List.mem_cons_of_mem _ hmem, hfacts⟩
    rw [conflict?] at h
    cases hs : n.drivers.get? s.id with
    | none =>
      simp only [hs] at h
      exact hrest h
    | some d =>
      simp only [hs] at h
      split at h
      · exact hrest h
      · rename_i hne
        cases h
        exact ⟨List.mem_cons_self, hs, hne⟩

theorem checkOpen_eq_ok : n.checkOpen = .ok () ↔ n.finalized = false := by
  unfold checkOpen
  cases n.finalized with
  | true => simp
  | false => simp

/-- An open node refuses statements only for a signal that another domain drives. -/
theorem addStatements_eq_error {block : Block} (hopen : n.finalized = false)
    (h : n.addStatements domain block = .error e) :
    ∃ signal ∈ Block.drives block, ∃ previous, previous ≠ domain ∧
      n.drivers.get? signal.id = some previous ∧
      e = .driverConflict n.kind signal domain previous := by
  unfold addStatements at h
  rw [checkOpen_eq_ok.mpr hopen] at h
  dsimp only [bind, Except.bind] at h
  split at h
  · rename_i signal previous hconflict
    cases h
    obtain ⟨hmem, hprevious, hne⟩ := conflict?_eq_some hconflict
    exact ⟨signal, hmem, previous, hne, hprevious, rfl⟩
  · cases h

/-! ## Several switches -/

def withSwitches (n : Node) (switches : List (String × Statement)) : Node :=
  { n with
    blocks := switches.foldl (fun blocks s => blocks.extend s.1 [s.2]) n.blocks
    drivers := switches.foldl (fun drivers s => drivers.setAll (Block.drives [s.2]) s.1) n.drivers }

theorem withSwitches_cons {s : Statement} {rest : List (String × Statement)}
    (h : n.addStatements domain [s] = .ok n') :
    n.withSwitches ((domain, s) :: rest) = n'.withSwitches rest := by
  obtain ⟨-, rfl⟩ := addStatements_eq_ok h
  rfl

/-- What is recorded after switches was recorded before or is the domain of a switch. -/
theorem drivers_withSwitches {switches : List (String × Statement)} {id : Nat} {previous : String}
    (h : (n.withSwitches switches).drivers.get? id = some previous) :
    n.drivers.get? id = some previous ∨
      ∃ s ∈ switches, s.1 = previous ∧ Block.Drives [s.2] id := by
  have hall : ∀ (switches : List (String × Statement)) (drivers : Drivers),
      (switches.foldl (fun drivers s => drivers.setAll (Block.drives [s.2]) s.1) drivers).get? id =
          some previous →
        drivers.get? id = some previous ∨
          ∃ s ∈ switches, s.1 = previous ∧ Block.Drives [s.2] id := by
    intro switches
    induction switches with
    | nil => exact fun _ h => .inl h
    | cons s rest ih =>
      intro drivers h
      rcases ih _ h with hdrivers | ⟨t, ht, hfacts⟩
      · rw [Drivers.get?_setAll] at hdrivers
        split at hdrivers
        · rename_i hdriven
          exact .inr ⟨s, List.mem_cons_self, Option.some.inj hdrivers, hdriven⟩
        · exact .inl hdrivers
      · exact .inr ⟨t, List.mem_cons_of_mem _ ht, hfacts⟩
  exact hall switches n.drivers h

/-- Every switch is one statement more. -/
theorem length_withSwitches (n : Node) (switches : List (String × Statement)) :
    ((n.withSwitches switches).blocks.flatMap (·.2)).length =
      (n.blocks.flatMap (·.2)).length + switches.length := by
  have hall : ∀ (switches : List (String × Statement)) (blocks : Blocks),
      ((switches.foldl (fun blocks s => blocks.extend s.1 [s.2]) blocks).flatMap (·.2)).length =
        (blocks.flatMap (·.2)).length + switches.length := by
    intro switches
    induction switches with
    | nil => exact fun _ => rfl
    | cons s rest ih =>
      intro blocks
      rw [List.foldl_cons, ih, Blocks.length_extend]
      simp only [List.length_cons, List.length_nil]
      omega
  exact hall switches n.blocks

theorem withSwitches_eq_self {switches : List (String × Statement)} :
    n.withSwitches switches = n ↔ switches = [] := by
  constructor
  · intro h
    have hlength := length_withSwitches n switches
    rw [h] at hlength
    exact List.eq_nil_of_length_eq_zero (by omega)
  · rintro rfl
    rfl

theorem addSwitches_eq_ok {switches : List (String × Statement)}
    (h : n.addSwitches switches = (n', .ok ())) : n' = n.withSwitches switches := by
  induction switches generalizing n with
  | nil =>
    cases h
    rfl
  | cons s rest ih =>
    obtain ⟨domain, s⟩ := s
    rw [addSwitches] at h
    split at h
    · cases h
    · rename_i next added
      rw [withSwitches_cons added]
      exact ih h

/-- A refusal comes from the first switch that is refused, and leaves those before it. -/
theorem addSwitches_eq_error {switches : List (String × Statement)} (hopen : n.finalized = false)
    (h : n.addSwitches switches = (n', .error e)) :
    ∃ before domain s after, switches = before ++ (domain, s) :: after ∧
      n.addSwitches before = (n', .ok ()) ∧ n'.kind = n.kind ∧ n'.finalized = false ∧
      n'.addStatements domain [s] = .error e := by
  induction switches generalizing n with
  | nil => cases h
  | cons s rest ih =>
    obtain ⟨domain, s⟩ := s
    rw [addSwitches] at h
    split at h
    · rename_i e' refused
      cases h
      exact ⟨[], domain, s, rest, rfl, rfl, rfl, hopen, refused⟩
    · rename_i next added
      have hnext := (addStatements_eq_ok added).2
      have hkind : next.kind = n.kind := by rw [hnext]
      have hstill : next.finalized = false := by rw [hnext]; exact hopen
      obtain ⟨before, domain', s', after, rfl, haccepted, hkind', hfacts⟩ := ih hstill h
      refine ⟨(domain, s) :: before, domain', s', after, rfl, ?_, hkind'.trans hkind, hfacts⟩
      rw [addSwitches, added]
      exact haccepted

end Node

/-! ## Machines -/

theorem Machine.length_switches {m : Machine} {switches : List (String × Statement)}
    (h : m.switches = .ok switches) : switches.length = m.bodies.length := by
  have hall : ∀ (bodies : List (String × List (Nat × Block)))
      (switches : List (String × Statement)),
      Machine.switches.go m bodies = .ok switches → switches.length = bodies.length := by
    intro bodies
    induction bodies with
    | nil =>
      intro switches h
      cases h
      rfl
    | cons b rest ih =>
      intro switches h
      obtain ⟨head, -, h⟩ := bind_eq_ok.mp h
      obtain ⟨tail, htail, h⟩ := bind_eq_ok.mp h
      cases h
      simp [ih tail htail]
  exact hall m.bodies switches h

/-- A machine that cannot be added leaves a node as it was if it has bodies in one domain only, if
the node is closed or if its bodies make no switches. Otherwise a switch is refused, for a signal
that another domain drives in the node or in a switch before it, and exactly the switches before it
are left in the node; these are none only if it is the first. -/
theorem Node.addMachine_stops {n n' : Node} {m : Machine} {e : ConstructionError}
    (h : n.addMachine m = (n', .error e)) :
    (m.bodies.length ≤ 1 → n' = n) ∧
    ((n' = n ∧ (n.checkOpen = .error e ∨ m.switches = .error e)) ∨
      ∃ before domain s after, m.switches = .ok (before ++ (domain, s) :: after) ∧
        n.addSwitches before = (n', .ok ()) ∧ n' = n.withSwitches before ∧
        (n' = n ↔ before = []) ∧
        ∃ signal ∈ Block.drives [s], ∃ previous, previous ≠ domain ∧
          e = .driverConflict n.kind signal domain previous ∧
          (n.drivers.get? signal.id = some previous ∨
            ∃ b ∈ before, b.1 = previous ∧ Block.Drives [b.2] signal.id)) := by
  unfold Node.addMachine at h
  split at h
  · rename_i hclosed
    cases h
    exact ⟨fun _ => rfl, .inl ⟨rfl, .inl hclosed⟩⟩
  · rename_i hopen
    split at h
    · rename_i hswitches
      cases h
      exact ⟨fun _ => rfl, .inl ⟨rfl, .inr hswitches⟩⟩
    · rename_i switches hswitches
      obtain ⟨before, domain, s, after, rfl, haccepted, hkind, hstill, hrefused⟩ :=
        Node.addSwitches_eq_error (Node.checkOpen_eq_ok.mp hopen) h
      have hn' := Node.addSwitches_eq_ok haccepted
      have hsame : n' = n ↔ before = [] := by rw [hn', Node.withSwitches_eq_self]
      obtain ⟨signal, hmem, previous, hne, hprevious, he⟩ :=
        Node.addStatements_eq_error hstill hrefused
      rw [hkind] at he
      rw [hn'] at hprevious
      refine ⟨fun hone => hsame.mpr ?_, .inr ⟨before, domain, s, after, hswitches, haccepted, hn',
        hsame, signal, hmem, previous, hne, he, Node.drivers_withSwitches hprevious⟩⟩
      have hlength := Machine.length_switches hswitches
      simp only [List.length_append, List.length_cons] at hlength
      exact List.eq_nil_of_length_eq_zero (by omega)

/-- A machine of two states that moves its register in one domain and clears a signal in another. -/
def splitMachine : Machine where
  name := "walk"
  domain := "sync"
  state := .named 1 "walk_state" 1
  states := ["left", "right"]
  bodies :=
    [("sync", [(0, [.assign (.signal (.named 1 "walk_state" 1)) (.int 1)])]),
      ("pix", [(0, [.assign (.signal (.named 0 "y" 1)) (.int 0)])])]

/-- A node that drives the signal without a clock. -/
def drivingNode : Node :=
  { kind := "Top"
    blocks := [(combDomain, [.assign (.signal (.named 0 "y" 1)) (.int 1)])]
    drivers := [(0, combDomain)] }

theorem Node.addMachine_stops_halfway :
    ∃ n' e move clear, drivingNode.addMachine splitMachine = (n', .error e) ∧
      splitMachine.switches = .ok [("sync", move), ("pix", clear)] ∧
      n' = drivingNode.withSwitches [("sync", move)] ∧ n' ≠ drivingNode := by
  have h : drivingNode.addMachine splitMachine =
      (_, .error (.driverConflict "Top" (.named 0 "y" 1) "pix" combDomain)) := rfl
  obtain ⟨move, clear, hswitches⟩ : ∃ move clear,
      splitMachine.switches = .ok [("sync", move), ("pix", clear)] := ⟨_, _, rfl⟩
  have hchanged : (drivingNode.addMachine splitMachine).1 ≠ drivingNode := by
    intro heq
    have hlabels := congrArg (fun n => n.blocks.labels.length) heq
    cases hlabels
  refine ⟨_, _, move, clear, h, hswitches, ?_, hchanged⟩
  rcases (Node.addMachine_stops h).2 with ⟨hsame, -⟩ | ⟨before, domain, s, after, hsplit, -, hn',
    hsame, -⟩
  · exact absurd hsame hchanged
  · rw [hswitches] at hsplit
    -- something stays, and it is not all
    rcases before with _ | ⟨first, _ | ⟨second, rest⟩⟩
    · exact absurd (hsame.mpr rfl) hchanged
    · cases hsplit
      exact hn'
    · simp at hsplit

/-- The machine is built and the node made by the operations themselves. The switch of the second
domain is refused, and that of the first stays with its driver. -/
theorem Node.addMachine_leaves_switch :
    Machine.build 1 "walk" ["left", "right"] none "sync" = .ok { splitMachine with bodies := [] } ∧
      Node.addStatements { kind := "Top" } combDomain (drivingNode.blocks.get combDomain) =
        .ok drivingNode ∧
      (drivingNode.addMachine splitMachine).2 =
        .error (.driverConflict "Top" (.named 0 "y" 1) "pix" combDomain) ∧
      drivingNode.blocks.labels = [combDomain] ∧
      (drivingNode.addMachine splitMachine).1.blocks.labels = [combDomain, "sync"] ∧
      (drivingNode.addMachine splitMachine).1.drivers = [(0, combDomain), (1, "sync")] :=
  ⟨rfl, rfl, rfl, rfl, rfl, rfl⟩

end Gateware
