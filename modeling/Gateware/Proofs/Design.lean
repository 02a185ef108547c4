import Gateware.Design.Summary
import Gateware.Proofs.Closing
import Gateware.Proofs.Naming
import Gateware.Proofs.Rename

/-! # What a design promises

Closing keeps targets complete and over rows with elements, lowering then leaves no selection, and
naming gives an identifier to all that is left. So a design keeps the promises that its summary
checks, and lowering it again does nothing.
-/
namespace Gateware

/-! ## Closing keeps targets complete -/

theorem Value.signal_fullTarget (s : Signal) : (Value.signal s).FullTarget := ⟨⟨rfl, rfl⟩, rfl⟩

/-- Every signal that has a reset is assigned its reset value. -/
theorem resetAssignments_eq {signals : List Signal} {block : Block}
    (h : resetAssignments signals = .ok block) :
    block = (signals.filter fun s => !s.resetLess).map fun s =>
      .assign (.signal s) (.const (.wrap s.reset s.shape)) := by
  induction signals generalizing block with
  | nil =>
    cases h
    rfl
  | cons s rest ih =>
    rw [resetAssignments] at h
    split at h
    · rename_i hless
      rw [List.filter_cons_of_neg (by simp [hless])]
      exact ih h
    · rename_i hless
      obtain ⟨reset, hreset, h⟩ := bind_eq_ok.mp h
      obtain ⟨head, hhead, h⟩ := bind_eq_ok.mp h
      obtain ⟨tail, htail, h⟩ := bind_eq_ok.mp h
      cases h
      obtain ⟨-, -, rfl⟩ := Statement.checkedAssign_eq_ok.mp hhead
      have hconst : reset = .const (.wrap s.reset s.shape) := by
        unfold Value.constant Const.checked at hreset
        split at hreset
        · cases hreset
        · cases hreset
          rfl
      rw [List.filter_cons_of_pos (by simp [hless]), List.map_cons, ih htail, hconst]

theorem resetAssignments_mem {signals : List Signal} {block : Block}
    (h : resetAssignments signals = .ok block) {statement : Statement} (hs : statement ∈ block) :
    ∃ s ∈ signals, ∃ v, statement = .assign (.signal s) v := by
  rw [resetAssignments_eq h] at hs
  obtain ⟨s, hmem, rfl⟩ := List.mem_map.mp hs
  exact ⟨s, List.mem_of_mem_filter hmem, _, rfl⟩

theorem resetAssignments_fullTargets {signals : List Signal} {block : Block}
    (h : resetAssignments signals = .ok block) : Block.FullTargets block := by
  refine Block.every_iff.mpr fun statement hs => ?_
  obtain ⟨s, -, v, rfl⟩ := resetAssignments_mem h hs
  exact Value.signal_fullTarget s

theorem holdAssignments_fullTargets (signals : List Signal) :
    Block.FullTargets (holdAssignments signals) := by
  refine Block.every_iff.mpr fun s hs => ?_
  obtain ⟨signal, -, rfl⟩ := List.mem_map.mp hs
  exact Value.signal_fullTarget signal

namespace Node.FullTargets

variable {n n' : Node}

/-- Appending a statement with complete targets keeps targets complete. -/
theorem insertControl {domain : String}
    {statement : List Signal → Except ConstructionError (Option Statement)}
    (hs : ∀ signals s, statement signals = .ok (some s) → Block.FullTargets [s])
    (h : n.FullTargets) (hn : n.insertControl domain statement = .ok n') : n'.FullTargets := by
  obtain ⟨inserted, hinserted, hn⟩ := bind_eq_ok.mp hn
  cases inserted with
  | none =>
    cases hn
    exact h
  | some s =>
    cases hn
    exact ⟨Blocks.forall_extend (fun _ _ => Block.every_append) h.blocks (hs _ s hinserted) domain,
      h.specials⟩

theorem reset {domain : String} {control : Value} (h : n.FullTargets)
    (hn : n.insertControl domain (resetStatement control) = .ok n') : n'.FullTargets := by
  refine h.insertControl (fun signals s hs => ?_) hn
  obtain ⟨resets, hresets, hs⟩ := bind_eq_ok.mp hs
  split at hs
  · cases hs
  · cases hs
    exact ⟨⟨trivial, resetAssignments_fullTargets hresets, trivial⟩, trivial⟩

theorem enable {domain : String} {control : Value} (h : n.FullTargets)
    (hn : n.insertControl domain (enableStatement control) = .ok n') : n'.FullTargets := by
  refine h.insertControl (fun signals s hs => ?_) hn
  unfold enableStatement at hs
  split at hs
  · cases hs
  · cases hs
    exact ⟨⟨trivial, trivial, holdAssignments_fullTargets signals⟩, trivial⟩

theorem declare {domain : ClockDomain} (h : n.FullTargets) (hn : n.addDomain domain = .ok n') :
    n'.FullTargets := by
  obtain ⟨_, -, hn⟩ := bind_eq_ok.mp hn
  dsimp only at hn
  split at hn
  · cases hn
  · split at hn
    · cases hn
    · cases hn
      exact ⟨h.blocks, h.specials⟩

theorem resolveMemoryDomains (h : n.FullTargets) (domain : String) :
    (n.resolveMemoryDomains domain).FullTargets := by
  refine ⟨h.blocks, fun s hs => ?_⟩
  obtain ⟨t, ht, rfl⟩ := List.mem_map.mp hs
  cases t with
  | memory m => trivial
  | primitive i => exact h.specials _ ht

theorem keptByClosing : Node.KeptByClosing Node.FullTargets where
  hook _ _ h := ⟨h.blocks, h.specials⟩
  transforms _ h := ⟨h.blocks, h.specials⟩
  resolved _ _ h := ⟨h.blocks, h.specials⟩
  finalized _ h := ⟨h.blocks, h.specials⟩
  declare _ _ _ h := h.declare
  memory _ domain h := h.resolveMemoryDomains domain
  rename _ old new h := h.renameDomain old new
  reset _ _ _ _ h := h.reset
  enable _ _ _ _ h := h.enable

end Node.FullTargets

/-! ## Designs -/

section

variable {ω : Type} {config : Config} {build : Builder ω} {depth : Nat} {m : Module}
  {s : Session ω} {design : Design}

theorem Module.lower_value (m : Module) (next : Nat) :
    (m.lower next).value = (m.lowerFrom (.root m.kind) next).value := by
  unfold Module.lower
  dsimp only
  split <;> rfl

theorem Module.lower_result (m : Module) (next : Nat) :
    (m.lower next).result = (m.lowerFrom (.root m.kind) next).result := by
  unfold Module.lower
  dsimp only
  split <;> rfl

/-- A design is a tree closed, lowered to its end and named. -/
theorem Module.elaborate_eq_done (h : (m.elaborate config build depth s).1 = .done design) :
    ∃ next, let closed := (m.finalize config build depth (s.note (.elaborating m.kind))).value
      (closed.lower next).result = .ok () ∧ design.top = (closed.lower next).value ∧
        (design.top.resolveNames config.naming).2 = .ok design.names := by
  unfold Module.elaborate at h
  dsimp only at h
  split at h
  · cases h
  · cases h
  · split at h
    · cases h
    · rename_i hresult
      unfold nameDesign at h
      dsimp only at h
      split at h
      · cases h
      · rename_i hnames
        cases h
        exact ⟨_, hresult, rfl, hnames⟩

/-- The tree of a design is closed and has no selections. -/
theorem Module.elaborate_selectFree (full : m.All Node.FullTargets)
    (hooks : ∀ hook m next world, Module.All Node.FullTargets m →
      (build hook m next world).module.All Node.FullTargets)
    (h : (m.elaborate config build depth s).1 = .done design) :
    design.top.All fun n => n.SelectFree ∧ n.finalized = true := by
  obtain ⟨next, hresult, htop, -⟩ := Module.elaborate_eq_done h
  have hclosed : (m.finalize config build depth
      (s.note (.elaborating m.kind))).value.All Node.FullTargets :=
    full.close Node.FullTargets.keptByClosing hooks depth true _ _
  rw [Module.lower_result] at hresult
  rw [htop, Module.lower_value]
  exact Module.lowerFrom_selectFree hclosed _ _ hresult

end

theorem Special.mem_signals {sp : Special} {v : Value} (hv : v ∈ sp.values) {s : Signal}
    (hs : s ∈ v.signals) : s ∈ sp.signals := by
  cases sp with
  | memory m => cases hv
  | primitive i =>
    obtain ⟨p, hp, rfl⟩ := List.mem_map.mp hv
    exact List.mem_flatMap_of_mem hp hs

/-- The signals of statements and specials are signals of the node. -/
theorem Node.mem_signals {n : Node} {s : Signal}
    (h : s ∈ n.values.flatMap Value.signals ++ n.specials.flatMap Special.signals) :
    s ∈ n.signals := by
  unfold Node.signals
  rcases List.mem_append.mp h with h | h
  · obtain ⟨v, hv, hs⟩ := List.mem_flatMap.mp h
    rcases List.mem_append.mp hv with hv | hv
    · exact List.mem_append_left _ (List.mem_append_right _ (List.mem_flatMap_of_mem hv hs))
    · obtain ⟨sp, hsp, hv⟩ := List.mem_flatMap.mp hv
      exact List.mem_append_right _ (List.mem_flatMap_of_mem hsp (Special.mem_signals hv hs))
  · exact List.mem_append_right _ h

/-- A node without selections whose signals all have identifiers has no fault. -/
theorem Node.fault?_eq_none {names : NameMap} {n : Node} (path : Path)
    (hvalues : ∀ v ∈ n.values, v.selects = false)
    (hnames : ∀ s ∈ n.signals, (names.get? s.id).isSome) : n.fault? names path = none := by
  have hany : n.values.any Value.selects = false := by simpa using hvalues
  unfold Node.fault?
  rw [hany, if_neg Bool.false_ne_true, Option.map_eq_none_iff, List.find?_eq_none]
  intro s hs
  have hsome := hnames s (Node.mem_signals hs)
  simp [Option.isNone_iff_eq_none, Option.isSome_iff_ne_none.mp hsome]

/-- A design made from a tree whose targets and driven connections are complete and over rows with
elements keeps its promises, if deferred constructions build such trees too: no value of a statement
or a connection has a selection, all signals there and at memory ports have identifiers, so that
there is a summary, and lowering the design again changes nothing and counts nothing. -/
theorem Module.elaborate_promises {ω : Type} (config : Config) (build : Builder ω) (depth : Nat)
    (m : Module) (s : Session ω) (full : ∀ x ∈ m.nodes, x.2.FullTargets)
    (hooks : ∀ hook (m : Module) next world, (∀ x ∈ m.nodes, x.2.FullTargets) →
      ∀ x ∈ (build hook m next world).module.nodes, x.2.FullTargets)
    (design : Design) (done : (m.elaborate config build depth s).1 = .done design) :
    (∀ x ∈ design.modules, ∀ v ∈ x.2.values, v.selects = false) ∧
    (∀ x ∈ design.modules,
      ∀ t ∈ x.2.values.flatMap Value.signals ++ x.2.specials.flatMap Special.signals,
        ∃ name, design.names.get? t.id = some name) ∧
    (∃ summary, design.summary = .ok summary) ∧
    ∀ next, design.top.lower next = ⟨design.top, next, [.lowered 0 0], {}, .ok ()⟩ := by
  have hfree : design.top.All fun n => n.SelectFree ∧ n.finalized = true := by
    refine Module.elaborate_selectFree (Module.all_iff_nodes.mpr full) ?_ done
    intro hook m next world h
    exact Module.all_iff_nodes.mpr (hooks hook m next world (Module.all_iff_nodes.mp h))
  obtain ⟨-, -, -, hnames⟩ := Module.elaborate_eq_done done
  have hids := (Module.resolveNames_eq_ok hnames).1
  have hvalues : ∀ x ∈ design.modules, ∀ v ∈ x.2.values, v.selects = false :=
    fun x hx => (Module.all_iff_nodes.mp hfree x hx).1.values
  have hsome : ∀ x ∈ design.modules, ∀ t ∈ x.2.signals, (design.names.get? t.id).isSome := by
    intro x hx t ht
    rw [NameMap.get?_isSome, hids]
    exact Module.mem_signalIds hx ht
  refine ⟨hvalues, fun x hx t ht => ?_, ?_, fun next => ?_⟩
  · exact Option.isSome_iff_exists.mp (hsome x hx t (Node.mem_signals ht))
  · have hnone : (design.modules.findSome? fun x => x.2.fault? design.names x.1) = none :=
      List.findSome?_eq_none_iff.mpr fun x hx =>
        Node.fault?_eq_none x.1 (hvalues x hx) (hsome x hx)
    unfold Design.summary
    rw [hnone]
    exact ⟨_, rfl⟩
  · unfold Module.lower
    rw [Module.lowerFrom_of_selectFree hfree]
    rfl

/-- A tree with selections in a source, in a target whose index is selected too, and at an output
of an instance in a child. -/
def selectingTree : Module :=
  let a := Value.signal (.named 0 "a" 4)
  let b := Value.signal (.named 1 "b" 4)
  let i := Value.signal (.named 2 "i" 1)
  let row : Row := [.value a, .value b]
  { node :=
      { kind := "Top"
        blocks := [(combDomain, [.assign (.select row (.select row i)) (.select row i)])] }
    children := [(none,
      { node :=
          { kind := "Child"
            specials := [.primitive
              { kind := "Source", ports := [⟨.output, "q", .select row i⟩] }] } })] }

def noHooks : Builder Unit := fun _ m next world => ⟨m, next, world, .ok ()⟩

theorem Module.elaborate_promises_selecting :
    (∀ x ∈ selectingTree.nodes, x.2.FullTargets) ∧
      ∃ design, (selectingTree.elaborate {} noHooks 3 ⟨3, [], ()⟩).1 = .done design ∧
        (∀ x ∈ design.modules, ∀ v ∈ x.2.values, v.selects = false) ∧
        (∃ summary, design.summary = .ok summary) ∧
        design.top.lower 9 = ⟨design.top, 9, [.lowered 0 0], {}, .ok ()⟩ := by
  have full : ∀ x ∈ selectingTree.nodes, x.2.FullTargets := by
    refine Module.all_iff_nodes.mp ⟨⟨?_, nofun⟩, ⟨⟨nofun, ?_⟩, trivial⟩, trivial⟩
    · exact List.forall_mem_singleton.mpr ⟨⟨⟨rfl, rfl⟩, rfl⟩, trivial⟩
    · exact List.forall_mem_singleton.mpr
        (List.forall_mem_singleton.mpr fun _ => ⟨⟨rfl, rfl⟩, rfl⟩)
  obtain ⟨design, done⟩ : ∃ design,
      (selectingTree.elaborate {} noHooks 3 ⟨3, [], ()⟩).1 = .done design := ⟨_, rfl⟩
  obtain ⟨hvalues, -, hsummary, hagain⟩ := Module.elaborate_promises {} noHooks 3 selectingTree
    ⟨3, [], ()⟩ full (fun _ _ _ _ h => h) design done
  exact ⟨full, design, done, hvalues, hsummary, hagain 9⟩

end Gateware
