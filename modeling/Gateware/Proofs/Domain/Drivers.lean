import Gateware.Proofs.Domain.Apart

/-! # The domain that drives a signal

A node records for each signal the domain whose statements drive it, and refuses statements of other
domains by that record alone. Statements also get into blocks without the check: as a reset or an
enable, and when a rename makes two blocks one. The record stays exact all the same. A reset or an
enable drives what the block drives already, and a rename changes the record as it changes the
labels. So a signal is driven in one block of a node at most, whatever led to the tree.
-/
namespace Gateware

/-! ## The record -/

namespace Drivers

variable {drivers : Drivers} {id i : Nat} {domain : String}

theorem get?_set :
    (drivers.set i domain).get? id = if i = id then some domain else drivers.get? id := by
  induction drivers with
  | nil => rfl
  | cons d rest ih =>
    obtain ⟨j, e⟩ := d
    rw [set]
    by_cases hj : j = i
    · subst hj
      rw [if_pos rfl, get?, get?]
      split
      · rfl
      · rfl
    · rw [if_neg hj, get?, get?, ih]
      by_cases hid : j = id
      · rw [if_pos hid, if_pos hid, if_neg fun h => hj (hid.trans h.symm)]
      · rw [if_neg hid, if_neg hid]

theorem get?_setAll (signals : List Signal) :
    (drivers.setAll signals domain).get? id =
      if id ∈ signals.map Signal.id then some domain else drivers.get? id := by
  induction signals generalizing drivers with
  | nil => simp [setAll]
  | cons s rest ih =>
    have hstep : (drivers.setAll (s :: rest) domain).get? id =
        if id ∈ rest.map Signal.id then some domain else (drivers.set s.id domain).get? id := ih
    rw [hstep, get?_set, List.map_cons]
    by_cases hrest : id ∈ rest.map Signal.id
    · simp [hrest]
    · by_cases hs : s.id = id
      · simp [hs]
      · simp [hrest, hs, Ne.symm hs]

theorem get?_map (f : String → String) :
    Drivers.get? (drivers.map fun d => (d.1, f d.2)) id = (drivers.get? id).map f := by
  induction drivers with
  | nil => rfl
  | cons d rest ih =>
    rw [List.map_cons, get?, get?, ih]
    split
    · rfl
    · rfl

end Drivers

theorem Node.conflict?_eq_none {n : Node} {domain : String} {signals : List Signal} :
    n.conflict? domain signals = none ↔
      ∀ s ∈ signals, ∀ previous, n.drivers.get? s.id = some previous → previous = domain := by
  induction signals with
  | nil => simp [Node.conflict?]
  | cons s rest ih =>
    rw [Node.conflict?, List.forall_mem_cons, ← ih]
    cases hs : n.drivers.get? s.id with
    | none => simp
    | some previous =>
      by_cases hdomain : previous = domain
      · simp [hdomain]
      · simp [hdomain]

/-! ## Nodes -/

/-- Each domain has one block, and the record of drivers says exactly what the blocks drive. -/
structure Node.Tracked (n : Node) : Prop where
  labels : n.blocks.labels.Nodup
  drivers : ∀ id domain,
    n.drivers.get? id = some domain ↔ Block.Drives (n.blocks.get domain) id

/-- Renaming a label brings what its block drives to the new one. -/
theorem Blocks.drives_rename {blocks : Blocks} (h : blocks.labels.Nodup) (old new label : String)
    (id : Nat) : Block.Drives ((blocks.rename old new).get label) id ↔
      ∃ source, Block.Drives (blocks.get source) id ∧
        (if source = old then new else source) = label := by
  by_cases hne : old = new
  · subst hne
    have hsame : ∀ source, (if source = old then old else source) = source :=
      fun _ => ite_eq_right_iff.mpr Eq.symm
    simp [Blocks.get_rename_self h, hsame]
  · rw [Blocks.get_rename h hne]
    constructor
    · intro hid
      split at hid
      · cases hid
      · rename_i hold
        split at hid
        · rename_i hnew
          rcases Block.drives_append.mp hid with hid | hid
          · exact ⟨new, hid, by rw [if_neg (Ne.symm hne), hnew]⟩
          · exact ⟨old, hid, by rw [if_pos rfl, hnew]⟩
        · exact ⟨label, hid, if_neg hold⟩
    · rintro ⟨source, hid, hlabel⟩
      split at hlabel
      · rename_i hsource
        subst hsource hlabel
        rw [if_neg (Ne.symm hne), if_pos rfl]
        exact Block.drives_append.mpr (.inr hid)
      · rename_i hsource
        subst hlabel
        rw [if_neg hsource]
        split
        · rename_i hnew
          exact Block.drives_append.mpr (.inl (hnew ▸ hid))
        · exact hid

namespace Node.Tracked

variable {n n' : Node} {domain : String}

theorem new (kind : String) : Node.Tracked { kind } := ⟨List.nodup_nil, fun _ _ => by
  simp [Drivers.get?, Blocks.get, Block.drives_iff, Block.targets]⟩

theorem addStatements {block : Block} (h : n.Tracked)
    (added : n.addStatements domain block = .ok n') : n'.Tracked := by
  obtain ⟨hconflict, rfl⟩ := addStatements_eq_ok added
  rw [conflict?_eq_none] at hconflict
  refine ⟨Blocks.nodup_labels_extend h.labels block, fun id label => ?_⟩
  rw [Drivers.get?_setAll, Blocks.get_extend]
  by_cases hid : Block.Drives block id
  · -- what drove the signal before is the domain itself
    have hbefore : ∀ previous, Block.Drives (n.blocks.get previous) id → previous = domain := by
      intro previous hprevious
      obtain ⟨s, hs, rfl⟩ := List.mem_map.mp hid
      exact hconflict s hs previous ((h.drivers _ _).mpr hprevious)
    rw [if_pos (show id ∈ (Block.drives block).map Signal.id from hid), Option.some.injEq]
    constructor
    · rintro rfl
      rw [if_pos rfl]
      exact Block.drives_append.mpr (.inr hid)
    · intro hlabel
      split at hlabel
      · rename_i heq
        exact heq.symm
      · exact (hbefore label hlabel).symm
  · rw [if_neg (show id ∉ (Block.drives block).map Signal.id from hid), h.drivers]
    split
    · rename_i heq
      rw [heq, Block.drives_append, or_iff_left hid]
    · rfl

/-- The check is not needed for a statement that drives only what its block drives. -/
theorem insertControl {statement : List Signal → Except ConstructionError (Option Statement)}
    (hdrives : ∀ signals s, statement signals = .ok (some s) → ∀ t ∈ s.targets, t ∈ signals)
    (h : n.Tracked) (inserted : n.insertControl domain statement = .ok n') : n'.Tracked := by
  obtain ⟨result, hresult, inserted⟩ := bind_eq_ok.mp inserted
  cases result with
  | none =>
    cases inserted
    exact h
  | some s =>
    cases inserted
    refine ⟨Blocks.nodup_labels_extend h.labels [s], fun id label => ?_⟩
    rw [h.drivers, Blocks.get_extend]
    split
    · rename_i heq
      have hwithin : Block.Drives [s] id → Block.Drives (n.blocks.get domain) id := by
        intro hid
        obtain ⟨t, ht, rfl⟩ := Block.drives_iff.mp hid
        rw [Block.targets, Block.targets, List.append_nil] at ht
        exact List.mem_map_of_mem (hdrives _ s hresult t ht)
      rw [heq, Block.drives_append]
      exact ⟨Or.inl, fun hid => hid.elim (fun hid => hid) hwithin⟩
    · rfl

end Node.Tracked

theorem resetAssignments_targets {signals : List Signal} {block : Block}
    (h : resetAssignments signals = .ok block) : ∀ t ∈ Block.targets block, t ∈ signals := by
  intro t ht
  rw [Block.targets_eq] at ht
  obtain ⟨statement, hs, ht⟩ := List.mem_flatMap.mp ht
  obtain ⟨s, hmem, v, rfl⟩ := resetAssignments_mem h hs
  rwa [List.mem_singleton.mp ht]

theorem Block.targets_wholes (signals : List Signal) (source : Signal → Value) :
    Block.targets (signals.map fun s => .assign (.signal s) (source s)) = signals := by
  rw [Block.targets_eq, List.flatMap_map]
  exact List.flatMap_singleton' signals

theorem holdAssignments_targets (signals : List Signal) :
    Block.targets (holdAssignments signals) = signals := Block.targets_wholes signals .signal

namespace Node.Tracked

variable {n n' : Node} {domain : String} {control : Value}

theorem reset (h : n.Tracked)
    (inserted : n.insertControl domain (resetStatement control) = .ok n') : n'.Tracked := by
  refine h.insertControl (fun signals s hs t ht => ?_) inserted
  obtain ⟨resets, hresets, hs⟩ := bind_eq_ok.mp hs
  split at hs
  · cases hs
  · cases hs
    rw [Statement.targets, Block.otherwiseTargets, List.append_nil] at ht
    exact resetAssignments_targets hresets t ht

theorem enable (h : n.Tracked)
    (inserted : n.insertControl domain (enableStatement control) = .ok n') : n'.Tracked := by
  refine h.insertControl (fun signals s hs t ht => ?_) inserted
  unfold enableStatement at hs
  split at hs
  · cases hs
  · cases hs
    rwa [Statement.targets, Block.targets, List.nil_append, Block.otherwiseTargets,
      holdAssignments_targets] at ht

theorem renameDomain (h : n.Tracked) (old new : String) : (n.renameDomain old new).Tracked := by
  constructor
  · have hlabels : (n.renameDomain old new).blocks.labels = (n.blocks.rename old new).labels :=
      Blocks.labels_map _
    rw [hlabels]
    exact Blocks.nodup_labels_rename h.labels
  · intro id label
    have hget : (n.renameDomain old new).blocks.get label =
        Block.mapValues (fun v => v.renameDomain old new)
          ((n.blocks.rename old new).get label) := Blocks.get_map rfl
    have hrecord : (n.renameDomain old new).drivers.get? id =
        (n.drivers.get? id).map fun d => if d = old then new else d :=
      Drivers.get?_map fun d => if d = old then new else d
    rw [hget, hrecord, Block.drives_iff, Block.targets_renameDomain, ← Block.drives_iff,
      Blocks.drives_rename h.labels, Option.map_eq_some_iff]
    simp only [h.drivers]

theorem keptByClosing : Node.KeptByClosing Node.Tracked where
  hook _ _ h := ⟨h.labels, h.drivers⟩
  transforms _ h := ⟨h.labels, h.drivers⟩
  resolved _ _ h := ⟨h.labels, h.drivers⟩
  finalized _ h := ⟨h.labels, h.drivers⟩
  declare _ _ _ h added := by
    obtain ⟨-, rfl⟩ := Node.addDomain_eq_ok added
    exact ⟨h.labels, h.drivers⟩
  memory _ _ h := ⟨h.labels, h.drivers⟩
  rename _ old new h := h.renameDomain old new
  reset _ _ _ _ h := h.reset
  enable _ _ _ _ h := h.enable

/-- In a tracked node the blocks share no signal, and the record names the block of a signal. -/
theorem exact (h : n.Tracked) :
    (n.blocks.Pairwise fun b c =>
      ∀ s ∈ Block.drives b.2, ∀ t ∈ Block.drives c.2, s.id ≠ t.id) ∧
    ∀ id domain, n.drivers.get? id = some domain ↔
      ∃ b ∈ n.blocks, b.1 = domain ∧ ∃ s ∈ Block.drives b.2, s.id = id := by
  have hrecord : ∀ b ∈ n.blocks, ∀ s ∈ Block.drives b.2, n.drivers.get? s.id = some b.1 := by
    intro b hb s hs
    rw [h.drivers, Blocks.get_of_mem h.labels hb]
    exact List.mem_map_of_mem hs
  constructor
  · refine List.Pairwise.imp_of_mem (fun {b c} hb hc hne s hs t ht hid => hne ?_)
      (List.pairwise_map.mp h.labels)
    have hb := hrecord b hb s hs
    rw [hid, hrecord c hc t ht] at hb
    exact (Option.some.inj hb).symm
  · intro id domain
    constructor
    · intro hid
      rw [h.drivers] at hid
      by_cases hlabel : domain ∈ n.blocks.labels
      · exact ⟨_, Blocks.mem_of_label hlabel, rfl, List.mem_map.mp hid⟩
      · rw [Blocks.get_of_not_mem hlabel] at hid
        cases hid
    · rintro ⟨b, hb, rfl, s, hs, rfl⟩
      exact hrecord b hb s hs

end Node.Tracked

/-! ## Trees -/

inductive Node.Call where
  | statements (domain : String) (block : Block)
  | machine (machine : Machine)
  | special (special : Special)
  | domain (domain : ClockDomain)
  | hook (hook : Nat)
  | transform (transform : Transform)

/-- The node after a call. One that refuses it stays as it is, except that a machine may have been
added in part. -/
def Node.call (n : Node) : Node.Call → Node
  | .statements domain block => (n.addStatements domain block).toOption.getD n
  | .machine machine => (n.addMachine machine).1
  | .special special => (n.addSpecial special).toOption.getD n
  | .domain domain => (n.addDomain domain).toOption.getD n
  | .hook hook => (n.setHook hook).toOption.getD n
  | .transform transform => (n.addTransform transform).toOption.getD n

/-- The trees that a tree can become: by calls to its nodes, by new children, by transforms and
renames applied at once, and by finalization at any time and with any outcome. Deferred
constructions do nothing else to the trees they are given. -/
inductive Module.Reaches : Module → Module → Prop
  | refl (m : Module) : Module.Reaches m m
  | call {o m : Module} (call : Node.Call) (h : o.Reaches m) :
      o.Reaches { m with node := m.node.call call }
  | child {o m c m' : Module} (kind : String) (name : Option String) (h : o.Reaches m)
      (hc : (Module.empty kind).Reaches c) (added : m.addChild name c = .ok m') : o.Reaches m'
  | within {o m c c' : Module} {name : Option String} (i : Nat) (name' : Option String)
      (h : o.Reaches m) (hi : m.children[i]? = some (name, c)) (hc : c.Reaches c') :
      o.Reaches { m with children := m.children.set i (name', c') }
  | apply {o m : Module} (t : Transform) (h : o.Reaches m) : o.Reaches (t.apply m).1
  | rename {o m : Module} (old new : String) (h : o.Reaches m) :
      o.Reaches (m.renameDomain old new)
  | finalize {ω : Type} {o m : Module} (config : Config) (build : Builder ω) (depth : Nat)
      (s : Session ω)
      (hooks : ∀ hook m next world, Module.Reaches m (build hook m next world).module)
      (h : o.Reaches m) : o.Reaches (m.finalize config build depth s).value

theorem Module.Reaches.calls {o : Module} {node : Node} {children : List (Option String × Module)}
    (calls : List Node.Call) (h : o.Reaches ⟨node, children⟩) :
    o.Reaches ⟨calls.foldl Node.call node, children⟩ := by
  induction calls generalizing node with
  | nil => exact h
  | cons c rest ih => exact ih (h.call c)

/-- A property that new nodes have, and that calls and closing keep, holds in all that a tree with
the property can become. -/
theorem Module.Reaches.all {P : Node → Prop} (new : ∀ kind, P { kind })
    (call : ∀ n c, P n → P (n.call c)) (closing : Node.KeptByClosing P) {o m : Module}
    (h : o.Reaches m) (ho : o.All P) : m.All P := by
  induction h with
  | refl m => exact ho
  | call c _ ih =>
    obtain ⟨hnode, hchildren⟩ := Module.all_iff.mp (ih ho)
    exact Module.all_iff.mpr ⟨call _ c hnode, hchildren⟩
  | child kind name _ _ added ih ihc =>
    obtain ⟨hnode, hchildren⟩ := Module.all_iff.mp (ih ho)
    obtain rfl := Module.addChild_eq_ok added
    exact Module.all_iff.mpr ⟨hnode, List.forall_mem_append.mpr
      ⟨hchildren, List.forall_mem_singleton.mpr (ihc (Module.all_iff.mpr ⟨new kind, nofun⟩))⟩⟩
  | within i name _ hi _ ih ihc =>
    obtain ⟨hnode, hchildren⟩ := Module.all_iff.mp (ih ho)
    refine Module.all_iff.mpr ⟨hnode, fun d hd => ?_⟩
    rcases List.mem_or_eq_of_mem_set hd with hd | rfl
    · exact hchildren d hd
    · exact ihc (hchildren _ (List.mem_of_getElem? hi))
  | apply t _ ih => exact (ih ho).apply closing t
  | rename old new _ ih => exact (ih ho).renameDomain fun n => closing.rename n old new
  | finalize config build depth s _ _ ihooks ih =>
    exact Module.All.close closing ihooks depth true _ (ih ho) s

theorem Node.Tracked.call {n : Node} (h : n.Tracked) (c : Node.Call) : (n.call c).Tracked := by
  -- only statements and machines touch the blocks and the record
  have kept : ∀ {r : Except ConstructionError Node}, (∀ n', r = .ok n' → n'.Tracked) →
      (r.toOption.getD n).Tracked := by
    intro r hr
    cases r with
    | error e => exact h
    | ok n' => exact hr n' rfl
  cases c with
  | statements domain block => exact kept fun n' added => h.addStatements added
  | machine machine =>
    exact Node.addMachine_keeps (fun _ _ _ _ hn added => hn.addStatements added) h machine
  | domain domain => exact kept fun n' added => Node.Tracked.keptByClosing.declare _ _ _ h added
  | special special =>
    refine kept fun n' added => ?_
    obtain ⟨_, -, added⟩ := bind_eq_ok.mp added
    cases added
    exact ⟨h.labels, h.drivers⟩
  | hook hook =>
    refine kept fun n' added => ?_
    obtain ⟨_, -, added⟩ := bind_eq_ok.mp added
    cases added
    exact ⟨h.labels, h.drivers⟩
  | transform transform =>
    refine kept fun n' added => ?_
    obtain ⟨_, -, added⟩ := bind_eq_ok.mp added
    obtain ⟨_, -, added⟩ := bind_eq_ok.mp added
    cases added
    exact ⟨h.labels, h.drivers⟩

/-- Whatever is done to a new module, refused calls included, and in all trees that it becomes part
of: no two blocks of a node drive the same signal, and the recorded domain of a signal is the label
of the block that drives it. -/
theorem Module.driven_from_one_domain {kind : String} {m : Module}
    (h : (Module.empty kind).Reaches m) {x : Path × Node} (hx : x ∈ m.nodes) :
    (x.2.blocks.Pairwise fun b c =>
      ∀ s ∈ Block.drives b.2, ∀ t ∈ Block.drives c.2, s.id ≠ t.id) ∧
    ∀ id domain, x.2.drivers.get? id = some domain ↔
      ∃ b ∈ x.2.blocks, b.1 = domain ∧ ∃ s ∈ Block.drives b.2, s.id = id := by
  have hall : m.All Node.Tracked := h.all Node.Tracked.new (fun _ c hn => hn.call c)
    Node.Tracked.keptByClosing (Module.all_iff.mpr ⟨Node.Tracked.new kind, nofun⟩)
  exact (Module.all_iff_nodes.mp hall x hx).exact

/-- Statements in two domains, one of which is renamed to the other, a reset and an enable, and a
deferred construction; a call and half of a machine are refused. -/
def mixedCalls : List Node.Call :=
  let bit (id : Nat) := Value.signal (.named id "b" 1)
  let drive (id : Nat) : Block := [.assign (bit id) (bit 2)]
  [.domain (.fresh 0 "x"), .statements "x" (drive 3), .statements "y" (drive 4),
    .statements combDomain (drive 3),
    .machine
      { name := "walk"
        domain := "x"
        state := .named 5 "walk_state" 1
        states := ["left", "right"]
        bodies := [("x", [(0, drive 5)]), ("y", [(1, drive 3)])] },
    .transform (.rename [("y", "x")]), .transform (.insertReset "x" (bit 2)),
    .transform (.insertEnable "x" (bit 2)), .hook 0]

def rivalCalls : List Node.Call :=
  [.domain (.fresh 6 "x"), .statements "x" [.assign (holding.held 8) (holding.held 8)]]

def mixedTree : Module :=
  { node := { kind := "Top" }
    children :=
      [(some "a", { node := mixedCalls.foldl Node.call { kind := "A" } }),
      (some "b", { node := rivalCalls.foldl Node.call { kind := "B" } })] }

/-- Every deferred construction adds one statement without a clock. -/
def drivesComb : Builder Unit := fun _ m next world =>
  let q := Value.signal (.named 9 "q" 1)
  ⟨{ m with node := m.node.call (.statements combDomain [.assign q q]) }, next, world, .ok ()⟩

theorem Module.driven_from_one_domain_mixed :
    (Module.empty "Top").Reaches (mixedTree.finalize {} drivesComb 3 ⟨10, [], ()⟩).value ∧
    ((mixedTree.finalize {} drivesComb 3 ⟨10, [], ()⟩).value.nodes.map fun x =>
        (x.2.finalized, x.2.blocks.labels, x.2.drivers)) =
      [(true, [], []),
        (true, ["a_x", "comb"], [(3, "a_x"), (4, "a_x"), (5, "a_x"), (9, "comb")]),
        (true, ["b_x"], [(8, "b_x")])] ∧
    ∀ x ∈ (mixedTree.finalize {} drivesComb 3 ⟨10, [], ()⟩).value.nodes,
      (x.2.blocks.Pairwise fun b c =>
        ∀ s ∈ Block.drives b.2, ∀ t ∈ Block.drives c.2, s.id ≠ t.id) ∧
      ∀ id domain, x.2.drivers.get? id = some domain ↔
        ∃ b ∈ x.2.blocks, b.1 = domain ∧ ∃ s ∈ Block.drives b.2, s.id = id := by
  have a : (Module.empty "A").Reaches { node := mixedCalls.foldl Node.call { kind := "A" } } :=
    .calls mixedCalls (.refl (.empty "A"))
  have b : (Module.empty "B").Reaches { node := rivalCalls.foldl Node.call { kind := "B" } } :=
    .calls rivalCalls (.refl (.empty "B"))
  have tree : (Module.empty "Top").Reaches mixedTree :=
    .child "B" (some "b") (.child "A" (some "a") (.refl _) a rfl) b rfl
  have reached := tree.finalize {} drivesComb 3 ⟨10, [], ()⟩ fun _ m _ _ => .call _ (.refl m)
  exact ⟨reached, by decide +kernel, fun x hx => Module.driven_from_one_domain reached hx⟩

end Gateware
