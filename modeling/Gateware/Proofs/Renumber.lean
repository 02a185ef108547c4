import Gateware.Proofs.Handles
import Gateware.Proofs.Naming

/-! # Identifiers do not depend on the numbers of signals

Numbers tell signals apart and do nothing else. If the signals of a tree get other numbers,
different ones for different signals, naming meets them in the same order, sees the same names taken
and so picks the same names.
-/
namespace Gateware

variable {f : Nat → Nat}

/-! ## Other numbers -/

def Signal.renumber (f : Nat → Nat) (s : Signal) : Signal := { s with id := f s.id }

def Value.renumberNode (f : Nat → Nat) : Value → Value
  | .signal s => .signal (s.renumber f)
  | v => v

def Value.renumber (f : Nat → Nat) (v : Value) : Value := v.rebuild (Value.renumberNode f)

def Block.renumber (f : Nat → Nat) (block : Block) : Block :=
  Block.mapValues (Value.renumber f) block

def ClockDomain.renumber (f : Nat → Nat) (d : ClockDomain) : ClockDomain :=
  { d with clk := d.clk.renumber f, rst := d.rst.map (Signal.renumber f) }

def MemoryPort.renumber (f : Nat → Nat) (p : MemoryPort) : MemoryPort :=
  { p with
    adr := p.adr.renumber f
    datR := p.datR.renumber f
    we := p.we.map (Signal.renumber f)
    datW := p.datW.map (Signal.renumber f)
    re := p.re.map (Signal.renumber f) }

def Special.renumber (f : Nat → Nat) : Special → Special
  | .primitive i =>
    .primitive { i with ports := i.ports.map fun p => { p with value := p.value.renumber f } }
  | .memory m => .memory { m with ports := m.ports.map (MemoryPort.renumber f) }

def Transform.renumber (f : Nat → Nat) : Transform → Transform
  | .rename pairs => .rename pairs
  | .insertReset domain control => .insertReset domain (control.renumber f)
  | .insertEnable domain control => .insertEnable domain (control.renumber f)

def Node.renumber (f : Nat → Nat) (n : Node) : Node :=
  { n with
    blocks := n.blocks.map fun (domain, block) => (domain, Block.renumber f block)
    specials := n.specials.map (Special.renumber f)
    declared := n.declared.map (ClockDomain.renumber f)
    resolved := n.resolved.map (ClockDomain.renumber f)
    drivers := n.drivers.map fun (id, domain) => (f id, domain)
    transforms := n.transforms.map (Transform.renumber f) }

mutual
def Module.renumber (f : Nat → Nat) : Module → Module
  | ⟨node, children⟩ => ⟨node.renumber f, Module.renumberAll f children⟩

def Module.renumberAll (f : Nat → Nat) :
    List (Option String × Module) → List (Option String × Module)
  | [] => []
  | (name, m) :: rest => (name, m.renumber f) :: Module.renumberAll f rest
end

def NameMap.renumber (f : Nat → Nat) (names : NameMap) : NameMap :=
  ⟨names.entries.map fun (id, name) => (f id, name)⟩

def NamingError.renumber (f : Nat → Nat) : NamingError → NamingError
  | .identifier s candidate => .identifier (s.renumber f) candidate
  | e => e

/-! ## The signals of a renumbered tree -/

theorem Value.renumber_eq : Value.renumber f = Value.mapSignals (Signal.renumber f) := by
  have hnode : Value.renumberNode f = Value.changeNode (Signal.renumber f) := by
    funext v
    cases v <;> rfl
  funext v
  rw [Value.renumber, hnode, Value.mapSignals]

theorem Special.renumber_eq : Special.renumber f = Special.mapSignals (Signal.renumber f) := by
  funext s
  cases s with
  | primitive i => simp only [Special.renumber, Special.mapSignals, Value.renumber_eq]
  | memory m => rfl

theorem Node.blocks_renumber (n : Node) :
    (n.renumber f).blocks = n.blocks.mapSignals (Signal.renumber f) := by
  simp only [Node.renumber, Block.renumber, Blocks.mapSignals, Value.renumber_eq]

theorem ClockDomain.signals_renumber (d : ClockDomain) :
    (d.renumber f).signals = d.signals.map (Signal.renumber f) := by
  cases hrst : d.rst <;> simp [ClockDomain.signals, ClockDomain.renumber, hrst]

theorem domainSignals_renumber (domains : List ClockDomain) :
    (domains.map (ClockDomain.renumber f)).flatMap ClockDomain.signals =
      (domains.flatMap ClockDomain.signals).map (Signal.renumber f) := by
  simp only [List.flatMap_map, List.map_flatMap, ClockDomain.signals_renumber]

theorem Node.signals_renumber (n : Node) :
    (n.renumber f).signals = n.signals.map (Signal.renumber f) := by
  have hspecials := Special.signals_mapSignals (g := Signal.renumber f) n.specials
  rw [← Special.renumber_eq] at hspecials
  rw [Node.signals, Node.blocks_renumber, Blocks.signals_mapSignals, Node.signals,
    List.map_append, List.map_append, ← domainSignals_renumber, ← hspecials]
  rfl

theorem Module.renumberAll_eq_map (children : List (Option String × Module)) :
    Module.renumberAll f children = children.map fun c => (c.1, c.2.renumber f) :=
  map_of_cons rfl (fun _ _ => rfl) children

theorem Module.renumber_eq (m : Module) : m.renumber f = m.mapNodes (Node.renumber f) := by
  induction m with
  | step node children ih =>
    rw [Module.renumber, Module.mapNodes, Module.renumberAll_eq_map, Module.mapNodesIn_eq_map]
    refine congrArg _ (List.map_congr_left fun c hc => ?_)
    rw [ih c hc]

theorem Module.nodes_renumber (m : Module) :
    (m.renumber f).nodes = m.nodes.map fun x => (x.1, x.2.renumber f) := by
  have hkind : ∀ n : Node, (n.renumber f).kind = n.kind := fun _ => rfl
  rw [Module.renumber_eq, Module.nodes_mapNodes hkind]

theorem Module.domainSignals_renumber (m : Module) :
    (m.renumber f).domainSignals = m.domainSignals.map (Signal.renumber f) := by
  simp only [Module.domainSignals, Module.nodes_renumber, List.flatMap_map, List.map_flatMap]
  refine List.flatMap_congr fun x _ => ?_
  rw [← List.map_flatMap, ← Gateware.domainSignals_renumber]
  rfl

/-! ## Mentions -/

def Mention.renumber (f : Nat → Nat) (mention : Mention) : Mention :=
  { mention with signal := mention.signal.renumber f }

/-- Different keys of the list are taken to different ones. -/
def KeepsApart {α β : Type} (h : α → β) (keys : List α) : Prop :=
  ∀ i ∈ keys, ∀ j ∈ keys, h i = h j → i = j

theorem KeepsApart.mono {α β : Type} {h : α → β} {keys keys' : List α} (hkeys : KeepsApart h keys)
    (hsub : keys' ⊆ keys) : KeepsApart h keys' :=
  fun i hi j hj => hkeys i (hsub hi) j (hsub hj)

theorem keepFirst_map {α β γ δ : Type} [DecidableEq β] [DecidableEq δ] (key : α → β) (key' : γ → δ)
    {g : α → γ} {h : β → δ} (hkey : ∀ a, key' (g a) = h (key a)) (seen : List β) (as : List α)
    (hkeys : KeepsApart h (seen ++ as.map key)) :
    keepFirst key' (seen.map h) (as.map g) = (keepFirst key seen as).map g := by
  induction as generalizing seen with
  | nil => rfl
  | cons a as ih =>
    have hmem : key' (g a) ∈ seen.map h ↔ key a ∈ seen := by
      rw [hkey]
      constructor
      · intro hseen
        obtain ⟨k, hk, heq⟩ := List.mem_map.mp hseen
        have hsame : k = key a := hkeys k (by simp [hk]) (key a) (by simp) heq
        rwa [← hsame]
      · exact List.mem_map_of_mem
    rw [List.map_cons, keepFirst, keepFirst]
    by_cases ha : key a ∈ seen
    · rw [if_pos (hmem.mpr ha), if_pos ha]
      exact ih seen (hkeys.mono (by simp))
    · rw [if_neg (mt hmem.mp ha), if_neg ha, List.map_cons, hkey, ← List.map_cons]
      have hnext := ih (key a :: seen) (hkeys.mono (by simp))
      rw [hnext]

theorem Module.mentions_renumber {m : Module} (hf : KeepsApart f m.signalIds) :
    (m.renumber f).mentions = m.mentions.map (Mention.renumber f) := by
  have hall : ((m.renumber f).nodes.flatMap fun x => x.2.signals.map (Mention.at x.1)) =
      (m.nodes.flatMap fun x => x.2.signals.map (Mention.at x.1)).map (Mention.renumber f) := by
    rw [Module.nodes_renumber, List.flatMap_map, List.map_flatMap]
    refine List.flatMap_congr fun x _ => ?_
    rw [Node.signals_renumber, List.map_map, List.map_map]
    rfl
  have hkey : ∀ mention : Mention, (mention.renumber f).signal.id = f mention.signal.id :=
    fun _ => rfl
  unfold Module.mentions
  rw [hall]
  refine keepFirst_map (fun mention : Mention => mention.signal.id)
    (fun mention : Mention => mention.signal.id) hkey [] _ (hf.mono fun id hid => ?_)
  rw [Module.signalIds, List.mem_eraseDups, List.map_flatMap]
  rw [List.nil_append, List.map_flatMap] at hid
  simp only [List.map_map] at hid
  exact hid

/-- The signals that domains have are among those of the tree. -/
theorem Module.domainSignals_ids {m : Module} {s : Signal} (hs : s ∈ m.domainSignals) :
    s.id ∈ m.signalIds := by
  obtain ⟨x, hx, hs⟩ := List.mem_flatMap.mp hs
  exact Module.mem_signalIds hx (List.mem_append_left _ (List.mem_append_left _ hs))

/-! ## Picking names -/

section

variable {config : NamingConfig} {names : NameMap} {s : Signal} {scope : List String}

theorem NameMap.taken_renumber (names : NameMap) : (names.renumber f).taken = names.taken := by
  funext name
  apply Bool.eq_iff_iff.mpr
  rw [NameMap.taken_iff, NameMap.taken_iff, NameMap.identifiers, NameMap.renumber, List.map_map]
  rfl

theorem NameMap.size_renumber (names : NameMap) : (names.renumber f).size = names.size := by
  simp [NameMap.size, NameMap.renumber]

theorem NameMap.insert_renumber (names : NameMap) (id : Nat) (name : String) :
    (names.renumber f).insert (f id) name = (names.insert id name).renumber f := by
  simp [NameMap.insert, NameMap.renumber]

theorem NameMap.get?_renumber {i : Nat} (hf : KeepsApart f (i :: names.ids)) :
    (names.renumber f).get? (f i) = names.get? i := by
  have hsame : ∀ e ∈ names.entries, (f e.1 == f i) = (e.1 == i) := by
    intro e he
    apply Bool.eq_iff_iff.mpr
    simp only [beq_iff_eq]
    refine ⟨fun heq => hf _ ?_ _ List.mem_cons_self heq, congrArg f⟩
    exact List.mem_cons_of_mem _ (List.mem_map_of_mem he)
  unfold NameMap.get? NameMap.renumber
  rw [List.find?_map, Option.map_map]
  exact congrArg (Option.map Prod.snd) (List.find?_congr hsame)

theorem firstNumbered_renumber (separator base : String) (n tries : Nat) :
    firstNumbered (names.renumber f) separator base n tries =
      firstNumbered names separator base n tries := by
  induction tries generalizing n with
  | zero => rfl
  | succ tries ih => simp only [firstNumbered, NameMap.taken_renumber, ih]

theorem pickName_renumber (config : NamingConfig) (names : NameMap) (s : Signal)
    (scope : List String) :
    pickName config (names.renumber f) (s.renumber f) scope =
      (pickName config names s scope).mapError (NamingError.renumber f) := by
  have hhint : (s.renumber f).hint = s.hint := rfl
  unfold pickName
  simp only [NameMap.taken_renumber, NameMap.size_renumber, firstNumbered_renumber, hhint]
  split
  · rfl
  · split <;> rfl

theorem currentHandle_renumber {handles : List Signal}
    (hf : KeepsApart f ((s :: handles).map Signal.id)) :
    currentHandle (handles.map (Signal.renumber f)) (s.renumber f) =
      (currentHandle handles s).renumber f := by
  have hsame : ∀ h ∈ handles.reverse, (h.renumber f).same (s.renumber f) = h.same s := by
    intro h hh
    have hmem : h ∈ handles := List.mem_reverse.mp hh
    apply Bool.eq_iff_iff.mpr
    simp only [Signal.same, Signal.renumber, beq_iff_eq]
    refine ⟨fun heq => hf _ ?_ _ ?_ heq, congrArg f⟩
    · exact List.mem_map_of_mem (List.mem_cons_of_mem _ hmem)
    · exact List.mem_map_of_mem List.mem_cons_self
  unfold currentHandle
  rw [← List.map_reverse, List.find?_map, Option.getD_map]
  exact congrArg (fun found => (Option.getD found s).renumber f) (List.find?_congr hsame)

end

theorem nameAll_renumber (config : NamingConfig) (handles : List Signal) (names : NameMap)
    (mentions : List Mention)
    (hf : KeepsApart f ((mentions.map Mention.signal ++ handles).map Signal.id)) :
    (nameAll config (handles.map (Signal.renumber f)) (names.renumber f)
        (mentions.map (Mention.renumber f))).result =
      ((nameAll config handles names mentions).result.map (NameMap.renumber f)).mapError
        (NamingError.renumber f) := by
  induction mentions generalizing names with
  | nil => rfl
  | cons mention rest ih =>
    have hhandle : currentHandle (handles.map (Signal.renumber f)) (mention.signal.renumber f) =
        (currentHandle handles mention.signal).renumber f :=
      currentHandle_renumber (hf.mono (by simp))
    have hrest := fun name => ih (names.insert (currentHandle handles mention.signal).id name)
      (hf.mono (by simp))
    rw [List.map_cons, nameAll, nameAll]
    simp only [Mention.renumber, hhandle, pickName_renumber]
    cases hpick : pickName config names (currentHandle handles mention.signal) mention.scope with
    | error e => rfl
    | ok name =>
      simp only [Except.mapError, Signal.renumber, NameMap.insert_renumber]
      exact hrest name

/-! ## Trees -/

theorem Module.resolveNames_of_closed {m : Module} (config : NamingConfig)
    (closed : ∀ x ∈ m.nodes, x.2.finalized = true) :
    (m.resolveNames config).2 =
      (nameAll config m.domainSignals {} m.mentions).result.mapError .naming := by
  rw [Module.resolveNames, Module.firstOpen?_eq_none.mpr closed]

theorem Module.resolveNames_renumber_result {m : Module} (config : NamingConfig)
    (closed : ∀ x ∈ m.nodes, x.2.finalized = true) (hf : KeepsApart f m.signalIds) :
    ((m.renumber f).resolveNames config).2 =
      (((nameAll config m.domainSignals {} m.mentions).result.map (NameMap.renumber f)).mapError
        (NamingError.renumber f)).mapError .naming := by
  have closed' : ∀ x ∈ (m.renumber f).nodes, x.2.finalized = true := by
    rw [Module.nodes_renumber]
    exact List.forall_mem_map.mpr closed
  have hids : (m.mentions.map Mention.signal ++ m.domainSignals).map Signal.id ⊆ m.signalIds := by
    intro id hid
    rw [List.map_append, List.map_map] at hid
    rcases List.mem_append.mp hid with hid | hid
    · rw [← Module.mentions_ids]
      exact hid
    · obtain ⟨s, hs, rfl⟩ := List.mem_map.mp hid
      exact Module.domainSignals_ids hs
  rw [Module.resolveNames_of_closed config closed', Module.mentions_renumber hf,
    Module.domainSignals_renumber]
  exact congrArg _ (nameAll_renumber config m.domainSignals {} m.mentions (hf.mono hids))

/-- Let the signals of a closed tree get other numbers, different ones for different signals. Naming
succeeds for the renumbered tree exactly if it does for the tree itself, and then gives the
renumbered signals the same names in the same order; otherwise it stops at the same signal with the
same name at hand. -/
theorem Module.resolveNames_renumber (config : NamingConfig) (m : Module)
    (closed : ∀ x ∈ m.nodes, x.2.finalized = true) (f : Nat → Nat)
    (apart : ∀ i ∈ m.signalIds, ∀ j ∈ m.signalIds, f i = f j → i = j) :
    (∀ names', ((m.renumber f).resolveNames config).2 = .ok names' ↔
      ∃ names, (m.resolveNames config).2 = .ok names ∧
        names'.entries = names.entries.map fun (id, name) => (f id, name)) ∧
    (∀ e', ((m.renumber f).resolveNames config).2 = .error e' ↔
      ∃ s candidate, (m.resolveNames config).2 = .error (.naming (.identifier s candidate)) ∧
        e' = .naming (.identifier (s.renumber f) candidate)) ∧
    ∀ names names', (m.resolveNames config).2 = .ok names →
      ((m.renumber f).resolveNames config).2 = .ok names' →
      ∀ i ∈ m.signalIds, names'.get? (f i) = names.get? i := by
  have hresult := Module.resolveNames_renumber_result config closed apart
  have horiginal := Module.resolveNames_of_closed config closed
  have hnames : ∀ names', ((m.renumber f).resolveNames config).2 = .ok names' ↔
      ∃ names, (m.resolveNames config).2 = .ok names ∧ names' = names.renumber f := by
    intro names'
    rw [hresult, horiginal]
    cases (nameAll config m.domainSignals {} m.mentions).result with
    | error e => simp [Except.map, Except.mapError]
    | ok names => simp [Except.map, Except.mapError, eq_comm]
  refine ⟨fun names' => ?_, fun e' => ?_, fun names names' hn hn' i hi => ?_⟩
  · rw [hnames]
    refine exists_congr fun names => and_congr_right fun _ => ?_
    exact ⟨fun h => h ▸ rfl, fun h => congrArg NameMap.mk h⟩
  · rw [hresult, horiginal]
    cases hnamed : (nameAll config m.domainSignals {} m.mentions).result with
    | ok names => simp [Except.map, Except.mapError]
    | error e =>
      obtain ⟨s, candidate, rfl⟩ := nameAll_eq_error hnamed
      simp [Except.map, Except.mapError, NamingError.renumber, eq_comm]
  · obtain ⟨names₀, hn₀, rfl⟩ := (hnames names').mp hn'
    obtain rfl : names = names₀ := Except.ok.inj (hn.symm.trans hn₀)
    obtain ⟨hids, -⟩ := Module.resolveNames_eq_ok hn
    refine NameMap.get?_renumber (KeepsApart.mono apart ?_)
    rw [hids]
    exact List.cons_subset.mpr ⟨hi, List.Subset.refl _⟩

/-- A closed tree with a clock that one statement knows by an older hint, and with four signals of
one hint, three of them in a child. -/
def sameHintsModule : Module :=
  let clk := Signal.named 2 "pix_clk" 1
  let x (id : Nat) := Value.signal (.named id "x" 1)
  { node :=
      { kind := "Top"
        declared := [{ name := "pix", clk, rst := none }]
        blocks := [(combDomain, [.assign (x 0) (.signal (clk.renamed "clk"))])]
        finalized := true }
    children := [(some "a",
      { node :=
          { kind := "Leaf"
            blocks := [(combDomain, [.assign (x 1) (.op .and [x 5, x 6])])]
            finalized := true } })] }

/-- Numbers counted down from nine are different for the signals here. Without numbers at the end
of names the last signal has none. -/
theorem Module.resolveNames_renumber_down :
    (∀ x ∈ sameHintsModule.nodes, x.2.finalized = true) ∧
      (∀ i ∈ sameHintsModule.signalIds, ∀ j ∈ sameHintsModule.signalIds, 9 - i = 9 - j → i = j) ∧
      (∃ names, ((sameHintsModule.renumber (9 - ·)).resolveNames {}).2 = .ok names ∧
        names.entries = [(7, "pix_clk"), (9, "x"), (8, "a_x"), (4, "Top_a_x"), (3, "Top_a_x_1")]) ∧
      ((sameHintsModule.renumber (9 - ·)).resolveNames { numericSuffix := false }).2 =
        .error (.naming (.identifier (.named 3 "x" 1) "Top_a_x")) := by
  have closed : ∀ x ∈ sameHintsModule.nodes, x.2.finalized = true := by
    simp [sameHintsModule, Module.nodes, Module.walk, Module.walkAll]
  have apart : ∀ i ∈ sameHintsModule.signalIds, ∀ j ∈ sameHintsModule.signalIds,
      9 - i = 9 - j → i = j := by decide
  obtain ⟨hok, -, -⟩ := Module.resolveNames_renumber {} sameHintsModule closed (9 - ·) apart
  obtain ⟨-, herror, -⟩ := Module.resolveNames_renumber { numericSuffix := false }
    sameHintsModule closed (9 - ·) apart
  refine ⟨closed, apart, ⟨⟨_⟩, (hok _).mpr ⟨_, rfl, rfl⟩, rfl⟩, ?_⟩
  exact (herror _).mpr ⟨.named 6 "x" 1, "Top_a_x", rfl, rfl⟩

end Gateware
