import Gateware.Proofs.Renumber

/-! # Naming does not see stale handles

A statement or a special may hold a handle of a clock or a reset from before its domain was renamed,
and naming may meet it first, in a parent of the module that declares the domain. The hint of such a
handle has no effect: a signal that a domain has is named after the handle of the domain, and all
that counts of a mention is which signal it is and the scope of the place.

Trees that differ in such hints only are those that are the same without them; which handles are then
no longer told apart is said by `Signal.withoutHint_eq_iff`.
-/
namespace Gateware

/-! ## Hints left out -/

/-- A handle without its hint if it is one of a listed signal. -/
def Signal.withoutHint (handles : List Signal) (s : Signal) : Signal :=
  if handles.any fun h => h.same s then { s with hint := none } else s

def Node.withoutHints (handles : List Signal) (n : Node) : Node :=
  { n with
    blocks := n.blocks.mapSignals (Signal.withoutHint handles)
    specials := n.specials.map (Special.mapSignals (Signal.withoutHint handles)) }

/-- The tree whose statements and specials have no hints for the listed signals. -/
def Module.withoutHints (handles : List Signal) (m : Module) : Module :=
  m.mapNodes (Node.withoutHints handles)

section

variable {handles : List Signal}

theorem Signal.withoutHint_id (s : Signal) : (s.withoutHint handles).id = s.id := by
  unfold Signal.withoutHint
  split <;> rfl

theorem Signal.withoutHint_scope (s : Signal) : (s.withoutHint handles).scope = s.scope := by
  unfold Signal.withoutHint
  split <;> rfl

/-- No two handles become the same but those of one listed signal that differ in their hints. -/
theorem Signal.withoutHint_eq_iff {s t : Signal} :
    t.withoutHint handles = s.withoutHint handles ↔
      t = s ∨ (∃ h ∈ handles, h.same s = true) ∧ t = { s with hint := t.hint } := by
  have hlisted (hid : t.id = s.id) :
      (handles.any fun h => h.same t) = handles.any fun h => h.same s := by
    simp only [Signal.same, hid]
  constructor
  · intro h
    have hid : t.id = s.id := by rw [← t.withoutHint_id, h, s.withoutHint_id]
    rw [Signal.withoutHint, Signal.withoutHint, hlisted hid] at h
    by_cases hs : (handles.any fun h => h.same s) = true
    · rw [if_pos hs, if_pos hs] at h
      have hback := congrArg (fun u : Signal => { u with hint := t.hint }) h
      exact .inr ⟨List.any_eq_true.mp hs, hback⟩
    · rw [if_neg hs, if_neg hs] at h
      exact .inl h
  · rintro (rfl | ⟨hs, ht⟩)
    · rfl
    · have hid : t.id = s.id := by rw [ht]
      rw [Signal.withoutHint, Signal.withoutHint, hlisted hid, if_pos (List.any_eq_true.mpr hs),
        if_pos (List.any_eq_true.mpr hs), ht]

theorem currentHandle_withoutHint (s : Signal) :
    currentHandle handles (s.withoutHint handles) = currentHandle handles s := by
  unfold Signal.withoutHint
  split
  · rename_i hlisted
    obtain ⟨h, hmem, hsame⟩ := List.any_eq_true.mp hlisted
    have hfound : (handles.reverse.find? fun h => h.same s).isSome :=
      List.find?_isSome.mpr ⟨h, List.mem_reverse.mpr hmem, hsame⟩
    obtain ⟨current, hcurrent⟩ := Option.isSome_iff_exists.mp hfound
    have hcurrent' : (handles.reverse.find? fun h => h.same { s with hint := none }) =
        some current := hcurrent
    rw [currentHandle, currentHandle, hcurrent, hcurrent', Option.getD_some, Option.getD_some]
  · rfl

/-! ## Mentions -/

def Mention.current (handles : List Signal) (mention : Mention) : Mention :=
  { mention with signal := currentHandle handles mention.signal }

/-- Naming depends on the mentions only through the handles it uses for them. -/
theorem nameAll_congr {config : NamingConfig} {mentions mentions' : List Mention}
    (h : mentions'.map (Mention.current handles) = mentions.map (Mention.current handles))
    (names : NameMap) :
    nameAll config handles names mentions' = nameAll config handles names mentions := by
  induction mentions generalizing mentions' names with
  | nil => rw [List.map_eq_nil_iff.mp h]
  | cons mention rest ih =>
    obtain ⟨mention', rest', rfl, hmention, hrest⟩ := List.map_eq_cons_iff.mp h
    obtain ⟨hsignal, hscope⟩ := Mention.mk.inj hmention
    rw [nameAll, nameAll, hsignal, hscope]
    simp only [ih hrest]

/-- The handle that is used for a mention in a changed tree, in the scope it had there. -/
theorem Mention.current_withoutHint (path : Path) (s : Signal) :
    (Mention.at path (s.withoutHint handles)).current handles =
      (Mention.at path s).current handles := by
  rw [Mention.current, Mention.current, Mention.at, Mention.at, Signal.withoutHint_scope,
    currentHandle_withoutHint]

theorem Node.mentions_withoutHints (path : Path) (n : Node) :
    (n.withoutHints handles).signals.map (fun s => (Mention.at path s).current handles) =
      n.signals.map fun s => (Mention.at path s).current handles := by
  have hchanged : ((fun s => (Mention.at path s).current handles) ∘ Signal.withoutHint handles) =
      fun s => (Mention.at path s).current handles := by
    funext s
    exact Mention.current_withoutHint path s
  rw [Node.signals, Node.withoutHints, Blocks.signals_mapSignals, Special.signals_mapSignals,
    Node.signals]
  simp only [List.map_append, List.map_map, hchanged]

end

namespace Module

variable {handles : List Signal}

theorem nodes_withoutHints (m : Module) :
    (m.withoutHints handles).nodes = m.nodes.map fun x => (x.1, x.2.withoutHints handles) := by
  have hkind : ∀ n : Node, (n.withoutHints handles).kind = n.kind := fun _ => rfl
  rw [Module.withoutHints, Module.nodes_mapNodes hkind]

theorem domainSignals_withoutHints (m : Module) :
    (m.withoutHints handles).domainSignals = m.domainSignals := by
  rw [domainSignals, nodes_withoutHints, List.flatMap_map]
  rfl

theorem firstOpen?_withoutHints (m : Module) :
    (m.withoutHints handles).firstOpen? = m.firstOpen? := by
  rw [firstOpen?, nodes_withoutHints, List.find?_map, Option.map_map]
  rfl

/-- The first mentions with the handles that naming uses are the first among all those. -/
theorem mentions_current (m : Module) :
    m.mentions.map (Mention.current handles) =
      keepFirst (fun mention => mention.signal.id) []
        (m.nodes.flatMap fun x => x.2.signals.map fun s => (Mention.at x.1 s).current handles) := by
  have hkey : ∀ mention : Mention, (mention.current handles).signal.id = id mention.signal.id :=
    fun mention => currentHandle_id handles mention.signal
  have happart : ∀ keys : List Nat, KeepsApart id keys := fun _ _ _ _ _ h => h
  have hmap := keepFirst_map (fun mention : Mention => mention.signal.id)
    (fun mention : Mention => mention.signal.id) hkey []
    (m.nodes.flatMap fun x => x.2.signals.map (Mention.at x.1)) (happart _)
  rw [List.map_flatMap] at hmap
  simp only [List.map_map] at hmap
  exact hmap.symm

theorem mentions_withoutHints (m : Module) :
    (m.withoutHints handles).mentions.map (Mention.current handles) =
      m.mentions.map (Mention.current handles) := by
  rw [mentions_current, mentions_current, nodes_withoutHints, List.flatMap_map]
  simp only [Node.mentions_withoutHints]

/-- No hint that statements and specials have for the signals of domains matters. -/
theorem resolveNames_withoutHints (config : NamingConfig) (m : Module) :
    (m.withoutHints m.domainSignals).resolveNames config = m.resolveNames config := by
  rw [resolveNames, resolveNames, firstOpen?_withoutHints, domainSignals_withoutHints,
    nameAll_congr (mentions_withoutHints m)]

end Module

/-- Let two trees differ only in hints that statements and specials have for the clocks and resets
of declared domains: without these hints they are the same. Then naming does the same for both. It
gives the same identifiers to the same signals in the same order, or it stops with the same error,
and it says the same on the way. -/
theorem Module.resolveNames_stale (config : NamingConfig) (m m' : Module)
    (same : m'.withoutHints m.domainSignals = m.withoutHints m.domainSignals) :
    m'.resolveNames config = m.resolveNames config := by
  have hdomains : m'.domainSignals = m.domainSignals := by
    have h := congrArg Module.domainSignals same
    rwa [Module.domainSignals_withoutHints, Module.domainSignals_withoutHints] at h
  calc m'.resolveNames config
      = (m'.withoutHints m.domainSignals).resolveNames config := by
        rw [← hdomains, Module.resolveNames_withoutHints]
    _ = (m.withoutHints m.domainSignals).resolveNames config := by rw [same]
    _ = m.resolveNames config := Module.resolveNames_withoutHints config m

/-- A closed tree whose root mentions the clock of a child under a hint of its own, in a statement
and at a port, and has another signal with the hint `clk`. -/
def clockUser (hint : String) : Module :=
  let clk := Signal.named 2 "pix_clk" 1
  let used := Value.signal (clk.renamed hint)
  { node :=
      { kind := "Top"
        blocks := [(combDomain, [.assign used (.signal (.named 0 "clk" 1))])]
        specials := [.primitive { kind := "BUFG", ports := [⟨.input, "I", used⟩] }]
        finalized := true }
    children := [(some "a",
      { node :=
          { kind := "Leaf"
            declared := [{ name := "pix", clk, rst := none }]
            finalized := true } })] }

/-- With the stale hint the clock would have taken the name of the other signal. -/
theorem Module.resolveNames_stale_clock :
    (clockUser "clk").withoutHints (clockUser "pix_clk").domainSignals =
        (clockUser "pix_clk").withoutHints (clockUser "pix_clk").domainSignals ∧
      (∃ names, ((clockUser "clk").resolveNames {}).2 = .ok names ∧
        names.entries = [(2, "pix_clk"), (0, "clk")]) := by
  have hsame : (clockUser "clk").withoutHints (clockUser "pix_clk").domainSignals =
      (clockUser "pix_clk").withoutHints (clockUser "pix_clk").domainSignals := rfl
  refine ⟨hsame, ?_⟩
  rw [Module.resolveNames_stale {} (clockUser "pix_clk") (clockUser "clk") hsame]
  exact ⟨⟨_⟩, rfl, rfl⟩

end Gateware
