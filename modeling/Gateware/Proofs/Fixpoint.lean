import Gateware.Proofs.Counting
import Gateware.Proofs.Depth
import Gateware.Proofs.Sealed

/-! # Deferred constructions run until they add nothing

A construction that adds children in its first calls and none in the next one is called once more
than it adds, unless that exceeds the limit on rounds. If nothing else fails, finalization then
closes the whole tree, with the children that were there before those that were added. Where
constructions are nested up to a limit only, all this holds at every depth from some depth on.
-/
namespace Gateware

/-! ## Constructions -/

/-- What the operations of construction make of a module: calls to its node and new children. -/
inductive Module.Constructs : Module → Module → Prop
  | refl (m : Module) : Module.Constructs m m
  | call {o m : Module} (call : Node.Call) (h : o.Constructs m) :
      o.Constructs { m with node := m.node.call call }
  | child {o m c m' : Module} (kind : String) (name : Option String) (h : o.Constructs m)
      (hc : (Module.empty kind).Reaches c) (added : m.addChild name c = .ok m') : o.Constructs m'

namespace Module

variable {o m m' : Module}

theorem Constructs.reaches (h : o.Constructs m) : o.Reaches m := by
  induction h with
  | refl => exact .refl o
  | call c _ ih => exact ih.call c
  | child kind name _ hc added ih => exact ih.child kind name hc added

theorem Constructs.children (h : o.Constructs m) : ∃ added, m.children = o.children ++ added := by
  induction h with
  | refl => exact ⟨[], (List.append_nil _).symm⟩
  | call c _ ih => exact ih
  | child kind name _ _ added ih =>
    obtain ⟨before, hbefore⟩ := ih
    obtain rfl := addChild_eq_ok added
    exact ⟨before ++ _, by rw [← List.append_assoc, ← hbefore]⟩

/-- The module at a place below, given by positions of children. -/
def at? : List Nat → Module → Option Module
  | [], m => some m
  | i :: rest, m => m.children[i]?.bind fun c => at? rest c.2

end Module

section

variable {ω : Type} (config : Config) (build : Builder ω)

namespace Closing

/-- The names of the children on the way to a place. -/
def trail : List Nat → Closing ω → List String
  | [], _ => []
  | i :: rest, c => match (c.below config build)[i]? with
    | none => []
    | some d => Module.component d.child :: trail rest d

/-- Nothing fails in a closing, apart from the closings below it and the limit on rounds. -/
structure Clean (c : Closing ω) : Prop where
  calls : ∀ call ∈ c.calls config build, call.made.result = .ok ()
  settles : (c.grown config build).ending = .done → (c.run config build).ending = .done

end Closing

end

namespace Closing

variable {ω : Type} {config : Config} {build : Builder ω} {c d : Closing ω}

theorem path_at? {place : List Nat} (hat : c.at? config build place = some d) :
    d.path = (c.trail config build place).foldl Path.child c.path := by
  induction place generalizing c with
  | nil =>
    cases hat
    rfl
  | cons i rest ih =>
    obtain ⟨b, hb, hrest⟩ := Option.bind_eq_some_iff.mp hat
    have hpath := (start_of_below (List.mem_of_getElem? hb)).2.2
    rw [ih hrest, trail, hb, List.foldl_cons, hpath]

theorem run_done (hend : (c.run config build).ending ≠ .exhausted)
    (h : ∀ place d, c.at? config build place = some d →
      d.Clean config build ∧ ¬ d.Capped config build) : (c.run config build).ending = .done := by
  induction c using byBelow config build with
  | step c ih =>
    obtain ⟨hclean, hcap⟩ := h [] c rfl
    have hbelow : ∀ d ∈ c.below config build, (d.run config build).ending = .done := by
      intro d hd
      obtain ⟨i, hi⟩ := forall_at?_of_mem h hd
      exact ih d hd (below_not_exhausted hend hd) hi
    cases hlive : c.live with
    | true => exact hclean.settles (grown_done hlive hclean.calls hbelow hcap)
    | false => exact (run_of_not_live hlive).2.2 (depth_ne_zero hend)

theorem below_done (h : (c.run config build).ending = .done) (hd : d ∈ c.below config build) :
    (d.run config build).ending = .done := by
  by_contra hnot
  exact hnot ((run_ending hd hnot).symm.trans h)

/-- What fails at some place fails everything above. -/
theorem run_ending_of_at? {place : List Nat} (hat : c.at? config build place = some d)
    (hnot : (d.run config build).ending ≠ .done) :
    (c.run config build).ending = (d.run config build).ending := by
  induction place generalizing c with
  | nil =>
    cases hat
    rfl
  | cons i rest ih =>
    obtain ⟨b, hb, hrest⟩ := Option.bind_eq_some_iff.mp hat
    have hend := ih hrest
    rw [← hend]
    exact run_ending (List.mem_of_getElem? hb) (hend ▸ hnot)

theorem at?_not_exhausted {place : List Nat} (h : (c.run config build).ending ≠ .exhausted)
    (hat : c.at? config build place = some d) : (d.run config build).ending ≠ .exhausted := by
  intro hend
  rw [run_ending_of_at? hat (by simp [hend])] at h
  exact h hend

/-! ## What is left -/

section

variable (hbuild : ∀ hook (m : Module) next world,
  ∃ added, (build hook m next world).module.children = m.children ++ added)

include hbuild

end

end Closing

/-! ## Checking a trace -/

instance Ending.decidableDone (e : Ending) : Decidable (e = .done) :=
  match e with
  | .done => isTrue rfl
  | .failed _ => isFalse nofun
  | .exhausted => isFalse nofun

instance Ending.decidableExhausted (e : Ending) : Decidable (e = .exhausted) :=
  match e with
  | .done => isFalse nofun
  | .failed _ => isFalse nofun
  | .exhausted => isTrue rfl

instance decidableAccepted (r : Except ElabError Unit) : Decidable (r = .ok ()) :=
  match r with
  | .ok () => isTrue rfl
  | .error _ => isFalse nofun

instance Call.decidableGrows {ω : Type} (c : Call ω) : Decidable c.Grows :=
  inferInstanceAs (Decidable (_ ≠ _))

namespace Closing

variable {ω : Type} {config : Config} {build : Builder ω} {c d : Closing ω}

instance decidableClean : Decidable (c.Clean config build) :=
  decidable_of_iff ((∀ call ∈ c.calls config build, call.made.result = .ok ()) ∧
    ((c.grown config build).ending = .done → (c.run config build).ending = .done))
    ⟨fun h => ⟨h.1, h.2⟩, fun h => ⟨h.calls, h.settles⟩⟩

instance decidableCapped : Decidable (c.Capped config build) :=
  decidable_of_iff (∃ call ∈ (c.calls config build)[config.finalize.maxRounds]?.toList,
    call.Grows)
    ⟨fun ⟨call, h, hgrows⟩ => ⟨call, Option.mem_toList.mp h, hgrows⟩,
      fun ⟨call, h, hgrows⟩ => ⟨call, Option.mem_toList.mpr h, hgrows⟩⟩

/-- The closings down to some depth, with their places. -/
def places (config : Config) (build : Builder ω) : Nat → Closing ω → List (List Nat × Closing ω)
  | 0, c => [([], c)]
  | n + 1, c => ([], c) :: (c.below config build).zipIdx.flatMap fun (d, i) =>
      (places config build n d).map fun x => (i :: x.1, x.2)

end Closing

/-! ## One construction that stops growing -/

namespace Closing

variable {ω : Type} {config : Config} {build : Builder ω} {t c : Closing ω} {place : List Nat}
  {hook g k : Nat}

theorem Clean.deepen (hclean : c.Clean config build)
    (h : (c.run config build).ending ≠ .exhausted) (k : Nat) :
    (c.deepen k).Clean config build := by
  constructor
  · rw [(trace_deepen h k).2]
    exact hclean.calls
  · intro hdone
    rw [run_deepen h]
    cases hlive : c.live with
    | false => exact (run_of_not_live hlive).2.2 (depth_ne_zero h)
    | true =>
      have hsame := grown_deepen hlive (fun d _ => stable config build k d)
        (grown_not_exhausted hlive h)
      exact hclean.settles (hsame.1 ▸ hdone)

/-- The closing at the place is that of an open module that defers the construction, whose first `g`
calls add children while the next one does not. Nothing else fails, at this place or any other. -/
structure Converges (config : Config) (build : Builder ω) (t : Closing ω) (place : List Nat)
    (c : Closing ω) (hook g : Nat) : Prop where
  there : t.at? config build place = some c
  unfinished : c.module.node.finalized = false
  defers : c.module.node.hook = some hook
  grows : ∀ k call, (c.calls config build)[k]? = some call →
    (k < g → call.Grows) ∧ (k = g → ¬ call.Grows)
  clean : ∀ other d, t.at? config build other = some d →
    d.Clean config build ∧ (other ≠ place → ¬ d.Capped config build)

namespace Converges

variable (h : t.Converges config build place c hook g)
  (hend : (t.run config build).ending ≠ .exhausted)

include h

theorem live (hend : (t.run config build).ending ≠ .exhausted) : c.live = true :=
  live_of_open h.unfinished (at?_not_exhausted hend h.there)

theorem calls_ok : ∀ call ∈ c.calls config build, call.made.result = .ok () :=
  (h.clean place c h.there).1.calls

include hend

/-- Nothing below the module reaches the limit. -/
theorem below_done : ∀ d ∈ c.below config build, (d.run config build).ending = .done := by
  intro d hd
  obtain ⟨i, hi⟩ := List.mem_iff_getElem?.mp hd
  have hc := at?_not_exhausted hend h.there
  refine run_done (below_not_exhausted hc hd) fun other e he => ?_
  rw [← at?_cons hi, ← at?_append h.there] at he
  exact ⟨(h.clean _ e he).1, (h.clean _ e he).2 (by simp)⟩

theorem length_calls : (c.calls config build).length = min g config.finalize.maxRounds + 1 :=
  Closing.length_calls (h.live hend) h.defers h.calls_ok (h.below_done hend) h.grows

theorem not_capped (hg : g ≤ config.finalize.maxRounds) : ¬ c.Capped config build := by
  rintro ⟨call, hcall, hgrows⟩
  obtain ⟨hlt, -⟩ := List.getElem?_eq_some_iff.mp hcall
  have hlength := h.length_calls hend
  exact (h.grows _ call hcall).2 (by omega) hgrows

theorem capped (hg : config.finalize.maxRounds < g) : c.Capped config build := by
  have hlength := h.length_calls hend
  have hlt : config.finalize.maxRounds < (c.calls config build).length := by omega
  have hcall := List.getElem?_eq_getElem hlt
  exact ⟨_, hcall, (h.grows _ _ hcall).1 hg⟩

theorem done (hg : g ≤ config.finalize.maxRounds) : (t.run config build).ending = .done := by
  refine run_done hend fun other d hd => ?_
  by_cases hother : other = place
  · subst hother
    obtain rfl := Option.some.inj (h.there.symm.trans hd)
    exact ⟨(h.clean _ _ hd).1, h.not_capped hend hg⟩
  · exact ⟨(h.clean other d hd).1, (h.clean other d hd).2 hother⟩

theorem limited (hg : config.finalize.maxRounds < g) :
    (t.run config build).ending = .failed (.finalization (.roundLimit
      ((t.trail config build place).foldl Path.child t.path) config.finalize.maxRounds)) := by
  have hgrown := grown_limited (h.live hend) h.calls_ok (h.below_done hend) (h.capped hend hg)
  have hnot : (c.grown config build).ending ≠ .done := by simp [hgrown]
  have hrun := run_of_grown (h.live hend) hnot
  rw [← path_at? h.there, ← hgrown, ← hrun]
  exact run_ending_of_at? h.there (hrun ▸ hnot)

/-- At a larger depth the same construction does the same. -/
theorem deepen (k : Nat) : (t.deepen k).Converges config build place (c.deepen k) hook g := by
  have hcalls : ∀ {place d}, t.at? config build place = some d →
      (d.deepen k).calls config build = d.calls config build := fun hd =>
    (trace_deepen (at?_not_exhausted hend hd) k).2
  refine ⟨?_, h.unfinished, h.defers, ?_, forall_at?_deepen hend fun other d hd => ?_⟩
  · rw [at?_deepen hend, h.there, Option.map_some]
  · rw [hcalls h.there]
    exact h.grows
  · obtain ⟨hclean, hcapped⟩ := h.clean other d hd
    refine ⟨hclean.deepen (at?_not_exhausted hend hd) k, ?_⟩
    rw [Capped, hcalls hd]
    exact hcapped

end Converges

end Closing

/-! ## The whole run -/

section

variable {ω : Type} {config : Config} {build : Builder ω}

end

end Gateware
