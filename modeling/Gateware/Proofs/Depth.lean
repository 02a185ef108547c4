import Gateware.Proofs.Trace

/-! # How deep a closing has to go

Closing takes the depth that it may reach. Once that is enough, a larger one gives the same run with
the same trace. Without deferred constructions the height of the tree is enough. With them some
depth is enough as long as they are nested finitely, since a module is called for finitely many
rounds, a call adds finitely many children, and the children that no call adds are smaller trees.
-/
namespace Gateware

section

variable {ω : Type} {config : Config} {build : Builder ω} {depth k : Nat} {path : Path}

def Closing.deepen (k : Nat) (c : Closing ω) : Closing ω := { c with depth := c.depth + k }

/-! ## A larger depth -/

/-- The closing is run in the same way when it may go deeper, if it comes to an end at all. -/
def Closing.Stable (config : Config) (build : Builder ω) (k : Nat) (c : Closing ω) : Prop :=
  (c.run config build).ending ≠ .exhausted → (c.deepen k).run config build = c.run config build

theorem closeChildren_deepen {children : List (Option String × Module)} {s : Session ω}
    (hstable : ∀ d ∈ closingsOf config build depth path children s, d.Stable config build k)
    (h : (closeChildren (Module.close config build depth false) path children s).ending ≠
      .exhausted) :
    closeChildren (Module.close config build (depth + k) false) path children s =
        closeChildren (Module.close config build depth false) path children s ∧
      closingsOf config build (depth + k) path children s =
        (closingsOf config build depth path children s).map (Closing.deepen k) := by
  induction children generalizing s with
  | nil => exact ⟨rfl, rfl⟩
  | cons x rest ih =>
    have hx : (Closing.ofChild depth path x s).Stable config build k :=
      hstable _ (by rw [closingsOf]; exact List.mem_cons_self)
    by_cases hdone : ((Closing.ofChild depth path x s).run config build).ending = .done
    · have hrun : (Closing.ofChild (depth + k) path x s).run config build =
          (Closing.ofChild depth path x s).run config build := hx (by simp [hdone])
      have hdone' := hrun ▸ hdone
      rw [closingsOf_of_done hdone] at hstable
      rw [closeChildren_of_done hdone] at h
      obtain ⟨hvalue, htrace⟩ := ih (List.forall_mem_cons.mp hstable).2 h
      rw [closeChildren_of_done hdone, closeChildren_of_done hdone', closingsOf_of_done hdone,
        closingsOf_of_done hdone', Closing.closed, Closing.closed, hrun, hvalue, htrace]
      exact ⟨rfl, rfl⟩
    · rw [closeChildren_of_not_done hdone] at h
      have hrun : (Closing.ofChild (depth + k) path x s).run config build =
          (Closing.ofChild depth path x s).run config build := hx h
      have hdone' := hrun ▸ hdone
      rw [closeChildren_of_not_done hdone, closeChildren_of_not_done hdone',
        closingsOf_of_not_done hdone, closingsOf_of_not_done hdone', Closing.closed, Closing.closed,
        hrun]
      exact ⟨rfl, rfl⟩

theorem Call.closeAdded_deepen {call : Call ω} {round : Nat} {s : Session ω}
    (hstable : ∀ d ∈ closingsOf config build depth path call.added (call.reported path round s),
      d.Stable config build k)
    (h : (call.closeAdded config build depth path round s).ending ≠ .exhausted) :
    call.closeAdded config build (depth + k) path round s =
        call.closeAdded config build depth path round s ∧
      closingsOf config build (depth + k) path call.added (call.reported path round s) =
        (closingsOf config build depth path call.added (call.reported path round s)).map
          (Closing.deepen k) := by
  obtain ⟨hvalue, htrace⟩ := closeChildren_deepen hstable h
  refine ⟨?_, htrace⟩
  unfold closeAdded closeFrom
  rw [show call.made.module.children.drop call.given.children.length = call.added from rfl, hvalue]

theorem Rounds.deepen {hook left round : Nat} {m : Module} {s : Session ω}
    {trace : List (Call ω × List (Closing ω))} {p : Progress Module ω}
    (h : Rounds config build hook depth path left round m s trace p)
    (hstable : ∀ d ∈ trace.flatMap Prod.snd, d.Stable config build k)
    (hp : p.ending ≠ .exhausted) :
    Rounds config build hook (depth + k) path left round m s
      (trace.map (Prod.map id (List.map (Closing.deepen k)))) p := by
  induction h with
  | failed made error => exact .failed made error
  | settled made ok still => exact .settled made ok still
  | limit made ok grows => exact .limit made ok grows
  | stopped made ok grows stop =>
    rw [List.flatMap_singleton] at hstable
    obtain ⟨hvalue, htrace⟩ := Call.closeAdded_deepen hstable hp
    rw [List.map_singleton, Prod.map_apply, ← htrace, ← hvalue]
    exact .stopped made ok grows (hvalue ▸ stop)
  | again made ok grows added done _ ih =>
    subst added
    obtain ⟨hhead, htail⟩ := List.forall_mem_append.mp hstable
    obtain ⟨hvalue, htrace⟩ := Call.closeAdded_deepen hhead (by simp [done])
    rw [List.map_cons, Prod.map_apply, ← htrace]
    exact .again made ok grows hvalue.symm done (ih htail hp)

theorem runHook_deepen {hook maxRounds : Nat} {m : Module} {s : Session ω}
    (hhook : m.node.hook = some hook)
    (hstable : ∀ d ∈ (roundsOf config build hook depth path maxRounds 0 m.withoutHook s).flatMap
      Prod.snd, d.Stable config build k)
    (h : (runHook build (Module.close config build depth false) maxRounds path m s).ending ≠
      .exhausted) :
    runHook build (Module.close config build (depth + k) false) maxRounds path m s =
        runHook build (Module.close config build depth false) maxRounds path m s ∧
      roundsOf config build hook (depth + k) path maxRounds 0 m.withoutHook s =
        (roundsOf config build hook depth path maxRounds 0 m.withoutHook s).map
          (Prod.map id (List.map (Closing.deepen k))) := by
  obtain ⟨p, hrounds, hend, -, -⟩ := runHook_rounds config depth maxRounds path s hhook
  obtain ⟨htrace, hrun⟩ := (hrounds.deepen hstable (hend ▸ h)).eq_run
  have hsame := hrun.trans hrounds.eq_run.2.symm
  rw [Module.withoutHook] at hsame
  refine ⟨?_, htrace⟩
  unfold runHook
  simp only [hhook, hsame]

namespace Closing

variable {c d : Closing ω}

theorem live_deepen (h : c.depth ≠ 0) (k : Nat) : (c.deepen k).live = c.live := by
  have hdeepen : (c.deepen k).depth ≠ 0 := by
    simp only [deepen]
    omega
  rw [live, live, bne_iff_ne.mpr h, bne_iff_ne.mpr hdeepen]
  rfl

theorem live_deepen_of_live (h : c.live = true) (k : Nat) : (c.deepen k).live = true :=
  (live_deepen (depth_ne_zero_of_live h) k).trans h

theorem depth_deepen (h : c.live = true) (k : Nat) :
    (c.deepen k).depth - 1 = c.depth - 1 + k := by
  have hdepth := depth_ne_zero_of_live h
  simp only [deepen]
  omega

theorem first_deepen (hlive : c.live = true)
    (hstable : ∀ d ∈ c.initial config build, d.Stable config build k)
    (h : (c.first config build).ending ≠ .exhausted) :
    (c.deepen k).first config build = c.first config build ∧
      (c.deepen k).initial config build = (c.initial config build).map (deepen k) := by
  rw [first, closeFrom_zero] at h
  rw [initial, if_pos hlive] at hstable
  obtain ⟨hvalue, htrace⟩ := closeChildren_deepen hstable h
  rw [← depth_deepen hlive k] at hvalue htrace
  constructor
  · rw [first, first, closeFrom_zero, closeFrom_zero, ← hvalue]
    rfl
  · rw [initial, initial, if_pos hlive, if_pos (live_deepen_of_live hlive k), ← htrace]
    rfl

theorem grown_deepen (hlive : c.live = true)
    (hstable : ∀ d ∈ c.below config build, d.Stable config build k)
    (h : (c.grown config build).ending ≠ .exhausted) :
    (c.deepen k).grown config build = c.grown config build ∧
      (c.deepen k).initial config build = (c.initial config build).map (deepen k) ∧
      (c.deepen k).rounds config build =
        (c.rounds config build).map (Prod.map id (List.map (deepen k))) := by
  obtain ⟨hinitial, hadditions⟩ := List.forall_mem_append.mp hstable
  have hfirst : (c.first config build).ending ≠ .exhausted := by
    intro hend
    rw [grown, Progress.andThen_of_not_done (by simp [hend])] at h
    exact h hend
  obtain ⟨hvalue, htrace⟩ := first_deepen hlive hinitial hfirst
  have hlive' := live_deepen_of_live hlive k
  by_cases hnone : (c.first config build).ending = .done → c.module.node.hook = none
  · obtain ⟨hnil, hgrown⟩ := rounds_eq_nil hlive hnone
    obtain ⟨hnil', hgrown'⟩ := rounds_eq_nil hlive' (hvalue ▸ hnone)
    rw [hgrown', hvalue, hgrown, hnil', hnil]
    exact ⟨rfl, htrace, rfl⟩
  · push Not at hnone
    obtain ⟨hdone, hsome⟩ := hnone
    obtain ⟨hook, hhook⟩ := Option.ne_none_iff_exists'.mp hsome
    rw [additions, rounds_of_hook hlive hdone hhook] at hadditions
    rw [grown, Progress.andThen_of_done hdone] at h
    obtain ⟨hrun, hrounds⟩ := runHook_deepen ((first_hook config build c).trans hhook)
      hadditions h
    rw [← depth_deepen hlive k] at hrun hrounds
    refine ⟨?_, htrace, ?_⟩
    · rw [grown, grown, hvalue, Progress.andThen_of_done hdone, Progress.andThen_of_done hdone]
      exact hrun
    · rw [rounds_of_hook hlive hdone hhook, rounds_of_hook hlive' (hvalue ▸ hdone) hhook, hvalue]
      exact hrounds

theorem grown_not_exhausted (hlive : c.live = true)
    (h : (c.run config build).ending ≠ .exhausted) :
    (c.grown config build).ending ≠ .exhausted := by
  intro hend
  rw [run_of_grown hlive (by simp [hend])] at h
  exact h hend

theorem stable (config : Config) (build : Builder ω) (k : Nat) (c : Closing ω) :
    c.Stable config build k := by
  induction c using byBelow config build with
  | step c ih =>
    intro h
    have hlive' := live_deepen (depth_ne_zero h) k
    cases hlive : c.live with
    | true =>
      obtain ⟨hvalue, -⟩ := grown_deepen hlive ih (grown_not_exhausted hlive h)
      rw [run_of_live hlive, run_of_live (hlive'.trans hlive), hvalue]
      rfl
    | false =>
      have hfinalized : c.module.node.finalized = true := by
        by_contra hopen
        rw [live_of_open (Bool.eq_false_of_not_eq_true hopen) h] at hlive
        cases hlive
      obtain ⟨depth, root, name, path, m, s⟩ := c
      cases depth with
      | zero => exact absurd rfl h
      | succ depth =>
        rw [deepen, run, run, Nat.add_right_comm, Module.close_of_finalized hfinalized,
          Module.close_of_finalized hfinalized]

/-- A closing that comes to an end is run in the same way at every larger depth. -/
theorem run_deepen (h : (c.run config build).ending ≠ .exhausted) (k : Nat) :
    (c.deepen k).run config build = c.run config build :=
  stable config build k c h

theorem below_not_exhausted (h : (c.run config build).ending ≠ .exhausted)
    (hd : d ∈ c.below config build) : (d.run config build).ending ≠ .exhausted := by
  intro hend
  rw [run_ending hd (by simp [hend])] at h
  exact h hend

theorem trace_deepen (h : (c.run config build).ending ≠ .exhausted) (k : Nat) :
    (c.deepen k).below config build = (c.below config build).map (deepen k) ∧
      (c.deepen k).calls config build = c.calls config build := by
  have hlive' := live_deepen (depth_ne_zero h) k
  cases hlive : c.live with
  | false =>
    rw [hlive] at hlive'
    rw [below_of_not_live hlive, below_of_not_live hlive', calls_of_not_live hlive,
      calls_of_not_live hlive']
    exact ⟨rfl, rfl⟩
  | true =>
    obtain ⟨-, hinitial, hrounds⟩ := grown_deepen hlive (fun d _ => stable config build k d)
      (grown_not_exhausted hlive h)
    rw [below, below, additions, additions, calls, calls, hinitial, hrounds, List.map_append,
      List.flatMap_map, List.map_flatMap, List.map_map]
    exact ⟨rfl, rfl⟩

theorem at?_deepen (h : (c.run config build).ending ≠ .exhausted) (k : Nat) (place : List Nat) :
    (c.deepen k).at? config build place = (c.at? config build place).map (deepen k) := by
  induction place generalizing c with
  | nil => rfl
  | cons i rest ih =>
    rw [at?, at?, (trace_deepen h k).1, List.getElem?_map]
    cases hi : (c.below config build)[i]? with
    | none => rfl
    | some d => exact ih (below_not_exhausted h (List.mem_of_getElem? hi))

/-- What holds of the closings at all places when they may go deeper, holds of those of the deeper
run. -/
theorem forall_at?_deepen {P : List Nat → Closing ω → Prop}
    (h : (c.run config build).ending ≠ .exhausted)
    (hP : ∀ place d, c.at? config build place = some d → P place (d.deepen k)) :
    ∀ place d, (c.deepen k).at? config build place = some d → P place d := by
  intro place d hd
  rw [at?_deepen h] at hd
  obtain ⟨e, he, rfl⟩ := Option.map_eq_some_iff.mp hd
  exact hP place e he

/-! ## A depth that is enough -/

/-- At some depth the closing comes to an end. -/
def Ends (config : Config) (build : Builder ω) (c : Closing ω) : Prop :=
  ∃ k, ((c.deepen k).run config build).ending ≠ .exhausted

end Closing

namespace Closing

variable {c d : Closing ω}

end Closing

/-! ## Whole trees -/

namespace Module

mutual
/-- The number of modules on the longest way down. -/
def height : Module → Nat
  | ⟨_, children⟩ => heightAll children + 1

def heightAll : List (Option String × Module) → Nat
  | [] => 0
  | (_, m) :: rest => max m.height (heightAll rest)
end

end Module

namespace Module

variable {m : Module} {s : Session ω}

end Module

end

end Gateware
