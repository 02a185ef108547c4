import Gateware.Proofs.Trace

/-! # Where failures come from

Apart from the check of uses at the root, a failure of a closing is a refused construction, a
contested name or the limit on rounds, or it is what some call of a deferred construction reported
in that very run.
-/
namespace Gateware

/-- The errors that closing finds by itself below the root. -/
inductive ElabError.Inner : ElabError → Prop
  | construction (e : ConstructionError) : Inner (.construction e)
  | naming (e : NamingError) : Inner (.naming e)
  | rounds (path : Path) (n : Nat) : Inner (.finalization (.roundLimit path n))

namespace Closing

variable {ω : Type} {config : Config} {build : Builder ω} {c d : Closing ω} {e : ElabError}

/-- A call made during the closing, there or below, reported the error. -/
def Reports (config : Config) (build : Builder ω) (c : Closing ω) (e : ElabError) : Prop :=
  ∃ place d, c.at? config build place = some d ∧
    ∃ call ∈ d.calls config build, call.made.result = .error e

theorem Reports.of_below (h : d.Reports config build e) (hd : d ∈ c.below config build) :
    c.Reports config build e := by
  obtain ⟨place, d', hat, hcalls⟩ := h
  obtain ⟨i, hi⟩ := List.mem_iff_getElem?.mp hd
  exact ⟨i :: place, d', (at?_cons hi place).trans hat, hcalls⟩

theorem transformed_failed (hlive : c.live = true)
    (hbelow : ∀ d ∈ c.below config build, ∀ e, (d.run config build).ending = .failed e →
      d.Reports config build e ∨ e.Inner)
    (h : ((c.grown config build).andThen (runTransforms c.path)).ending = .failed e) :
    c.Reports config build e ∨ e.Inner := by
  rcases Progress.andThen_eq_failed.mp h with hgrown | ⟨-, htransforms⟩
  · have hnot : (c.grown config build).ending ≠ .done := by simp [hgrown]
    rcases grown_not_done hlive hnot with
      ⟨d, hd, hend⟩ | ⟨call, hcall, e', herror, hend⟩ | hend
    · exact (hbelow d hd e (hend.trans hgrown)).imp_left (·.of_below hd)
    · rw [hgrown] at hend
      cases hend
      exact .inl ⟨[], c, rfl, call, hcall, herror⟩
    · rw [hgrown] at hend
      cases hend
      exact .inr (.rounds _ _)
  · obtain ⟨cause, rfl⟩ := applyTransforms_failed htransforms
    exact .inr (.construction cause)

/-- Below the root a closing fails with what a call reported or with an error of its own. -/
theorem run_failed (hroot : c.root = false) (h : (c.run config build).ending = .failed e) :
    c.Reports config build e ∨ e.Inner := by
  induction c using byBelow config build generalizing e with
  | step c ih =>
    have hlive := live_of_failed h
    rw [run_of_live hlive] at h
    have hsettled := (Progress.andThen_eq_failed.mp h).resolve_right fun h => nomatch h.2
    rcases Progress.andThen_eq_failed.mp hsettled with htransformed | ⟨-, hdomains⟩
    · exact transformed_failed hlive (fun d hd e => ih d hd (start_of_below hd).2.1) htransformed
    · rw [hroot] at hdomains
      obtain ⟨cause, rfl⟩ := settleDomains_failed hdomains
      exact .inr (.naming cause)

/-- Before the domains of the root are settled, a closing from there fails in no other way. -/
theorem root_failed (hlive : c.live = true)
    (h : ((c.grown config build).andThen (runTransforms c.path)).ending = .failed e) :
    c.Reports config build e ∨ e.Inner :=
  transformed_failed hlive (fun _ hd _ => run_failed (start_of_below hd).2.1) h

end Closing

end Gateware
