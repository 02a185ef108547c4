import Gateware.Proofs.Trace

/-! # How often a deferred construction is called

If the world counts the calls of a construction, the count grows by one for each call that is in
the trace. A construction that is deferred at one place only is therefore called as often as the
closing at that place calls it.
-/
namespace Gateware

section

variable {ω : Type} {config : Config} {build : Builder ω} {depth hook left round target : Nat}
  {path : Path} {m : Module} {s : Session ω} {trace : List (Call ω × List (Closing ω))}
  {p : Progress Module ω} {count : ω → Nat}

/-! ## Stages without calls -/

/-- The world counts the calls of one deferred construction. -/
def Counts (build : Builder ω) (hook : Nat) (count : ω → Nat) : Prop :=
  ∀ k m next world,
    count (build k m next world).world = count world + if k = hook then 1 else 0

/-- What a closing adds to the count. -/
def Closing.gain (config : Config) (build : Builder ω) (count : ω → Nat) (c : Closing ω) : Int :=
  count (c.run config build).session.world - count c.session.world

theorem closeChildren_gain {children : List (Option String × Module)} {s : Session ω} :
    (count (closeChildren (Module.close config build depth false) path children s).session.world :
      Int) = count s.world + ((closingsOf config build depth path children s).map
        (Closing.gain config build count)).sum := by
  induction children generalizing s with
  | nil => simp [closeChildren, closingsOf]
  | cons x rest ih =>
    have hs : (Closing.ofChild depth path x s).session = s := rfl
    by_cases hdone : ((Closing.ofChild depth path x s).run config build).ending = .done
    · rw [closeChildren_of_done hdone, closingsOf_of_done hdone, List.map_cons, List.sum_cons,
        Closing.gain, hs]
      dsimp only
      rw [ih]
      omega
    · rw [closeChildren_of_not_done hdone, closingsOf_of_not_done hdone, List.map_singleton,
        List.sum_singleton, Closing.gain, hs]
      dsimp only
      omega

theorem Rounds.gain (hcount : Counts build target count)
    (h : Rounds config build hook depth path left round m s trace p) :
    (count p.session.world : Int) = count s.world +
      (if hook = target then (trace.length : Int) else 0) +
        ((trace.flatMap Prod.snd).map (Closing.gain config build count)).sum := by
  have hcall : ∀ (m : Module) (s : Session ω),
      (count ((Call.of build hook m s).session s).world : Int) =
        count s.world + if hook = target then 1 else 0 := by
    intro m s
    have hm := hcount hook m s.next s.world
    simp only [Call.of, Call.session, hm]
    split <;> simp
  have hround : ∀ (m : Module) (s : Session ω) (round : Nat),
      (count ((Call.of build hook m s).closeAdded config build depth path round s).session.world :
        Int) = count s.world + (if hook = target then 1 else 0) +
          ((closingsOf config build depth path (Call.of build hook m s).added
            ((Call.of build hook m s).reported path round s)).map
              (Closing.gain config build count)).sum := by
    intro m s round
    rw [← hcall m s]
    exact closeChildren_gain
  induction h with
  | failed made _ =>
    subst made
    simp [hcall]
  | settled made _ _ =>
    subst made
    simp [hcall]
  | limit made _ _ =>
    subst made
    simp [hcall]
  | stopped made _ _ _ =>
    subst made
    simp [hround]
  | again made _ _ added _ _ ih =>
    subst made added
    rw [ih, hround]
    simp only [List.length_cons, List.flatMap_cons, List.map_append, List.sum_append]
    split
    · push_cast
      omega
    · omega

namespace Closing

variable {c d : Closing ω}

end Closing

end

end Gateware
