import Gateware.Proofs.Stages

/-! # What happens while a tree is closed

Closing a module closes its children, calls its deferred construction and closes what each call
added. The trace of a closing lists these calls and the closings below it, child by child, as far as
they are made. How a closing ends and what it leaves of the children can be read off its trace.
-/
namespace Gateware

/-- One call of a deferred construction: the module it was given and what it left behind. -/
structure Call (ω : Type) where
  given : Module
  made : Round ω

/-- The closing of one module, as it starts. -/
structure Closing (ω : Type) where
  depth : Nat
  root : Bool
  name : Option String
  path : Path
  module : Module
  session : Session ω

section

variable {ω : Type}

def Call.added (c : Call ω) : List (Option String × Module) :=
  c.made.module.children.drop c.given.children.length

def Call.Grows (c : Call ω) : Prop := c.made.module.children.length ≠ c.given.children.length

def Call.of (build : Builder ω) (hook : Nat) (m : Module) (s : Session ω) : Call ω :=
  ⟨m, build hook m s.next s.world⟩

def Call.session (c : Call ω) (s : Session ω) : Session ω :=
  { s with next := c.made.next, world := c.made.world }

def Call.reported (c : Call ω) (path : Path) (round : Nat) (s : Session ω) : Session ω :=
  (c.session s).note (.childrenAdded path
    (c.made.module.children.length - c.given.children.length) (round + 1))

def Closing.ofChild (depth : Nat) (path : Path) (x : Option String × Module) (s : Session ω) :
    Closing ω :=
  ⟨depth, false, x.1, path.child (Module.component x), x.2, s⟩

def Closing.child (c : Closing ω) : Option String × Module := (c.name, c.module)

def Module.closing (m : Module) (depth : Nat) (s : Session ω) : Closing ω :=
  ⟨depth, true, none, .root m.kind, m, s⟩

end

/-- The module while the construction that it deferred is run. -/
def Module.withoutHook (m : Module) : Module := { m with node := { m.node with hook := none } }

section

variable {ω : Type} (config : Config) (build : Builder ω)

def Closing.run (c : Closing ω) : Progress Module ω :=
  c.module.close config build c.depth c.root c.path c.session

def Closing.closed (c : Closing ω) : Option String × Module := (c.name, (c.run config build).value)

/-- The closings of children, one after the other as long as they end well. -/
def closingsOf (depth : Nat) (path : Path) :
    List (Option String × Module) → Session ω → List (Closing ω)
  | [], _ => []
  | x :: rest, s =>
    let c := Closing.ofChild depth path x s
    c :: match (c.run config build).ending with
      | .done => closingsOf depth path rest (c.run config build).session
      | _ => []

def Call.closeAdded (c : Call ω) (depth : Nat) (path : Path) (round : Nat) (s : Session ω) :
    Progress Module ω :=
  closeFrom (Module.close config build depth false) path c.given.children.length c.made.module
    (c.reported path round s)

/-- The calls of a deferred construction, each with the closings of what it added. -/
def roundsOf (hook depth : Nat) (path : Path) :
    Nat → Nat → Module → Session ω → List (Call ω × List (Closing ω))
  | left, round, m, s =>
    let call := Call.of build hook m s
    match call.made.result with
    | .error _ => [(call, [])]
    | .ok _ =>
      if call.made.module.children.length = m.children.length then [(call, [])]
      else match left with
        | 0 => [(call, [])]
        | left + 1 =>
          let closed := call.closeAdded config build depth path round s
          (call, closingsOf config build depth path call.added (call.reported path round s)) ::
            match closed.ending with
            | .done => roundsOf hook depth path left (round + 1) closed.value closed.session
            | _ => []

namespace Closing

/-- The children that the module has when its closing starts are closed. -/
def first (c : Closing ω) : Progress Module ω :=
  closeFrom (Module.close config build (c.depth - 1) false) c.path 0 c.module
    (c.session.note (.finalizing c.path))

/-- After them the rounds of the deferred construction are run. -/
def grown (c : Closing ω) : Progress Module ω :=
  (c.first config build).andThen (runHook build (Module.close config build (c.depth - 1) false)
    config.finalize.maxRounds c.path)

/-- A closing that has anything to do. -/
def live (c : Closing ω) : Bool := c.depth != 0 && !c.module.node.finalized

def rounds (c : Closing ω) : List (Call ω × List (Closing ω)) :=
  if c.live then
    match (c.first config build).ending, c.module.node.hook with
    | .done, some hook =>
      roundsOf config build hook (c.depth - 1) c.path config.finalize.maxRounds 0
        (c.first config build).value.withoutHook (c.first config build).session
    | _, _ => []
  else []

def initial (c : Closing ω) : List (Closing ω) :=
  if c.live then
    closingsOf config build (c.depth - 1) c.path c.module.children
      (c.session.note (.finalizing c.path))
  else []

def additions (c : Closing ω) : List (Closing ω) := (c.rounds config build).flatMap Prod.snd

def below (c : Closing ω) : List (Closing ω) :=
  c.initial config build ++ c.additions config build

def calls (c : Closing ω) : List (Call ω) := (c.rounds config build).map Prod.fst

/-- The closing at a place below, given by positions of children. -/
def at? : List Nat → Closing ω → Option (Closing ω)
  | [], c => some c
  | i :: rest, c => (c.below config build)[i]?.bind (at? rest)

end Closing

end

section

variable {ω : Type} {config : Config} {build : Builder ω} {depth : Nat} {path : Path}

/-! ## Children -/

section

variable {x : Option String × Module} {children rest : List (Option String × Module)}
  {s : Session ω} {d : Closing ω}

theorem closeChildren_of_done
    (h : ((Closing.ofChild depth path x s).run config build).ending = .done) :
    closeChildren (Module.close config build depth false) path (x :: rest) s =
      { closeChildren (Module.close config build depth false) path rest
          ((Closing.ofChild depth path x s).run config build).session with
        value := (Closing.ofChild depth path x s).closed config build ::
          (closeChildren (Module.close config build depth false) path rest
            ((Closing.ofChild depth path x s).run config build).session).value } := by
  obtain ⟨name, m⟩ := x
  have hclose : (m.close config build depth false (path.child (name.getD m.kind)) s).ending =
      .done := h
  simp only [closeChildren, hclose]
  rfl

theorem closeChildren_of_not_done
    (h : ((Closing.ofChild depth path x s).run config build).ending ≠ .done) :
    closeChildren (Module.close config build depth false) path (x :: rest) s =
      { (Closing.ofChild depth path x s).run config build with
        value := (Closing.ofChild depth path x s).closed config build :: rest } := by
  obtain ⟨name, m⟩ := x
  rw [closeChildren]
  split
  · rename_i hdone
    exact absurd hdone h
  · rfl

theorem closingsOf_of_done
    (h : ((Closing.ofChild depth path x s).run config build).ending = .done) :
    closingsOf config build depth path (x :: rest) s = Closing.ofChild depth path x s ::
      closingsOf config build depth path rest
        ((Closing.ofChild depth path x s).run config build).session := by
  simp only [closingsOf, h]

theorem closingsOf_of_not_done
    (h : ((Closing.ofChild depth path x s).run config build).ending ≠ .done) :
    closingsOf config build depth path (x :: rest) s = [Closing.ofChild depth path x s] := by
  rw [closingsOf]
  split
  · rename_i hdone
    exact absurd hdone h
  · rfl

theorem closeChildren_done (h : ∀ d ∈ closingsOf config build depth path children s,
      (d.run config build).ending = .done) :
    (closeChildren (Module.close config build depth false) path children s).ending = .done := by
  induction children generalizing s with
  | nil => rfl
  | cons x rest ih =>
    have hdone : ((Closing.ofChild depth path x s).run config build).ending = .done :=
      h _ (by rw [closingsOf]; exact List.mem_cons_self)
    rw [closingsOf_of_done hdone] at h
    rw [closeChildren_of_done hdone]
    exact ih (List.forall_mem_cons.mp h).2

/-- A closing that does not end well is the last one. -/
theorem closeChildren_ending (hd : d ∈ closingsOf config build depth path children s) :
    (d.run config build).ending = .done ∨
      (closeChildren (Module.close config build depth false) path children s).ending =
        (d.run config build).ending := by
  induction children generalizing s with
  | nil => cases hd
  | cons x rest ih =>
    by_cases hdone : ((Closing.ofChild depth path x s).run config build).ending = .done
    · rw [closingsOf_of_done hdone] at hd
      rw [closeChildren_of_done hdone]
      rcases List.mem_cons.mp hd with rfl | hd
      · exact .inl hdone
      · exact ih hd
    · rw [closingsOf_of_not_done hdone] at hd
      rw [closeChildren_of_not_done hdone, List.mem_singleton.mp hd]
      exact .inr rfl

theorem closeChildren_value
    (h : (closeChildren (Module.close config build depth false) path children s).ending = .done) :
    (closingsOf config build depth path children s).map Closing.child = children ∧
      (closeChildren (Module.close config build depth false) path children s).value =
        (closingsOf config build depth path children s).map (Closing.closed config build) := by
  induction children generalizing s with
  | nil => exact ⟨rfl, rfl⟩
  | cons x rest ih =>
    by_cases hdone : ((Closing.ofChild depth path x s).run config build).ending = .done
    · rw [closeChildren_of_done hdone] at h ⊢
      obtain ⟨hchild, hvalue⟩ := ih h
      rw [closingsOf_of_done hdone, List.map_cons, List.map_cons, hchild, hvalue]
      exact ⟨rfl, rfl⟩
    · rw [closeChildren_of_not_done hdone] at h
      exact absurd h hdone

/-- A listed closing is that of one of the children, in some session. -/
theorem closingsOf_start (hd : d ∈ closingsOf config build depth path children s) :
    d.child ∈ children ∧ d = Closing.ofChild depth path d.child d.session := by
  induction children generalizing s with
  | nil => cases hd
  | cons x rest ih =>
    by_cases hdone : ((Closing.ofChild depth path x s).run config build).ending = .done
    · rw [closingsOf_of_done hdone] at hd
      rcases List.mem_cons.mp hd with rfl | hd
      · exact ⟨List.mem_cons_self, rfl⟩
      · exact ⟨List.mem_cons_of_mem _ (ih hd).1, (ih hd).2⟩
    · rw [closingsOf_of_not_done hdone] at hd
      rw [List.mem_singleton.mp hd]
      exact ⟨List.mem_cons_self, rfl⟩

end

/-! ## Rounds -/

section

variable (config build) (hook depth : Nat) (path : Path)

/-- The rounds of a deferred construction with their trace, by the way they end. -/
inductive Rounds :
    Nat → Nat → Module → Session ω → List (Call ω × List (Closing ω)) → Progress Module ω → Prop
  | failed {left round : Nat} {m : Module} {s : Session ω} {call : Call ω} {e : ElabError}
      (made : call = Call.of build hook m s) (error : call.made.result = .error e) :
      Rounds left round m s [(call, [])] ⟨call.made.module, call.session s, .failed e⟩
  | settled {left round : Nat} {m : Module} {s : Session ω} {call : Call ω}
      (made : call = Call.of build hook m s) (ok : call.made.result = .ok ())
      (still : ¬ call.Grows) :
      Rounds left round m s [(call, [])] ⟨call.made.module, call.session s, .done⟩
  | limit {round : Nat} {m : Module} {s : Session ω} {call : Call ω}
      (made : call = Call.of build hook m s) (ok : call.made.result = .ok ())
      (grows : call.Grows) :
      Rounds 0 round m s [(call, [])]
        ⟨call.made.module, call.session s, .failed (.finalization (.roundLimit path round))⟩
  | stopped {left round : Nat} {m : Module} {s : Session ω} {call : Call ω}
      (made : call = Call.of build hook m s) (ok : call.made.result = .ok ())
      (grows : call.Grows)
      (stop : (call.closeAdded config build depth path round s).ending ≠ .done) :
      Rounds (left + 1) round m s
        [(call, closingsOf config build depth path call.added (call.reported path round s))]
        (call.closeAdded config build depth path round s)
  | again {left round : Nat} {m : Module} {s : Session ω} {call : Call ω}
      {closed : Progress Module ω} {trace : List (Call ω × List (Closing ω))}
      {p : Progress Module ω}
      (made : call = Call.of build hook m s) (ok : call.made.result = .ok ())
      (grows : call.Grows) (added : closed = call.closeAdded config build depth path round s)
      (done : closed.ending = .done)
      (rest : Rounds left (round + 1) closed.value closed.session trace p) :
      Rounds (left + 1) round m s
        ((call, closingsOf config build depth path call.added (call.reported path round s)) ::
          trace) p

end

variable {hook left round : Nat} {m : Module} {s : Session ω}
  {trace : List (Call ω × List (Closing ω))} {p : Progress Module ω}

theorem runRounds_of_grows {call : Call ω} (made : call = Call.of build hook m s)
    (ok : call.made.result = .ok ()) (grows : call.Grows) :
    runRounds (fun m s => build hook m s.next s.world) (Module.close config build depth false) path
        (left + 1) round m s =
      (call.closeAdded config build depth path round s).andThen
        (runRounds (fun m s => build hook m s.next s.world) (Module.close config build depth false)
          path left (round + 1)) := by
  subst made
  have hok : (build hook m s.next s.world).result = .ok () := ok
  have hgrows : (build hook m s.next s.world).module.children.length ≠ m.children.length := grows
  rw [runRounds]
  simp only [hok, hgrows, ↓reduceIte]
  rfl

theorem roundsOf_of_done {call : Call ω} (made : call = Call.of build hook m s)
    (ok : call.made.result = .ok ()) (grows : call.Grows)
    (done : (call.closeAdded config build depth path round s).ending = .done) :
    roundsOf config build hook depth path (left + 1) round m s =
      (call, closingsOf config build depth path call.added (call.reported path round s)) ::
        roundsOf config build hook depth path left (round + 1)
          (call.closeAdded config build depth path round s).value
          (call.closeAdded config build depth path round s).session := by
  subst made
  have hgrows : ¬ (Call.of build hook m s).made.module.children.length = m.children.length := grows
  rw [roundsOf]
  simp only [ok, hgrows, ↓reduceIte, done]

theorem roundsOf_of_not_done {call : Call ω} (made : call = Call.of build hook m s)
    (ok : call.made.result = .ok ()) (grows : call.Grows)
    (stop : (call.closeAdded config build depth path round s).ending ≠ .done) :
    roundsOf config build hook depth path (left + 1) round m s =
      [(call, closingsOf config build depth path call.added (call.reported path round s))] := by
  subst made
  have hgrows : ¬ (Call.of build hook m s).made.module.children.length = m.children.length := grows
  rw [roundsOf]
  simp only [ok, hgrows, ↓reduceIte]

/-- There is one way to run the rounds. -/
theorem Rounds.eq_run (h : Rounds config build hook depth path left round m s trace p) :
    roundsOf config build hook depth path left round m s = trace ∧
      runRounds (fun m s => build hook m s.next s.world)
        (Module.close config build depth false) path left round m s = p := by
  induction h with
  | @failed left round m s call e made error =>
    subst made
    have herror : (build hook m s.next s.world).result = .error e := error
    unfold roundsOf runRounds
    simp [Call.of, Call.session, herror]
  | @settled left round m s call made ok still =>
    subst made
    have hok : (build hook m s.next s.world).result = .ok () := ok
    have hstill : (build hook m s.next s.world).module.children.length = m.children.length :=
      not_not.mp still
    unfold roundsOf runRounds
    simp [Call.of, Call.session, hok, hstill]
  | @limit round m s call made ok grows =>
    subst made
    have hok : (build hook m s.next s.world).result = .ok () := ok
    have hgrows : (build hook m s.next s.world).module.children.length ≠ m.children.length := grows
    unfold roundsOf runRounds
    simp [Call.of, Call.session, hok, hgrows]
  | stopped made ok grows stop =>
    rw [roundsOf_of_not_done made ok grows stop, runRounds_of_grows made ok grows,
      Progress.andThen_of_not_done stop]
    exact ⟨rfl, rfl⟩
  | again made ok grows added done _ ih =>
    subst added
    rw [roundsOf_of_done made ok grows done, runRounds_of_grows made ok grows,
      Progress.andThen_of_done done, ih.1, ih.2]
    exact ⟨rfl, rfl⟩
/-- The program runs the rounds that the trace lists. -/
theorem rounds_run (config : Config) (build : Builder ω) (hook depth : Nat) (path : Path)
    (left round : Nat) (m : Module) (s : Session ω) :
    Rounds config build hook depth path left round m s
      (roundsOf config build hook depth path left round m s)
      (runRounds (fun m s => build hook m s.next s.world) (Module.close config build depth false)
        path left round m s) := by
  suffices h : ∃ trace p, Rounds config build hook depth path left round m s trace p by
    obtain ⟨trace, p, h⟩ := h
    obtain ⟨rfl, rfl⟩ := h.eq_run
    exact h
  induction left generalizing round m s with
  | zero =>
    cases hresult : (Call.of build hook m s).made.result with
    | error e => exact ⟨_, _, .failed rfl hresult⟩
    | ok _ =>
      by_cases hgrows : (Call.of build hook m s).Grows
      · exact ⟨_, _, .limit rfl hresult hgrows⟩
      · exact ⟨_, _, .settled rfl hresult hgrows⟩
  | succ left ih =>
    cases hresult : (Call.of build hook m s).made.result with
    | error e => exact ⟨_, _, .failed rfl hresult⟩
    | ok _ =>
      by_cases hgrows : (Call.of build hook m s).Grows
      · by_cases hdone : ((Call.of build hook m s).closeAdded config build depth path round
            s).ending = .done
        · obtain ⟨trace, p, hrest⟩ := ih (round + 1) _ _
          exact ⟨_, _, .again rfl hresult hgrows rfl hdone hrest⟩
        · exact ⟨_, _, .stopped rfl hresult hgrows hdone⟩
      · exact ⟨_, _, .settled rfl hresult hgrows⟩

/-- What the calls do and the closings of what they add end well. -/
structure RoundsGoWell (config : Config) (build : Builder ω)
    (trace : List (Call ω × List (Closing ω))) : Prop where
  calls : ∀ r ∈ trace, r.1.made.result = .ok ()
  closings : ∀ r ∈ trace, ∀ d ∈ r.2, (d.run config build).ending = .done

namespace RoundsGoWell

variable {call : Call ω} {closings : List (Closing ω)}

theorem tail (h : RoundsGoWell config build ((call, closings) :: trace)) :
    RoundsGoWell config build trace :=
  ⟨fun r hr => h.calls r (List.mem_cons_of_mem _ hr),
    fun r hr => h.closings r (List.mem_cons_of_mem _ hr)⟩

theorem not_error (h : RoundsGoWell config build ((call, closings) :: trace)) {e : ElabError} :
    call.made.result ≠ .error e := by
  have hok : call.made.result = .ok () := h.calls _ List.mem_cons_self
  simp [hok]

theorem added_done (h : RoundsGoWell config build
      ((call, closingsOf config build depth path call.added (call.reported path round s)) ::
        trace)) :
    (call.closeAdded config build depth path round s).ending = .done :=
  closeChildren_done (h.closings _ List.mem_cons_self)

end RoundsGoWell

namespace Rounds

/-- Unless the last call allowed adds children, the rounds come to an end. -/
theorem done (h : Rounds config build hook depth path left round m s trace p)
    (hwell : RoundsGoWell config build trace)
    (hlast : ∀ call, (trace.map Prod.fst)[left]? = some call → ¬ call.Grows) :
    p.ending = .done := by
  induction h with
  | failed _ error => exact absurd error hwell.not_error
  | settled => rfl
  | limit _ _ grows => exact absurd grows (hlast _ rfl)
  | stopped _ _ _ stop => exact absurd hwell.added_done stop
  | again _ _ _ _ _ _ ih => exact ih hwell.tail hlast

theorem limited (h : Rounds config build hook depth path left round m s trace p)
    (hwell : RoundsGoWell config build trace) {call : Call ω}
    (hlast : (trace.map Prod.fst)[left]? = some call) (hgrows : call.Grows) :
    p.ending = .failed (.finalization (.roundLimit path (round + left))) := by
  induction h with
  | failed _ error => exact absurd error hwell.not_error
  | @settled left round m s call' _ _ still =>
    cases left with
    | zero =>
      cases hlast
      exact absurd hgrows still
    | succ left => cases hlast
  | limit => rfl
  | stopped _ _ _ stop => exact absurd hwell.added_done stop
  | @again left round _ _ _ _ _ _ _ _ _ _ _ _ ih =>
    rw [ih hwell.tail hlast, Nat.add_assoc, Nat.add_comm 1 left]

/-- If the first calls add children and the next one does not, they are all that is called, up to
the number allowed. -/
theorem length_eq (h : Rounds config build hook depth path left round m s trace p)
    (hwell : RoundsGoWell config build trace) {g : Nat}
    (hgrows : ∀ k call, (trace.map Prod.fst)[k]? = some call →
      (k < g → call.Grows) ∧ (k = g → ¬ call.Grows)) :
    trace.length = min g left + 1 := by
  induction h generalizing g with
  | failed _ error => exact absurd error hwell.not_error
  | settled _ _ still =>
    have hg : g = 0 := Nat.eq_zero_of_not_pos fun hpos => still ((hgrows 0 _ rfl).1 hpos)
    simp [hg]
  | limit => simp
  | stopped _ _ _ stop => exact absurd hwell.added_done stop
  | again _ _ grows _ _ _ ih =>
    cases g with
    | zero => exact absurd grows ((hgrows 0 _ rfl).2 rfl)
    | succ g =>
      have hrest := ih hwell.tail (g := g) fun k call hk => by
        simpa using hgrows (k + 1) call hk
      simp only [List.length_cons, hrest]
      omega

/-- A closing that does not end well ends the rounds. -/
theorem ending (h : Rounds config build hook depth path left round m s trace p) {d : Closing ω}
    (hd : d ∈ trace.flatMap Prod.snd) :
    (d.run config build).ending = .done ∨ p.ending = (d.run config build).ending := by
  induction h with
  | failed => cases hd
  | settled => cases hd
  | limit => cases hd
  | stopped =>
    rw [List.flatMap_singleton] at hd
    exact closeChildren_ending hd
  | again _ _ _ added done _ ih =>
    rcases List.mem_append.mp hd with hd | hd
    · subst added
      rcases closeChildren_ending hd with hdone | hend
      · exact .inl hdone
      · exact .inl (hend.symm.trans done)
    · exact ih hd

/-- A closing in the rounds is that of a child that a call added. -/
theorem start_of_mem (h : Rounds config build hook depth path left round m s trace p)
    {d : Closing ω} (hd : d ∈ trace.flatMap Prod.snd) :
    (∃ call ∈ trace.map Prod.fst, d.child ∈ call.added) ∧
      d = Closing.ofChild depth path d.child d.session := by
  induction h with
  | failed => cases hd
  | settled => cases hd
  | limit => cases hd
  | stopped =>
    rw [List.flatMap_singleton] at hd
    obtain ⟨hchild, hstart⟩ := closingsOf_start hd
    exact ⟨⟨_, List.mem_cons_self, hchild⟩, hstart⟩
  | again _ _ _ _ _ _ ih =>
    rcases List.mem_append.mp hd with hd | hd
    · obtain ⟨hchild, hstart⟩ := closingsOf_start hd
      exact ⟨⟨_, List.mem_cons_self, hchild⟩, hstart⟩
    · obtain ⟨⟨call, hcall, hchild⟩, hstart⟩ := ih hd
      exact ⟨⟨call, List.mem_cons_of_mem _ hcall, hchild⟩, hstart⟩

theorem made_of_mem (h : Rounds config build hook depth path left round m s trace p)
    {call : Call ω} (hcall : call ∈ trace.map Prod.fst) : ∃ m s, call = Call.of build hook m s := by
  induction h with
  | failed made _ => exact ⟨_, _, (List.mem_singleton.mp hcall).trans made⟩
  | settled made _ _ => exact ⟨_, _, (List.mem_singleton.mp hcall).trans made⟩
  | limit made _ _ => exact ⟨_, _, (List.mem_singleton.mp hcall).trans made⟩
  | stopped made _ _ _ => exact ⟨_, _, (List.mem_singleton.mp hcall).trans made⟩
  | again made _ _ _ _ _ ih =>
    rcases List.mem_cons.mp hcall with rfl | hcall
    · exact ⟨_, _, made⟩
    · exact ih hcall

/-- What a call reports ends the rounds. -/
theorem reported (h : Rounds config build hook depth path left round m s trace p) {call : Call ω}
    (hcall : call ∈ trace.map Prod.fst) {e : ElabError} (herror : call.made.result = .error e) :
    p.ending = .failed e := by
  have hok : ∀ {call' : Call ω}, call'.made.result = .ok () → call ≠ call' := by
    rintro _ hok rfl
    rw [hok] at herror
    cases herror
  induction h with
  | failed _ error =>
    rw [List.mem_singleton.mp hcall, error] at herror
    cases herror
    rfl
  | settled _ ok _ => exact absurd (List.mem_singleton.mp hcall) (hok ok)
  | limit _ ok _ => exact absurd (List.mem_singleton.mp hcall) (hok ok)
  | stopped _ ok _ _ => exact absurd (List.mem_singleton.mp hcall) (hok ok)
  | again _ ok _ _ _ _ ih => exact ih ((List.mem_cons.mp hcall).resolve_left (hok ok))

/-- The children end up behind those that were there, in the order of the calls. -/
theorem value (h : Rounds config build hook depth path left round m s trace p)
    (hbuild : ∀ (m : Module) next world,
      ∃ added, (build hook m next world).module.children = m.children ++ added)
    (hdone : p.ending = .done) :
    (trace.flatMap Prod.snd).map Closing.child = (trace.map Prod.fst).flatMap Call.added ∧
      p.value.children =
        m.children ++ (trace.flatMap Prod.snd).map (Closing.closed config build) := by
  induction h with
  | failed => cases hdone
  | @settled left round m s call made _ still =>
    subst made
    obtain ⟨added, hadded⟩ := hbuild m s.next s.world
    -- what the last call leaves is as long as what it was given
    have hlength : (build hook m s.next s.world).module.children.length = m.children.length :=
      not_not.mp still
    have hnil : added = [] := by
      rw [hadded, List.length_append] at hlength
      exact List.eq_nil_of_length_eq_zero (by omega)
    subst hnil
    simp [Call.added, Call.of, hadded]
  | limit => cases hdone
  | stopped _ _ _ stop => exact absurd hdone stop
  | @again left round m s call closed trace p made _ _ added done _ ih =>
    subst made added
    obtain ⟨hchild, hvalue⟩ := ih hdone
    obtain ⟨hchild', hvalue'⟩ := closeChildren_value done
    obtain ⟨added, hadded⟩ := hbuild m s.next s.world
    -- the children that were there stay in front of those that are closed now
    have htake : (build hook m s.next s.world).module.children.take m.children.length =
        m.children := by rw [hadded, List.take_left]
    constructor
    · simp only [List.flatMap_cons, List.map_append, List.map_cons, hchild]
      exact congrArg (· ++ _) hchild'
    · rw [hvalue, List.flatMap_cons, List.map_append, ← List.append_assoc]
      congr 1
      refine Eq.trans ?_ (congrArg (m.children ++ ·) hvalue')
      exact congrArg (· ++ _) htake

end Rounds

/-! ## One closing -/

/-- The rounds of a module that defers a construction, whose handle is put back after them. -/
theorem runHook_rounds (config : Config) (depth maxRounds : Nat) (path : Path) (s : Session ω)
    (h : m.node.hook = some hook) :
    ∃ p, Rounds config build hook depth path maxRounds 0 m.withoutHook s
        (roundsOf config build hook depth path maxRounds 0 m.withoutHook s) p ∧
      (runHook build (Module.close config build depth false) maxRounds path m s).ending =
        p.ending ∧
      (runHook build (Module.close config build depth false) maxRounds path m s).session =
        p.session ∧
      (runHook build (Module.close config build depth false) maxRounds path m s).value.children =
        p.value.children := by
  refine ⟨_, rounds_run .., ?_⟩
  unfold runHook
  simp only [h]
  split
  · exact ⟨rfl, rfl, rfl⟩
  · exact ⟨rfl, rfl, rfl⟩

namespace Closing

variable {c d : Closing ω}

theorem run_of_live (h : c.live = true) :
    c.run config build = (((c.grown config build).andThen (runTransforms c.path)).andThen
      (settleDomains config.domains c.root c.path)).andThen (markClosed c.path) := by
  obtain ⟨depth, root, name, path, m, s⟩ := c
  simp only [live, Bool.and_eq_true, bne_iff_ne, Bool.not_eq_true'] at h
  cases depth with
  | zero => exact absurd rfl h.1
  | succ depth => exact Module.close_of_open h.2

theorem depth_ne_zero_of_live (h : c.live = true) : c.depth ≠ 0 := by
  simp only [live, Bool.and_eq_true, bne_iff_ne] at h
  exact h.1

theorem depth_ne_zero (h : (c.run config build).ending ≠ .exhausted) : c.depth ≠ 0 := by
  intro hzero
  rw [run, hzero] at h
  exact h rfl

theorem live_of_open (hopen : c.module.node.finalized = false)
    (h : (c.run config build).ending ≠ .exhausted) : c.live = true := by
  simp [live, depth_ne_zero h, hopen]

theorem below_of_not_live (h : c.live = false) : c.below config build = [] := by
  simp [below, initial, additions, rounds, h]

theorem first_ending (hlive : c.live = true) (hd : d ∈ c.initial config build) :
    (d.run config build).ending = .done ∨
      (c.first config build).ending = (d.run config build).ending := by
  rw [initial, if_pos hlive] at hd
  rw [first, closeFrom_zero]
  exact closeChildren_ending hd

theorem rounds_of_hook {hook : Nat} (hlive : c.live = true)
    (hdone : (c.first config build).ending = .done) (hhook : c.module.node.hook = some hook) :
    c.rounds config build = roundsOf config build hook (c.depth - 1) c.path
      config.finalize.maxRounds 0 (c.first config build).value.withoutHook
      (c.first config build).session := by
  rw [rounds, if_pos hlive, hdone, hhook]

theorem first_hook (config : Config) (build : Builder ω) (c : Closing ω) :
    (c.first config build).value.node.hook = c.module.node.hook := rfl

theorem rounds_eq_nil (hlive : c.live = true)
    (h : (c.first config build).ending = .done → c.module.node.hook = none) :
    c.rounds config build = [] ∧ c.grown config build = c.first config build := by
  rw [rounds, if_pos hlive, grown]
  cases hend : (c.first config build).ending with
  | failed e => exact ⟨rfl, Progress.andThen_of_failed hend⟩
  | exhausted => exact ⟨rfl, Progress.andThen_of_not_done (by simp [hend])⟩
  | done =>
    rw [Progress.andThen_of_done hend, runHook, first_hook, h hend, ← hend]
    exact ⟨by rw [hend], rfl⟩

/-- Either there are no rounds, or they are those of the construction that the module defers. -/
theorem grown_cases (config : Config) (build : Builder ω) (hlive : c.live = true) :
    (c.rounds config build = [] ∧ c.grown config build = c.first config build ∧
      ((c.first config build).ending = .done → c.module.node.hook = none)) ∨
    ∃ hook m p, (c.first config build).ending = .done ∧ c.module.node.hook = some hook ∧
      m.children = (c.first config build).value.children ∧
      Rounds config build hook (c.depth - 1) c.path config.finalize.maxRounds 0 m
        (c.first config build).session (c.rounds config build) p ∧
      (c.grown config build).ending = p.ending ∧
      (c.grown config build).session = p.session ∧
      (c.grown config build).value.children = p.value.children := by
  by_cases h : (c.first config build).ending = .done → c.module.node.hook = none
  · obtain ⟨hnil, hgrown⟩ := rounds_eq_nil hlive h
    exact .inl ⟨hnil, hgrown, h⟩
  · push Not at h
    obtain ⟨hdone, hsome⟩ := h
    obtain ⟨hook, hhook⟩ := Option.ne_none_iff_exists'.mp hsome
    obtain ⟨p, hrounds, hp⟩ := runHook_rounds config (c.depth - 1) config.finalize.maxRounds
      c.path (c.first config build).session ((first_hook config build c).trans hhook)
    rw [rounds_of_hook hlive hdone hhook, grown, Progress.andThen_of_done hdone]
    exact .inr ⟨hook, (c.first config build).value.withoutHook, p, hdone, hhook, rfl, hrounds, hp⟩

theorem live_of_below (hd : d ∈ c.below config build) : c.live = true := by
  by_contra hnot
  rw [below_of_not_live (Bool.eq_false_of_not_eq_true hnot)] at hd
  cases hd

theorem start_of_initial (hd : d ∈ c.initial config build) :
    d.child ∈ c.module.children ∧ d = .ofChild (c.depth - 1) c.path d.child d.session := by
  rw [initial, if_pos (live_of_below (List.mem_append_left _ hd))] at hd
  exact closingsOf_start hd

theorem start_of_addition (hd : d ∈ c.additions config build) :
    (∃ call ∈ c.calls config build, d.child ∈ call.added) ∧
      d = .ofChild (c.depth - 1) c.path d.child d.session := by
  have hlive := live_of_below (List.mem_append_right _ hd)
  rcases grown_cases config build hlive with ⟨hnil, -⟩ | ⟨_, _, _, -, -, -, hrounds, -⟩
  · rw [additions, hnil] at hd
    cases hd
  · exact hrounds.start_of_mem hd

theorem calls_of_not_live (h : c.live = false) : c.calls config build = [] := by
  simp [calls, rounds, h]

/-- The calls are those of the construction that the module defers. -/
theorem made_of_mem {call : Call ω} (hcall : call ∈ c.calls config build) :
    ∃ hook m s, c.module.node.hook = some hook ∧ call = Call.of build hook m s := by
  cases hlive : c.live with
  | false =>
    rw [calls_of_not_live hlive] at hcall
    cases hcall
  | true =>
    rcases grown_cases config build hlive with ⟨hnil, -⟩ | ⟨hook, _, _, -, hhook, -, hrounds, -⟩
    · rw [calls, hnil] at hcall
      cases hcall
    · obtain ⟨m, s, hmade⟩ := hrounds.made_of_mem hcall
      exact ⟨hook, m, s, hhook, hmade⟩

/-- A closing below starts one level deeper, at the path of the child. -/
theorem start_of_below (hd : d ∈ c.below config build) :
    d.depth < c.depth ∧ d.root = false ∧ d.path = c.path.child (Module.component d.child) := by
  have hpos := depth_ne_zero_of_live (live_of_below hd)
  have hstart : d = .ofChild (c.depth - 1) c.path d.child d.session := by
    rcases List.mem_append.mp hd with hd | hd
    · exact (start_of_initial hd).2
    · exact (start_of_addition hd).2
  have hdepth : d.depth = c.depth - 1 := congrArg Closing.depth hstart
  exact ⟨by omega, congrArg Closing.root hstart, congrArg Closing.path hstart⟩

/-- The last call that is allowed adds children. -/
def Capped (config : Config) (build : Builder ω) (c : Closing ω) : Prop :=
  ∃ call, (c.calls config build)[config.finalize.maxRounds]? = some call ∧ call.Grows

theorem first_done (h : c.live = true)
    (hbelow : ∀ d ∈ c.below config build, (d.run config build).ending = .done) :
    (c.first config build).ending = .done := by
  have hinitial := (List.forall_mem_append.mp hbelow).1
  rw [initial, if_pos h] at hinitial
  rw [first, closeFrom_zero]
  exact closeChildren_done hinitial

theorem rounds_goWell
    (hcalls : ∀ call ∈ c.calls config build, call.made.result = .ok ())
    (hbelow : ∀ d ∈ c.below config build, (d.run config build).ending = .done) :
    RoundsGoWell config build (c.rounds config build) := by
  have hrounds := (List.forall_mem_append.mp hbelow).2
  exact ⟨fun r hr => hcalls r.1 (List.mem_map_of_mem hr),
    fun r hr d hd => hrounds d (List.mem_flatMap.mpr ⟨r, hr, hd⟩)⟩

theorem grown_done (h : c.live = true)
    (hcalls : ∀ call ∈ c.calls config build, call.made.result = .ok ())
    (hbelow : ∀ d ∈ c.below config build, (d.run config build).ending = .done)
    (hcap : ¬ c.Capped config build) : (c.grown config build).ending = .done := by
  rcases grown_cases config build h with ⟨-, heq, -⟩ | ⟨_, _, p, -, -, -, hrounds, hend, -, -⟩
  · rw [heq]
    exact first_done h hbelow
  · rw [hend]
    exact hrounds.done (rounds_goWell hcalls hbelow) fun call hcall hgrows =>
      hcap ⟨call, hcall, hgrows⟩

theorem grown_limited (h : c.live = true)
    (hcalls : ∀ call ∈ c.calls config build, call.made.result = .ok ())
    (hbelow : ∀ d ∈ c.below config build, (d.run config build).ending = .done)
    (hcap : c.Capped config build) :
    (c.grown config build).ending =
      .failed (.finalization (.roundLimit c.path config.finalize.maxRounds)) := by
  obtain ⟨call, hcall, hgrows⟩ := hcap
  rcases grown_cases config build h with ⟨hnil, -, -⟩ | ⟨_, _, p, -, -, -, hrounds, hend, -, -⟩
  · rw [calls, hnil] at hcall
    cases hcall
  · have hlimit := hrounds.limited (rounds_goWell hcalls hbelow) hcall hgrows
    rw [hend, hlimit, Nat.zero_add]

theorem length_calls {hook g : Nat} (h : c.live = true) (hhook : c.module.node.hook = some hook)
    (hcalls : ∀ call ∈ c.calls config build, call.made.result = .ok ())
    (hbelow : ∀ d ∈ c.below config build, (d.run config build).ending = .done)
    (hgrows : ∀ k call, (c.calls config build)[k]? = some call →
      (k < g → call.Grows) ∧ (k = g → ¬ call.Grows)) :
    (c.calls config build).length = min g config.finalize.maxRounds + 1 := by
  rcases grown_cases config build h with ⟨-, -, hnone⟩ | ⟨_, _, p, -, -, -, hrounds, -, -, -⟩
  · rw [hnone (first_done h hbelow)] at hhook
    cases hhook
  · rw [calls, List.length_map]
    exact hrounds.length_eq (rounds_goWell hcalls hbelow) hgrows

theorem run_of_grown (hlive : c.live = true) (h : (c.grown config build).ending ≠ .done) :
    c.run config build = c.grown config build := by
  rw [run_of_live hlive]
  simp only [Progress.andThen_of_not_done h]

theorem grown_ending (hd : d ∈ c.below config build) (hnot : (d.run config build).ending ≠ .done) :
    (c.grown config build).ending = (d.run config build).ending := by
  have hlive := live_of_below hd
  rcases List.mem_append.mp hd with hd | hd
  · have hfirst := (first_ending hlive hd).resolve_left hnot
    rw [grown, Progress.andThen_of_not_done (hfirst ▸ hnot), hfirst]
  · rcases grown_cases config build hlive with
      ⟨hnil, -, -⟩ | ⟨_, _, p, -, -, -, hrounds, hend, -, -⟩
    · rw [additions, hnil] at hd
      cases hd
    · rw [hend]
      exact (hrounds.ending hd).resolve_left hnot

/-- A closing fails as one below it does. -/
theorem run_ending (hd : d ∈ c.below config build) (hnot : (d.run config build).ending ≠ .done) :
    (c.run config build).ending = (d.run config build).ending := by
  have hgrown := grown_ending hd hnot
  rw [run_of_grown (live_of_below hd) (hgrown ▸ hnot), hgrown]

/-- Children and rounds that do not end well end as a closing below does, with what a call reports
or at the limit on rounds. -/
theorem grown_not_done (hlive : c.live = true) (h : (c.grown config build).ending ≠ .done) :
    (∃ d ∈ c.below config build, (d.run config build).ending = (c.grown config build).ending) ∨
      (∃ call ∈ c.calls config build, ∃ e, call.made.result = .error e ∧
        (c.grown config build).ending = .failed e) ∨
      (c.grown config build).ending =
        .failed (.finalization (.roundLimit c.path config.finalize.maxRounds)) := by
  by_cases hbelow : ∀ d ∈ c.below config build, (d.run config build).ending = .done
  · refine .inr ?_
    by_cases hcalls : ∀ call ∈ c.calls config build, call.made.result = .ok ()
    · have hcap : c.Capped config build := by
        by_contra hcap
        exact h (grown_done hlive hcalls hbelow hcap)
      exact .inr (grown_limited hlive hcalls hbelow hcap)
    · push Not at hcalls
      obtain ⟨call, hcall, hnot⟩ := hcalls
      cases hresult : call.made.result with
      | ok _ => exact absurd hresult hnot
      | error e =>
        refine .inl ⟨call, hcall, e, hresult, ?_⟩
        rcases grown_cases config build hlive with
          ⟨hnil, -, -⟩ | ⟨_, _, p, -, -, -, hrounds, hend, -, -⟩
        · rw [calls, hnil] at hcall
          cases hcall
        · rw [hend]
          exact hrounds.reported hcall hresult
  · push Not at hbelow
    obtain ⟨d, hd, hnot⟩ := hbelow
    exact .inl ⟨d, hd, (grown_ending hd hnot).symm⟩

theorem run_of_not_live (h : c.live = false) : (c.run config build).value = c.module ∧
    (c.run config build).session.world = c.session.world ∧
    (c.depth ≠ 0 → (c.run config build).ending = .done) := by
  obtain ⟨depth, root, name, path, m, s⟩ := c
  simp only [live, Bool.and_eq_false_iff, bne_eq_false_iff_eq, Bool.not_eq_false'] at h
  cases depth with
  | zero => exact ⟨rfl, rfl, fun hdepth => absurd rfl hdepth⟩
  | succ depth =>
    have hfin := h.resolve_left depth.succ_ne_zero
    rw [run, Module.close_of_finalized hfin]
    exact ⟨rfl, rfl, fun _ => rfl⟩

theorem live_of_failed {e : ElabError} (h : (c.run config build).ending = .failed e) :
    c.live = true := by
  have hnot : (c.run config build).ending ≠ .exhausted := by simp [h]
  by_contra hlive
  rw [(run_of_not_live (Bool.eq_false_of_not_eq_true hlive)).2.2 (depth_ne_zero hnot)] at h
  cases h

/-! ## Below a closing -/

/-- What holds of a closing whenever it holds of those below it, holds of all. -/
theorem byBelow (config : Config) (build : Builder ω) {motive : Closing ω → Prop}
    (step : ∀ c, (∀ d ∈ c.below config build, motive d) → motive c) (c : Closing ω) :
    motive c := by
  induction h : c.depth using Nat.strong_induction_on generalizing c with
  | _ n ih =>
    subst h
    exact step c fun d hd => ih d.depth (start_of_below hd).1 d rfl

theorem at?_cons {i : Nat} (hi : (c.below config build)[i]? = some d) (place : List Nat) :
    c.at? config build (i :: place) = d.at? config build place := by
  rw [at?, hi, Option.bind_some]

/-- A property of all places holds at those below a child, too. -/
theorem forall_at?_of_mem {P : List Nat → Closing ω → Prop}
    (h : ∀ place e, c.at? config build place = some e → P place e)
    (hd : d ∈ c.below config build) :
    ∃ i, ∀ place e, d.at? config build place = some e → P (i :: place) e := by
  obtain ⟨i, hi⟩ := List.mem_iff_getElem?.mp hd
  exact ⟨i, fun place e he => h (i :: place) e ((at?_cons hi place).trans he)⟩

theorem at?_append {place : List Nat} (hat : c.at? config build place = some d)
    (rest : List Nat) : c.at? config build (place ++ rest) = d.at? config build rest := by
  induction place generalizing c with
  | nil =>
    cases hat
    rfl
  | cons i tail ih =>
    obtain ⟨b, hb, htail⟩ := Option.bind_eq_some_iff.mp hat
    rw [List.cons_append, at?_cons hb, ih htail]

end Closing

end

end Gateware
