import Gateware.Proofs.Domain.Drivers
import Gateware.Proofs.Outline

/-! # Below a closed module everything is closed

Nothing that can be done to a tree opens a closed module, adds to one or takes children away, and a
module is marked closed only after its children. So in every tree that was built, everything below a
closed module is closed too.
-/
namespace Gateware

namespace Module

/-- The children of closed modules are closed, at every depth. -/
inductive Sealed : Module → Prop
  | mk {node : Node} {children : List (Option String × Module)}
      (closed : node.finalized = true → ∀ c ∈ children, c.2.node.finalized = true)
      (below : ∀ c ∈ children, Sealed c.2) : Sealed ⟨node, children⟩

variable {o m m' : Module}

theorem sealed_iff : m.Sealed ↔
    (m.node.finalized = true → ∀ c ∈ m.children, c.2.node.finalized = true) ∧
      ∀ c ∈ m.children, c.2.Sealed := by
  obtain ⟨node, children⟩ := m
  constructor
  · rintro ⟨closed, below⟩
    exact ⟨closed, below⟩
  · rintro ⟨closed, below⟩
    exact ⟨closed, below⟩

theorem sealed_empty (kind : String) : (Module.empty kind).Sealed := .mk nofun nofun

/-- From a closed module on, all nodes are closed. -/
theorem Sealed.all (h : m.Sealed) (hclosed : m.node.finalized = true) :
    m.All fun n => n.finalized = true := by
  induction h with
  | mk closed _ ih =>
    exact all_iff.mpr ⟨hclosed, fun c hc => ih c hc (closed hclosed c hc)⟩

theorem mem_outline (h : m'.outline = m.outline) {c' : Option String × Module}
    (hc' : c' ∈ m'.children) : ∃ c ∈ m.children, c'.2.outline = c.2.outline := by
  have hmem : (c'.1, c'.2.outline) ∈ m.children.map fun c => (c.1, c.2.outline) := by
    rw [← children_outline h]
    exact List.mem_map_of_mem hc'
  obtain ⟨c, hc, heq⟩ := List.mem_map.mp hmem
  exact ⟨c, hc, (congrArg Prod.snd heq).symm⟩

theorem Sealed.of_outline (hm : m.Sealed) (h : m'.outline = m.outline) : m'.Sealed := by
  induction hm generalizing m' with
  | mk closed _ ih =>
    refine sealed_iff.mpr ⟨fun hclosed c' hc' => ?_, fun c' hc' => ?_⟩
    · obtain ⟨c, hc, heq⟩ := mem_outline h hc'
      rw [finalized_of_outline heq]
      exact closed ((finalized_of_outline h).symm.trans hclosed) c hc
    · obtain ⟨c, hc, heq⟩ := mem_outline h hc'
      exact ih c hc heq

/-! ## What no change undoes -/

/-- What is closed in the first module stays closed in the second, which keeps its children in their
places and is sealed if the first is. -/
structure Outgrows (o m : Module) : Prop where
  stays : o.node.finalized = true → m.node.finalized = true
  children : ∀ (i : Nat) c, o.children[i]? = some c → ∃ d, m.children[i]? = some d ∧
    (c.2.node.finalized = true → d.2.node.finalized = true)
  seals : o.Sealed → m.Sealed

namespace Outgrows

theorem refl (m : Module) : m.Outgrows m := ⟨id, fun _ c h => ⟨c, h, id⟩, id⟩

theorem trans (h : o.Outgrows m) (h' : m.Outgrows m') : o.Outgrows m' := by
  refine ⟨fun ho => h'.stays (h.stays ho), fun i c hc => ?_, fun ho => h'.seals (h.seals ho)⟩
  obtain ⟨d, hd, hcd⟩ := h.children i c hc
  obtain ⟨e, he, hde⟩ := h'.children i d hd
  exact ⟨e, he, fun hclosed => hde (hcd hclosed)⟩

theorem of_outline (h : m.outline = o.outline) : o.Outgrows m := by
  refine ⟨fun ho => (finalized_of_outline h).trans ho, fun i c hc => ?_, fun ho => ho.of_outline h⟩
  have hi := congrArg (·[i]?) (children_outline h)
  simp only [List.getElem?_map, hc, Option.map_some] at hi
  obtain ⟨d, hd, heq⟩ := Option.map_eq_some_iff.mp hi
  refine ⟨d, hd, fun hclosed => ?_⟩
  rw [finalized_of_outline (congrArg Prod.snd heq)]
  exact hclosed

/-- A change of the node that leaves it as open or closed as it was. -/
theorem of_node {node : Node} (h : node.finalized = m.node.finalized) :
    m.Outgrows ⟨node, m.children⟩ := by
  refine ⟨fun hm => h.trans hm, fun _ c hc => ⟨c, hc, id⟩, fun hm => ?_⟩
  obtain ⟨closed, below⟩ := sealed_iff.mp hm
  exact .mk (fun hclosed => closed (h.symm.trans hclosed)) below

/-- Children that outgrow those before them, one by one. -/
theorem of_children {children : List (Option String × Module)}
    (h : List.Forall₂ (fun c d : Option String × Module => c.2.Outgrows d.2) m.children children) :
    m.Outgrows ⟨m.node, children⟩ := by
  refine ⟨id, fun i c hc => ?_, fun hm => ?_⟩
  · obtain ⟨hlt, rfl⟩ := List.getElem?_eq_some_iff.mp hc
    obtain ⟨hlength, hget⟩ := List.forall₂_iff_get.mp h
    exact ⟨_, List.getElem?_eq_getElem (hlength ▸ hlt), (hget i hlt (hlength ▸ hlt)).stays⟩
  · obtain ⟨closed, below⟩ := sealed_iff.mp hm
    refine .mk (fun hclosed d hd => ?_) fun d hd => ?_
    · obtain ⟨c, hc, hcd⟩ := exists_of_forall₂ h d hd
      exact hcd.stays (closed hclosed c hc)
    · obtain ⟨c, hc, hcd⟩ := exists_of_forall₂ h d hd
      exact hcd.seals (below c hc)

theorem of_set {i : Nat} {name name' : Option String} {c c' : Module}
    (hi : m.children[i]? = some (name, c)) (h : c.Outgrows c') :
    m.Outgrows ⟨m.node, m.children.set i (name', c')⟩ := by
  refine of_children (List.forall₂_iff_get.mpr ⟨by simp, fun j hj hj' => ?_⟩)
  simp only [List.get_eq_getElem, List.getElem_set]
  split
  · rename_i heq
    subst heq
    rw [List.getElem?_eq_getElem hj] at hi
    rw [Option.some.inj hi]
    exact h
  · exact refl _

end Outgrows

theorem addChild_open {name : Option String} {c : Module} (h : m.addChild name c = .ok m') :
    m.node.finalized = false := by
  obtain ⟨_, hopen, -⟩ := bind_eq_ok.mp h
  unfold Node.checkOpen at hopen
  split at hopen
  · cases hopen
  · rename_i hfin
    exact Bool.eq_false_of_not_eq_true hfin

theorem Outgrows.of_addChild {name : Option String} {c : Module} (hc : c.Sealed)
    (h : m.addChild name c = .ok m') : m.Outgrows m' := by
  have hopen := addChild_open h
  obtain rfl := addChild_eq_ok h
  refine ⟨id, fun i d hd => ⟨d, ?_, id⟩, fun hm => ?_⟩
  · obtain ⟨hlt, -⟩ := List.getElem?_eq_some_iff.mp hd
    exact (List.getElem?_append_left hlt).trans hd
  · refine .mk (fun hclosed => absurd hclosed (by simp [hopen])) ?_
    exact List.forall_mem_append.mpr ⟨(sealed_iff.mp hm).2, List.forall_mem_singleton.mpr hc⟩

/-! ## Closing -/

def ChildrenClosed (m : Module) : Prop := ∀ c ∈ m.children, c.2.node.finalized = true

theorem ChildrenClosed.of_outline (hm : m.ChildrenClosed) (h : m'.outline = m.outline) :
    m'.ChildrenClosed := by
  intro c' hc'
  obtain ⟨c, hc, heq⟩ := mem_outline h hc'
  exact (finalized_of_outline heq).trans (hm c hc)

/-- The children that were closed are so in their places afterwards. -/
theorem Outgrows.closed_before (h : o.Outgrows m) (ho : o.ChildrenClosed) {i : Nat}
    {d : Option String × Module} (hlt : i < o.children.length) (hd : m.children[i]? = some d) :
    d.2.node.finalized = true := by
  have hc := List.getElem?_eq_getElem hlt
  obtain ⟨d', hd', hclosed⟩ := h.children i _ hc
  rw [hd] at hd'
  cases hd'
  exact hclosed (ho _ (List.mem_of_getElem? hc))

theorem Outgrows.childrenClosed (h : o.Outgrows m) (ho : o.ChildrenClosed)
    (hlength : m.children.length = o.children.length) : m.ChildrenClosed := by
  intro d hd
  obtain ⟨i, hi⟩ := List.mem_iff_getElem?.mp hd
  obtain ⟨hlt, -⟩ := List.getElem?_eq_some_iff.mp hi
  exact h.closed_before ho (hlength ▸ hlt) hi

end Module

/-- What a stage leaves of a module: it undid nothing and, if it ended well, all children are
closed. -/
structure Progress.Grown {ω : Type} (o : Module) (p : Progress Module ω) : Prop where
  outgrows : o.Outgrows p.value
  closed : p.ending = .done → p.value.ChildrenClosed

section

variable {ω : Type} {o m : Module} {p : Progress Module ω}

theorem Progress.Grown.of_part (h : p.Grown m) (ho : o.Outgrows m) : p.Grown o :=
  ⟨ho.trans h.outgrows, h.closed⟩

theorem Progress.Grown.andThen {f : Module → Session ω → Progress Module ω} (h : p.Grown o)
    (hf : ∀ m s, m.ChildrenClosed → (f m s).Grown m) : (p.andThen f).Grown o := by
  cases hend : p.ending with
  | done =>
    rw [Progress.andThen_of_done hend]
    exact (hf _ _ (h.closed hend)).of_part h.outgrows
  | failed e =>
    rw [Progress.andThen_of_not_done (by simp [hend])]
    exact h
  | exhausted =>
    rw [Progress.andThen_of_not_done (by simp [hend])]
    exact h

/-- A way of closing modules that undoes nothing and marks a module closed when it ends well. -/
structure ClosesForGood (close : Path → Module → Session ω → Progress Module ω) : Prop where
  outgrows : ∀ path (m : Module) s, m.Outgrows (close path m s).value
  closed : ∀ path m s, (close path m s).ending = .done →
    (close path m s).value.node.finalized = true

variable {close : Path → Module → Session ω → Progress Module ω} (hclose : ClosesForGood close)
  (path : Path)

include hclose

theorem closeChildren_outgrows (children : List (Option String × Module)) (s : Session ω) :
    List.Forall₂ (fun c d : Option String × Module => c.2.Outgrows d.2) children
      (closeChildren close path children s).value := by
  induction children generalizing s with
  | nil => exact .nil
  | cons c rest ih =>
    obtain ⟨name, m⟩ := c
    have hm := hclose.outgrows (path.child (name.getD m.kind)) m s
    rw [closeChildren]
    dsimp only
    split
    · exact .cons hm (ih _)
    · exact .cons hm (List.forall₂_same.mpr fun _ _ => .refl _)

theorem closeFrom_grown {position : Nat} {m : Module} (s : Session ω)
    (h : ∀ (i : Nat) c, i < position → m.children[i]? = some c → c.2.node.finalized = true) :
    (closeFrom close path position m s).Grown m := by
  constructor
  · have htake : List.Forall₂ (fun c d : Option String × Module => c.2.Outgrows d.2)
        (m.children.take position) (m.children.take position) :=
      List.forall₂_same.mpr fun _ _ => .refl _
    have happend : List.Forall₂ (fun c d : Option String × Module => c.2.Outgrows d.2)
        (m.children.take position ++ m.children.drop position) _ :=
      List.rel_append htake (closeChildren_outgrows hclose path (m.children.drop position) s)
    rw [List.take_append_drop] at happend
    exact .of_children happend
  · intro hdone
    refine List.forall_mem_append.mpr ⟨fun c hc => ?_, fun c hc => ?_⟩
    · obtain ⟨i, hi⟩ := List.mem_iff_getElem?.mp hc
      rw [List.getElem?_take] at hi
      split at hi
      · rename_i hlt
        exact h i c hlt hi
      · cases hi
    · obtain ⟨_, -, -, _, _, hdone', heq⟩ := exists_of_forall₂ (closeChildren_eq_done hdone) c hc
      exact heq ▸ hclose.closed _ _ _ hdone'

/-- The children of a round are closed before the next one, and the last round adds none. -/
theorem runRounds_grown {build : Module → Session ω → Round ω}
    (hbuild : ∀ (m : Module) s, m.Outgrows (build m s).module) (left round : Nat)
    (h : m.ChildrenClosed) (s : Session ω) :
    (runRounds build close path left round m s).Grown m := by
  have hm := hbuild m s
  induction left generalizing round m s with
  | zero =>
    rw [runRounds]
    split
    · exact ⟨hm, fun hdone => by cases hdone⟩
    · split
      · rename_i hlength
        exact ⟨hm, fun _ => hm.childrenClosed h hlength⟩
      · exact ⟨hm, fun hdone => by cases hdone⟩
  | succ left ih =>
    rw [runRounds]
    dsimp only
    split
    · exact ⟨hm, fun hdone => by cases hdone⟩
    · split
      · rename_i hlength
        exact ⟨hm, fun _ => hm.childrenClosed h hlength⟩
      · have hfrom := closeFrom_grown hclose path
          ({ s with next := (build m s).next, world := (build m s).world }.note (.childrenAdded path
            ((build m s).module.children.length - m.children.length) (round + 1)))
          fun i c hlt hi => hm.closed_before h hlt hi
        split
        · rename_i hdone
          exact (ih (round + 1) (hfrom.closed hdone) _ (hbuild _ _)).of_part
            (hm.trans hfrom.outgrows)
        · exact hfrom.of_part hm

theorem runHook_grown {build : Builder ω}
    (hbuild : ∀ hook (m : Module) next world, m.Outgrows (build hook m next world).module)
    (maxRounds : Nat) (h : m.ChildrenClosed) (s : Session ω) :
    (runHook build close maxRounds path m s).Grown m := by
  unfold runHook
  split
  · exact ⟨.refl _, fun _ => h⟩
  · rename_i hook _
    have htaken : m.Outgrows { m with node := { m.node with hook := none } } := .of_node rfl
    have hchildren : Module.ChildrenClosed { m with node := { m.node with hook := none } } := h
    have hgrown := (runRounds_grown hclose path (fun m s => hbuild hook m s.next s.world)
      maxRounds 0 hchildren s).of_part htaken
    have hput : ∀ m : Module, m.Outgrows { m with node := { m.node with hook := some hook } } :=
      fun m => .of_node rfl
    dsimp only
    split
    · rename_i hdone
      exact ⟨hgrown.outgrows.trans (hput _), fun _ => hgrown.closed hdone⟩
    · exact hgrown

end

section

variable {ω : Type} {config : Config} {build : Builder ω}

/-- Closing undoes nothing if deferred constructions do not: a module is marked closed only when
all its children are. -/
theorem Module.close_outgrows
    (hbuild : ∀ hook (m : Module) next world, m.Outgrows (build hook m next world).module)
    (depth : Nat) (root : Bool) (path : Path) (m : Module) (s : Session ω) :
    m.Outgrows (m.close config build depth root path s).value := by
  induction depth generalizing root path m s with
  | zero => exact .refl m
  | succ depth ih =>
    have hclose : ClosesForGood (Module.close config build depth false) :=
      ⟨fun path m s => ih false path m s, fun _ _ _ hdone => (Module.closed_of_done hdone).2⟩
    cases hfin : m.node.finalized with
    | true =>
      rw [Module.close_of_finalized hfin]
      exact .refl m
    | false =>
      rw [Module.close_of_open hfin]
      refine Progress.Grown.outgrows (Progress.Grown.andThen (Progress.Grown.andThen
        (Progress.Grown.andThen (Progress.Grown.andThen
          (closeFrom_grown hclose path _ fun i c hlt _ => absurd hlt i.not_lt_zero)
          fun m s h => ?_) fun m s h => ?_) fun m s h => ?_) fun m s h => ?_)
      · exact runHook_grown hclose path hbuild _ h s
      · have houtline := outline_applyTransforms path m.node.transforms
          { m with node := { m.node with transforms := [] } } s
        have hnode : m.Outgrows { m with node := { m.node with transforms := [] } } := .of_node rfl
        have hchildren : ChildrenClosed { m with node := { m.node with transforms := [] } } := h
        exact ⟨hnode.trans (.of_outline houtline), fun _ => hchildren.of_outline houtline⟩
      · have houtline := outline_settleDomains config.domains root path m s
        exact ⟨.of_outline houtline, fun _ => h.of_outline houtline⟩
      · refine ⟨⟨fun _ => rfl, fun i c hc => ⟨c, hc, id⟩, fun hm => ?_⟩, fun _ => h⟩
        exact .mk (fun _ => h) (Module.sealed_iff.mp hm).2

end

/-! ## Everything that can be built -/

theorem Node.call_keeps (n : Node) (c : Node.Call) :
    (n.call c).kind = n.kind ∧ (n.call c).finalized = n.finalized := by
  have kept : ∀ {r : Except ConstructionError Node},
      (∀ n', r = .ok n' → n'.kind = n.kind ∧ n'.finalized = n.finalized) →
      (r.toOption.getD n).kind = n.kind ∧ (r.toOption.getD n).finalized = n.finalized := by
    intro r hr
    cases r with
    | error e => exact ⟨rfl, rfl⟩
    | ok n' => exact hr n' rfl
  cases c with
  | statements domain block =>
    refine kept fun n' added => ?_
    obtain ⟨-, rfl⟩ := Node.addStatements_eq_ok added
    exact ⟨rfl, rfl⟩
  | machine machine =>
    refine Node.addMachine_keeps (P := fun n' => n'.kind = n.kind ∧ n'.finalized = n.finalized)
      (fun n₁ n₂ domain block h added => ?_) ⟨rfl, rfl⟩ machine
    obtain ⟨-, rfl⟩ := Node.addStatements_eq_ok added
    exact h
  | domain domain =>
    refine kept fun n' added => ?_
    obtain ⟨-, rfl⟩ := Node.addDomain_eq_ok added
    exact ⟨rfl, rfl⟩
  | special special =>
    refine kept fun n' added => ?_
    obtain ⟨_, -, added⟩ := bind_eq_ok.mp added
    cases added
    exact ⟨rfl, rfl⟩
  | hook hook =>
    refine kept fun n' added => ?_
    obtain ⟨_, -, added⟩ := bind_eq_ok.mp added
    cases added
    exact ⟨rfl, rfl⟩
  | transform transform =>
    refine kept fun n' added => ?_
    obtain ⟨_, -, added⟩ := bind_eq_ok.mp added
    obtain ⟨_, -, added⟩ := bind_eq_ok.mp added
    cases added
    exact ⟨rfl, rfl⟩

/-- What a tree becomes outgrows it. -/
theorem Module.Reaches.outgrows {o m : Module} (h : o.Reaches m) : o.Outgrows m := by
  induction h with
  | refl m => exact .refl m
  | call c _ ih => exact ih.trans (.of_node (Node.call_keeps _ c).2)
  | child kind name _ _ added ih ihc =>
    exact ih.trans (.of_addChild (ihc.seals (Module.sealed_empty kind)) added)
  | within i name _ hi _ ih ihc => exact ih.trans (.of_set hi ihc)
  | apply t _ ih => exact ih.trans (.of_outline (Module.outline_apply t _))
  | rename old new _ ih => exact ih.trans (.of_outline (Module.outline_renameDomain _ old new))
  | finalize config build depth s _ _ ihooks ih =>
    exact ih.trans (Module.close_outgrows ihooks depth true _ _ s)

end Gateware
