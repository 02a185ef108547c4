import Gateware.Finalize
import Gateware.Proofs.Tree
import Gateware.Proofs.Walk

/-! # What closing a tree keeps

Closing changes a node in few ways: it takes its deferred construction and its transforms, renames
domains, appends a controlling statement, gives memory ports a domain, resolves and declares
domains, and marks it closed. A property of nodes that each of these keeps is kept by closing,
provided that deferred constructions keep it in the trees they build.
-/
namespace Gateware

/-- The node property is kept by every change that closing makes to a node. -/
structure Node.KeptByClosing (P : Node → Prop) : Prop where
  hook : ∀ n h, P n → P { n with hook := h }
  transforms : ∀ n, P n → P { n with transforms := [] }
  resolved : ∀ n domains, P n → P { n with resolved := domains }
  finalized : ∀ n, P n → P n.markFinalized
  declare : ∀ n n' domain, P n → n.addDomain domain = .ok n' → P n'
  memory : ∀ n domain, P n → P (n.resolveMemoryDomains domain)
  rename : ∀ n old new, P n → P (n.renameDomain old new)
  reset : ∀ n n' domain control, P n →
    n.insertControl domain (resetStatement control) = .ok n' → P n'
  enable : ∀ n n' domain control, P n →
    n.insertControl domain (enableStatement control) = .ok n' → P n'

section

variable {P : Node → Prop} {m : Module}

/-! ## Transforms -/

theorem Module.renameDomainAll_eq_map (old new : String)
    (children : List (Option String × Module)) :
    Module.renameDomainAll old new children =
      children.map fun c => (c.1, c.2.renameDomain old new) :=
  map_of_cons rfl (fun _ _ => rfl) children

theorem Module.All.renameDomain {old new : String}
    (hrename : ∀ n : Node, P n → P (n.renameDomain old new)) (h : m.All P) :
    (m.renameDomain old new).All P := by
  induction m with
  | step node children ih =>
    obtain ⟨hnode, hchildren⟩ := Module.all_iff.mp h
    refine Module.all_iff.mpr ⟨hrename _ hnode, ?_⟩
    rw [Module.renameDomain, Module.renameDomainAll_eq_map]
    intro c hc
    obtain ⟨d, hd, rfl⟩ := List.mem_map.mp hc
    exact ih d hd (hchildren d hd)

theorem Module.insertControlAll_all {domain : String}
    {statement : List Signal → Except ConstructionError (Option Statement)}
    {children : List (Option String × Module)}
    (h : ∀ c ∈ children, (c.2.insertControl domain statement).1.All P)
    (hkeep : ∀ c ∈ children, c.2.All P) :
    ∀ c ∈ (Module.insertControlAll domain statement children).1, c.2.All P := by
  induction children with
  | nil => exact nofun
  | cons c rest ih =>
    obtain ⟨name, m⟩ := c
    have hm := h _ List.mem_cons_self
    obtain ⟨-, hrest⟩ := List.forall_mem_cons.mp hkeep
    rw [Module.insertControlAll]
    split
    · rename_i m' e hinsert
      rw [hinsert] at hm
      exact List.forall_mem_cons.mpr ⟨hm, hrest⟩
    · rename_i m' _ hinsert
      rw [hinsert] at hm
      exact List.forall_mem_cons.mpr ⟨hm, ih (fun d hd => h d (List.mem_cons_of_mem _ hd)) hrest⟩

theorem Module.All.insertControl {domain : String}
    {statement : List Signal → Except ConstructionError (Option Statement)}
    (hinsert : ∀ n n' : Node, P n → n.insertControl domain statement = .ok n' → P n')
    (h : m.All P) : (m.insertControl domain statement).1.All P := by
  induction m with
  | step node children ih =>
    obtain ⟨hnode, hchildren⟩ := Module.all_iff.mp h
    rw [Module.insertControl]
    split
    · exact h
    · rename_i node' hnode'
      refine Module.all_iff.mpr ⟨hinsert _ _ hnode hnode', ?_⟩
      exact Module.insertControlAll_all (fun c hc => ih c hc (hchildren c hc)) hchildren

variable (hP : Node.KeptByClosing P)

include hP

theorem Module.All.renamePairs (pairs : List (String × String)) (h : m.All P) :
    (m.renamePairs pairs).1.All P := by
  induction pairs generalizing m with
  | nil => exact h
  | cons pair rest ih =>
    obtain ⟨old, new⟩ := pair
    rw [Module.renamePairs]
    split
    · exact ih h
    · split
      · exact h
      · exact ih (h.renameDomain fun n => hP.rename n old new)

theorem Module.All.apply (t : Transform) (h : m.All P) : (t.apply m).1.All P := by
  unfold Transform.apply
  split
  · exact h
  · cases t with
    | rename pairs => exact h.renamePairs hP pairs
    | insertReset domain control =>
      exact h.insertControl fun n n' => hP.reset n n' domain control
    | insertEnable domain control =>
      exact h.insertControl fun n n' => hP.enable n n' domain control

/-! ## Domains -/

theorem renameGroup_all (domain : String) (group : List Contribution)
    {children : List (Option String × Module)} (h : ∀ c ∈ children, c.2.All P) :
    ∀ c ∈ renameGroup domain group children, c.2.All P := by
  induction group generalizing children with
  | nil => exact h
  | cons g rest ih =>
    refine ih fun c hc => ?_
    obtain ⟨i, hi⟩ := List.mem_iff_getElem?.mp hc
    rw [List.getElem?_modify] at hi
    obtain ⟨d, hd, rfl⟩ := Option.map_eq_some_iff.mp hi
    have hall := h d (List.mem_of_getElem? hd)
    split
    · exact hall.renameDomain fun n => hP.rename n _ _
    · exact hall

theorem settleCollisions_all (path : Path) (groups : List (String × List Contribution))
    (h : m.All P) : (settleCollisions path m groups).module.All P := by
  induction groups generalizing m with
  | nil => exact h
  | cons group rest ih =>
    obtain ⟨domain, group⟩ := group
    obtain ⟨hnode, hchildren⟩ := Module.all_iff.mp h
    rw [settleCollisions]
    split
    · exact h
    · exact ih (Module.all_iff.mpr ⟨hnode, renameGroup_all hP domain group hchildren⟩)

theorem Module.All.resolve (path : Path) (h : m.All P) : (m.resolve path).module.All P := by
  have hsettled := settleCollisions_all hP path (collisions m.contributions) h
  unfold Module.resolve
  dsimp only
  split
  · exact hsettled
  · split
    · exact hsettled
    · obtain ⟨hnode, hchildren⟩ := Module.all_iff.mp hsettled
      exact Module.all_iff.mpr ⟨hP.resolved _ _ hnode, hchildren⟩

theorem Module.All.checkUses (createSync : Bool) (path : Path) (next : Nat) (h : m.All P) :
    (m.checkUses createSync path next).module.All P := by
  unfold Module.checkUses
  split
  · unfold Module.declareSync
    split
    · exact h
    · rename_i node hdeclare
      obtain ⟨hnode, hchildren⟩ := Module.all_iff.mp h
      have hresolved := Module.All.resolve hP path (m := { m with node })
        (Module.all_iff.mpr ⟨hP.declare _ _ _ hnode hdeclare, hchildren⟩)
      dsimp only
      split
      · exact hresolved
      · exact hresolved
  · exact h

/-! ## Stages -/

variable {ω : Type} {s : Session ω}

omit hP in
theorem closeChildren_all {close : Path → Module → Session ω → Progress Module ω}
    (hclose : ∀ path m s, m.All P → (close path m s).value.All P) (path : Path)
    {children : List (Option String × Module)} (h : ∀ c ∈ children, c.2.All P) (s : Session ω) :
    ∀ c ∈ (closeChildren close path children s).value, c.2.All P := by
  induction children generalizing s with
  | nil => exact nofun
  | cons c rest ih =>
    obtain ⟨name, m⟩ := c
    obtain ⟨hm, hrest⟩ := List.forall_mem_cons.mp h
    rw [closeChildren]
    dsimp only
    split
    · exact List.forall_mem_cons.mpr ⟨hclose _ _ _ hm, ih hrest _⟩
    · exact List.forall_mem_cons.mpr ⟨hclose _ _ _ hm, hrest⟩

omit hP in
theorem closeFrom_all {close : Path → Module → Session ω → Progress Module ω}
    (hclose : ∀ path m s, m.All P → (close path m s).value.All P) (path : Path) (position : Nat)
    (h : m.All P) : (closeFrom close path position m s).value.All P := by
  obtain ⟨hnode, hchildren⟩ := Module.all_iff.mp h
  refine Module.all_iff.mpr ⟨hnode, fun c hc => ?_⟩
  rcases List.mem_append.mp hc with hc | hc
  · exact hchildren c (List.mem_of_mem_take hc)
  · exact closeChildren_all hclose path (fun d hd => hchildren d (List.mem_of_mem_drop hd)) s c hc

omit hP in
theorem runRounds_all {build : Module → Session ω → Round ω}
    (hbuild : ∀ m s, m.All P → (build m s).module.All P)
    {close : Path → Module → Session ω → Progress Module ω}
    (hclose : ∀ path m s, m.All P → (close path m s).value.All P) (path : Path) (left round : Nat)
    (h : m.All P) : (runRounds build close path left round m s).value.All P := by
  induction left generalizing round m s with
  | zero =>
    rw [runRounds]
    split
    · exact hbuild _ _ h
    · split
      · exact hbuild _ _ h
      · exact hbuild _ _ h
  | succ left ih =>
    rw [runRounds]
    dsimp only
    split
    · exact hbuild _ _ h
    · split
      · exact hbuild _ _ h
      · split
        · exact ih _ (closeFrom_all hclose path _ (hbuild _ _ h))
        · exact closeFrom_all hclose path _ (hbuild _ _ h)

theorem runHook_all {build : Builder ω}
    (hbuild : ∀ hook m next world, m.All P → (build hook m next world).module.All P)
    {close : Path → Module → Session ω → Progress Module ω}
    (hclose : ∀ path m s, m.All P → (close path m s).value.All P) (maxRounds : Nat) (path : Path)
    (h : m.All P) : (runHook build close maxRounds path m s).value.All P := by
  have hset : ∀ {m : Module} (hook : Option Nat), m.All P →
      Module.All P { m with node := { m.node with hook } } := fun hook h =>
    Module.all_iff.mpr ⟨hP.hook _ _ (Module.all_iff.mp h).1, (Module.all_iff.mp h).2⟩
  unfold runHook
  split
  · exact h
  · rename_i hook _
    have hgrown := runRounds_all (s := s) (fun m s => hbuild hook m s.next s.world) hclose path
      maxRounds 0 (hset none h)
    dsimp only
    split
    · exact hset (some hook) hgrown
    · exact hgrown

theorem applyTransforms_all (path : Path) (transforms : List Transform) (h : m.All P) :
    (applyTransforms path transforms m s).value.All P := by
  induction transforms generalizing m s with
  | nil => exact h
  | cons t rest ih =>
    have happly := h.apply hP t
    rw [applyTransforms]
    split
    · rename_i heq
      rwa [heq] at happly
    · rename_i heq
      rw [heq] at happly
      exact ih happly

theorem settleDomains_all (config : DomainConfig) (root : Bool) (path : Path) (h : m.All P) :
    (settleDomains config root path m s).value.All P := by
  obtain ⟨hnode, hchildren⟩ := Module.all_iff.mp h
  have hresolved := Module.All.resolve hP path
    (m := { m with node := m.node.resolveMemoryDomains config.defaultMemoryDomain })
    (Module.all_iff.mpr ⟨hP.memory _ _ hnode, hchildren⟩)
  unfold settleDomains
  dsimp only
  split
  · exact hresolved
  · split
    · have hchecked := hresolved.checkUses hP config.createSync path s.next
      split
      · exact hchecked
      · exact hchecked
    · exact hresolved

omit hP in
theorem Progress.andThen_all {p : Progress Module ω}
    {f : Module → Session ω → Progress Module ω} (h : p.value.All P)
    (hf : ∀ m s, m.All P → (f m s).value.All P) : (p.andThen f).value.All P := by
  unfold Progress.andThen
  split
  · exact hf _ _ h
  · exact h

/-- Closing keeps the property of all nodes. -/
theorem Module.All.close {config : Config} {build : Builder ω}
    (hbuild : ∀ hook m next world, m.All P → (build hook m next world).module.All P) (depth : Nat)
    (root : Bool) (path : Path) (h : m.All P) (s : Session ω) :
    (m.close config build depth root path s).value.All P := by
  induction depth generalizing root path m s with
  | zero => exact h
  | succ depth ih =>
    have hclose : ∀ path (m : Module) s, m.All P →
        (m.close config build depth false path s).value.All P := fun path m s h => ih false path h s
    rw [Module.close]
    split
    · exact h
    · dsimp only
      refine Progress.andThen_all (Progress.andThen_all (Progress.andThen_all
        (Progress.andThen_all (closeFrom_all hclose path 0 h) fun m s h => ?_) fun m s h => ?_)
        fun m s h => ?_) fun m s h => ?_
      · exact runHook_all hP hbuild hclose _ path h
      · obtain ⟨hnode, hchildren⟩ := Module.all_iff.mp h
        exact applyTransforms_all hP path _
          (Module.all_iff.mpr ⟨hP.transforms _ hnode, hchildren⟩)
      · exact settleDomains_all hP _ _ path h
      · obtain ⟨hnode, hchildren⟩ := Module.all_iff.mp h
        exact Module.all_iff.mpr ⟨hP.finalized _ hnode, hchildren⟩

end

end Gateware
