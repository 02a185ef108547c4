import Gateware.Proofs.Design
import Gateware.Proofs.Outline

/-! # Closing again after a failure

A failed close leaves the tree as far as it came: children before the failure are closed, transforms
are used up and some collisions may be settled. A collision that names cannot settle is found again
in such a tree, and so are a domain that is not visible and a declared name that one child surfaces.
The other failures need not last: a transform that was refused is gone, and a clash that settling
itself made looks like a new collision.
-/
namespace Gateware

namespace Module

mutual
/-- The module that closing has to take up next: the first open one, children before parents. -/
def pending : Module → Module
  | ⟨node, children⟩ => (pendingIn children).getD ⟨node, children⟩

def pendingIn : List (Option String × Module) → Option Module
  | [] => none
  | (_, m) :: rest => if m.node.finalized then pendingIn rest else some m.pending
end

theorem pendingIn_of_closed {closed rest : List (Option String × Module)}
    (h : ∀ c ∈ closed, c.2.node.finalized = true) :
    pendingIn (closed ++ rest) = pendingIn rest := by
  induction closed with
  | nil => rfl
  | cons c closed ih =>
    obtain ⟨name, m⟩ := c
    obtain ⟨hm, hclosed⟩ := List.forall_mem_cons.mp h
    rw [List.cons_append, pendingIn, if_pos hm]
    exact ih hclosed

theorem pending_of_closed {m : Module} (h : ∀ c ∈ m.children, c.2.node.finalized = true) :
    m.pending = m := by
  obtain ⟨node, children⟩ := m
  rw [pending, ← List.append_nil children, pendingIn_of_closed h]
  rfl

theorem pending_of_open {node : Node} {closed rest : List (Option String × Module)}
    {name : Option String} {m : Module} (h : ∀ c ∈ closed, c.2.node.finalized = true)
    (hm : m.node.finalized = false) :
    Module.pending ⟨node, closed ++ (name, m) :: rest⟩ = m.pending := by
  rw [pending, pendingIn_of_closed h, pendingIn, if_neg (by simp [hm])]
  rfl

end Module

/-- The errors that a tree without deferred constructions still has when it is closed again. A name
shadows a declared one as before if the module where closing stopped gets it from one child only. -/
def ElabError.Lasting (stopped : Module) : ElabError → Prop
  | .construction _ | .naming (.surfacedTwice ..) => False
  | .naming (.shadowed _ _ domain) =>
    (stopped.contributions.filter fun c => c.domain.name == domain).length ≤ 1
  | .naming _ | .finalization _ => True

/-! ## Collisions that stay -/

section

variable {path : Path} {m : Module}

theorem collectSurfaced_eq_error {declared : List ClockDomain} {surfaced rest : List Contribution}
    {e : NamingError} (h : collectSurfaced path declared surfaced rest = .error e) :
    (∃ domain first second, e = .surfacedTwice path domain first second) ∨
      ∃ c ∈ rest, c.domain.name ∈ declared.map ClockDomain.name ∧
        e = .shadowed path c.owner c.domain.name := by
  induction rest generalizing surfaced with
  | nil => cases h
  | cons c rest ih =>
    rw [collectSurfaced] at h
    split at h
    · rename_i hdeclared
      cases h
      exact .inr ⟨c, List.mem_cons_self, by simpa using hdeclared, rfl⟩
    · split at h
      · cases h
        exact .inl ⟨_, _, _, rfl⟩
      · refine (ih h).imp_right ?_
        rintro ⟨d, hd, hrest⟩
        exact ⟨d, List.mem_cons_of_mem _ hd, hrest⟩

/-- A name that no step renames stays. -/
theorem nameAfter_of_not_mem {steps : List (String × String)} {name : String}
    (h : ∀ step ∈ steps, step.1 ≠ name) : nameAfter steps name = name := by
  induction steps with
  | nil => rfl
  | cons step rest ih =>
    obtain ⟨hstep, hrest⟩ := List.forall_mem_cons.mp h
    rw [nameAfter, List.foldl_cons, if_neg hstep.symm]
    exact ih hrest

theorem stepsAt_fst {groups : List (String × List Contribution)} {position : Nat}
    {step : String × String} (h : step ∈ stepsAt groups position) :
    step.1 ∈ groups.map (·.1) := by
  obtain ⟨g, hg, hstep⟩ := List.mem_flatMap.mp h
  obtain ⟨c, -, rfl⟩ := List.mem_map.mp hstep
  exact List.mem_map_of_mem hg

/-- A fault of a group is one of every larger group. -/
theorem groupFault?_of_sublist {domain : String} {group larger : List Contribution}
    (change : Contribution → Contribution) {path' : Path}
    (hchild : ∀ c, (change c).child = c.child) (howner : ∀ c, (change c).owner = c.owner)
    (hsub : (group.map change).Sublist larger) (h : groupFault? path domain group ≠ none) :
    groupFault? path' domain larger ≠ none := by
  refine fun hnone => h (groupFault?_eq_none.mpr ?_)
  obtain ⟨hsome, hnodup⟩ := groupFault?_eq_none.mp hnone
  refine ⟨fun c hc => ?_, ?_⟩
  · rw [← hchild c]
    exact hsome _ (hsub.subset (List.mem_map_of_mem hc))
  · have howners := hnodup.sublist (hsub.map Contribution.owner)
    rwa [List.map_map, show Contribution.owner ∘ change = Contribution.owner from
      funext howner] at howners

/-- Renaming the groups before it keeps a collision that names cannot settle. -/
theorem collision_stays {settled rest : List (String × List Contribution)} {domain : String}
    {group : List Contribution}
    (hgroups : collisions m.contributions = settled ++ (domain, group) :: rest)
    (hfault : groupFault? path domain group ≠ none) (path' : Path) :
    ∃ larger, (domain, larger) ∈ collisions (m.settledBy settled).contributions ∧
      groupFault? path' domain larger ≠ none := by
  obtain ⟨hgroup, hlength⟩ := mem_collisions.mp
    (show (domain, group) ∈ collisions m.contributions by simp [hgroups])
  have hfresh : domain ∉ settled.map (·.1) := by
    have hnodup := nodup_collisions m.contributions
    rw [hgroups, List.map_append, List.map_cons, List.nodup_append] at hnodup
    exact fun h => hnodup.2.2 _ h _ List.mem_cons_self rfl
  let change : Contribution → Contribution := fun c =>
    { c with domain := c.domain.renameAll (stepsAt settled c.position) }
  have hsub : (group.map change).Sublist
      ((m.settledBy settled).contributions.filter fun c => c.domain.name == domain) := by
    rw [Module.contributions_settledBy, hgroup, List.filter_map]
    refine List.Sublist.map _ (List.monotone_filter_right _ fun c hc => ?_)
    -- the steps rename other names only
    have hname : (c.domain.renameAll (stepsAt settled c.position)).name = c.domain.name := by
      rw [ClockDomain.renameAll_name]
      refine nameAfter_of_not_mem fun step hstep heq => hfresh ?_
      rw [← beq_iff_eq.mp hc, ← heq]
      exact stepsAt_fst hstep
    simpa [hname] using hc
  refine ⟨_, mem_collisions.mpr ⟨rfl, ?_⟩,
    groupFault?_of_sublist change (fun _ => rfl) (fun _ => rfl) hsub hfault⟩
  exact hlength.trans_le (by simpa using hsub.length_le)

theorem Module.contributions_congr {m m' : Module} (h : m'.children = m.children) :
    m'.contributions = m.contributions := by
  rw [Module.contributions, Module.contributions, h]

/-- A declared name that one child surfaces is not settled. -/
theorem Module.shadow_stays {c : Contribution} (hc : c ∈ m.contributions)
    (hdeclared : c.domain.name ∈ m.node.declared.map ClockDomain.name)
    (honce : (m.contributions.filter fun d => d.domain.name == c.domain.name).length ≤ 1)
    (path : Path) : ∃ e, (m.resolve path).result = .error e := by
  cases hresult : (m.resolve path).result with
  | error e => exact ⟨e, rfl⟩
  | ok _ =>
    obtain ⟨-, -, -, hfresh, -⟩ := Module.resolve_eq_ok hresult
    -- a name that is surfaced once is in no collision, so no rename changes it
    have hname : nameAfter (stepsAt (collisions m.contributions) c.position) c.domain.name =
        c.domain.name := by
      refine nameAfter_of_not_mem fun step hstep heq => ?_
      obtain ⟨⟨domain, group⟩, hg, hdomain⟩ := List.mem_map.mp (stepsAt_fst hstep)
      obtain ⟨rfl, hlength⟩ := mem_collisions.mp hg
      rw [show domain = c.domain.name from hdomain.trans heq] at hlength
      omega
    rw [Module.resolve_contributions hresult, List.forall_mem_map] at hfresh
    have hnot := hfresh c hc
    rw [ClockDomain.renameAll_name, hname] at hnot
    exact absurd hdeclared hnot

/-- A module with the children of a failed resolution fails again if the error is a lasting one. -/
theorem Module.resolve_fails_again {e : NamingError} (h : (m.resolve path).result = .error e)
    (lasting : (ElabError.naming e).Lasting (m.resolve path).module) (m' : Module)
    (hdeclared : m'.node.declared = m.node.declared)
    (hchildren : m'.children = (m.resolve path).module.children) (path' : Path) :
    ∃ e', (m'.resolve path').result = .error e' := by
  have hsame : m'.contributions = (m.resolve path).module.contributions :=
    Module.contributions_congr hchildren
  rcases Module.resolve_cases path m with ⟨-, _, -, -, hok⟩ | ⟨e', hclash, hmodule, he⟩ |
    ⟨settled, domain, group, rest, e', hgroups, hfault, hmodule, -⟩
  · rw [h] at hok
    cases hok
  · rw [h] at he
    cases he
    obtain ⟨_, _, _, rfl⟩ | ⟨c, hc, hmem, rfl⟩ := collectSurfaced_eq_error hclash
    · exact lasting.elim
    · rw [← hmodule, ← hsame] at hc
      rw [ElabError.Lasting, ← hsame] at lasting
      exact Module.shadow_stays hc (hdeclared ▸ hmem) lasting path'
  · -- settling stopped at this group, whose name no earlier group had
    have hne : groupFault? path domain group ≠ none := by simp [hfault]
    obtain ⟨larger, hlarger, hfault'⟩ := collision_stays hgroups hne path'
    rw [← hmodule, ← hsame] at hlarger
    rcases Module.resolve_cases path' m' with ⟨hnone, -⟩ | ⟨e', -, -, he⟩ |
      ⟨_, _, _, _, e', -, -, -, he⟩
    · exact absurd (hnone _ hlarger) hfault'
    · exact ⟨e', he⟩
    · exact ⟨e', he⟩

end

/-! ## What closing reads of a node -/

/-- What decides how closing takes a node. -/
def Node.standing (n : Node) : String × Bool × Option Nat × List Transform :=
  (n.kind, n.finalized, n.hook, n.transforms)

def Module.standing (m : Module) :
    (String × Bool × Option Nat × List Transform) × List Bool :=
  (m.node.standing, m.children.map fun c => c.2.node.finalized)

theorem Module.standing_of_outline {m m' : Module} (h : m'.outline = m.outline) :
    m'.standing = m.standing := by
  have hnode := congrArg Node.standing (Module.node_outline h)
  have hflags : ∀ t : Module, t.outline.node.finalized = t.node.finalized := by
    intro t
    rw [Module.outline_eq]
    rfl
  have hchildren := congrArg (List.map fun c : Option String × Module => c.2.node.finalized)
    (Module.children_outline h)
  simp only [List.map_map, Function.comp_def, hflags] at hchildren
  exact congrArg₂ Prod.mk hnode hchildren

/-! ## Settling domains again -/

/-- A second default for the memory ports finds none open. -/
theorem Module.withMemoryDomain_again {m m' : Module} (domain : String)
    (h : m'.node.specials = (m.withMemoryDomain domain).node.specials) :
    m'.withMemoryDomain domain = m' := by
  have hspecials : (m'.node.resolveMemoryDomains domain).specials = m'.node.specials := by
    rw [Node.resolveMemoryDomains]
    simp only [h, Module.withMemoryDomain, Node.resolveMemoryDomains, List.map_map]
    refine List.map_congr_left fun special _ => ?_
    cases special with
    | primitive i => rfl
    | memory mem => simp
  have hnode : m'.node.resolveMemoryDomains domain = m'.node :=
    calc m'.node.resolveMemoryDomains domain
      _ = { m'.node with specials := (m'.node.resolveMemoryDomains domain).specials } := rfl
      _ = m'.node := by rw [hspecials]
  obtain ⟨node, children⟩ := m'
  rw [Module.withMemoryDomain, hnode]

section

variable {m : Module} {path : Path} {next : Nat} {createSync : Bool} {e : ElabError}

/-- A lasting error of a root that gets its `sync` is found after that. -/
theorem Module.declareSync_eq_error (h : (m.declareSync path next).result = .error e)
    (lasting : e.Lasting (m.declareSync path next).module) :
    ∃ node, m.node.addDomain (.fresh next ClockDomain.default) = .ok node ∧
      (m.declareSync path next).module = (Module.resolve path { m with node }).module ∧
      ((∃ c, (Module.resolve path { m with node }).result = .error c ∧ e = .naming c) ∨
        (Module.resolve path { m with node }).result = .ok () ∧
          (Module.resolve path { m with node }).module.checkVisible path = .error e) := by
  unfold Module.declareSync at h lasting ⊢
  split at h
  · cases h
    exact lasting.elim
  · rename_i node hnode
    refine ⟨node, hnode, ?_⟩
    dsimp only at h ⊢
    cases hresult : (Module.resolve path { m with node }).result with
    | error c =>
      rw [hresult] at h
      cases h
      exact ⟨rfl, .inl ⟨c, rfl, rfl⟩⟩
    | ok _ =>
      rw [hresult] at h
      exact ⟨rfl, .inr ⟨rfl, h⟩⟩

/-- A root that got its `sync` before a lasting error fails to resolve or misses a domain. -/
theorem Module.declareSync_fails_again (h : (m.declareSync path next).result = .error e)
    (lasting : e.Lasting (m.declareSync path next).module) :
    (m.declareSync path next).module.node.specials = m.node.specials ∧
      ((∃ c, ((m.declareSync path next).module.resolve path).result = .error c) ∨
        (m.declareSync path next).module.Resolved ∧ ∀ next', ∃ e',
          ((m.declareSync path next).module.checkUses createSync path
            next').result = .error e') := by
  obtain ⟨node, hnode, hmodule, hcase⟩ := Module.declareSync_eq_error h lasting
  obtain ⟨-, rfl⟩ := Node.addDomain_eq_ok hnode
  obtain ⟨resolved, hresolved⟩ := Module.resolve_node { m with node := { m.node with
    declared := m.node.declared ++ [.fresh next ClockDomain.default] } } path
  rw [hmodule] at lasting ⊢
  refine ⟨by rw [hresolved], ?_⟩
  obtain ⟨c, herror, rfl⟩ | ⟨hok, hvisible⟩ := hcase
  · exact .inl (Module.resolve_fails_again herror lasting _ (by rw [hresolved]) rfl path)
  · refine .inr ⟨Module.resolved_of_ok hok, fun next' => ?_⟩
    unfold Module.checkUses
    split
    · -- the root has a `sync` by now
      unfold Module.declareSync
      split
      · exact ⟨_, rfl⟩
      · rename_i hagain
        obtain ⟨hfresh, -⟩ := Node.addDomain_eq_ok hagain
        rw [hresolved] at hfresh
        exact absurd rfl (hfresh (.fresh next ClockDomain.default)
          (List.mem_append_right _ List.mem_cons_self))
    · exact ⟨e, hvisible⟩

theorem Module.checkUses_fails_again (hm : m.Resolved)
    (h : (m.checkUses createSync path next).result = .error e)
    (lasting : e.Lasting (m.checkUses createSync path next).module) :
    (m.checkUses createSync path next).module.node.specials = m.node.specials ∧
      ((∃ c, ((m.checkUses createSync path next).module.resolve path).result = .error c) ∨
        (m.checkUses createSync path next).module.Resolved ∧ ∀ next', ∃ e',
          ((m.checkUses createSync path next).module.checkUses createSync path
            next').result = .error e') := by
  by_cases hmissing : (createSync && (m.undeclared [] path).any
      fun use => use.2 == ClockDomain.default) = true
  · have hsync : m.checkUses createSync path next = m.declareSync path next := if_pos hmissing
    rw [hsync] at h lasting ⊢
    exact Module.declareSync_fails_again h lasting
  · have hsame : ∀ next, m.checkUses createSync path next =
        ⟨m, next, [], m.checkVisible path⟩ := fun _ => if_neg hmissing
    rw [hsame] at h ⊢
    refine ⟨rfl, .inr ⟨hm, fun next' => ⟨e, ?_⟩⟩⟩
    rw [hsame]
    exact h

end

section

variable {ω : Type} {config : DomainConfig} {root : Bool} {path path' : Path} {m : Module}
  {s : Session ω} {e : ElabError}

/-- Settling domains fails again where it failed with a lasting error. -/
theorem settleDomains_fails_again (failed : (settleDomains config root path m s).ending = .failed e)
    (lasting : e.Lasting (settleDomains config root path m s).value)
    (hpath : root = true → path' = path) (s' : Session ω) :
    ∃ e', (settleDomains config root path' (settleDomains config root path m s).value s').ending =
      .failed e' := by
  cases hresult : ((m.withMemoryDomain config.defaultMemoryDomain).resolve path).result with
  | error c =>
    obtain ⟨hvalue, hending⟩ : (settleDomains config root path m s).value = _ ∧
        (settleDomains config root path m s).ending = _ := settleDomains_of_error hresult
    obtain ⟨resolved, hnode⟩ :=
      Module.resolve_node (m.withMemoryDomain config.defaultMemoryDomain) path
    rw [hending] at failed
    cases failed
    rw [hvalue] at lasting ⊢
    obtain ⟨c', hc'⟩ := Module.resolve_fails_again hresult lasting
      (((m.withMemoryDomain config.defaultMemoryDomain).resolve path).module.withMemoryDomain
        config.defaultMemoryDomain) (by rw [Module.withMemoryDomain, hnode]; rfl) rfl path'
    exact ⟨_, (settleDomains_of_error hc').2⟩
  | ok _ =>
    cases root with
    | false =>
      rw [(settleDomains_of_ok hresult).2] at failed
      cases failed
    | true =>
      cases hpath rfl
      obtain ⟨hvalue, hending⟩ := settleDomains_root_of_ok (s := s) hresult
      rw [hvalue] at lasting ⊢
      have herror : (((m.withMemoryDomain config.defaultMemoryDomain).resolve path).module.checkUses
          config.createSync path s.next).result = .error e :=
        Ending.ofResult_eq_failed.mp (hending.symm.trans failed)
      obtain ⟨hspecials, hagain⟩ :=
        Module.checkUses_fails_again (Module.resolved_of_ok hresult) herror lasting
      obtain ⟨resolved, hnode⟩ :=
        Module.resolve_node (m.withMemoryDomain config.defaultMemoryDomain) path
      have hmemory := Module.withMemoryDomain_again (m := m) config.defaultMemoryDomain
        (hspecials.trans (by rw [hnode]))
      obtain ⟨c, hc⟩ | ⟨hresolved, hagain⟩ := hagain
      · rw [← hmemory] at hc
        exact ⟨_, (settleDomains_of_error hc).2⟩
      · obtain ⟨hsame, hok⟩ := hresolved.resolve path
        rw [← hmemory] at hok
        obtain ⟨-, hending'⟩ := settleDomains_root_of_ok (s := s') hok
        rw [hmemory, hsame] at hending'
        obtain ⟨e', he'⟩ := hagain s'.next
        exact ⟨e', hending'.trans (Ending.ofResult_eq_failed.mpr he')⟩

end

/-! ## Closing again -/

section

variable {ω : Type} {close : Path → Module → Session ω → Progress Module ω} {path : Path}
  {children : List (Option String × Module)} {s : Session ω} {e : ElabError}

theorem closeFrom_of_closed {m : Module} {s' : Session ω}
    (h : closeChildren close path m.children s = ⟨m.children, s', .done⟩) :
    closeFrom close path 0 m s = ⟨m, s', .done⟩ := by
  obtain ⟨node, children⟩ := m
  rw [closeFrom_zero, h]

/-- Where closing children failed, those before the failing one were closed. -/
theorem closeChildren_eq_failed (h : (closeChildren close path children s).ending = .failed e) :
    ∃ closed name m rest path' s',
      (closeChildren close path children s).value =
        closed ++ (name, (close path' m s').value) :: rest ∧
      (∀ c ∈ closed, ∃ path m s, (close path m s).ending = .done ∧ (close path m s).value = c.2) ∧
      (close path' m s').ending = .failed e ∧ (name, m) ∈ children := by
  induction children generalizing s with
  | nil => cases h
  | cons c rest ih =>
    obtain ⟨name, m⟩ := c
    rw [closeChildren] at h ⊢
    dsimp only at h ⊢
    split at h
    · rename_i hdone
      obtain ⟨closed, name', m', rest', path', s', hvalue, hclosed, hfailed, hmem⟩ := ih h
      refine ⟨(name, _) :: closed, name', m', rest', path', s', congrArg _ hvalue,
        List.forall_mem_cons.mpr ⟨⟨_, _, _, hdone, rfl⟩, hclosed⟩, hfailed,
        List.mem_cons_of_mem _ hmem⟩
    · exact ⟨[], name, m, rest, _, _, rfl, List.forall_mem_nil _, h, List.mem_cons_self⟩

theorem closeChildren_of_closed
    (h : ∀ c ∈ children, ∀ path s, ∃ s', close path c.2 s = ⟨c.2, s', .done⟩) (s : Session ω) :
    ∃ s', closeChildren close path children s = ⟨children, s', .done⟩ := by
  induction children generalizing s with
  | nil => exact ⟨s, rfl⟩
  | cons c rest ih =>
    obtain ⟨name, m⟩ := c
    obtain ⟨hm, hrest⟩ := List.forall_mem_cons.mp h
    obtain ⟨s₁, h₁⟩ := hm (path.child (name.getD m.kind)) s
    obtain ⟨s₂, h₂⟩ := ih hrest s₁
    refine ⟨s₂, ?_⟩
    rw [closeChildren]
    simp only [h₁, h₂]

theorem closeChildren_fails {closed rest : List (Option String × Module)} {name : Option String}
    {left : Module} (hclosed : ∀ c ∈ closed, ∀ path s, ∃ s', close path c.2 s = ⟨c.2, s', .done⟩)
    (hleft : ∀ path s, ∃ e, (close path left s).ending = .failed e) (s : Session ω) :
    ∃ e, (closeChildren close path (closed ++ (name, left) :: rest) s).ending = .failed e := by
  induction closed generalizing s with
  | nil =>
    obtain ⟨e, he⟩ := hleft (path.child (name.getD left.kind)) s
    refine ⟨e, ?_⟩
    rw [List.nil_append, closeChildren]
    simp only [he]
  | cons c closed ih =>
    obtain ⟨name', m⟩ := c
    obtain ⟨hm, hrest⟩ := List.forall_mem_cons.mp hclosed
    obtain ⟨s₁, h₁⟩ := hm (path.child (name'.getD m.kind)) s
    obtain ⟨e, he⟩ := ih hrest s₁
    refine ⟨e, ?_⟩
    rw [List.cons_append, closeChildren]
    simp only [h₁, he]

end

section

variable {ω : Type} {config : Config} {build : Builder ω} {depth : Nat} {root : Bool}
  {path : Path} {m : Module} {s : Session ω} {e : ElabError}

theorem Module.close_of_closed (hdepth : 0 < depth) (h : m.node.finalized = true) (path : Path)
    (s : Session ω) : ∃ s', m.close config build depth root path s = ⟨m, s', .done⟩ := by
  obtain ⟨depth, rfl⟩ : ∃ k, depth = k + 1 := ⟨depth - 1, by omega⟩
  exact ⟨_, Module.close_of_finalized h⟩

/-- What is left of a module whose children are closed and whose transforms are used up. -/
structure Module.Ready (depth : Nat) (kind : String) (m : Module) : Prop where
  standing : m.node.standing = (kind, false, none, [])
  children : ∀ c ∈ m.children, 0 < depth ∧ c.2.node.finalized = true

theorem Module.Ready.of_standing {kind : String} {m m' : Module} (h : m.Ready depth kind)
    (hstanding : m'.standing = m.standing) : m'.Ready depth kind := by
  rw [Module.standing, Module.standing, Prod.mk.injEq] at hstanding
  obtain ⟨hnode, hchildren⟩ := hstanding
  refine ⟨hnode.trans h.standing, fun c hc => ?_⟩
  have hflag : c.2.node.finalized ∈ m.children.map fun c => c.2.node.finalized := by
    rw [← hchildren]
    exact List.mem_map_of_mem hc
  obtain ⟨c', hc', heq⟩ := List.mem_map.mp hflag
  exact ⟨(h.children c' hc').1, heq ▸ (h.children c' hc').2⟩

/-- Closing a module without a deferred construction fails in a child, at a transform or over its
domains. -/
theorem Module.close_plain_failed (hhook : m.node.hook = none)
    (failed : (m.close config build (depth + 1) root path s).ending = .failed e) :
    m.node.finalized = false ∧
    ((∃ closed name c rest path' s', (name, c) ∈ m.children ∧
        (c.close config build depth false path' s').ending = .failed e ∧
        (∀ c ∈ closed, 0 < depth ∧ c.2.node.finalized = true) ∧
        (m.close config build (depth + 1) root path s).value =
          ⟨m.node, closed ++ (name, (c.close config build depth false path' s').value) :: rest⟩) ∨
      (m.close config build (depth + 1) root path s).value.Ready depth m.node.kind ∧
        ((∃ c, e = .construction c) ∨ ∃ t, ∃ s' : Session ω,
          (settleDomains config.domains root path t s').ending = .failed e ∧
          (m.close config build (depth + 1) root path s).value =
            (settleDomains config.domains root path t s').value)) := by
  cases hfin : m.node.finalized with
  | true =>
    rw [Module.close_of_finalized hfin] at failed
    cases failed
  | false =>
    refine ⟨rfl, ?_⟩
    rw [Module.close_of_plain hfin hhook] at failed ⊢
    have hready : (closeFrom (Module.close config build depth false) path 0 m
        (s.note (.finalizing path))).ending = .done →
        ((closeFrom (Module.close config build depth false) path 0 m
          (s.note (.finalizing path))).andThen (runTransforms path)).value.Ready depth
            m.node.kind := by
      intro hdone
      rw [Progress.andThen_of_done hdone]
      refine Module.Ready.of_standing ⟨?_, ?_⟩
        (Module.standing_of_outline (outline_applyTransforms _ _ _ _))
      · rw [closeFrom_zero]
        simp only [Node.standing, hfin, hhook]
      · rw [closeFrom_zero] at hdone ⊢
        intro c hc
        obtain ⟨_, -, -, _, _, hclosed, heq⟩ := exists_of_forall₂
          (closeChildren_eq_done hdone) c hc
        exact heq ▸ Module.closed_of_done hclosed
    rcases Progress.andThen_eq_failed.mp failed with failed | ⟨-, failed⟩
    · rw [Progress.andThen_of_failed failed]
      rcases Progress.andThen_eq_failed.mp failed with failed | ⟨hdone, failed⟩
      · rw [Progress.andThen_of_failed failed]
        rcases Progress.andThen_eq_failed.mp failed with failed | ⟨hdone, failed⟩
        · rw [Progress.andThen_of_failed failed]
          rw [closeFrom_zero] at failed ⊢
          obtain ⟨closed, name, c, rest, path', s', hvalue, hclosed, hfailed, hmem⟩ :=
            closeChildren_eq_failed failed
          refine .inl ⟨closed, name, c, rest, path', s', hmem, hfailed, fun c hc => ?_, ?_⟩
          · obtain ⟨_, _, _, hdone, heq⟩ := hclosed c hc
            exact heq ▸ Module.closed_of_done hdone
          · rw [← hvalue]
        · obtain ⟨c, rfl⟩ := applyTransforms_failed failed
          exact .inr ⟨hready hdone, .inl ⟨c, rfl⟩⟩
      · rw [Progress.andThen_of_done hdone]
        obtain ⟨hchildren, -⟩ := Progress.andThen_eq_done.mp hdone
        exact .inr ⟨(hready hchildren).of_standing
          (Module.standing_of_outline (outline_settleDomains _ _ _ _ _)),
          .inr ⟨_, _, failed, rfl⟩⟩
    · cases failed

/-- A module that could not be closed is still open. -/
theorem Module.open_of_failed (hhook : m.node.hook = none)
    (failed : (m.close config build depth root path s).ending = .failed e) :
    (m.close config build depth root path s).value.node.kind = m.node.kind ∧
      (m.close config build depth root path s).value.node.finalized = false ∧
      (m.close config build depth root path s).value.node.hook = none := by
  cases depth with
  | zero => cases failed
  | succ depth =>
    obtain ⟨hopen, ⟨_, _, _, _, _, _, -, -, -, hvalue⟩ | ⟨hready, -⟩⟩ :=
      Module.close_plain_failed hhook failed
    · rw [hvalue]
      exact ⟨rfl, hopen, hhook⟩
    · have hstanding := hready.standing
      simp only [Node.standing, Prod.mk.injEq] at hstanding
      exact ⟨hstanding.1, hstanding.2.1, hstanding.2.2.1⟩

theorem Module.close_fails_of_children (hopen : m.node.finalized = false)
    (hhook : m.node.hook = none)
    (h : (closeChildren (Module.close config build depth false) path m.children
      (s.note (.finalizing path))).ending = .failed e) :
    (m.close config build (depth + 1) root path s).ending = .failed e := by
  have hfrom : (closeFrom (Module.close config build depth false) path 0 m
      (s.note (.finalizing path))).ending = .failed e := by
    rw [closeFrom_zero]
    exact h
  rw [Module.close_of_plain hopen hhook, Progress.andThen_of_failed hfrom,
    Progress.andThen_of_failed hfrom, Progress.andThen_of_failed hfrom, hfrom]

/-- A module that is ready goes straight to its domains. -/
theorem Module.Ready.close_fails {kind : String} (h : m.Ready depth kind) {again : Nat}
    (hdepth : depth ≤ again)
    (failed : ∀ s : Session ω, ∃ e,
      (settleDomains config.domains root path m s).ending = .failed e) (s : Session ω) :
    ∃ e, (m.close config build (again + 1) root path s).ending = .failed e := by
  have hstanding := h.standing
  simp only [Node.standing, Prod.mk.injEq] at hstanding
  obtain ⟨-, hopen, hhook, htransforms⟩ := hstanding
  obtain ⟨s', hclosed⟩ : ∃ s', closeChildren (Module.close config build again false) path m.children
      (s.note (.finalizing path)) = ⟨m.children, s', .done⟩ :=
    closeChildren_of_closed (fun c hc => Module.close_of_closed
      ((h.children c hc).1.trans_le hdepth) (h.children c hc).2) _
  obtain ⟨e, he⟩ := failed s'
  have hsettled : ((((closeFrom (Module.close config build again false) path 0 m
      (s.note (.finalizing path))).andThen (runTransforms path)).andThen
      (settleDomains config.domains root path))).ending = .failed e := by
    rw [closeFrom_of_closed hclosed]
    simp only [Progress.andThen, runTransforms_of_none htransforms, he]
  refine ⟨e, ?_⟩
  rw [Module.close_of_plain hopen hhook, Progress.andThen_of_failed hsettled, hsettled]

/-- Closing what a failed close left behind fails again if the error is a lasting one. -/
theorem Module.close_fails_again (hooks : m.All fun n => n.hook = none)
    (failed : (m.close config build depth root path s).ending = .failed e)
    (lasting : e.Lasting (m.close config build depth root path s).value.pending)
    {again : Nat} (hdepth : depth ≤ again) {path' : Path} (hpath : root = true → path' = path)
    (s' : Session ω) :
    ∃ e', ((m.close config build depth root path s).value.close config build again root path'
      s').ending = .failed e' := by
  induction depth generalizing root path path' m s e again s' with
  | zero => cases failed
  | succ depth ih =>
    obtain ⟨again, rfl⟩ : ∃ k, again = k + 1 := ⟨again - 1, by omega⟩
    have hinner : depth ≤ again := by omega
    obtain ⟨hhook, hchildren⟩ := Module.all_iff.mp hooks
    obtain ⟨hopen, hcase⟩ := Module.close_plain_failed hhook failed
    rcases hcase with ⟨closed, name, c, rest, pathc, sc, hmem, hfailed, hclosed, hvalue⟩ |
      ⟨hready, ⟨_, rfl⟩ | ⟨t, st, hfailed, hvalue⟩⟩
    · -- the children before the failing one are closed and pass, so it is tried again
      have hc := hchildren _ hmem
      rw [hvalue, Module.pending_of_open (fun c hc => (hclosed c hc).2)
        (Module.open_of_failed (Module.all_iff.mp hc).1 hfailed).2.1] at lasting
      rw [hvalue]
      obtain ⟨e', he'⟩ : ∃ e', (closeChildren (Module.close config build again false) path'
          (closed ++ (name, (c.close config build depth false pathc sc).value) :: rest)
          (s'.note (.finalizing path'))).ending = .failed e' :=
        closeChildren_fails (fun c hc => Module.close_of_closed
          ((hclosed c hc).1.trans_le hinner) (hclosed c hc).2)
          (fun _ s => ih hc hfailed lasting hinner nofun s) _
      exact ⟨e', Module.close_fails_of_children hopen hhook he'⟩
    · exact lasting.elim
    · -- all children are closed and no transform is left, so closing is settling the domains
      rw [Module.pending_of_closed fun c hc => (hready.children c hc).2] at lasting
      refine hready.close_fails hinner (fun s => ?_) s'
      rw [hvalue] at lasting ⊢
      exact settleDomains_fails_again hfailed lasting hpath s

end

/-- A tree without deferred constructions that could not be finalized is left with an open root.
Finalizing it again fails too and leaves the root open, unless the error was a refused transform or
a clash between names that settling collisions had made. -/
theorem Module.finalize_fails_again {ω : Type} (config : Config) (build : Builder ω) (depth : Nat)
    (m : Module) (s : Session ω) (plain : ∀ x ∈ m.nodes, x.2.hook = none) {e : ElabError}
    (failed : (m.finalize config build depth s).ending = .failed e) :
    let left := (m.finalize config build depth s).value
    left.node.finalized = false ∧
      (e.Lasting left.pending → ∀ again, depth ≤ again → ∀ s' : Session ω,
        (∃ e', (left.finalize config build again s').ending = .failed e') ∧
          (left.finalize config build again s').value.node.finalized = false) := by
  intro left
  have hooks : m.All fun n => n.hook = none := Module.all_iff_nodes.mpr plain
  obtain ⟨hkind, hopen, hhook⟩ := Module.open_of_failed (Module.all_iff.mp hooks).1 failed
  refine ⟨hopen, fun lasting again hdepth s' => ?_⟩
  obtain ⟨e', he'⟩ := Module.close_fails_again hooks failed lasting hdepth
    (fun _ => congrArg Path.root hkind) s'
  exact ⟨⟨e', he'⟩, (Module.open_of_failed hhook he').2.1⟩

def declaring (id : Nat) (names : List String) : Module :=
  { node :=
      { kind := "Child"
        declared := names.zipIdx.map fun (name, i) => .fresh (id + 2 * i) name } }

/-- A board whose part declares the name that the contested `c` takes in its child `a`. -/
def shadowingTree : Module :=
  let part : Module :=
    { node := { kind := "Part", declared := [.fresh 4 "a_c"] }
      children := [(some "a", declaring 0 ["c"]), (some "b", declaring 2 ["c"])] }
  { node := { kind := "Board" }
    children := [(some "part", part), (some "late", declaring 6 ["c"])] }

theorem Module.finalize_fails_again_shadowed :
    (∀ x ∈ shadowingTree.nodes, x.2.hook = none) ∧
      (shadowingTree.finalize {} noHooks 3 ⟨8, [], ()⟩).ending =
        .failed (.naming (.shadowed ⟨["Board", "part"]⟩ "a" "a_c")) ∧
      (shadowingTree.finalize {} noHooks 3 ⟨8, [], ()⟩).value.node.finalized = false ∧
      ∃ e, ((shadowingTree.finalize {} noHooks 3 ⟨8, [], ()⟩).value.finalize {} noHooks 3
        ⟨8, [], ()⟩).ending = .failed e := by
  have plain : ∀ x ∈ shadowingTree.nodes, x.2.hook = none := by decide
  have failed : (shadowingTree.finalize {} noHooks 3 ⟨8, [], ()⟩).ending =
      .failed (.naming (.shadowed ⟨["Board", "part"]⟩ "a" "a_c")) := by cbv
  have lasting : (ElabError.naming (.shadowed ⟨["Board", "part"]⟩ "a" "a_c")).Lasting
      (shadowingTree.finalize {} noHooks 3 ⟨8, [], ()⟩).value.pending := by cbv
  obtain ⟨hopen, hagain⟩ :=
    Module.finalize_fails_again {} noHooks 3 shadowingTree ⟨8, [], ()⟩ plain failed
  exact ⟨plain, failed, hopen, (hagain lasting 3 le_rfl ⟨8, [], ()⟩).1⟩

/-- A root whose only transform gives two of its domains one name. -/
def refusedTree : Module :=
  { node :=
      { kind := "Top"
        declared := [.fresh 0 "m", .fresh 2 "n"]
        transforms := [.rename [("m", "n")]] } }

/-- A root whose child `a` surfaces the name that the contested `c` takes in its child `b`. -/
def crowdedTree : Module :=
  { node := { kind := "Top" }
    children := [(some "a", declaring 0 ["b_c"]), (some "b", declaring 2 ["c"]),
      (some "z", declaring 4 ["c"])] }

/-- The same root, which declares that name too. -/
def hiddenTree : Module :=
  { crowdedTree with node := { crowdedTree.node with declared := [.fresh 6 "b_c"] } }

/-- Some trees that cannot be finalized can be at the second attempt: after a refused transform,
after a clash of settled names and after a declared name that hid such a clash. -/
theorem Module.finalize_succeeds_again :
    ((∃ e, (refusedTree.finalize {} noHooks 1 ⟨4, [], ()⟩).ending = .failed (.construction e)) ∧
      ((refusedTree.finalize {} noHooks 1 ⟨4, [], ()⟩).value.finalize {} noHooks 1
        ⟨4, [], ()⟩).ending = .done) ∧
    ((crowdedTree.finalize {} noHooks 2 ⟨6, [], ()⟩).ending =
        .failed (.naming (.surfacedTwice ⟨["Top"]⟩ "b_c" "a" "b")) ∧
      ((crowdedTree.finalize {} noHooks 2 ⟨6, [], ()⟩).value.finalize {} noHooks 2
        ⟨6, [], ()⟩).ending = .done) ∧
    (hiddenTree.finalize {} noHooks 2 ⟨8, [], ()⟩).ending =
        .failed (.naming (.shadowed ⟨["Top"]⟩ "a" "b_c")) ∧
      ((hiddenTree.finalize {} noHooks 2 ⟨8, [], ()⟩).value.finalize {} noHooks 2
        ⟨8, [], ()⟩).ending = .done := by
  refine ⟨⟨⟨_, rfl⟩, ?_⟩, ⟨?_, ?_⟩, ?_, ?_⟩
  · cbv
  · cbv
  · cbv
  · cbv
  · cbv

end Gateware
