import Gateware.Proofs.Domain.Resolved
import Gateware.Proofs.Domain.Usage

/-! # A missing `sync` is declared without conflict

The root is resolved when its uses are checked. A module below it that misses `sync` says that the
root has no domain of that name either, declared or surfaced. So an open root can declare one, and
resolving it again finds nothing to rename: the new domain comes after those that the root declares
and before those that its children surface, and the whole tree sees it.
-/
namespace Gateware

namespace Module

variable {m : Module} {path : Path}

/-! ## Visible from the root -/

/-- Every place of a tree has the root and all that is above the root in sight. -/
theorem mem_above {above : List Node} {p : Place} (hp : p ∈ m.places above path) {n : Node}
    (hn : n ∈ m.node :: above) : n ∈ p.node :: p.above := by
  induction m generalizing above path with
  | step node children ih =>
    rw [places, placesAll_eq] at hp
    rcases List.mem_cons.mp hp with rfl | hp
    · exact hn
    · obtain ⟨c, hc, hp⟩ := List.mem_flatMap.mp hp
      exact ih c hc hp (List.mem_cons_of_mem _ hn)

theorem sees_of_root {p : Place} (hp : p ∈ m.places [] path) {d : ClockDomain}
    (hd : d ∈ m.node.resolved) : p.sees d.name = true := by
  refine List.any_eq_true.mpr ⟨m.node, mem_above hp List.mem_cons_self, ?_⟩
  exact List.any_eq_true.mpr ⟨d, hd, beq_self_eq_true d.name⟩

/-- A use that is not seen is one that the check lists. -/
theorem mem_undeclared {user : Path} {domain : String} :
    (user, domain) ∈ m.undeclared [] path ↔ ∃ p ∈ m.places [] path, p.path = user ∧
      p.node.Uses domain ∧ domain ≠ combDomain ∧ p.sees domain = false := by
  rw [undeclared_root, List.mem_flatMap]
  refine exists_congr fun p => and_congr_right fun _ => ?_
  simp only [Place.unseen, List.mem_map, List.mem_filter, Node.mem_usedDomains, Prod.mk.injEq,
    Bool.not_eq_true']
  constructor
  · rintro ⟨d, ⟨⟨huses, hcomb⟩, hsees⟩, rfl, rfl⟩
    exact ⟨rfl, huses, hcomb, hsees⟩
  · rintro ⟨rfl, huses, hcomb, hsees⟩
    exact ⟨domain, ⟨⟨huses, hcomb⟩, hsees⟩, rfl, rfl⟩

/-- Some node uses `sync` and does not see it. -/
def MissesSync (m : Module) (path : Path) : Prop :=
  ∃ p ∈ m.places [] path, p.node.Uses ClockDomain.default ∧ p.sees ClockDomain.default = false

theorem missesSync_iff : m.MissesSync path ↔
    ((m.undeclared [] path).any fun (_, d) => d == ClockDomain.default) = true := by
  have hcomb : ClockDomain.default ≠ combDomain := by decide
  rw [List.any_eq_true]
  constructor
  · rintro ⟨p, hp, huses, hsees⟩
    exact ⟨_, mem_undeclared.mpr ⟨p, hp, rfl, huses, hcomb, hsees⟩, beq_self_eq_true _⟩
  · rintro ⟨⟨user, d⟩, hmem, hd⟩
    obtain ⟨p, hp, -, huses, -, hsees⟩ := mem_undeclared.mp hmem
    rw [eq_of_beq hd] at huses hsees
    exact ⟨p, hp, huses, hsees⟩

theorem checkUses_of_misses (h : m.MissesSync path) (next : Nat) :
    m.checkUses true path next = m.declareSync path next := by
  rw [checkUses, missesSync_iff.mp h]
  rfl

/-! ## Declaring it -/

def gain (m : Module) (domain : ClockDomain) : Module :=
  { m with node := { m.node with
      declared := m.node.declared ++ [domain]
      resolved := m.node.declared ++ domain :: m.contributions.map Contribution.domain } }

/-- A root that misses `sync` has no domain of the name. -/
theorem MissesSync.fresh (h : m.MissesSync path) {d : ClockDomain} (hd : d ∈ m.node.resolved) :
    d.name ≠ ClockDomain.default := by
  obtain ⟨p, hp, -, hsees⟩ := h
  intro hname
  rw [← hname, sees_of_root hp hd] at hsees
  cases hsees

/-- An open root that misses `sync` takes it, and nothing below has to be renamed. -/
theorem Resolved.gains (hm : m.Resolved) (hopen : m.node.finalized = false)
    (hmisses : m.MissesSync path) (next : Nat) :
    m.node.addDomain (.fresh next ClockDomain.default) =
        .ok { m.node with declared := m.node.declared ++ [.fresh next ClockDomain.default] } ∧
      Module.resolve path { m with node := { m.node with
          declared := m.node.declared ++ [.fresh next ClockDomain.default] } } =
        ⟨m.gain (.fresh next ClockDomain.default), [], .ok ()⟩ := by
  have hname : (ClockDomain.fresh next ClockDomain.default).name = ClockDomain.default := rfl
  have hcomb : ClockDomain.default ≠ combDomain := by decide
  have hown : ∀ d ∈ m.node.declared, d.name ≠ ClockDomain.default := by
    intro d hd
    refine hmisses.fresh ?_
    rw [hm.resolved]
    exact List.mem_append_left _ hd
  have hsurfaced : ∀ c ∈ m.contributions, c.domain.name ≠ ClockDomain.default := by
    intro c hc
    refine hmisses.fresh ?_
    rw [hm.resolved]
    exact List.mem_append_right _ (List.mem_map_of_mem hc)
  refine ⟨Node.addDomain_of_fresh hopen hcomb hown, ?_⟩
  -- The children stay, and with them what they surface.
  refine (resolve_of_nodup path (fun c hc => ?_) ?_).trans ?_
  · rw [List.map_append, List.mem_append, List.map_singleton, List.mem_singleton, hname]
    exact not_or.mpr ⟨hm.declared c hc, hsurfaced c hc⟩
  · exact hm.nodup
  · rw [gain, List.append_assoc]
    rfl

theorem gain_sees {domain : ClockDomain} {p : Place} (hp : p ∈ (m.gain domain).places [] path) :
    p.sees domain.name = true :=
  sees_of_root hp (List.mem_append_right _ List.mem_cons_self)

/-! ## What the check reports -/

/-- Where `sync` may be declared, the check never finds it missing. -/
theorem checkUses_never_misses (path user : Path) (next : Nat) :
    (m.checkUses true path next).result ≠
      .error (.finalization (.undefinedDomain user ClockDomain.default)) := by
  intro h
  by_cases hmisses : m.MissesSync path
  · rw [checkUses_of_misses hmisses] at h
    unfold declareSync at h
    split at h
    · cases h
    · rename_i node hnode
      obtain ⟨-, rfl⟩ := Node.addDomain_eq_ok hnode
      dsimp only at h
      split at h
      · cases h
      · rename_i hok
        -- The root has resolved what it declares.
        obtain ⟨-, -, hresolved, -⟩ := resolve_eq_ok hok
        obtain ⟨_, p, _, _, domain, _, herror, hplaces, -, -, -, hsees⟩ := checkVisible_eq_error h
        cases herror
        have hp := hplaces ▸ List.mem_append_right _ List.mem_cons_self
        have hroot := sees_of_root (d := .fresh next ClockDomain.default) hp (by
          rw [hresolved]
          exact List.mem_append_left _ (List.mem_append_right _ (List.mem_singleton_self _)))
        rw [show (ClockDomain.fresh next ClockDomain.default).name = ClockDomain.default from rfl,
          hsees] at hroot
        cases hroot
  · rw [checkUses, Bool.true_and, if_neg (mt missesSync_iff.mpr hmisses)] at h
    obtain ⟨_, p, _, _, domain, _, herror, hplaces, -, hused, -, hsees⟩ := checkVisible_eq_error h
    cases herror
    refine hmisses ⟨p, hplaces ▸ List.mem_append_right _ List.mem_cons_self, ?_, hsees⟩
    exact (Node.mem_usedDomains.mp (hused ▸ List.mem_append_right _ List.mem_cons_self)).1

end Module

/-- If closing from the root ends with `sync` missing where it may be declared, a call has reported
that. -/
theorem Closing.reports_missing {ω : Type} {config : Config} {build : Builder ω} {user : Path}
    {c : Closing ω} (hcreate : config.domains.createSync = true) (hroot : c.root = true)
    (failed : (c.run config build).ending =
      .failed (.finalization (.undefinedDomain user ClockDomain.default))) :
    c.Reports config build (.finalization (.undefinedDomain user ClockDomain.default)) := by
  have hlive := Closing.live_of_failed failed
  by_contra hcalls
  have hbefore := mt (Closing.root_failed hlive) (not_or.mpr ⟨hcalls, nofun⟩)
  rw [Closing.run_of_live hlive] at failed
  generalize (c.grown config build).andThen (runTransforms c.path) = p at failed hbefore
  have hsettled := (Progress.andThen_eq_failed.mp failed).resolve_right fun h => nomatch h.2
  obtain ⟨-, hfailed⟩ := (Progress.andThen_eq_failed.mp hsettled).resolve_left hbefore
  rw [hroot] at hfailed
  cases hresolve : ((p.value.withMemoryDomain
      config.domains.defaultMemoryDomain).resolve c.path).result with
  | error e =>
    rw [(settleDomains_of_error hresolve).2] at hfailed
    cases hfailed
  | ok _ =>
    rw [(settleDomains_root_of_ok hresolve).2, hcreate] at hfailed
    exact Module.checkUses_never_misses c.path user _ (Ending.ofResult_eq_failed.mp hfailed)

/-- If a node below an open root that was resolved uses `sync` and does not see it, the root can
declare it and be resolved again. That renames nothing and changes no child; the new domain comes
between those that the root declares and those that are surfaced, and every node sees it. So closing
a tree where `sync` may be declared reports it as missing only if a call of a deferred construction
reported that during this run. -/
theorem Module.sync_declared_without_conflict :
    (∀ (start : Module) (path : Path), (start.resolve path).result = .ok () →
      start.node.finalized = false → (start.resolve path).module.MissesSync path → ∀ next,
        let m := (start.resolve path).module
        let sync := ClockDomain.fresh next ClockDomain.default
        let declared := { m.node with declared := m.node.declared ++ [sync] }
        ∃ surfaced m', m.node.resolved = m.node.declared ++ surfaced ∧
          m.node.addDomain sync = .ok declared ∧
          Module.resolve path { m with node := declared } = ⟨m', [], .ok ()⟩ ∧
          m'.children = m.children ∧
          m'.node = { declared with resolved := m.node.declared ++ sync :: surfaced } ∧
          m.checkUses true path next =
            ⟨m', next + 2, [.syncDeclared path], m'.checkVisible path⟩ ∧
          ∀ p ∈ m'.places [] path, p.sees ClockDomain.default = true) ∧
    ∀ {ω : Type} (config : Config) (build : Builder ω) (depth : Nat) (m : Module) (s : Session ω)
      (user : Path), config.domains.createSync = true →
      (m.finalize config build depth s).ending =
        .failed (.finalization (.undefinedDomain user ClockDomain.default)) →
      (m.closing depth s).Reports config build
        (.finalization (.undefinedDomain user ClockDomain.default)) := by
  constructor
  · intro start path hok hopen hmisses next m sync declared
    have hm : m.Resolved := Module.resolved_of_ok hok
    have hstill : m.node.finalized = false := by
      obtain ⟨resolved, hnode⟩ := Module.resolve_node start path
      rw [show m.node = { start.node with resolved } from hnode]
      exact hopen
    obtain ⟨hadd, hresolve⟩ := hm.gains hstill hmisses next
    refine ⟨_, m.gain sync, hm.resolved, hadd, hresolve, rfl, rfl, ?_, fun p hp => ?_⟩
    · rw [Module.checkUses_of_misses hmisses, Module.declareSync, hadd]
      dsimp only
      rw [hresolve]
    · exact Module.gain_sees hp
  · intro ω config build depth m s user hcreate failed
    exact Closing.reports_missing hcreate rfl failed

def counterNode : Node :=
  let count := Value.signal (.named 10 "count" 4)
  { kind := "Counter", blocks := [("sync", [.assign count count])] }

/-- Two children that surface one name, and a register below the second. -/
def countingTree : Module :=
  let lane (id : Nat) (below : List (Option String × Module)) : Module :=
    ⟨{ kind := "Lane", declared := [.fresh id "aux"], resolved := [.fresh id "aux"] }, below⟩
  ⟨{ kind := "Top", declared := [.fresh 0 "pix"] },
    [(some "a", lane 2 []), (some "b", lane 4 [(none, ⟨counterNode, []⟩)])]⟩

/-- A deferred construction that fails for want of a domain elsewhere. -/
def missElsewhere : Builder Unit := fun _ m next world =>
  ⟨m, next, world, .error (.finalization (.undefinedDomain (.root "Other") "sync"))⟩

theorem Module.sync_declared_without_conflict_counting :
    let path := Path.root "Top"
    let m := (countingTree.resolve path).module
    let root : Module := ⟨{ counterNode with hook := some 0 }, []⟩
    let missing := ElabError.finalization (.undefinedDomain (.root "Other") "sync")
    (m.MissesSync path ∧ m.node.resolved.map ClockDomain.name = ["pix", "a_aux", "b_aux"] ∧
      ∃ m', m.checkUses true path 20 = ⟨m', 22, [.syncDeclared path], .ok ()⟩ ∧
        m'.children = m.children ∧
        m'.node.resolved.map ClockDomain.name = ["pix", "sync", "a_aux", "b_aux"] ∧
        ∀ p ∈ m'.places [] path, p.sees "sync" = true) ∧
    (root.finalize {} missElsewhere 1 ⟨20, [], ()⟩).ending = .failed missing ∧
      (root.closing 1 ⟨20, [], ()⟩).Reports {} missElsewhere missing := by
  intro path m root missing
  have hok : (countingTree.resolve path).result = .ok () := by cbv
  have hmisses : m.MissesSync path := Module.missesSync_iff.mpr (by cbv)
  obtain ⟨surfaced, m', hresolved, -, -, hchildren, hnode, hcheck, hsees⟩ :=
    Module.sync_declared_without_conflict.1 countingTree path hok rfl hmisses 20
  have hnames : m.node.resolved.map ClockDomain.name = ["pix", "a_aux", "b_aux"] := by cbv
  have hdeclared : m.node.declared = [.fresh 0 "pix"] := rfl
  have hresult : (m.checkUses true path 20).result = .ok () := by cbv
  rw [hcheck] at hresult
  have hfailed : (root.finalize {} missElsewhere 1 ⟨20, [], ()⟩).ending = .failed missing := by cbv
  refine ⟨⟨hmisses, hnames, m', ?_, hchildren, ?_, hsees⟩, hfailed,
    Module.sync_declared_without_conflict.2 {} missElsewhere 1 root _ _ rfl hfailed⟩
  · rw [hcheck, show m'.checkVisible path = .ok () from hresult]
  · rw [hresolved, hdeclared] at hnames
    rw [hnode, hdeclared]
    simpa [ClockDomain.fresh, ClockDomain.default] using hnames

def closeItself : Builder Unit := fun _ m next world =>
  ⟨{ m with node := m.node.markFinalized }, next, world, .ok ()⟩

/-- A root that its own construction has closed is resolved but declares nothing more; and what a
construction reports is passed on. -/
theorem Module.sync_refused_by_closed_root :
    let path := Path.root "Counter"
    let root : Module := ⟨{ counterNode with hook := some 0 }, []⟩
    let closed : Module := ⟨{ counterNode with finalized := true }, []⟩
    ({} : Config).domains.createSync = true ∧
      ((closed.resolve path).result = .ok () ∧ (closed.resolve path).module.MissesSync path ∧
        (closed.resolve path).module.node.addDomain (.fresh 20 "sync") =
          .error (.closed "Counter")) ∧
      (root.finalize {} closeItself 1 ⟨20, [], ()⟩).ending =
        .failed (.construction (.closed "Counter")) ∧
      (root.finalize {} missElsewhere 1 ⟨20, [], ()⟩).ending =
        .failed (.finalization (.undefinedDomain (.root "Other") "sync")) := by
  refine ⟨rfl, ⟨by cbv, Module.missesSync_iff.mpr (by cbv), by cbv⟩, by cbv, by cbv⟩

end Gateware
