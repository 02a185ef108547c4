import Gateware.Proofs.Bits
import Gateware.Proofs.Domain.Surface

/-! # Modules that are resolved

A successful resolution leaves a module that has resolved what it declares and what its children
surface, all under different names. Resolving it once more changes nothing, and a `sync` that its
root gets afterwards is only added.
-/
namespace Gateware

section

variable {path : Path} {m : Module}

theorem Module.resolve_node (m : Module) (path : Path) :
    ∃ resolved, (m.resolve path).module.node = { m.node with resolved } := by
  rcases Module.resolve_cases path m with ⟨-, resolved, -, hmodule, -⟩ | ⟨_, -, hmodule, -⟩ |
    ⟨_, _, _, _, _, -, -, hmodule, -⟩
  · exact ⟨resolved, by rw [hmodule]⟩
  · exact ⟨m.node.resolved, by rw [hmodule]; rfl⟩
  · exact ⟨m.node.resolved, by rw [hmodule]; rfl⟩

/-- The module has resolved exactly what it declares and its children surface, under different
names. -/
structure Module.Resolved (m : Module) : Prop where
  resolved : m.node.resolved = m.node.declared ++ m.contributions.map Contribution.domain
  declared : ∀ c ∈ m.contributions, c.domain.name ∉ m.node.declared.map ClockDomain.name
  nodup : (m.contributions.map fun c => c.domain.name).Nodup

theorem Module.resolved_of_ok (h : (m.resolve path).result = .ok ()) :
    (m.resolve path).module.Resolved := by
  obtain ⟨-, -, hnode, hdeclared, hnodup⟩ := Module.resolve_eq_ok h
  refine ⟨?_, ?_, hnodup⟩
  · rw [hnode]
  · rw [hnode]
    exact hdeclared

theorem collisions_of_nodup {cs : List Contribution}
    (h : (cs.map fun c => c.domain.name).Nodup) : collisions cs = [] := by
  refine List.eq_nil_iff_forall_not_mem.mpr ?_
  rintro ⟨domain, group⟩ hg
  obtain ⟨rfl, hlength⟩ := mem_collisions.mp hg
  have hsame : (cs.filter fun c => c.domain.name == domain).map (fun c => c.domain.name) =
      List.replicate (cs.filter fun c => c.domain.name == domain).length domain :=
    List.map_eq_replicate_iff.mpr fun c hc => by simpa using (List.mem_filter.mp hc).2
  have hnodup := h.sublist ((List.filter_sublist (p := fun c : Contribution =>
    c.domain.name == domain)).map fun c => c.domain.name)
  rw [hsame, List.nodup_replicate] at hnodup
  omega

/-- Where all names differ, there is nothing to rename and nothing to refuse. -/
theorem Module.resolve_of_nodup (path : Path)
    (hdeclared : ∀ c ∈ m.contributions, c.domain.name ∉ m.node.declared.map ClockDomain.name)
    (hnodup : (m.contributions.map fun c => c.domain.name).Nodup) :
    m.resolve path = ⟨{ m with node := { m.node with
      resolved := m.node.declared ++ m.contributions.map Contribution.domain } }, [], .ok ()⟩ := by
  have hcollect := collectSurfaced_of_nodup path [] hdeclared (by simpa using hnodup)
  rw [List.nil_append] at hcollect
  rw [Module.resolve, collisions_of_nodup hnodup]
  simp only [settleCollisions, hcollect]

theorem Module.Resolved.resolve (h : m.Resolved) (path : Path) :
    (m.resolve path).module = m ∧ (m.resolve path).result = .ok () := by
  rw [Module.resolve_of_nodup path h.declared h.nodup, ← h.resolved]
  obtain ⟨node, children⟩ := m
  exact ⟨rfl, rfl⟩

end

theorem Node.addDomain_eq_ok {n n' : Node} {domain : ClockDomain}
    (h : n.addDomain domain = .ok n') :
    (∀ d ∈ n.declared, d.name ≠ domain.name) ∧
      n' = { n with declared := n.declared ++ [domain] } := by
  obtain ⟨_, -, h⟩ := bind_eq_ok.mp h
  dsimp only at h
  split at h
  · cases h
  · split at h
    · cases h
    · rename_i hfresh
      cases h
      exact ⟨by simpa using hfresh, rfl⟩

theorem Node.addDomain_of_fresh {n : Node} {domain : ClockDomain} (hopen : n.finalized = false)
    (hcomb : domain.name ≠ combDomain) (hfresh : ∀ d ∈ n.declared, d.name ≠ domain.name) :
    n.addDomain domain = .ok { n with declared := n.declared ++ [domain] } := by
  have hany : (n.declared.any fun d => d.name == domain.name) = false := by
    simpa using hfresh
  simp only [Node.addDomain, Node.checkOpen, hopen, if_neg hcomb, hany]
  rfl

theorem Node.nodup_addDomain {n n' : Node} {domain : ClockDomain}
    (h : n.addDomain domain = .ok n') (hn : (n.declared.map ClockDomain.name).Nodup) :
    (n'.declared.map ClockDomain.name).Nodup := by
  obtain ⟨hfresh, rfl⟩ := Node.addDomain_eq_ok h
  have hnew : domain.name ∉ n.declared.map ClockDomain.name := by
    intro hmem
    obtain ⟨d, hd, hname⟩ := List.mem_map.mp hmem
    exact hfresh d hd hname
  rw [List.map_append, List.map_singleton, ← List.concat_eq_append]
  exact hn.concat hnew

section

variable {path : Path} {m : Module} {next : Nat} {createSync : Bool}

theorem Module.eq_mk {node : Node} {children : List (Option String × Module)}
    (hnode : m.node = node) (hchildren : m.children = children) : m = ⟨node, children⟩ := by
  obtain ⟨n, cs⟩ := m
  exact congrArg₂ Module.mk hnode hchildren

/-- Where a missing `sync` could be declared, nothing else about the module changed. -/
theorem Module.declareSync_eq_ok (hm : m.Resolved)
    (h : (m.declareSync path next).result = .ok ()) :
    (m.declareSync path next).module.Resolved ∧ ∃ added resolved,
      ((m.node.declared.map ClockDomain.name).Nodup →
        ((m.node.declared ++ added).map ClockDomain.name).Nodup) ∧
      (m.declareSync path next).module = ⟨{ m.node with
        declared := m.node.declared ++ added, resolved }, m.children⟩ := by
  unfold Module.declareSync at h ⊢
  split at h
  · cases h
  · rename_i node hnode
    have hnodup := Node.nodup_addDomain hnode
    obtain ⟨-, rfl⟩ := Node.addDomain_eq_ok hnode
    dsimp only at h ⊢
    split at h
    · cases h
    · rename_i hok
      obtain ⟨-, hchildren, hresolved, -⟩ := Module.resolve_eq_ok hok
      have hnone : collisions (contributionsFrom 0 m.children) = [] := collisions_of_nodup hm.nodup
      rw [Module.contributions, hnone, renamedBy_nil] at hchildren
      exact ⟨Module.resolved_of_ok hok, _, _, hnodup, Module.eq_mk hresolved hchildren⟩

/-- A root that passes the check of uses may have got a `sync`. -/
theorem Module.checkUses_eq_ok (hm : m.Resolved)
    (h : (m.checkUses createSync path next).result = .ok ()) :
    (m.checkUses createSync path next).module.Resolved ∧ ∃ added resolved,
      ((m.node.declared.map ClockDomain.name).Nodup →
        ((m.node.declared ++ added).map ClockDomain.name).Nodup) ∧
      (m.checkUses createSync path next).module = ⟨{ m.node with
        declared := m.node.declared ++ added, resolved }, m.children⟩ := by
  unfold Module.checkUses at h ⊢
  split at h
  · rename_i hmissing
    rw [if_pos hmissing]
    exact Module.declareSync_eq_ok hm h
  · rename_i hmissing
    rw [if_neg hmissing]
    refine ⟨hm, [], m.node.resolved, fun hnodup => by rwa [List.append_nil], ?_⟩
    obtain ⟨node, children⟩ := m
    rw [List.append_nil]

end

/-! ## What a resolved module surfaces -/

theorem contributionsFrom_domains (position : Nat) (children : List (Option String × Module)) :
    (contributionsFrom position children).map Contribution.domain =
      children.flatMap fun c => c.2.surfaced := by
  induction children generalizing position with
  | nil => rfl
  | cons c rest ih =>
    rw [contributionsFrom, List.map_append, ih, List.map_map, List.flatMap_cons]
    exact congrArg (· ++ _) (List.map_id _)

/-- The domains that a node declares for the modules around it. -/
def Node.surfacing (n : Node) : List ClockDomain := n.declared.filter fun d => !d.isLocal

namespace Module.Resolved

variable {m : Module} (h : m.Resolved)

include h

theorem surfacing_sublist : m.node.surfacing.Sublist m.surfaced := by
  rw [surfaced, h.resolved, List.filter_append]
  exact List.sublist_append_left _ _

theorem child_sublist {c : Option String × Module} (hc : c ∈ m.children) :
    c.2.surfaced.Sublist m.surfaced := by
  have hsame : c.2.surfaced.filter (fun d => !d.isLocal) = c.2.surfaced :=
    List.filter_eq_self.mpr fun d hd => (List.mem_filter.mp hd).2
  have hmem : c.2.surfaced.Sublist (m.contributions.map Contribution.domain) := by
    rw [contributions, contributionsFrom_domains, List.flatMap_def]
    exact List.sublist_flatten_of_mem (List.mem_map_of_mem hc)
  calc c.2.surfaced
    _ = c.2.surfaced.filter fun d => !d.isLocal := hsame.symm
    List.Sublist _ ((m.contributions.map Contribution.domain).filter fun d => !d.isLocal) :=
      hmem.filter _
    List.Sublist _ m.surfaced := by
      rw [surfaced, h.resolved, List.filter_append]
      exact List.sublist_append_right _ _

/-- All names that a resolved module surfaces are different if those it declares are. -/
theorem nodup_surfaced (hdeclared : (m.node.declared.map ClockDomain.name).Nodup) :
    (m.surfaced.map ClockDomain.name).Nodup := by
  refine List.Nodup.sublist (List.filter_sublist.map _) ?_
  rw [h.resolved, List.map_append, List.map_map]
  refine List.nodup_append.mpr ⟨hdeclared, h.nodup, ?_⟩
  rintro x hx y hy rfl
  obtain ⟨c, hc, rfl⟩ := List.mem_map.mp hy
  exact h.declared c hc hx

end Module.Resolved

end Gateware
