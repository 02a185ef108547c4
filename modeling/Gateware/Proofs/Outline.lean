import Gateware.Proofs.Domain.Resolved
import Gateware.Proofs.Stages

/-! # The outline of a tree

Transforms, renames and the resolution of domains change what the nodes of a tree hold. They keep
its outline: the names and kinds of all modules, which of them are closed, and the deferred
constructions and transforms that they still have.
-/
namespace Gateware

def Node.outline (n : Node) : Node :=
  { kind := n.kind, finalized := n.finalized, hook := n.hook, transforms := n.transforms }

namespace Module

mutual
def outline : Module → Module
  | ⟨node, children⟩ => ⟨node.outline, outlineAll children⟩

def outlineAll : List (Option String × Module) → List (Option String × Module)
  | [] => []
  | (name, m) :: rest => (name, m.outline) :: outlineAll rest
end

theorem outlineAll_eq_map (children : List (Option String × Module)) :
    outlineAll children = children.map fun c => (c.1, c.2.outline) :=
  map_of_cons rfl (fun _ _ => rfl) children

theorem outline_eq (m : Module) :
    m.outline = ⟨m.node.outline, m.children.map fun c => (c.1, c.2.outline)⟩ := by
  obtain ⟨node, children⟩ := m
  rw [outline, outlineAll_eq_map]

theorem outline_congr {m m' : Module} (hnode : m'.node.outline = m.node.outline)
    (hchildren : (m'.children.map fun c => (c.1, c.2.outline)) =
      m.children.map fun c => (c.1, c.2.outline)) : m'.outline = m.outline := by
  rw [outline_eq, outline_eq, hnode, hchildren]

section

variable {m m' : Module} (h : m'.outline = m.outline)

include h

theorem node_outline : m'.node.outline = m.node.outline := by
  rw [outline_eq m', outline_eq m] at h
  exact congrArg Module.node h

theorem children_outline : (m'.children.map fun c => (c.1, c.2.outline)) =
    m.children.map fun c => (c.1, c.2.outline) := by
  rw [outline_eq m', outline_eq m] at h
  exact congrArg Module.children h

theorem finalized_of_outline : m'.node.finalized = m.node.finalized := by
  have hfinalized := congrArg Node.finalized (node_outline h)
  exact hfinalized

end

/-! ## Renames -/

theorem outline_renameDomain (m : Module) (old new : String) :
    (m.renameDomain old new).outline = m.outline := by
  induction m with
  | step node children ih =>
    refine outline_congr rfl ?_
    rw [renameDomain, renameDomainAll_eq_map, List.map_map]
    exact List.map_congr_left fun c hc => congrArg (Prod.mk c.1) (ih c hc)

theorem outline_renameAll (m : Module) (steps : List (String × String)) :
    (m.renameAll steps).outline = m.outline := by
  induction steps generalizing m with
  | nil => rfl
  | cons step rest ih => exact (ih _).trans (outline_renameDomain m _ _)

theorem outline_settledBy (m : Module) (groups : List (String × List Contribution)) :
    (m.settledBy groups).outline = m.outline := by
  refine outline_congr rfl (List.ext_getElem? fun i => ?_)
  rw [settledBy, renamedBy]
  simp only [List.getElem?_map, List.getElem?_mapIdx, Option.map_map]
  congr 1
  funext c
  exact congrArg (Prod.mk c.1) (outline_renameAll c.2 _)

theorem outline_resolve (m : Module) (path : Path) :
    (m.resolve path).module.outline = m.outline := by
  rcases resolve_cases path m with ⟨-, _, -, hmodule, -⟩ | ⟨_, -, hmodule, -⟩ |
    ⟨_, _, _, _, _, -, -, hmodule, -⟩
  · rw [hmodule]
    exact (outline_congr rfl rfl).trans (outline_settledBy m _)
  · rw [hmodule]
    exact outline_settledBy m _
  · rw [hmodule]
    exact outline_settledBy m _

/-! ## Transforms -/

theorem outline_insertControl (domain : String)
    (statement : List Signal → Except ConstructionError (Option Statement)) (m : Module) :
    (m.insertControl domain statement).1.outline = m.outline := by
  have hnode : ∀ n n' : Node, n.insertControl domain statement = .ok n' →
      n'.outline = n.outline := by
    intro n n' h
    obtain ⟨inserted, -, h⟩ := bind_eq_ok.mp h
    cases inserted with
    | none =>
      cases h
      rfl
    | some s =>
      cases h
      rfl
  have hall : ∀ children : List (Option String × Module),
      (∀ c ∈ children, (c.2.insertControl domain statement).1.outline = c.2.outline) →
      ((insertControlAll domain statement children).1.map fun c => (c.1, c.2.outline)) =
        children.map fun c => (c.1, c.2.outline) := by
    intro children h
    induction children with
    | nil => rfl
    | cons c rest ih =>
      obtain ⟨name, m⟩ := c
      obtain ⟨hm, hrest⟩ := List.forall_mem_cons.mp h
      have hhead := congrArg (Prod.mk name) hm
      rw [insertControlAll]
      split
      · rename_i heq
        rw [heq] at hhead
        exact congrArg₂ List.cons hhead rfl
      · rename_i heq
        rw [heq] at hhead
        exact congrArg₂ List.cons hhead (ih hrest)
  induction m with
  | step node children ih =>
    rw [insertControl]
    split
    · rfl
    · rename_i node' hinsert
      exact outline_congr (hnode _ _ hinsert) (hall children ih)

theorem outline_renamePairs (m : Module) (pairs : List (String × String)) :
    (m.renamePairs pairs).1.outline = m.outline := by
  induction pairs generalizing m with
  | nil => rfl
  | cons pair rest ih =>
    obtain ⟨old, new⟩ := pair
    rw [renamePairs]
    split
    · exact ih m
    · split
      · rfl
      · exact (ih _).trans (outline_renameDomain m old new)

theorem outline_apply (t : Transform) (m : Module) : (t.apply m).1.outline = m.outline := by
  unfold Transform.apply
  split
  · rfl
  · cases t with
    | rename pairs => exact outline_renamePairs m pairs
    | insertReset domain control => exact outline_insertControl domain _ m
    | insertEnable domain control => exact outline_insertControl domain _ m

theorem outline_checkUses (createSync : Bool) (path : Path) (m : Module) (next : Nat) :
    (m.checkUses createSync path next).module.outline = m.outline := by
  unfold checkUses
  split
  · unfold declareSync
    split
    · rfl
    · rename_i node hdeclare
      obtain ⟨-, rfl⟩ := Node.addDomain_eq_ok hdeclare
      have hdeclared : (Module.mk { m.node with
          declared := m.node.declared ++ [.fresh next ClockDomain.default] } m.children).outline =
          m.outline := outline_congr rfl rfl
      have hresolve := (outline_resolve _ path).trans hdeclared
      dsimp only
      split
      · exact hresolve
      · exact hresolve
  · rfl

end Module

/-! ## Stages -/

section

variable {ω : Type}

theorem outline_applyTransforms (path : Path) (transforms : List Transform) (m : Module)
    (s : Session ω) : (applyTransforms path transforms m s).value.outline = m.outline := by
  induction transforms generalizing m s with
  | nil => rfl
  | cons t rest ih =>
    have hone := Module.outline_apply t m
    rw [applyTransforms]
    split
    · rename_i heq
      rwa [heq] at hone
    · rename_i heq
      rw [heq] at hone
      exact (ih _ _).trans hone

theorem outline_settleDomains (config : DomainConfig) (root : Bool) (path : Path) (m : Module)
    (s : Session ω) : (settleDomains config root path m s).value.outline = m.outline := by
  have hmemory : (m.withMemoryDomain config.defaultMemoryDomain).outline = m.outline :=
    Module.outline_congr rfl rfl
  have hresolve :=
    (Module.outline_resolve (m.withMemoryDomain config.defaultMemoryDomain) path).trans hmemory
  cases hresult : ((m.withMemoryDomain config.defaultMemoryDomain).resolve path).result with
  | error e => rw [(settleDomains_of_error hresult).1, hresolve]
  | ok _ =>
    cases root with
    | false => rw [(settleDomains_of_ok hresult).1, hresolve]
    | true => rw [(settleDomains_root_of_ok hresult).1, Module.outline_checkUses, hresolve]

end

end Gateware
