import Gateware.Module.Basic
import Mathlib

/-! # Properties of all nodes of a tree

A property of every node, said by recursion on the tree, is one of every node that the walk over
the tree meets.
-/

namespace Gateware.Module

/-- A property of all trees follows if a tree has it whenever its children do. -/
@[induction_eliminator]
theorem byChildren {motive : Module → Prop}
    (step : ∀ node children, (∀ c ∈ children, motive c.2) → motive ⟨node, children⟩) :
    ∀ m, motive m := by
  refine @Module.rec motive (fun children => ∀ c ∈ children, motive c.2) (fun c => motive c.2) step
    ?_ ?_ ?_
  · simp
  · intro c rest hc hrest
    exact List.forall_mem_cons.mpr ⟨hc, hrest⟩
  · exact fun _ _ h => h

mutual
def All (P : Node → Prop) : Module → Prop
  | ⟨node, children⟩ => P node ∧ AllIn P children

def AllIn (P : Node → Prop) : List (Option String × Module) → Prop
  | [] => True
  | (_, m) :: rest => m.All P ∧ AllIn P rest
end

variable {P : Node → Prop} {m : Module} {children : List (Option String × Module)}

theorem allIn_iff : AllIn P children ↔ ∀ c ∈ children, c.2.All P := by
  induction children with
  | nil => simp [AllIn]
  | cons c rest ih =>
    obtain ⟨name, m⟩ := c
    simp [AllIn, ih]

theorem all_iff : m.All P ↔ P m.node ∧ ∀ c ∈ m.children, c.2.All P := by
  obtain ⟨node, children⟩ := m
  rw [All, allIn_iff]

theorem walkAll_eq (path : Path) (children : List (Option String × Module)) :
    walkAll path children = children.flatMap fun c => c.2.walk (path.child (component c)) := by
  induction children with
  | nil => rfl
  | cons c rest ih =>
    obtain ⟨name, m⟩ := c
    rw [walkAll, ih, List.flatMap_cons]
    rfl

theorem all_iff_walk (path : Path) : m.All P ↔ ∀ x ∈ m.walk path, P x.2 := by
  induction m generalizing path with
  | step node children ih =>
    rw [all_iff, walk, walkAll_eq, List.forall_mem_cons, List.forall_mem_flatMap]
    exact and_congr_right fun _ => forall₂_congr fun c hc => ih c hc _

/-- Every node has the property exactly if every node with its path from the root has it. -/
theorem all_iff_nodes : m.All P ↔ ∀ x ∈ m.nodes, P x.2 := all_iff_walk _

/-- The trees have nodes at the same places, and the nodes at one place are related. -/
def NodeWise (R : Node → Node → Prop) (m m' : Module) : Prop :=
  List.Forall₂ (fun x x' => x'.1 = x.1 ∧ R x.2 x'.2) m.nodes m'.nodes

section

variable {R S T : Node → Node → Prop} {m₁ m' : Module}

theorem NodeWise.refl (h : ∀ n, R n n) (m : Module) : m.NodeWise R m :=
  List.forall₂_same.mpr fun x _ => ⟨rfl, h x.2⟩

theorem NodeWise.trans (hcomp : ∀ n n₁ n', R n n₁ → S n₁ n' → T n n')
    (hfirst : m.NodeWise R m₁) (h : m₁.NodeWise S m') : m.NodeWise T m' := by
  unfold NodeWise at hfirst h ⊢
  generalize m.nodes = xs at hfirst ⊢
  generalize m₁.nodes = ys at hfirst h
  generalize m'.nodes = zs at h ⊢
  induction hfirst generalizing zs with
  | nil =>
    cases h
    exact .nil
  | cons hxy _ ih =>
    cases h with
    | cons hyz h => exact .cons ⟨hyz.1.trans hxy.1, hcomp _ _ _ hxy.2 hyz.2⟩ (ih _ h)

end

mutual
def mapNodes (f : Node → Node) : Module → Module
  | ⟨node, children⟩ => ⟨f node, mapNodesIn f children⟩

def mapNodesIn (f : Node → Node) :
    List (Option String × Module) → List (Option String × Module)
  | [] => []
  | (name, m) :: rest => (name, m.mapNodes f) :: mapNodesIn f rest
end

theorem mapNodesIn_eq_map (f : Node → Node) (children : List (Option String × Module)) :
    mapNodesIn f children = children.map fun c => (c.1, c.2.mapNodes f) := by
  induction children with
  | nil => rfl
  | cons c rest ih =>
    obtain ⟨name, m⟩ := c
    rw [mapNodesIn, ih]
    rfl

/-- The walk meets the changed nodes at the same places, if no node changes its kind. -/
theorem walk_mapNodes {f : Node → Node} (hkind : ∀ n, (f n).kind = n.kind) (m : Module)
    (path : Path) : (m.mapNodes f).walk path = (m.walk path).map fun x => (x.1, f x.2) := by
  induction m generalizing path with
  | step node children ih =>
    have hcomponent : ∀ c : Option String × Module,
        component (c.1, c.2.mapNodes f) = component c := by
      rintro ⟨name, ⟨node, children⟩⟩
      exact congrArg name.getD (hkind node)
    rw [mapNodes, walk, walk, walkAll_eq, walkAll_eq, mapNodesIn_eq_map, List.map_cons,
      List.flatMap_map, List.map_flatMap]
    refine congrArg _ (List.flatMap_congr fun c hc => ?_)
    rw [hcomponent, ih c hc]

theorem nodes_mapNodes {f : Node → Node} (hkind : ∀ n, (f n).kind = n.kind) (m : Module) :
    (m.mapNodes f).nodes = m.nodes.map fun x => (x.1, f x.2) := by
  obtain ⟨node, children⟩ := m
  have hroot : (mapNodes f ⟨node, children⟩).kind = node.kind := hkind node
  rw [nodes, hroot]
  exact walk_mapNodes hkind _ _

end Gateware.Module
