import Gateware.Lower.Module
import Gateware.Proofs.Lower.Free
import Gateware.Proofs.Tree

/-! # Lowering whole trees

A lowered tree has no selection in any statement or connection, provided that its targets and the
connections that instances drive are complete and over rows with elements. Lowering it once more
changes nothing.
-/
namespace Gateware

/-! ## What is asked of a tree -/

/-- What the primitive drives is complete and over rows with elements. -/
def Special.FullTargets : Special → Prop
  | .primitive i => ∀ p ∈ i.ports, p.role = .output → p.value.FullTarget
  | .memory _ => True

/-- All targets of the node and all connections that its instances drive are complete and over rows
with elements. -/
structure Node.FullTargets (n : Node) : Prop where
  blocks : ∀ b ∈ n.blocks, Block.FullTargets b.2
  specials : ∀ s ∈ n.specials, s.FullTargets

structure Node.SelectFree (n : Node) : Prop where
  blocks : ∀ b ∈ n.blocks, Block.SelectFree b.2
  specials : ∀ s ∈ n.specials, ∀ v ∈ s.values, v.selects = false

/-! ## Connections -/

section

variable (kind : String) {ports : List InstancePort} {specials : List Special}

theorem lowerPorts_selectFree (next : Nat)
    (h : ∀ p ∈ ports, p.role = .output → p.value.FullTarget) :
    (∀ p ∈ (lowerPorts kind next ports).ports, p.value.selects = false) ∧
      Block.SelectFree (lowerPorts kind next ports).glue := by
  induction ports generalizing next with
  | nil => exact ⟨nofun, trivial⟩
  | cons p rest ih =>
    have hrest : ∀ q ∈ rest, q.role = .output → q.value.FullTarget :=
      fun q hq => h q (List.mem_cons_of_mem _ hq)
    rw [lowerPorts]
    split
    · rename_i hout
      split
      · obtain ⟨hports, hglue⟩ := ih (next + 1) hrest
        refine ⟨List.forall_mem_cons.mpr ⟨rfl, hports⟩, ?_, hglue⟩
        exact (lowerAssign_plain (h p List.mem_cons_self hout) _).selectFree
      · rename_i hsel
        obtain ⟨hports, hglue⟩ := ih next hrest
        exact ⟨List.forall_mem_cons.mpr ⟨Bool.eq_false_iff.mpr hsel, hports⟩, hglue⟩
    · obtain ⟨hports, hglue⟩ := ih next hrest
      exact ⟨List.forall_mem_cons.mpr ⟨Value.lowerReads_selects p.value, hports⟩, hglue⟩

theorem lowerSpecials_selectFree (next : Nat) (h : ∀ s ∈ specials, s.FullTargets) :
    (∀ s ∈ (lowerSpecials next specials).specials, ∀ v ∈ s.values, v.selects = false) ∧
      Block.SelectFree (lowerSpecials next specials).glue := by
  induction specials generalizing next with
  | nil => exact ⟨nofun, trivial⟩
  | cons s rest ih =>
    have hrest : ∀ t ∈ rest, t.FullTargets := fun t ht => h t (List.mem_cons_of_mem _ ht)
    cases s with
    | memory m =>
      obtain ⟨hspecials, hglue⟩ := ih next hrest
      exact ⟨List.forall_mem_cons.mpr ⟨nofun, hspecials⟩, hglue⟩
    | primitive i =>
      obtain ⟨hports, hportGlue⟩ := lowerPorts_selectFree i.kind next
        (h _ List.mem_cons_self)
      obtain ⟨hspecials, hglue⟩ := ih (next + (lowerPorts i.kind next i.ports).glue.length) hrest
      refine ⟨List.forall_mem_cons.mpr ⟨fun v hv => ?_, hspecials⟩,
        Block.every_append hportGlue hglue⟩
      obtain ⟨p, hp, rfl⟩ := List.mem_map.mp hv
      exact hports p hp

theorem lowerPorts_of_selectFree (next : Nat) (h : ∀ p ∈ ports, p.value.selects = false) :
    lowerPorts kind next ports = ⟨ports, [], {}⟩ := by
  induction ports with
  | nil => rfl
  | cons p rest ih =>
    have hp := h p List.mem_cons_self
    rw [lowerPorts, ih fun q hq => h q (List.mem_cons_of_mem _ hq)]
    split
    · rw [if_neg (by simp [hp])]
    · rw [Value.lowerReads_of_selects hp, Value.selectCount_of_selects hp]
      rfl

theorem lowerSpecials_of_selectFree (next : Nat)
    (h : ∀ s ∈ specials, ∀ v ∈ s.values, v.selects = false) :
    lowerSpecials next specials = ⟨specials, [], {}⟩ := by
  induction specials with
  | nil => rfl
  | cons s rest ih =>
    have hrest := ih fun t ht => h t (List.mem_cons_of_mem _ ht)
    cases s with
    | memory m => rw [lowerSpecials, hrest]
    | primitive i =>
      have hports : ∀ p ∈ i.ports, p.value.selects = false :=
        fun p hp => h _ List.mem_cons_self p.value (List.mem_map_of_mem hp)
      rw [lowerSpecials, lowerPorts_of_selectFree i.kind next hports]
      dsimp only [List.length_nil, Nat.add_zero]
      rw [hrest]
      rfl

end

/-! ## Nodes -/

/-- A property of blocks that extends to joined blocks is kept when one block is extended. -/
theorem Blocks.forall_extend {P : Block → Prop} (join : ∀ a b, P a → P b → P (a ++ b))
    {blocks : Blocks} (h : ∀ b ∈ blocks, P b.2) {more : Block} (hmore : P more) (domain : String) :
    ∀ b ∈ blocks.extend domain more, P b.2 := by
  induction blocks with
  | nil => simpa [Blocks.extend] using hmore
  | cons b rest ih =>
    obtain ⟨d, block⟩ := b
    obtain ⟨hb, hrest⟩ := List.forall_mem_cons.mp h
    rw [Blocks.extend]
    split
    · exact List.forall_mem_cons.mpr ⟨join _ _ hb hmore, hrest⟩
    · exact List.forall_mem_cons.mpr ⟨hb, ih hrest⟩

section

variable {n : Node}

theorem Node.FullTargets.lower (h : n.FullTargets) (next : Nat) :
    (n.lower next).node.SelectFree := by
  obtain ⟨hspecials, hglue⟩ := lowerSpecials_selectFree next h.specials
  have hblocks : ∀ b ∈ n.blocks.map fun b => (b.1, Block.lower b.2), Block.SelectFree b.2 := by
    intro b hb
    obtain ⟨c, hc, rfl⟩ := List.mem_map.mp hb
    exact Block.lower_selectFree (h.blocks c hc)
  refine ⟨?_, hspecials⟩
  unfold Node.lower
  dsimp only
  split
  · exact hblocks
  · exact Blocks.forall_extend (fun _ _ => Block.every_append) hblocks hglue combDomain

theorem Node.SelectFree.lower (h : n.SelectFree) (next : Nat) :
    n.lower next = ⟨n, next, 0, {}⟩ := by
  have hsame : ∀ b ∈ n.blocks, (b.1, Block.lower b.2) = id b :=
    fun b hb => Prod.ext rfl (Block.SelectFree.lowered (h.blocks b hb)).1
  have hblocks : (n.blocks.map fun b => (b.1, Block.lower b.2)) = n.blocks :=
    (List.map_congr_left hsame).trans (List.map_id _)
  have hcount : Block.lowerCount (n.blocks.flatMap fun b => b.2) = {} := by
    refine (Block.SelectFree.lowered (Block.every_iff.mpr fun s hs => ?_)).2
    obtain ⟨b, hb, hs⟩ := List.mem_flatMap.mp hs
    exact Block.every_iff.mp (h.blocks b hb) s hs
  unfold Node.lower
  simp only [lowerSpecials_of_selectFree next h.specials, hblocks, hcount]
  rfl

/-- No value of a node without selections has one. -/
theorem Node.SelectFree.values (h : n.SelectFree) :
    ∀ v ∈ n.blocks.values ++ n.specials.flatMap Special.values, v.selects = false := by
  intro v hv
  rcases List.mem_append.mp hv with hv | hv
  · obtain ⟨⟨_, block⟩, hb, hv⟩ := List.mem_flatMap.mp hv
    dsimp only at hv
    rw [Block.values_eq] at hv
    obtain ⟨s, hs, hv⟩ := List.mem_flatMap.mp hv
    exact Statement.Every.values (Block.every_iff.mp (h.blocks _ hb) s hs) v hv
  · obtain ⟨s, hs, hv⟩ := List.mem_flatMap.mp hv
    exact h.specials s hs v hv

end

/-! ## Trees -/

namespace Module

variable {m : Module}

theorem lowerAll_all {P : Node → Prop} {children : List (Option String × Module)}
    (h : ∀ c ∈ children, ∀ path next, (c.2.lowerFrom path next).result = .ok () →
      (c.2.lowerFrom path next).value.All P) (path : Path) (next : Nat)
    (hok : (lowerAll path children next).result = .ok ()) :
    AllIn P (lowerAll path children next).value := by
  induction children generalizing next with
  | nil => trivial
  | cons c rest ih =>
    obtain ⟨name, m⟩ := c
    rw [lowerAll] at hok ⊢
    dsimp only at hok ⊢
    split at hok
    · cases hok
    · rename_i hhead
      exact ⟨h _ List.mem_cons_self _ _ hhead,
        ih (fun d hd => h d (List.mem_cons_of_mem _ hd)) _ hok⟩

/-- If all targets are complete and over rows with elements, a tree that is lowered to its end is
closed and has no selections. -/
theorem lowerFrom_selectFree (h : m.All Node.FullTargets) (path : Path) (next : Nat)
    (hok : (m.lowerFrom path next).result = .ok ()) :
    (m.lowerFrom path next).value.All fun n => n.SelectFree ∧ n.finalized = true := by
  induction m generalizing path next with
  | step node children ih =>
    obtain ⟨hnode, hchildren⟩ := all_iff.mp h
    rw [lowerFrom] at hok ⊢
    dsimp only at hok ⊢
    split at hok
    · rename_i hclosed
      rw [if_pos hclosed]
      exact ⟨⟨Node.FullTargets.lower hnode next, hclosed⟩,
        lowerAll_all (fun c hc path next => ih c hc (hchildren c hc) path next) path _ hok⟩
    · cases hok

theorem lowerAll_of_selectFree {children : List (Option String × Module)}
    (h : ∀ c ∈ children, ∀ path next, c.2.lowerFrom path next = ⟨c.2, next, [], {}, .ok ()⟩)
    (path : Path) (next : Nat) :
    lowerAll path children next = ⟨children, next, [], {}, .ok ()⟩ := by
  induction children with
  | nil => rfl
  | cons c rest ih =>
    obtain ⟨name, m⟩ := c
    rw [lowerAll, h _ List.mem_cons_self]
    dsimp only
    rw [ih fun d hd => h d (List.mem_cons_of_mem _ hd)]
    rfl

/-- Lowering a closed tree without selections changes nothing. -/
theorem lowerFrom_of_selectFree (h : m.All fun n => n.SelectFree ∧ n.finalized = true) (path : Path)
    (next : Nat) : m.lowerFrom path next = ⟨m, next, [], {}, .ok ()⟩ := by
  induction m generalizing path next with
  | step node children ih =>
    obtain ⟨⟨hnode, hclosed⟩, hchildren⟩ := all_iff.mp h
    rw [lowerFrom, if_pos hclosed, Node.SelectFree.lower hnode]
    dsimp only
    rw [lowerAll_of_selectFree fun c hc path next => ih c hc (hchildren c hc) path next]
    rfl

end Module

end Gateware
