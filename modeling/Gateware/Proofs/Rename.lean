import Gateware.Module.Rename
import Gateware.Proofs.Lower.Tree

/-! # What renaming a domain keeps

Renaming changes names in a value and nothing of its structure: places stay places and rows keep
their elements. So the targets of a node stay complete and over rows with elements, and a block
drives the same signals as before.
-/
namespace Gateware

/-! ## Values -/

section

variable {f : Value → Value}

mutual
theorem Value.assignable_rebuild (hf : ∀ v, (f v).assignable = v.assignable) : ∀ v : Value,
    (v.rebuild f).assignable = v.assignable
  | .const _ | .signal _ | .clock _ | .reset _ | .op _ _ | .repl _ _ => hf _
  | .slice v _ _ => (hf _).trans (v.assignable_rebuild hf)
  | .concat vs => (hf _).trans (Value.allAssignable_rebuild hf vs)
  | .select row _ => (hf _).trans (Row.assignable_rebuild hf row)

theorem Value.allAssignable_rebuild (hf : ∀ v, (f v).assignable = v.assignable) :
    ∀ vs : List Value, Value.allAssignable (Value.rebuildAll f vs) = Value.allAssignable vs
  | [] => rfl
  | v :: vs => congrArg₂ and (v.assignable_rebuild hf) (Value.allAssignable_rebuild hf vs)

theorem Row.assignable_rebuild (hf : ∀ v, (f v).assignable = v.assignable) :
    ∀ row : List Element, Row.assignable (Row.rebuild f row) = Row.assignable row
  | [] => rfl
  | e :: es => congrArg₂ and (Element.assignable_rebuild hf e) (Row.assignable_rebuild hf es)

theorem Element.assignable_rebuild (hf : ∀ v, (f v).assignable = v.assignable) :
    ∀ e : Element, Element.assignable (Element.rebuild f e) = Element.assignable e
  | .value v => v.assignable_rebuild hf
  | .row es => Row.assignable_rebuild hf es
end

mutual
theorem Value.targets_rebuild (hf : ∀ v, (f v).targets = v.targets) : ∀ v : Value,
    (v.rebuild f).targets = v.targets
  | .const _ | .signal _ | .clock _ | .reset _ | .op _ _ | .repl _ _ => hf _
  | .slice v _ _ => (hf _).trans (v.targets_rebuild hf)
  | .concat vs => (hf _).trans (Value.allTargets_rebuild hf vs)
  | .select row _ => (hf _).trans (Row.targets_rebuild hf row)

theorem Value.allTargets_rebuild (hf : ∀ v, (f v).targets = v.targets) : ∀ vs : List Value,
    Value.allTargets (Value.rebuildAll f vs) = Value.allTargets vs
  | [] => rfl
  | v :: vs => congrArg₂ (· ++ ·) (v.targets_rebuild hf) (Value.allTargets_rebuild hf vs)

theorem Row.targets_rebuild (hf : ∀ v, (f v).targets = v.targets) : ∀ row : List Element,
    Row.targets (Row.rebuild f row) = Row.targets row
  | [] => rfl
  | e :: es => congrArg₂ (· ++ ·) (Element.targets_rebuild hf e) (Row.targets_rebuild hf es)

theorem Element.targets_rebuild (hf : ∀ v, (f v).targets = v.targets) : ∀ e : Element,
    Element.targets (Element.rebuild f e) = Element.targets e
  | .value v => v.targets_rebuild hf
  | .row es => Row.targets_rebuild hf es
end

mutual
theorem Value.shape_rebuild (hf : ∀ v, (f v).shape = v.shape) : ∀ v : Value,
    (v.rebuild f).shape = v.shape
  | .const _ | .signal _ | .clock _ | .reset _ | .slice _ _ _ => hf _
  | .op o vs => (hf _).trans (congrArg o.resultShape (Value.shapes_rebuild hf vs))
  | .concat vs => (hf _).trans (congrArg Shape.ofUnsigned (Value.totalWidth_rebuild hf vs))
  | .repl v count => (hf _).trans
      (congrArg (fun s : Shape => Shape.ofUnsigned (clampWidth (s.width * count)))
        (v.shape_rebuild hf))
  | .select row _ => (hf _).trans (Row.shape_rebuild hf row)

theorem Value.shapes_rebuild (hf : ∀ v, (f v).shape = v.shape) : ∀ vs : List Value,
    Value.shapes (Value.rebuildAll f vs) = Value.shapes vs
  | [] => rfl
  | v :: vs => congrArg₂ List.cons (v.shape_rebuild hf) (Value.shapes_rebuild hf vs)

theorem Value.totalWidth_rebuild (hf : ∀ v, (f v).shape = v.shape) : ∀ vs : List Value,
    Value.totalWidth (Value.rebuildAll f vs) = Value.totalWidth vs
  | [] => rfl
  | v :: vs => congrArg₂ (fun (s : Shape) n => clampWidth (s.width + n)) (v.shape_rebuild hf)
      (Value.totalWidth_rebuild hf vs)

theorem Row.shape_rebuild (hf : ∀ v, (f v).shape = v.shape) : ∀ row : List Element,
    Row.shape (Row.rebuild f row) = Row.shape row
  | [] => rfl
  | e :: es => congrArg₂
      (fun head rest => Shape.mk (max (Shape.widthWithSign head) (Shape.width rest))
        (head.signed || rest.signed))
      (Element.shape_rebuild hf e) (Row.shape_rebuild hf es)

theorem Element.shape_rebuild (hf : ∀ v, (f v).shape = v.shape) : ∀ e : Element,
    Element.shape (Element.rebuild f e) = Element.shape e
  | .value v => v.shape_rebuild hf
  | .row es => Row.shape_rebuild hf es
end

variable {check : Row → Bool}

mutual
theorem Value.everyRow_rebuild (hf : ∀ v, (f v).everyRow check = v.everyRow check)
    (hcheck : ∀ row, check (Row.rebuild f row) = check row) : ∀ v : Value,
    (v.rebuild f).everyRow check = v.everyRow check
  | .const _ | .signal _ | .clock _ | .reset _ => hf _
  | .op _ vs => (hf _).trans (Value.allEveryRow_rebuild hf hcheck vs)
  | .slice v _ _ => (hf _).trans (v.everyRow_rebuild hf hcheck)
  | .concat vs => (hf _).trans (Value.allEveryRow_rebuild hf hcheck vs)
  | .repl v _ => (hf _).trans (v.everyRow_rebuild hf hcheck)
  | .select row index => (hf _).trans (congrArg₂ and
      (congrArg₂ and (hcheck row) (Row.everyRow_rebuild hf hcheck row))
      (index.everyRow_rebuild hf hcheck))

theorem Value.allEveryRow_rebuild (hf : ∀ v, (f v).everyRow check = v.everyRow check)
    (hcheck : ∀ row, check (Row.rebuild f row) = check row) : ∀ vs : List Value,
    Value.allEveryRow check (Value.rebuildAll f vs) = Value.allEveryRow check vs
  | [] => rfl
  | v :: vs =>
    congrArg₂ and (v.everyRow_rebuild hf hcheck) (Value.allEveryRow_rebuild hf hcheck vs)

theorem Row.everyRow_rebuild (hf : ∀ v, (f v).everyRow check = v.everyRow check)
    (hcheck : ∀ row, check (Row.rebuild f row) = check row) : ∀ row : List Element,
    Row.everyRow check (Row.rebuild f row) = Row.everyRow check row
  | [] => rfl
  | e :: es =>
    congrArg₂ and (Element.everyRow_rebuild hf hcheck e) (Row.everyRow_rebuild hf hcheck es)

theorem Element.everyRow_rebuild (hf : ∀ v, (f v).everyRow check = v.everyRow check)
    (hcheck : ∀ row, check (Row.rebuild f row) = check row) : ∀ e : Element,
    Element.everyRow check (Element.rebuild f e) = Element.everyRow check e
  | .value v => v.everyRow_rebuild hf hcheck
  | .row es => congrArg₂ and (hcheck es) (Row.everyRow_rebuild hf hcheck es)
end

theorem Row.filled_rebuild (f : Value → Value) (row : Row) :
    Row.filled (Row.rebuild f row) = Row.filled row := by
  cases row with
  | nil => rfl
  | cons e es => rfl

theorem Row.flat_rebuild (f : Value → Value) (row : Row) :
    Row.flat (Row.rebuild f row) = Row.flat row := by
  rw [Row.rebuild_eq_map, Row.flat, Row.flat, List.all_map]
  congr 1
  funext e
  cases e with
  | value v => rfl
  | row es => rfl

end

theorem Value.FullTarget.renameDomain {v : Value} (h : v.FullTarget) (old new : String) :
    (v.renameDomain old new).FullTarget := by
  obtain ⟨⟨hassign, hcomplete⟩, hfilled⟩ := h
  rw [Value.checkComplete_iff] at hcomplete
  refine ⟨⟨?_, (Value.checkComplete_iff _).mpr ?_⟩, ?_⟩
  · rwa [Value.renameDomain, Value.assignable_rebuild fun v => by cases v <;> rfl]
  · rwa [Value.renameDomain,
      Value.everyRow_rebuild (fun v => by cases v <;> rfl) (Row.flat_rebuild _)]
  · rwa [Value.renameDomain,
      Value.everyRow_rebuild (fun v => by cases v <;> rfl) (Row.filled_rebuild _)]

theorem Value.targets_renameDomain (v : Value) (old new : String) :
    (v.renameDomain old new).targets = v.targets :=
  Value.targets_rebuild (fun v => by cases v <;> rfl) v

theorem Value.shape_renameDomain (v : Value) (old new : String) :
    (v.renameDomain old new).shape = v.shape :=
  Value.shape_rebuild (fun v => by cases v <;> rfl) v

/-! ## Blocks -/

theorem Block.mapValues_eq_map (f : Value → Value) (block : Block) :
    Block.mapValues f block = block.map (Statement.mapValues f) :=
  map_of_cons rfl (fun _ _ => rfl) block

theorem Case.mapValues_eq_map (f : Value → Value) (cases : List Case) :
    Case.mapValues f cases = cases.map fun c => ⟨c.patterns, Block.mapValues f c.body⟩ :=
  map_of_cons rfl (fun ⟨_, _⟩ _ => rfl) cases

section

variable {onAssign onAssign' : Value → Value → Prop} {onGuard onGuard' : Value → Prop}
  {f : Value → Value}

theorem Block.every_mapValues_of {block : Block}
    (h : ∀ s ∈ block, (s.mapValues f).Every onAssign onGuard) :
    Block.Every onAssign onGuard (Block.mapValues f block) := by
  rw [Block.mapValues_eq_map]
  exact Block.every_iff.mpr (List.forall_mem_map.mpr h)

/-- What holds of the values of a statement gives what holds of the changed values. -/
theorem Statement.Every.mapValues {s : Statement} (h : s.Every onAssign onGuard)
    (ha : ∀ t v, onAssign t v → onAssign' (f t) (f v)) (hg : ∀ c, onGuard c → onGuard' (f c)) :
    (s.mapValues f).Every onAssign' onGuard' := by
  induction s with
  | assign target source => exact ha target source h
  | branch condition taken otherwise iht iho =>
    refine ⟨hg _ h.1, Block.every_mapValues_of fun s hs => iht s hs (Block.every_iff.mp h.2.1 s hs),
      ?_⟩
    cases otherwise with
    | none => trivial
    | some body =>
      exact Block.every_mapValues_of fun s hs => iho body rfl s hs (Block.every_iff.mp h.2.2 s hs)
  | switch selector cases ih =>
    refine ⟨hg _ h.1, Case.every_iff.mpr fun c hc => ?_⟩
    rw [Case.mapValues_eq_map] at hc
    obtain ⟨given, hgiven, rfl⟩ := List.mem_map.mp hc
    exact Block.every_mapValues_of fun s hs =>
      ih given hgiven s hs (Block.every_iff.mp (Case.every_iff.mp h.2 given hgiven) s hs)

end

section

variable {f : Value → Value}

theorem Block.targets_mapValues_of {block : Block}
    (h : ∀ s ∈ block, (s.mapValues f).targets = s.targets) :
    Block.targets (Block.mapValues f block) = Block.targets block := by
  rw [Block.mapValues_eq_map, Block.targets_eq, Block.targets_eq, List.flatMap_map]
  exact List.flatMap_congr h

theorem Statement.targets_mapValues (hf : ∀ v, (f v).targets = v.targets) (s : Statement) :
    (s.mapValues f).targets = s.targets := by
  induction s with
  | assign target source => exact hf target
  | branch condition taken otherwise iht iho =>
    refine congrArg₂ (· ++ ·) (Block.targets_mapValues_of iht) ?_
    cases otherwise with
    | none => rfl
    | some body => exact Block.targets_mapValues_of (iho body rfl)
  | switch selector cases ih =>
    rw [Statement.mapValues, Statement.targets, Statement.targets, Case.mapValues_eq_map,
      Case.targets_eq, Case.targets_eq, List.flatMap_map]
    exact List.flatMap_congr fun c hc => Block.targets_mapValues_of (ih c hc)

end

theorem Block.targets_renameDomain (block : Block) (old new : String) :
    Block.targets (Block.mapValues (fun v => v.renameDomain old new) block) =
      Block.targets block :=
  Block.targets_mapValues_of fun s _ =>
    Statement.targets_mapValues (fun v => v.targets_renameDomain old new) s

theorem Block.FullTargets.renameDomain {block : Block} (h : Block.FullTargets block)
    (old new : String) :
    Block.FullTargets (Block.mapValues (fun v => v.renameDomain old new) block) :=
  Block.every_mapValues_of fun s hs => Statement.Every.mapValues (Block.every_iff.mp h s hs)
    (fun _ _ ht => Value.FullTarget.renameDomain ht old new) fun _ _ => trivial

namespace Blocks

variable {P : Block → Prop} {blocks : Blocks}

theorem get_of_forall (nil : P []) (h : ∀ b ∈ blocks, P b.2) (domain : String) :
    P (blocks.get domain) := by
  induction blocks with
  | nil => exact nil
  | cons b rest ih =>
    obtain ⟨d, block⟩ := b
    obtain ⟨hb, hrest⟩ := List.forall_mem_cons.mp h
    rw [Blocks.get]
    split
    · exact hb
    · exact ih hrest

theorem forall_erase (h : ∀ b ∈ blocks, P b.2) (domain : String) :
    ∀ b ∈ blocks.erase domain, P b.2 := by
  induction blocks with
  | nil => exact h
  | cons b rest ih =>
    obtain ⟨d, block⟩ := b
    obtain ⟨hb, hrest⟩ := List.forall_mem_cons.mp h
    rw [Blocks.erase]
    split
    · exact hrest
    · exact List.forall_mem_cons.mpr ⟨hb, ih hrest⟩

theorem forall_relabel (h : ∀ b ∈ blocks, P b.2) (old new : String) :
    ∀ b ∈ blocks.relabel old new, P b.2 := by
  induction blocks with
  | nil => exact h
  | cons b rest ih =>
    obtain ⟨d, block⟩ := b
    obtain ⟨hb, hrest⟩ := List.forall_mem_cons.mp h
    rw [Blocks.relabel]
    split
    · exact List.forall_mem_cons.mpr ⟨hb, hrest⟩
    · exact List.forall_mem_cons.mpr ⟨hb, ih hrest⟩

theorem forall_rename (nil : P []) (join : ∀ a b, P a → P b → P (a ++ b))
    (h : ∀ b ∈ blocks, P b.2) (old new : String) : ∀ b ∈ blocks.rename old new, P b.2 := by
  unfold Blocks.rename
  split
  · split
    · exact forall_extend join (forall_erase h old) (get_of_forall nil h old) new
    · exact forall_relabel h old new
  · exact h

end Blocks

/-! ## Nodes -/

theorem Special.FullTargets.renameDomain {s : Special} (h : s.FullTargets) (old new : String) :
    (s.renameDomain old new).FullTargets := by
  cases s with
  | memory m => trivial
  | primitive i =>
    intro p hp hout
    obtain ⟨q, hq, rfl⟩ := List.mem_map.mp hp
    exact Value.FullTarget.renameDomain (h q hq hout) old new

theorem Node.FullTargets.renameDomain {n : Node} (h : n.FullTargets) (old new : String) :
    (n.renameDomain old new).FullTargets := by
  constructor
  · intro b hb
    obtain ⟨c, hc, rfl⟩ := List.mem_map.mp hb
    have hall := Blocks.forall_rename (P := Block.FullTargets) trivial
      (fun _ _ => Block.every_append) h.blocks old new
    exact Block.FullTargets.renameDomain (hall c hc) old new
  · intro s hs
    obtain ⟨t, ht, rfl⟩ := List.mem_map.mp hs
    exact Special.FullTargets.renameDomain (h.specials t ht) old new

end Gateware
