import Gateware.Proofs.Tree
import Gateware.Proofs.Walk

/-! # Changing the handles of signals

A change of single handles extends to everything that holds some: values, blocks, specials and the
nodes of a tree. What a changed part mentions are the changed handles of what it mentioned, in the
same order.
-/
namespace Gateware

variable {g : Signal → Signal}

/-! ## Values -/

def Value.changeNode (g : Signal → Signal) : Value → Value
  | .signal s => .signal (g s)
  | v => v

def Value.mapSignals (g : Signal → Signal) (v : Value) : Value := v.rebuild (Value.changeNode g)

mutual
theorem Value.signals_mapSignals : ∀ v : Value, (v.mapSignals g).signals = v.signals.map g
  | .const _ | .signal _ | .clock _ | .reset _ => rfl
  | .op _ vs => Value.allSignals_mapSignals vs
  | .slice v _ _ => v.signals_mapSignals
  | .concat vs => Value.allSignals_mapSignals vs
  | .repl v _ => v.signals_mapSignals
  | .select row index => by
    rw [Value.signals, List.map_append, ← Row.signals_mapSignals row, ← index.signals_mapSignals]
    rfl

theorem Value.allSignals_mapSignals : ∀ vs : List Value,
    Value.allSignals (Value.rebuildAll (Value.changeNode g) vs) = (Value.allSignals vs).map g
  | [] => rfl
  | v :: vs => by
    rw [Value.allSignals, List.map_append, ← v.signals_mapSignals, ← Value.allSignals_mapSignals vs]
    rfl

theorem Row.signals_mapSignals : ∀ row : List Element,
    Row.signals (Row.rebuild (Value.changeNode g) row) = (Row.signals row).map g
  | [] => rfl
  | e :: es => by
    rw [Row.signals, List.map_append, ← Element.signals_mapSignals e, ← Row.signals_mapSignals es]
    rfl

theorem Element.signals_mapSignals : ∀ e : Element,
    Element.signals (Element.rebuild (Value.changeNode g) e) = (Element.signals e).map g
  | .value v => v.signals_mapSignals
  | .row es => Row.signals_mapSignals es
end

/-! ## Blocks -/

theorem Block.values_mapValues_of {f : Value → Value} {block : Block}
    (h : ∀ s ∈ block, (s.mapValues f).values = s.values.map f) :
    Block.values (Block.mapValues f block) = (Block.values block).map f := by
  induction block with
  | nil => rfl
  | cons s rest ih =>
    have hrest := ih fun t ht => h t (List.mem_cons_of_mem _ ht)
    simp only [Block.mapValues, Block.values, List.map_append, h s List.mem_cons_self, hrest]

theorem Statement.values_mapValues (f : Value → Value) (s : Statement) :
    (s.mapValues f).values = s.values.map f := by
  induction s with
  | assign target source => rfl
  | branch condition taken otherwise iht iho =>
    have hotherwise : Block.otherwiseValues (Block.mapOtherwise f otherwise) =
        (Block.otherwiseValues otherwise).map f := by
      cases otherwise with
      | none => rfl
      | some body => exact Block.values_mapValues_of (iho body rfl)
    simp only [Statement.mapValues, Statement.values, List.map_cons, List.map_append,
      Block.values_mapValues_of iht, hotherwise]
  | switch selector cases ih =>
    have hcases : Case.values (Case.mapValues f cases) = (Case.values cases).map f := by
      induction cases with
      | nil => rfl
      | cons c rest ihrest =>
        obtain ⟨patterns, body⟩ := c
        have hbody : Block.values (Block.mapValues f body) = (Block.values body).map f :=
          Block.values_mapValues_of (ih _ List.mem_cons_self)
        have hrest := ihrest fun c hc => ih c (List.mem_cons_of_mem _ hc)
        simp only [Case.mapValues, Case.values, List.map_append, hbody, hrest]
    simp only [Statement.mapValues, Statement.values, List.map_cons, hcases]

def Blocks.mapSignals (g : Signal → Signal) (blocks : Blocks) : Blocks :=
  blocks.map fun (domain, block) => (domain, Block.mapValues (Value.mapSignals g) block)

theorem Blocks.signals_mapSignals (blocks : Blocks) :
    (blocks.mapSignals g).values.flatMap Value.signals =
      (blocks.values.flatMap Value.signals).map g := by
  have hvalues : ∀ block : Block, Block.values (Block.mapValues (Value.mapSignals g) block) =
      (Block.values block).map (Value.mapSignals g) :=
    fun _ => Block.values_mapValues_of fun s _ => s.values_mapValues _
  have hblocks : (blocks.mapSignals g).values = blocks.values.map (Value.mapSignals g) := by
    simp only [Blocks.mapSignals, Blocks.values, List.flatMap_map, List.map_flatMap, hvalues]
  rw [hblocks]
  simp only [List.flatMap_map, List.map_flatMap, Value.signals_mapSignals]

/-! ## Specials -/

def MemoryPort.mapSignals (g : Signal → Signal) (p : MemoryPort) : MemoryPort :=
  { p with
    adr := g p.adr
    datR := g p.datR
    we := p.we.map g
    datW := p.datW.map g
    re := p.re.map g }

theorem MemoryPort.signals_mapSignals (p : MemoryPort) :
    (p.mapSignals g).signals = p.signals.map g := by
  simp [MemoryPort.signals, MemoryPort.mapSignals, Option.toList_map]

def Special.mapSignals (g : Signal → Signal) : Special → Special
  | .primitive i =>
    .primitive { i with ports := i.ports.map fun p => { p with value := p.value.mapSignals g } }
  | .memory m => .memory { m with ports := m.ports.map (MemoryPort.mapSignals g) }

theorem Special.signals_mapSignals (specials : List Special) :
    (specials.map (Special.mapSignals g)).flatMap Special.signals =
      (specials.flatMap Special.signals).map g := by
  have hone : ∀ s : Special, (s.mapSignals g).signals = s.signals.map g := by
    intro s
    cases s with
    | primitive i =>
      simp only [Special.mapSignals, Special.signals, List.flatMap_map, List.map_flatMap,
        Value.signals_mapSignals]
    | memory m =>
      simp only [Special.mapSignals, Special.signals, List.flatMap_map, List.map_flatMap,
        MemoryPort.signals_mapSignals]
  simp only [List.flatMap_map, List.map_flatMap, hone]

end Gateware
