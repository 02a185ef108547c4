import Gateware.Proofs.Domain.Apart
import Gateware.Proofs.Domain.Usage
import Gateware.Proofs.Renumber

/-! # What renaming a domain does to a tree

`Reclocked` says for values, statements and specials that clocks and resets of one domain became
those of another and nothing else changed. A rename reclocks every part of every node. Where a node
has blocks of both names the second keeps its place and gets the statements of the first at its end,
so a rename can be taken back only if the new name was not in use.
-/
namespace Gateware

/-! ## Values -/

mutual
/-- The second value is the first with the clock and the reset of one domain turned into those of
another, and nothing else changed. -/
inductive Value.Reclocked (old new : String) : Value → Value → Prop
  | const (c : Const) : Value.Reclocked old new (.const c) (.const c)
  | signal (s : Signal) : Value.Reclocked old new (.signal s) (.signal s)
  | clock (d : String) :
      Value.Reclocked old new (.clock d) (.clock (if d = old then new else d))
  | reset (d : String) :
      Value.Reclocked old new (.reset d) (.reset (if d = old then new else d))
  | op (o : Op) {vs vs' : List Value} : List.Forall₂ (Value.Reclocked old new) vs vs' →
      Value.Reclocked old new (.op o vs) (.op o vs')
  | slice {v v' : Value} (start stop : Nat) : Value.Reclocked old new v v' →
      Value.Reclocked old new (.slice v start stop) (.slice v' start stop)
  | concat {vs vs' : List Value} : List.Forall₂ (Value.Reclocked old new) vs vs' →
      Value.Reclocked old new (.concat vs) (.concat vs')
  | repl {v v' : Value} (count : Nat) : Value.Reclocked old new v v' →
      Value.Reclocked old new (.repl v count) (.repl v' count)
  | select {row row' : List Element} {index index' : Value} :
      List.Forall₂ (Element.Reclocked old new) row row' → Value.Reclocked old new index index' →
      Value.Reclocked old new (.select row index) (.select row' index')

inductive Element.Reclocked (old new : String) : Element → Element → Prop
  | value {v v' : Value} : Value.Reclocked old new v v' →
      Element.Reclocked old new (.value v) (.value v')
  | row {es es' : List Element} : List.Forall₂ (Element.Reclocked old new) es es' →
      Element.Reclocked old new (.row es) (.row es')
end

section

variable {old new : String} {f g : Value → Value}

mutual
theorem Row.reclocked_of : ∀ row : List Element,
    (∀ v ∈ Row.leaves row, Value.Reclocked old new v (v.rebuild f)) →
    List.Forall₂ (Element.Reclocked old new) row (Row.rebuild f row)
  | [], _ => .nil
  | e :: es, h => .cons (Element.reclocked_of e fun v hv => h v (List.mem_append_left _ hv))
      (Row.reclocked_of es fun v hv => h v (List.mem_append_right _ hv))

theorem Element.reclocked_of : ∀ e : Element,
    (∀ v ∈ Element.leaves e, Value.Reclocked old new v (v.rebuild f)) →
    Element.Reclocked old new e (Element.rebuild f e)
  | .value v, h => .value (h v (List.mem_singleton_self v))
  | .row es, h => .row (Row.reclocked_of es h)
end

mutual
theorem Row.eq_of_reclocked : ∀ (row : List Element) {row' : List Element},
    (∀ v ∈ Row.leaves row, ∀ v', Value.Reclocked old new v v' → v' = v.rebuild f) →
    List.Forall₂ (Element.Reclocked old new) row row' → row' = Row.rebuild f row
  | [], _, _, .nil => rfl
  | e :: es, _, h, .cons he hes => congrArg₂ List.cons
      (Element.eq_of_reclocked e (fun v hv => h v (List.mem_append_left _ hv)) he)
      (Row.eq_of_reclocked es (fun v hv => h v (List.mem_append_right _ hv)) hes)

theorem Element.eq_of_reclocked : ∀ (e : Element) {e' : Element},
    (∀ v ∈ Element.leaves e, ∀ v', Value.Reclocked old new v v' → v' = v.rebuild f) →
    Element.Reclocked old new e e' → e' = Element.rebuild f e
  | .value v, _, h, .value hv => congrArg Element.value (h v (List.mem_singleton_self v) _ hv)
  | .row es, _, h, .row hes => congrArg Element.row (Row.eq_of_reclocked es h hes)
end

mutual
theorem Row.rebuild_back : ∀ row : List Element,
    (∀ v ∈ Row.leaves row, (v.rebuild f).rebuild g = v) → Row.rebuild g (Row.rebuild f row) = row
  | [], _ => rfl
  | e :: es, h => congrArg₂ List.cons
      (Element.rebuild_back e fun v hv => h v (List.mem_append_left _ hv))
      (Row.rebuild_back es fun v hv => h v (List.mem_append_right _ hv))

theorem Element.rebuild_back : ∀ e : Element,
    (∀ v ∈ Element.leaves e, (v.rebuild f).rebuild g = v) →
    Element.rebuild g (Element.rebuild f e) = e
  | .value v, h => congrArg Element.value (h v (List.mem_singleton_self v))
  | .row es, h => congrArg Element.row (Row.rebuild_back es h)
end

mutual
theorem Row.leaves_rebuild : ∀ row : List Element,
    Row.leaves (Row.rebuild f row) = (Row.leaves row).map (Value.rebuild f)
  | [] => rfl
  | e :: es => by
    rw [Row.rebuild, Row.leaves, Row.leaves, List.map_append, Element.leaves_rebuild e,
      Row.leaves_rebuild es]

theorem Element.leaves_rebuild : ∀ e : Element,
    Element.leaves (Element.rebuild f e) = (Element.leaves e).map (Value.rebuild f)
  | .value _ => rfl
  | .row es => Row.leaves_rebuild es
end

end

theorem eq_map_of_forall₂ {α β : Type} {R : α → β → Prop} {f : α → β} {as : List α} {bs : List β}
    (h : List.Forall₂ R as bs) (hf : ∀ a ∈ as, ∀ b, R a b → b = f a) : bs = as.map f := by
  induction h with
  | nil => rfl
  | cons hab _ ih =>
    rw [List.map_cons, hf _ List.mem_cons_self _ hab,
      ih fun a ha => hf a (List.mem_cons_of_mem _ ha)]

theorem renamed_back {old new d : String} (hd : d ≠ new) :
    (if (if d = old then new else d) = new then old else if d = old then new else d) = d := by
  by_cases h : d = old
  · simp [h]
  · simp [h, hd]

namespace Value

variable {old new domain : String}

theorem renameDomain_op (o : Op) (vs : List Value) :
    (Value.op o vs).renameDomain old new = .op o (vs.map fun v => v.renameDomain old new) := by
  rw [renameDomain, rebuild, rebuildAll_eq_map]
  rfl

theorem renameDomain_concat (vs : List Value) :
    (Value.concat vs).renameDomain old new = .concat (vs.map fun v => v.renameDomain old new) := by
  rw [renameDomain, rebuild, rebuildAll_eq_map]
  rfl

theorem reclocked (v : Value) : Value.Reclocked old new v (v.renameDomain old new) := by
  induction v with
  | const c => exact .const c
  | signal s => exact .signal s
  | clock d => exact .clock d
  | reset d => exact .reset d
  | op o vs ih =>
    rw [renameDomain_op]
    exact .op o (List.forall₂_map_right_iff.mpr (List.forall₂_same.mpr ih))
  | slice v start stop ih => exact .slice start stop ih
  | concat vs ih =>
    rw [renameDomain_concat]
    exact .concat (List.forall₂_map_right_iff.mpr (List.forall₂_same.mpr ih))
  | repl v count ih => exact .repl count ih
  | select row index ihr ihi => exact .select (Row.reclocked_of row ihr) ihi

theorem Reclocked.eq {v v' : Value} (h : Value.Reclocked old new v v') :
    v' = v.renameDomain old new := by
  induction v generalizing v' with
  | const c => cases h with | const => rfl
  | signal s => cases h with | signal => rfl
  | clock d => cases h with | clock => rfl
  | reset d => cases h with | reset => rfl
  | op o vs ih =>
    cases h with
    | op _ hs => rw [renameDomain_op, eq_map_of_forall₂ hs fun v hv _ => ih v hv]
  | slice v start stop ih =>
    cases h with
    | slice _ _ hv => exact congrArg (Value.slice · start stop) (ih hv)
  | concat vs ih =>
    cases h with
    | concat hs => rw [renameDomain_concat, eq_map_of_forall₂ hs fun v hv _ => ih v hv]
  | repl v count ih =>
    cases h with
    | repl _ hv => exact congrArg (Value.repl · count) (ih hv)
  | select row index ihr ihi =>
    cases h with
    | select hrow hindex =>
      exact congrArg₂ Value.select (Row.eq_of_reclocked row (fun v hv _ => ihr v hv) hrow)
        (ihi hindex)

/-- What a value mentions after the rename is what it mentioned before, under the new name. -/
theorem Mentions.of_renameDomain {v : Value} (h : (v.renameDomain old new).Mentions domain) :
    ∃ d, v.Mentions d ∧ (if d = old then new else d) = domain := by
  induction v with
  | const c => cases h
  | signal s => cases h
  | clock d => cases h with | clock => exact ⟨d, .clock, rfl⟩
  | reset d => cases h with | reset => exact ⟨d, .reset, rfl⟩
  | op o vs ih =>
    rw [renameDomain_op] at h
    cases h with
    | operand hv h =>
      obtain ⟨v, hmem, rfl⟩ := List.mem_map.mp hv
      obtain ⟨d, hd, hname⟩ := ih v hmem h
      exact ⟨d, .operand hmem hd, hname⟩
  | slice v start stop ih =>
    cases h with
    | slice h =>
      obtain ⟨d, hd, hname⟩ := ih h
      exact ⟨d, .slice hd, hname⟩
  | concat vs ih =>
    rw [renameDomain_concat] at h
    cases h with
    | part hv h =>
      obtain ⟨v, hmem, rfl⟩ := List.mem_map.mp hv
      obtain ⟨d, hd, hname⟩ := ih v hmem h
      exact ⟨d, .part hmem hd, hname⟩
  | repl v count ih =>
    cases h with
    | repl h =>
      obtain ⟨d, hd, hname⟩ := ih h
      exact ⟨d, .repl hd, hname⟩
  | select row index ihr ihi =>
    cases h with
    | leaf hv h =>
      rw [Row.leaves_rebuild] at hv
      obtain ⟨v, hmem, rfl⟩ := List.mem_map.mp hv
      obtain ⟨d, hd, hname⟩ := ihr v hmem h
      exact ⟨d, .leaf hmem hd, hname⟩
    | index h =>
      obtain ⟨d, hd, hname⟩ := ihi h
      exact ⟨d, .index hd, hname⟩

theorem renameDomain_back {v : Value} (h : ¬ v.Mentions new) :
    (v.renameDomain old new).renameDomain new old = v := by
  induction v with
  | const c => rfl
  | signal s => rfl
  | clock d =>
    have hd : d ≠ new := fun hd => h (hd ▸ .clock)
    exact congrArg Value.clock (renamed_back hd)
  | reset d =>
    have hd : d ≠ new := fun hd => h (hd ▸ .reset)
    exact congrArg Value.reset (renamed_back hd)
  | op o vs ih =>
    rw [renameDomain_op, renameDomain_op, List.map_map]
    refine congrArg (Value.op o) (map_eq_self fun v hv => ih v hv fun hm => h ?_)
    exact .operand hv hm
  | slice v start stop ih =>
    exact congrArg (Value.slice · start stop) (ih fun hm => h (.slice hm))
  | concat vs ih =>
    rw [renameDomain_concat, renameDomain_concat, List.map_map]
    refine congrArg Value.concat (map_eq_self fun v hv => ih v hv fun hm => h ?_)
    exact .part hv hm
  | repl v count ih => exact congrArg (Value.repl · count) (ih fun hm => h (.repl hm))
  | select row index ihr ihi =>
    exact congrArg₂ Value.select
      (Row.rebuild_back row fun v hv => ihr v hv fun hm => h (.leaf hv hm))
      (ihi fun hm => h (.index hm))

end Value

/-! ## Statements -/

mutual
inductive Statement.Reclocked (old new : String) : Statement → Statement → Prop
  | assign {target target' source source' : Value} : Value.Reclocked old new target target' →
      Value.Reclocked old new source source' →
      Statement.Reclocked old new (.assign target source) (.assign target' source')
  | branch {condition condition' : Value} {taken taken' : List Statement}
      {otherwise otherwise' : Option (List Statement)} :
      Value.Reclocked old new condition condition' →
      List.Forall₂ (Statement.Reclocked old new) taken taken' →
      Option.Rel (List.Forall₂ (Statement.Reclocked old new)) otherwise otherwise' →
      Statement.Reclocked old new (.branch condition taken otherwise)
        (.branch condition' taken' otherwise')
  | switch {selector selector' : Value} {cases cases' : List Case} :
      Value.Reclocked old new selector selector' →
      List.Forall₂ (Case.Reclocked old new) cases cases' →
      Statement.Reclocked old new (.switch selector cases) (.switch selector' cases')

inductive Case.Reclocked (old new : String) : Case → Case → Prop
  | mk (patterns : List Pattern) {body body' : List Statement} :
      List.Forall₂ (Statement.Reclocked old new) body body' →
      Case.Reclocked old new ⟨patterns, body⟩ ⟨patterns, body'⟩
end

def Block.Reclocked (old new : String) : Block → Block → Prop :=
  List.Forall₂ (Statement.Reclocked old new)

section

variable {old new domain : String}

theorem Block.reclocked_of {block : Block} (h : ∀ s ∈ block,
    Statement.Reclocked old new s (s.mapValues fun v => v.renameDomain old new)) :
    Block.Reclocked old new block (Block.mapValues (fun v => v.renameDomain old new) block) := by
  rw [Block.mapValues_eq_map]
  exact List.forall₂_map_right_iff.mpr (List.forall₂_same.mpr h)

theorem Statement.reclocked (s : Statement) :
    Statement.Reclocked old new s (s.mapValues fun v => v.renameDomain old new) := by
  induction s with
  | assign target source => exact .assign target.reclocked source.reclocked
  | branch condition taken otherwise iht iho =>
    refine .branch condition.reclocked (Block.reclocked_of iht) ?_
    cases otherwise with
    | none => exact .none
    | some body => exact .some (Block.reclocked_of (iho body rfl))
  | switch selector cases ih =>
    rw [Statement.mapValues, Case.mapValues_eq_map]
    refine .switch selector.reclocked (List.forall₂_map_right_iff.mpr ?_)
    refine List.forall₂_same.mpr ?_
    rintro ⟨patterns, body⟩ hc
    exact .mk patterns (Block.reclocked_of (ih _ hc))

theorem Block.reclocked (block : Block) :
    Block.Reclocked old new block (Block.mapValues (fun v => v.renameDomain old new) block) :=
  Block.reclocked_of fun s _ => s.reclocked

/-- A statement mentions afterwards what it mentioned before, under the new name. -/
theorem Statement.Mentions.of_renameDomain {s : Statement}
    (h : (s.mapValues fun v => v.renameDomain old new).Mentions domain) :
    ∃ d, s.Mentions d ∧ (if d = old then new else d) = domain := by
  obtain ⟨v, hv, h⟩ := Statement.mentions_iff.mp h
  rw [Statement.values_mapValues] at hv
  obtain ⟨u, hu, rfl⟩ := List.mem_map.mp hv
  obtain ⟨d, hd, hname⟩ := Value.Mentions.of_renameDomain h
  exact ⟨d, Statement.mentions_iff.mpr ⟨u, hu, hd⟩, hname⟩

theorem Block.mapValues_back_of {f g : Value → Value} {block : Block}
    (h : ∀ s ∈ block, (s.mapValues f).mapValues g = s) :
    Block.mapValues g (Block.mapValues f block) = block := by
  rw [Block.mapValues_eq_map, Block.mapValues_eq_map, List.map_map]
  exact map_eq_self h

theorem Statement.mapValues_back {f g : Value → Value} {s : Statement}
    (h : ∀ v ∈ s.values, g (f v) = v) : (s.mapValues f).mapValues g = s := by
  induction s with
  | assign target source =>
    obtain ⟨htarget, hsource⟩ := List.forall_mem_cons.mp h
    exact congrArg₂ Statement.assign htarget (hsource source (List.mem_singleton_self source))
  | branch condition taken otherwise iht iho =>
    have hcondition := h condition List.mem_cons_self
    have htaken := Block.mapValues_back_of fun s hs =>
      iht s hs fun v hv => h v (Statement.mem_values_taken hs hv)
    cases otherwise with
    | none => simp only [Statement.mapValues, Block.mapOtherwise, hcondition, htaken]
    | some body =>
      have hbody := Block.mapValues_back_of fun s hs =>
        iho body rfl s hs fun v hv => h v (Statement.mem_values_otherwise hs hv)
      simp only [Statement.mapValues, Block.mapOtherwise, hcondition, htaken, hbody]
  | switch selector cases ih =>
    have hselector := h selector List.mem_cons_self
    have hcases : Case.mapValues g (Case.mapValues f cases) = cases := by
      rw [Case.mapValues_eq_map, Case.mapValues_eq_map, List.map_map]
      refine map_eq_self ?_
      rintro ⟨patterns, body⟩ hc
      have hbody := Block.mapValues_back_of fun s hs =>
        ih _ hc s hs fun v hv => h v (Statement.mem_values_case hc hs hv)
      exact congrArg (Case.mk patterns) hbody
    simp only [Statement.mapValues, hselector, hcases]

theorem Block.renameDomain_back {block : Block} (h : ∀ s ∈ block, ¬ s.Mentions new) :
    Block.mapValues (fun v => v.renameDomain new old)
      (Block.mapValues (fun v => v.renameDomain old new) block) = block := by
  refine Block.mapValues_back_of fun s hs => Statement.mapValues_back fun v hv => ?_
  exact Value.renameDomain_back fun hm => h s hs (Statement.mentions_iff.mpr ⟨v, hv, hm⟩)

end

/-! ## Nodes -/

/-- The special with its connections reclocked or its ports clocked by the new name. -/
inductive Special.Reclocked (old new : String) : Special → Special → Prop
  | primitive (kind : String) {ports ports' : List InstancePort} :
      List.Forall₂ (fun p p' => p'.role = p.role ∧ p'.name = p.name ∧
        Value.Reclocked old new p.value p'.value) ports ports' →
      Special.Reclocked old new (.primitive ⟨kind, ports⟩) (.primitive ⟨kind, ports'⟩)
  | memory (m : Memory) {ports' : List MemoryPort} :
      List.Forall₂ (fun p p' => p' = { p with
        clockDomain := p.clockDomain.map fun d => if d = old then new else d }) m.ports ports' →
      Special.Reclocked old new (.memory m) (.memory { m with ports := ports' })

inductive Node.Names (n : Node) (domain : String) : Prop where
  | declared {d} : d ∈ n.declared → d.name = domain → n.Names domain
  | resolved {d} : d ∈ n.resolved → d.name = domain → n.Names domain
  | block {b} : b ∈ n.blocks → b.1 = domain → n.Names domain
  | statement {b s} : b ∈ n.blocks → s ∈ b.2 → s.Mentions domain → n.Names domain
  | connection {i p} : .primitive i ∈ n.specials → p ∈ i.ports → p.value.Mentions domain →
      n.Names domain
  | port {m p} : .memory m ∈ n.specials → p ∈ m.ports → p.clockDomain = some domain →
      n.Names domain
  | driver {x} : x ∈ n.drivers → x.2 = domain → n.Names domain

def Special.names : Special → List String
  | .primitive i => i.ports.flatMap fun p => p.value.domains
  | .memory m => m.ports.filterMap MemoryPort.clockDomain

def Node.names (n : Node) : List String :=
  n.declared.map ClockDomain.name ++ n.resolved.map ClockDomain.name ++ n.blocks.labels ++
    (n.blocks.flatMap fun b => (Block.values b.2).flatMap Value.domains) ++
    n.specials.flatMap Special.names ++ n.drivers.map (·.2)

theorem Node.mem_names {n : Node} {domain : String} : domain ∈ n.names ↔ n.Names domain := by
  simp only [Node.names, List.mem_append, List.mem_flatMap, Value.mem_domains, Block.mem_values]
  constructor
  · rintro (((((h | h) | h) | ⟨b, hb, v, ⟨s, hs, hv⟩, h⟩) | ⟨s, hs, h⟩) | h)
    · obtain ⟨d, hd, hname⟩ := List.mem_map.mp h
      exact .declared hd hname
    · obtain ⟨d, hd, hname⟩ := List.mem_map.mp h
      exact .resolved hd hname
    · obtain ⟨b, hb, hlabel⟩ := List.mem_map.mp h
      exact .block hb hlabel
    · exact .statement hb hs (Statement.mentions_iff.mpr ⟨v, hv, h⟩)
    · cases s with
      | primitive i =>
        obtain ⟨p, hp, h⟩ := List.mem_flatMap.mp h
        exact .connection hs hp (Value.mem_domains.mp h)
      | memory m =>
        obtain ⟨p, hp, h⟩ := List.mem_filterMap.mp h
        exact .port hs hp h
    · obtain ⟨x, hx, hname⟩ := List.mem_map.mp h
      exact .driver hx hname
  · intro h
    cases h with
    | declared hd hname =>
      exact .inl (.inl (.inl (.inl (.inl (List.mem_map.mpr ⟨_, hd, hname⟩)))))
    | resolved hd hname =>
      exact .inl (.inl (.inl (.inl (.inr (List.mem_map.mpr ⟨_, hd, hname⟩)))))
    | block hb hlabel => exact .inl (.inl (.inl (.inr (List.mem_map.mpr ⟨_, hb, hlabel⟩))))
    | statement hb hs hm =>
      obtain ⟨v, hv, h⟩ := Statement.mentions_iff.mp hm
      exact .inl (.inl (.inr ⟨_, hb, v, ⟨_, hs, hv⟩, h⟩))
    | connection hi hp hm =>
      exact .inl (.inr ⟨_, hi, List.mem_flatMap.mpr ⟨_, hp, Value.mem_domains.mpr hm⟩⟩)
    | port hm hp hdomain =>
      exact .inl (.inr ⟨_, hm, List.mem_filterMap.mpr ⟨_, hp, hdomain⟩⟩)
    | driver hx hname => exact .inr (List.mem_map.mpr ⟨_, hx, hname⟩)

instance (n : Node) (domain : String) : Decidable (n.Names domain) :=
  decidable_of_iff _ Node.mem_names

/-- The second node is the first with one domain renamed: the old name is gone, the block of the old
name stands behind that of the new one, other blocks and the specials are where they were, and all
drive what they drove. -/
structure Node.Reclocked (old new : String) (n n' : Node) : Prop where
  gone : ¬ n'.Names old
  joined : Block.Reclocked old new (n.blocks.get new ++ n.blocks.get old) (n'.blocks.get new)
  others : List.Forall₂ (fun b b' => b'.1 = b.1 ∧ Block.Reclocked old new b.2 b'.2)
    (n.blocks.filter fun b => b.1 ≠ old ∧ b.1 ≠ new) (n'.blocks.filter fun b => b.1 ≠ new)
  specials : List.Forall₂ (Special.Reclocked old new) n.specials n'.specials
  drives : ∀ label, label ≠ old → Block.drives (n'.blocks.get label) =
    Block.drives (if label = new then n.blocks.get new ++ n.blocks.get old else n.blocks.get label)
  drivesSpecial : n'.specials.map Special.drives = n.specials.map Special.drives
  drivers : n'.drivers = n.drivers.map fun x => (x.1, if x.2 = old then new else x.2)
  declared : n'.declared.map ClockDomain.name =
    n.declared.map fun d => if d.name = old then new else d.name
  resolved : n'.resolved.map ClockDomain.name =
    n.resolved.map fun d => if d.name = old then new else d.name

section

variable {old new : String} {n : Node}

theorem renamed_ne (hne : old ≠ new) (d : String) : (if d = old then new else d) ≠ old := by
  split
  · exact hne.symm
  · assumption

theorem MemoryPort.renameDomain_eq (p : MemoryPort) :
    p.renameDomain old new = { p with
      clockDomain := p.clockDomain.map fun d => if d = old then new else d } := by
  unfold MemoryPort.renameDomain
  split
  · rename_i h
    simp [h]
  · rename_i h
    obtain ⟨_, _, _, _, _, _, _, _, clockDomain⟩ := p
    cases clockDomain with
    | none => rfl
    | some d =>
      have hd : d ≠ old := fun hd => h (by rw [hd])
      simp [hd]

theorem Special.reclocked (s : Special) : Special.Reclocked old new s (s.renameDomain old new) := by
  cases s with
  | primitive i =>
    obtain ⟨kind, ports⟩ := i
    refine .primitive kind (List.forall₂_map_right_iff.mpr (List.forall₂_same.mpr fun p _ => ?_))
    exact ⟨rfl, rfl, p.value.reclocked⟩
  | memory m =>
    refine .memory m (List.forall₂_map_right_iff.mpr (List.forall₂_same.mpr fun p _ => ?_))
    exact p.renameDomain_eq

theorem Special.drives_renameDomain (s : Special) : (s.renameDomain old new).drives = s.drives := by
  cases s with
  | primitive i =>
    simp only [Special.renameDomain, Special.drives, List.filter_map, List.flatMap_map,
      Value.targets_renameDomain]
    rfl
  | memory m =>
    simp only [Special.renameDomain, Special.drives, List.map_map, Function.comp_def,
      MemoryPort.renameDomain_eq]

theorem Node.blocks_renameDomain (n : Node) (old new : String) :
    (n.renameDomain old new).blocks = (n.blocks.rename old new).map
      fun b => (b.1, Block.mapValues (fun v => v.renameDomain old new) b.2) := rfl

theorem Node.gone_renameDomain (hne : old ≠ new) (hlabels : n.blocks.labels.Nodup) :
    ¬ (n.renameDomain old new).Names old := by
  intro h
  cases h with
  | declared hd hname =>
    obtain ⟨d, -, rfl⟩ := List.mem_map.mp hd
    rw [ClockDomain.renameTo_name] at hname
    exact renamed_ne hne _ hname
  | resolved hd hname =>
    obtain ⟨d, -, rfl⟩ := List.mem_map.mp hd
    rw [ClockDomain.renameTo_name] at hname
    exact renamed_ne hne _ hname
  | block hb hlabel =>
    obtain ⟨b, hmem, rfl⟩ := List.mem_map.mp hb
    exact Blocks.not_mem_labels_rename hlabels hne (List.mem_map.mpr ⟨b, hmem, hlabel⟩)
  | statement hb hs hmentions =>
    rw [Node.blocks_renameDomain] at hb
    obtain ⟨b, -, rfl⟩ := List.mem_map.mp hb
    rw [Block.mapValues_eq_map] at hs
    obtain ⟨s, -, rfl⟩ := List.mem_map.mp hs
    obtain ⟨d, -, hname⟩ := Statement.Mentions.of_renameDomain hmentions
    exact renamed_ne hne d hname
  | connection hi hp hmentions =>
    obtain ⟨special, -, heq⟩ := List.mem_map.mp hi
    cases special with
    | memory m => cases heq
    | primitive i =>
      cases heq
      obtain ⟨p, -, rfl⟩ := List.mem_map.mp hp
      obtain ⟨d, -, hname⟩ := Value.Mentions.of_renameDomain hmentions
      exact renamed_ne hne d hname
  | port hm hp hdomain =>
    obtain ⟨special, -, heq⟩ := List.mem_map.mp hm
    cases special with
    | primitive i => cases heq
    | memory m =>
      cases heq
      obtain ⟨p, -, rfl⟩ := List.mem_map.mp hp
      rw [MemoryPort.renameDomain_eq] at hdomain
      obtain ⟨d, -, hname⟩ := Option.map_eq_some_iff.mp hdomain
      exact renamed_ne hne d hname
  | driver hx hname =>
    obtain ⟨x, -, rfl⟩ := List.mem_map.mp hx
    exact renamed_ne hne _ hname

theorem Node.reclocked (hne : old ≠ new) (hlabels : n.blocks.labels.Nodup) :
    n.Reclocked old new (n.renameDomain old new) := by
  have hget : ∀ label, (n.renameDomain old new).blocks.get label =
      Block.mapValues (fun v => v.renameDomain old new) ((n.blocks.rename old new).get label) := by
    intro label
    rw [Node.blocks_renameDomain]
    exact Blocks.get_map rfl
  constructor
  case gone => exact Node.gone_renameDomain hne hlabels
  case joined =>
    rw [hget, Blocks.get_rename hlabels hne, if_neg hne.symm, if_pos rfl]
    exact Block.reclocked _
  case others =>
    rw [Node.blocks_renameDomain, List.filter_map, ← Blocks.filter_rename hlabels]
    refine List.forall₂_map_right_iff.mpr (List.forall₂_same.mpr fun b _ => ?_)
    exact ⟨rfl, Block.reclocked b.2⟩
  case specials =>
    exact List.forall₂_map_right_iff.mpr (List.forall₂_same.mpr fun s _ => s.reclocked)
  case drives =>
    intro label hlabel
    rw [hget, Blocks.get_rename hlabels hne, if_neg hlabel, Block.drives, Block.drives,
      Block.targets_renameDomain]
  case drivesSpecial =>
    rw [show (n.renameDomain old new).specials =
      n.specials.map fun s => s.renameDomain old new from rfl, List.map_map]
    exact List.map_congr_left fun s _ => s.drives_renameDomain
  case drivers => rfl
  case declared =>
    refine List.map_map.trans (List.map_congr_left fun d _ => ?_)
    exact d.renameTo_name old new
  case resolved =>
    refine List.map_map.trans (List.map_congr_left fun d _ => ?_)
    exact d.renameTo_name old new

/-! ## And back -/

/-- The domain with the hints that its name gives its signals. -/
def ClockDomain.rehint (domain : String) (d : ClockDomain) : ClockDomain :=
  if d.name = domain then
    { d with
      clk := { d.clk with hint := some (hint domain "clk") }
      rst := d.rst.map fun s => { s with hint := some (hint domain "rst") } }
  else d

def Node.rehint (domain : String) (n : Node) : Node :=
  { n with
    declared := n.declared.map (ClockDomain.rehint domain)
    resolved := n.resolved.map (ClockDomain.rehint domain) }

theorem ClockDomain.renameTo_back {d : ClockDomain} (h : d.name ≠ new) :
    (d.renameTo old new).renameTo new old = d.rehint old := by
  unfold renameTo rehint
  by_cases hold : d.name = old
  · have hname : (d.rename new).name = new := rfl
    rw [if_pos hold, if_pos hold, if_pos hname]
    simp [rename, Signal.renamed, hold, Function.comp_def]
  · rw [if_neg hold, if_neg hold, if_neg h]

theorem MemoryPort.renameDomain_back {p : MemoryPort} (h : p.clockDomain ≠ some new) :
    (p.renameDomain old new).renameDomain new old = p := by
  rw [MemoryPort.renameDomain_eq, MemoryPort.renameDomain_eq]
  obtain ⟨_, _, _, _, _, _, _, _, clockDomain⟩ := p
  cases clockDomain with
  | none => rfl
  | some d =>
    have hd : d ≠ new := fun hd => h (congrArg some hd)
    simp only [Option.map_some, renamed_back hd]

theorem Special.renameDomain_back {s : Special}
    (hvalues : ∀ i, s = .primitive i → ∀ p ∈ i.ports, ¬ p.value.Mentions new)
    (hports : ∀ m, s = .memory m → ∀ p ∈ m.ports, p.clockDomain ≠ some new) :
    (s.renameDomain old new).renameDomain new old = s := by
  cases s with
  | primitive i =>
    obtain ⟨kind, ports⟩ := i
    simp only [Special.renameDomain, List.map_map]
    refine congrArg (fun ports => Special.primitive ⟨kind, ports⟩) (map_eq_self fun p hp => ?_)
    obtain ⟨role, name, value⟩ := p
    exact congrArg (InstancePort.mk role name)
      (Value.renameDomain_back (hvalues _ rfl _ hp))
  | memory m =>
    simp only [Special.renameDomain, List.map_map]
    refine congrArg (fun ports => Special.memory { m with ports }) (map_eq_self fun p hp => ?_)
    exact MemoryPort.renameDomain_back (hports m rfl p hp)

theorem Blocks.rename_back {blocks : Blocks} (hlabels : blocks.labels.Nodup)
    (hnew : new ∉ blocks.labels) (hne : old ≠ new) {f : Block → Block} :
    Blocks.rename ((blocks.rename old new).map fun b => (b.1, f b.2)) new old =
      blocks.map fun b => (b.1, f b.2) := by
  have hold : old ∉ Blocks.labels ((blocks.rename old new).map fun b => (b.1, f b.2)) := by
    rw [Blocks.labels_map]
    exact Blocks.not_mem_labels_rename hlabels hne
  have hnodup : (Blocks.labels ((blocks.rename old new).map fun b => (b.1, f b.2))).Nodup := by
    rw [Blocks.labels_map]
    exact Blocks.nodup_labels_rename hlabels
  rw [Blocks.rename_eq_map hnodup hold, Blocks.rename_eq_map hlabels hnew, List.map_map,
    List.map_map]
  refine List.map_congr_left fun b hb => ?_
  have hb' : b.1 ≠ new := fun heq => hnew (List.mem_map.mpr ⟨b, hb, heq⟩)
  exact congrArg (·, f b.2) (renamed_back hb')

theorem Node.renameDomain_back (hne : old ≠ new) (hlabels : n.blocks.labels.Nodup)
    (hnew : ¬ n.Names new) : (n.renameDomain old new).renameDomain new old = n.rehint old := by
  have hfree : new ∉ n.blocks.labels := by
    intro hmem
    obtain ⟨b, hb, hlabel⟩ := List.mem_map.mp hmem
    exact hnew (.block hb hlabel)
  have hdeclared : (n.declared.map fun d => d.renameTo old new).map (fun d => d.renameTo new old) =
      n.declared.map (ClockDomain.rehint old) := by
    rw [List.map_map]
    exact List.map_congr_left fun d hd => ClockDomain.renameTo_back fun h => hnew (.declared hd h)
  have hresolved : (n.resolved.map fun d => d.renameTo old new).map (fun d => d.renameTo new old) =
      n.resolved.map (ClockDomain.rehint old) := by
    rw [List.map_map]
    exact List.map_congr_left fun d hd => ClockDomain.renameTo_back fun h => hnew (.resolved hd h)
  have hblocks : ((n.renameDomain old new).renameDomain new old).blocks = n.blocks := by
    rw [Node.blocks_renameDomain, Node.blocks_renameDomain, Blocks.rename_back hlabels hfree hne,
      List.map_map]
    refine map_eq_self fun b hb => congrArg (b.1, ·) (Block.renameDomain_back fun s hs hm => ?_)
    exact hnew (.statement hb hs hm)
  have hspecials : (n.specials.map fun s => s.renameDomain old new).map
      (fun s => s.renameDomain new old) = n.specials := by
    rw [List.map_map]
    refine map_eq_self fun s hs => Special.renameDomain_back ?_ ?_
    · rintro i rfl p hp hm
      exact hnew (.connection hs hp hm)
    · rintro m rfl p hp hm
      exact hnew (.port hs hp hm)
  have hdrivers : ((n.renameDomain old new).renameDomain new old).drivers = n.drivers := by
    refine List.map_map.trans (map_eq_self fun x hx => ?_)
    exact congrArg (x.1, ·) (renamed_back fun h => hnew (.driver hx h))
  calc (n.renameDomain old new).renameDomain new old
    _ = { n with
          declared := (n.declared.map fun d => d.renameTo old new).map fun d => d.renameTo new old
          resolved := (n.resolved.map fun d => d.renameTo old new).map fun d => d.renameTo new old
          blocks := ((n.renameDomain old new).renameDomain new old).blocks
          specials := (n.specials.map fun s => s.renameDomain old new).map
            fun s => s.renameDomain new old
          drivers := ((n.renameDomain old new).renameDomain new old).drivers } := rfl
    _ = n.rehint old := by
      rw [hdeclared, hresolved, hblocks, hspecials, hdrivers]
      rfl

end

/-! ## Trees -/

theorem Module.nodes_renameDomain (m : Module) (old new : String) :
    (m.renameDomain old new).nodes = m.nodes.map fun x => (x.1, x.2.renameDomain old new) := by
  rw [Module.nodes, Module.walk_renameDomain, Module.kind, Module.renameDomain_node]
  rfl

theorem Module.renameDomain_back {old new : String} {m : Module} (hne : old ≠ new)
    (h : m.All fun n => n.blocks.labels.Nodup ∧ ¬ n.Names new) :
    (m.renameDomain old new).renameDomain new old = m.mapNodes (Node.rehint old) := by
  induction m with
  | step node children ih =>
    obtain ⟨⟨hlabels, hnew⟩, hchildren⟩ := Module.all_iff.mp h
    rw [Module.renameDomain, Module.renameDomain, Module.mapNodes, Module.renameDomainAll_eq_map,
      Module.renameDomainAll_eq_map, Module.mapNodesIn_eq_map, List.map_map,
      Node.renameDomain_back hne hlabels hnew]
    refine congrArg (Module.mk _) (List.map_congr_left fun c hc => ?_)
    exact congrArg (c.1, ·) (ih c hc (hchildren c hc))

/-- Renaming a domain to another name, in a tree whose nodes have one block for each domain, leaves
the old name nowhere, puts the statements of the old name behind those of the new one, keeps every
other block in its place, and changes clocks and resets only; no value changes its shape or the
signals it drives. If the new name occurred nowhere, renaming back restores the tree but for the
hints of the signals of the domain. -/
theorem Module.renameDomain_complete {old new : String} (distinct : old ≠ new) {m : Module}
    (labels : ∀ x ∈ m.nodes, x.2.blocks.labels.Nodup) :
    m.NodeWise (Node.Reclocked old new) (m.renameDomain old new) ∧
      (∀ v v', Value.Reclocked old new v v' → v'.shape = v.shape ∧ v'.targets = v.targets) ∧
      ((∀ x ∈ m.nodes, ¬ x.2.Names new) →
        (m.renameDomain old new).renameDomain new old = m.mapNodes (Node.rehint old)) := by
  refine ⟨?_, fun v v' h => ?_, fun hnew => ?_⟩
  · rw [Module.NodeWise, Module.nodes_renameDomain]
    refine List.forall₂_map_right_iff.mpr (List.forall₂_same.mpr fun x hx => ⟨rfl, ?_⟩)
    exact Node.reclocked distinct (labels x hx)
  · rw [h.eq]
    exact ⟨v.shape_renameDomain old new, v.targets_renameDomain old new⟩
  · refine Module.renameDomain_back distinct (Module.all_iff_nodes.mpr fun x hx => ?_)
    exact ⟨labels x hx, hnew x hx⟩

/-- A node that has a domain name in every place there is for one, and a block of another domain. -/
def lane : Node :=
  let count := Value.signal (.named 4 "count" 4)
  let clocked := Value.signal (.named 5 "clocked" 4)
  let memory : Memory := { width := 8, depth := 4 }
  let row : Row := [.value (.clock "x"), .row [.value (.reset "x"), .value count]]
  { kind := "Lane"
    declared := [⟨"x", .named 0 "xtal" 1, none, false, false⟩]
    resolved := [⟨"x", .named 0 "xtal" 1, none, false, false⟩]
    blocks := [("x", [.assign count (.select row (.clock "x"))]),
      (combDomain, [.branch (.reset "x") [.assign clocked (.clock "y")] none]),
      ("y", [.assign (.signal (.named 6 "late" 4)) clocked])]
    specials := [.primitive ⟨"Buf", [⟨.input, "clk", .clock "x"⟩]⟩,
      .memory { memory with ports := [memory.newPort 10 { clockDomain := some "x" }] }]
    drivers := [(4, "x"), (5, combDomain), (6, "y")] }

def laneTree : Module := ⟨{ kind := "Top" }, [(some "a", ⟨lane, []⟩)]⟩

theorem Module.renameDomain_complete_lane :
    laneTree.NodeWise (Node.Reclocked "x" "y") (laneTree.renameDomain "x" "y") ∧
      (laneTree.renameDomain "x" "y").nodes.map (fun x => x.2.blocks.labels) =
        [[], [combDomain, "y"]] ∧
      (laneTree.renameDomain "x" "z").renameDomain "z" "x" =
        laneTree.mapNodes (Node.rehint "x") := by
  have labels : ∀ x ∈ laneTree.nodes, x.2.blocks.labels.Nodup := by decide
  have fresh : ∀ x ∈ laneTree.nodes, ¬ x.2.Names "z" := by decide
  obtain ⟨hjoined, -, -⟩ := Module.renameDomain_complete (by decide : "x" ≠ "y") labels
  obtain ⟨-, -, hback⟩ := Module.renameDomain_complete (by decide : "x" ≠ "z") labels
  exact ⟨hjoined, by decide, hback fresh⟩

end Gateware
