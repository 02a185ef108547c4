import Gateware.Proofs.Eval.Block
import Gateware.Proofs.Eval.State
import Gateware.Proofs.Walk

/-! # What evaluation reads and what statements leave alone

A value means the same in two states that agree on its signals, and a statement does the same if the
states it reads agree on its sources. A statement changes the entries of its targets only.
-/
namespace Gateware

/-! ## Reading -/

section

variable {a b : State}

theorem Value.evalAll_congr {vs : List Value} (h : ∀ v ∈ vs, v.eval a = v.eval b) :
    Value.evalAll a vs = Value.evalAll b vs := by
  induction vs with
  | nil => rfl
  | cons v vs ih =>
    rw [Value.evalAll, Value.evalAll, h v List.mem_cons_self,
      ih fun u hu => h u (List.mem_cons_of_mem _ hu)]

theorem Value.evalParts_congr {vs : List Value} (h : ∀ v ∈ vs, v.eval a = v.eval b) :
    Value.evalParts a vs = Value.evalParts b vs := by
  induction vs with
  | nil => rfl
  | cons v vs ih =>
    rw [Value.evalParts, Value.evalParts, h v List.mem_cons_self,
      ih fun u hu => h u (List.mem_cons_of_mem _ hu)]

theorem Row.evalAt_congr {row : Row} (h : ∀ v ∈ Row.leaves row, v.eval a = v.eval b) (i : Nat) :
    Row.evalAt a row i = Row.evalAt b row i := by
  rw [Row.evalAt_eq, Row.evalAt_eq]
  refine Option.bind_congr fun e he => ?_
  cases e with
  | value v => rw [Element.eval, Element.eval, h v (Row.mem_leaves (List.mem_of_getElem? he))]
  | row es => rfl

/-- A value means the same in states that agree on its signals. -/
theorem Value.eval_congr {v : Value} (h : ∀ s ∈ v.signals, a.get s = b.get s) :
    v.eval a = v.eval b := by
  induction v with
  | const c => rfl
  | signal s => rw [Value.eval, Value.eval, h s (List.mem_singleton.mpr rfl)]
  | clock d | reset d => rfl
  | op o vs ih =>
    have hvs : ∀ v ∈ vs, v.eval a = v.eval b := fun v hv => ih v hv fun s hs => by
      refine h s ?_
      rw [Value.signals, Value.allSignals_eq]
      exact List.mem_flatMap_of_mem hv hs
    rw [Value.eval, Value.eval, Value.evalAll_congr hvs]
  | slice v start stop ih => rw [Value.eval, Value.eval, ih h]
  | concat vs ih =>
    have hvs : ∀ v ∈ vs, v.eval a = v.eval b := fun v hv => ih v hv fun s hs => by
      refine h s ?_
      rw [Value.signals, Value.allSignals_eq]
      exact List.mem_flatMap_of_mem hv hs
    rw [Value.eval, Value.eval, Value.evalParts_congr hvs]
  | repl v count ih => rw [Value.eval, Value.eval, ih h]
  | select row index ihr ihi =>
    have hrow : ∀ v ∈ Row.leaves row, v.eval a = v.eval b := fun v hv => ihr v hv fun s hs => by
      refine h s (List.mem_append_left _ ?_)
      rw [Row.signals_eq]
      exact List.mem_flatMap_of_mem hv hs
    have hindex := ihi fun s hs => h s (List.mem_append_right _ hs)
    simp only [Value.eval, hindex, Row.evalAt_congr hrow]

theorem Value.number_congr {v : Value} (h : ∀ s ∈ v.signals, a.get s = b.get s) :
    v.number a = v.number b := by
  rw [Value.number, Value.number, Value.eval_congr h]

end

section

variable {read read' : State}

theorem Value.storeParts_congr {vs : List Value}
    (h : ∀ v ∈ vs, ∀ bits write, v.store read bits write = v.store read' bits write)
    (bits : Nat) (write : State) :
    Value.storeParts read vs bits write = Value.storeParts read' vs bits write := by
  induction vs generalizing bits write with
  | nil => rfl
  | cons v vs ih =>
    have hrest : Value.storeParts read vs (bits >>> v.width) =
        Value.storeParts read' vs (bits >>> v.width) :=
      funext fun next => ih (fun u hu => h u (List.mem_cons_of_mem _ hu)) _ next
    rw [Value.storeParts, Value.storeParts, h v List.mem_cons_self, hrest]

/-- Of the state that is read, a store looks at the indices of its target only. -/
theorem Value.store_congr {t : Value} (h : ∀ s ∈ t.addressSignals, read.get s = read'.get s)
    (bits : Nat) (write : State) : t.store read bits write = t.store read' bits write := by
  induction t generalizing bits write with
  | const c | clock d | reset d | op o vs _ | repl v count _ | signal s => rfl
  | slice v start stop ih =>
    rw [Value.store, Value.store]
    congr 1
    funext current
    exact ih h _ _
  | concat vs ih =>
    refine Value.storeParts_congr (fun v hv => ih v hv fun s hs => h s ?_) bits write
    rw [Value.addressSignals, Value.allAddressSignals_eq]
    exact List.mem_flatMap_of_mem hv hs
  | select row index ihr _ =>
    have hindex : index.number read = index.number read' :=
      Value.number_congr fun s hs => h s (List.mem_append_left _ hs)
    have hrow : ∀ i, Row.storeAt read row i bits write = Row.storeAt read' row i bits write := by
      intro i
      rw [Row.storeAt_eq, Row.storeAt_eq]
      refine Option.bind_congr fun e he => ?_
      cases e with
      | row es => rfl
      | value u =>
        have hu := Row.mem_leaves (List.mem_of_getElem? he)
        rw [Element.store, Element.store, ihr u hu fun s hs => h s ?_]
        rw [Value.addressSignals, Row.addressSignals_eq]
        exact List.mem_append_right _ (List.mem_flatMap_of_mem hu hs)
    simp only [Value.store, hindex, hrow]

theorem Block.execute_congr_of {block : Block}
    (h : ∀ s ∈ block, ∀ write, s.execute read write = s.execute read' write) (write : State) :
    Block.execute read block write = Block.execute read' block write := by
  induction block generalizing write with
  | nil => rfl
  | cons s rest ih =>
    have hrest : Block.execute read rest = Block.execute read' rest :=
      funext fun next => ih (fun t ht => h t (List.mem_cons_of_mem _ ht)) next
    rw [Block.execute, Block.execute, h s List.mem_cons_self, hrest]

theorem Case.execute_congr_of {cases : List Case} {bits width : Nat}
    (h : ∀ c ∈ cases, ∀ s ∈ c.body, ∀ write, s.execute read write = s.execute read' write)
    (write : State) :
    Case.execute read bits width cases write = Case.execute read' bits width cases write := by
  induction cases with
  | nil => rfl
  | cons c rest ih =>
    obtain ⟨patterns, body⟩ := c
    have hbody : Block.execute read body write = Block.execute read' body write :=
      Block.execute_congr_of (h _ List.mem_cons_self) write
    rw [Case.execute, Case.execute, hbody, ih fun c hc => h c (List.mem_cons_of_mem _ hc)]

theorem Statement.execute_congr {s : Statement} (h : ∀ r ∈ s.sources, read.get r = read'.get r)
    (write : State) : s.execute read write = s.execute read' write := by
  induction s generalizing write with
  | assign target source =>
    have hsource : source.number read = source.number read' :=
      Value.number_congr fun r hr => h r (List.mem_append_right _ hr)
    have htarget : ∀ bits, target.store read bits write = target.store read' bits write :=
      fun bits => Value.store_congr (fun r hr => h r (List.mem_append_left _ hr)) bits write
    simp only [Statement.execute, hsource, htarget]
  | branch condition taken otherwise iht iho =>
    have hcondition : condition.eval read = condition.eval read' :=
      Value.eval_congr fun r hr => h r (List.mem_append_left _ (List.mem_append_left _ hr))
    have htaken : Block.execute read taken write = Block.execute read' taken write :=
      Block.execute_congr_of (fun s hs => iht s hs fun r hr =>
        h r (Statement.mem_sources_taken hs hr)) write
    have hotherwise : Block.executeOtherwise read otherwise write =
        Block.executeOtherwise read' otherwise write := by
      cases otherwise with
      | none => rfl
      | some body =>
        exact Block.execute_congr_of (fun s hs => iho body rfl s hs fun r hr =>
          h r (Statement.mem_sources_otherwise hs hr)) write
    simp only [Statement.execute, hcondition, htaken, hotherwise]
  | switch selector cases ih =>
    have hselector : selector.eval read = selector.eval read' :=
      Value.eval_congr fun r hr => h r (List.mem_append_left _ hr)
    have hcases : ∀ bits, Case.execute read bits selector.width cases write =
        Case.execute read' bits selector.width cases write := fun bits =>
      Case.execute_congr_of (fun c hc s hs => ih c hc s hs fun r hr =>
        h r (Statement.mem_sources_case hc hs hr)) write
    simp only [Statement.execute, hselector, hcases]

/-- Of the state that is read, a block looks at its sources only. -/
theorem Block.execute_congr {block : Block}
    (h : ∀ r ∈ Block.sources block, read.get r = read'.get r) (write : State) :
    Block.execute read block write = Block.execute read' block write :=
  Block.execute_congr_of (fun _ hs => Statement.execute_congr fun r hr =>
    h r (Block.mem_sources hs hr)) write

end

/-! ## Writing -/

section

variable {read write out : State}

theorem Value.storeParts_frame {vs : List Value} {i bits : Nat}
    (h : ∀ v ∈ vs, ∀ bits write out, v.store read bits write = .ok out →
      write.entry i = out.entry i)
    (he : Value.storeParts read vs bits write = .ok out) : write.entry i = out.entry i := by
  induction vs generalizing bits write with
  | nil => rw [Except.ok.inj he]
  | cons v vs ih =>
    obtain ⟨next, hv, hvs⟩ := Value.storeParts_cons_eq_ok.mp he
    exact (h v List.mem_cons_self _ _ _ hv).trans
      (ih (fun u hu => h u (List.mem_cons_of_mem _ hu)) hvs)

/-- A store leaves the entries of all signals but its targets alone. -/
theorem Value.store_frame {t : Value} {i bits : Nat} (hi : ∀ s ∈ t.targets, s.id ≠ i)
    (he : t.store read bits write = .ok out) : write.entry i = out.entry i := by
  induction t generalizing bits write out with
  | const c | clock d | reset d | op o vs _ | repl v count _ => cases he
  | signal s =>
    cases he
    rw [State.entry_setBits, if_neg (hi s (List.mem_singleton.mpr rfl))]
  | slice v start stop ih =>
    obtain ⟨_, -, he⟩ := Value.store_slice_eq_ok.mp he
    exact ih hi he
  | concat vs ih =>
    refine Value.storeParts_frame (fun v hv bits write out h => ih v hv (fun s hs => hi s ?_) h) he
    rw [Value.targets, Value.allTargets_eq]
    exact List.mem_flatMap_of_mem hv hs
  | select row index ih _ =>
    obtain ⟨n, -, u, hu, he⟩ := Value.store_select_eq_ok.mp he
    have hmem := Row.mem_leaves (List.mem_of_getElem? hu)
    refine ih u hmem (fun s hs => hi s ?_) he
    rw [Value.targets, Row.targets_eq]
    exact List.mem_flatMap_of_mem hmem hs

/-- A statement leaves the entry alone, whatever it reads and writes. -/
def Statement.Leaves (i : Nat) (s : Statement) : Prop :=
  ∀ read write out, s.execute read write = .ok out → write.entry i = out.entry i

theorem Block.execute_leaves {block : Block} {i : Nat} (h : ∀ s ∈ block, s.Leaves i)
    (he : Block.execute read block write = .ok out) : write.entry i = out.entry i := by
  induction block generalizing write with
  | nil => rw [Except.ok.inj he]
  | cons s rest ih =>
    obtain ⟨next, hs, hrest⟩ := Block.execute_cons_eq_ok.mp he
    exact (h s List.mem_cons_self _ _ _ hs).trans
      (ih (fun t ht => h t (List.mem_cons_of_mem _ ht)) hrest)

theorem Case.execute_leaves {cases : List Case} {i bits width : Nat}
    (h : ∀ c ∈ cases, ∀ s ∈ c.body, s.Leaves i)
    (he : Case.execute read bits width cases write = .ok out) : write.entry i = out.entry i := by
  induction cases with
  | nil => rw [Except.ok.inj he]
  | cons c rest ih =>
    obtain ⟨patterns, body⟩ := c
    rw [Case.execute] at he
    split at he
    · exact Block.execute_leaves (h _ List.mem_cons_self) he
    · exact ih (fun c hc => h c (List.mem_cons_of_mem _ hc)) he

theorem Statement.leaves_of_targets {s : Statement} {i : Nat} (hi : ∀ t ∈ s.targets, t.id ≠ i) :
    s.Leaves i := by
  induction s with
  | assign target source =>
    intro read write out he
    obtain ⟨n, -, he⟩ := Statement.execute_assign_eq_ok.mp he
    exact Value.store_frame hi he
  | branch condition taken otherwise iht iho =>
    intro read write out he
    obtain ⟨bits, -, he⟩ := Statement.execute_branch_eq_ok.mp he
    split at he
    · exact Block.execute_leaves
        (fun s hs => iht s hs fun t ht => hi t (Statement.mem_targets_taken hs ht)) he
    · cases otherwise with
      | none => rw [Except.ok.inj he]
      | some body =>
        exact Block.execute_leaves (fun s hs => iho body rfl s hs
          fun t ht => hi t (Statement.mem_targets_otherwise hs ht)) he
  | switch selector cases ih =>
    intro read write out he
    obtain ⟨bits, -, he⟩ := Statement.execute_switch_eq_ok.mp he
    exact Case.execute_leaves (fun c hc s hs => ih c hc s hs
      fun t ht => hi t (Statement.mem_targets_case hc hs ht)) he

/-- A block leaves the entries of all signals but its targets alone. -/
theorem Block.execute_frame {block : Block} {i : Nat} (hi : ∀ t ∈ Block.targets block, t.id ≠ i)
    (he : Block.execute read block write = .ok out) : write.entry i = out.entry i := by
  exact Block.execute_leaves (fun s hs => Statement.leaves_of_targets
    fun t ht => hi t (Block.mem_targets hs ht)) he

end

end Gateware
