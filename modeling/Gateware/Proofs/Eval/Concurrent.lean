import Gateware.Proofs.Eval.Latch

/-! # Statements side by side

Statements that drive different signals can change places. What a statement reads does not change
while a block runs, so whether it succeeds does not depend on what was written before it, and what
it writes depends on nothing but the signals that it drives. A block may therefore be reordered as
long as the statements that share a driven signal keep their order.
-/
namespace Gateware

/-! ## Success does not depend on what is written -/

theorem Value.storeParts_each {read write out : State} {vs : List Value} {bits : Nat}
    (h : Value.storeParts read vs bits write = .ok out) :
    ∀ v ∈ vs, ∃ bits write out, v.store read bits write = .ok out := by
  induction vs generalizing bits write with
  | nil => exact nofun
  | cons v vs ih =>
    obtain ⟨next, hv, hvs⟩ := Value.storeParts_cons_eq_ok.mp h
    exact List.forall_mem_cons.mpr ⟨⟨_, _, _, hv⟩, ih hvs⟩

/-- What is stored in is a place, if it has no selections. -/
theorem Value.assignable_of_store {read write out : State} {v : Value} {bits : Nat}
    (hs : v.selects = false) (h : v.store read bits write = .ok out) : v.assignable = true := by
  induction v generalizing bits write out with
  | const c | op o vs _ | repl v count _ => cases h
  | signal s | clock d | reset d => rfl
  | slice v start stop ih =>
    obtain ⟨_, -, h⟩ := Value.store_slice_eq_ok.mp h
    exact ih hs h
  | concat vs ih =>
    refine Value.allAssignable_iff.mpr fun v hv => ?_
    obtain ⟨_, _, _, hstore⟩ := Value.storeParts_each h v hv
    exact ih v hv (Value.anySelects_eq_false.mp hs v hv) hstore
  | select row index _ _ => cases hs

theorem Value.evalParts_succeeds {a b : State} {vs : List Value}
    (h : ∀ v ∈ vs, ∀ x, v.eval a = .ok x → ∃ y, v.eval b = .ok y) {x : Nat}
    (hx : Value.evalParts a vs = .ok x) : ∃ y, Value.evalParts b vs = .ok y := by
  induction vs generalizing x with
  | nil => exact ⟨0, rfl⟩
  | cons v vs ih =>
    obtain ⟨low, hlow, high, hhigh, -⟩ := Value.evalParts_cons_eq_ok.mp hx
    obtain ⟨low', hlow'⟩ := h v List.mem_cons_self low hlow
    obtain ⟨high', hhigh'⟩ := ih (fun u hu => h u (List.mem_cons_of_mem _ hu)) hhigh
    exact ⟨_, Value.evalParts_cons_eq_ok.mpr ⟨low', hlow', high', hhigh', rfl⟩⟩

/-- A place without selections has bits in every state if it has in one: it can only be too wide. -/
theorem Value.eval_succeeds {a b : State} {v : Value} (hs : v.selects = false)
    (ha : v.assignable = true) {x : Nat} (hx : v.eval a = .ok x) : ∃ y, v.eval b = .ok y := by
  induction v generalizing x with
  | const c | op o vs _ | repl v count _ => cases ha
  | signal s => exact ⟨_, Value.eval_signal_eq_ok.mpr ⟨(Value.eval_signal_eq_ok.mp hx).1, rfl⟩⟩
  | clock d | reset d => simp at hx
  | slice v start stop ih =>
    obtain ⟨hw, inner, hin, -⟩ := Value.eval_slice_eq_ok.mp hx
    obtain ⟨inner', hin'⟩ := ih hs ha hin
    exact ⟨_, Value.eval_slice_eq_ok.mpr ⟨hw, inner', hin', rfl⟩⟩
  | concat vs ih =>
    obtain ⟨hw, inner, hin, -⟩ := Value.eval_concat_eq_ok.mp hx
    have hvs := Value.anySelects_eq_false.mp hs
    have hplaces := Value.allAssignable_iff.mp ha
    obtain ⟨inner', hin'⟩ :=
      Value.evalParts_succeeds (fun v hv x => ih v hv (hvs v hv) (hplaces v hv)) hin
    exact ⟨_, Value.eval_concat_eq_ok.mpr ⟨hw, inner', hin', rfl⟩⟩
  | select row index _ _ => cases hs

section

variable {read : State}

theorem Value.storeParts_succeeds {vs : List Value}
    (h : ∀ v ∈ vs, ∀ bits write out, v.store read bits write = .ok out →
      ∀ bits' write', ∃ out', v.store read bits' write' = .ok out')
    {bits : Nat} {write out : State} (he : Value.storeParts read vs bits write = .ok out)
    (bits' : Nat) (write' : State) : ∃ out', Value.storeParts read vs bits' write' = .ok out' := by
  induction vs generalizing bits write bits' write' with
  | nil => exact ⟨write', rfl⟩
  | cons v vs ih =>
    obtain ⟨next, hv, hvs⟩ := Value.storeParts_cons_eq_ok.mp he
    obtain ⟨next', hv'⟩ := h v List.mem_cons_self _ _ _ hv (Bits.truncate bits' v.width) write'
    obtain ⟨out', hvs'⟩ :=
      ih (fun u hu => h u (List.mem_cons_of_mem _ hu)) hvs (bits' >>> v.width) next'
    exact ⟨out', Value.storeParts_cons_eq_ok.mpr ⟨next', hv', hvs'⟩⟩

/-- A store that succeeds once succeeds with any bits and on any written state. -/
theorem Value.store_succeeds {t : Value} (hp : t.plainSlices = true) {bits : Nat}
    {write out : State} (h : t.store read bits write = .ok out) (bits' : Nat) (write' : State) :
    ∃ out', t.store read bits' write' = .ok out' := by
  induction t generalizing bits write out bits' write' with
  | const c | clock d | reset d | op o vs _ | repl v count _ => cases h
  | signal s => exact ⟨_, rfl⟩
  | slice v start stop ih =>
    obtain ⟨current, hc, h⟩ := Value.store_slice_eq_ok.mp h
    have hs : v.selects = false := by simpa [Value.plainSlices] using hp
    obtain ⟨current', hc'⟩ :=
      Value.eval_succeeds (b := write') hs (Value.assignable_of_store hs h) hc
    obtain ⟨out', h'⟩ :=
      ih (Value.plainSlices_of_selects hs) h (mergeBits current' bits' start stop) write'
    exact ⟨out', Value.store_slice_eq_ok.mpr ⟨current', hc', h'⟩⟩
  | concat vs ih =>
    refine Value.storeParts_succeeds (fun v hv bits write out hstore => ?_) h bits' write'
    exact ih v hv (Value.allPlainSlices_iff.mp hp v hv) hstore
  | select row index ihr _ =>
    obtain ⟨n, hn, u, hu, h⟩ := Value.store_select_eq_ok.mp h
    have hmem := Row.mem_leaves (List.mem_of_getElem? hu)
    obtain ⟨out', h'⟩ := ihr u hmem (Row.plainSlices_leaves hp u hmem) h bits' write'
    exact ⟨out', Value.store_select_eq_ok.mpr ⟨n, hn, u, hu, h'⟩⟩

/-- Whether the statement succeeds does not depend on the written state. -/
def Statement.Steady (read : State) (s : Statement) : Prop :=
  ∀ write out write', s.execute read write = .ok out → ∃ out', s.execute read write' = .ok out'

theorem Block.execute_steady_of {block : Block} (h : ∀ s ∈ block, s.Steady read)
    {write out : State} (he : Block.execute read block write = .ok out) (write' : State) :
    ∃ out', Block.execute read block write' = .ok out' := by
  induction block generalizing write write' with
  | nil => exact ⟨write', rfl⟩
  | cons s rest ih =>
    obtain ⟨next, hs, hrest⟩ := Block.execute_cons_eq_ok.mp he
    obtain ⟨next', hs'⟩ := h s List.mem_cons_self _ _ write' hs
    obtain ⟨out', hrest'⟩ := ih (fun t ht => h t (List.mem_cons_of_mem _ ht)) hrest next'
    exact ⟨out', Block.execute_cons_eq_ok.mpr ⟨next', hs', hrest'⟩⟩

theorem Case.execute_steady_of {cases : List Case} {bits width : Nat}
    (h : ∀ c ∈ cases, ∀ s ∈ c.body, s.Steady read) {write out : State}
    (he : Case.execute read bits width cases write = .ok out) (write' : State) :
    ∃ out', Case.execute read bits width cases write' = .ok out' := by
  induction cases with
  | nil => exact ⟨write', rfl⟩
  | cons c rest ih =>
    obtain ⟨patterns, body⟩ := c
    rw [Case.execute] at he ⊢
    split
    · rename_i hfits
      rw [if_pos hfits] at he
      exact Block.execute_steady_of (h _ List.mem_cons_self) he write'
    · rename_i hfits
      rw [if_neg hfits] at he
      exact ih (fun c hc => h c (List.mem_cons_of_mem _ hc)) he

def Statement.PlainTargets : Statement → Prop :=
  Statement.Every (fun target _ => target.plainSlices = true) (fun _ => True)

theorem Statement.PlainTargets.steady {s : Statement} (hp : s.PlainTargets) : s.Steady read := by
  induction s with
  | assign target source =>
    intro write out write' h
    obtain ⟨n, hn, h⟩ := Statement.execute_assign_eq_ok.mp h
    obtain ⟨out', h'⟩ := Value.store_succeeds hp h (Bits.ofInt n) write'
    exact ⟨out', Statement.execute_assign_eq_ok.mpr ⟨n, hn, h'⟩⟩
  | branch condition taken otherwise iht iho =>
    intro write out write' h
    obtain ⟨bits, hbits, h⟩ := Statement.execute_branch_eq_ok.mp h
    suffices hbody : ∃ out', (if bits ≠ 0 then Block.execute read taken write'
        else Block.executeOtherwise read otherwise write') = .ok out' by
      obtain ⟨out', h'⟩ := hbody
      exact ⟨out', Statement.execute_branch_eq_ok.mpr ⟨bits, hbits, h'⟩⟩
    split at h
    · rename_i h0
      rw [if_pos h0]
      exact Block.execute_steady_of (fun s hs => iht s hs (Block.every_iff.mp hp.2.1 s hs)) h write'
    · rename_i h0
      rw [if_neg h0]
      cases otherwise with
      | none => exact ⟨write', rfl⟩
      | some body =>
        exact Block.execute_steady_of
          (fun s hs => iho body rfl s hs (Block.every_iff.mp hp.2.2 s hs)) h write'
  | switch selector cases ih =>
    intro write out write' h
    obtain ⟨bits, hbits, h⟩ := Statement.execute_switch_eq_ok.mp h
    obtain ⟨out', h'⟩ := Case.execute_steady_of (fun c hc s hs => ih c hc s hs
      (Block.every_iff.mp (Case.every_iff.mp hp.2 c hc) s hs)) h write'
    exact ⟨out', Statement.execute_switch_eq_ok.mpr ⟨bits, hbits, h'⟩⟩

end

/-! ## Two statements -/

/-- The statements drive no signal in common. -/
def Statement.Apart (s t : Statement) : Prop := ∀ x ∈ s.targets, ∀ y ∈ t.targets, x.id ≠ y.id

instance (s t : Statement) : Decidable (s.Apart t) :=
  inferInstanceAs (Decidable (∀ x ∈ s.targets, ∀ y ∈ t.targets, x.id ≠ y.id))

theorem Statement.Apart.symm {s t : Statement} (h : s.Apart t) : t.Apart s :=
  fun y hy x hx => (h x hx y hy).symm

theorem Statement.everyFlow_of {flow : Signal → Signal → Prop} (h : ∀ r t, flow r t)
    (s : Statement) : s.EveryFlow flow := by
  induction s with
  | assign target source => exact fun r _ t _ => h r t
  | branch condition taken otherwise iht iho =>
    refine ⟨fun r _ t _ => h r t, Block.everyFlow_iff.mpr iht, ?_⟩
    cases otherwise with
    | none => trivial
    | some body => exact Block.everyFlow_iff.mpr (iho body rfl)
  | switch selector cases ih =>
    exact ⟨fun r _ t _ => h r t, Case.everyFlow_iff.mpr fun c hc =>
      Block.everyFlow_iff.mpr (ih c hc)⟩

/-- Run on two written states that agree on some signals, a statement ends in states that do. -/
theorem Statement.PlainTargets.keepsTogether {s : Statement} (hp : s.PlainTargets)
    (on : Nat → Prop) (read : State) : s.KeepsTogether on read read := by
  have hflow : s.EveryFlow fun _ _ => True := Statement.everyFlow_of (fun _ _ => trivial) s
  have hread : read.AgreeOn (fun _ => True) read := State.AgreeOn.refl _ read
  exact @Statement.keepsTogether _ (fun _ => True) _ on read read (fun _ _ _ _ _ => trivial) hread
    s hp hflow fun _ _ => trivial

section

variable {read write mid out : State} {s t : Statement}

/-- Two statements that drive different signals have the same effect in the other order. -/
theorem Statement.execute_swap (hs : s.PlainTargets) (ht : t.PlainTargets) (apart : s.Apart t)
    (hmid : s.execute read write = .ok mid) (hout : t.execute read mid = .ok out) :
    ∃ mid', t.execute read write = .ok mid' ∧ s.execute read mid' = .ok out := by
  obtain ⟨mid', hmid'⟩ := ht.steady _ _ write hout
  obtain ⟨out', hout'⟩ := hs.steady _ _ mid' hmid
  have hleave : ∀ i, (∃ x ∈ s.targets, x.id = i) → t.Leaves i := by
    rintro i ⟨x, hx, rfl⟩
    exact Statement.leaves_of_targets fun y hy hid => apart x hx y hy hid.symm
  have hleave' : ∀ i, (¬ ∃ x ∈ s.targets, x.id = i) → s.Leaves i := fun i hi =>
    Statement.leaves_of_targets fun x hx hid => hi ⟨x, hx, hid⟩
  -- on what the first statement drives both runs end as it left them, elsewhere as the second did
  have hdriven : out'.AgreeOn (fun i => ∃ x ∈ s.targets, x.id = i) mid :=
    hs.keepsTogether _ read _ _ _ _ (fun i hi => (hleave i hi _ _ _ hmid').symm) hout' hmid
  have hothers : out.AgreeOn (fun i => ¬ ∃ x ∈ s.targets, x.id = i) mid' :=
    ht.keepsTogether _ read _ _ _ _ (fun i hi => (hleave' i hi _ _ _ hmid).symm) hout hmid'
  have hsame : out'.AgreeOn (fun _ => True) out := by
    intro i _
    by_cases hi : ∃ x ∈ s.targets, x.id = i
    · exact (hdriven i hi).trans (hleave i hi _ _ _ hout)
    · exact (hleave' i hi _ _ _ hout').symm.trans (hothers i hi).symm
  exact ⟨mid', hmid', (hsame.eq fun _ => trivial) ▸ hout'⟩

end

/-! ## Reordering a block -/

theorem toOption_eq_some {α : Type} {x : Except EvalError α} {a : α} :
    x.toOption = some a ↔ x = .ok a := by
  cases x with
  | error e => simp [Except.toOption]
  | ok b => simp [Except.toOption]

theorem toOption_bind {α β : Type} (x : Except EvalError α) (f : α → Except EvalError β) :
    (x >>= f).toOption = x.toOption.bind fun a => (f a).toOption := by
  cases x with
  | error e => rfl
  | ok a => rfl

namespace Block

def outcome (read : State) (block : Block) (write : State) : Option State :=
  (Block.execute read block write).toOption

theorem outcome_cons (read : State) (s : Statement) (rest : Block) (write : State) :
    outcome read (s :: rest) write =
      (s.execute read write).toOption.bind (outcome read rest) := by
  rw [outcome, Block.execute, toOption_bind]
  rfl

theorem outcome_cons_congr {read : State} {s : Statement} {a b : Block}
    (h : ∀ write, outcome read a write = outcome read b write) (write : State) :
    outcome read (s :: a) write = outcome read (s :: b) write := by
  rw [outcome_cons, outcome_cons, funext h]

theorem outcome_swap {read : State} {s t : Statement} (hs : s.PlainTargets) (ht : t.PlainTargets)
    (apart : s.Apart t) (rest : Block) (write : State) :
    outcome read (s :: t :: rest) write = outcome read (t :: s :: rest) write := by
  have hoption : ∀ {s t : Statement}, s.PlainTargets → t.PlainTargets → s.Apart t →
      ∀ out, outcome read (s :: t :: rest) write = some out →
        outcome read (t :: s :: rest) write = some out := by
    intro s t hs ht apart out h
    obtain ⟨mid, hmid, next, hnext, hrest⟩ : ∃ mid, s.execute read write = .ok mid ∧
        ∃ next, t.execute read mid = .ok next ∧ outcome read rest next = some out := by
      simpa only [outcome_cons, Option.bind_eq_some_iff, toOption_eq_some] using h
    obtain ⟨mid', hmid', hnext'⟩ := Statement.execute_swap hs ht apart hmid hnext
    simp only [outcome_cons, Option.bind_eq_some_iff, toOption_eq_some]
    exact ⟨mid', hmid', next, hnext', hrest⟩
  exact Option.ext fun out => ⟨hoption hs ht apart out, hoption ht hs apart.symm out⟩

/-- A statement moves behind others with which it shares no driven signal. -/
theorem outcome_move {read : State} {s : Statement} (hs : s.PlainTargets) {before after : Block}
    (plain : Block.PlainTargets before) (apart : ∀ t ∈ before, s.Apart t) (write : State) :
    outcome read (s :: (before ++ after)) write = outcome read (before ++ s :: after) write := by
  induction before generalizing write with
  | nil => rfl
  | cons t rest ih =>
    calc outcome read (s :: t :: (rest ++ after)) write
        = outcome read (t :: s :: (rest ++ after)) write :=
          outcome_swap hs plain.1 (apart t List.mem_cons_self) _ write
      _ = outcome read (t :: (rest ++ s :: after)) write :=
          outcome_cons_congr (ih plain.2 fun u hu => apart u (List.mem_cons_of_mem _ hu)) write

/-- The second block lists the statements of the first in another order, which keeps that of any two
statements that share a driven signal. -/
def Reordered (a b : Block) : Prop :=
  ∃ order : List (Fin a.length), order.Perm (List.finRange a.length) ∧ b = order.map a.get ∧
    order.Pairwise fun i j => ¬ (a.get i).Apart (a.get j) → i < j

/-- The same, built up from the end: each statement is put in behind others with which it shares no
driven signal. -/
inductive Shuffled : Block → Block → Prop where
  | nil : Shuffled [] []
  | insert {s : Statement} {rest before after : Block} (apart : ∀ t ∈ before, s.Apart t)
      (h : Shuffled rest (before ++ after)) : Shuffled (s :: rest) (before ++ s :: after)

/-- The induction is on the positions in their old order, the first of which may stand anywhere in
the new one. -/
theorem shuffled_of_perm {n : Nat} {f : Fin n → Statement} {old new : List (Fin n)}
    (perm : new.Perm old) (sorted : old.Pairwise (· < ·))
    (kept : new.Pairwise fun i j => ¬ (f i).Apart (f j) → i < j) :
    Shuffled (old.map f) (new.map f) := by
  induction old generalizing new with
  | nil =>
    rw [perm.eq_nil]
    exact .nil
  | cons i rest ih =>
    obtain ⟨hfirst, hrest⟩ := List.pairwise_cons.mp sorted
    obtain ⟨before, after, rfl⟩ := List.append_of_mem (perm.mem_iff.mpr List.mem_cons_self)
    have hperm : (before ++ after).Perm rest :=
      (List.perm_cons i).mp (List.perm_middle.symm.trans perm)
    obtain ⟨-, -, hcross⟩ := List.pairwise_append.mp kept
    rw [List.map_append, List.map_cons, List.map_cons]
    refine .insert (List.forall_mem_map.mpr fun j hj => ?_) ?_
    · -- a statement that shares a signal would have to come earlier than the first
      by_contra hshared
      have hlt := hfirst j (hperm.mem_iff.mp (List.mem_append_left _ hj))
      exact lt_asymm hlt (hcross j hj i List.mem_cons_self fun h => hshared h.symm)
    · rw [← List.map_append]
      exact ih hperm hrest (kept.sublist ((List.sublist_cons_self i after).append_left before))

theorem Reordered.shuffled {a b : Block} (h : Reordered a b) : Shuffled a b := by
  obtain ⟨order, perm, rfl, kept⟩ := h
  have hall := shuffled_of_perm (f := a.get) perm (List.pairwise_lt_finRange _) kept
  rwa [List.map_get_finRange] at hall

namespace Shuffled

variable {a b : Block}

theorem perm (h : Shuffled a b) : a.Perm b := by
  induction h with
  | nil => exact .nil
  | insert _ _ ih => exact (ih.cons _).trans List.perm_middle.symm

theorem outcome_eq (h : Shuffled a b) (plain : Block.PlainTargets a) (read write : State) :
    outcome read a write = outcome read b write := by
  induction h generalizing write with
  | nil => rfl
  | @insert s rest before after apart h ih =>
    have hbefore : Block.PlainTargets before := Block.every_iff.mpr fun t ht =>
      Block.every_iff.mp plain.2 t (h.perm.mem_iff.mpr (List.mem_append_left _ ht))
    calc outcome read (s :: rest) write
        = outcome read (s :: (before ++ after)) write := outcome_cons_congr (ih plain.2) write
      _ = outcome read (before ++ s :: after) write := outcome_move plain.1 hbefore apart write

/-- The first mention of a signal among the targets is the same. -/
theorem find?_targets (h : Shuffled a b) (i : Nat) :
    (Block.targets a).find? (fun s => s.id == i) =
      (Block.targets b).find? (fun s => s.id == i) := by
  induction h with
  | nil => rfl
  | @insert s rest before after apart h ih =>
    simp only [Block.targets_eq, List.flatMap_cons, List.flatMap_append, List.find?_append] at ih ⊢
    rw [ih]
    cases hs : s.targets.find? (fun s => s.id == i) with
    | none => rfl
    | some x =>
      have hx : x.id = i := by simpa using List.find?_some hs
      have hbefore : (before.flatMap Statement.targets).find? (fun s => s.id == i) = none := by
        refine List.find?_eq_none.mpr fun y hy hid => ?_
        obtain ⟨t, ht, hy⟩ := List.mem_flatMap.mp hy
        exact apart t ht x (List.mem_of_find?_eq_some hs) y hy (hx.trans (eq_of_beq hid).symm)
      rw [hbefore]
      rfl

end Shuffled

end Block

/-! ## Reset values -/

theorem mem_keepFirst {α β : Type} [DecidableEq β] {key : α → β} {seen : List β} {as : List α}
    {a : α} : a ∈ keepFirst key seen as ↔
      key a ∉ seen ∧ as.find? (fun b => key b == key a) = some a := by
  induction as generalizing seen with
  | nil => simp [keepFirst]
  | cons b rest ih =>
    rw [keepFirst, List.find?_cons]
    by_cases hkey : key b = key a
    · by_cases hseen : key b ∈ seen
      · simp [hseen, ih, ← hkey]
      · simp [hseen, ih, ← hkey, eq_comm]
    · have hmatch : (key b == key a) = false := beq_eq_false_iff_ne.mpr hkey
      by_cases hseen : key b ∈ seen
      · simp [hseen, hmatch, ih]
      · have hne : a ≠ b := fun h => hkey (h ▸ rfl)
        simp [hseen, hmatch, ih, hne, Ne.symm hkey]

theorem State.setBits_comm {s t : Signal} (h : s.id ≠ t.id) (st : State) (x y : Nat) :
    (st.setBits s x).setBits t y = (st.setBits t y).setBits s x := by
  have hall : ((st.setBits s x).setBits t y).AgreeOn (fun _ => True)
      ((st.setBits t y).setBits s x) := by
    intro i _
    simp only [State.entry_setBits]
    by_cases hs : s.id = i
    · have ht : t.id ≠ i := fun ht => h (hs.trans ht.symm)
      simp [hs, ht]
    · simp [hs]
  exact hall.eq fun _ => trivial

namespace Block

variable {a b : Block}

theorem Shuffled.drives_perm (h : Shuffled a b) : (Block.drives a).Perm (Block.drives b) := by
  have hnodup : ∀ block, (Block.drives block).Nodup := fun block =>
    (nodup_keys_keepFirst Signal.id [] (Block.targets block)).of_map
  refine (List.perm_ext_iff_of_nodup (hnodup a) (hnodup b)).mpr fun s => ?_
  unfold Block.drives distinctSignals
  rw [mem_keepFirst, mem_keepFirst, h.find?_targets]

/-- Both blocks start from the same reset values. -/
theorem Shuffled.resetAll_eq (h : Shuffled a b) (st : State) :
    st.resetAll (Block.drives a) = st.resetAll (Block.drives b) := by
  refine h.drives_perm.foldl_eq' (fun s hs t ht st => ?_) st
  by_cases hid : s.id = t.id
  · have hnodup := nodup_keys_keepFirst Signal.id [] (Block.targets a)
    rw [List.inj_on_of_nodup_map hnodup hs ht hid]
  · exact State.setBits_comm hid st _ _

theorem Shuffled.pass_eq (h : Shuffled a b) (plain : Block.PlainTargets a) (current : State) :
    (Block.pass a current).toOption = (Block.pass b current).toOption := by
  rw [Block.pass, Block.pass, h.resetAll_eq]
  exact h.outcome_eq plain current _

theorem Shuffled.iterate_eq (h : Shuffled a b) (plain : Block.PlainTargets a) (limit left : Nat)
    (current : State) : (Block.iterate a limit left current).toOption =
      (Block.iterate b limit left current).toOption := by
  induction left generalizing current with
  | zero => rfl
  | succ left ih =>
    rw [Block.iterate, Block.iterate, toOption_bind, toOption_bind, h.pass_eq plain]
    refine Option.bind_congr fun next _ => ?_
    split
    · rfl
    · exact ih next

end Block

/-- Statements of a block are concurrent unless they drive a signal in common. Two statements that
do not, and of which no target slices a selection, both fail in one order and in the other, or they
write the same state. So a block and any reordering of it that keeps the order of the statements
that share a driven signal both fail, or lead to the same state, at a clock edge and in settling. -/
theorem Block.outcomes_reordered :
    (∀ s t : Statement, Block.PlainTargets [s, t] →
      s.Apart t → ∀ read write,
      (Block.execute read [s, t] write).toOption = (Block.execute read [t, s] write).toOption) ∧
    ∀ a b : Block, Block.PlainTargets a → Block.Reordered a b → ∀ st,
      (Block.tick a st).toOption = (Block.tick b st).toOption ∧
      (Block.settle a st).toOption = (Block.settle b st).toOption := by
  refine ⟨fun s t plain apart read write => ?_, fun a b plain reordered st => ⟨?_, ?_⟩⟩
  · exact Block.outcome_swap plain.1 plain.2.1 apart [] write
  · exact reordered.shuffled.outcome_eq plain st st
  · have h := reordered.shuffled
    unfold Block.settle
    dsimp only
    rw [h.resetAll_eq, h.drives_perm.length_eq]
    exact h.iterate_eq plain _ _ _

def lowPart : Statement :=
  .assign (.slice (.signal (.named 1 "y" 4)) 0 2) (.signal (.named 0 "x" 4))

/-- One of two signals is written under a condition. -/
def guardedChoice : Statement :=
  let x := Value.signal (.named 0 "x" 4)
  let z := Value.signal (.named 2 "z" 4)
  let w := Value.signal (.named 3 "w" 4)
  .branch x [.assign (.select [.value z, .value w] (.signal (.named 4 "i" 1))) x] none

/-- A part that overlaps the low one takes what was chosen. -/
def highPart : Statement :=
  .assign (.slice (.signal (.named 1 "y" 4)) 1 4) (.signal (.named 2 "z" 4))

/-- A state in which the condition holds. -/
def choosing : State := State.empty.setBits (.named 0 "x" 4) 5

theorem Block.outcomes_reordered_parts :
    Block.PlainTargets [lowPart, guardedChoice, highPart] ∧
      Block.Reordered [lowPart, guardedChoice, highPart] [guardedChoice, lowPart, highPart] ∧
      (∃ next, Block.execute choosing [lowPart, guardedChoice] choosing = .ok next ∧
        Block.execute choosing [guardedChoice, lowPart] choosing = .ok next) ∧
      (∃ next, Block.tick [lowPart, guardedChoice, highPart] choosing = .ok next ∧
        Block.tick [guardedChoice, lowPart, highPart] choosing = .ok next ∧
        next.get (.named 1 "y" 4) = 1) ∧
      ∃ out, Block.settle [lowPart, guardedChoice, highPart] choosing = .ok out ∧
        Block.settle [guardedChoice, lowPart, highPart] choosing = .ok out ∧
        out.get (.named 1 "y" 4) = 11 := by
  have plain : Block.PlainTargets [lowPart, guardedChoice, highPart] := by repeat' constructor
  have reordered :
      Block.Reordered [lowPart, guardedChoice, highPart] [guardedChoice, lowPart, highPart] :=
    ⟨[1, 0, 2], by decide, rfl, by decide⟩
  have hswap := Block.outcomes_reordered.1 lowPart guardedChoice ⟨plain.1, plain.2.1, trivial⟩
    (by decide) choosing choosing
  obtain ⟨htick, hsettle⟩ := Block.outcomes_reordered.2 _ _ plain reordered choosing
  obtain ⟨mid, hmid⟩ : ∃ mid,
      Block.execute choosing [lowPart, guardedChoice] choosing = .ok mid := ⟨_, rfl⟩
  obtain ⟨next, hnext, hy⟩ : ∃ next,
      Block.tick [lowPart, guardedChoice, highPart] choosing = .ok next ∧
        next.get (.named 1 "y" 4) = 1 := ⟨_, rfl, rfl⟩
  obtain ⟨out, hout, hy'⟩ : ∃ out,
      Block.settle [lowPart, guardedChoice, highPart] choosing = .ok out ∧
        out.get (.named 1 "y" 4) = 11 := ⟨_, rfl, rfl⟩
  rw [hmid] at hswap
  rw [hnext] at htick
  rw [hout] at hsettle
  exact ⟨plain, reordered, ⟨mid, hmid, toOption_eq_some.mp hswap.symm⟩,
    ⟨next, hnext, toOption_eq_some.mp htick.symm, hy⟩,
    ⟨out, hout, toOption_eq_some.mp hsettle.symm, hy'⟩⟩

end Gateware
