import Gateware.Proofs.Induction

/-! # Walks over parts

A walk over a list joins the walks over its members, and a walk over a row those over its leaves.
-/

namespace Gateware

/-- What is computed by joining the lists of the members is their joined list. -/
theorem flatMap_of_cons {α β : Type} {f : α → List β} {walk : List α → List β}
    (nil : walk [] = []) (cons : ∀ a as, walk (a :: as) = f a ++ walk as) (as : List α) :
    walk as = as.flatMap f := by
  induction as with
  | nil => simp [nil]
  | cons a as ih => simp [cons, ih]

/-- What is computed by adding the changed members one by one is the changed list. -/
theorem map_of_cons {α β : Type} {f : α → β} {change : List α → List β}
    (nil : change [] = []) (cons : ∀ a as, change (a :: as) = f a :: change as) (as : List α) :
    change as = as.map f := by
  induction as with
  | nil => simp [nil]
  | cons a as ih => simp [cons, ih]

/-- A sum over the members is zero if all its terms are. -/
theorem zero_of_cons {α : Type} {f : α → Nat} {total : List α → Nat} (nil : total [] = 0)
    (cons : ∀ a as, total (a :: as) = f a + total as) {as : List α} (h : ∀ a ∈ as, f a = 0) :
    total as = 0 := by
  induction as with
  | nil => exact nil
  | cons a as ih =>
    rw [cons, h a List.mem_cons_self, ih fun b hb => h b (List.mem_cons_of_mem _ hb)]

/-- What is computed by joining the checks of the members is the check of all of them. -/
theorem all_of_cons {α : Type} {f : α → Bool} {check : List α → Bool} (nil : check [] = true)
    (cons : ∀ a as, check (a :: as) = (f a && check as)) {as : List α} :
    check as = true ↔ ∀ a ∈ as, f a = true := by
  induction as with
  | nil => simp [nil]
  | cons a as ih => simp [cons, ih]

theorem Row.walk_eq {β : Type} {f : Value → List β} (walk : List Element → List β)
    (one : Element → List β) (nil : walk [] = []) (cons : ∀ e es, walk (e :: es) = one e ++ walk es)
    (value : ∀ v, one (.value v) = f v) (row : ∀ es, one (.row es) = walk es)
    (es : List Element) : walk es = (Row.leaves es).flatMap f := by
  induction es using Row.byElements with
  | nil => simp [nil, Row.leaves]
  | value v es ih => simp [cons, value, ih, Row.leaves, Element.leaves]
  | row inner es hinner ih => simp [cons, row, hinner, ih, Row.leaves, Element.leaves]

theorem Row.all_leaves {f : Value → Bool} (check : List Element → Bool) (one : Element → Bool)
    (cons : ∀ e es, check (e :: es) = (one e && check es)) (value : ∀ v, one (.value v) = f v)
    (row : ∀ es, one (.row es) = true → check es = true) (es : List Element)
    (h : check es = true) : ∀ v ∈ Row.leaves es, f v = true := by
  induction es using Row.byElements with
  | nil => simp [Row.leaves]
  | value u es ih =>
    rw [cons, value, Bool.and_eq_true] at h
    simpa [Row.leaves, Element.leaves, h.1] using ih h.2
  | row inner es hinner ih =>
    rw [cons, Bool.and_eq_true] at h
    intro v hv
    rw [Row.leaves, Element.leaves] at hv
    exact (List.mem_append.mp hv).elim (hinner (row inner h.1) v) (ih h.2 v)

namespace Value

theorem allSignals_eq (vs : List Value) : allSignals vs = vs.flatMap signals :=
  flatMap_of_cons rfl (fun _ _ => rfl) vs

theorem allTargets_eq (vs : List Value) : allTargets vs = vs.flatMap targets :=
  flatMap_of_cons rfl (fun _ _ => rfl) vs

theorem allAddressSignals_eq (vs : List Value) :
    allAddressSignals vs = vs.flatMap addressSignals :=
  flatMap_of_cons rfl (fun _ _ => rfl) vs

theorem anySelects_eq_false {vs : List Value} :
    anySelects vs = false ↔ ∀ v ∈ vs, v.selects = false := by
  induction vs with
  | nil => simp [anySelects]
  | cons v vs ih => simp [anySelects, ih]

end Value

namespace Row

theorem signals_eq (row : Row) : Row.signals row = (Row.leaves row).flatMap Value.signals :=
  walk_eq Row.signals Element.signals rfl (fun _ _ => rfl) (fun _ => rfl) (fun _ => rfl) row

theorem targets_eq (row : Row) : Row.targets row = (Row.leaves row).flatMap Value.targets :=
  walk_eq Row.targets Element.targets rfl (fun _ _ => rfl) (fun _ => rfl) (fun _ => rfl) row

theorem addressSignals_eq (row : Row) :
    Row.addressSignals row = (Row.leaves row).flatMap Value.addressSignals :=
  walk_eq Row.addressSignals Element.addressSignals rfl (fun _ _ => rfl) (fun _ => rfl)
    (fun _ => rfl) row

end Row

/-- The entries kept have exactly the keys not seen before. -/
theorem mem_keys_keepFirst {α β : Type} [DecidableEq β] (key : α → β) (seen : List β) (as : List α)
    (k : β) : k ∈ (keepFirst key seen as).map key ↔ k ∈ as.map key ∧ k ∉ seen := by
  induction as generalizing seen with
  | nil => simp [keepFirst]
  | cons a as ih =>
    rw [keepFirst]
    split
    · rename_i ha
      rw [ih, List.map_cons, List.mem_cons]
      constructor
      · rintro ⟨hk, hn⟩
        exact ⟨Or.inr hk, hn⟩
      · rintro ⟨hk | hk, hn⟩
        · exact absurd (hk ▸ ha) hn
        · exact ⟨hk, hn⟩
    · rename_i ha
      rw [List.map_cons, List.mem_cons, ih, List.map_cons, List.mem_cons, List.mem_cons]
      by_cases hk : k = key a
      · simp [hk, ha]
      · simp [hk]

theorem nodup_keys_keepFirst {α β : Type} [DecidableEq β] (key : α → β) (seen : List β)
    (as : List α) : ((keepFirst key seen as).map key).Nodup := by
  induction as generalizing seen with
  | nil => exact List.nodup_nil
  | cons a as ih =>
    rw [keepFirst]
    split
    · exact ih seen
    · refine List.nodup_cons.mpr ⟨fun h => ?_, ih _⟩
      exact ((mem_keys_keepFirst key _ as (key a)).mp h).2 List.mem_cons_self

theorem firstRepeat?_eq_none {α : Type} [DecidableEq α] {earlier as : List α} :
    firstRepeat? earlier as = none ↔ as.Nodup ∧ ∀ a ∈ as, a ∉ earlier := by
  induction as generalizing earlier with
  | nil => simp [firstRepeat?]
  | cons a rest ih =>
    rw [firstRepeat?]
    split
    · rename_i ha
      simp [ha]
    · rename_i ha
      rw [ih, List.nodup_cons]
      constructor
      · rintro ⟨hnodup, hrest⟩
        exact ⟨⟨fun h => hrest a h List.mem_cons_self, hnodup⟩, List.forall_mem_cons.mpr
          ⟨ha, fun b hb h => hrest b hb (List.mem_cons_of_mem _ h)⟩⟩
      · rintro ⟨⟨hnot, hnodup⟩, hall⟩
        refine ⟨hnodup, fun b hb h => ?_⟩
        rcases List.mem_cons.mp h with rfl | h
        · exact hnot hb
        · exact hall b (List.mem_cons_of_mem _ hb) h

theorem Block.targets_eq (block : Block) :
    Block.targets block = block.flatMap Statement.targets :=
  flatMap_of_cons rfl (fun _ _ => rfl) block

theorem Case.targets_eq (cases : List Case) :
    Case.targets cases = cases.flatMap fun c => Block.targets c.body :=
  flatMap_of_cons rfl (fun ⟨_, _⟩ _ => rfl) cases

section

variable {s : Statement} {t : Signal} {value : Value} {taken body : Block}

theorem Block.mem_targets {block : Block} (hs : s ∈ block) (ht : t ∈ s.targets) :
    t ∈ Block.targets block := by
  rw [Block.targets_eq]
  exact List.mem_flatMap_of_mem hs ht

theorem Statement.mem_targets_taken {otherwise : Option Block} (hs : s ∈ taken)
    (ht : t ∈ s.targets) : t ∈ (Statement.branch value taken otherwise).targets :=
  List.mem_append_left _ (Block.mem_targets hs ht)

theorem Statement.mem_targets_otherwise (hs : s ∈ body) (ht : t ∈ s.targets) :
    t ∈ (Statement.branch value taken (some body)).targets :=
  List.mem_append_right _ (Block.mem_targets hs ht)

theorem Statement.mem_targets_case {cases : List Case} {c : Case} (hc : c ∈ cases) (hs : s ∈ c.body)
    (ht : t ∈ s.targets) : t ∈ (Statement.switch value cases).targets := by
  rw [Statement.targets, Case.targets_eq]
  exact List.mem_flatMap_of_mem hc (Block.mem_targets hs ht)

end

def Block.Drives (block : Block) (i : Nat) : Prop := i ∈ (Block.drives block).map Signal.id

instance (block : Block) : DecidablePred (Block.Drives block) :=
  fun i => inferInstanceAs (Decidable (i ∈ (Block.drives block).map Signal.id))

theorem Block.drives_iff {block : Block} {i : Nat} :
    Block.Drives block i ↔ ∃ t ∈ Block.targets block, t.id = i := by
  unfold Block.Drives Block.drives distinctSignals
  rw [mem_keys_keepFirst]
  simp

theorem Block.drives_append {a b : Block} {i : Nat} :
    Block.Drives (a ++ b) i ↔ Block.Drives a i ∨ Block.Drives b i := by
  simp only [Block.drives_iff, Block.targets_eq, List.flatMap_append, List.mem_append, or_and_right,
    exists_or]

theorem Block.sources_eq (block : Block) :
    Block.sources block = block.flatMap Statement.sources :=
  flatMap_of_cons rfl (fun _ _ => rfl) block

theorem Case.sources_eq (cases : List Case) :
    Case.sources cases = cases.flatMap fun c => Block.sources c.body :=
  flatMap_of_cons rfl (fun ⟨_, _⟩ _ => rfl) cases

section

variable {s : Statement} {r : Signal} {value : Value} {taken body : Block}

theorem Block.mem_sources {block : Block} (hs : s ∈ block) (hr : r ∈ s.sources) :
    r ∈ Block.sources block := by
  rw [Block.sources_eq]
  exact List.mem_flatMap_of_mem hs hr

theorem Statement.mem_sources_taken {otherwise : Option Block} (hs : s ∈ taken)
    (hr : r ∈ s.sources) : r ∈ (Statement.branch value taken otherwise).sources :=
  List.mem_append_left _ (List.mem_append_right _ (Block.mem_sources hs hr))

theorem Statement.mem_sources_otherwise (hs : s ∈ body) (hr : r ∈ s.sources) :
    r ∈ (Statement.branch value taken (some body)).sources :=
  List.mem_append_right _ (Block.mem_sources hs hr)

theorem Statement.mem_sources_case {cases : List Case} {c : Case} (hc : c ∈ cases) (hs : s ∈ c.body)
    (hr : r ∈ s.sources) : r ∈ (Statement.switch value cases).sources := by
  rw [Statement.sources, Case.sources_eq]
  exact List.mem_append_right _ (List.mem_flatMap_of_mem hc (Block.mem_sources hs hr))

end

theorem Block.values_eq (block : Block) : Block.values block = block.flatMap Statement.values :=
  flatMap_of_cons rfl (fun _ _ => rfl) block

theorem Case.values_eq (cases : List Case) :
    Case.values cases = cases.flatMap fun c => Block.values c.body :=
  flatMap_of_cons rfl (fun ⟨_, _⟩ _ => rfl) cases

theorem Block.mem_values {block : Block} {v : Value} :
    v ∈ Block.values block ↔ ∃ s ∈ block, v ∈ s.values := by
  rw [Block.values_eq, List.mem_flatMap]

section

variable {s : Statement} {v value : Value} {taken body : Block}

theorem Statement.mem_values_taken {otherwise : Option Block} (hs : s ∈ taken) (hv : v ∈ s.values) :
    v ∈ (Statement.branch value taken otherwise).values :=
  List.mem_cons_of_mem _ (List.mem_append_left _ (Block.mem_values.mpr ⟨s, hs, hv⟩))

theorem Statement.mem_values_otherwise (hs : s ∈ body) (hv : v ∈ s.values) :
    v ∈ (Statement.branch value taken (some body)).values :=
  List.mem_cons_of_mem _ (List.mem_append_right _ (Block.mem_values.mpr ⟨s, hs, hv⟩))

theorem Statement.mem_values_case {cases : List Case} {c : Case} (hc : c ∈ cases) (hs : s ∈ c.body)
    (hv : v ∈ s.values) : v ∈ (Statement.switch value cases).values := by
  rw [Statement.values, Case.values_eq]
  exact List.mem_cons_of_mem _
    (List.mem_flatMap_of_mem hc (Block.mem_values.mpr ⟨s, hs, hv⟩))

end

end Gateware
