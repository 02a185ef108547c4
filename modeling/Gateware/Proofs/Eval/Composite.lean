import Gateware.Proofs.Eval.Concurrent
import Gateware.Proofs.Eval.Landing
import Gateware.Proofs.Eval.Range
import Gateware.Proofs.Made

/-! # Composite targets are read as they were written

A target made of signals, slices and groups addresses a list of single bits, its cells. Reading it
gives the bits in its cells, and writing puts one bit in each, although a slice writes back all of
what it is a slice of. So what was assigned is what is read, as long as no group addresses a cell in
two of its parts, and the bits of all other cells stay.
-/
namespace Gateware

/-! ## Cells -/

mutual
/-- The bits of signals that a target addresses, the lowest first. -/
def Value.cells : Value → List (Signal × Nat)
  | .signal s => (List.range s.width).map fun i => (s, i)
  | .slice value start stop => (value.cells.drop start).take (stop - start)
  | .concat parts => Value.allCells parts
  | .const _ | .clock _ | .reset _ | .op _ _ | .repl _ _ | .select _ _ => []

def Value.allCells : List Value → List (Signal × Nat)
  | [] => []
  | v :: vs => v.cells ++ Value.allCells vs
end

def SameCell (c d : Signal × Nat) : Prop := c.1.id = d.1.id ∧ c.2 = d.2

instance (c d : Signal × Nat) : Decidable (SameCell c d) :=
  inferInstanceAs (Decidable (c.1.id = d.1.id ∧ c.2 = d.2))

/-- The values address no bit in common. -/
def Value.CellsApart (u v : Value) : Prop := ∀ c ∈ u.cells, ∀ d ∈ v.cells, ¬ SameCell c d

instance (u v : Value) : Decidable (u.CellsApart v) :=
  inferInstanceAs (Decidable (∀ c ∈ u.cells, ∀ d ∈ v.cells, ¬ SameCell c d))

/-- The targets that the checked constructors make of signals, slices and groups, where no group
addresses a bit in two of its parts. -/
inductive Value.Composite : Value → Prop
  | signal (s : Signal) : Composite (.signal s)
  | bits {u v : Value} {start stop : Int} (hu : Composite u) (made : u.bits start stop = .ok v) :
      Composite v
  | bit {u v : Value} {i : Int} (hu : Composite u) (made : u.bit i = .ok v) : Composite v
  | concat {parts : List Value} (hparts : ∀ u ∈ parts, Composite u)
      (apart : parts.Pairwise Value.CellsApart) : Composite (.concat parts)

/-- What holds of signals, and of slices and groups if it holds of their parts, holds of composite
targets. -/
theorem Value.Composite.byParts {motive : ∀ v : Value, v.Composite → Prop}
    (signal : ∀ s, motive (.signal s) (.signal s))
    (slice : ∀ u lo hi (hu : u.Composite) (h : (Value.slice u lo hi).Composite), lo ≤ hi →
      hi ≤ u.width → motive u hu → motive (.slice u lo hi) h)
    (concat : ∀ parts (hparts : ∀ u ∈ parts, u.Composite)
      (apart : parts.Pairwise Value.CellsApart), (∀ u hu, motive u (hparts u hu)) →
      motive (.concat parts) (.concat hparts apart)) {v : Value} (h : v.Composite) :
    motive v h := by
  have hbits : ∀ {u v : Value} {start stop : Int} (hu : u.Composite) (h : v.Composite),
      motive u hu → u.bits start stop = .ok v → motive v h := by
    intro u v start stop hu h ih made
    obtain ⟨lo, hi, rfl, hle, hwidth⟩ := Value.bits_eq_ok made
    exact slice u lo hi hu h hle hwidth ih
  induction h with
  | signal s => exact signal s
  | bits hu made ih => exact hbits hu _ ih made
  | bit hu made ih =>
    have hmade := made
    unfold Value.bit at hmade
    split at hmade
    · exact hbits hu _ ih hmade
    · cases hmade
  | concat hparts apart ih => exact concat _ hparts apart ih

theorem Value.allCells_eq (vs : List Value) : Value.allCells vs = vs.flatMap Value.cells :=
  flatMap_of_cons rfl (fun _ _ => rfl) vs

/-- A cell is within a signal of the target. -/
theorem Value.mem_cells {v : Value} {c : Signal × Nat} (h : c ∈ v.cells) :
    c.1 ∈ v.targets ∧ c.2 < c.1.width := by
  induction v with
  | const c | clock d | reset d | op o vs _ | repl v count _ | select row index _ _ =>
    rw [Value.cells] at h
    cases h
  | signal s =>
    obtain ⟨i, hi, rfl⟩ := List.mem_map.mp h
    exact ⟨List.mem_singleton.mpr rfl, List.mem_range.mp hi⟩
  | slice v start stop ih =>
    rw [Value.cells] at h
    exact ih (List.mem_of_mem_drop (List.mem_of_mem_take h))
  | concat vs ih =>
    rw [Value.cells, Value.allCells_eq] at h
    obtain ⟨u, hu, hc⟩ := List.mem_flatMap.mp h
    obtain ⟨htarget, hlt⟩ := ih u hu hc
    refine ⟨?_, hlt⟩
    rw [Value.targets, Value.allTargets_eq]
    exact List.mem_flatMap_of_mem hu htarget

/-! ## Widths -/

theorem Value.totalWidth_cons_le {v : Value} {vs : List Value}
    (h : Value.totalWidth (v :: vs) ≤ evalLimit) :
    Value.totalWidth (v :: vs) = v.width + Value.totalWidth vs := clampWidth_eq h

theorem Value.width_le_totalWidth {vs : List Value} (h : Value.totalWidth vs ≤ evalLimit)
    {v : Value} (hv : v ∈ vs) : v.width ≤ Value.totalWidth vs := by
  induction vs with
  | nil => cases hv
  | cons u vs ih =>
    have htotal := Value.totalWidth_cons_le h
    rcases List.mem_cons.mp hv with rfl | hv
    · omega
    · have hrest := ih (by omega) hv
      omega

theorem Value.totalWidth_le_allCells {vs : List Value} (h : ∀ v ∈ vs, v.width ≤ v.cells.length) :
    Value.totalWidth vs ≤ (Value.allCells vs).length := by
  induction vs with
  | nil => exact Nat.le_refl 0
  | cons v vs ih =>
    obtain ⟨hv, hvs⟩ := List.forall_mem_cons.mp h
    have hclamp : Value.totalWidth (v :: vs) ≤ v.width + Value.totalWidth vs := Nat.min_le_left _ _
    have hrest := ih hvs
    rw [Value.allCells, List.length_append]
    omega

theorem Value.Composite.width_le {v : Value} (h : v.Composite) : v.width ≤ v.cells.length := by
  induction h using Value.Composite.byParts with
  | signal s => simp [Value.width, Value.shape, Value.cells, Signal.width]
  | slice u lo hi _ _ hle hwidth ih =>
    rw [Value.cells, List.length_take, List.length_drop]
    change hi - lo ≤ _
    omega
  | concat parts _ _ ih => exact Value.totalWidth_le_allCells ih

theorem Value.length_allCells {vs : List Value} (hw : Value.totalWidth vs ≤ evalLimit)
    (h : ∀ v ∈ vs, v.width ≤ evalLimit → v.cells.length = v.width) :
    (Value.allCells vs).length = Value.totalWidth vs := by
  induction vs with
  | nil => rfl
  | cons v vs ih =>
    obtain ⟨hv, hvs⟩ := List.forall_mem_cons.mp h
    have htotal := Value.totalWidth_cons_le hw
    have hhead := hv (by omega)
    have hrest := ih (by omega) hvs
    rw [Value.allCells, List.length_append]
    omega

/-- Within the limit a composite target has one cell for each of its bits. -/
theorem Value.Composite.length_cells {v : Value} (h : v.Composite) (hw : v.width ≤ evalLimit) :
    v.cells.length = v.width := by
  induction h using Value.Composite.byParts with
  | signal s => simp [Value.width, Value.shape, Value.cells, Signal.width]
  | slice u lo hi hu _ hle hwidth _ =>
    have hlength := hu.width_le
    rw [Value.cells, List.length_take, List.length_drop]
    change min (hi - lo) _ = hi - lo
    omega
  | concat parts _ _ ih => exact Value.length_allCells hw ih

/-! ## Reading -/

theorem Bits.testBit_truncate_of_lt (raw : Nat) {width j : Nat} (hw : width ≤ evalLimit)
    (hj : j < width) : (Bits.truncate raw width).testBit j = raw.testBit j := by
  have hlimit : evalLimit < wordBits := by decide
  have hlt : j < min width wordBits := by omega
  rw [Bits.testBit_truncate, decide_eq_true hlt, Bool.true_and]

theorem Value.signal_cell {s : Signal} {j : Nat} {c : Signal × Nat}
    (h : (Value.signal s).cells[j]? = some c) : j < s.width ∧ c = (s, j) := by
  rw [Value.cells, List.getElem?_map, Option.map_eq_some_iff] at h
  obtain ⟨i, hi, rfl⟩ := h
  obtain ⟨hj, rfl⟩ := List.getElem?_eq_some_iff.mp hi
  rw [List.length_range] at hj
  exact ⟨hj, by rw [List.getElem_range]⟩

theorem Value.slice_cell {v : Value} {lo hi j : Nat} {c : Signal × Nat}
    (h : (Value.slice v lo hi).cells[j]? = some c) : j < hi - lo ∧ v.cells[lo + j]? = some c := by
  rw [Value.cells, List.getElem?_take] at h
  split at h
  · rename_i hj
    rw [List.getElem?_drop] at h
    exact ⟨hj, h⟩
  · cases h

/-- The cells of a list of parts are those of the first part and, behind them, those of the rest. -/
theorem Value.allCells_cell {v : Value} {vs : List Value} {j : Nat} {c : Signal × Nat}
    (hlength : v.cells.length = v.width) (h : (Value.allCells (v :: vs))[j]? = some c) :
    (j < v.width ∧ v.cells[j]? = some c) ∨
      (v.width ≤ j ∧ (Value.allCells vs)[j - v.width]? = some c) := by
  rw [Value.allCells, List.getElem?_append, hlength] at h
  split at h
  · rename_i hj
    exact .inl ⟨hj, h⟩
  · rename_i hj
    exact .inr ⟨Nat.le_of_not_lt hj, h⟩

theorem Value.evalParts_cell {st : State} {vs : List Value} {c : Signal × Nat}
    (hvs : ∀ v ∈ vs, v.Composite)
    (h : ∀ v ∈ vs, ∀ {bits j}, v.eval st = .ok bits → v.cells[j]? = some c →
      bits.testBit j = (st.get c.1).testBit c.2) {bits j : Nat}
    (he : Value.evalParts st vs = .ok bits) (hc : (Value.allCells vs)[j]? = some c) :
    bits.testBit j = (st.get c.1).testBit c.2 := by
  induction vs generalizing bits j with
  | nil => cases hc
  | cons v vs ih =>
    obtain ⟨hv, hvs⟩ := List.forall_mem_cons.mp hvs
    obtain ⟨hhead, htail⟩ := List.forall_mem_cons.mp h
    obtain ⟨low, hlow, high, hhigh, rfl⟩ := Value.evalParts_cons_eq_ok.mp he
    obtain ⟨hw, hfits⟩ := Value.eval_fits hlow
    rw [Bits.testBit_beside hfits]
    rcases Value.allCells_cell (hv.length_cells hw) hc with ⟨hj, hc⟩ | ⟨hj, hc⟩
    · rw [if_pos hj, hhead hlow hc]
    · rw [if_neg (Nat.not_lt_of_le hj), ih hvs htail hhigh hc]

/-- A composite target reads what its cells hold. -/
theorem Value.Composite.eval_cell {st : State} {v : Value} (h : v.Composite) {bits j : Nat}
    {c : Signal × Nat} (he : v.eval st = .ok bits) (hc : v.cells[j]? = some c) :
    bits.testBit j = (st.get c.1).testBit c.2 := by
  induction h using Value.Composite.byParts generalizing bits j with
  | signal s =>
    obtain ⟨hw, rfl⟩ := Value.eval_signal_eq_ok.mp he
    obtain ⟨hj, rfl⟩ := Value.signal_cell hc
    exact Bits.testBit_truncate_of_lt _ hw hj
  | slice u lo hi hu _ hle hwidth ih =>
    obtain ⟨hw, inner, hinner, rfl⟩ := Value.eval_slice_eq_ok.mp he
    obtain ⟨hj, hc⟩ := Value.slice_cell hc
    rw [Bits.testBit_truncate_of_lt _ hw hj, Nat.testBit_shiftRight, ih hinner hc]
  | concat parts hparts _ ih =>
    obtain ⟨hw, inner, hinner, rfl⟩ := Value.eval_concat_eq_ok.mp he
    have hj : j < (Value.allCells parts).length := (List.getElem?_eq_some_iff.mp hc).1
    rw [Value.length_allCells hw fun v hv => (hparts v hv).length_cells] at hj
    rw [Bits.testBit_truncate_of_lt _ hw hj]
    exact Value.evalParts_cell hparts ih hinner hc

/-! ## Writing -/

/-- Handles of one signal have the same shape and reset value. -/
def Signal.Coherent (handles : Signal → Prop) : Prop :=
  ∀ s t, handles s → handles t → s.id = t.id → s.shape = t.shape ∧ s.reset = t.reset

theorem Signal.Coherent.get {handles : Signal → Prop} (h : Signal.Coherent handles) {s t : Signal}
    (hs : handles s) (ht : handles t) (hid : s.id = t.id) (st : State) : st.get s = st.get t := by
  obtain ⟨hshape, hreset⟩ := h s t hs ht hid
  simp only [State.get_eq_entry, Signal.resetBits, Signal.width, hid, hshape, hreset]

/-- The step from `write` to `out` puts the bits in the cells and keeps all others. -/
structure Stored (handles : Signal → Prop) (cells : List (Signal × Nat)) (bits : Nat)
    (write out : State) : Prop where
  lands : ∀ {j c}, cells[j]? = some c → (out.get c.1).testBit c.2 = bits.testBit j
  keeps : ∀ {s i}, handles s → i < s.width → (∀ c ∈ cells, ¬ SameCell c (s, i)) →
    (out.get s).testBit i = (write.get s).testBit i

section Writing

variable {handles : Signal → Prop} {read : State}

theorem Value.store_signal_stored (hone : Signal.Coherent handles) {s : Signal}
    (hs : handles s) (hw : s.width ≤ evalLimit) (bits : Nat) (write : State) :
    Stored handles (Value.signal s).cells bits write (write.setBits s bits) where
  lands := by
    intro j c hc
    obtain ⟨hj, rfl⟩ := Value.signal_cell hc
    rw [State.get_setBits, if_pos rfl, Bits.testBit_truncate_of_lt _ hw hj]
  keeps := by
    intro t i ht hi hfree
    have hid : s.id ≠ t.id := by
      intro hid
      have hwidth : s.width = t.width := congrArg Shape.width (hone s t hs ht hid).1
      refine hfree (s, i) ?_ ⟨hid, rfl⟩
      exact List.mem_map.mpr ⟨i, List.mem_range.mpr (hwidth ▸ hi), rfl⟩
    rw [State.get_setBits, if_neg hid]

/-- A store of the merged bits in a value is one of the bits in the slice of it: the rest of the
value is given the bits it was read to have. -/
theorem Stored.slice (hone : Signal.Coherent handles) {u : Value} (hu : u.Composite)
    (hknown : ∀ s ∈ u.targets, handles s) {lo hi current bits : Nat} {write out : State}
    (hhi : hi ≤ u.width) (hcurrent : u.eval write = .ok current)
    (h : Stored handles u.cells (mergeBits current bits lo hi) write out) :
    Stored handles (Value.slice u lo hi).cells bits write out where
  lands := by
    intro j c hc
    obtain ⟨hj, hc⟩ := Value.slice_cell hc
    have hw := (Value.eval_fits hcurrent).1
    have hfield : lo + j < wordBits ∧ lo ≤ lo + j ∧ lo + j - lo < hi - lo := by
      have hlimit : evalLimit < wordBits := by decide
      omega
    rw [h.lands hc, testBit_mergeBits, if_pos hfield, Nat.add_sub_cancel_left]
  keeps := by
    intro s i hs hi' hfree
    by_cases hcell : ∃ c ∈ u.cells, SameCell c (s, i)
    · -- a cell of the value outside the field
      obtain ⟨c, hmem, hsame⟩ := hcell
      obtain ⟨q, hq⟩ := List.mem_iff_getElem?.mp hmem
      have hout : ¬ (q < wordBits ∧ lo ≤ q ∧ q - lo < hi - lo) := by
        rintro ⟨-, hle, hlt⟩
        refine hfree c (List.mem_of_getElem? (i := q - lo) ?_) hsame
        rw [Value.cells, List.getElem?_take, if_pos hlt, List.getElem?_drop,
          Nat.add_sub_cancel' hle, hq]
      have hkept : (out.get c.1).testBit c.2 = (write.get c.1).testBit c.2 := by
        rw [h.lands hq, testBit_mergeBits, if_neg hout, hu.eval_cell hcurrent hq]
      have hc := hknown c.1 (Value.mem_cells hmem).1
      rw [hone.get hc hs hsame.1, hone.get hc hs hsame.1] at hkept
      rwa [show c.2 = i from hsame.2] at hkept
    · exact h.keeps hs hi' fun c hmem hsame => hcell ⟨c, hmem, hsame⟩

/-- Two stores in turn are one in both lists of cells if the second leaves the first's alone. -/
theorem Stored.append {v : Value} {vs : List Value} {bits : Nat} {write next out : State}
    (hw : v.width ≤ evalLimit) (hlength : v.cells.length = v.width)
    (hknown : ∀ s ∈ v.targets, handles s)
    (apart : ∀ u ∈ vs, v.CellsApart u)
    (hv : Stored handles v.cells (Bits.truncate bits v.width) write next)
    (hvs : Stored handles (Value.allCells vs) (bits >>> v.width) next out) :
    Stored handles (Value.allCells (v :: vs)) bits write out where
  lands := by
    intro j c hc
    rcases Value.allCells_cell hlength hc with ⟨hj, hc⟩ | ⟨hj, hc⟩
    · have hmem := List.mem_of_getElem? hc
      obtain ⟨htarget, hin⟩ := Value.mem_cells hmem
      have hfree : ∀ d ∈ Value.allCells vs, ¬ SameCell d c := by
        intro d hd hsame
        rw [Value.allCells_eq] at hd
        obtain ⟨u, hu, hd⟩ := List.mem_flatMap.mp hd
        exact apart u hu c hmem d hd ⟨hsame.1.symm, hsame.2.symm⟩
      rw [hvs.keeps (hknown c.1 htarget) hin hfree, hv.lands hc,
        Bits.testBit_truncate_of_lt _ hw hj]
    · rw [hvs.lands hc, Nat.testBit_shiftRight, Nat.add_sub_cancel' hj]
  keeps := by
    intro s i hs hi hfree
    obtain ⟨hhead, htail⟩ := List.forall_mem_append.mp hfree
    rw [hvs.keeps hs hi htail, hv.keeps hs hi hhead]

theorem Value.storeParts_stored {vs : List Value} (hvs : ∀ v ∈ vs, v.Composite)
    (apart : vs.Pairwise Value.CellsApart) (hknown : ∀ v ∈ vs, ∀ s ∈ v.targets, handles s)
    (h : ∀ v ∈ vs, ∀ {bits write out}, v.width ≤ evalLimit → v.store read bits write = .ok out →
      Stored handles v.cells bits write out)
    {bits : Nat} {write out : State} (hw : Value.totalWidth vs ≤ evalLimit)
    (he : Value.storeParts read vs bits write = .ok out) :
    Stored handles (Value.allCells vs) bits write out := by
  induction vs generalizing bits write with
  | nil =>
    cases he
    exact ⟨nofun, fun _ _ _ => rfl⟩
  | cons v vs ih =>
    obtain ⟨hv, hvs⟩ := List.forall_mem_cons.mp hvs
    obtain ⟨hhead, htail⟩ := List.forall_mem_cons.mp h
    obtain ⟨hapart, apart⟩ := List.pairwise_cons.mp apart
    obtain ⟨hknown, hrest⟩ := List.forall_mem_cons.mp hknown
    obtain ⟨next, hfirst, he⟩ := Value.storeParts_cons_eq_ok.mp he
    have htotal := Value.totalWidth_cons_le hw
    have hwidth : v.width ≤ evalLimit := by omega
    exact .append hwidth (hv.length_cells hwidth) hknown hapart (hhead hwidth hfirst)
      (ih hvs apart hrest htail (by omega) he)

/-- A store in a composite target puts one bit in each of its cells and changes no other. -/
theorem Value.Composite.store_stored (hone : Signal.Coherent handles) {v : Value}
    (h : v.Composite) (hknown : ∀ s ∈ v.targets, handles s) (hw : v.width ≤ evalLimit)
    {bits : Nat} {write out : State} (he : v.store read bits write = .ok out) :
    Stored handles v.cells bits write out := by
  induction h using Value.Composite.byParts generalizing bits write out with
  | signal s =>
    cases he
    exact Value.store_signal_stored hone (hknown s (List.mem_singleton.mpr rfl)) hw bits write
  | slice u lo hi hu _ hle hhi ih =>
    obtain ⟨current, hcurrent, he⟩ := Value.store_slice_eq_ok.mp he
    exact .slice hone hu hknown hhi hcurrent (ih hknown (Value.eval_fits hcurrent).1 he)
  | concat parts hparts apart ih =>
    have hknown' : ∀ u ∈ parts, ∀ s ∈ u.targets, handles s := by
      intro u hu s hs
      refine hknown s ?_
      rw [Value.targets, Value.allTargets_eq]
      exact List.mem_flatMap_of_mem hu hs
    exact Value.storeParts_stored hparts apart hknown'
      (fun u hu _ _ _ hwidth he => ih u hu (hknown' u hu) hwidth he) hw he

/-- A target that was stored in has bits, in every state: it could only be too wide. -/
theorem Value.Composite.hasBits {v : Value} (h : v.Composite) (hw : v.width ≤ evalLimit)
    {bits : Nat} {write out : State} (he : v.store read bits write = .ok out) (st : State) :
    v.HasBits st := by
  induction h using Value.Composite.byParts generalizing bits write out with
  | signal s => exact ⟨_, Value.eval_signal_eq_ok.mpr ⟨hw, rfl⟩⟩
  | slice u lo hi _ _ _ _ ih =>
    obtain ⟨current, hcurrent, he⟩ := Value.store_slice_eq_ok.mp he
    obtain ⟨inner, hinner⟩ := ih (Value.eval_fits hcurrent).1 he
    exact ⟨_, Value.eval_slice_eq_ok.mpr ⟨hw, inner, hinner, rfl⟩⟩
  | concat parts _ _ ih =>
    have hparts : ∀ u ∈ parts, u.HasBits st := by
      intro u hu
      obtain ⟨_, _, _, hstore⟩ := Value.storeParts_each he u hu
      exact ih u hu ((Value.width_le_totalWidth hw hu).trans hw) hstore
    obtain ⟨inner, hinner⟩ := Value.evalParts_of_hasBits hparts
    exact ⟨_, Value.eval_concat_eq_ok.mpr ⟨hw, inner, hinner, rfl⟩⟩

/-- What is stored in a composite target is read from it. -/
theorem Value.Composite.eval_stored {v : Value} (h : v.Composite) {bits raw : Nat}
    {write out : State} (hstored : Stored handles v.cells raw write out)
    (he : v.eval out = .ok bits) : bits = Bits.truncate raw v.width := by
  obtain ⟨hw, hfits⟩ := Value.eval_fits he
  apply Bits.eq_of_testBit hfits (Bits.truncate_lt raw v.width)
  intro j hj
  have hc := List.getElem?_eq_getElem (l := v.cells) (i := j) (by rwa [h.length_cells hw])
  rw [h.eval_cell he hc, hstored.lands hc, Bits.testBit_truncate_of_lt _ hw hj]

end Writing

/-- An assignment to a composite target of at most `evalLimit` bits is read back from it: the target
has the number that was assigned, modulo two to the width, and no bit changes that it does not
address. -/
theorem Statement.execute_assign_composite {handles : Signal → Prop}
    (one : Signal.Coherent handles) {target source : Value} {read write out : State}
    (composite : target.Composite) (known : ∀ s ∈ target.targets, handles s)
    (narrow : target.width ≤ evalLimit)
    (h : (Statement.assign target source).execute read write = .ok out) :
    (∃ n bits, source.number read = .ok n ∧ target.eval out = .ok bits ∧
        (bits : Int) = n % 2 ^ target.width) ∧
      ∀ s, handles s → ∀ i < s.width, (∀ c ∈ target.cells, ¬ SameCell c (s, i)) →
        (out.get s).testBit i = (write.get s).testBit i := by
  obtain ⟨n, hn, hstore⟩ := Statement.execute_assign_eq_ok.mp h
  have hstored := composite.store_stored one known narrow hstore
  obtain ⟨bits, hbits⟩ := composite.hasBits narrow hstore out
  have hword : target.width ≤ wordBits := narrow.trans (by decide)
  refine ⟨⟨n, bits, hn, hbits, ?_⟩, fun s hs i hi hfree => hstored.keeps hs hi hfree⟩
  rw [composite.eval_stored hstored hbits, Bits.truncate_ofInt hword]

/-- Five bits of two signals of four: a slice across both, and the lowest bit of the first. -/
def crossing : Value :=
  .concat [.slice (.concat [.signal (.named 0 "a" 4), .signal (.named 1 "b" 4)]) 2 6,
    .slice (.signal (.named 0 "a" 4)) 0 1]

theorem Value.composite_crossing : crossing.Composite := by
  have hpair : (Value.concat [.signal (.named 0 "a" 4), .signal (.named 1 "b" 4)]).Composite := by
    refine .concat ?_ (by decide)
    simp only [List.forall_mem_cons]
    exact ⟨.signal _, .signal _, nofun⟩
  have hslice : (Value.concat [.signal (.named 0 "a" 4), .signal (.named 1 "b" 4)]).bits 2 6 =
      .ok _ := rfl
  have hbit : (Value.signal (.named 0 "a" 4)).bit 0 = .ok _ := rfl
  refine .concat ?_ (by decide)
  simp only [List.forall_mem_cons]
  exact ⟨.bits hpair hslice, .bit (.signal _) hbit, nofun⟩

/-- The second bit of `a` lies between bits that are written, and stays. -/
theorem Statement.execute_assign_composite_crossing :
    ∃ out, (Statement.assign crossing (.int (-3))).execute .empty
        (State.empty.setBits (.named 0 "a" 4) 10) = .ok out ∧
      crossing.eval out = .ok 29 ∧ (out.get (.named 0 "a" 4)).testBit 1 = true := by
  have hone : Signal.Coherent (· ∈ crossing.targets) := by
    have hpairs : ∀ s ∈ crossing.targets, ∀ t ∈ crossing.targets, s.id = t.id →
        s.shape = t.shape ∧ s.reset = t.reset := by decide
    exact fun s t hs ht => hpairs s hs t ht
  have hrun : (Statement.assign crossing (.int (-3))).execute .empty
      (State.empty.setBits (.named 0 "a" 4) 10) = .ok _ := rfl
  refine ⟨_, hrun, ?_⟩
  obtain ⟨⟨n, bits, hn, hbits, hmod⟩, hkeeps⟩ := Statement.execute_assign_composite hone
    Value.composite_crossing (fun _ hs => hs) (by decide) hrun
  have hminus : (Value.int (-3)).number .empty = .ok (-3) := rfl
  rw [hminus, Except.ok.injEq] at hn
  have hbits' : bits = 29 := by
    rw [← hn] at hmod
    exact Int.ofNat.inj hmod
  rw [hbits'] at hbits
  exact ⟨hbits, hkeeps (.named 0 "a" 4) (by decide) 1 (by decide) (by decide)⟩

end Gateware
