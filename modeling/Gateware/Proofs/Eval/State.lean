import Gateware.Eval.State
import Mathlib

/-! # Where states agree

Two states agree on a set of signal numbers if they hold the same entries there. Setting a signal
changes its own entry only, and states that agree everywhere are equal.
-/
namespace Gateware

namespace Entries

theorem get?_insert (entries : List (Nat × Nat)) (id bits i : Nat) :
    get? (insert entries id bits) i = if id = i then some bits else get? entries i := by
  induction entries with
  | nil => rfl
  | cons e rest ih =>
    obtain ⟨j, b⟩ := e
    simp only [insert]
    split
    · rfl
    · split
      · rename_i heq
        subst heq
        simp only [get?]
        split <;> rfl
      · simp only [get?, ih]
        split
        · rename_i hne hj
          rw [if_neg fun h => hne (h.trans hj.symm)]
        · rfl

theorem get?_eq_none {entries : List (Nat × Nat)} {i : Nat} (h : ∀ e ∈ entries, i < e.1) :
    get? entries i = none := by
  induction entries with
  | nil => rfl
  | cons e rest ih =>
    have hi := h e List.mem_cons_self
    rw [get?, if_neg hi.ne', ih fun f hf => h f (List.mem_cons_of_mem _ hf)]

/-- Ordered entries hold nothing below the number of the first. -/
theorem Ordered.first_le {e : Nat × Nat} {rest : List (Nat × Nat)} (h : Ordered (e :: rest))
    {i : Nat} (hi : get? (e :: rest) i ≠ none) : e.1 ≤ i := by
  by_contra hlt
  refine hi (get?_eq_none fun f hf => ?_)
  rcases List.mem_cons.mp hf with rfl | hf
  · exact Nat.lt_of_not_le hlt
  · exact (Nat.lt_of_not_le hlt).trans ((List.pairwise_cons.mp h).1 f hf)

/-- Ordered entries are determined by what they give to each signal number. -/
theorem Ordered.ext {a b : List (Nat × Nat)} (ha : Ordered a) (hb : Ordered b)
    (h : ∀ i, get? a i = get? b i) : a = b := by
  induction a generalizing b with
  | nil =>
    cases b with
    | nil => rfl
    | cons f bs => simpa [get?] using h f.1
  | cons e as ih =>
    cases b with
    | nil => simpa [get?] using h e.1
    | cons f bs =>
      have hle : f.1 ≤ e.1 := hb.first_le (by rw [← h]; simp [get?])
      have hge : e.1 ≤ f.1 := ha.first_le (by rw [h]; simp [get?])
      have hid : e.1 = f.1 := Nat.le_antisymm hge hle
      have hbits : e.2 = f.2 := by simpa [get?, hid] using h e.1
      obtain ⟨ha0, ha⟩ := List.pairwise_cons.mp ha
      obtain ⟨hb0, hb⟩ := List.pairwise_cons.mp hb
      have hrest : as = bs := ih ha hb fun i => by
        by_cases hi : e.1 = i
        · subst hi
          rw [get?_eq_none ha0, get?_eq_none fun g hg => hid ▸ hb0 g hg]
        · have hi' := h i
          rwa [get?, get?, if_neg hi, if_neg (hid ▸ hi)] at hi'
      rw [hrest, Prod.ext hid hbits]

end Entries

namespace State

def entry (st : State) (id : Nat) : Option Nat := Entries.get? st.entries id

/-- Two states hold the same entries for the numbers in a set. -/
def AgreeOn (on : Nat → Prop) (a b : State) : Prop := ∀ i, on i → a.entry i = b.entry i

theorem get_eq_entry (st : State) (s : Signal) : st.get s = (st.entry s.id).getD s.resetBits := rfl

@[simp] theorem entry_setBits (st : State) (s : Signal) (raw i : Nat) :
    (st.setBits s raw).entry i =
      if s.id = i then some (Bits.truncate raw s.width) else st.entry i :=
  Entries.get?_insert _ _ _ _

theorem get_setBits (st : State) (s t : Signal) (raw : Nat) :
    (st.setBits s raw).get t = if s.id = t.id then Bits.truncate raw s.width else st.get t := by
  rw [get_eq_entry, entry_setBits]
  split
  · rfl
  · rfl

/-- States in which every handle of a number holds the same bits have the same entry there: no bits
are the reset value of every handle. -/
theorem entry_eq_of_get {a b : State} {i : Nat} (h : ∀ s : Signal, s.id = i → a.get s = b.get s) :
    a.entry i = b.entry i := by
  have h0 := h { id := i, reset := 0 } rfl
  have h1 := h { id := i, reset := 1 } rfl
  have hzero : (Signal.resetBits { id := i, reset := 0 }) = 0 := rfl
  have hone : (Signal.resetBits { id := i, reset := 1 }) = 1 := rfl
  simp only [get_eq_entry, hzero, hone] at h0 h1
  cases ha : a.entry i with
  | none =>
    cases hb : b.entry i with
    | none => rfl
    | some y => simp only [ha, hb, Option.getD_none, Option.getD_some] at h0 h1; omega
  | some x =>
    cases hb : b.entry i with
    | none => simp only [ha, hb, Option.getD_none, Option.getD_some] at h0 h1; omega
    | some y => simpa [ha, hb] using h0

namespace AgreeOn

variable {on : Nat → Prop} {a b c : State}

theorem refl (on : Nat → Prop) (a : State) : a.AgreeOn on a := fun _ _ => rfl

theorem symm (h : a.AgreeOn on b) : b.AgreeOn on a := fun i hi => (h i hi).symm

theorem trans (h : a.AgreeOn on b) (h' : b.AgreeOn on c) : a.AgreeOn on c :=
  fun i hi => (h i hi).trans (h' i hi)

theorem mono {less : Nat → Prop} (h : a.AgreeOn on b) (hless : ∀ i, less i → on i) :
    a.AgreeOn less b :=
  fun i hi => h i (hless i hi)

theorem get (h : a.AgreeOn on b) {s : Signal} (hs : on s.id) : a.get s = b.get s := by
  rw [get_eq_entry, get_eq_entry, h s.id hs]

theorem eq (h : a.AgreeOn on b) (hon : ∀ i, on i) : a = b := by
  obtain ⟨as, ha⟩ := a
  obtain ⟨bs, hb⟩ := b
  congr
  exact ha.ext hb fun i => h i (hon i)

/-- Resetting signals makes states agree there. -/
theorem resetAll {signals : List Signal}
    (h : a.AgreeOn (fun i => on i ∧ i ∉ signals.map Signal.id) b) :
    (a.resetAll signals).AgreeOn on (b.resetAll signals) := by
  induction signals generalizing a b with
  | nil => exact h.mono fun i hi => ⟨hi, by simp⟩
  | cons s rest ih =>
    refine ih fun i hi => ?_
    by_cases hs : s.id = i
    · simp [hs]
    · simp only [entry_setBits, if_neg hs]
      refine h i ⟨hi.1, ?_⟩
      simp only [List.map_cons, List.mem_cons, not_or]
      exact ⟨fun h => hs h.symm, hi.2⟩

end AgreeOn

/-- Resetting signals leaves all others alone. -/
theorem agreeOn_resetAll (st : State) (signals : List Signal) :
    st.AgreeOn (fun i => i ∉ signals.map Signal.id) (st.resetAll signals) := by
  induction signals generalizing st with
  | nil => exact AgreeOn.refl _ st
  | cons s rest ih =>
    intro i hi
    simp only [List.map_cons, List.mem_cons, not_or] at hi
    have h := ih (st.setBits s s.resetBits) i hi.2
    rwa [entry_setBits, if_neg (Ne.symm hi.1)] at h

end State

end Gateware
