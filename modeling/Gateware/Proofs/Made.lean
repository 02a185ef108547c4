import Gateware.Proofs.Eval.Errors
import Gateware.Proofs.Lower.Free

/-! # Checked construction rules out malformed values

A selection is made from a row with elements, but the rows inside it may be empty until they are
indexed themselves, and a selection of rows is refused only where a statement needs a value.
Together the checks leave nothing malformed in a statement, before and after it is lowered.
-/
namespace Gateware

/-! ## Values -/

/-- The values that the checked constructors make. A row may hold rows again, of any length. -/
inductive Value.Made : Value → Prop
  | const (c : Const) : Made (.const c)
  | signal (s : Signal) : Made (.signal s)
  | clock (domain : String) : Made (.clock domain)
  | reset (domain : String) : Made (.reset domain)
  | concat {parts : List Value} (hparts : ∀ u ∈ parts, Made u) : Made (.concat parts)
  | apply {op : Op} {operands : List Value} {v : Value} (hoperands : ∀ u ∈ operands, Made u)
      (made : Value.apply op operands = .ok v) : Made v
  | bits {u v : Value} {start stop : Int} (hu : Made u) (made : u.bits start stop = .ok v) : Made v
  | bit {u v : Value} {i : Int} (hu : Made u) (made : u.bit i = .ok v) : Made v
  | copies {u v : Value} {count : Nat} (hu : Made u) (made : u.copies count = .ok v) : Made v
  | select {row : Row} {index v : Value} (hrow : ∀ u ∈ Row.leaves row, Made u)
      (hindex : Made index) (made : Row.index row index = .ok v) : Made v
  | index {u index v : Value} (hu : Made u) (hindex : Made index)
      (made : u.index index = .ok v) : Made v

/-- Every row that is selected from has an element; a row inside it may have none. -/
inductive Value.Filled : Value → Prop
  | const (c : Const) : Filled (.const c)
  | signal (s : Signal) : Filled (.signal s)
  | clock (domain : String) : Filled (.clock domain)
  | reset (domain : String) : Filled (.reset domain)
  | op (o : Op) {operands : List Value} (h : ∀ u ∈ operands, Filled u) : Filled (.op o operands)
  | slice {u : Value} (start stop : Nat) (h : Filled u) : Filled (.slice u start stop)
  | concat {parts : List Value} (h : ∀ u ∈ parts, Filled u) : Filled (.concat parts)
  | repl {u : Value} (count : Nat) (h : Filled u) : Filled (.repl u count)
  | select {row : Row} {index : Value} (hne : row.isEmpty = false)
      (hrow : ∀ u ∈ Row.leaves row, Filled u) (hindex : Filled index) : Filled (.select row index)

section

variable {u v index : Value} {row inner : Row}

/-- A slice is accepted exactly if its bounds, those below zero counted from the top, are in order
and within the value. -/
theorem Value.bits_eq_ok_iff {start stop : Int} :
    u.bits start stop = .ok v ↔
      0 ≤ fromTop u.width start ∧ fromTop u.width start ≤ fromTop u.width stop ∧
        fromTop u.width stop ≤ u.width ∧
        v = .slice u (fromTop u.width start).toNat (fromTop u.width stop).toNat := by
  unfold Value.bits
  dsimp only
  split
  · rename_i hbounds
    obtain ⟨hstart, horder, hstop⟩ := hbounds
    simp [hstart, horder, hstop, eq_comm]
  · rename_i hbounds
    constructor
    · intro h
      cases h
    · rintro ⟨hstart, horder, hstop, -⟩
      exact absurd ⟨hstart, horder, hstop⟩ hbounds

theorem Value.bits_eq_ok {start stop : Int} (h : u.bits start stop = .ok v) :
    ∃ lo hi, v = .slice u lo hi ∧ lo ≤ hi ∧ hi ≤ u.width := by
  obtain ⟨hstart, horder, hstop, rfl⟩ := Value.bits_eq_ok_iff.mp h
  exact ⟨_, _, rfl, by omega, by omega⟩

theorem Value.Filled.bits {start stop : Int} (hu : u.Filled) (h : u.bits start stop = .ok v) :
    v.Filled := by
  obtain ⟨lo, hi, rfl, -⟩ := Value.bits_eq_ok h
  exact .slice lo hi hu

theorem Row.index_filled (hrow : ∀ u ∈ Row.leaves row, u.Filled) (hindex : index.Filled)
    (h : Row.index row index = .ok v) : v.Filled := by
  unfold Row.index at h
  split at h
  · cases h
  · rename_i hne
    cases h
    exact .select (Bool.eq_false_of_not_eq_true hne) hrow hindex

/-- Indexing every element of a row keeps its length and leaves filled values only. -/
theorem Row.indexEach_filled (hindex : index.Filled)
    (hrow : ∀ u ∈ Row.leaves row, u.Filled)
    (hagain : ∀ u ∈ Row.leaves row, ∀ v, u.index index = .ok v → v.Filled)
    (h : Row.indexEach row index = .ok inner) :
    inner.isEmpty = row.isEmpty ∧ ∀ u ∈ Row.leaves inner, u.Filled := by
  induction row generalizing inner with
  | nil =>
    cases h
    exact ⟨rfl, nofun⟩
  | cons e es ih =>
    obtain ⟨head, hhead, h⟩ := bind_eq_ok.mp h
    obtain ⟨rest, hrest, h⟩ := bind_eq_ok.mp h
    cases h
    have hes : ∀ u ∈ Row.leaves es, u ∈ Row.leaves (e :: es) :=
      fun u hu => List.mem_append_right _ hu
    have hfilled : head.Filled := by
      cases e with
      | value w => exact hagain w List.mem_cons_self head hhead
      | row elements =>
        exact Row.index_filled (fun u hu => hrow u (List.mem_append_left _ hu)) hindex hhead
    obtain ⟨-, hinner⟩ := ih (fun u hu => hrow u (hes u hu)) (fun u hu => hagain u (hes u hu)) hrest
    refine ⟨rfl, fun u hu => ?_⟩
    rcases List.mem_cons.mp hu with rfl | hu
    · exact hfilled
    · exact hinner u hu

theorem Value.Filled.subscript (hu : u.Filled) (hindex : index.Filled) (h : u.index index = .ok v) :
    v.Filled := by
  induction hu generalizing v with
  | select hne hrow houter ih _ =>
    obtain ⟨inner, hinner, h⟩ := bind_eq_ok.mp h
    cases h
    obtain ⟨hlength, hfilled⟩ := Row.indexEach_filled hindex hrow (fun u hu v => ih u hu) hinner
    exact .select (hlength.trans hne) hfilled houter
  | _ => cases h

theorem Value.Made.filled (h : v.Made) : v.Filled := by
  induction h with
  | const c => exact .const c
  | signal s => exact .signal s
  | clock d => exact .clock d
  | reset d => exact .reset d
  | concat _ ih => exact .concat ih
  | apply _ made ih =>
    unfold Value.apply at made
    split at made
    · cases made
      exact .op _ ih
    · cases made
  | bits _ made ih => exact ih.bits made
  | bit _ made ih =>
    unfold Value.bit at made
    split at made
    · exact ih.bits made
    · cases made
  | copies _ made ih =>
    unfold Value.copies at made
    split at made
    · cases made
    · split at made
      · cases made
      · cases made
        exact .repl _ ih
  | select _ _ made ih ihi => exact Row.index_filled ih ihi made
  | index _ _ made ih ihi => exact ih.subscript ihi made

theorem Value.Made.ofRow (hrow : ∀ u ∈ Row.leaves row, u.Made) (hindex : index.Made)
    (hne : row.isEmpty = false) : (Value.select row index).Made :=
  .select hrow hindex (by simp [Row.index, hne])

theorem Row.everyRow_of_flat {check : Row → Bool} (hflat : row.flat = true)
    (h : ∀ u ∈ Row.leaves row, u.everyRow check = true) : Row.everyRow check row = true := by
  induction row with
  | nil => rfl
  | cons e es ih =>
    obtain ⟨he, hes⟩ := Bool.and_eq_true_iff.mp hflat
    have hrest := ih hes fun u hu => h u (List.mem_append_right _ hu)
    cases e with
    | row _ => cases he
    | value w => exact Bool.and_eq_true_iff.mpr ⟨h w List.mem_cons_self, hrest⟩

/-- In a complete value no row is inside another, so that all its rows are selected from. -/
theorem Value.Filled.everyRow (h : v.Filled) (hflat : v.everyRow Row.flat = true) :
    v.everyRow Row.filled = true := by
  induction h with
  | const _ | signal _ | clock _ | reset _ => rfl
  | op _ _ ih | concat _ ih =>
    exact Value.allEveryRow_iff.mpr fun u hu => ih u hu (Value.allEveryRow_iff.mp hflat u hu)
  | slice _ _ _ ih | repl _ _ ih => exact ih hflat
  | select hne _ _ ih ihi =>
    simp only [Value.everyRow, Bool.and_eq_true] at hflat ⊢
    obtain ⟨⟨hrow, hleaves⟩, hindex⟩ := hflat
    refine ⟨⟨by simp [Row.filled, hne], Row.everyRow_of_flat hrow fun u hu => ?_⟩, ihi hindex⟩
    exact ih u hu (Row.everyRow_leaves hleaves u hu)

theorem Value.Made.whole (h : v.Made) (hcomplete : v.checkComplete = .ok ()) : v.Whole := by
  have hflat := (Value.checkComplete_iff v).mp hcomplete
  exact Value.whole_iff.mpr ⟨h.filled.everyRow hflat, hflat⟩

end

/-! ## Statements -/

/-- The blocks of statements that the checked constructors make of made values. -/
inductive Block.Made : Block → Prop
  | nil : Made []
  | assign {target source : Value} {s : Statement} {rest : Block} (htarget : target.Made)
      (hsource : source.Made) (made : Statement.checkedAssign target source = .ok s)
      (hrest : Made rest) : Made (s :: rest)
  | switch {selector : Value} {cases : List Case} {s : Statement} {rest : Block}
      (hselector : selector.Made) (hbodies : ∀ c ∈ cases, Made c.body)
      (made : (Statement.checkedSwitch selector cases).result = .ok s)
      (hrest : Made rest) : Made (s :: rest)
  | chain {condition : Value} {body : Block} {others : List (Value × Block)}
      {otherwise : Option Block} {s : Statement} {rest : Block} (hcondition : condition.Made)
      (hbody : Made body) (hconditions : ∀ arm ∈ others, arm.1.Made)
      (hbodies : ∀ arm ∈ others, Made arm.2) (hotherwise : ∀ b, otherwise = some b → Made b)
      (made : Statement.chain condition body others otherwise = .ok s)
      (hrest : Made rest) : Made (s :: rest)

section

variable {block : Block}

theorem Block.Made.wellFormed (h : Block.Made block) : Block.WellFormed block := by
  induction h with
  | nil => trivial
  | assign htarget hsource made _ ih =>
    obtain ⟨⟨hplace, ht⟩, hs, rfl⟩ := Statement.checkedAssign_eq_ok.mp made
    exact ⟨⟨⟨hplace, htarget.whole ht⟩, hsource.whole hs⟩, ih⟩
  | switch hselector _ made _ ihb ih =>
    exact ⟨Statement.checkedSwitch_every hselector.whole ihb made, ih⟩
  | chain hcondition _ hconditions _ _ made _ ihbody ihbodies ihotherwise ih =>
    exact ⟨Statement.chain_every hcondition.whole ihbody
      (fun arm harm => (hconditions arm harm).whole) ihbodies
      (Block.everyOtherwise_iff.mpr ihotherwise) made, ih⟩

theorem Block.WellFormed.fullTargets (h : Block.WellFormed block) : Block.FullTargets block := by
  refine h.combine h (fun target _ h _ => ?_) fun _ _ _ => trivial
  obtain ⟨⟨hplace, hwhole⟩, -⟩ := h
  obtain ⟨hfilled, hflat⟩ := Value.whole_iff.mp hwhole
  exact ⟨⟨hplace, (Value.checkComplete_iff target).mpr hflat⟩, hfilled⟩

theorem Block.Plain.wellFormed (h : Block.Plain block) : Block.WellFormed block :=
  h.combine h
    (fun _ _ h _ => ⟨⟨h.1.2, Value.whole_of_selects h.1.1⟩, Value.whole_of_selects h.2⟩)
    fun _ h _ => Value.whole_of_selects h

/-- Whatever the states, a made block never stores in something that is no place and never selects
from a row that has no value there, and neither does it once it is lowered. -/
theorem Block.made_never_malformed (made : Block.Made block) :
    ∀ b ∈ [block, Block.lower block], ∀ (read write : State) (v : Value),
      ∀ e ∈ [EvalError.notAssignable v, EvalError.nothingSelected v],
        Block.execute read b write ≠ .error e ∧ Block.settle b read ≠ .error e ∧
          Block.tick b read ≠ .error e := by
  intro b hb read write v e he
  have hformed : Block.WellFormed b := by
    rcases List.mem_pair.mp hb with rfl | rfl
    · exact made.wellFormed
    · exact (Block.lower_plain made.wellFormed.fullTargets).wellFormed
  have hstructural : e.structural = true := by
    rcases List.mem_pair.mp he with rfl | rfl <;> rfl
  have hexecute : ∀ read write, Block.execute read b write ≠ .error e := by
    intro read write h
    exact absurd hstructural (by simp [(Block.execute_endsWell b).sound hformed e h])
  refine ⟨hexecute read write, fun h => ?_, hexecute read read⟩
  exact absurd hstructural (by simp [hformed.iterate h])

end

/-- The cell of a table at three indices. The first picks one of two selections, which still pick a
row each when the last index reaches them; their rows differ in length. -/
def tableCell : Value :=
  let a := Value.signal (.named 0 "a" 4)
  let b := Value.signal (.named 1 "b" 4)
  let i := Value.signal (.named 2 "i" 2)
  let j := Value.signal (.named 3 "j" 2)
  .select
    [.value (.select [.value (.select [.value a] j), .value (.select [.value b, .value a] j)] j),
      .value (.select [.value (.select [.value b] j)] i)] i

theorem tableCell_made : tableCell.Made := by
  have ha : (Value.signal (.named 0 "a" 4)).Made := .signal _
  have hb : (Value.signal (.named 1 "b" 4)).Made := .signal _
  have hi : (Value.signal (.named 2 "i" 2)).Made := .signal _
  have hj : (Value.signal (.named 3 "j" 2)).Made := .signal _
  have hfirst : (Value.select [.row [.value (.signal (.named 0 "a" 4))],
      .row [.value (.signal (.named 1 "b" 4)), .value (.signal (.named 0 "a" 4))]]
      (.signal (.named 3 "j" 2))).Made :=
    .ofRow (by simp [Row.leaves, Element.leaves, ha, hb]) hj rfl
  have hsecond : (Value.select [.row [.value (.signal (.named 1 "b" 4))]]
      (.signal (.named 2 "i" 2))).Made :=
    .ofRow (by simp [Row.leaves, Element.leaves, hb]) hi rfl
  have houter : (Value.select [.value _, .value _] (.signal (.named 2 "i" 2))).Made :=
    .ofRow (List.forall_mem_cons.mpr ⟨hfirst, List.forall_mem_singleton.mpr hsecond⟩) hi rfl
  exact .index houter hj rfl

/-- The cell and a bit of it are written, and read in conditions. -/
def tableBlock : Block :=
  let a := Value.signal (.named 0 "a" 4)
  [.branch tableCell [.assign (.concat [.slice tableCell 3 4, tableCell]) (.op .not [a])]
    (some [.branch a [.switch tableCell [⟨[.int 1], [.assign tableCell (.repl tableCell 2)]⟩]]
      none])]

theorem tableBlock_made : Block.Made tableBlock := by
  have ha : (Value.signal (.named 0 "a" 4)).Made := .signal _
  have hbit : (Value.slice tableCell 3 4).Made := .bit (i := 3) tableCell_made rfl
  have hcopies : (Value.repl tableCell 2).Made :=
    .copies tableCell_made (rfl : tableCell.copies 2 = _)
  have htarget : (Value.concat [.slice tableCell 3 4, tableCell]).Made :=
    .concat (by simp [hbit, tableCell_made])
  have hnot : (Value.op .not [.signal (.named 0 "a" 4)]).Made :=
    .apply (List.forall_mem_singleton.mpr ha) (rfl : Value.apply .not _ = _)
  have hwrite := Block.Made.assign htarget hnot rfl .nil
  have hcopy := Block.Made.assign tableCell_made hcopies rfl .nil
  -- No cell holds the second pattern, so that the switch keeps the first case only.
  have hswitch : Block.Made
      [.switch tableCell [⟨[.int 1], [.assign tableCell (.repl tableCell 2)]⟩]] := by
    refine .switch tableCell_made ?_
      (rfl : (Statement.checkedSwitch tableCell [⟨[.int 1], _⟩, ⟨[.int 16], []⟩]).result = _) .nil
    exact List.forall_mem_cons.mpr ⟨hcopy, List.forall_mem_singleton.mpr .nil⟩
  refine .chain tableCell_made hwrite ?_ ?_ (by simp)
    (rfl : Statement.chain tableCell _ [(.signal (.named 0 "a" 4), _)] none = .ok _) .nil
  · exact List.forall_mem_singleton.mpr ha
  · exact List.forall_mem_singleton.mpr hswitch

/-- In a state without entries the cell is zero, so that the second branch looks at it. -/
theorem Block.made_never_malformed_table :
    Block.Made tableBlock ∧
      Block.tick tableBlock .empty ≠ .error (.nothingSelected tableCell) ∧
      Block.settle (Block.lower tableBlock) .empty ≠ .error (.notAssignable tableCell) ∧
      ∃ out, Block.settle (Block.lower tableBlock) .empty = .ok out := by
  have hbuilt := Block.made_never_malformed tableBlock_made tableBlock (by simp) .empty .empty
    tableCell (.nothingSelected tableCell) (by simp)
  have hlowered := Block.made_never_malformed tableBlock_made (Block.lower tableBlock) (by simp)
    .empty .empty tableCell (.notAssignable tableCell) (by simp)
  exact ⟨tableBlock_made, hbuilt.2.2, hlowered.2.1, _, rfl⟩

end Gateware
