import Gateware.Proofs.Bits
import Gateware.Proofs.Walk
import Gateware.Statement.Build

/-! # What checked construction promises

A check on rows extends to every row of a value, at any depth and inside indices too, and a check on
values extends to every assignment, condition and selector of a block. Checked construction gives
blocks whose targets are places and whose values are complete: no selection picks a whole row. What
the checks give for the parts of a switch or a chain of conditions they give for the statement.
-/
namespace Gateware

/-! ## Rows -/

mutual
def Value.everyRow (check : Row → Bool) : Value → Bool
  | .const _ | .signal _ | .clock _ | .reset _ => true
  | .op _ operands => Value.allEveryRow check operands
  | .concat parts => Value.allEveryRow check parts
  | .slice value _ _ => value.everyRow check
  | .repl value _ => value.everyRow check
  | .select row index => check row && Row.everyRow check row && index.everyRow check

def Value.allEveryRow (check : Row → Bool) : List Value → Bool
  | [] => true
  | v :: vs => v.everyRow check && Value.allEveryRow check vs

def Row.everyRow (check : Row → Bool) : List Element → Bool
  | [] => true
  | e :: es => Element.everyRow check e && Row.everyRow check es

def Element.everyRow (check : Row → Bool) : Element → Bool
  | .value v => v.everyRow check
  | .row elements => check elements && Row.everyRow check elements
end

def Element.isValue : Element → Bool
  | .value _ => true
  | .row _ => false

def Row.filled (row : Row) : Bool := !row.isEmpty

/-- Whether all elements of a row are unsigned and of one width. -/
def Row.uniform : Row → Bool
  | [] => true
  | e :: es => (e :: es).all fun f => f.shape == .ofUnsigned e.shape.width

theorem Row.uniform_shape {row : Row} (h : row.uniform = true) :
    ∃ width, ∀ e ∈ row, e.shape = .ofUnsigned width := by
  cases row with
  | nil => exact ⟨0, by simp⟩
  | cons e es =>
    refine ⟨e.shape.width, fun f hf => ?_⟩
    exact eq_of_beq (List.all_eq_true.mp h f hf)

mutual
theorem Value.everyRow_and (a b : Row → Bool) : ∀ v : Value,
    v.everyRow (fun row => a row && b row) = (v.everyRow a && v.everyRow b)
  | .const _ | .signal _ | .clock _ | .reset _ => rfl
  | .op _ operands => Value.allEveryRow_and a b operands
  | .concat parts => Value.allEveryRow_and a b parts
  | .slice value _ _ => value.everyRow_and a b
  | .repl value _ => value.everyRow_and a b
  | .select row index => by
    simp only [Value.everyRow, Row.everyRow_and a b row, index.everyRow_and a b]
    ac_rfl

theorem Value.allEveryRow_and (a b : Row → Bool) : ∀ vs : List Value,
    Value.allEveryRow (fun row => a row && b row) vs =
      (Value.allEveryRow a vs && Value.allEveryRow b vs)
  | [] => rfl
  | v :: vs => by
    simp only [Value.allEveryRow, v.everyRow_and a b, Value.allEveryRow_and a b vs]
    ac_rfl

theorem Row.everyRow_and (a b : Row → Bool) : ∀ row : List Element,
    Row.everyRow (fun row => a row && b row) row = (Row.everyRow a row && Row.everyRow b row)
  | [] => rfl
  | e :: es => by
    simp only [Row.everyRow, Element.everyRow_and a b e, Row.everyRow_and a b es]
    ac_rfl

theorem Element.everyRow_and (a b : Row → Bool) : ∀ e : Element,
    Element.everyRow (fun row => a row && b row) e =
      (Element.everyRow a e && Element.everyRow b e)
  | .value v => v.everyRow_and a b
  | .row elements => by
    simp only [Element.everyRow, Row.everyRow_and a b elements]
    ac_rfl
end

theorem Value.allEveryRow_iff {check : Row → Bool} {vs : List Value} :
    Value.allEveryRow check vs = true ↔ ∀ v ∈ vs, v.everyRow check = true :=
  all_of_cons rfl fun _ _ => rfl

theorem Row.everyRow_leaves {check : Row → Bool} {row : Row} (h : Row.everyRow check row = true) :
    ∀ v ∈ Row.leaves row, v.everyRow check = true :=
  Row.all_leaves (Row.everyRow check) (Element.everyRow check) (fun _ _ => rfl) (fun _ => rfl)
    (fun _ h => (Bool.and_eq_true_iff.mp h).2) row h

/-- A row whose elements are all values. -/
def Row.flat (row : Row) : Bool := row.all Element.isValue

theorem Row.flat_value {row : Row} (hflat : row.flat = true) {e : Element} (he : e ∈ row) :
    ∃ v, e = .value v := by
  have hvalue := List.all_eq_true.mp hflat e he
  cases e with
  | value v => exact ⟨v, rfl⟩
  | row _ => cases hvalue

theorem seq_eq_ok {ε : Type} {x y : Except ε Unit} :
    (do x; y) = .ok () ↔ x = .ok () ∧ y = .ok () := by
  rw [bind_eq_ok]
  exact ⟨fun ⟨_, hx, hy⟩ => ⟨hx, hy⟩, fun ⟨hx, hy⟩ => ⟨(), hx, hy⟩⟩

mutual
/-- A value is complete exactly when every row it selects from holds values only. -/
theorem Value.checkComplete_iff : ∀ v : Value,
    v.checkComplete = .ok () ↔ v.everyRow Row.flat = true
  | .const _ | .signal _ | .clock _ | .reset _ => by simp [Value.checkComplete, Value.everyRow]
  | .op _ operands => Value.checkAllComplete_iff operands
  | .concat parts => Value.checkAllComplete_iff parts
  | .slice value _ _ => value.checkComplete_iff
  | .repl value _ => value.checkComplete_iff
  | .select row index => by
    simp only [Value.checkComplete, seq_eq_ok, Value.everyRow, Bool.and_eq_true,
      index.checkComplete_iff, Row.checkComplete_iff row]
    tauto

theorem Value.checkAllComplete_iff : ∀ vs : List Value,
    Value.checkAllComplete vs = .ok () ↔ Value.allEveryRow Row.flat vs = true
  | [] => by simp [Value.checkAllComplete, Value.allEveryRow]
  | v :: vs => by
    simp only [Value.checkAllComplete, seq_eq_ok, Value.allEveryRow, Bool.and_eq_true,
      v.checkComplete_iff, Value.checkAllComplete_iff vs]

theorem Row.checkComplete_iff : ∀ row : List Element,
    Row.checkComplete row = .ok () ↔ Row.flat row = true ∧ Row.everyRow Row.flat row = true
  | [] => by simp [Row.checkComplete, Row.flat, Row.everyRow]
  | .value v :: es => by
    have ih := Row.checkComplete_iff es
    simp only [Row.flat] at ih
    simp only [Row.checkComplete, Element.checkComplete, seq_eq_ok, Row.flat, List.all_cons,
      Element.isValue, Bool.true_and, Row.everyRow, Element.everyRow, Bool.and_eq_true,
      v.checkComplete_iff, ih]
    tauto
  | .row _ :: es => by
    simp [Row.checkComplete, Element.checkComplete, Row.flat, Element.isValue, bind, Except.bind]
end

/-! ## Slices of targets -/

mutual
/-- Whether every slice among the written parts of a target is over something without selections. -/
def Value.plainSlices : Value → Bool
  | .slice value _ _ => !value.selects
  | .concat parts => Value.allPlainSlices parts
  | .select row _ => Row.plainSlices row
  | _ => true

def Value.allPlainSlices : List Value → Bool
  | [] => true
  | v :: vs => v.plainSlices && Value.allPlainSlices vs

def Row.plainSlices : List Element → Bool
  | [] => true
  | e :: es => Element.plainSlices e && Row.plainSlices es

def Element.plainSlices : Element → Bool
  | .value v => v.plainSlices
  | .row elements => Row.plainSlices elements
end

theorem Value.allPlainSlices_iff {vs : List Value} :
    Value.allPlainSlices vs = true ↔ ∀ v ∈ vs, v.plainSlices = true :=
  all_of_cons rfl fun _ _ => rfl

theorem Row.plainSlices_leaves {row : Row} (h : Row.plainSlices row = true) :
    ∀ v ∈ Row.leaves row, v.plainSlices = true :=
  Row.all_leaves Row.plainSlices Element.plainSlices (fun _ _ => rfl) (fun _ => rfl)
    (fun _ h => h) row h

/-! ## Places -/

theorem Value.allAssignable_iff {vs : List Value} :
    Value.allAssignable vs = true ↔ ∀ v ∈ vs, v.assignable = true :=
  all_of_cons rfl fun _ _ => rfl

theorem Row.assignable_leaves {row : Row} (h : Row.assignable row = true) :
    ∀ v ∈ Row.leaves row, v.assignable = true :=
  Row.all_leaves Row.assignable Element.assignable (fun _ _ => rfl) (fun _ => rfl)
    (fun _ h => h) row h

/-! ## Blocks -/

section

variable (onAssign : Value → Value → Prop) (onGuard : Value → Prop)

mutual
/-- Every assignment of the statement and every condition and selector has its property. -/
def Statement.Every : Statement → Prop
  | .assign target source => onAssign target source
  | .branch condition taken otherwise =>
    onGuard condition ∧ Block.Every taken ∧ Block.EveryOtherwise otherwise
  | .switch selector cases => onGuard selector ∧ Case.Every cases

def Block.Every : List Statement → Prop
  | [] => True
  | s :: rest => s.Every ∧ Block.Every rest

def Block.EveryOtherwise : Option (List Statement) → Prop
  | none => True
  | some body => Block.Every body

def Case.Every : List Case → Prop
  | [] => True
  | ⟨_, body⟩ :: rest => Block.Every body ∧ Case.Every rest
end

variable {onAssign onGuard}

theorem Block.every_iff {block : Block} :
    Block.Every onAssign onGuard block ↔ ∀ s ∈ block, s.Every onAssign onGuard := by
  induction block with
  | nil => simp [Block.Every]
  | cons s rest ih => simp [Block.Every, ih]

theorem Block.every_append {a b : Block} (ha : Block.Every onAssign onGuard a)
    (hb : Block.Every onAssign onGuard b) : Block.Every onAssign onGuard (a ++ b) := by
  rw [Block.every_iff] at ha hb ⊢
  intro s hs
  rcases List.mem_append.mp hs with hs | hs
  · exact ha s hs
  · exact hb s hs

theorem Block.everyOtherwise_iff {otherwise : Option Block} :
    Block.EveryOtherwise onAssign onGuard otherwise ↔
      ∀ body, otherwise = some body → Block.Every onAssign onGuard body := by
  cases otherwise with
  | none => simp [Block.EveryOtherwise]
  | some body => simp [Block.EveryOtherwise]

theorem Case.every_iff {cases : List Case} :
    Case.Every onAssign onGuard cases ↔ ∀ c ∈ cases, Block.Every onAssign onGuard c.body := by
  induction cases with
  | nil => simp [Case.Every]
  | cons c rest ih =>
    obtain ⟨patterns, body⟩ := c
    simp [Case.Every, ih, Case.body]

/-- Two properties of a statement combine into what they give together. -/
theorem Statement.Every.combine {onAssign' result : Value → Value → Prop}
    {onGuard' guardResult : Value → Prop} {s : Statement} (h : s.Every onAssign onGuard)
    (h' : s.Every onAssign' onGuard') (ha : ∀ t v, onAssign t v → onAssign' t v → result t v)
    (hg : ∀ c, onGuard c → onGuard' c → guardResult c) : s.Every result guardResult := by
  induction s with
  | assign target source => exact ha target source h h'
  | branch condition taken otherwise iht iho =>
    refine ⟨hg _ h.1 h'.1, Block.every_iff.mpr fun s hs => ?_,
      Block.everyOtherwise_iff.mpr fun body hb => Block.every_iff.mpr fun s hs => ?_⟩
    · exact iht s hs (Block.every_iff.mp h.2.1 s hs) (Block.every_iff.mp h'.2.1 s hs)
    · exact iho body hb s hs (Block.every_iff.mp (Block.everyOtherwise_iff.mp h.2.2 body hb) s hs)
        (Block.every_iff.mp (Block.everyOtherwise_iff.mp h'.2.2 body hb) s hs)
  | switch selector cases ih =>
    refine ⟨hg _ h.1 h'.1, Case.every_iff.mpr fun c hc => Block.every_iff.mpr fun s hs => ?_⟩
    exact ih c hc s hs (Block.every_iff.mp (Case.every_iff.mp h.2 c hc) s hs)
      (Block.every_iff.mp (Case.every_iff.mp h'.2 c hc) s hs)

theorem Block.Every.combine {onAssign' result : Value → Value → Prop}
    {onGuard' guardResult : Value → Prop} {block : Block} (h : Block.Every onAssign onGuard block)
    (h' : Block.Every onAssign' onGuard' block)
    (ha : ∀ t v, onAssign t v → onAssign' t v → result t v)
    (hg : ∀ c, onGuard c → onGuard' c → guardResult c) : Block.Every result guardResult block :=
  Block.every_iff.mpr fun s hs =>
    (Block.every_iff.mp h s hs).combine (Block.every_iff.mp h' s hs) ha hg

/-- What holds of all targets, sources, conditions and selectors holds of all values. -/
theorem Statement.Every.values {P : Value → Prop} {s : Statement}
    (h : s.Every (fun t v => P t ∧ P v) P) : ∀ v ∈ s.values, P v := by
  have hblock : ∀ {block : Block}, Block.Every (fun t v => P t ∧ P v) P block →
      (∀ s ∈ block, s.Every (fun t v => P t ∧ P v) P → ∀ v ∈ s.values, P v) →
      ∀ v ∈ Block.values block, P v := by
    intro block hb ih v hv
    rw [Block.values_eq] at hv
    obtain ⟨s, hs, hv⟩ := List.mem_flatMap.mp hv
    exact ih s hs (Block.every_iff.mp hb s hs) v hv
  induction s with
  | assign target source =>
    intro v hv
    rcases List.mem_cons.mp hv with rfl | hv
    · exact h.1
    · exact List.mem_singleton.mp hv ▸ h.2
  | branch condition taken otherwise iht iho =>
    intro v hv
    rcases List.mem_cons.mp hv with rfl | hv
    · exact h.1
    rcases List.mem_append.mp hv with hv | hv
    · exact hblock h.2.1 iht v hv
    · cases otherwise with
      | none => cases hv
      | some body => exact hblock h.2.2 (iho body rfl) v hv
  | switch selector cases ih =>
    intro v hv
    rcases List.mem_cons.mp hv with rfl | hv
    · exact h.1
    · rw [Case.values_eq] at hv
      obtain ⟨c, hc, hv⟩ := List.mem_flatMap.mp hv
      exact hblock (Case.every_iff.mp h.2 c hc) (ih c hc) v hv

end

/-- No target of the block has a slice over a selection. -/
def Block.PlainTargets : Block → Prop :=
  Block.Every (fun target _ => target.plainSlices = true) (fun _ => True)

/-- A target that is a place throughout and complete. -/
def Value.IsTarget (v : Value) : Prop := v.assignable = true ∧ v.checkComplete = .ok ()

/-- What checked construction promises of a block: targets are complete places, and so are complete
all values that are read. -/
def Block.Accepted : Block → Prop :=
  Block.Every (fun target source => target.IsTarget ∧ source.checkComplete = .ok ())
    (fun guard => guard.checkComplete = .ok ())

theorem Statement.checkedAssign_eq_ok {target source : Value} {s : Statement} :
    Statement.checkedAssign target source = .ok s ↔
      target.IsTarget ∧ source.checkComplete = .ok () ∧ s = .assign target source := by
  unfold Statement.checkedAssign Value.IsTarget
  split
  · rename_i ha
    simp only [bind_eq_ok, ha, true_and]
    constructor
    · rintro ⟨_, ht, _, hs, h⟩
      cases h
      exact ⟨ht, hs, rfl⟩
    · rintro ⟨ht, hs, rfl⟩
      exact ⟨(), ht, (), hs, rfl⟩
  · rename_i ha
    simp [ha]

/-- Pruning keeps no body that was not given. -/
theorem pruneCases_body {selector : Value} {seen : Bool} {cases kept : List Case}
    (h : (pruneCases selector seen cases).result = .ok kept) :
    ∀ c ∈ kept, ∃ given ∈ cases, c.body = given.body := by
  induction cases generalizing seen kept with
  | nil =>
    cases h
    simp
  | cons c rest ih =>
    have hmore : ∀ {b : Bool} {c' : Case} {kept' : List Case}, c'.body = c.body →
        (pruneCases selector b rest).result = .ok kept' →
        ∀ d ∈ c' :: kept', ∃ given ∈ c :: rest, d.body = given.body := by
      intro b c' kept' hc' hk d hd
      rcases List.mem_cons.mp hd with rfl | hd
      · exact ⟨c, List.mem_cons_self, hc'⟩
      · obtain ⟨given, hg, he⟩ := ih hk d hd
        exact ⟨given, List.mem_cons_of_mem _ hg, he⟩
    obtain ⟨patterns, body⟩ := c
    cases patterns with
    | nil =>
      simp only [pruneCases] at h
      split at h
      · cases h
      · cases hk : (pruneCases selector true rest).result with
        | error e => simp [hk, Except.map] at h
        | ok kept' =>
          simp only [hk, Except.map, Except.ok.injEq] at h
          subst h
          exact hmore rfl hk
    | cons p ps =>
      simp only [pruneCases] at h
      split at h
      · cases h
      · intro d hd
        obtain ⟨given, hg, he⟩ := ih h d hd
        exact ⟨given, List.mem_cons_of_mem _ hg, he⟩
      · rename_i left _ _
        cases hk : (pruneCases selector seen rest).result with
        | error e => simp [hk, Except.map] at h
        | ok kept' =>
          simp only [hk, Except.map, Except.ok.injEq] at h
          subst h
          exact hmore rfl hk

section

variable {onAssign : Value → Value → Prop} {onGuard : Value → Prop} {s : Statement}

theorem Statement.checkedSwitch_every {selector : Value} {cases : List Case}
    (hs : selector.checkComplete = .ok () → onGuard selector)
    (hb : ∀ c ∈ cases, Block.Every onAssign onGuard c.body)
    (h : (Statement.checkedSwitch selector cases).result = .ok s) : s.Every onAssign onGuard := by
  unfold Statement.checkedSwitch at h
  split at h
  · cases h
  · rename_i hcomplete
    cases hk : (pruneCases selector false cases).result with
    | error e => simp [hk, Except.map] at h
    | ok kept =>
      simp only [hk, Except.map, Except.ok.injEq] at h
      subst h
      refine ⟨hs hcomplete, Case.every_iff.mpr fun c hc => ?_⟩
      obtain ⟨given, hg, he⟩ := pruneCases_body hk c hc
      exact he ▸ hb given hg

theorem chainArms_every {arms : List (Value × Block)} {otherwise result : Option Block}
    (hc : ∀ arm ∈ arms, arm.1.checkComplete = .ok () → onGuard arm.1)
    (ha : ∀ arm ∈ arms, Block.Every onAssign onGuard arm.2)
    (ho : Block.EveryOtherwise onAssign onGuard otherwise)
    (h : chainArms arms otherwise = .ok result) : Block.EveryOtherwise onAssign onGuard result := by
  induction arms generalizing result with
  | nil =>
    cases h
    exact ho
  | cons arm rest ih =>
    obtain ⟨condition, body⟩ := arm
    obtain ⟨inner, hi, h⟩ := bind_eq_ok.mp h
    obtain ⟨_, hcomplete, h⟩ := bind_eq_ok.mp h
    cases h
    have hinner := ih (fun a h => hc a (List.mem_cons_of_mem _ h))
      (fun a h => ha a (List.mem_cons_of_mem _ h)) hi
    exact ⟨⟨hc _ List.mem_cons_self hcomplete, ha _ List.mem_cons_self, hinner⟩, trivial⟩

theorem Statement.chain_every {condition : Value} {body : Block}
    {others : List (Value × Block)} {otherwise : Option Block}
    (hcondition : condition.checkComplete = .ok () → onGuard condition)
    (hb : Block.Every onAssign onGuard body)
    (hc : ∀ arm ∈ others, arm.1.checkComplete = .ok () → onGuard arm.1)
    (ha : ∀ arm ∈ others, Block.Every onAssign onGuard arm.2)
    (ho : Block.EveryOtherwise onAssign onGuard otherwise)
    (h : Statement.chain condition body others otherwise = .ok s) : s.Every onAssign onGuard := by
  obtain ⟨inner, hi, h⟩ := bind_eq_ok.mp h
  obtain ⟨_, hcomplete, h⟩ := bind_eq_ok.mp h
  cases h
  exact ⟨hcondition hcomplete, hb, chainArms_every hc ha ho hi⟩

end

end Gateware
