import Gateware.Proofs.Accepted
import Gateware.Proofs.Eval.Block

/-! # Which case a switch takes

A switch is built over what is left of the given cases: number patterns that need more bits than the
selector has are taken out, and so are cases that lose all their patterns. A selector with bits
never holds such a number, so the first case that fits it is the first one given that does.

A selector without bits holds zero, and zero counts as a number of one bit. There the built switch
passes over every number, also over the one that the selector holds.
-/
namespace Gateware

namespace Pattern

/-- Whether pruning for a selector of `width` bits leaves the pattern. -/
def stays (width : Nat) : Pattern → Bool
  | .int value => decide (bitsNeeded value ≤ width)
  | .bits _ => true

/-- Whether the selector has bits to compare with the pattern: without any, no number counts. -/
def counts (width : Nat) : Pattern → Bool
  | .int _ => decide (0 < width)
  | .bits _ => true

variable {p : Pattern} {value raw width : Nat}

theorem bitsNeeded_eq (value : Nat) : bitsNeeded value = Bits.needed value false := by
  cases value with
  | zero => rfl
  | succ n =>
    change max (Bits.length (n + 1)) 1 = Bits.length (n + 1) + 0
    have hpos : 1 ≤ Bits.length (n + 1) := by simp [Bits.length]
    omega

theorem bitsNeeded_le (hwidth : 0 < width) (h : value < 2 ^ width) : bitsNeeded value ≤ width := by
  rw [bitsNeeded_eq]
  exact Bits.needed_le hwidth h

theorem bitsNeeded_pos (value : Nat) : 0 < bitsNeeded value := by
  unfold bitsNeeded
  omega

theorem stays_and_fits (p : Pattern) (raw width : Nat) :
    (p.stays width && p.fits raw width) = (p.counts width && p.fits raw width) := by
  cases p with
  | bits pattern => rfl
  | int value =>
    simp only [stays, counts, fits]
    by_cases hfits : value = Bits.truncate raw width
    · have hlt : value < 2 ^ width := hfits ▸ Bits.truncate_lt raw width
      have hneeded : bitsNeeded value ≤ width ↔ 0 < width :=
        ⟨fun h => (bitsNeeded_pos value).trans_le h, fun h => bitsNeeded_le h hlt⟩
      simp only [hneeded]
    · have hnot : (value == Bits.truncate raw width) = false := beq_false_of_ne hfits
      rw [hnot, Bool.and_false, Bool.and_false]

theorem counts_of_pos (hwidth : 0 < width) (p : Pattern) : p.counts width = true := by
  cases p with
  | bits pattern => rfl
  | int value => simpa [counts] using hwidth

end Pattern

/-! ## What pruning leaves -/

section

variable {selector : Value}

theorem map_eq_ok {ε α β : Type} {f : α → β} {x : Except ε α} {b : β}
    (h : x.map f = .ok b) : ∃ a, x = .ok a ∧ f a = b := by
  cases x with
  | error e => cases h
  | ok a => exact ⟨a, rfl, Except.ok.inj h⟩

theorem prunePatterns_eq_ok {patterns kept : List Pattern}
    (h : (prunePatterns selector patterns).result = .ok kept) :
    kept = patterns.filter (Pattern.stays selector.width) := by
  induction patterns generalizing kept with
  | nil =>
    cases h
    rfl
  | cons p rest ih =>
    cases p with
    | bits pattern =>
      simp only [prunePatterns] at h
      split at h
      · cases h
      · obtain ⟨tail, htail, rfl⟩ := map_eq_ok h
        rw [ih htail, List.filter_cons_of_pos rfl]
    | int value =>
      simp only [prunePatterns] at h
      split at h
      · rename_i hwide
        simp [Pattern.stays, hwide, ih h]
      · rename_i hwide
        obtain ⟨tail, htail, rfl⟩ := map_eq_ok h
        simp [Pattern.stays, Nat.not_lt.mp hwide, ih htail]

/-- What pruning leaves of a case: a default case as it is, any other with the patterns that stay,
and nothing without one. -/
def Case.left (width : Nat) (c : Case) : Option Case :=
  if c.isDefault then some c
  else
    let kept := c.patterns.filter (Pattern.stays width)
    if kept.isEmpty then none else some ⟨kept, c.body⟩

theorem Case.left_of_default (width : Nat) (body : Block) :
    Case.left width ⟨[], body⟩ = some ⟨[], body⟩ := rfl

theorem Case.left_of_cons (width : Nat) (p : Pattern) (ps : List Pattern) (body : Block) :
    Case.left width ⟨p :: ps, body⟩ =
      if ((p :: ps).filter (Pattern.stays width)).isEmpty then none
      else some ⟨(p :: ps).filter (Pattern.stays width), body⟩ := rfl

theorem Case.body_of_left {width : Nat} {c kept : Case} (h : c.left width = some kept) :
    kept.body = c.body := by
  unfold Case.left at h
  split at h
  · cases h
    rfl
  · dsimp only at h
    split at h
    · cases h
    · cases h
      rfl

theorem pruneCases_eq_ok {seen : Bool} {cases kept : List Case}
    (h : (pruneCases selector seen cases).result = .ok kept) :
    kept = cases.filterMap (Case.left selector.width) := by
  induction cases generalizing seen kept with
  | nil =>
    cases h
    rfl
  | cons c rest ih =>
    obtain ⟨patterns, body⟩ := c
    cases patterns with
    | nil =>
      simp only [pruneCases] at h
      split at h
      · cases h
      · obtain ⟨tail, htail, rfl⟩ := map_eq_ok h
        rw [List.filterMap_cons, Case.left_of_default, ← ih htail]
    | cons p ps =>
      simp only [pruneCases] at h
      rw [List.filterMap_cons, Case.left_of_cons]
      split at h
      · cases h
      · rename_i hhead
        rw [← prunePatterns_eq_ok hhead, ← ih h]
        rfl
      · rename_i left hne hhead
        obtain ⟨tail, htail, rfl⟩ := map_eq_ok h
        rw [← prunePatterns_eq_ok hhead, ← ih htail, List.isEmpty_eq_false_iff.mpr hne]
        rfl

/-- Cases of single numbers that the selector can hold are left as they are, and there is nothing to
say about them. -/
theorem pruneCases_of_numbers {seen : Bool} {cases : List Case}
    (h : ∀ c ∈ cases, ∃ value, c.patterns = [.int value] ∧
      Pattern.bitsNeeded value ≤ selector.width) :
    pruneCases selector seen cases = ⟨[], .ok cases⟩ := by
  induction cases with
  | nil => rfl
  | cons c rest ih =>
    obtain ⟨⟨value, hpatterns, hvalue⟩, hrest⟩ := List.forall_mem_cons.mp h
    obtain ⟨patterns, body⟩ := c
    obtain rfl : patterns = [.int value] := hpatterns
    have hhead : prunePatterns selector [.int value] = ⟨[], .ok [.int value]⟩ := by
      simp only [prunePatterns, if_neg (Nat.not_lt.mpr hvalue), Except.map]
    simp only [pruneCases, hhead, ih hrest, List.nil_append, Except.map]

theorem Statement.checkedSwitch_eq_ok {cases : List Case} {s : Statement}
    (h : (Statement.checkedSwitch selector cases).result = .ok s) :
    s = .switch selector (cases.filterMap (Case.left selector.width)) := by
  unfold Statement.checkedSwitch at h
  split at h
  · cases h
  · obtain ⟨kept, hkept, rfl⟩ := map_eq_ok h
    rw [pruneCases_eq_ok hkept]

end

/-! ## The first case -/

/-- Runs the body of the first case that passes the test; without one nothing happens. -/
def Case.runFirst (read : State) (test : Case → Bool) (cases : List Case) (write : State) :
    Except EvalError State :=
  match cases.find? test with
  | some c => Block.execute read c.body write
  | none => .ok write

/-- Whether a switch takes the case: it is the default case, or a pattern that counts fits. -/
def Case.taken (c : Case) (raw width : Nat) : Bool :=
  c.isDefault || c.patterns.any fun p => p.counts width && p.fits raw width

section

variable {read : State} {raw width : Nat}

theorem Case.execute_eq_runFirst (read : State) (raw width : Nat) (cases : List Case)
    (write : State) : Case.execute read raw width cases write =
      Case.runFirst read (fun c => c.fits raw width) cases write := by
  induction cases with
  | nil => rfl
  | cons c rest ih =>
    obtain ⟨patterns, body⟩ := c
    unfold Case.runFirst at ih ⊢
    rw [Case.execute, List.find?_cons, ih]
    cases (Case.mk patterns body).fits raw width with
    | true => rfl
    | false => rfl

/-- A case of one number fits that number. -/
theorem Case.fits_number {value bits width : Nat} {body : Block}
    (hbits : Bits.truncate bits width = bits) :
    (Case.mk [.int value] body).fits bits width = (value == bits) := by
  simp [Case.fits, Case.isDefault, Case.patterns, Pattern.fits, hbits]

theorem Case.taken_eq_fits (hwidth : 0 < width) (c : Case) :
    c.taken raw width = c.fits raw width := by
  unfold Case.taken Case.fits
  simp only [Pattern.counts_of_pos hwidth, Bool.true_and]

/-- What is left of a case fits exactly if the case is taken. -/
theorem Case.left_any_fits (c : Case) (raw width : Nat) :
    ((c.left width).any fun kept => kept.fits raw width) = c.taken raw width := by
  obtain ⟨patterns, body⟩ := c
  cases patterns with
  | nil => rfl
  | cons p ps =>
    have hcounts : (p :: ps).any (fun q => q.counts width && q.fits raw width) =
        ((p :: ps).filter (Pattern.stays width)).any fun q => q.fits raw width := by
      rw [List.any_filter]
      simp only [Pattern.stays_and_fits]
    rw [Case.left_of_cons, Case.taken, Case.isDefault, Case.patterns, hcounts, List.isEmpty_cons,
      Bool.false_or]
    cases hkept : (p :: ps).filter (Pattern.stays width) with
    | nil => rfl
    | cons q qs => rfl

theorem Case.runFirst_left (cases : List Case) (write : State) :
    Case.runFirst read (fun c => c.fits raw width) (cases.filterMap (Case.left width)) write =
      Case.runFirst read (fun c => c.taken raw width) cases write := by
  unfold Case.runFirst
  rw [List.find?_filterMap]
  simp only [Case.left_any_fits]
  cases hfirst : cases.find? fun c => c.taken raw width with
  | none => rfl
  | some c =>
    have htaken : c.taken raw width = true :=
      List.find?_some (p := fun c : Case => c.taken raw width) hfirst
    rw [← Case.left_any_fits] at htaken
    cases hleft : c.left width with
    | none =>
      rw [hleft] at htaken
      cases htaken
    | some kept =>
      rw [Option.bind_some, hleft]
      dsimp only
      rw [Case.body_of_left hleft]

/-- A switch that was built runs the body of the first given case that is a default case or has a
pattern that fits the selector, numbers not counted if the selector has no bits; if there is no such
case nothing happens. On a selector with bits that is the first given case that fits. -/
theorem Statement.checkedSwitch_runs_first {selector : Value} {cases : List Case} {s : Statement}
    (built : (Statement.checkedSwitch selector cases).result = .ok s) {bits : Nat}
    (evaluates : selector.eval read = .ok bits) (write : State) :
    s.execute read write =
        Case.runFirst read (fun c => c.taken bits selector.width) cases write ∧
      (0 < selector.width → s.execute read write =
        Case.runFirst read (fun c => c.fits bits selector.width) cases write) := by
  have hexecute : s.execute read write =
      Case.runFirst read (fun c => c.taken bits selector.width) cases write := by
    rw [Statement.checkedSwitch_eq_ok built, Statement.execute, evaluates, ← Case.runFirst_left,
      ← Case.execute_eq_runFirst]
    rfl
  refine ⟨hexecute, fun hwidth => ?_⟩
  rw [hexecute]
  simp only [Case.taken_eq_fits hwidth]

end

def settingCase (patterns : List Pattern) (number : Nat) : Case :=
  ⟨patterns, [.assign (.signal (.named 1 "out" 4)) (.int number)]⟩

/-- Cases on two bits: the first never fits, and the second fits by its last two patterns only. -/
def mixedCases : List Case :=
  [settingCase [.int 7] 1, settingCase [.int 7, .bits "1-", .int 1] 2, settingCase [] 3,
    settingCase [.int 0] 4]

theorem Statement.checkedSwitch_runs_first_mixed :
    let selector := Value.signal (.named 0 "sel" 2)
    let two := State.empty.setBits (.named 0 "sel" 2) 2
    ∃ s, (Statement.checkedSwitch selector mixedCases).result = .ok s ∧
      (s.execute two two).map (fun out => out.get (.named 1 "out" 4)) = .ok 2 ∧
      (s.execute .empty .empty).map (fun out => out.get (.named 1 "out" 4)) = .ok 3 := by
  intro selector two
  have built : (Statement.checkedSwitch selector mixedCases).result =
      .ok (.switch selector [settingCase [.bits "1-", .int 1] 2, settingCase [] 3,
        settingCase [.int 0] 4]) := rfl
  have evaluatesTwo : selector.eval two = .ok 2 := rfl
  have evaluatesZero : selector.eval .empty = .ok 0 := rfl
  have htwo := (Statement.checkedSwitch_runs_first built evaluatesTwo two).2 (by decide)
  have hzero := (Statement.checkedSwitch_runs_first built evaluatesZero .empty).2 (by decide)
  refine ⟨_, built, ?_, ?_⟩
  · rw [htwo]
    cbv
  · rw [hzero]
    cbv

/-- A selector without bits holds zero, and a case for zero fits it; the built switch does not run
its body. -/
theorem Statement.checkedSwitch_drops_zero :
    let selector := Value.signal (.named 0 "none" 0)
    let given := settingCase [.int 0] 1
    ∃ s, (Statement.checkedSwitch selector [given]).result = .ok s ∧
      selector.eval .empty = .ok 0 ∧ given.fits 0 selector.width = true ∧
      s.execute .empty .empty = .ok .empty ∧
      Block.execute .empty given.body .empty =
        .ok (State.empty.setBits (.named 1 "out" 4) 1) := by
  exact ⟨_, rfl, rfl, rfl, rfl, rfl⟩

end Gateware
