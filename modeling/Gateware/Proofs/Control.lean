import Gateware.Proofs.Domain.Drivers
import Gateware.Proofs.Eval.Latch
import Gateware.Proofs.Eval.Range

/-! # Resets and enables decide

A reset or an enable is one more statement at the end of the block of its domain, in every node of a
tree. It assigns whole signals, from what they hold before the edge, and so decides over all that
the block did. Those inserted later stand behind it and find the same driven signals. So the last
active one that covers a register decides what it holds after the edge.
-/
namespace Gateware

/-! ## Assignments to whole signals -/

theorem Block.execute_get {read write out : State} {block : Block} {s : Signal}
    (hs : ∀ t ∈ Block.targets block, t.id ≠ s.id)
    (he : Block.execute read block write = .ok out) : out.get s = write.get s := by
  rw [State.get_eq_entry, ← Block.execute_frame hs he, State.get_eq_entry]

/-- Each signal gets what its source is read to be, also if an earlier one stands in the source. -/
theorem Block.execute_wholes {read write out : State} {signals : List Signal}
    {source : Signal → Value} (hnodup : (signals.map Signal.id).Nodup)
    (hwidth : ∀ s, (source s).width = s.width)
    (h : Block.execute read (signals.map fun s => .assign (.signal s) (source s)) write = .ok out)
    {s : Signal} (hs : s ∈ signals) : (source s).eval read = .ok (out.get s) := by
  induction signals generalizing write with
  | nil => cases hs
  | cons t rest ih =>
    rw [List.map_cons, List.nodup_cons] at hnodup
    obtain ⟨next, hfirst, hrest⟩ := Block.execute_cons_eq_ok.mp h
    rcases List.mem_cons.mp hs with rfl | hs
    · obtain ⟨n, hn, hstore⟩ := Statement.execute_assign_eq_ok.mp hfirst
      cases hstore
      -- nothing behind the assignment writes the signal again
      have hlater : ∀ t ∈ Block.targets (rest.map fun s => .assign (.signal s) (source s)),
          t.id ≠ s.id := by
        rw [Block.targets_wholes]
        intro t ht hid
        exact hnodup.1 (List.mem_map.mpr ⟨t, ht, hid⟩)
      rw [Block.execute_get hlater hrest, State.get_setBits, if_pos rfl, Value.eval_of_number hn,
        hwidth]
    · exact ih hnodup.2 hrest hs

section

variable {read write out : State} {driven : List Signal} {s : Signal}

theorem resetAssignments_execute (hnodup : (driven.map Signal.id).Nodup) {resets : Block}
    (hresets : resetAssignments driven = .ok resets)
    (he : Block.execute read resets write = .ok out) (hs : s ∈ driven) :
    out.get s = if s.resetLess then write.get s else s.resetBits := by
  rw [resetAssignments_eq hresets] at he
  split
  · rename_i hless
    refine Block.execute_get ?_ he
    rw [Block.targets_wholes]
    intro t ht hid
    obtain ⟨hmem, hreset⟩ := List.mem_filter.mp ht
    rw [List.inj_on_of_nodup_map hnodup hmem hs hid, hless] at hreset
    cases hreset
  · rename_i hless
    have hmem : s ∈ driven.filter fun s => !s.resetLess :=
      List.mem_filter.mpr ⟨hs, by simp [hless]⟩
    have hkept : ((driven.filter fun s => !s.resetLess).map Signal.id).Nodup :=
      hnodup.sublist (List.filter_sublist.map _)
    have hvalue := Block.execute_wholes hkept (fun _ => rfl) he hmem
    obtain ⟨-, hbits⟩ := Value.eval_const_eq_ok.mp hvalue
    rw [← hbits]
    exact Bits.truncate_truncate _ _

theorem holdAssignments_execute (hnodup : (driven.map Signal.id).Nodup)
    (he : Block.execute read (holdAssignments driven) write = .ok out) (hs : s ∈ driven) :
    out.get s = Bits.truncate (read.get s) s.width := by
  have hvalue := Block.execute_wholes hnodup (fun _ => rfl) he hs
  exact (Value.eval_signal_eq_ok.mp hvalue).2.symm

end

/-! ## Driven signals -/

theorem keepFirst_append {α β : Type} [DecidableEq β] {key : α → β} {seen : List β}
    {as bs : List α} (h : ∀ b ∈ bs, key b ∈ seen ∨ key b ∈ as.map key) :
    keepFirst key seen (as ++ bs) = keepFirst key seen as := by
  induction as generalizing seen with
  | nil =>
    -- what is kept has a key that was not seen
    have hkeys : (keepFirst key seen bs).map key = [] := by
      refine List.eq_nil_iff_forall_not_mem.mpr fun k hk => ?_
      obtain ⟨hkey, hnew⟩ := (mem_keys_keepFirst key seen bs k).mp hk
      obtain ⟨b, hb, rfl⟩ := List.mem_map.mp hkey
      exact hnew ((h b hb).resolve_right List.not_mem_nil)
    exact List.map_eq_nil_iff.mp hkeys
  | cons a as ih =>
    rw [List.cons_append, keepFirst, keepFirst]
    split
    · rename_i ha
      refine ih fun b hb => ?_
      rcases h b hb with hseen | hkey
      · exact .inl hseen
      · rcases List.mem_cons.mp hkey with hsame | hkey
        · exact .inl (hsame ▸ ha)
        · exact .inr hkey
    · congr 1
      refine ih fun b hb => ?_
      rcases h b hb with hseen | hkey
      · exact .inl (List.mem_cons_of_mem _ hseen)
      · rcases List.mem_cons.mp hkey with hsame | hkey
        · exact .inl (hsame ▸ List.mem_cons_self)
        · exact .inr hkey

/-- Statements that drive nothing new leave the list of driven signals as it is. -/
theorem Block.drives_append_of_driven {a b : Block}
    (h : ∀ t ∈ Block.targets b, t ∈ Block.drives a) : Block.drives (a ++ b) = Block.drives a := by
  have htargets : Block.targets (a ++ b) = Block.targets a ++ Block.targets b := by
    simp only [Block.targets_eq, List.flatMap_append]
  unfold Block.drives distinctSignals
  rw [htargets]
  refine keepFirst_append fun t ht => .inr ?_
  have hkey : t.id ∈ (Block.drives a).map Signal.id := List.mem_map_of_mem (h t ht)
  exact ((mem_keys_keepFirst Signal.id [] _ _).mp hkey).1

/-! ## Gates -/

/-- A reset or an enable, on the way into a domain. -/
inductive Gate where
  | reset (control : Value)
  | enable (control : Value)

namespace Gate

def transform (domain : String) : Gate → Transform
  | reset control => .insertReset domain control
  | enable control => .insertEnable domain control

def statement : Gate → List Signal → Except ConstructionError (Option Statement)
  | reset control => resetStatement control
  | enable control => enableStatement control

def body : Gate → List Signal → Except ConstructionError Block
  | reset _ => resetAssignments
  | enable _ => fun driven => .ok (holdAssignments driven)

def guard (body : Block) : Gate → Statement
  | reset control => .branch control body none
  | enable control => .branch control [] (some body)

/-- A reset acts if its control is not zero, an enable if its control is zero. -/
def active (st : State) : Gate → Bool
  | reset control => (control.eval st).toOption.any (· ≠ 0)
  | enable control => (control.eval st).toOption.any (· = 0)

def covers (s : Signal) : Gate → Bool
  | reset _ => !s.resetLess
  | enable _ => true

/-- What an active gate puts in a register: its reset bits, or those it is read to have before the
edge. -/
def bits (st : State) (s : Signal) : Gate → Nat
  | reset _ => s.resetBits
  | enable _ => Bits.truncate (st.get s) s.width

/-- The last active gate that covers the register. -/
def deciding (st : State) (s : Signal) (gates : List Gate) : Option Gate :=
  (gates.filter fun g => g.active st && g.covers s).getLast?

def outcome (st : State) (s : Signal) (gates : List Gate) (plain : Nat) : Nat :=
  ((deciding st s gates).map (bits st s)).getD plain

variable {st : State} {s : Signal} {g : Gate} {gates : List Gate} {plain : Nat}

theorem outcome_singleton :
    outcome st s [g] plain = if g.active st && g.covers s then g.bits st s else plain := by
  rw [outcome, deciding, List.filter_singleton]
  cases g.active st && g.covers s with
  | false => rfl
  | true => rfl

/-- Later gates decide over earlier ones. -/
theorem outcome_cons :
    outcome st s (g :: gates) plain = outcome st s gates (outcome st s [g] plain) := by
  unfold outcome deciding
  rw [← List.singleton_append, List.filter_append, List.getLast?_append]
  cases (gates.filter fun g => g.active st && g.covers s).getLast? with
  | none => rfl
  | some last => rfl

/-! ## One gate in one block -/

variable {driven : List Signal} {body : Block} {inserted : Option Statement}

/-- A gate inserts its branch, unless there is nothing in it. -/
theorem statement_eq_ok (h : g.statement driven = .ok inserted) :
    ∃ body, g.body driven = .ok body ∧
      (inserted = none ∧ body = [] ∨ inserted = some (g.guard body)) := by
  cases g with
  | reset control =>
    obtain ⟨resets, hresets, h⟩ := bind_eq_ok.mp h
    refine ⟨resets, hresets, ?_⟩
    split at h
    · rename_i hempty
      cases h
      exact .inl ⟨rfl, List.isEmpty_iff.mp hempty⟩
    · cases h
      exact .inr rfl
  | enable control =>
    refine ⟨holdAssignments driven, rfl, ?_⟩
    change enableStatement control driven = .ok inserted at h
    unfold enableStatement at h
    split at h
    · rename_i hempty
      cases h
      rw [List.isEmpty_iff.mp hempty]
      exact .inl ⟨rfl, rfl⟩
    · cases h
      exact .inr rfl

theorem body_targets (h : g.body driven = .ok body) : ∀ t ∈ Block.targets body, t ∈ driven := by
  cases g with
  | reset control => exact resetAssignments_targets h
  | enable control =>
    cases h
    rw [holdAssignments_targets]
    exact fun _ ht => ht

theorem guard_targets (g : Gate) (body : Block) : (g.guard body).targets = Block.targets body := by
  cases g with
  | reset control => exact List.append_nil _
  | enable control => rfl

theorem statement_targets (h : g.statement driven = .ok inserted) :
    ∀ t ∈ Block.targets inserted.toList, t ∈ driven := by
  obtain ⟨body, hbody, ⟨rfl, -⟩ | rfl⟩ := statement_eq_ok h
  · exact nofun
  · intro t ht
    rw [Option.toList_some, Block.targets_eq, List.flatMap_singleton, guard_targets] at ht
    exact body_targets hbody t ht

variable {read write out : State}

theorem body_execute (hnodup : (driven.map Signal.id).Nodup) (h : g.body driven = .ok body)
    (he : Block.execute read body write = .ok out) (hs : s ∈ driven) :
    out.get s = if g.covers s then g.bits read s else write.get s := by
  cases g with
  | reset control =>
    rw [resetAssignments_execute hnodup h he hs, covers]
    cases s.resetLess with
    | false => rfl
    | true => rfl
  | enable control =>
    cases h
    exact holdAssignments_execute hnodup he hs

/-- The branch does its assignments if the gate is active and nothing otherwise. -/
theorem guard_execute (he : (g.guard body).execute read write = .ok out) :
    (g.active read = true ∧ Block.execute read body write = .ok out) ∨
      (g.active read = false ∧ write = out) := by
  cases g with
  | reset control =>
    obtain ⟨level, hlevel, he⟩ := Statement.execute_branch_eq_ok.mp he
    rw [active, hlevel]
    split at he
    · rename_i hzero
      exact .inl ⟨decide_eq_true hzero, he⟩
    · rename_i hzero
      exact .inr ⟨decide_eq_false hzero, Except.ok.inj he⟩
  | enable control =>
    obtain ⟨level, hlevel, he⟩ := Statement.execute_branch_eq_ok.mp he
    rw [active, hlevel]
    split at he
    · rename_i hzero
      exact .inr ⟨decide_eq_false hzero, Except.ok.inj he⟩
    · rename_i hzero
      exact .inl ⟨decide_eq_true (not_not.mp hzero), he⟩

/-- Run behind a block, the statement of a gate decides the signals that the gate covers. -/
theorem statement_execute (hnodup : (driven.map Signal.id).Nodup)
    (h : g.statement driven = .ok inserted)
    (he : Block.execute read inserted.toList write = .ok out) (hs : s ∈ driven) :
    out.get s = outcome read s [g] (write.get s) := by
  rw [outcome_singleton]
  obtain ⟨body, hbody, ⟨rfl, rfl⟩ | rfl⟩ := statement_eq_ok h
  · cases he
    -- the gate covers none of the signals
    have hnone : write.get s = if g.covers s then g.bits read s else write.get s :=
      body_execute hnodup hbody rfl hs
    cases g.active read with
    | false => rfl
    | true => exact hnone
  · rw [Option.toList_some, Block.execute_singleton] at he
    rcases guard_execute he with ⟨hactive, he⟩ | ⟨hidle, rfl⟩
    · rw [hactive]
      exact body_execute hnodup hbody he hs
    · rw [hidle]
      rfl

end Gate

/-! ## One gate in every node -/

/-- The gates were inserted in the domain of the node: the block drives what it drove, and after an
edge its registers hold what the gates decide. -/
structure Node.Gated (domain : String) (gates : List Gate) (n n' : Node) : Prop where
  rest : n' = { n with blocks := n'.blocks }
  others : ∀ d, d ≠ domain → n'.blocks.get d = n.blocks.get d
  drives : Block.drives (n'.blocks.get domain) = Block.drives (n.blocks.get domain)
  ticks : ∀ st out', Block.tick (n'.blocks.get domain) st = .ok out' →
    ∃ out, Block.tick (n.blocks.get domain) st = .ok out ∧
      (∀ s ∈ Block.drives (n.blocks.get domain),
        out'.get s = Gate.outcome st s gates (out.get s)) ∧
      ∀ s, ¬ Block.Drives (n.blocks.get domain) s.id → out'.get s = out.get s

section

variable {domain : String} {n n' : Node}
  {statement : List Signal → Except ConstructionError (Option Statement)}

theorem Node.insertControl_eq_ok (h : n.insertControl domain statement = .ok n') :
    ∃ inserted, statement (Block.drives (n.blocks.get domain)) = .ok inserted ∧
      n' = { n with blocks := n'.blocks } ∧
      n'.blocks.get domain = n.blocks.get domain ++ inserted.toList ∧
      ∀ d, d ≠ domain → n'.blocks.get d = n.blocks.get d := by
  obtain ⟨inserted, hinserted, h⟩ := bind_eq_ok.mp h
  refine ⟨inserted, hinserted, ?_⟩
  cases inserted with
  | none =>
    cases h
    exact ⟨rfl, (List.append_nil _).symm, fun _ _ => rfl⟩
  | some s =>
    cases h
    refine ⟨rfl, ?_, fun d hd => ?_⟩
    · rw [Blocks.get_extend, if_pos rfl]
      rfl
    · rw [Blocks.get_extend, if_neg hd]

theorem Node.Gated.nil (n : Node) : n.Gated domain [] n :=
  ⟨rfl, fun _ _ => rfl, rfl, fun _ _ h => ⟨_, h, fun _ _ => rfl, fun _ _ => rfl⟩⟩

theorem Node.Gated.single {g : Gate} (h : n.insertControl domain g.statement = .ok n') :
    n.Gated domain [g] n' := by
  obtain ⟨inserted, hinserted, hrest, hblock, hothers⟩ := Node.insertControl_eq_ok h
  have htargets := Gate.statement_targets hinserted
  refine ⟨hrest, hothers, ?_, fun st out' htick => ?_⟩
  · rw [hblock]
    exact Block.drives_append_of_driven htargets
  · rw [hblock] at htick
    obtain ⟨out, hout, hcontrol⟩ := Block.execute_append_eq_ok.mp htick
    refine ⟨out, hout, fun s hs => ?_, fun s hs => ?_⟩
    · exact Gate.statement_execute (nodup_keys_keepFirst _ _ _) hinserted hcontrol hs
    · have hfree : ∀ t ∈ Block.targets inserted.toList, t.id ≠ s.id :=
        fun t ht hid => hs (List.mem_map.mpr ⟨t, htargets t ht, hid⟩)
      exact Block.execute_get hfree hcontrol

theorem Node.Gated.cons {g : Gate} {gates : List Gate} {n₁ : Node} (hfirst : n.Gated domain [g] n₁)
    (h : n₁.Gated domain gates n') : n.Gated domain (g :: gates) n' := by
  refine ⟨?_, fun d hd => ?_, h.drives.trans hfirst.drives, fun st out' htick => ?_⟩
  · rw [h.rest, hfirst.rest]
  · rw [h.others d hd, hfirst.others d hd]
  · obtain ⟨next, hnext, hdecided, hkept⟩ := h.ticks st out' htick
    obtain ⟨out, hout, hdecided₁, hkept₁⟩ := hfirst.ticks st next hnext
    refine ⟨out, hout, fun s hs => ?_, fun s hs => ?_⟩
    · rw [hdecided s (hfirst.drives ▸ hs), hdecided₁ s hs]
      exact Gate.outcome_cons.symm
    · rw [hkept s (by rwa [Block.Drives, hfirst.drives]), hkept₁ s hs]

end

/-! ## Gates in a tree -/

section

variable {m m' : Module}
variable {domain : String} {statement : List Signal → Except ConstructionError (Option Statement)}

theorem Node.insertControl_kind {n n' : Node} (h : n.insertControl domain statement = .ok n') :
    n'.kind = n.kind := by
  obtain ⟨_, -, hrest, -⟩ := Node.insertControl_eq_ok h
  rw [hrest]

/-- What is appended without an error is appended at every place. -/
def Module.Inserts (domain : String)
    (statement : List Signal → Except ConstructionError (Option Statement)) (m : Module) : Prop :=
  ∀ {m'}, m.insertControl domain statement = (m', .ok ()) → m'.node.kind = m.node.kind ∧
    ∀ path, List.Forall₂
      (fun x x' => x'.1 = x.1 ∧ x.2.insertControl domain statement = .ok x'.2)
      (m.walk path) (m'.walk path)

theorem Module.insertControlAll_walk {children children' : List (Option String × Module)}
    (h : ∀ c ∈ children, c.2.Inserts domain statement)
    (hall : Module.insertControlAll domain statement children = (children', .ok ())) (path : Path) :
    List.Forall₂ (fun x x' => x'.1 = x.1 ∧ x.2.insertControl domain statement = .ok x'.2)
      (Module.walkAll path children) (Module.walkAll path children') := by
  induction children generalizing children' with
  | nil =>
    cases hall
    exact .nil
  | cons c rest ih =>
    obtain ⟨name, m⟩ := c
    obtain ⟨hm, hrest⟩ := List.forall_mem_cons.mp h
    rw [Module.insertControlAll] at hall
    split at hall
    · cases hall
    · rename_i m' _ hinsert
      generalize hresult : Module.insertControlAll domain statement rest = result at hall
      obtain ⟨rest', ending⟩ := result
      cases hall
      obtain ⟨hkind, hwalk⟩ := hm hinsert
      rw [Module.walkAll, Module.walkAll, hkind]
      exact List.rel_append (hwalk _) (ih hrest hresult)

theorem Module.inserts (m : Module) : m.Inserts domain statement := by
  induction m with
  | step node children ih =>
    intro m' h
    rw [Module.insertControl] at h
    split at h
    · cases h
    · rename_i node' hnode
      generalize hresult : Module.insertControlAll domain statement children = result at h
      obtain ⟨children', ending⟩ := result
      cases h
      refine ⟨Node.insertControl_kind hnode, fun path => ?_⟩
      rw [Module.walk, Module.walk]
      exact .cons ⟨rfl, hnode⟩ (Module.insertControlAll_walk ih hresult path)

theorem Module.gated_of_apply {g : Gate} (h : (g.transform domain).apply m = (m', .ok ())) :
    m.NodeWise (Node.Gated domain [g]) m' := by
  have hinsert : m.insertControl domain g.statement = (m', .ok ()) := by
    unfold Transform.apply at h
    split at h
    · cases h
    · cases g with
      | reset control => exact h
      | enable control => exact h
  obtain ⟨hkind, hwalk⟩ := m.inserts hinsert
  unfold Module.NodeWise Module.nodes Module.kind
  rw [hkind]
  exact (hwalk _).imp fun _ _ hx => ⟨hx.1, .single hx.2⟩

/-- Resets and enables that are inserted in one domain without an error are inserted in every node
of the tree. Where the block of a node with them makes a step, the block without them makes one,
and the registers it drives hold what the last active reset or enable that covers them decides: a
reset covers those with a reset and gives them its bits, an enable covers all and gives them the
bits they had. Where none decides, and in all other signals, the steps agree. Blocks of other
domains stay. -/
theorem Module.gates_decide {ω : Type} {gates : List Gate} {path : Path} {session : Session ω}
    (applied :
      (applyTransforms path (gates.map (Gate.transform domain)) m session).ending = .done) :
    m.NodeWise (Node.Gated domain gates)
      (applyTransforms path (gates.map (Gate.transform domain)) m session).value := by
  induction gates generalizing m session with
  | nil => exact .refl Node.Gated.nil m
  | cons g gates ih =>
    rw [List.map_cons, applyTransforms] at applied ⊢
    split at applied
    · cases applied
    · rename_i m₁ _ happly
      exact .trans (fun _ _ _ hone hrest => hone.cons hrest) (Module.gated_of_apply happly)
        (ih applied)

end

def looseSignal : Signal := { Signal.named 1 "loose" 8 with resetLess := true }

/-- A register in a module and one without a reset in its child. -/
def pairTree : Module :=
  ⟨{ kind := "Top", blocks := [("sync", [.assign (.signal (.named 0 "count" 8)) (.int 7)])] },
    [(some "sub",
      ⟨{ kind := "Sub", blocks := [("sync", [.assign (.signal looseSignal) (.int 9)])] }, []⟩)]⟩

def pairGates : List Gate :=
  [.reset (.signal (.named 2 "rst" 1)), .enable (.signal (.named 3 "en" 1))]

/-- The reset is active, and with the enable low so is the enable. -/
def pairState (en : Nat) : State :=
  ((State.empty.setBits (.named 2 "rst" 1) 1).setBits (.named 3 "en" 1) en).setBits
    (.named 0 "count" 8) 5

/-- A step in which both gates are active is decided by the enable. In one in which only the reset
is, the register without a reset takes its new value. -/
theorem Module.gates_decide_pair :
    ∃ top sub out out',
      (applyTransforms (.root "Top") (pairGates.map (Gate.transform "sync")) pairTree
        ⟨4, [], ()⟩).value.nodes = [(.root "Top", top), ((Path.root "Top").child "sub", sub)] ∧
      Block.tick (top.blocks.get "sync") (pairState 0) = .ok out ∧
      out.get (.named 0 "count" 8) = 5 ∧
      Block.tick (sub.blocks.get "sync") (pairState 1) = .ok out' ∧ out'.get looseSignal = 9 := by
  have happlied : (applyTransforms (.root "Top") (pairGates.map (Gate.transform "sync")) pairTree
      ⟨4, [], ()⟩).ending = .done := rfl
  obtain ⟨⟨-, htop⟩, hbelow⟩ := List.forall₂_cons.mp (Module.gates_decide happlied)
  obtain ⟨⟨-, hsub⟩, -⟩ := List.forall₂_cons.mp hbelow
  refine ⟨_, _, _, _, rfl, rfl, ?_, rfl, ?_⟩
  · obtain ⟨out, -, hdecided, -⟩ := htop.ticks (pairState 0) _ rfl
    exact hdecided (.named 0 "count" 8) List.mem_cons_self
  · obtain ⟨out, hout, hdecided, -⟩ := hsub.ticks (pairState 1) _ rfl
    cases hout
    exact hdecided looseSignal List.mem_cons_self

end Gateware
