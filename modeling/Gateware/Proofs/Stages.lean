import Gateware.Finalize
import Gateware.Proofs.Tree

/-! # How the stages of closing end

Closing a module runs its stages one after the other and stops at the first that does not end well.
Transforms fail with a refused construction, and settling domains below the root with a contested
name.
-/
namespace Gateware

variable {ω : Type}

section

variable {p : Progress Module ω} {f : Module → Session ω → Progress Module ω} {e : ElabError}

theorem Progress.andThen_of_done (h : p.ending = .done) :
    p.andThen f = f p.value p.session := by
  rw [Progress.andThen, h]

theorem Progress.andThen_of_not_done (h : p.ending ≠ .done) : p.andThen f = p := by
  unfold Progress.andThen
  split
  · contradiction
  · rfl

theorem Progress.andThen_of_failed (h : p.ending = .failed e) : p.andThen f = p :=
  andThen_of_not_done (by simp [h])

theorem Progress.andThen_eq_done :
    (p.andThen f).ending = .done ↔ p.ending = .done ∧ (f p.value p.session).ending = .done := by
  cases h : p.ending with
  | done => simp [Progress.andThen, h]
  | failed e => simp [Progress.andThen, h]
  | exhausted => simp [Progress.andThen, h]

theorem Progress.andThen_eq_failed :
    (p.andThen f).ending = .failed e ↔
      p.ending = .failed e ∨ p.ending = .done ∧ (f p.value p.session).ending = .failed e := by
  cases h : p.ending with
  | done => simp [Progress.andThen, h]
  | failed e => simp [Progress.andThen, h]
  | exhausted => simp [Progress.andThen, h]

end

section

variable {config : Config} {build : Builder ω} {depth : Nat} {root : Bool} {path : Path}
  {m : Module} {s : Session ω}

theorem Module.close_of_finalized (h : m.node.finalized = true) :
    m.close config build (depth + 1) root path s = ⟨m, s.note (.alreadyFinalized path), .done⟩ := by
  rw [Module.close, if_pos h]

/-- The stages that an open module goes through. -/
theorem Module.close_of_open (h : m.node.finalized = false) :
    m.close config build (depth + 1) root path s =
      ((((closeFrom (Module.close config build depth false) path 0 m
        (s.note (.finalizing path))).andThen
          (runHook build (Module.close config build depth false) config.finalize.maxRounds
            path)).andThen
          (runTransforms path)).andThen
          (settleDomains config.domains root path)).andThen
          (markClosed path) := by
  rw [Module.close, if_neg (by simp [h])]

theorem closeFrom_zero (close : Path → Module → Session ω → Progress Module ω) (path : Path)
    (m : Module) (s : Session ω) :
    closeFrom close path 0 m s =
      { closeChildren close path m.children s with
        value := { m with children := (closeChildren close path m.children s).value } } := by
  simp [closeFrom]

theorem Module.closed_of_done (h : (m.close config build depth root path s).ending = .done) :
    0 < depth ∧ (m.close config build depth root path s).value.node.finalized = true := by
  cases depth with
  | zero => cases h
  | succ depth =>
    refine ⟨depth.succ_pos, ?_⟩
    cases hfin : m.node.finalized with
    | true =>
      rw [Module.close_of_finalized hfin]
      exact hfin
    | false =>
      rw [Module.close_of_open hfin] at h ⊢
      obtain ⟨hsettled, -⟩ := Progress.andThen_eq_done.mp h
      rw [Progress.andThen_of_done hsettled]
      rfl

/-- The stages of an open module without a deferred construction. -/
theorem Module.close_of_plain (hopen : m.node.finalized = false) (hhook : m.node.hook = none) :
    m.close config build (depth + 1) root path s =
      (((closeFrom (Module.close config build depth false) path 0 m
        (s.note (.finalizing path))).andThen (runTransforms path)).andThen
          (settleDomains config.domains root path)).andThen (markClosed path) := by
  have hskip : (closeFrom (Module.close config build depth false) path 0 m
      (s.note (.finalizing path))).andThen (runHook build (Module.close config build depth false)
        config.finalize.maxRounds path) =
      closeFrom (Module.close config build depth false) path 0 m (s.note (.finalizing path)) := by
    unfold Progress.andThen
    split
    · rename_i hdone
      rw [runHook, closeFrom_zero] at *
      simp only [hhook]
      rw [← hdone]
    · rfl
  rw [Module.close_of_open hopen, hskip]

end

section

variable {close : Path → Module → Session ω → Progress Module ω} {path : Path} {s : Session ω}

theorem exists_of_forall₂ {α β : Type} {R : α → β → Prop} {as : List α} {bs : List β}
    (h : List.Forall₂ R as bs) : ∀ b ∈ bs, ∃ a ∈ as, R a b := by
  induction h with
  | nil => exact nofun
  | cons hab _ ih =>
    refine List.forall_mem_cons.mpr ⟨⟨_, List.mem_cons_self, hab⟩, fun b hb => ?_⟩
    obtain ⟨a, ha, hR⟩ := ih b hb
    exact ⟨a, List.mem_cons_of_mem _ ha, hR⟩

/-- Children closed one by one, each of them to the end. -/
def AllClosed (close : Path → Module → Session ω → Progress Module ω)
    (children closed : List (Option String × Module)) : Prop :=
  List.Forall₂ (fun c d => d.1 = c.1 ∧ ∃ path s, (close path c.2 s).ending = .done ∧
    (close path c.2 s).value = d.2) children closed

theorem closeChildren_eq_done {children : List (Option String × Module)}
    (h : (closeChildren close path children s).ending = .done) :
    AllClosed close children (closeChildren close path children s).value := by
  induction children generalizing s with
  | nil => exact .nil
  | cons c rest ih =>
    obtain ⟨name, m⟩ := c
    rw [closeChildren] at h ⊢
    dsimp only at h ⊢
    split at h
    · rename_i hdone
      exact .cons ⟨rfl, _, _, hdone, rfl⟩ (ih h)
    · rename_i hnot
      exact absurd h hnot

theorem runTransforms_of_none {m : Module} (h : m.node.transforms = []) :
    runTransforms path m s = ⟨m, s, .done⟩ := by
  obtain ⟨node, children⟩ := m
  have hnode : { node with transforms := [] } = node := by rw [← show node.transforms = [] from h]
  rw [runTransforms, Node.takeTransforms, hnode]
  dsimp only at h ⊢
  rw [h, applyTransforms]

end

/-! ## Domains -/

def Ending.ofResult : Except ElabError Unit → Ending
  | .ok _ => .done
  | .error e => .failed e

theorem Ending.ofResult_eq_failed {result : Except ElabError Unit} {e : ElabError} :
    Ending.ofResult result = .failed e ↔ result = .error e := by
  cases result with
  | ok _ => simp [Ending.ofResult]
  | error e' => simp [Ending.ofResult]

theorem Ending.ofResult_eq_done {result : Except ElabError Unit} :
    Ending.ofResult result = .done ↔ result = .ok () := by
  cases result with
  | ok _ => simp [Ending.ofResult]
  | error e => simp [Ending.ofResult]

def Module.withMemoryDomain (m : Module) (domain : String) : Module :=
  { m with node := m.node.resolveMemoryDomains domain }

section

variable {config : DomainConfig} {path : Path} {m : Module} {s : Session ω}

theorem settleDomains_of_error {root : Bool} {e : NamingError}
    (h : ((m.withMemoryDomain config.defaultMemoryDomain).resolve path).result = .error e) :
    (settleDomains config root path m s).value =
        ((m.withMemoryDomain config.defaultMemoryDomain).resolve path).module ∧
      (settleDomains config root path m s).ending = .failed (.naming e) := by
  unfold settleDomains
  simp only [Module.withMemoryDomain] at h ⊢
  rw [h]
  exact ⟨rfl, rfl⟩

theorem settleDomains_of_ok
    (h : ((m.withMemoryDomain config.defaultMemoryDomain).resolve path).result = .ok ()) :
    (settleDomains config false path m s).value =
        ((m.withMemoryDomain config.defaultMemoryDomain).resolve path).module ∧
      (settleDomains config false path m s).ending = .done := by
  unfold settleDomains
  simp only [Module.withMemoryDomain] at h ⊢
  rw [h]
  exact ⟨rfl, rfl⟩

/-- At the root the uses decide. -/
theorem settleDomains_root_of_ok
    (h : ((m.withMemoryDomain config.defaultMemoryDomain).resolve path).result = .ok ()) :
    let check := ((m.withMemoryDomain config.defaultMemoryDomain).resolve path).module.checkUses
      config.createSync path s.next
    (settleDomains config true path m s).value = check.module ∧
      (settleDomains config true path m s).ending = .ofResult check.result := by
  unfold settleDomains
  simp only [Module.withMemoryDomain] at h ⊢
  rw [h]
  simp only [↓reduceIte]
  split
  · rename_i hcheck
    rw [hcheck]
    exact ⟨rfl, rfl⟩
  · rename_i hcheck
    rw [hcheck]
    exact ⟨rfl, rfl⟩

end

/-! ## How stages end -/

section

variable {path : Path} {m : Module} {s : Session ω} {e : ElabError}

theorem applyTransforms_failed {transforms : List Transform}
    (h : (applyTransforms path transforms m s).ending = .failed e) :
    ∃ c, e = .construction c := by
  induction transforms generalizing m s with
  | nil => cases h
  | cons t rest ih =>
    rw [applyTransforms] at h
    split at h
    · cases h
      exact ⟨_, rfl⟩
    · exact ih h

theorem settleDomains_failed {config : DomainConfig}
    (h : (settleDomains config false path m s).ending = .failed e) : ∃ c, e = .naming c := by
  cases hresult : ((m.withMemoryDomain config.defaultMemoryDomain).resolve path).result with
  | error c =>
    rw [(settleDomains_of_error hresult).2] at h
    cases h
    exact ⟨c, rfl⟩
  | ok _ =>
    rw [(settleDomains_of_ok hresult).2] at h
    cases h

end

end Gateware
