import Gateware.Proofs.Origin
import Gateware.Proofs.Walk

/-! # Used domains are visible

A node uses a domain by statements in it, by mentioning its clock or reset and by clocking a memory
port with it; it sees what it or a node above it has resolved. In a tree that was closed from an
open root every node sees the domains it uses. If the check finds a domain that is not visible, the
error names the first node in the order of the walk and the first such domain of that node.

The check passes over the name of the combinational domain wherever it stands, also as the clock of
a memory port.
-/
namespace Gateware

/-! ## Uses -/

inductive Value.Mentions (domain : String) : Value → Prop where
  | clock : Mentions domain (.clock domain)
  | reset : Mentions domain (.reset domain)
  | operand {o vs v} : v ∈ vs → Mentions domain v → Mentions domain (.op o vs)
  | slice {v start stop} : Mentions domain v → Mentions domain (.slice v start stop)
  | part {vs v} : v ∈ vs → Mentions domain v → Mentions domain (.concat vs)
  | repl {v count} : Mentions domain v → Mentions domain (.repl v count)
  | leaf {row index v} : v ∈ Row.leaves row → Mentions domain v →
      Mentions domain (.select row index)
  | index {row index} : Mentions domain index → Mentions domain (.select row index)

inductive Statement.Mentions (domain : String) : Statement → Prop where
  | target {target source} : target.Mentions domain → Mentions domain (.assign target source)
  | source {target source} : source.Mentions domain → Mentions domain (.assign target source)
  | condition {condition taken otherwise} : condition.Mentions domain →
      Mentions domain (.branch condition taken otherwise)
  | taken {condition taken otherwise s} : s ∈ taken → Mentions domain s →
      Mentions domain (.branch condition taken otherwise)
  | otherwise {condition taken body s} : s ∈ body → Mentions domain s →
      Mentions domain (.branch condition taken (some body))
  | selector {selector cases} : selector.Mentions domain → Mentions domain (.switch selector cases)
  | case {selector cases c s} : c ∈ cases → s ∈ Case.body c → Mentions domain s →
      Mentions domain (.switch selector cases)

inductive Node.Uses (n : Node) (domain : String) : Prop where
  | block {block} : (domain, block) ∈ n.blocks → block ≠ [] → n.Uses domain
  | statement {b s} : b ∈ n.blocks → s ∈ b.2 → s.Mentions domain → n.Uses domain
  | connection {i p} : .primitive i ∈ n.specials → p ∈ i.ports → p.value.Mentions domain →
      n.Uses domain
  | port {m p} : .memory m ∈ n.specials → p ∈ m.ports → p.asyncRead = false ∨ p.we.isSome →
      p.clockDomain = some domain → n.Uses domain

section

variable {domain : String}

theorem Value.allDomains_eq (vs : List Value) : Value.allDomains vs = vs.flatMap Value.domains :=
  flatMap_of_cons rfl (fun _ _ => rfl) vs

theorem Row.domains_eq (row : Row) : Row.domains row = (Row.leaves row).flatMap Value.domains :=
  Row.walk_eq Row.domains Element.domains rfl (fun _ _ => rfl) (fun _ => rfl) (fun _ => rfl) row

theorem Value.mem_domains {v : Value} : domain ∈ v.domains ↔ v.Mentions domain := by
  constructor
  · intro h
    induction v with
    | const c => cases h
    | signal s => cases h
    | clock d => exact List.mem_singleton.mp h ▸ .clock
    | reset d => exact List.mem_singleton.mp h ▸ .reset
    | op o vs ih =>
      rw [Value.domains, Value.allDomains_eq] at h
      obtain ⟨v, hv, h⟩ := List.mem_flatMap.mp h
      exact .operand hv (ih v hv h)
    | slice v start stop ih => exact .slice (ih h)
    | concat vs ih =>
      rw [Value.domains, Value.allDomains_eq] at h
      obtain ⟨v, hv, h⟩ := List.mem_flatMap.mp h
      exact .part hv (ih v hv h)
    | repl v count ih => exact .repl (ih h)
    | select row index ihr ihi =>
      rw [Value.domains, Row.domains_eq] at h
      rcases List.mem_append.mp h with h | h
      · obtain ⟨v, hv, h⟩ := List.mem_flatMap.mp h
        exact .leaf hv (ihr v hv h)
      · exact .index (ihi h)
  · intro h
    induction h with
    | clock => exact List.mem_singleton_self _
    | reset => exact List.mem_singleton_self _
    | operand hv _ ih =>
      rw [Value.domains, Value.allDomains_eq]
      exact List.mem_flatMap_of_mem hv ih
    | slice _ ih => exact ih
    | part hv _ ih =>
      rw [Value.domains, Value.allDomains_eq]
      exact List.mem_flatMap_of_mem hv ih
    | repl _ ih => exact ih
    | leaf hv _ ih =>
      rw [Value.domains, Row.domains_eq]
      exact List.mem_append_left _ (List.mem_flatMap_of_mem hv ih)
    | index _ ih => exact List.mem_append_right _ ih

/-- The statements that mention a domain are those with a value that does. -/
theorem Statement.mentions_iff {s : Statement} :
    s.Mentions domain ↔ ∃ v ∈ s.values, v.Mentions domain := by
  constructor
  · intro h
    induction h with
    | target h => exact ⟨_, List.mem_cons_self, h⟩
    | source h => exact ⟨_, List.mem_cons_of_mem _ (List.mem_singleton_self _), h⟩
    | condition h => exact ⟨_, List.mem_cons_self, h⟩
    | taken hs _ ih =>
      obtain ⟨v, hv, h⟩ := ih
      exact ⟨v, Statement.mem_values_taken hs hv, h⟩
    | otherwise hs _ ih =>
      obtain ⟨v, hv, h⟩ := ih
      exact ⟨v, Statement.mem_values_otherwise hs hv, h⟩
    | selector h => exact ⟨_, List.mem_cons_self, h⟩
    | case hc hs _ ih =>
      obtain ⟨v, hv, h⟩ := ih
      exact ⟨v, Statement.mem_values_case hc hs hv, h⟩
  · rintro ⟨v, hv, h⟩
    induction s with
    | assign target source =>
      rcases List.mem_cons.mp hv with rfl | hv
      · exact .target h
      · exact .source (List.mem_singleton.mp hv ▸ h)
    | branch condition taken otherwise iht iho =>
      rcases List.mem_cons.mp hv with rfl | hv
      · exact .condition h
      rcases List.mem_append.mp hv with hv | hv
      · obtain ⟨s, hs, hv⟩ := Block.mem_values.mp hv
        exact .taken hs (iht s hs hv)
      · cases otherwise with
        | none => cases hv
        | some body =>
          obtain ⟨s, hs, hv⟩ := Block.mem_values.mp hv
          exact .otherwise hs (iho body rfl s hs hv)
    | switch selector cases ih =>
      rcases List.mem_cons.mp hv with rfl | hv
      · exact .selector h
      rw [Case.values_eq] at hv
      obtain ⟨c, hc, hv⟩ := List.mem_flatMap.mp hv
      obtain ⟨s, hs, hv⟩ := Block.mem_values.mp hv
      exact .case hc hs (ih c hc s hs hv)

theorem mem_blockDomains {label : String} {block : Block} :
    domain ∈ blockDomains label block ↔
      block ≠ [] ∧ domain = label ∨ ∃ s ∈ block, s.Mentions domain := by
  have hvalues : domain ∈ (Block.values block).flatMap Value.domains ↔
      ∃ s ∈ block, s.Mentions domain := by
    simp only [List.mem_flatMap, Block.mem_values, Value.mem_domains, Statement.mentions_iff]
    constructor
    · rintro ⟨v, ⟨s, hs, hv⟩, h⟩
      exact ⟨s, hs, v, hv, h⟩
    · rintro ⟨s, hs, v, hv, h⟩
      exact ⟨v, ⟨s, hs, hv⟩, h⟩
  rw [blockDomains, List.mem_append, hvalues]
  cases block with
  | nil => simp
  | cons s rest => simp

theorem Special.mem_domains {special : Special} :
    domain ∈ special.domains ↔
      (∃ i, special = .primitive i ∧ ∃ p ∈ i.ports, p.value.Mentions domain) ∨
      ∃ m, special = .memory m ∧
        ∃ p ∈ m.ports, (p.asyncRead = false ∨ p.we.isSome) ∧ p.clockDomain = some domain := by
  cases special with
  | primitive i => simp [Special.domains, Value.mem_domains]
  | memory m => simp [Special.domains, MemoryPort.clocked, and_assoc]

/-- A node lists the domains it uses, the combinational one left out. -/
theorem Node.mem_usedDomains {n : Node} :
    domain ∈ n.usedDomains ↔ n.Uses domain ∧ domain ≠ combDomain := by
  have hkeys : ∀ used : List String, domain ∈ keepFirst id [] used ↔ domain ∈ used := by
    intro used
    simpa using mem_keys_keepFirst id [] used domain
  rw [Node.usedDomains, hkeys, List.mem_filter, bne_iff_ne, and_congr_left_iff]
  intro _
  simp only [List.mem_append, List.mem_flatMap, mem_blockDomains, Special.mem_domains]
  constructor
  · rintro (⟨b, hb, ⟨hne, rfl⟩ | ⟨s, hs, h⟩⟩ | ⟨sp, hsp, ⟨i, rfl, p, hp, h⟩ |
      ⟨m, rfl, p, hp, hclocked, h⟩⟩)
    · exact .block hb hne
    · exact .statement hb hs h
    · exact .connection hsp hp h
    · exact .port hsp hp hclocked h
  · rintro (⟨hb, hne⟩ | ⟨hb, hs, h⟩ | ⟨hsp, hp, h⟩ | ⟨hsp, hp, hclocked, h⟩)
    · exact .inl ⟨_, hb, .inl ⟨hne, rfl⟩⟩
    · exact .inl ⟨_, hb, .inr ⟨_, hs, h⟩⟩
    · exact .inr ⟨_, hsp, .inl ⟨_, rfl, _, hp, h⟩⟩
    · exact .inr ⟨_, hsp, .inr ⟨_, rfl, _, hp, hclocked, h⟩⟩

end

/-! ## What a node sees -/

structure Place where
  path : Path
  node : Node
  /-- the nodes around it, the nearest first -/
  above : List Node

namespace Place

/-- Whether the node or one above it has resolved a domain of the name. -/
def sees (p : Place) (domain : String) : Bool :=
  (p.node :: p.above).any fun n => n.resolved.any fun d => d.name == domain

def unseen (p : Place) : List (Path × String) :=
  (p.node.usedDomains.filter fun d => !p.sees d).map fun d => (p.path, d)

def Clocked (p : Place) : Prop :=
  ∀ domain, p.node.Uses domain → domain ≠ combDomain → p.sees domain = true

theorem unseen_eq_nil {p : Place} : p.unseen = [] ↔ p.Clocked := by
  simp only [unseen, List.map_eq_nil_iff, List.filter_eq_nil_iff, Bool.not_eq_true,
    Bool.not_eq_false', Node.mem_usedDomains, Clocked, and_imp]

end Place

namespace Module

mutual
/-- Every node of the tree in its place, parents first. -/
def places (above : List Node) (path : Path) : Module → List Place
  | ⟨node, children⟩ => ⟨path, node, above⟩ :: placesAll (node :: above) path children

def placesAll (above : List Node) (path : Path) : List (Option String × Module) → List Place
  | [] => []
  | (name, m) :: rest =>
    places above (path.child (name.getD m.node.kind)) m ++ placesAll above path rest
end

theorem placesAll_eq (above : List Node) (path : Path) (children : List (Option String × Module)) :
    placesAll above path children =
      children.flatMap fun c => c.2.places above (path.child (component c)) :=
  flatMap_of_cons rfl (fun ⟨_, _⟩ _ => rfl) children

/-- The places are those of the walk over the tree. -/
theorem places_eq_walk (m : Module) (above : List Node) (path : Path) :
    (m.places above path).map (fun p => (p.path, p.node)) = m.walk path := by
  induction m generalizing above path with
  | step node children ih =>
    rw [places, walk, placesAll_eq, walkAll_eq, List.map_cons, List.map_flatMap]
    congr 1
    exact List.flatMap_congr fun c hc => ih c hc _ _

theorem undeclaredAll_eq (visible : List String) (path : Path)
    (children : List (Option String × Module)) :
    undeclaredAll visible path children =
      children.flatMap fun c => c.2.undeclared visible (path.child (component c)) :=
  flatMap_of_cons rfl (fun ⟨_, _⟩ _ => rfl) children

/-- The check collects the unseen uses of all places, in their order. -/
theorem undeclared_eq (m : Module) {inherited : List String} {above : List Node} (path : Path)
    (h : ∀ domain, inherited.contains domain =
      above.any fun n => n.resolved.any fun d => d.name == domain) :
    m.undeclared inherited path = (m.places above path).flatMap Place.unseen := by
  induction m generalizing inherited above path with
  | step node children ih =>
    have hvisible : ∀ domain,
        (inherited ++ node.resolved.map ClockDomain.name).contains domain =
          (node :: above).any fun n => n.resolved.any fun d => d.name == domain := by
      intro domain
      rw [List.any_cons, ← h domain, Bool.eq_iff_iff]
      simp [or_comm]
    rw [undeclared, places, List.flatMap_cons, undeclaredAll_eq, placesAll_eq, List.flatMap_assoc]
    congr 1
    · simp only [Place.unseen, Place.sees, hvisible]
    · exact List.flatMap_congr fun c hc => ih c hc _ hvisible

theorem undeclared_root (m : Module) (path : Path) :
    m.undeclared [] path = (m.places [] path).flatMap Place.unseen :=
  m.undeclared_eq path fun _ => rfl

/-! ## The check -/

variable {m : Module} {path user : Path} {domain : String}

theorem checkVisible_eq_ok :
    m.checkVisible path = .ok () ↔ ∀ p ∈ m.places [] path, p.Clocked := by
  have hclocked : m.undeclared [] path = [] ↔ ∀ p ∈ m.places [] path, p.Clocked := by
    simp only [undeclared_root, List.flatMap_eq_nil_iff, Place.unseen_eq_nil]
  rw [← hclocked, checkVisible]
  split
  · rename_i hnil
    simp [hnil]
  · rename_i hcons
    simp [hcons]

/-- The error of the check names the first place that uses a domain it does not see, and the first
such domain. -/
theorem checkVisible_eq_error {e : ElabError} (h : m.checkVisible path = .error e) :
    ∃ before p after first domain rest,
      e = .finalization (.undefinedDomain p.path domain) ∧
      m.places [] path = before ++ p :: after ∧ (∀ q ∈ before, q.Clocked) ∧
      p.node.usedDomains = first ++ domain :: rest ∧ (∀ d ∈ first, p.sees d = true) ∧
      p.sees domain = false := by
  unfold checkVisible at h
  split at h
  · cases h
  · rename_i user domain others hcons
    cases h
    have hhead : ((m.places [] path).flatMap Place.unseen).head? = some (user, domain) := by
      rw [← undeclared_root, hcons, List.head?_cons]
    rw [List.head?_flatMap, List.findSome?_eq_some_iff] at hhead
    obtain ⟨before, p, after, hplaces, hp, hbefore⟩ := hhead
    obtain ⟨tail, hunseen⟩ := List.head?_eq_some_iff.mp hp
    obtain ⟨d, ds, hfilter, heq, -⟩ := List.map_eq_cons_iff.mp hunseen
    obtain ⟨rfl, rfl⟩ := Prod.mk.inj heq
    obtain ⟨first, rest, hused, hfirst, hd, -⟩ := List.filter_eq_cons_iff.mp hfilter
    refine ⟨before, p, after, first, d, rest, rfl, hplaces, fun q hq => ?_, hused,
      fun x hx => ?_, ?_⟩
    · exact Place.unseen_eq_nil.mp (List.head?_eq_none_iff.mp (hbefore q hq))
    · simpa using hfirst x hx
    · simpa using hd

/-- The root ends as the check of visibility says, unless a domain could not be declared. -/
theorem checkUses_result (createSync : Bool) (path : Path) (m : Module) (next : Nat) :
    (m.checkUses createSync path next).result =
        (m.checkUses createSync path next).module.checkVisible path ∨
      (∃ e, (m.checkUses createSync path next).result = .error (.construction e)) ∨
      ∃ e, (m.checkUses createSync path next).result = .error (.naming e) := by
  unfold checkUses
  split
  · unfold declareSync
    split
    · exact .inr (.inl ⟨_, rfl⟩)
    · dsimp only
      split
      · exact .inr (.inr ⟨_, rfl⟩)
      · exact .inl rfl
  · exact .inl rfl

end Module

/-! ## Closing from the root -/

section

variable {ω : Type} {config : DomainConfig} {path user : Path} {domain : String} {m : Module}
  {s : Session ω}

/-- Without a refused name or construction, the root ends as the check of visibility says. -/
theorem settleDomains_root (config : DomainConfig) (path : Path) (m : Module) (s : Session ω) :
    (settleDomains config true path m s).ending =
        .ofResult ((settleDomains config true path m s).value.checkVisible path) ∨
      (∃ e, (settleDomains config true path m s).ending = .failed (.construction e)) ∨
      ∃ e, (settleDomains config true path m s).ending = .failed (.naming e) := by
  cases hresolve : ((m.withMemoryDomain config.defaultMemoryDomain).resolve path).result with
  | error e => exact .inr (.inr ⟨e, (settleDomains_of_error hresolve).2⟩)
  | ok _ =>
    obtain ⟨hvalue, hending⟩ := settleDomains_root_of_ok (s := s) hresolve
    rw [hvalue, hending]
    rcases Module.checkUses_result config.createSync path
      ((m.withMemoryDomain config.defaultMemoryDomain).resolve path).module s.next with
      h | ⟨e, h⟩ | ⟨e, h⟩
    · exact .inl (by rw [h])
    · exact .inr (.inl ⟨e, by rw [h]; rfl⟩)
    · exact .inr (.inr ⟨e, by rw [h]; rfl⟩)

theorem Module.checkVisible_markFinalized (m : Module) (path : Path) :
    Module.checkVisible path { m with node := m.node.markFinalized } = m.checkVisible path := by
  obtain ⟨node, children⟩ := m
  rfl

variable {config : Config} {build : Builder ω} {c : Closing ω}

/-- A tree closed from an open root passes the check. -/
theorem Closing.root_done (hroot : c.root = true) (hopen : c.module.node.finalized = false)
    (done : (c.run config build).ending = .done) :
    (c.run config build).value.checkVisible c.path = .ok () := by
  have hnot : (c.run config build).ending ≠ .exhausted := by simp [done]
  rw [Closing.run_of_live (Closing.live_of_open hopen hnot)] at done ⊢
  generalize (c.grown config build).andThen (runTransforms c.path) = p at done ⊢
  obtain ⟨hsettled, -⟩ := Progress.andThen_eq_done.mp done
  obtain ⟨hp, hdone⟩ := Progress.andThen_eq_done.mp hsettled
  rw [Progress.andThen_of_done hsettled, Progress.andThen_of_done hp, markClosed,
    Module.checkVisible_markFinalized]
  rw [hroot] at hdone ⊢
  rcases settleDomains_root config.domains c.path p.value p.session with h | ⟨e, h⟩ | ⟨e, h⟩
  · exact Ending.ofResult_eq_done.mp (h.symm.trans hdone)
  · rw [hdone] at h
    cases h
  · rw [hdone] at h
    cases h

/-- A domain that is not visible is reported by the check, unless a call reports it. -/
theorem Closing.root_undefined (hroot : c.root = true)
    (hcalls : ¬ c.Reports config build (.finalization (.undefinedDomain user domain)))
    (failed : (c.run config build).ending = .failed (.finalization (.undefinedDomain user domain))) :
    (c.run config build).value.checkVisible c.path =
      .error (.finalization (.undefinedDomain user domain)) := by
  have hlive := Closing.live_of_failed failed
  have hbefore := mt (Closing.root_failed hlive) (not_or.mpr ⟨hcalls, nofun⟩)
  rw [Closing.run_of_live hlive] at failed ⊢
  generalize (c.grown config build).andThen (runTransforms c.path) = p at failed hbefore ⊢
  have hsettled : (p.andThen (settleDomains config.domains c.root c.path)).ending =
      .failed (.finalization (.undefinedDomain user domain)) :=
    (Progress.andThen_eq_failed.mp failed).resolve_right fun h => nomatch h.2
  obtain ⟨hp, hfailed⟩ := (Progress.andThen_eq_failed.mp hsettled).resolve_left hbefore
  rw [Progress.andThen_of_failed hsettled, Progress.andThen_of_done hp]
  rw [hroot] at hfailed ⊢
  rcases settleDomains_root config.domains c.path p.value p.session with h | ⟨e, h⟩ | ⟨e, h⟩
  · exact Ending.ofResult_eq_failed.mp (h.symm.trans hfailed)
  · rw [hfailed] at h
    cases h
  · rw [hfailed] at h
    cases h

end

/-- If closing an open root ends well, every node of the tree sees all domains it uses but the
combinational one. If it fails because a domain is not visible, and no call of a deferred
construction in this run reported that, then in the tree left behind the error names the first node,
parents first, that uses a domain it does not see, and the first such domain in the order in which
the node mentions them. -/
theorem Module.finalize_clocked {ω : Type} (config : Config) (build : Builder ω) (depth : Nat)
    (m : Module) (s : Session ω) (opened : m.node.finalized = false) :
    ((m.finalize config build depth s).ending = .done →
      ∀ p ∈ (m.finalize config build depth s).value.places [] (.root m.kind),
        ∀ domain, p.node.Uses domain → domain ≠ combDomain → p.sees domain = true) ∧
    ∀ user domain,
      (m.finalize config build depth s).ending =
        .failed (.finalization (.undefinedDomain user domain)) →
      ¬ (m.closing depth s).Reports config build (.finalization (.undefinedDomain user domain)) →
      ∃ before p after first rest,
        (m.finalize config build depth s).value.places [] (.root m.kind) = before ++ p :: after ∧
        (∀ q ∈ before, ∀ d, q.node.Uses d → d ≠ combDomain → q.sees d = true) ∧
        p.path = user ∧ p.node.usedDomains = first ++ domain :: rest ∧
        (∀ d ∈ first, p.sees d = true) ∧ p.sees domain = false := by
  have hrun : (m.closing depth s).run config build = m.finalize config build depth s := rfl
  refine ⟨fun done => Module.checkVisible_eq_ok.mp (Closing.root_done rfl opened (hrun ▸ done)),
    fun user domain failed calls => ?_⟩
  obtain ⟨before, p, after, first, d, rest, heq, hplaces, hbefore, hused, hfirst, hd⟩ :=
    Module.checkVisible_eq_error (Closing.root_undefined rfl calls (hrun ▸ failed))
  cases heq
  exact ⟨before, p, after, first, rest, hplaces, hbefore, rfl, hused, hfirst, hd⟩

/-- A root with a deferred construction, a memory port without a domain and a child that reads a
clock of the root. -/
def clockedTree : Module :=
  let seen := Value.signal (.named 9 "seen" 1)
  let memory : Memory := { width := 8, depth := 4 }
  { node :=
      { kind := "Top"
        declared := [.fresh 0 "pix"]
        specials := [.memory { memory with ports := [memory.newPort 2 {}] }]
        hook := some 0 }
    children := [(some "eye",
      { node := { kind := "Eye", blocks := [(combDomain, [.assign seen (.clock "pix")])] } })] }

/-- A deferred construction that adds a counter until there are two children. -/
def addCounter : Builder Unit := fun _ m next world =>
  let count := Value.signal (.named 10 "count" 4)
  let counter : Module :=
    { node := { kind := "Counter", blocks := [("sync", [.assign count count])] } }
  if m.children.length < 2 then
    ⟨{ m with children := m.children ++ [(none, counter)] }, next, world, .ok ()⟩
  else ⟨m, next, world, .ok ()⟩

/-- The same root without the domain that its child reads. -/
def strayTree : Module :=
  { clockedTree with node := { clockedTree.node with declared := [] } }

theorem Module.finalize_clocked_counter :
    (clockedTree.node.finalized = false ∧
      (clockedTree.finalize {} addCounter 3 ⟨11, [], ()⟩).ending = .done ∧
      ∀ p ∈ (clockedTree.finalize {} addCounter 3 ⟨11, [], ()⟩).value.places [] (.root "Top"),
        ∀ domain, p.node.Uses domain → domain ≠ combDomain → p.sees domain = true) ∧
    ∃ p ∈ (strayTree.finalize {} addCounter 3 ⟨11, [], ()⟩).value.places [] (.root "Top"),
      p.path = ⟨["Top", "eye"]⟩ ∧ p.sees "pix" = false := by
  obtain ⟨hclocked, -⟩ := Module.finalize_clocked {} addCounter 3 clockedTree ⟨11, [], ()⟩ rfl
  obtain ⟨-, hfirst⟩ := Module.finalize_clocked {} addCounter 3 strayTree ⟨11, [], ()⟩ rfl
  have hdone : (clockedTree.finalize {} addCounter 3 ⟨11, [], ()⟩).ending = .done := by cbv
  have hfailed : (strayTree.finalize {} addCounter 3 ⟨11, [], ()⟩).ending =
      .failed (.finalization (.undefinedDomain ⟨["Top", "eye"]⟩ "pix")) := by cbv
  refine ⟨⟨rfl, hdone, hclocked hdone⟩, ?_⟩
  obtain ⟨before, p, after, first, rest, hplaces, -, hpath, -, -, hp⟩ :=
    hfirst _ _ hfailed (by
      rintro ⟨place, d, -, call, hcall, herror⟩
      obtain ⟨hook, given, session, -, rfl⟩ := Closing.made_of_mem hcall
      unfold Call.of addCounter at herror
      dsimp only at herror
      split at herror
      · cases herror
      · cases herror)
  refine ⟨p, ?_, hpath, hp⟩
  rw [show Path.root "Top" = .root strayTree.kind from rfl, hplaces]
  exact List.mem_append_right _ List.mem_cons_self

/-- A memory port that asks for the combinational domain as its clock. -/
def combPortTree : Module :=
  let memory : Memory := { width := 8, depth := 4 }
  { node :=
      { kind := "Top"
        specials := [.memory
          { memory with ports := [memory.newPort 0 { clockDomain := some combDomain }] }] } }

/-- A tree may end up with a synchronous memory port that no domain clocks. -/
theorem Module.finalize_unclocked_port :
    (combPortTree.finalize {} addCounter 1 ⟨2, [], ()⟩).ending = .done ∧
      ∃ p ∈ (combPortTree.finalize {} addCounter 1 ⟨2, [], ()⟩).value.places [] (.root "Top"),
        p.node.Uses combDomain ∧ p.sees combDomain = false := by
  refine ⟨rfl, _, List.mem_cons_self, ?_, rfl⟩
  exact .port List.mem_cons_self List.mem_cons_self (.inl rfl) rfl

end Gateware
