import Gateware.Proofs.Closing

/-! # The names of surfaced domains

Collisions are settled one name after the other, each in the trees of the children as they are by
then. What a child surfaces is thus renamed step by step. If the names that come out are all
different, no step has met a name that an earlier one made, and the steps together do what the rule
says: a domain that another child surfaces too gets the name of its child in front, any other keeps
its name.
-/
namespace Gateware

/-! ## Renaming step by step -/

def nameAfter (steps : List (String × String)) (name : String) : String :=
  steps.foldl (fun name step => if name = step.1 then step.2 else name) name

def ClockDomain.renameAll (d : ClockDomain) (steps : List (String × String)) : ClockDomain :=
  steps.foldl (fun d step => d.renameTo step.1 step.2) d

def Module.renameAll (m : Module) (steps : List (String × String)) : Module :=
  steps.foldl (fun m step => m.renameDomain step.1 step.2) m

namespace ClockDomain

theorem renameTo_name (d : ClockDomain) (old new : String) :
    (d.renameTo old new).name = if d.name = old then new else d.name := by
  unfold renameTo
  split <;> rfl

theorem renameTo_isLocal (d : ClockDomain) (old new : String) :
    (d.renameTo old new).isLocal = d.isLocal := by
  unfold renameTo
  split <;> rfl

theorem renameTo_ids (d : ClockDomain) (old new : String) :
    (d.renameTo old new).signals.map Signal.id = d.signals.map Signal.id := by
  unfold renameTo
  split
  · cases h : d.rst <;> simp [rename, signals, Signal.renamed, h]
  · rfl

theorem renameAll_name (d : ClockDomain) (steps : List (String × String)) :
    (d.renameAll steps).name = nameAfter steps d.name := by
  induction steps generalizing d with
  | nil => rfl
  | cons step rest ih =>
    rw [renameAll, List.foldl_cons, nameAfter, List.foldl_cons, ← renameTo_name]
    exact ih _

theorem renameAll_isLocal (d : ClockDomain) (steps : List (String × String)) :
    (d.renameAll steps).isLocal = d.isLocal := by
  induction steps generalizing d with
  | nil => rfl
  | cons step rest ih => exact (ih _).trans (renameTo_isLocal d _ _)

theorem renameAll_ids (d : ClockDomain) (steps : List (String × String)) :
    (d.renameAll steps).signals.map Signal.id = d.signals.map Signal.id := by
  induction steps generalizing d with
  | nil => rfl
  | cons step rest ih => exact (ih _).trans (renameTo_ids d _ _)

/-- Renames whose results are all different do not interfere: each domain of a listed name is
renamed once, and no other is. -/
theorem renameAll_eq_of_nodup {f : String → String} {xs : List String} {ds : List ClockDomain}
    (hxs : xs.Nodup) (hmem : ∀ x ∈ xs, x ∈ ds.map name)
    (hnodup : (ds.map fun d => (d.renameAll (xs.map fun x => (x, f x))).name).Nodup) :
    ∀ d ∈ ds, d.renameAll (xs.map fun x => (x, f x)) =
      if d.name ∈ xs then d.rename (f d.name) else d := by
  induction xs generalizing ds with
  | nil =>
    intro d _
    simp [renameAll]
  | cons x xs ih =>
    obtain ⟨hx, hxs⟩ := List.nodup_cons.mp hxs
    -- the names after the first step alone are different, as equal names stay equal
    have hfirst : (ds.map fun d => (d.renameTo x (f x)).name).Nodup := by
      have hsplit : (ds.map fun d => (d.renameAll ((x :: xs).map fun x => (x, f x))).name) =
          (ds.map fun d => (d.renameTo x (f x)).name).map
            (nameAfter (xs.map fun x => (x, f x))) := by
        rw [List.map_map]
        exact List.map_congr_left fun d _ => renameAll_name (d.renameTo x (f x)) _
      rw [hsplit] at hnodup
      exact hnodup.of_map
    have hkeep : ∀ y ∈ xs, ∃ e ∈ ds, e.name = y ∧ e.renameTo x (f x) = e := by
      intro y hy
      obtain ⟨e, he, rfl⟩ := List.mem_map.mp (hmem y (List.mem_cons_of_mem _ hy))
      have hne : e.name ≠ x := fun h => hx (h ▸ hy)
      exact ⟨e, he, rfl, if_neg hne⟩
    have hrest : ∀ y ∈ xs, y ∈ (ds.map fun d => d.renameTo x (f x)).map name := by
      intro y hy
      obtain ⟨e, he, rfl, hsame⟩ := hkeep y hy
      exact List.mem_map.mpr ⟨_, List.mem_map_of_mem he, by rw [hsame]⟩
    have hlater := ih hxs hrest (by rwa [List.map_map])
    intro d hd
    have hthen : d.renameAll ((x :: xs).map fun x => (x, f x)) =
        (d.renameTo x (f x)).renameAll (xs.map fun x => (x, f x)) := rfl
    rw [hthen, hlater _ (List.mem_map_of_mem hd), renameTo_name]
    by_cases hname : d.name = x
    · -- the new name is not renamed again, or it would stand next to the domain that had it before
      have hnew : f x ∉ xs := by
        intro hfx
        obtain ⟨e, he, hename, hsame⟩ := hkeep (f x) hfx
        have heq : e = d := by
          refine List.inj_on_of_nodup_map hfirst he hd ?_
          rw [hsame, hename, renameTo_name, if_pos hname]
        exact hx (hname ▸ heq ▸ hename ▸ hfx)
      rw [if_pos hname, if_neg hnew, if_pos (hname ▸ List.mem_cons_self), renameTo, if_pos hname,
        hname]
    · rw [if_neg hname, renameTo, if_neg hname]
      simp [hname]

end ClockDomain

namespace Module

theorem renameDomain_node (m : Module) (old new : String) :
    (m.renameDomain old new).node = m.node.renameDomain old new := by
  obtain ⟨node, children⟩ := m
  rfl

def surfaced (m : Module) : List ClockDomain := m.node.resolved.filter fun d => !d.isLocal

theorem surfaced_renameDomain (m : Module) (old new : String) :
    (m.renameDomain old new).surfaced = m.surfaced.map fun d => d.renameTo old new := by
  rw [surfaced, surfaced, renameDomain_node, Node.renameDomain, List.filter_map]
  congr 2
  funext d
  simp [ClockDomain.renameTo_isLocal]

theorem surfaced_renameAll (m : Module) (steps : List (String × String)) :
    (m.renameAll steps).surfaced = m.surfaced.map fun d => d.renameAll steps := by
  induction steps generalizing m with
  | nil => exact (List.map_id _).symm
  | cons step rest ih =>
    rw [renameAll, List.foldl_cons]
    refine (ih _).trans ?_
    rw [surfaced_renameDomain, List.map_map]
    rfl

end Module

/-! ## Settling collisions -/

/-- The renames that collisions bring to the child at a position. -/
def stepsAt (groups : List (String × List Contribution)) (position : Nat) :
    List (String × String) :=
  groups.flatMap fun g =>
    (g.2.filter fun c => c.position == position).map fun c => (g.1, contestedName c.owner g.1)

def renamedBy (groups : List (String × List Contribution))
    (children : List (Option String × Module)) : List (Option String × Module) :=
  children.mapIdx fun i c => (c.1, c.2.renameAll (stepsAt groups i))

def Module.settledBy (m : Module) (groups : List (String × List Contribution)) : Module :=
  { m with children := renamedBy groups m.children }

section

variable {groups : List (String × List Contribution)} {children : List (Option String × Module)}

theorem renamedBy_nil : renamedBy [] children = children := by
  refine List.ext_getElem? fun i => ?_
  rw [renamedBy, List.getElem?_mapIdx]
  cases children[i]? with
  | none => rfl
  | some c => rfl

theorem Module.settledBy_nil (m : Module) : m.settledBy [] = m := by
  obtain ⟨node, children⟩ := m
  rw [Module.settledBy, renamedBy_nil]

theorem renameGroup_eq (domain : String) (group : List Contribution)
    (children : List (Option String × Module)) :
    renameGroup domain group children = renamedBy [(domain, group)] children := by
  refine List.ext_getElem? fun i => ?_
  rw [renamedBy, List.getElem?_mapIdx]
  induction group generalizing children with
  | nil =>
    cases h : children[i]? with
    | none => exact h
    | some c => exact h
  | cons c rest ih =>
    refine (ih _).trans ?_
    rw [List.getElem?_modify]
    cases children[i]? with
    | none => rfl
    | some child =>
      by_cases hc : c.position = i
      · simp [stepsAt, hc, Module.renameAll]
      · simp [stepsAt, hc]

theorem renamedBy_append (first second : List (String × List Contribution)) :
    renamedBy second (renamedBy first children) = renamedBy (first ++ second) children := by
  refine List.ext_getElem? fun i => ?_
  simp only [renamedBy, List.getElem?_mapIdx, Option.map_map]
  congr 1
  funext c
  simp [stepsAt, Module.renameAll, List.foldl_append]

/-- Collisions are settled up to the first that names cannot tell apart. -/
theorem settleCollisions_cases (path : Path) (m : Module)
    (groups : List (String × List Contribution)) :
    ((∀ g ∈ groups, groupFault? path g.1 g.2 = none) ∧
      (settleCollisions path m groups).module = m.settledBy groups ∧
      (settleCollisions path m groups).result = .ok ()) ∨
    ∃ settled domain group rest e, groups = settled ++ (domain, group) :: rest ∧
      groupFault? path domain group = some e ∧
      (settleCollisions path m groups).module = m.settledBy settled ∧
      (settleCollisions path m groups).result = .error e := by
  induction groups generalizing m with
  | nil =>
    refine .inl ⟨nofun, ?_, rfl⟩
    rw [Module.settledBy_nil, settleCollisions]
  | cons g rest ih =>
    obtain ⟨domain, group⟩ := g
    cases hfault : groupFault? path domain group with
    | some e =>
      refine .inr ⟨[], domain, group, rest, e, rfl, hfault, ?_, ?_⟩
      · rw [settleCollisions, hfault, Module.settledBy_nil]
      · rw [settleCollisions, hfault]
    | none =>
      have hnext : ∀ groups,
          Module.settledBy { m with children := renameGroup domain group m.children } groups =
            m.settledBy ((domain, group) :: groups) := fun groups => by
        rw [Module.settledBy, renameGroup_eq, renamedBy_append, List.singleton_append]
        rfl
      rw [settleCollisions, hfault]
      dsimp only
      rcases ih { m with children := renameGroup domain group m.children } with
        ⟨hnone, hmodule, hresult⟩ | ⟨settled, d, g, rest', e, rfl, he, hmodule, hresult⟩
      · exact .inl ⟨List.forall_mem_cons.mpr ⟨hfault, hnone⟩, by rw [hmodule, hnext], hresult⟩
      · exact .inr ⟨(domain, group) :: settled, d, g, rest', e, rfl, he, by rw [hmodule, hnext],
          hresult⟩

end

/-! ## Collecting what is surfaced -/

/-- Surfaced domains are taken if their names are different from each other and from the declared
ones. -/
theorem collectSurfaced_eq_ok {path : Path} {declared resolved : List ClockDomain}
    {surfaced rest : List Contribution} :
    collectSurfaced path declared surfaced rest = .ok resolved →
      resolved = declared ++ (surfaced ++ rest).map Contribution.domain ∧
      (∀ c ∈ rest, c.domain.name ∉ declared.map ClockDomain.name) ∧
      (((surfaced.map fun c => c.domain.name).Nodup) →
        ((surfaced ++ rest).map fun c => c.domain.name).Nodup) := by
  induction rest generalizing surfaced with
  | nil =>
    intro h
    cases h
    simp
  | cons c rest ih =>
    intro h
    rw [collectSurfaced] at h
    split at h
    · cases h
    · rename_i hdeclared
      split at h
      · cases h
      · rename_i hsurfaced
        obtain ⟨hresolved, hrest, hnodup⟩ := ih h
        rw [List.append_assoc, List.singleton_append] at hresolved hnodup
        refine ⟨hresolved, List.forall_mem_cons.mpr ⟨by simpa using hdeclared, hrest⟩,
          fun hs => hnodup ?_⟩
        rw [List.map_append, List.map_cons, List.map_nil]
        refine List.nodup_append.mpr ⟨hs, List.nodup_singleton _, ?_⟩
        rintro x hx y hy rfl
        obtain ⟨c', hc', heq⟩ := List.mem_map.mp hx
        have := List.find?_eq_none.mp hsurfaced c' hc'
        rw [List.mem_singleton.mp hy] at heq
        simp [heq] at this

/-- Different names that no declared domain has are taken. -/
theorem collectSurfaced_of_nodup (path : Path) {declared : List ClockDomain}
    (surfaced : List Contribution) {rest : List Contribution}
    (hdeclared : ∀ c ∈ rest, c.domain.name ∉ declared.map ClockDomain.name)
    (hnodup : ((surfaced ++ rest).map fun c => c.domain.name).Nodup) :
    collectSurfaced path declared surfaced rest =
      .ok (declared ++ (surfaced ++ rest).map Contribution.domain) := by
  induction rest generalizing surfaced with
  | nil => simp [collectSurfaced]
  | cons c rest ih =>
    obtain ⟨hc, hrest⟩ := List.forall_mem_cons.mp hdeclared
    have hfind : surfaced.find? (fun s => s.domain.name == c.domain.name) = none := by
      rw [List.find?_eq_none]
      intro s hs heq
      rw [List.map_append, List.nodup_append] at hnodup
      exact hnodup.2.2 _ (List.mem_map_of_mem hs) _ (List.mem_map_of_mem List.mem_cons_self)
        (by simpa using heq)
    rw [collectSurfaced, if_neg (by simpa using hc), hfind]
    dsimp only
    rw [ih (surfaced ++ [c]) hrest (by simpa using hnodup), List.append_assoc,
      List.singleton_append]

/-! ## What children surface -/

namespace Module

variable {m : Module}

theorem mem_contributionsFrom {position : Nat} {children : List (Option String × Module)}
    {c : Contribution} :
    c ∈ contributionsFrom position children ↔
      ∃ i child, c.position = position + i ∧ children[i]? = some (c.child, child) ∧
        c.domain ∈ child.surfaced := by
  induction children generalizing position with
  | nil => simp [contributionsFrom]
  | cons head rest ih =>
    obtain ⟨name, child⟩ := head
    rw [contributionsFrom, List.mem_append, ih]
    constructor
    · rintro (h | ⟨i, d, hi, hd, hmem⟩)
      · obtain ⟨d, hd, rfl⟩ := List.mem_map.mp h
        exact ⟨0, child, rfl, rfl, hd⟩
      · exact ⟨i + 1, d, by omega, by simpa using hd, hmem⟩
    · rintro ⟨i, d, hi, hd, hmem⟩
      cases i with
      | zero =>
        obtain ⟨p, n, domain⟩ := c
        obtain ⟨rfl, rfl⟩ := Prod.mk.inj (Option.some.inj hd)
        cases hi
        exact .inl (List.mem_map.mpr ⟨domain, hmem, rfl⟩)
      | succ i => exact .inr ⟨i, d, by omega, by simpa using hd, hmem⟩

theorem mem_contributions {c : Contribution} :
    c ∈ m.contributions ↔
      ∃ child, m.children[c.position]? = some (c.child, child) ∧ c.domain ∈ child.surfaced := by
  rw [contributions, mem_contributionsFrom]
  constructor
  · rintro ⟨i, child, hi, h⟩
    exact ⟨child, by rwa [hi, Nat.zero_add]⟩
  · rintro ⟨child, h⟩
    exact ⟨c.position, child, (Nat.zero_add _).symm, h⟩

theorem contributionsFrom_mapIdx (position : Nat) (children : List (Option String × Module))
    (change : Nat → Module → Module) (rename : Nat → ClockDomain → ClockDomain)
    (h : ∀ i m, (change i m).surfaced = m.surfaced.map (rename i)) :
    contributionsFrom position (children.mapIdx fun i c => (c.1, change (position + i) c.2)) =
      (contributionsFrom position children).map fun c =>
        { c with domain := rename c.position c.domain } := by
  induction children generalizing position with
  | nil => rfl
  | cons head rest ih =>
    obtain ⟨name, child⟩ := head
    have hrest := ih (position + 1)
    simp only [Nat.add_assoc, Nat.add_comm 1] at hrest
    have hchild := h position child
    unfold surfaced at hchild
    rw [List.mapIdx_cons, contributionsFrom, contributionsFrom, hrest, List.map_append,
      Nat.add_zero, hchild, List.map_map, List.map_map]
    rfl

/-- What the renamed children surface is what they surfaced before, renamed. -/
theorem contributions_settledBy (m : Module) (groups : List (String × List Contribution)) :
    (m.settledBy groups).contributions = m.contributions.map fun c =>
      { c with domain := c.domain.renameAll (stepsAt groups c.position) } := by
  have h := contributionsFrom_mapIdx 0 m.children (fun i m => m.renameAll (stepsAt groups i))
    (fun i d => d.renameAll (stepsAt groups i)) fun i m => surfaced_renameAll m (stepsAt groups i)
  simp only [Nat.zero_add] at h
  exact h

/-- Resolving settles all collisions and takes what is surfaced then, or stops at a collision that
names cannot settle, or finds a clash after settling. -/
theorem resolve_cases (path : Path) (m : Module) :
    let groups := collisions m.contributions
    ((∀ g ∈ groups, groupFault? path g.1 g.2 = none) ∧ ∃ resolved,
      collectSurfaced path m.node.declared [] (m.settledBy groups).contributions = .ok resolved ∧
      (m.resolve path).module =
        { m.settledBy groups with node := { m.node with resolved } } ∧
      (m.resolve path).result = .ok ()) ∨
    (∃ e, collectSurfaced path m.node.declared [] (m.settledBy groups).contributions = .error e ∧
      (m.resolve path).module = m.settledBy groups ∧ (m.resolve path).result = .error e) ∨
    ∃ settled domain group rest e, groups = settled ++ (domain, group) :: rest ∧
      groupFault? path domain group = some e ∧ (m.resolve path).module = m.settledBy settled ∧
      (m.resolve path).result = .error e := by
  intro groups
  rcases settleCollisions_cases path m groups with ⟨hnone, hmodule, hresult⟩ |
    ⟨settled, domain, group, rest, e, hgroups, hfault, hmodule, hresult⟩
  · unfold resolve
    dsimp only
    rw [hresult, hmodule]
    dsimp only
    cases hcollect : collectSurfaced path m.node.declared []
        (m.settledBy groups).contributions with
    | ok resolved => exact .inl ⟨hnone, resolved, rfl, rfl, rfl⟩
    | error e => exact .inr (.inl ⟨e, rfl, rfl, rfl⟩)
  · refine .inr (.inr ⟨settled, domain, group, rest, e, hgroups, hfault, ?_, ?_⟩)
    · unfold resolve
      dsimp only
      rw [hresult]
      exact hmodule
    · unfold resolve
      dsimp only
      rw [hresult]
      exact hresult

end Module

/-! ## Collisions -/

section

variable {cs : List Contribution} {domain : String} {group : List Contribution}

theorem mem_collisions :
    (domain, group) ∈ collisions cs ↔
      group = cs.filter (fun c => c.domain.name == domain) ∧ 1 < group.length := by
  have hkeys := mem_keys_keepFirst id [] (cs.map fun c => c.domain.name) domain
  simp only [List.map_id_fun, id_eq, List.not_mem_nil, not_false_eq_true, and_true] at hkeys
  simp only [collisions, List.mem_filter, List.mem_map, Prod.mk.injEq, decide_eq_true_eq]
  constructor
  · rintro ⟨⟨name, -, rfl, rfl⟩, hlength⟩
    exact ⟨rfl, hlength⟩
  · rintro ⟨rfl, hlength⟩
    obtain ⟨c, hc⟩ := List.exists_mem_of_length_pos (Nat.lt_trans Nat.zero_lt_one hlength)
    obtain ⟨hc, hname⟩ := List.mem_filter.mp hc
    refine ⟨⟨domain, hkeys.mpr ?_, rfl, rfl⟩, hlength⟩
    exact List.mem_map.mpr ⟨c, hc, by simpa using hname⟩

theorem nodup_collisions (cs : List Contribution) : ((collisions cs).map (·.1)).Nodup := by
  have hkeys := nodup_keys_keepFirst id [] (cs.map fun c => c.domain.name)
  rw [List.map_id_fun] at hkeys
  unfold collisions
  dsimp only
  rw [List.filter_map, List.map_map]
  refine List.Nodup.sublist ?_ hkeys
  rw [show ((fun x : String × List Contribution => x.1) ∘ fun name =>
    (name, cs.filter fun c => c.domain.name == name)) = id from rfl, List.map_id]
  exact List.filter_sublist

/-- A group is fine if all its children have names, and different ones. -/
theorem groupFault?_eq_none {path : Path} :
    groupFault? path domain group = none ↔
      (∀ c ∈ group, c.child.isSome = true) ∧ (group.map Contribution.owner).Nodup := by
  unfold groupFault?
  split
  · rename_i hany
    obtain ⟨c, hc, hnone⟩ := List.any_eq_true.mp hany
    refine iff_of_false nofun fun h => ?_
    rw [Option.isNone_iff_eq_none] at hnone
    simpa [hnone] using h.1 c hc
  · rename_i hany
    have hsome : ∀ c ∈ group, c.child.isSome = true := by
      intro c hc
      by_contra hnone
      exact hany (List.any_eq_true.mpr ⟨c, hc, by simpa using hnone⟩)
    rw [Option.map_eq_none_iff, firstRepeat?_eq_none]
    exact ⟨fun h => ⟨hsome, h.1⟩, fun h => ⟨h.2, fun _ _ => List.not_mem_nil⟩⟩

end

/-! ## The names that come out -/

namespace Module

variable {m : Module} {path : Path}

/-- Whether a child elsewhere surfaces a domain of the name. -/
def contested (m : Module) (position : Nat) (name : String) : Bool :=
  m.children.zipIdx.any fun (c, i) => i != position && c.2.surfaced.any fun d => d.name == name

def namesAt (m : Module) (position : Nat) : List String :=
  (m.contributions.filter fun c => c.position == position).map fun c => c.domain.name

theorem contested_eq_true {position : Nat} {name : String} :
    m.contested position name = true ↔
      ∃ c ∈ m.contributions, c.position ≠ position ∧ c.domain.name = name := by
  simp only [contested, List.any_eq_true, Bool.and_eq_true, bne_iff_ne, beq_iff_eq]
  constructor
  · rintro ⟨⟨⟨child, m'⟩, i⟩, hi, hposition, d, hd, hname⟩
    exact ⟨⟨i, child, d⟩, mem_contributions.mpr ⟨m', List.mem_zipIdx_iff_getElem?.mp hi, hd⟩,
      hposition, hname⟩
  · rintro ⟨c, hc, hposition, hname⟩
    obtain ⟨m', hchild, hd⟩ := mem_contributions.mp hc
    exact ⟨⟨⟨c.child, m'⟩, c.position⟩, List.mem_zipIdx_iff_getElem?.mpr hchild, hposition,
      c.domain, hd, hname⟩

theorem owner_congr {c d : Contribution} (hc : c ∈ m.contributions) (hd : d ∈ m.contributions)
    (h : c.position = d.position) : c.owner = d.owner := by
  obtain ⟨_, hchild, _⟩ := mem_contributions.mp hc
  obtain ⟨_, hchild', _⟩ := mem_contributions.mp hd
  rw [h, hchild'] at hchild
  obtain ⟨hname, -⟩ := Prod.mk.inj (Option.some.inj hchild)
  rw [Contribution.owner, Contribution.owner, hname, h]

section

variable (settles : ∀ g ∈ collisions m.contributions, groupFault? path g.1 g.2 = none)

include settles

/-- If names settle every collision, no child surfaces one name twice. -/
theorem length_at_le_one (position : Nat) (name : String) :
    ((m.contributions.filter fun c => c.domain.name == name).filter
      fun c => c.position == position).length ≤ 1 := by
  by_cases hmany : 1 < (m.contributions.filter fun c => c.domain.name == name).length
  · obtain ⟨-, howners⟩ := groupFault?_eq_none.mp (settles _ (mem_collisions.mpr ⟨rfl, hmany⟩))
    cases hat : (m.contributions.filter fun c => c.domain.name == name).filter
        fun c => c.position == position with
    | nil => exact Nat.zero_le _
    | cons first rest =>
      have hmem : ∀ c ∈ first :: rest, c ∈ m.contributions ∧ c.position = position := by
        intro c hc
        rw [← hat, List.mem_filter, List.mem_filter] at hc
        exact ⟨hc.1.1, by simpa using hc.2⟩
      have hsame : (first :: rest).map Contribution.owner =
          List.replicate (first :: rest).length first.owner := by
        refine List.map_eq_replicate_iff.mpr fun c hc => ?_
        obtain ⟨hc, hposition⟩ := hmem c hc
        obtain ⟨hfirst, hposition'⟩ := hmem first List.mem_cons_self
        exact owner_congr hc hfirst (hposition.trans hposition'.symm)
      have hsub := (List.filter_sublist (p := fun c : Contribution => c.position == position)
        (l := m.contributions.filter fun c => c.domain.name == name)).map Contribution.owner
      rw [hat, hsame] at hsub
      exact List.nodup_replicate.mp (howners.sublist hsub)
  · exact (List.length_filter_le _ _).trans (Nat.not_lt.mp hmany)

/-- A surfaced domain is contested exactly if there is a collision of its name. -/
theorem contested_iff {c : Contribution} (hc : c ∈ m.contributions) :
    m.contested c.position c.domain.name = true ↔
      c.domain.name ∈ (collisions m.contributions).map (·.1) := by
  have hname : c.domain.name ∈ (collisions m.contributions).map (·.1) ↔
      1 < (m.contributions.filter fun d => d.domain.name == c.domain.name).length := by
    constructor
    · intro h
      obtain ⟨⟨domain, group⟩, hg, heq⟩ := List.mem_map.mp h
      obtain ⟨rfl, hlength⟩ := mem_collisions.mp hg
      rwa [show domain = c.domain.name from heq] at hlength
    · exact fun h => List.mem_map.mpr ⟨(c.domain.name, _), mem_collisions.mpr ⟨rfl, h⟩, rfl⟩
  rw [hname, contested_eq_true]
  constructor
  · rintro ⟨d, hd, hposition, hsame⟩
    by_contra hfew
    have hpair : [d, c].Subperm (m.contributions.filter fun e => e.domain.name == c.domain.name) :=
      List.subperm_of_subset
        (by simp only [List.nodup_cons, List.mem_singleton, List.not_mem_nil, not_false_eq_true,
              List.nodup_nil, and_true]
            rintro rfl
            exact hposition rfl)
        (by simp [List.mem_filter, hd, hc, hsame])
    exact hfew hpair.length_le
  · intro hmany
    by_contra hnone
    have hat := length_at_le_one settles c.position c.domain.name
    rw [List.filter_eq_self.mpr] at hat
    · omega
    · intro d hd
      obtain ⟨hd, hsame⟩ := List.mem_filter.mp hd
      by_contra hposition
      exact hnone ⟨d, hd, by simpa using hposition, by simpa using hsame⟩

/-- The child at a position is renamed once for each name it surfaces that is in a collision. -/
theorem stepsAt_collisions {c : Contribution} (hc : c ∈ m.contributions) :
    stepsAt (collisions m.contributions) c.position =
      (((collisions m.contributions).map (·.1)).filter
        fun x => decide (x ∈ m.namesAt c.position)).map fun x => (x, contestedName c.owner x) := by
  have hgroup : ∀ g ∈ collisions m.contributions,
      ((g.2.filter fun d => d.position == c.position).map fun d =>
        (g.1, contestedName d.owner g.1)) =
      if g.1 ∈ m.namesAt c.position then [(g.1, contestedName c.owner g.1)] else [] := by
    rintro ⟨domain, group⟩ hg
    obtain ⟨rfl, -⟩ := mem_collisions.mp hg
    dsimp only
    have hlength := length_at_le_one settles c.position domain
    have hmem : ∀ d, d ∈ ((m.contributions.filter fun d => d.domain.name == domain).filter
        fun d => d.position == c.position) ↔
        d ∈ m.contributions ∧ d.domain.name = domain ∧ d.position = c.position := by
      intro d
      rw [List.mem_filter, List.mem_filter, beq_iff_eq, beq_iff_eq, and_assoc]
    have hnames : domain ∈ m.namesAt c.position ↔
        ∃ d, d ∈ m.contributions ∧ d.domain.name = domain ∧ d.position = c.position := by
      simp only [namesAt, List.mem_map, List.mem_filter, beq_iff_eq, and_assoc]
      exact exists_congr fun d => and_congr_right fun _ => and_comm
    generalize ((m.contributions.filter fun d => d.domain.name == domain).filter
      fun d => d.position == c.position) = at' at hlength hmem
    match at' with
    | [] =>
      rw [if_neg]
      · rfl
      · rintro hdomain
        obtain ⟨d, hd⟩ := hnames.mp hdomain
        exact absurd ((hmem d).mpr hd) List.not_mem_nil
    | [d] =>
      have hd := (hmem d).mp List.mem_cons_self
      rw [if_pos (hnames.mpr ⟨d, hd⟩), List.map_singleton, owner_congr hd.1 hc hd.2.2]
    | _ :: _ :: _ => simp at hlength
  unfold stepsAt
  rw [List.flatMap_congr hgroup]
  induction collisions m.contributions with
  | nil => rfl
  | cons g rest ih =>
    rw [List.flatMap_cons, ih, List.map_cons, List.filter_cons]
    split
    · rename_i h
      rw [if_pos (by simpa using h)]
      rfl
    · rename_i h
      rw [if_neg (by simpa using h)]
      rfl

/-- A surfaced domain after all collisions are settled, if all names come out different. -/
theorem renameAll_collisions
    (distinct : (m.contributions.map fun c =>
      (c.domain.renameAll (stepsAt (collisions m.contributions) c.position)).name).Nodup)
    {c : Contribution} (hc : c ∈ m.contributions) :
    c.domain.renameAll (stepsAt (collisions m.contributions) c.position) =
      if m.contested c.position c.domain.name then
        c.domain.rename (contestedName c.owner c.domain.name)
      else c.domain := by
  have hnames : m.namesAt c.position =
      ((m.contributions.filter fun d => d.position == c.position).map
        Contribution.domain).map ClockDomain.name := by
    rw [namesAt, List.map_map]
    rfl
  have hself : c.domain ∈ (m.contributions.filter fun d => d.position == c.position).map
      Contribution.domain :=
    List.mem_map_of_mem (List.mem_filter.mpr ⟨hc, beq_self_eq_true _⟩)
  have hhere := distinct.sublist ((List.filter_sublist
    (p := fun d : Contribution => d.position == c.position)).map _)
  rw [List.map_congr_left (g := fun d => (d.domain.renameAll
    (stepsAt (collisions m.contributions) c.position)).name) fun d hd => by
      rw [beq_iff_eq.mp (List.mem_filter.mp hd).2]] at hhere
  rw [stepsAt_collisions settles hc] at hhere ⊢
  rw [ClockDomain.renameAll_eq_of_nodup (f := contestedName c.owner)
    ((nodup_collisions _).filter _) ?_ ?_ _ hself]
  · refine if_congr ?_ rfl rfl
    rw [contested_iff settles hc, List.mem_filter, hnames]
    exact and_iff_left (by simpa using List.mem_map_of_mem hself)
  · intro x hx
    rw [← hnames]
    simpa using (List.mem_filter.mp hx).2
  · rwa [List.map_map]

end

/-- A surfaced domain as the rule names it: with the name of its child in front if it is
contested. -/
def surfacedAs (m : Module) (position : Nat) (child : Option String) (d : ClockDomain) :
    ClockDomain :=
  if m.contested position d.name then d.rename (contestedName (child.getD "") d.name) else d

theorem flatMap_contributionsFrom {α : Type} (f : Nat → Option String → ClockDomain → α)
    (position : Nat) (children : List (Option String × Module)) :
    (contributionsFrom position children).map (fun c => f c.position c.child c.domain) =
      (children.zipIdx position).flatMap fun (c, i) => c.2.surfaced.map (f i c.1) := by
  induction children generalizing position with
  | nil => rfl
  | cons head rest ih =>
    obtain ⟨name, child⟩ := head
    rw [contributionsFrom, List.map_append, ih, List.zipIdx_cons, List.flatMap_cons, List.map_map]
    rfl

/-- What a successful resolution says about the surfaced domains. -/
theorem resolve_eq_ok (done : (m.resolve path).result = .ok ()) :
    (∀ g ∈ collisions m.contributions, groupFault? path g.1 g.2 = none) ∧
    (m.resolve path).module.children = renamedBy (collisions m.contributions) m.children ∧
    (m.resolve path).module.node =
      { m.node with resolved :=
          m.node.declared ++ (m.resolve path).module.contributions.map Contribution.domain } ∧
    (∀ c ∈ (m.resolve path).module.contributions,
      c.domain.name ∉ m.node.declared.map ClockDomain.name) ∧
    ((m.resolve path).module.contributions.map fun c => c.domain.name).Nodup := by
  rcases resolve_cases path m with ⟨hnone, resolved, hcollect, hmodule, -⟩ | ⟨e, -, -, h⟩ |
    ⟨_, _, _, _, e, -, -, -, h⟩
  · obtain ⟨rfl, hdeclared, hnodup⟩ := collectSurfaced_eq_ok hcollect
    rw [hmodule]
    exact ⟨hnone, rfl, rfl, hdeclared, hnodup List.nodup_nil⟩
  · rw [h] at done
    cases done
  · rw [h] at done
    cases done

theorem resolve_contributions (done : (m.resolve path).result = .ok ()) :
    (m.resolve path).module.contributions = m.contributions.map fun c =>
      { c with
        domain := c.domain.renameAll (stepsAt (collisions m.contributions) c.position) } := by
  rw [← contributions_settledBy, contributions, contributions, (resolve_eq_ok done).2.1]
  rfl

end Module

/-- Resolving a module whose declared domains have different names gives it those domains and then,
child by child and in their order, the domains that its children surface, each under its own name if
no other child surfaces that name and otherwise with the name of its child in front. Contested
domains come from children with names only, clocks and resets stay the same signals, and all names
are different. -/
theorem Module.resolve_renames_contested (path : Path) (m : Module)
    (declared : (m.node.declared.map ClockDomain.name).Nodup)
    (done : (m.resolve path).result = .ok ()) :
    (m.resolve path).module.node.resolved =
      m.node.declared ++ m.children.zipIdx.flatMap (fun (c, i) =>
        (c.2.node.resolved.filter fun d => !d.isLocal).map (m.surfacedAs i c.1)) ∧
    (∀ i child, m.children[i]? = some child → ∀ d ∈ child.2.node.resolved, d.isLocal = false →
      m.contested i d.name = true → ∃ name, child.1 = some name) ∧
    ((m.resolve path).module.node.resolved.map fun d => d.signals.map Signal.id) =
      (m.node.declared ++ m.children.flatMap fun c =>
        c.2.node.resolved.filter fun d => !d.isLocal).map (fun d => d.signals.map Signal.id) ∧
    ((m.resolve path).module.node.resolved.map ClockDomain.name).Nodup := by
  obtain ⟨settles, -, hnode, hdeclared, hnodup⟩ := resolve_eq_ok done
  have hnamed : ∀ c ∈ m.contributions, m.contested c.position c.domain.name = true →
      c.child.isSome = true := by
    intro c hc hcontested
    obtain ⟨⟨domain, group⟩, hg, hname⟩ :=
      List.mem_map.mp ((contested_iff settles hc).mp hcontested)
    obtain ⟨hsome, -⟩ := groupFault?_eq_none.mp (settles _ hg)
    obtain ⟨rfl, -⟩ := mem_collisions.mp hg
    exact hsome c (List.mem_filter.mpr ⟨hc, by simpa using hname.symm⟩)
  have hdistinct : (m.contributions.map fun c =>
      (c.domain.renameAll (stepsAt (collisions m.contributions) c.position)).name).Nodup := by
    rw [resolve_contributions done, List.map_map] at hnodup
    exact hnodup
  have hresolved : (m.resolve path).module.node.resolved = m.node.declared ++
      m.contributions.map fun c => c.domain.renameAll
        (stepsAt (collisions m.contributions) c.position) := by
    rw [hnode, resolve_contributions done, List.map_map]
    rfl
  have hrule : (m.contributions.map fun c => c.domain.renameAll
      (stepsAt (collisions m.contributions) c.position)) =
      m.contributions.map fun c => m.surfacedAs c.position c.child c.domain := by
    refine List.map_congr_left fun c hc => ?_
    rw [renameAll_collisions settles hdistinct hc, surfacedAs]
    split
    · rename_i hcontested
      obtain ⟨name, hname⟩ := Option.isSome_iff_exists.mp (hnamed c hc hcontested)
      rw [Contribution.owner, hname, Option.getD_some, Option.getD_some]
    · rfl
  refine ⟨?_, fun i child hchild d hd hlocal hcontested => ?_, ?_, ?_⟩
  · rw [hresolved, hrule, contributions, flatMap_contributionsFrom m.surfacedAs 0 m.children]
    rfl
  · have hc : ⟨i, child.1, d⟩ ∈ m.contributions := mem_contributions.mpr
      ⟨child.2, hchild, List.mem_filter.mpr ⟨hd, by simp [hlocal]⟩⟩
    exact Option.isSome_iff_exists.mp (hnamed _ hc hcontested)
  · have hdomains : m.contributions.map Contribution.domain =
        m.children.flatMap fun c => c.2.node.resolved.filter fun d => !d.isLocal := by
      rw [contributions, flatMap_contributionsFrom (fun _ _ d => d) 0 m.children]
      simp only [List.map_id']
      conv_rhs => rw [← List.zipIdx_map_fst 0 m.children, List.flatMap_map]
      rfl
    rw [hresolved, List.map_append, List.map_append, ← hdomains, List.map_map, List.map_map]
    exact congrArg _ (List.map_congr_left fun c _ => ClockDomain.renameAll_ids _ _)
  · rw [hnode, List.map_append, List.map_map]
    refine List.nodup_append.mpr ⟨declared, hnodup, ?_⟩
    rintro x hx y hy rfl
    obtain ⟨c, hc, rfl⟩ := List.mem_map.mp hy
    exact hdeclared c hc hx

/-- A module whose children `a` and `b` surface `x` and the name that `x` takes in `a`. -/
def contestedTree : Module :=
  let child (id : Nat) (names : List String) : Module :=
    { node :=
        { kind := "Child"
          resolved := names.zipIdx.map fun (name, i) => .fresh (id + 2 * i) name } }
  { node := { kind := "Top", declared := [.fresh 0 "sync"] }
    children := [(some "a", child 2 ["a_x", "x"]), (none, child 6 ["pix"]),
      (some "b", child 8 ["a_x", "x"])] }

theorem Module.resolve_renames_contested_twice :
    (contestedTree.node.declared.map ClockDomain.name).Nodup ∧
      (contestedTree.resolve (.root "Top")).result = .ok () ∧
      ((contestedTree.resolve (.root "Top")).module.node.resolved.map ClockDomain.name) =
        ["sync", "a_a_x", "a_x", "pix", "b_a_x", "b_x"] := by
  have declared : (contestedTree.node.declared.map ClockDomain.name).Nodup := by decide
  have done : (contestedTree.resolve (.root "Top")).result = .ok () := by cbv
  obtain ⟨hresolved, -⟩ :=
    Module.resolve_renames_contested (.root "Top") contestedTree declared done
  refine ⟨declared, done, ?_⟩
  rw [hresolved]
  decide

end Gateware
