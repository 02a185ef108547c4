import Gateware.Proofs.Blocks
import Gateware.Proofs.Design
import Gateware.Proofs.Domain.Resolved
import Gateware.Proofs.Stages

/-! # Domains that renaming keeps apart

Settling a collision renames a domain in the whole tree of a child. There the new name may be one
that another domain has, and then their blocks become one. Every domain that a node does not keep
local is among those that the trees around it surface, whose names are all different in the end, so
two such domains of a node stay apart. A local domain can only be met by one whose name it extends.
-/
namespace Gateware

/-! ## Names -/

/-- A name made from another by putting a child and an underscore in front. -/
def Extends (long short : String) : Prop := ∃ child, long = contestedName child short

theorem Extends.trans {a b c : String} (hab : Extends a b) (hbc : Extends b c) : Extends a c := by
  obtain ⟨x, rfl⟩ := hab
  obtain ⟨y, rfl⟩ := hbc
  exact ⟨contestedName x y, by simp [contestedName, String.append_assoc]⟩

theorem extends_iff {long short : String} :
    Extends long short ↔ ∃ front, long.toList = front ++ '_' :: short.toList := by
  constructor
  · rintro ⟨child, rfl⟩
    exact ⟨child.toList, by simp [contestedName]⟩
  · rintro ⟨front, h⟩
    exact ⟨String.ofList front, String.toList_injective (by simp [contestedName, h])⟩

/-- Of two names that one name extends, one extends the other. -/
theorem Extends.comparable {long a b : String} (ha : Extends long a) (hb : Extends long b)
    (hne : a ≠ b) : Extends a b ∨ Extends b a := by
  -- the shorter front leaves an underscore behind it in the other name
  have hcut : ∀ {cut a b : List Char}, '_' :: a = cut ++ '_' :: b → a ≠ b →
      ∃ front, a = front ++ '_' :: b := by
    intro cut a b h hne
    cases cut with
    | nil => exact absurd (List.cons.inj h).2 hne
    | cons c cut => exact ⟨cut, (List.cons.inj h).2⟩
  have hlists : a.toList ≠ b.toList := fun h => hne (String.toList_injective h)
  rw [extends_iff] at ha hb
  obtain ⟨x, hx⟩ := ha
  obtain ⟨y, hy⟩ := hb
  obtain ⟨cut, -, h⟩ | ⟨cut, -, h⟩ := List.append_eq_append_iff.mp (hx.symm.trans hy)
  · exact .inl (extends_iff.mpr (hcut h hlists))
  · exact .inr (extends_iff.mpr (hcut h hlists.symm))

theorem contestedName_ne (child name : String) : contestedName child name ≠ name := by
  intro h
  have hlength := congrArg String.length h
  simp only [contestedName, String.length_append] at hlength
  have : "_".length = 1 := rfl
  omega

theorem nameAfter_append (steps : List (String × String)) (old new name : String) :
    nameAfter (steps ++ [(old, new)]) name =
      if nameAfter steps name = old then new else nameAfter steps name := by
  rw [nameAfter, List.foldl_append]
  rfl

/-- Every rename puts a child in front. -/
def Prefixing (steps : List (String × String)) : Prop := ∀ step ∈ steps, Extends step.2 step.1

theorem nameAfter_extends {steps : List (String × String)} (h : Prefixing steps) (name : String) :
    nameAfter steps name = name ∨ Extends (nameAfter steps name) name := by
  induction steps using List.reverseRecOn with
  | nil => exact .inl rfl
  | append_singleton steps step ih =>
    obtain ⟨old, new⟩ := step
    rw [nameAfter_append]
    have hsteps := ih fun step hstep => h step (List.mem_append_left _ hstep)
    have hnew : Extends new old := h (old, new) (List.mem_append_right _ List.mem_cons_self)
    split
    · rename_i hname
      obtain hsame | hlonger := hsteps
      · exact .inr (hsame ▸ hname ▸ hnew)
      · exact .inr (hnew.trans (hname ▸ hlonger))
    · exact hsteps

/-! ## Nodes -/

def Block.renameAll (block : Block) (steps : List (String × String)) : Block :=
  steps.foldl (fun block step =>
    Block.mapValues (fun v => v.renameDomain step.1 step.2) block) block

theorem Block.renameAll_append (block : Block) (steps : List (String × String))
    (old new : String) :
    Block.renameAll block (steps ++ [(old, new)]) =
      Block.mapValues (fun v => v.renameDomain old new) (Block.renameAll block steps) := by
  rw [Block.renameAll, List.foldl_append]
  rfl

theorem Block.flatMap_renameAll_append (blocks : Blocks) (steps : List (String × String))
    (old new : String) :
    (blocks.flatMap fun b => Block.renameAll b.2 (steps ++ [(old, new)])) =
      Block.mapValues (fun v => v.renameDomain old new)
        (blocks.flatMap fun b => Block.renameAll b.2 steps) := by
  rw [Block.mapValues_eq_map, List.map_flatMap]
  congr 1
  funext b
  rw [Block.renameAll_append, Block.mapValues_eq_map]

/-- The blocks whose label becomes the given one. -/
def Blocks.joining (blocks : Blocks) (steps : List (String × String)) (label : String) : Blocks :=
  blocks.filter fun b => nameAfter steps b.1 == label

theorem filter_or_perm {α : Type} {p q : α → Bool} (h : ∀ a, p a = true → q a = false)
    (as : List α) : (as.filter fun a => p a || q a).Perm (as.filter p ++ as.filter q) := by
  induction as with
  | nil => rfl
  | cons a as ih =>
    cases hp : p a with
    | true => simpa [hp, h a hp] using ih
    | false =>
      cases hq : q a with
      | true => simpa [hp, hq] using (ih.cons a).trans List.perm_middle.symm
      | false => simpa [hp, hq] using ih

/-- One more rename brings the blocks of one label to those of another. -/
theorem Blocks.joining_append (blocks : Blocks) (steps : List (String × String))
    {old new : String} (hne : old ≠ new) (label : String) :
    (blocks.joining (steps ++ [(old, new)]) label).Perm
      (if label = old then [] else if label = new then
        blocks.joining steps new ++ blocks.joining steps old
      else blocks.joining steps label) := by
  unfold Blocks.joining
  simp only [nameAfter_append]
  split
  · rename_i hlabel
    subst hlabel
    refine .of_eq (List.filter_eq_nil_iff.mpr fun b _ => ?_)
    split
    · simpa using Ne.symm hne
    · simpa
  · rename_i hold
    split
    · rename_i hlabel
      subst hlabel
      have hboth : (blocks.filter fun b =>
          (if nameAfter steps b.1 = old then label else nameAfter steps b.1) == label) =
          blocks.filter fun b => nameAfter steps b.1 == label || nameAfter steps b.1 == old := by
        refine List.filter_congr fun b _ => ?_
        by_cases hb : nameAfter steps b.1 = old
        · simp [hb]
        · simp [hb]
      rw [hboth]
      refine filter_or_perm (fun b hb => ?_) blocks
      rw [beq_iff_eq.mp hb]
      simpa using hold
    · rename_i hnew
      refine .of_eq (List.filter_congr fun b _ => ?_)
      by_cases hb : nameAfter steps b.1 = old
      · simp [hb, Ne.symm hold, Ne.symm hnew]
      · simp [hb]

/-- Each block of the second node is made of the blocks of the first whose label it got, whole and
one after the other. -/
def Node.Joins (steps : List (String × String)) (o f : Node) : Prop :=
  ∀ label, ∃ joined : Blocks, joined.Perm (o.blocks.joining steps label) ∧
    f.blocks.get label = joined.flatMap fun b => Block.renameAll b.2 steps

theorem Node.joins_nil {o f : Node} (h : o.blocks.labels.Nodup) (heq : f.blocks = o.blocks) :
    Node.Joins [] o f := by
  intro label
  refine ⟨_, .refl _, ?_⟩
  rw [heq]
  exact Blocks.get_eq_flatMap h label

theorem Node.Joins.renameDomain {steps : List (String × String)} {o f : Node}
    (h : Node.Joins steps o f) (hlabels : f.blocks.labels.Nodup) {old new : String}
    (hne : old ≠ new) : Node.Joins (steps ++ [(old, new)]) o (f.renameDomain old new) := by
  intro label
  have hjoining := (o.blocks.joining_append steps hne label).symm
  have hget : (f.renameDomain old new).blocks.get label =
      Block.mapValues (fun v => v.renameDomain old new)
        ((f.blocks.rename old new).get label) := Blocks.get_map rfl
  rw [Blocks.get_rename hlabels hne] at hget
  simp only [hget, Block.flatMap_renameAll_append]
  split at hjoining
  · rename_i hold
    rw [if_pos hold]
    exact ⟨[], hjoining, rfl⟩
  · rename_i hold
    rw [if_neg hold]
    split at hjoining
    · rename_i hnew
      obtain ⟨joinedNew, hpermNew, hgetNew⟩ := h new
      obtain ⟨joinedOld, hpermOld, hgetOld⟩ := h old
      refine ⟨joinedNew ++ joinedOld, (hpermNew.append hpermOld).trans hjoining, ?_⟩
      rw [if_pos hnew, hgetNew, hgetOld, List.flatMap_append]
    · rename_i hnew
      obtain ⟨joined, hperm, hget⟩ := h label
      refine ⟨joined, hperm.trans hjoining, ?_⟩
      rw [if_neg hnew, hget]

/-- What is left of a node after renames that put children in front. -/
structure Node.Renamed (steps : List (String × String)) (o f : Node) : Prop where
  prefixing : Prefixing steps
  kind : f.kind = o.kind
  declared : f.declared = o.declared.map fun d => d.renameAll steps
  labels : f.blocks.labels.Nodup
  blocks : Node.Joins steps o f

theorem Node.Renamed.renameDomain {steps : List (String × String)} {o f : Node}
    (h : Node.Renamed steps o f) {old new : String} (hnew : Extends new old) :
    Node.Renamed (steps ++ [(old, new)]) o (f.renameDomain old new) := by
  have hne : old ≠ new := by
    obtain ⟨child, rfl⟩ := hnew
    exact (contestedName_ne child old).symm
  refine ⟨?_, h.kind, ?_, ?_, h.blocks.renameDomain h.labels hne⟩
  · intro step hstep
    obtain hstep | hstep := List.mem_append.mp hstep
    · exact h.prefixing step hstep
    · rw [List.mem_singleton.mp hstep]
      exact hnew
  · rw [Node.renameDomain, h.declared, List.map_map]
    refine List.map_congr_left fun d _ => ?_
    rw [ClockDomain.renameAll, List.foldl_append]
    rfl
  · rw [Node.renameDomain]
    exact (Blocks.labels_map _).symm ▸ Blocks.nodup_labels_rename h.labels

/-- What stays apart in a node: the domains it surfaces have different names, two declared domains
share a name only if one of them is local and the name of one extends that of the other, and blocks
are joined only where their labels have become one. -/
structure Node.Apart (steps : List (String × String)) (added : List ClockDomain)
    (o f : Node) : Prop where
  prefixing : Prefixing steps
  declared : f.declared = (o.declared.map fun d => d.renameAll steps) ++ added
  fresh : ∀ c ∈ added, ∀ d ∈ o.declared, c.name ≠ nameAfter steps d.name
  surfacing : (f.surfacing.map ClockDomain.name).Nodup
  names : ∀ c ∈ o.declared, ∀ d ∈ o.declared, c.name ≠ d.name →
    nameAfter steps c.name = nameAfter steps d.name →
      (c.isLocal = true ∨ d.isLocal = true) ∧ (Extends c.name d.name ∨ Extends d.name c.name)
  labels : f.blocks.labels.Nodup
  blocks : Node.Joins steps o f

/-- Two names that renames make equal extend one another. -/
theorem extends_of_nameAfter_eq {steps : List (String × String)} (h : Prefixing steps)
    {c d : String} (hne : c ≠ d) (heq : nameAfter steps c = nameAfter steps d) :
    Extends c d ∨ Extends d c := by
  obtain hc | hc := nameAfter_extends h c
  · obtain hd | hd := nameAfter_extends h d
    · exact absurd (hc.symm.trans (heq.trans hd)) hne
    · exact .inl (hc ▸ heq ▸ hd)
  · obtain hd | hd := nameAfter_extends h d
    · exact .inr (hd ▸ heq ▸ hc)
    · exact hc.comparable (heq ▸ hd) hne

theorem Node.Renamed.apart {steps : List (String × String)} {o f : Node}
    (h : Node.Renamed steps o f) (hnodup : (f.surfacing.map ClockDomain.name).Nodup) :
    Node.Apart steps [] o f where
  prefixing := h.prefixing
  declared := h.declared.trans (List.append_nil _).symm
  fresh := nofun
  surfacing := hnodup
  names := by
    intro c hc d hd hne heq
    refine ⟨?_, extends_of_nameAfter_eq h.prefixing hne heq⟩
    by_contra hlocal
    obtain ⟨hclocal, hdlocal⟩ := not_or.mp hlocal
    -- both are surfaced, so their names are two of a list without repeats
    have hsurfacing : f.surfacing.map ClockDomain.name =
        o.surfacing.map fun d => nameAfter steps d.name := by
      have hkeep : (fun d => !d.isLocal) ∘ (fun d : ClockDomain => d.renameAll steps) =
          fun d => !ClockDomain.isLocal d :=
        funext fun d => congrArg not (ClockDomain.renameAll_isLocal d steps)
      rw [Node.surfacing, Node.surfacing, h.declared, List.filter_map, hkeep, List.map_map]
      exact List.map_congr_left fun d _ => ClockDomain.renameAll_name d steps
    rw [hsurfacing] at hnodup
    have hsame := List.inj_on_of_nodup_map hnodup
      (List.mem_filter.mpr ⟨hc, by simpa using hclocal⟩)
      (List.mem_filter.mpr ⟨hd, by simpa using hdlocal⟩) heq
    exact hne (congrArg ClockDomain.name hsame)
  labels := h.labels
  blocks := h.blocks

/-! ## Trees -/

theorem Module.walk_renameDomain (m : Module) (old new : String) (path : Path) :
    (m.renameDomain old new).walk path =
      (m.walk path).map fun x => (x.1, x.2.renameDomain old new) := by
  induction m generalizing path with
  | step node children ih =>
    rw [renameDomain, walk, walk, walkAll_eq, walkAll_eq, renameDomainAll_eq_map, List.flatMap_map,
      List.map_cons, List.map_flatMap]
    refine congrArg (_ :: ·) (List.flatMap_congr fun c hc => ?_)
    rw [← ih c hc, component, component, kind, kind, renameDomain_node]
    rfl

theorem Node.surfacing_renameDomain (n : Node) (old new : String) :
    (n.renameDomain old new).surfacing = n.surfacing.map fun d => d.renameTo old new := by
  rw [surfacing, surfacing, renameDomain, List.filter_map]
  congr 2
  funext d
  simp [ClockDomain.renameTo_isLocal]

/-- A tree whose nodes are those of another one renamed, and that surfaces what they declare. -/
structure Module.Follows (o f : Module) : Prop where
  kind : f.kind = o.kind
  nodes : ∀ path, List.Forall₂
    (fun x y => y.1 = x.1 ∧ ∃ steps, Node.Renamed steps x.2 y.2) (o.walk path) (f.walk path)
  surfaced : ∀ path, ∀ x ∈ f.walk path, x.2.surfacing.Sublist f.surfaced

def Module.AllFollow (children closed : List (Option String × Module)) : Prop :=
  List.Forall₂ (fun c d => d.1 = c.1 ∧ c.2.Follows d.2) children closed

namespace Module.Follows

variable {o f : Module}

theorem renameDomain (h : o.Follows f) {old new : String} (hnew : Extends new old) :
    o.Follows (f.renameDomain old new) := by
  refine ⟨?_, fun path => ?_, fun path => ?_⟩
  · rw [Module.kind, renameDomain_node]
    exact h.kind
  · rw [walk_renameDomain, List.forall₂_map_right_iff]
    refine (h.nodes path).imp fun x y hxy => ?_
    obtain ⟨hpath, steps, hsteps⟩ := hxy
    exact ⟨hpath, _, hsteps.renameDomain hnew⟩
  · rw [walk_renameDomain, List.forall_mem_map]
    intro x hx
    rw [surfaced_renameDomain, Node.surfacing_renameDomain]
    exact (h.surfaced path x hx).map _

theorem renameAll (h : o.Follows f) {steps : List (String × String)} (hsteps : Prefixing steps) :
    o.Follows (f.renameAll steps) := by
  induction steps generalizing f with
  | nil => exact h
  | cons step rest ih =>
    obtain ⟨hstep, hrest⟩ := List.forall_mem_cons.mp hsteps
    exact ih (h.renameDomain hstep) hrest

end Module.Follows

section

variable {children closed : List (Option String × Module)}

theorem Module.AllFollow.walkAll (h : Module.AllFollow children closed) (path : Path) :
    List.Forall₂ (fun x y => y.1 = x.1 ∧ ∃ steps, Node.Renamed steps x.2 y.2)
      (Module.walkAll path children) (Module.walkAll path closed) := by
  rw [walkAll_eq, walkAll_eq]
  refine List.rel_flatMap h fun c d hcd => ?_
  obtain ⟨hname, hfollows⟩ := hcd
  have hcomponent : component d = component c := by
    rw [component, component, hname, hfollows.kind]
  rw [hcomponent]
  exact hfollows.nodes _

theorem Module.AllFollow.mapIdx (h : Module.AllFollow children closed)
    {steps : Nat → List (String × String)} (hsteps : ∀ i, Prefixing (steps i)) :
    Module.AllFollow children (closed.mapIdx fun i c => (c.1, c.2.renameAll (steps i))) := by
  induction h generalizing steps with
  | nil => exact .nil
  | cons hcd _ ih =>
    rw [List.mapIdx_cons]
    exact .cons ⟨hcd.1, hcd.2.renameAll (hsteps 0)⟩ (ih fun i => hsteps (i + 1))

end

theorem Module.Follows.of_resolved {o f : Module} {steps : List (String × String)}
    (hnode : Node.Renamed steps o.node f.node)
    (hchildren : Module.AllFollow o.children f.children) (hresolved : f.Resolved) :
    o.Follows f := by
  obtain ⟨node, children⟩ := o
  obtain ⟨fnode, fchildren⟩ := f
  refine ⟨hnode.kind, fun path => ?_, fun path => ?_⟩
  · exact .cons ⟨rfl, steps, hnode⟩ (hchildren.walkAll path)
  · refine List.forall_mem_cons.mpr ⟨hresolved.surfacing_sublist, fun x hx => ?_⟩
    rw [Module.walkAll_eq] at hx
    obtain ⟨d, hd, hx⟩ := List.mem_flatMap.mp hx
    obtain ⟨c, -, -, hfollows⟩ := exists_of_forall₂ hchildren d hd
    exact (hfollows.surfaced _ x hx).trans (hresolved.child_sublist hd)

/-! ## Closing -/

theorem prefixing_stepsAt (groups : List (String × List Contribution)) (position : Nat) :
    Prefixing (stepsAt groups position) := by
  intro step hstep
  obtain ⟨g, -, hstep⟩ := List.mem_flatMap.mp hstep
  obtain ⟨c, -, rfl⟩ := List.mem_map.mp hstep
  exact ⟨c.owner, rfl⟩

/-- A node as construction steps without deferred constructions and transforms leave it. -/
structure Node.Plain (n : Node) : Prop where
  finalized : n.finalized = false
  hook : n.hook = none
  transforms : n.transforms = []
  declared : (n.declared.map ClockDomain.name).Nodup
  labels : n.blocks.labels.Nodup

/-- Closing alone renames nothing. -/
theorem Node.Plain.renamed {n : Node} (h : n.Plain) (specials : List Special)
    (resolved : List ClockDomain) (finalized : Bool) :
    Node.Renamed [] n { n with specials, resolved, finalized } where
  prefixing := nofun
  kind := rfl
  declared := (List.map_id _).symm
  labels := h.labels
  blocks := Node.joins_nil h.labels rfl

/-- At the root only a `sync` may be added. -/
theorem Node.Plain.apart {n : Node} (h : n.Plain) {added : List ClockDomain}
    (hnodup : ((n.declared ++ added).map ClockDomain.name).Nodup) (specials : List Special)
    (resolved : List ClockDomain) (finalized : Bool) :
    Node.Apart [] added n
      { n with declared := n.declared ++ added, specials, resolved, finalized } where
  prefixing := nofun
  declared := congrArg (· ++ added) (List.map_id _).symm
  fresh := by
    intro c hc d hd heq
    rw [List.map_append, List.nodup_append] at hnodup
    exact hnodup.2.2 _ (List.mem_map_of_mem hd) _ (List.mem_map_of_mem hc) heq.symm
  surfacing := hnodup.sublist (List.filter_sublist.map _)
  names _ _ _ _ hne heq := absurd heq hne
  labels := h.labels
  blocks := Node.joins_nil h.labels rfl

section

variable {ω : Type} {config : Config} {build : Builder ω} {depth : Nat} {root : Bool}
  {path : Path} {m : Module} {s : Session ω}

/-- What settling the domains of a module changes. -/
theorem settleDomains_eq_done {config : DomainConfig}
    (done : (settleDomains config root path m s).ending = .done) :
    (settleDomains config root path m s).value.Resolved ∧ ∃ added specials resolved,
      (root = false → added = []) ∧
      ((m.node.declared.map ClockDomain.name).Nodup →
        ((m.node.declared ++ added).map ClockDomain.name).Nodup) ∧
      (settleDomains config root path m s).value = ⟨{ m.node with
        declared := m.node.declared ++ added, specials, resolved },
          renamedBy (collisions m.contributions) m.children⟩ := by
  cases hresult : ((m.withMemoryDomain config.defaultMemoryDomain).resolve path).result with
  | error e =>
    rw [(settleDomains_of_error hresult).2] at done
    cases done
  | ok _ =>
    have hresolved := Module.resolved_of_ok hresult
    obtain ⟨-, hchildren, -⟩ := Module.resolve_eq_ok hresult
    obtain ⟨resolved, hnode⟩ :=
      Module.resolve_node (m.withMemoryDomain config.defaultMemoryDomain) path
    cases root with
    | false =>
      rw [(settleDomains_of_ok hresult).1]
      refine ⟨hresolved, [], (m.node.resolveMemoryDomains config.defaultMemoryDomain).specials,
        resolved, fun _ => rfl, fun h => by rwa [List.append_nil], ?_⟩
      rw [List.append_nil]
      exact Module.eq_mk hnode hchildren
    | true =>
      obtain ⟨hvalue, hending⟩ := settleDomains_root_of_ok (s := s) hresult
      have hok := Ending.ofResult_eq_done.mp (hending.symm.trans done)
      obtain ⟨hchecked, added, resolved, hnodup, hmodule⟩ := Module.checkUses_eq_ok hresolved hok
      rw [hvalue]
      refine ⟨hchecked, added, (m.node.resolveMemoryDomains config.defaultMemoryDomain).specials,
        resolved, nofun, fun h => ?_, ?_⟩
      · rw [hnode] at hnodup
        exact hnodup h
      · rw [hmodule, hchildren, hnode]
        rfl

/-- What closing an open module without deferred construction and transforms changes. -/
theorem Module.close_plain_done (hplain : m.node.Plain)
    (done : (m.close config build (depth + 1) root path s).ending = .done) :
    (m.close config build (depth + 1) root path s).value.Resolved ∧
      ∃ closed added specials resolved,
        AllClosed (Module.close config build depth false) m.children closed ∧
        (root = false → added = []) ∧
        ((m.node.declared ++ added).map ClockDomain.name).Nodup ∧
        (m.close config build (depth + 1) root path s).value =
          ⟨{ m.node with
            declared := m.node.declared ++ added, specials, resolved, finalized := true },
            renamedBy (collisions (contributionsFrom 0 closed)) closed⟩ := by
  rw [Module.close_of_plain hplain.finalized hplain.hook] at done ⊢
  obtain ⟨hsettled, -⟩ := Progress.andThen_eq_done.mp done
  rw [Progress.andThen_of_done hsettled]
  obtain ⟨htransformed, hdomains⟩ := Progress.andThen_eq_done.mp hsettled
  rw [Progress.andThen_of_done htransformed]
  obtain ⟨hchildren, -⟩ := Progress.andThen_eq_done.mp htransformed
  have hnone : (closeFrom (Module.close config build depth false) path 0 m
      (s.note (.finalizing path))).value.node.transforms = [] := hplain.transforms
  rw [Progress.andThen_of_done hchildren, runTransforms_of_none hnone, closeFrom_zero]
    at hdomains ⊢
  rw [closeFrom_zero] at hchildren
  obtain ⟨hresolved, added, specials, resolved, hroot, hnodup, hvalue⟩ :=
    settleDomains_eq_done hdomains
  refine ⟨⟨hresolved.resolved, hresolved.declared, hresolved.nodup⟩, _, added, specials, resolved,
    closeChildren_eq_done hchildren, hroot, hnodup hplain.declared, ?_⟩
  rw [markClosed, hvalue]
  rfl

/-- Closed children still follow the open ones after the renames of their parent. -/
theorem Module.AllFollow.of_closed {children closed : List (Option String × Module)}
    (h : ∀ c ∈ children, ∀ path (s : Session ω),
      (c.2.close config build depth false path s).ending = .done →
        c.2.Follows (c.2.close config build depth false path s).value)
    (hclosed : AllClosed (Module.close config build depth false) children closed)
    (groups : List (String × List Contribution)) :
    Module.AllFollow children (renamedBy groups closed) := by
  refine Module.AllFollow.mapIdx ?_ (prefixing_stepsAt groups)
  refine ((List.forall₂_and_left children closed).mpr ⟨h, hclosed⟩).imp fun c d hcd => ?_
  obtain ⟨hc, hname, path, s, hdone, heq⟩ := hcd
  exact ⟨hname, heq ▸ hc path s hdone⟩

theorem Module.Follows.of_close (hplain : m.All Node.Plain)
    (done : (m.close config build depth false path s).ending = .done) :
    m.Follows (m.close config build depth false path s).value := by
  induction depth generalizing path m s with
  | zero => cases done
  | succ depth ih =>
    obtain ⟨hnode, hchildren⟩ := Module.all_iff.mp hplain
    obtain ⟨hresolved, closed, added, specials, resolved, hclosed, hroot, -, hvalue⟩ :=
      Module.close_plain_done hnode done
    obtain rfl := hroot rfl
    rw [hvalue, List.append_nil] at hresolved ⊢
    -- the children follow by induction, and the renames of this level go on top of theirs
    exact Module.Follows.of_resolved (hnode.renamed specials resolved true)
      (Module.AllFollow.of_closed (fun c hc _ _ => ih (hchildren c hc)) hclosed _) hresolved

end

theorem Module.AllFollow.apart {children closed : List (Option String × Module)}
    (h : Module.AllFollow children closed)
    (hnodup : ∀ d ∈ closed, (d.2.surfaced.map ClockDomain.name).Nodup) (path : Path) :
    List.Forall₂ (fun x y => y.1 = x.1 ∧ ∃ steps added, Node.Apart steps added x.2 y.2)
      (Module.walkAll path children) (Module.walkAll path closed) := by
  have hsurfacing : ∀ y ∈ Module.walkAll path closed,
      (y.2.surfacing.map ClockDomain.name).Nodup := by
    intro y hy
    rw [Module.walkAll_eq] at hy
    obtain ⟨d, hd, hy⟩ := List.mem_flatMap.mp hy
    obtain ⟨c, -, -, hfollows⟩ := exists_of_forall₂ h d hd
    exact (hnodup d hd).sublist ((hfollows.surfaced _ y hy).map _)
  refine ((List.forall₂_and_left _ _).mpr
    ⟨hsurfacing, List.Forall₂.flip (h.walkAll path)⟩).flip.imp fun x y hxy => ?_
  obtain ⟨hy, hpath, steps, hsteps⟩ := hxy
  exact ⟨hpath, steps, [], hsteps.apart hy⟩

/-! ## Construction steps -/

/-- The trees that construction steps lead to, deferred constructions and transforms apart. -/
inductive Module.Built : Module → Prop
  | empty (kind : String) : Module.Built (.empty kind)
  | domain {m : Module} {n : Node} (d : ClockDomain) (h : m.Built)
      (added : m.node.addDomain d = .ok n) : Module.Built { m with node := n }
  | statements {m : Module} {n : Node} (domain : String) (block : Block) (h : m.Built)
      (added : m.node.addStatements domain block = .ok n) : Module.Built { m with node := n }
  | machine {m : Module} (machine : Machine) (h : m.Built) :
      Module.Built { m with node := (m.node.addMachine machine).1 }
  | special {m : Module} {n : Node} (special : Special) (h : m.Built)
      (added : m.node.addSpecial special = .ok n) : Module.Built { m with node := n }
  | child {m c m' : Module} (name : Option String) (h : m.Built) (hc : c.Built)
      (added : m.addChild name c = .ok m') : m'.Built

namespace Node

variable {n n' : Node}

theorem addStatements_eq_ok {domain : String} {block : Block}
    (h : n.addStatements domain block = .ok n') :
    n.conflict? domain (Block.drives block) = none ∧ n' = { n with
      drivers := n.drivers.setAll (Block.drives block) domain
      blocks := n.blocks.extend domain block } := by
  obtain ⟨_, -, h⟩ := bind_eq_ok.mp h
  dsimp only at h
  split at h
  · cases h
  · rename_i hconflict
    cases h
    exact ⟨hconflict, rfl⟩

/-- A machine is added by adding statements, as far as it is. -/
theorem addMachine_keeps {P : Node → Prop}
    (hadd : ∀ n n' domain block, P n → n.addStatements domain block = .ok n' → P n') (hn : P n)
    (machine : Machine) : P (n.addMachine machine).1 := by
  have hswitches : ∀ switches (n : Node), P n → P (n.addSwitches switches).1 := by
    intro switches
    induction switches with
    | nil => exact fun _ hn => hn
    | cons switch rest ih =>
      intro n hn
      obtain ⟨domain, statement⟩ := switch
      rw [Node.addSwitches]
      split
      · exact hn
      · rename_i added
        exact ih _ (hadd _ _ _ _ hn added)
  unfold Node.addMachine
  split
  · exact hn
  · split
    · exact hn
    · exact hswitches _ _ hn

theorem Plain.addStatements {domain : String} {block : Block} (hn : n.Plain)
    (h : n.addStatements domain block = .ok n') : n'.Plain := by
  obtain ⟨-, rfl⟩ := addStatements_eq_ok h
  exact ⟨hn.finalized, hn.hook, hn.transforms, hn.declared,
    Blocks.nodup_labels_extend hn.labels block⟩

theorem Plain.addDomain {d : ClockDomain} (hn : n.Plain) (h : n.addDomain d = .ok n') :
    n'.Plain := by
  have hnodup := nodup_addDomain h hn.declared
  obtain ⟨-, rfl⟩ := Node.addDomain_eq_ok h
  exact ⟨hn.finalized, hn.hook, hn.transforms, hnodup, hn.labels⟩

end Node

theorem Module.addChild_eq_ok {m c m' : Module} {name : Option String}
    (h : m.addChild name c = .ok m') : m' = { m with children := m.children ++ [(name, c)] } := by
  obtain ⟨_, -, h⟩ := bind_eq_ok.mp h
  cases name with
  | none =>
    cases h
    rfl
  | some name =>
    dsimp only at h
    split at h
    · cases h
    · cases h
      rfl

theorem Module.Built.plain {m : Module} (h : m.Built) : m.All Node.Plain := by
  induction h with
  | empty kind => exact Module.all_iff.mpr ⟨⟨rfl, rfl, rfl, .nil, .nil⟩, nofun⟩
  | domain _ _ added ih =>
    obtain ⟨hnode, hchildren⟩ := Module.all_iff.mp ih
    exact Module.all_iff.mpr ⟨hnode.addDomain added, hchildren⟩
  | statements _ _ _ added ih =>
    obtain ⟨hnode, hchildren⟩ := Module.all_iff.mp ih
    exact Module.all_iff.mpr ⟨hnode.addStatements added, hchildren⟩
  | machine machine _ ih =>
    obtain ⟨hnode, hchildren⟩ := Module.all_iff.mp ih
    refine Module.all_iff.mpr ⟨?_, hchildren⟩
    exact Node.addMachine_keeps (fun _ _ _ _ hn added => hn.addStatements added) hnode machine
  | special _ _ added ih =>
    obtain ⟨hnode, hchildren⟩ := Module.all_iff.mp ih
    obtain ⟨_, -, added⟩ := bind_eq_ok.mp added
    cases added
    exact Module.all_iff.mpr ⟨⟨hnode.finalized, hnode.hook, hnode.transforms, hnode.declared,
      hnode.labels⟩, hchildren⟩
  | child _ _ _ added ih ihc =>
    obtain ⟨hnode, hchildren⟩ := Module.all_iff.mp ih
    obtain rfl := Module.addChild_eq_ok added
    exact Module.all_iff.mpr ⟨hnode, List.forall_mem_append.mpr
      ⟨hchildren, List.forall_mem_singleton.mpr ihc⟩⟩

/-- Finalizing a tree that construction steps led to keeps its nodes, and in each of them domains
stay apart, unless a rename gives one of them the name of a local one. -/
theorem Module.finalize_keeps_apart {ω : Type} (config : Config) (build : Builder ω) (depth : Nat)
    (m : Module) (s : Session ω) (built : m.Built)
    (done : (m.finalize config build depth s).ending = .done) :
    List.Forall₂ (fun x y => y.1 = x.1 ∧ ∃ steps added, Node.Apart steps added x.2 y.2)
      m.nodes (m.finalize config build depth s).value.nodes := by
  cases depth with
  | zero => cases done
  | succ depth =>
    obtain ⟨hnode, hchildren⟩ := Module.all_iff.mp built.plain
    obtain ⟨hresolved, closed, added, specials, resolved, hclosed, -, hnodup, hvalue⟩ :=
      Module.close_plain_done hnode done
    have hfollows := Module.AllFollow.of_closed
      (fun c hc _ _ => Module.Follows.of_close (hchildren c hc)) hclosed
      (collisions (contributionsFrom 0 closed))
    rw [Module.finalize]
    rw [hvalue] at hresolved ⊢
    -- nothing renames the root, and every node below surfaces its domains through it
    have hsurfaced := hresolved.nodup_surfaced hnodup
    obtain ⟨node, children⟩ := m
    exact .cons ⟨rfl, [], added, hnode.apart hnodup specials resolved true⟩
      (hfollows.apart (fun d hd =>
        hsurfaced.sublist ((hresolved.child_sublist hd).map _)) _)

/-- A module that holds each of some domains' statements, one in each. -/
def holding (kind : String) (domains : List (ClockDomain × Nat)) : Module :=
  { node :=
      { kind
        declared := domains.map (·.1)
        blocks := domains.map fun (d, id) => (d.name, [.assign (held id) (held id)])
        drivers := domains.map fun (d, id) => (id, d.name) } }
where
  held (id : Nat) : Value := .signal (.named id "q" 1)

/-- A part two levels down shares the name `x` with another child of the root. -/
def nestedTree : Module :=
  { node := { kind := "Top" }
    children :=
      [(some "a",
        { node := { kind := "A" }
          children := [(some "k", holding "K" [(.fresh 0 "x", 6), (.fresh 2 "y", 7)])] }),
      (some "b", holding "B" [(.fresh 4 "x", 8)])] }

theorem Module.finalize_keeps_apart_nested :
    nestedTree.Built ∧ (nestedTree.finalize {} noHooks 3 ⟨9, [], ()⟩).ending = .done ∧
      List.Forall₂ (fun x y => y.1 = x.1 ∧ ∃ steps added, Node.Apart steps added x.2 y.2)
        nestedTree.nodes (nestedTree.finalize {} noHooks 3 ⟨9, [], ()⟩).value.nodes ∧
      ((nestedTree.finalize {} noHooks 3 ⟨9, [], ()⟩).value.nodes.map fun y =>
        y.2.declared.map ClockDomain.name) = [[], [], ["a_x", "y"], ["b_x"]] := by
  have k : (holding "K" [(.fresh 0 "x", 6), (.fresh 2 "y", 7)]).Built :=
    .statements "y" [.assign (holding.held 7) (holding.held 7)]
      (.statements "x" [.assign (holding.held 6) (holding.held 6)]
        (.domain (.fresh 2 "y") (.domain (.fresh 0 "x") (.empty "K") rfl) rfl) rfl) rfl
  have b : (holding "B" [(.fresh 4 "x", 8)]).Built :=
    .statements "x" [.assign (holding.held 8) (holding.held 8)]
      (.domain (.fresh 4 "x") (.empty "B") rfl) rfl
  have built : nestedTree.Built :=
    .child (some "b") (.child (some "a") (.empty "Top") (.child (some "k") (.empty "A") k rfl) rfl)
      b rfl
  have done : (nestedTree.finalize {} noHooks 3 ⟨9, [], ()⟩).ending = .done := rfl
  exact ⟨built, done, Module.finalize_keeps_apart {} noHooks 3 nestedTree _ built done, rfl⟩

/-- A local domain of `a` has the name that the contested `x` takes there. -/
def mergingTree : Module :=
  { node := { kind := "Top" }
    children :=
      [(some "a", holding "A"
        [(.fresh 0 "x", 6), ({ ClockDomain.fresh 2 "a_x" with isLocal := true }, 7)]),
      (some "b", holding "B" [(.fresh 4 "x", 8)])] }

/-- A rename can merge a domain with a local one: they end up with one name and one block. -/
theorem Module.finalize_merges_local :
    mergingTree.Built ∧ (mergingTree.finalize {} noHooks 2 ⟨9, [], ()⟩).ending = .done ∧
      ∃ a ∈ (mergingTree.finalize {} noHooks 2 ⟨9, [], ()⟩).value.nodes,
        a.2.kind = "A" ∧ a.2.declared.map ClockDomain.name = ["a_x", "a_x"] ∧
        a.2.blocks = [("a_x", [.assign (holding.held 7) (holding.held 7),
          .assign (holding.held 6) (holding.held 6)])] := by
  have a : (holding "A" [(.fresh 0 "x", 6),
      ({ ClockDomain.fresh 2 "a_x" with isLocal := true }, 7)]).Built :=
    .statements "a_x" [.assign (holding.held 7) (holding.held 7)]
      (.statements "x" [.assign (holding.held 6) (holding.held 6)]
        (.domain { ClockDomain.fresh 2 "a_x" with isLocal := true }
          (.domain (.fresh 0 "x") (.empty "A") rfl) rfl) rfl) rfl
  have b : (holding "B" [(.fresh 4 "x", 8)]).Built :=
    .statements "x" [.assign (holding.held 8) (holding.held 8)]
      (.domain (.fresh 4 "x") (.empty "B") rfl) rfl
  exact ⟨.child (some "b") (.child (some "a") (.empty "Top") a rfl) b rfl, rfl, _,
    List.mem_cons_of_mem _ List.mem_cons_self, rfl, rfl, rfl⟩

end Gateware
