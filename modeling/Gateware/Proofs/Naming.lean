import Gateware.Naming
import Gateware.Proofs.Walk

/-! # Identifiers are unique

A new identifier is never one that is taken, so naming gives every signal of a closed tree one
identifier of its own. With numbers at the end of names there is always a free one: among more
numbers than there are names, one is not taken.
-/
namespace Gateware

/-- The keys kept are those of the list, each where it is met first. -/
theorem keys_keepFirst {α β : Type} [DecidableEq β] (key : α → β) (seen : List β) (as : List α) :
    (keepFirst key seen as).map key =
      ((as.map key).filter fun k => !decide (k ∈ seen)).eraseDups := by
  induction as generalizing seen with
  | nil => simp [keepFirst]
  | cons a as ih =>
    rw [keepFirst]
    split
    · rename_i ha
      simp [ih, ha]
    · rename_i ha
      rw [List.map_cons, ih, List.map_cons, List.filter_cons_of_pos (by simp [ha]),
        List.eraseDups_cons, List.filter_filter]
      congr 3
      funext k
      simp only [List.mem_cons, Bool.decide_or, Bool.not_or]
      rfl

theorem find?_key_iff {α β : Type} [DecidableEq β] {key : α → β} {as : List α} {k : β} {a : α}
    (h : (as.map key).Nodup) : as.find? (fun e => key e == k) = some a ↔ a ∈ as ∧ key a = k := by
  constructor
  · intro hf
    exact ⟨List.mem_of_find?_eq_some hf, by simpa using List.find?_some hf⟩
  · rintro ⟨ha, rfl⟩
    have hsome : (as.find? fun e => key e == key a).isSome :=
      List.find?_isSome.mpr ⟨a, ha, by simp⟩
    obtain ⟨b, hb⟩ := Option.isSome_iff_exists.mp hsome
    have hkey : key b = key a := by simpa using List.find?_some hb
    rw [hb, List.inj_on_of_nodup_map h (List.mem_of_find?_eq_some hb) ha hkey]

namespace NameMap

/-- The numbers of the named signals, in the order in which they were named. -/
def ids (names : NameMap) : List Nat := names.entries.map (·.1)

def identifiers (names : NameMap) : List String := names.entries.map (·.2)

variable {names : NameMap} {id : Nat} {name : String}

theorem get?_eq_some (h : names.ids.Nodup) :
    names.get? id = some name ↔ (id, name) ∈ names.entries := by
  simp only [get?, Option.map_eq_some_iff, find?_key_iff h]
  constructor
  · rintro ⟨⟨_, _⟩, ⟨he, rfl⟩, rfl⟩
    exact he
  · exact fun he => ⟨(id, name), ⟨he, rfl⟩, rfl⟩

theorem lookup?_eq_some (h : names.identifiers.Nodup) :
    names.lookup? name = some id ↔ (id, name) ∈ names.entries := by
  simp only [lookup?, Option.map_eq_some_iff, find?_key_iff h]
  constructor
  · rintro ⟨⟨_, _⟩, ⟨he, rfl⟩, rfl⟩
    exact he
  · exact fun he => ⟨(id, name), ⟨he, rfl⟩, rfl⟩

theorem get?_isSome : (names.get? id).isSome ↔ id ∈ names.ids := by
  simp [get?, ids, List.find?_isSome]

theorem taken_iff : names.taken name = true ↔ name ∈ names.identifiers := by
  simp [taken, lookup?, identifiers, List.find?_isSome]

end NameMap

/-! ## Picking one name -/

section

variable {config : NamingConfig} {names : NameMap} {s : Signal} {scope : List String}

theorem numbered_injective (separator base : String) :
    Function.Injective (numbered separator base) := fun m n h => by
  unfold numbered at h
  exact Nat.repr_injective ((String.append_right_inj _).mp h)

theorem firstNumbered_free {separator base name : String} {n tries : Nat}
    (h : firstNumbered names separator base n tries = some name) : names.taken name = false := by
  induction tries generalizing n with
  | zero => cases h
  | succ tries ih =>
    rw [firstNumbered] at h
    split at h
    · exact ih h
    · rename_i hfree
      cases h
      exact Bool.eq_false_iff.mpr hfree

theorem firstNumbered_eq_none {separator base : String} {n tries : Nat}
    (h : firstNumbered names separator base n tries = none) :
    ∀ i, n ≤ i → i < n + tries → names.taken (numbered separator base i) = true := by
  induction tries generalizing n with
  | zero => intro i _ _; omega
  | succ tries ih =>
    rw [firstNumbered] at h
    split at h
    · rename_i htaken
      intro i hle hlt
      rcases Nat.eq_or_lt_of_le hle with rfl | hlt'
      · exact htaken
      · exact ih h i hlt' (by omega)
    · cases h

/-- Among one more number than there are names, one is free. -/
theorem firstNumbered_isSome (names : NameMap) (separator base : String) (n : Nat) :
    (firstNumbered names separator base n (names.size + 1)).isSome := by
  by_contra hnone
  have htaken := firstNumbered_eq_none (Option.not_isSome_iff_eq_none.mp hnone)
  -- all tried names are different and taken, but there is one more of them than are taken
  let tried := (List.range' n (names.size + 1)).map (numbered separator base)
  have hnodup : tried.Nodup :=
    List.Nodup.map (numbered_injective separator base) (List.nodup_range' 1)
  have hsub : tried ⊆ names.identifiers := by
    intro name hname
    obtain ⟨i, hi, rfl⟩ := List.mem_map.mp hname
    obtain ⟨hle, hlt⟩ := List.mem_range'_1.mp hi
    exact NameMap.taken_iff.mp (htaken i hle hlt)
  have hlength := (List.subperm_of_subset hnodup hsub).length_le
  simp only [tried, List.length_map, List.length_range', NameMap.identifiers, NameMap.size]
    at hlength
  omega

theorem pickName_free {name : String} (h : pickName config names s scope = .ok name) :
    name ∉ names.identifiers := by
  rw [← NameMap.taken_iff, Bool.not_eq_true]
  unfold pickName at h
  dsimp only at h
  split at h
  · rename_i hfound
    cases h
    simpa using List.find?_some hfound
  · split at h
    · rename_i found
      cases h
      split at found
      · exact firstNumbered_free found
      · cases found
    · cases h

theorem pickName_of_suffix (h : config.numericSuffix = true) (names : NameMap) (s : Signal)
    (scope : List String) : ∃ name, pickName config names s scope = .ok name := by
  unfold pickName
  dsimp only
  split
  · exact ⟨_, rfl⟩
  · obtain ⟨name, hname⟩ := Option.isSome_iff_exists.mp
      (firstNumbered_isSome names config.separator _ 1)
    rw [if_pos h, hname]
    exact ⟨name, rfl⟩

theorem pickName_eq_error {e : NamingError} (h : pickName config names s scope = .error e) :
    ∃ longest, e = .identifier s longest := by
  unfold pickName at h
  dsimp only at h
  split at h
  · cases h
  · split at h
    · cases h
    · cases h
      exact ⟨_, rfl⟩

end

/-! ## Naming all signals -/

section

variable {config : NamingConfig} {handles : List Signal} {names result : NameMap}
  {mentions : List Mention}

theorem currentHandle_id (handles : List Signal) (s : Signal) :
    (currentHandle handles s).id = s.id := by
  unfold currentHandle
  cases h : handles.reverse.find? fun t => t.same s with
  | none => rfl
  | some t => simpa [Signal.same] using List.find?_some h

/-- Naming succeeds with one more signal exactly if a name is picked and the others are named. -/
theorem nameAll_cons_eq_ok {mention : Mention} :
    (nameAll config handles names (mention :: mentions)).result = .ok result ↔
      ∃ name,
        pickName config names (currentHandle handles mention.signal) mention.scope = .ok name ∧
        (nameAll config handles (names.insert mention.signal.id name) mentions).result =
          .ok result := by
  rw [nameAll]
  dsimp only
  rw [currentHandle_id]
  split
  · rename_i hpick
    simp [hpick]
  · rename_i hpick
    simp [hpick]

/-- The named signals are those mentioned, in the same order. -/
theorem nameAll_ids (h : (nameAll config handles names mentions).result = .ok result) :
    result.ids = names.ids ++ mentions.map fun mention => mention.signal.id := by
  induction mentions generalizing names with
  | nil =>
    cases h
    simp
  | cons mention rest ih =>
    obtain ⟨name, -, h⟩ := nameAll_cons_eq_ok.mp h
    rw [ih h]
    simp [NameMap.ids, NameMap.insert]

theorem nameAll_identifiers_nodup (hn : names.identifiers.Nodup)
    (h : (nameAll config handles names mentions).result = .ok result) :
    result.identifiers.Nodup := by
  induction mentions generalizing names with
  | nil =>
    cases h
    exact hn
  | cons mention rest ih =>
    obtain ⟨name, hpick, h⟩ := nameAll_cons_eq_ok.mp h
    refine ih ?_ h
    have hfree := pickName_free hpick
    simp only [NameMap.identifiers, NameMap.insert, List.map_append] at hfree ⊢
    exact List.nodup_append.mpr ⟨hn, by simp, by grind⟩

theorem nameAll_of_suffix (hs : config.numericSuffix = true) (names : NameMap)
    (mentions : List Mention) :
    ∃ result, (nameAll config handles names mentions).result = .ok result := by
  induction mentions generalizing names with
  | nil => exact ⟨names, rfl⟩
  | cons mention rest ih =>
    obtain ⟨name, hname⟩ := pickName_of_suffix hs names (currentHandle handles mention.signal)
      mention.scope
    obtain ⟨result, hresult⟩ := ih (names.insert mention.signal.id name)
    exact ⟨result, nameAll_cons_eq_ok.mpr ⟨name, hname, hresult⟩⟩

theorem nameAll_eq_error {e : NamingError}
    (h : (nameAll config handles names mentions).result = .error e) :
    ∃ s longest, e = .identifier s longest := by
  induction mentions generalizing names with
  | nil => cases h
  | cons mention rest ih =>
    rw [nameAll] at h
    dsimp only at h
    split at h
    · rename_i hpick
      cases h
      exact ⟨_, pickName_eq_error hpick⟩
    · exact ih h

end

/-! ## Trees -/

namespace Module

variable {config : NamingConfig} {m : Module} {names : NameMap}

def signalIds (m : Module) : List Nat :=
  ((m.nodes.flatMap fun (_, n) => n.signals).map Signal.id).eraseDups

theorem mentions_ids (m : Module) :
    (m.mentions.map fun mention => mention.signal.id) = m.signalIds := by
  unfold mentions signalIds
  rw [keys_keepFirst, List.map_flatMap, List.map_flatMap]
  simp only [List.not_mem_nil, decide_false, Bool.not_false, List.filter_true, List.map_map]
  rfl

theorem mem_signalIds {x : Path × Node} (hx : x ∈ m.nodes) {s : Signal} (hs : s ∈ x.2.signals) :
    s.id ∈ m.signalIds :=
  List.mem_eraseDups.mpr (List.mem_map_of_mem (List.mem_flatMap_of_mem hx hs))

theorem firstOpen?_eq_none : m.firstOpen? = none ↔ ∀ x ∈ m.nodes, x.2.finalized = true := by
  simp [firstOpen?]

/-- The names of a tree are given to its signals in the order of their first mention, and no two
are equal. -/
theorem resolveNames_eq_ok (h : (m.resolveNames config).2 = .ok names) :
    names.ids = m.signalIds ∧ names.identifiers.Nodup := by
  unfold resolveNames at h
  split at h
  · cases h
  · cases hnamed : (nameAll config m.domainSignals {} m.mentions).result with
    | error e => simp [hnamed, Except.mapError] at h
    | ok result =>
      simp only [hnamed, Except.mapError, Except.ok.injEq] at h
      subst h
      have hempty : (NameMap.identifiers {}).Nodup := List.nodup_nil
      refine ⟨?_, nameAll_identifiers_nodup hempty hnamed⟩
      rw [nameAll_ids hnamed, mentions_ids]
      rfl

end Module

/-- Naming a closed tree ends, always with names if numbers may stand at the end and otherwise in
no error but a conflict of identifiers. The names belong to the signals of the tree, each listed
once in the order of their first mention; every signal has one, different signals have different
ones, and looking up goes both ways. -/
theorem Module.resolveNames_bijective (config : NamingConfig) (m : Module)
    (closed : ∀ x ∈ m.nodes, x.2.finalized = true) :
    (config.numericSuffix = true → ∃ names, (m.resolveNames config).2 = .ok names) ∧
    (∀ e, (m.resolveNames config).2 = .error e → ∃ s name, e = .naming (.identifier s name)) ∧
    ∀ names, (m.resolveNames config).2 = .ok names →
      names.entries.map (·.1) =
        ((m.nodes.flatMap fun (_, n) => n.signals).map Signal.id).eraseDups ∧
      (names.entries.map (·.2)).Nodup ∧
      (∀ x ∈ m.nodes, ∀ s ∈ x.2.signals, ∃ name, names.get? s.id = some name) ∧
      (∀ a b name, names.get? a = some name → names.get? b = some name → a = b) ∧
      ∀ id name, names.get? id = some name ↔ names.lookup? name = some id := by
  have hresolve : (m.resolveNames config).2 =
      (nameAll config m.domainSignals {} m.mentions).result.mapError .naming := by
    rw [Module.resolveNames, Module.firstOpen?_eq_none.mpr closed]
  refine ⟨fun hs => ?_, fun e he => ?_, fun names hnames => ?_⟩
  · obtain ⟨names, hnames⟩ := nameAll_of_suffix hs {} m.mentions
    exact ⟨names, by rw [hresolve, hnames]; rfl⟩
  · rw [hresolve] at he
    cases hnamed : (nameAll config m.domainSignals {} m.mentions).result with
    | ok names => simp [hnamed, Except.mapError] at he
    | error e' =>
      obtain ⟨s, longest, rfl⟩ := nameAll_eq_error hnamed
      simp only [hnamed, Except.mapError, Except.error.injEq] at he
      exact ⟨s, longest, he.symm⟩
  · obtain ⟨hids, hidentifiers⟩ := Module.resolveNames_eq_ok hnames
    have hnodup : names.ids.Nodup := by
      rw [hids, ← Module.mentions_ids]
      exact nodup_keys_keepFirst _ _ _
    have hboth : ∀ id name, names.get? id = some name ↔ names.lookup? name = some id :=
      fun id name => (NameMap.get?_eq_some hnodup).trans (NameMap.lookup?_eq_some hidentifiers).symm
    refine ⟨hids, hidentifiers, fun x hx s hs => ?_, fun a b name ha hb => ?_, hboth⟩
    · have hmem : s.id ∈ names.ids := hids ▸ Module.mem_signalIds hx hs
      exact Option.isSome_iff_exists.mp (NameMap.get?_isSome.mpr hmem)
    · rw [hboth] at ha hb
      exact Option.some.inj (ha.symm.trans hb)

/-- A closed module with three signals of one hint and one whose hint looks like a name with a
number. -/
def crowdedModule : Module :=
  let x (id : Nat) := Value.signal (.named id "x" 1)
  { node :=
      { kind := "Top"
        blocks := [(combDomain,
          [.assign (x 0) (x 1), .assign (x 2) (.signal (.named 3 "Top_x_1" 1))])]
        finalized := true } }

theorem Module.resolveNames_bijective_crowded :
    (∀ x ∈ crowdedModule.nodes, x.2.finalized = true) ∧
      ∃ names, (crowdedModule.resolveNames {}).2 = .ok names ∧
        names.entries.map (·.1) = [0, 1, 2, 3] ∧
        ∃ name, names.get? 2 = some name ∧ names.lookup? name = some 2 := by
  have closed : ∀ x ∈ crowdedModule.nodes, x.2.finalized = true := by
    simp [crowdedModule, Module.nodes, Module.walk, Module.walkAll]
  obtain ⟨hok, -, hnames⟩ := Module.resolveNames_bijective {} crowdedModule closed
  obtain ⟨names, h⟩ := hok rfl
  obtain ⟨hids, -, hall, -, hboth⟩ := hnames names h
  obtain ⟨name, hname⟩ := hall _ List.mem_cons_self (.named 2 "x" 1) (by decide)
  exact ⟨closed, names, h, hids.trans (by decide), name, hname, (hboth _ _).mp hname⟩

end Gateware
