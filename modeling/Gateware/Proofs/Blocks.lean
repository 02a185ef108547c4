import Gateware.Module.Basic
import Mathlib

/-! # Blocks by label

A node keeps one block for each domain that has statements. Renaming a domain relabels its block or,
if the new domain has a block already, moves its statements to the end of that. What a label has
afterwards says which of the two happened.
-/
namespace Gateware

theorem map_eq_self {α : Type} {f : α → α} {as : List α} (h : ∀ a ∈ as, f a = a) :
    as.map f = as :=
  (List.map_congr_left h).trans (List.map_id as)

namespace Blocks

def labels (blocks : Blocks) : List String := blocks.map (·.1)

@[simp]
theorem labels_cons (d : String) (block : Block) (rest : Blocks) :
    labels ((d, block) :: rest) = d :: labels rest := rfl

variable {blocks : Blocks} {old new label : String}

theorem has_eq_true : blocks.has label = true ↔ label ∈ blocks.labels := by
  simp [has, labels]

theorem get_of_not_mem (h : label ∉ blocks.labels) : blocks.get label = [] := by
  induction blocks with
  | nil => rfl
  | cons b rest ih =>
    obtain ⟨d, block⟩ := b
    obtain ⟨hd, hrest⟩ := not_or.mp (mt List.mem_cons.mpr h)
    rw [get, if_neg (Ne.symm hd), ih hrest]

theorem get_of_mem (h : blocks.labels.Nodup) {b : String × Block} (hb : b ∈ blocks) :
    blocks.get b.1 = b.2 := by
  induction blocks with
  | nil => cases hb
  | cons c rest ih =>
    obtain ⟨d, block⟩ := c
    obtain ⟨hd, hrest⟩ := List.nodup_cons.mp h
    rcases List.mem_cons.mp hb with rfl | hb
    · rw [get, if_pos rfl]
    · have hne : d ≠ b.1 := fun heq => hd (List.mem_map.mpr ⟨b, hb, heq.symm⟩)
      rw [get, if_neg hne, ih hrest hb]

theorem mem_of_label (h : label ∈ blocks.labels) : (label, blocks.get label) ∈ blocks := by
  induction blocks with
  | nil => cases h
  | cons b rest ih =>
    obtain ⟨d, block⟩ := b
    by_cases hd : d = label
    · subst hd
      rw [get, if_pos rfl]
      exact List.mem_cons_self
    · rw [get, if_neg hd]
      exact List.mem_cons_of_mem _ (ih ((List.mem_cons.mp h).resolve_left (Ne.symm hd)))

theorem get_eq_flatMap (h : blocks.labels.Nodup) (label : String) :
    blocks.get label = (blocks.filter fun b => b.1 == label).flatMap (·.2) := by
  induction blocks with
  | nil => rfl
  | cons b rest ih =>
    obtain ⟨d, block⟩ := b
    obtain ⟨hd, hrest⟩ := List.nodup_cons.mp h
    rw [get, List.filter_cons]
    by_cases hlabel : d = label
    · subst hlabel
      have hnone := ih hrest
      rw [get_of_not_mem hd] at hnone
      simp [← hnone]
    · simp [hlabel, ih hrest]

theorem labels_erase : (blocks.erase old).labels = blocks.labels.erase old := by
  induction blocks with
  | nil => rfl
  | cons b rest ih =>
    obtain ⟨d, block⟩ := b
    by_cases hd : d = old
    · simp [erase, hd]
    · simp [erase, hd, ih]

theorem get_erase (h : blocks.labels.Nodup) :
    (blocks.erase old).get label = if label = old then [] else blocks.get label := by
  induction blocks with
  | nil => simp [erase, get]
  | cons b rest ih =>
    obtain ⟨d, block⟩ := b
    obtain ⟨hd, hrest⟩ := List.nodup_cons.mp h
    by_cases hold : d = old
    · subst hold
      by_cases hlabel : label = d
      · simp [erase, hlabel, get_of_not_mem hd]
      · simp [erase, get, hlabel, Ne.symm hlabel]
    · by_cases hlabel : d = label
      · subst hlabel
        simp [erase, get, hold]
      · simp [erase, get, hold, hlabel, ih hrest]

theorem labels_extend (more : Block) :
    (blocks.extend new more).labels =
      if new ∈ blocks.labels then blocks.labels else blocks.labels ++ [new] := by
  induction blocks with
  | nil => rfl
  | cons b rest ih =>
    obtain ⟨d, block⟩ := b
    by_cases hd : d = new
    · simp [extend, hd]
    · by_cases hnew : new ∈ labels rest
      · simp [extend, hd, ih, hnew]
      · simp [extend, hd, Ne.symm hd, ih, hnew]

theorem nodup_labels_extend (h : blocks.labels.Nodup) (more : Block) :
    (blocks.extend new more).labels.Nodup := by
  rw [labels_extend]
  split
  · exact h
  · rename_i hnew
    rw [← List.concat_eq_append]
    exact h.concat hnew

theorem get_extend (more : Block) :
    (blocks.extend new more).get label =
      if label = new then blocks.get new ++ more else blocks.get label := by
  induction blocks with
  | nil =>
    by_cases hlabel : label = new
    · simp [extend, get, hlabel]
    · simp [extend, get, hlabel, Ne.symm hlabel]
  | cons b rest ih =>
    obtain ⟨d, block⟩ := b
    by_cases hd : d = new
    · subst hd
      by_cases hlabel : label = d
      · simp [extend, get, hlabel]
      · simp [extend, get, hlabel, Ne.symm hlabel]
    · by_cases hlabel : label = new
      · subst hlabel
        simp [extend, get, hd, ih]
      · simp [extend, get, hd, hlabel, ih]

/-- With one block for each label, giving it another label changes no other block. -/
theorem relabel_eq_map (h : blocks.labels.Nodup) :
    blocks.relabel old new = blocks.map fun b => (if b.1 = old then new else b.1, b.2) := by
  induction blocks with
  | nil => rfl
  | cons b rest ih =>
    obtain ⟨d, block⟩ := b
    obtain ⟨hd, hrest⟩ := List.nodup_cons.mp h
    by_cases hold : d = old
    · subst hold
      have hkeep : rest.map (fun b => (if b.1 = d then new else b.1, b.2)) = rest := by
        refine map_eq_self fun b hb => ?_
        have hne : b.1 ≠ d := fun heq => hd (List.mem_map.mpr ⟨b, hb, heq⟩)
        rw [if_neg hne]
      simp [relabel, hkeep]
    · simp [relabel, hold, ih hrest]

theorem get_relabel (h : blocks.labels.Nodup) (hnew : new ∉ blocks.labels) (hne : old ≠ new) :
    (blocks.relabel old new).get label =
      if label = old then [] else if label = new then blocks.get old else blocks.get label := by
  induction blocks with
  | nil => simp [relabel, get]
  | cons b rest ih =>
    obtain ⟨d, block⟩ := b
    obtain ⟨hd, hrest⟩ := List.nodup_cons.mp h
    obtain ⟨hnewd, hnewrest⟩ := not_or.mp (mt List.mem_cons.mpr hnew)
    by_cases hold : d = old
    · subst hold
      by_cases hlabel : label = d
      · subst hlabel
        simp [relabel, get, Ne.symm hne, get_of_not_mem hd]
      · by_cases hlabel' : label = new
        · simp [relabel, get, hlabel', Ne.symm hne]
        · simp [relabel, get, hlabel, hlabel', Ne.symm hlabel, Ne.symm hlabel']
    · by_cases hlabel : d = label
      · subst hlabel
        simp [relabel, get, hold, Ne.symm hnewd]
      · simp [relabel, get, hold, hlabel, ih hrest hnewrest]

theorem nodup_labels_rename (h : blocks.labels.Nodup) : (blocks.rename old new).labels.Nodup := by
  unfold rename
  split
  · split
    · refine nodup_labels_extend ?_ _
      rw [labels_erase]
      exact h.erase old
    · rename_i hnew
      rw [has_eq_true] at hnew
      have hlabels : (blocks.relabel old new).labels =
          blocks.labels.map fun d => if d = old then new else d := by
        rw [relabel_eq_map h, labels, labels, List.map_map, List.map_map]
        rfl
      rw [hlabels]
      -- the new label is none of those that stay
      refine List.Nodup.map_on (fun x hx y hy heq => ?_) h
      by_cases hxold : x = old
      · by_cases hyold : y = old
        · rw [hxold, hyold]
        · rw [if_pos hxold, if_neg hyold] at heq
          exact absurd (heq ▸ hy) hnew
      · by_cases hyold : y = old
        · rw [if_neg hxold, if_pos hyold] at heq
          exact absurd (heq ▸ hx) hnew
        · rwa [if_neg hxold, if_neg hyold] at heq
  · exact h

/-- Renaming moves the statements of one label to the end of those of the other. -/
theorem get_rename (h : blocks.labels.Nodup) (hne : old ≠ new) :
    (blocks.rename old new).get label =
      if label = old then [] else if label = new then blocks.get new ++ blocks.get old
      else blocks.get label := by
  unfold rename
  split
  · split
    · rw [get_extend, get_erase h, get_erase h, if_neg (Ne.symm hne)]
      by_cases hlabel : label = new
      · simp [hlabel, Ne.symm hne]
      · simp [hlabel]
    · rename_i hnew
      rw [has_eq_true] at hnew
      rw [get_relabel h hnew hne, get_of_not_mem hnew, List.nil_append]
  · rename_i hold
    rw [has_eq_true] at hold
    rw [get_of_not_mem hold, List.append_nil]
    split
    · rename_i hlabel
      rw [hlabel, get_of_not_mem hold]
    · split
      · rename_i hlabel
        rw [hlabel]
      · rfl

/-! ## Blocks of other labels -/

theorem erase_eq_filter (h : blocks.labels.Nodup) :
    blocks.erase old = blocks.filter fun b => b.1 ≠ old := by
  induction blocks with
  | nil => rfl
  | cons b rest ih =>
    obtain ⟨d, block⟩ := b
    obtain ⟨hd, hrest⟩ := List.nodup_cons.mp h
    by_cases hold : d = old
    · subst hold
      have hkeep : rest.filter (fun b => b.1 ≠ d) = rest := by
        refine List.filter_eq_self.mpr fun b hb => decide_eq_true fun heq => hd ?_
        exact List.mem_map.mpr ⟨b, hb, heq⟩
      rw [erase, if_pos rfl, List.filter_cons_of_neg (by simp), hkeep]
    · rw [erase, if_neg hold, List.filter_cons_of_pos (by simpa using hold), ih hrest]

theorem filter_extend (more : Block) :
    (blocks.extend new more).filter (fun b => b.1 ≠ new) = blocks.filter fun b => b.1 ≠ new := by
  induction blocks with
  | nil => simp [extend]
  | cons b rest ih =>
    obtain ⟨d, block⟩ := b
    by_cases hd : d = new
    · rw [extend, if_pos hd, List.filter_cons_of_neg (by simpa using hd),
        List.filter_cons_of_neg (by simpa using hd)]
    · rw [extend, if_neg hd, List.filter_cons_of_pos (by simpa using hd), ih,
        List.filter_cons_of_pos (by simpa using hd)]

/-- A rename leaves the blocks of all labels but two where they are. -/
theorem filter_rename (h : blocks.labels.Nodup) :
    (blocks.rename old new).filter (fun b => b.1 ≠ new) =
      blocks.filter fun b => b.1 ≠ old ∧ b.1 ≠ new := by
  unfold rename
  split
  · split
    · rw [filter_extend, erase_eq_filter h, List.filter_filter]
      refine List.filter_congr fun b _ => ?_
      simp [Bool.and_comm]
    · rw [relabel_eq_map h, List.filter_map]
      have hkept : (blocks.filter ((fun b => b.1 ≠ new) ∘
          fun b => (if b.1 = old then new else b.1, b.2))) =
          blocks.filter fun b => b.1 ≠ old ∧ b.1 ≠ new := by
        refine List.filter_congr fun b _ => ?_
        by_cases hb : b.1 = old
        · simp [hb]
        · simp [hb]
      rw [hkept]
      -- what is kept does not have the old label
      refine map_eq_self fun b hb => ?_
      have hne := of_decide_eq_true (List.mem_filter.mp hb).2
      rw [if_neg hne.1]
  · rename_i hold
    rw [has_eq_true] at hold
    refine List.filter_congr fun b hb => ?_
    have hne : b.1 ≠ old := fun heq => hold (List.mem_map.mpr ⟨b, hb, heq⟩)
    simp [hne]

theorem not_mem_labels_rename (h : blocks.labels.Nodup) (hne : old ≠ new) :
    old ∉ (blocks.rename old new).labels := by
  intro hold
  obtain ⟨b, hb, hlabel⟩ := List.mem_map.mp hold
  have hkept : b ∈ (blocks.rename old new).filter fun b => b.1 ≠ new :=
    List.mem_filter.mpr ⟨hb, decide_eq_true (hlabel ▸ hne)⟩
  rw [filter_rename h] at hkept
  exact (of_decide_eq_true (List.mem_filter.mp hkept).2).1 hlabel

/-- If the new label is not in use, renaming is giving it to the block. -/
theorem rename_eq_map (h : blocks.labels.Nodup) (hnew : new ∉ blocks.labels) :
    blocks.rename old new = blocks.map fun b => (if b.1 = old then new else b.1, b.2) := by
  unfold rename
  split
  · rw [if_neg (mt has_eq_true.mp hnew), relabel_eq_map h]
  · rename_i hold
    rw [has_eq_true] at hold
    refine (map_eq_self fun b hb => ?_).symm
    have hne : b.1 ≠ old := fun heq => hold (List.mem_map.mpr ⟨b, hb, heq⟩)
    rw [if_neg hne]

/-- Renaming a label to itself may move its block to the end, and changes no block. -/
theorem get_rename_self (h : blocks.labels.Nodup) :
    (blocks.rename old old).get label = blocks.get label := by
  unfold rename
  split
  · rw [get_extend, get_erase h, get_erase h, if_pos rfl, List.nil_append]
    split
    · rename_i hlabel
      rw [hlabel]
    · rfl
  · rfl

theorem get_map {f : Block → Block} (hf : f [] = []) :
    Blocks.get (blocks.map fun b => (b.1, f b.2)) label = f (blocks.get label) := by
  induction blocks with
  | nil => exact hf.symm
  | cons b rest ih =>
    obtain ⟨d, block⟩ := b
    by_cases hd : d = label
    · simp [get, hd]
    · simp [get, hd, ih]

theorem labels_map (f : Block → Block) :
    Blocks.labels (blocks.map fun b => (b.1, f b.2)) = blocks.labels := by
  simp [labels]

end Blocks

end Gateware
