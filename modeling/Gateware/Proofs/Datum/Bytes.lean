import Gateware.Bits
import Gateware.Datum.Bytes
import Mathlib

/-! # What bytes tell

Binary forms have no separators, so that a reader has to see from the bytes alone where a datum
ends. `Tells` says that two data agree once one text of bytes begins with both of them. It holds of
numbers and texts and is kept by everything that data are built from.
-/
namespace Gateware

/-! ## Numbers and texts -/

theorem toUInt8_mod {m n : Nat} (h : m.toUInt8 = n.toUInt8) : m % 256 = n % 256 := by
  have hnat := congrArg UInt8.toNat h
  simpa using hnat

theorem length_littleEndian (count n : Nat) : (littleEndian count n).length = count := by
  induction count generalizing n with
  | zero => rfl
  | succ count ih => simp [littleEndian, ih]

theorem littleEndian_inj {count m n : Nat} (hm : m < 256 ^ count) (hn : n < 256 ^ count)
    (h : littleEndian count m = littleEndian count n) : m = n := by
  induction count generalizing m n with
  | zero =>
    simp only [pow_zero] at hm hn
    omega
  | succ count ih =>
    simp only [littleEndian, List.cons.injEq] at h
    have hlow := toUInt8_mod h.1
    have hhigh := ih (Nat.div_lt_of_lt_mul (by rwa [← pow_succ']))
      (Nat.div_lt_of_lt_mul (by rwa [← pow_succ'])) h.2
    omega

/-- How many bytes belong to a number after its first one. -/
def bytesAfter (first : UInt8) : Nat :=
  if first = 251 then 2 else if first = 252 then 4 else if first = 253 then 8
  else if first = 254 then 16 else 0

/-- A number is its first byte, or the first byte counts the bytes that spell it. -/
theorem naturalBytes_eq {n : Nat} (h : n < 2 ^ wordBits) :
    ∃ first, naturalBytes n = first :: littleEndian (bytesAfter first) n ∧
      (bytesAfter first = 0 ∧ n = first.toNat ∨
        0 < bytesAfter first ∧ n < 256 ^ bytesAfter first) := by
  unfold naturalBytes
  simp only [Nat.one_shiftLeft]
  split
  · rename_i hn
    have hfirst : n.toUInt8.toNat = n := by
      simp only [Nat.toUInt8_eq, UInt8.toNat_ofNat']
      omega
    have hafter : bytesAfter n.toUInt8 = 0 := by
      have hne : ∀ b : UInt8, 251 ≤ b.toNat → n.toUInt8 ≠ b := by
        rintro b hb rfl
        omega
      simp [bytesAfter, hne 251 (by decide), hne 252 (by decide), hne 253 (by decide),
        hne 254 (by decide)]
    exact ⟨n.toUInt8, by rw [hafter]; rfl, Or.inl ⟨hafter, hfirst.symm⟩⟩
  split
  · rename_i hn
    exact ⟨251, rfl, Or.inr ⟨by decide, hn⟩⟩
  split
  · rename_i hn
    exact ⟨252, rfl, Or.inr ⟨by decide, hn⟩⟩
  split
  · rename_i hn
    exact ⟨253, rfl, Or.inr ⟨by decide, hn⟩⟩
  · exact ⟨254, rfl, Or.inr ⟨by decide, h⟩⟩

theorem naturalBytes_append_inj {m n : Nat} (hm : m < 2 ^ wordBits) (hn : n < 2 ^ wordBits)
    {r s : List UInt8} (h : naturalBytes m ++ r = naturalBytes n ++ s) : m = n ∧ r = s := by
  obtain ⟨first, hfirst, hvalue⟩ := naturalBytes_eq hm
  obtain ⟨first', hfirst', hvalue'⟩ := naturalBytes_eq hn
  rw [hfirst, hfirst', List.cons_append, List.cons_append, List.cons.injEq] at h
  obtain ⟨rfl, h⟩ := h
  obtain ⟨hdigits, hrest⟩ := List.append_inj h (by simp [length_littleEndian])
  refine ⟨?_, hrest⟩
  rcases hvalue with ⟨hzero, rfl⟩ | ⟨hpos, hlt⟩
  · rcases hvalue' with ⟨-, rfl⟩ | ⟨hpos, -⟩
    · rfl
    · omega
  · rcases hvalue' with ⟨hzero, -⟩ | ⟨-, hlt'⟩
    · omega
    · exact littleEndian_inj hlt hlt' hdigits

theorem zigzag_injective : Function.Injective zigzag := by
  intro i j h
  cases i <;> cases j <;> simp only [zigzag] at h
  · exact congrArg Int.ofNat (by omega)
  · omega
  · omega
  · exact congrArg Int.negSucc (by omega)

theorem utf8_injective : Function.Injective utf8 := by
  intro s t h
  have hdata : s.toUTF8.data = t.toUTF8.data := Array.toList_inj.mp h
  exact String.toByteArray_inj.mp (ByteArray.ext hdata)

/-! ## Data -/

mutual
/-- Whether every number and every length in a datum fits a word. The binary form has no larger
numbers. -/
def Datum.fits : Datum → Bool
  | .natural n => decide (n < 2 ^ wordBits)
  | .integer i => decide (zigzag i < 2 ^ wordBits)
  | .text s => decide ((utf8 s).length < 2 ^ wordBits)
  | .truth _ | .absent => true
  | .present d => d.fits
  | .list items => decide (items.length < 2 ^ wordBits) && Datum.itemsFit items
  | .tuple items => Datum.itemsFit items
  | .record fields => Datum.fieldsFit fields
  | .variant index _ => decide (index < 2 ^ wordBits)
  | .tagged index _ content => decide (index < 2 ^ wordBits) && content.fits

def Datum.itemsFit : List Datum → Bool
  | [] => true
  | d :: ds => d.fits && Datum.itemsFit ds

def Datum.fieldsFit : List (String × Datum) → Bool
  | [] => true
  | (_, d) :: rest => d.fits && Datum.fieldsFit rest
end

/-- If one text of bytes begins with either of two data, `P` holds and both end in one place. -/
def Datum.Tells (d e : Datum) (P : Prop) : Prop :=
  d.fits = true → e.fits = true → ∀ r s, d.bytes ++ r = e.bytes ++ s → P ∧ r = s

def Datum.FieldsTell (ds es : List (String × Datum)) (P : Prop) : Prop :=
  Datum.fieldsFit ds = true → Datum.fieldsFit es = true →
    ∀ r s, Datum.fieldBytes ds ++ r = Datum.fieldBytes es ++ s → P ∧ r = s

namespace Datum

variable {d e : Datum} {P Q : Prop}

theorem Tells.imp (h : d.Tells e P) (hPQ : P → Q) : d.Tells e Q := by
  intro hd he r s heq
  obtain ⟨hP, hrest⟩ := h hd he r s heq
  exact ⟨hPQ hP, hrest⟩

theorem Tells.natural (m n : Nat) : (natural m).Tells (natural n) (m = n) := by
  intro hm hn r s h
  exact naturalBytes_append_inj (of_decide_eq_true hm) (of_decide_eq_true hn) h

theorem Tells.integer (i j : Int) : (integer i).Tells (integer j) (i = j) := by
  intro hi hj r s h
  obtain ⟨heq, hrest⟩ := naturalBytes_append_inj (of_decide_eq_true hi) (of_decide_eq_true hj) h
  exact ⟨zigzag_injective heq, hrest⟩

theorem Tells.truth (a b : Bool) : (truth a).Tells (truth b) (a = b) := by
  intro _ _ r s h
  cases a <;> cases b <;> simp_all [bytes]

theorem Tells.text (a b : String) : (text a).Tells (text b) (a = b) := by
  intro ha hb r s h
  simp only [bytes, List.append_assoc] at h
  obtain ⟨hlength, h⟩ :=
    naturalBytes_append_inj (of_decide_eq_true ha) (of_decide_eq_true hb) h
  obtain ⟨htext, hrest⟩ := List.append_inj h hlength
  exact ⟨utf8_injective htext, hrest⟩

theorem Tells.variant {i j : Nat} {a b : String} :
    (Datum.variant i a).Tells (.variant j b) (i = j) := by
  intro hi hj r s h
  exact naturalBytes_append_inj (of_decide_eq_true hi) (of_decide_eq_true hj) h

theorem Tells.tagged {i j : Nat} {a b : String} (h : i = j → d.Tells e P) :
    (Datum.tagged i a d).Tells (.tagged j b e) (i = j ∧ P) := by
  intro hd he r s heq
  simp only [fits, Bool.and_eq_true, decide_eq_true_eq] at hd he
  simp only [bytes, List.append_assoc] at heq
  obtain ⟨hindex, heq⟩ := naturalBytes_append_inj hd.1 he.1 heq
  obtain ⟨hP, hrest⟩ := h hindex hd.2 he.2 r s heq
  exact ⟨⟨hindex, hP⟩, hrest⟩

/-- Data of different alternatives are never mistaken for each other. -/
theorem Tells.of_ne {i j : Nat} {a b : String} (h : i ≠ j) :
    (Datum.tagged i a d).Tells (.tagged j b e) P :=
  (Tells.tagged (P := P) fun hindex => absurd hindex h).imp And.right

theorem Tells.option {α : Type} {describe : α → Datum} {a b : Option α}
    (h : ∀ x, a = some x → ∀ y, (describe x).Tells (describe y) (x = y)) :
    (ofOption describe a).Tells (ofOption describe b) (a = b) := by
  intro ha hb r s heq
  cases a with
  | none =>
    cases b with
    | none => exact ⟨rfl, by simpa [ofOption, bytes] using heq⟩
    | some y => simp [ofOption, bytes] at heq
  | some x =>
    cases b with
    | none => simp [ofOption, bytes] at heq
    | some y =>
      simp only [ofOption, bytes, List.cons_append, List.cons.injEq, true_and] at heq
      obtain ⟨hxy, hrest⟩ := h x rfl y ha hb r s heq
      exact ⟨congrArg some hxy, hrest⟩

theorem itemBytes_append_inj {α β : Type} {describe : α → Datum} {view : α → β} {as bs : List α}
    (h : ∀ a ∈ as, ∀ b, (describe a).Tells (describe b) (view a = view b))
    (hlength : as.length = bs.length) (has : itemsFit (as.map describe) = true)
    (hbs : itemsFit (bs.map describe) = true) {r s : List UInt8}
    (heq : itemBytes (as.map describe) ++ r = itemBytes (bs.map describe) ++ s) :
    as.map view = bs.map view ∧ r = s := by
  induction as generalizing bs with
  | nil =>
    obtain rfl := List.length_eq_zero_iff.mp hlength.symm
    exact ⟨rfl, heq⟩
  | cons a as ih =>
    cases bs with
    | nil => cases hlength
    | cons b bs =>
      simp only [List.map_cons, itemsFit, Bool.and_eq_true] at has hbs
      simp only [List.map_cons, itemBytes, List.append_assoc] at heq
      obtain ⟨hview, htail⟩ := h a List.mem_cons_self b has.1 hbs.1 _ _ heq
      obtain ⟨hviews, hrest⟩ := ih (fun x hx => h x (List.mem_cons_of_mem _ hx))
        (Nat.succ.inj hlength) has.2 hbs.2 htail
      exact ⟨by rw [List.map_cons, List.map_cons, hview, hviews], hrest⟩

/-- Items that tell what `view` sees of them tell that of the list, whose length comes first. -/
theorem Tells.views {α β : Type} {describe : α → Datum} (view : α → β) {as : List α}
    (h : ∀ a ∈ as, ∀ b, (describe a).Tells (describe b) (view a = view b)) (bs : List α) :
    (Datum.list (as.map describe)).Tells (.list (bs.map describe)) (as.map view = bs.map view) := by
  intro has hbs r s heq
  simp only [fits, Bool.and_eq_true, decide_eq_true_eq, List.length_map] at has hbs
  simp only [bytes, List.length_map, List.append_assoc] at heq
  obtain ⟨hlength, heq⟩ := naturalBytes_append_inj has.1 hbs.1 heq
  exact itemBytes_append_inj h hlength has.2 hbs.2 heq

theorem Tells.list {α : Type} {describe : α → Datum} {as : List α}
    (h : ∀ a ∈ as, ∀ b, (describe a).Tells (describe b) (a = b)) (bs : List α) :
    (Datum.list (as.map describe)).Tells (.list (bs.map describe)) (as = bs) :=
  (Tells.views id h bs).imp fun hviews => by simpa using hviews

theorem FieldsTell.nil : FieldsTell [] [] True := fun _ _ _ _ h => ⟨trivial, h⟩

theorem FieldsTell.cons {ds es : List (String × Datum)} {a b : String} (h : d.Tells e P)
    (hrest : FieldsTell ds es Q) : FieldsTell ((a, d) :: ds) ((b, e) :: es) (P ∧ Q) := by
  intro hds hes r s heq
  simp only [fieldsFit, Bool.and_eq_true] at hds hes
  simp only [fieldBytes, List.append_assoc] at heq
  obtain ⟨hP, heq⟩ := h hds.1 hes.1 _ _ heq
  obtain ⟨hQ, heq⟩ := hrest hds.2 hes.2 r s heq
  exact ⟨⟨hP, hQ⟩, heq⟩

theorem Tells.record {ds es : List (String × Datum)} (h : FieldsTell ds es P) :
    (Datum.record ds).Tells (.record es) P := h

theorem Tells.pair {d' e' : Datum} (h : d.Tells e P) (h' : d'.Tells e' Q) :
    (Datum.tuple [d, d']).Tells (.tuple [e, e']) (P ∧ Q) := by
  intro hd he r s heq
  simp only [fits, itemsFit, Bool.and_eq_true] at hd he
  simp only [bytes, itemBytes, List.append_assoc, List.nil_append] at heq
  obtain ⟨hP, heq⟩ := h hd.1 he.1 _ _ heq
  obtain ⟨hQ, heq⟩ := h' hd.2.1 he.2.1 r s heq
  exact ⟨⟨hP, hQ⟩, heq⟩

theorem Tells.texts (as bs : List String) : (texts as).Tells (texts bs) (as = bs) :=
  Tells.list (fun a _ b => Tells.text a b) bs

theorem Tells.textOption (a b : Option String) :
    (ofOption .text a).Tells (ofOption .text b) (a = b) :=
  Tells.option fun x _ => Tells.text x

end Datum

end Gateware
