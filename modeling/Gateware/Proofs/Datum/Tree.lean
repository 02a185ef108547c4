import Gateware.Datum.Tree
import Gateware.Proofs.Datum.Bytes
import Gateware.Proofs.Tree
import Gateware.Proofs.Walk

/-! # Fingerprints are taken of all that is written

The bytes of a tree tell everything in it but the record of drivers, the deferred constructions and
the transforms to come, which are not written. So two trees whose fingerprints are taken of the same
bytes agree in the rest.
-/
namespace Gateware

open Datum (Tells)

/-! ## Signals and values -/

theorem Shape.tells (a b : Shape) : a.datum.Tells b.datum (a = b) := by
  refine (Tells.record (.cons (.natural _ _) (.cons (.truth _ _) .nil))).imp ?_
  rintro ⟨hwidth, hsigned, -⟩
  cases a
  cases b
  simp_all

theorem Const.tells (a b : Const) : a.datum.Tells b.datum (a = b) := by
  refine (Tells.record (.cons (.natural _ _) (.cons (a.shape.tells b.shape) .nil))).imp ?_
  rintro ⟨hbits, hshape, -⟩
  cases a
  cases b
  simp_all

theorem Signal.tells (a b : Signal) : a.datum.Tells b.datum (a = b) := by
  refine (Tells.record (.cons (.natural _ _) (.cons (.natural _ _) (.cons (.truth _ _)
    (.cons (.integer _ _) (.cons (.truth _ _) (.cons (.textOption _ _)
    (.cons (.texts _ _) .nil)))))))).imp ?_
  rintro ⟨hid, hwidth, hsigned, hreset, hless, hhint, hscope, -⟩
  obtain ⟨id, ⟨width, signed⟩, reset, resetLess, hint, scope⟩ := a
  obtain ⟨id', ⟨width', signed'⟩, reset', resetLess', hint', scope'⟩ := b
  simp_all

theorem Op.code_injective : Function.Injective Op.code := by
  intro a b h
  cases a <;> cases b <;> cases h <;> rfl

theorem Value.data_eq_map (vs : List Value) : Value.data vs = vs.map Value.datum :=
  map_of_cons rfl (fun _ _ => rfl) vs

theorem Row.data_eq_map (row : Row) : Row.data row = row.map Element.datum :=
  map_of_cons rfl (fun _ _ => rfl) row

mutual
theorem Value.tells : ∀ v w : Value, v.datum.Tells w.datum (v = w)
  | .const c, w => by
    cases w with
    | const c' => exact (Tells.tagged fun _ => c.tells c').imp fun h => congrArg _ h.2
    | _ => exact .of_ne (by decide)
  | .signal s, w => by
    cases w with
    | signal s' => exact (Tells.tagged fun _ => s.tells s').imp fun h => congrArg _ h.2
    | _ => exact .of_ne (by decide)
  | .clock d, w => by
    cases w with
    | clock d' => exact (Tells.tagged fun _ => .text d d').imp fun h => congrArg _ h.2
    | _ => exact .of_ne (by decide)
  | .reset d, w => by
    cases w with
    | reset d' => exact (Tells.tagged fun _ => .text d d').imp fun h => congrArg _ h.2
    | _ => exact .of_ne (by decide)
  | .op o vs, w => by
    cases w with
    | op o' ws =>
      have hvs := Tells.list (Value.allTell vs) ws
      rw [← Value.data_eq_map, ← Value.data_eq_map] at hvs
      refine (Tells.tagged fun _ => .record (.cons .variant (.cons hvs .nil))).imp ?_
      rintro ⟨-, ho, rfl, -⟩
      rw [Op.code_injective ho]
    | _ => exact .of_ne (by decide)
  | .slice v start stop, w => by
    cases w with
    | slice w start' stop' =>
      refine (Tells.tagged fun _ => .record (.cons (v.tells w) (.cons (.natural _ _)
        (.cons (.natural _ _) .nil)))).imp ?_
      rintro ⟨-, rfl, rfl, rfl, -⟩
      rfl
    | _ => exact .of_ne (by decide)
  | .concat vs, w => by
    cases w with
    | concat ws =>
      have hvs := Tells.list (Value.allTell vs) ws
      rw [← Value.data_eq_map, ← Value.data_eq_map] at hvs
      exact (Tells.tagged fun _ => hvs).imp fun h => congrArg _ h.2
    | _ => exact .of_ne (by decide)
  | .repl v count, w => by
    cases w with
    | repl w count' =>
      refine (Tells.tagged fun _ => .record (.cons (v.tells w) (.cons (.natural _ _) .nil))).imp ?_
      rintro ⟨-, rfl, rfl, -⟩
      rfl
    | _ => exact .of_ne (by decide)
  | .select row index, w => by
    cases w with
    | select row' index' =>
      have hrow := Tells.list (Row.allTell row) row'
      rw [← Row.data_eq_map, ← Row.data_eq_map] at hrow
      refine (Tells.tagged fun _ => .record (.cons (.record (.cons hrow .nil))
        (.cons (index.tells index') .nil))).imp ?_
      rintro ⟨-, ⟨rfl, -⟩, rfl, -⟩
      rfl
    | _ => exact .of_ne (by decide)

theorem Value.allTell : ∀ vs : List Value, ∀ v ∈ vs, ∀ w : Value, v.datum.Tells w.datum (v = w)
  | [], _, h => nomatch h
  | v :: vs, u, h => (List.mem_cons.mp h).elim (fun h => h ▸ Value.tells v) (Value.allTell vs u)

theorem Row.allTell : ∀ row : List Element, ∀ e ∈ row, ∀ f : Element, e.datum.Tells f.datum (e = f)
  | [], _, h => nomatch h
  | e :: es, f, h => (List.mem_cons.mp h).elim (fun h => h ▸ Element.tells e) (Row.allTell es f)

theorem Element.tells : ∀ e f : Element, e.datum.Tells f.datum (e = f)
  | .value v, f => by
    cases f with
    | value w => exact (Tells.tagged fun _ => v.tells w).imp fun h => congrArg _ h.2
    | row _ => exact .of_ne (by decide)
  | .row row, f => by
    cases f with
    | value _ => exact .of_ne (by decide)
    | row row' =>
      have hrow := Tells.list (Row.allTell row) row'
      rw [← Row.data_eq_map, ← Row.data_eq_map] at hrow
      exact (Tells.tagged fun _ => .record (.cons hrow .nil)).imp fun h => congrArg _ h.2.1
end

/-! ## Statements -/

theorem Pattern.tells (p q : Pattern) : p.datum.Tells q.datum (p = q) := by
  cases p with
  | int n =>
    cases q with
    | int n' => exact (Tells.tagged fun _ => .natural n n').imp fun h => congrArg _ h.2
    | bits _ => exact .of_ne (by decide)
  | bits text =>
    cases q with
    | int _ => exact .of_ne (by decide)
    | bits text' => exact (Tells.tagged fun _ => .text text text').imp fun h => congrArg _ h.2

def Case.datum (c : Case) : Datum :=
  .record [("patterns", .list (c.patterns.map Pattern.datum)), ("body", .list (Block.data c.body))]

theorem Block.data_eq_map (block : Block) : Block.data block = block.map Statement.datum :=
  map_of_cons rfl (fun _ _ => rfl) block

theorem Case.data_eq_map (cases : List Case) : Case.data cases = cases.map Case.datum :=
  map_of_cons rfl (fun ⟨_, _⟩ _ => rfl) cases

theorem Block.otherwiseDatum_eq (otherwise : Option Block) :
    Block.otherwiseDatum otherwise =
      .ofOption (fun body => .list (body.map Statement.datum)) otherwise := by
  cases otherwise with
  | none => rfl
  | some body => rw [Block.otherwiseDatum, Block.data_eq_map]; rfl

theorem Block.tells {block : Block}
    (h : ∀ s ∈ block, ∀ t : Statement, s.datum.Tells t.datum (s = t)) (other : Block) :
    (Datum.list (Block.data block)).Tells (.list (Block.data other)) (block = other) := by
  rw [Block.data_eq_map, Block.data_eq_map]
  exact .list h other

theorem Statement.tells (s t : Statement) : s.datum.Tells t.datum (s = t) := by
  induction s generalizing t with
  | assign target source =>
    cases t with
    | assign target' source' =>
      refine (Tells.tagged fun _ => .record (.cons (target.tells target')
        (.cons (source.tells source') .nil))).imp ?_
      rintro ⟨-, rfl, rfl, -⟩
      rfl
    | _ => exact .of_ne (by decide)
  | branch condition taken otherwise iht iho =>
    cases t with
    | branch condition' taken' otherwise' =>
      have hotherwise : (Block.otherwiseDatum otherwise).Tells (Block.otherwiseDatum otherwise')
          (otherwise = otherwise') := by
        rw [Block.otherwiseDatum_eq, Block.otherwiseDatum_eq]
        exact .option fun body hbody => Tells.list (iho body hbody)
      refine (Tells.tagged fun _ => .record (.cons (condition.tells condition')
        (.cons (Block.tells iht taken') (.cons hotherwise .nil)))).imp ?_
      rintro ⟨-, rfl, rfl, rfl, -⟩
      rfl
    | _ => exact .of_ne (by decide)
  | switch selector cases ih =>
    cases t with
    | switch selector' cases' =>
      have hcase : ∀ c ∈ cases, ∀ d : Case, c.datum.Tells d.datum (c = d) := by
        intro c hc d
        have hpatterns := Tells.list (fun p (_ : p ∈ c.patterns) => Pattern.tells p) d.patterns
        refine (Tells.record (.cons hpatterns (.cons (Block.tells (ih c hc) d.body) .nil))).imp ?_
        rintro ⟨hpatterns, hbody, -⟩
        obtain ⟨patterns, body⟩ := c
        obtain ⟨patterns', body'⟩ := d
        simp_all [Case.patterns, Case.body]
      have hcases := Tells.list hcase cases'
      rw [← Case.data_eq_map, ← Case.data_eq_map] at hcases
      refine (Tells.tagged fun _ => .record (.cons (selector.tells selector')
        (.cons hcases .nil))).imp ?_
      rintro ⟨-, rfl, rfl, -⟩
      rfl
    | _ => exact .of_ne (by decide)

/-! ## Domains and specials -/

theorem Signal.optionTells (a b : Option Signal) :
    (Datum.ofOption Signal.datum a).Tells (.ofOption Signal.datum b) (a = b) :=
  .option fun s _ => s.tells

theorem ClockDomain.tells (a b : ClockDomain) : a.datum.Tells b.datum (a = b) := by
  refine (Tells.record (.cons (.text _ _) (.cons (a.clk.tells b.clk)
    (.cons (Signal.optionTells a.rst b.rst) (.cons (.truth _ _)
    (.cons (.truth _ _) .nil)))))).imp ?_
  rintro ⟨hname, hclk, hrst, hasync, hlocal, -⟩
  cases a
  cases b
  simp_all

theorem PortRole.tells (a b : PortRole) : a.datum.Tells b.datum (a = b) :=
  Tells.variant.imp fun h => by cases a <;> cases b <;> cases h <;> rfl

theorem WriteMode.tells (a b : WriteMode) : a.datum.Tells b.datum (a = b) :=
  Tells.variant.imp fun h => by cases a <;> cases b <;> cases h <;> rfl

theorem InstancePort.tells (a b : InstancePort) : a.datum.Tells b.datum (a = b) := by
  refine (Tells.record (.cons (a.role.tells b.role) (.cons (.text _ _)
    (.cons (a.value.tells b.value) .nil)))).imp ?_
  rintro ⟨hrole, hname, hvalue, -⟩
  cases a
  cases b
  simp_all

theorem MemoryPort.tells (a b : MemoryPort) : a.datum.Tells b.datum (a = b) := by
  refine (Tells.record (.cons (a.adr.tells b.adr) (.cons (a.datR.tells b.datR)
    (.cons (Signal.optionTells a.we b.we) (.cons (Signal.optionTells a.datW b.datW)
    (.cons (Signal.optionTells a.re b.re) (.cons (.truth _ _) (.cons (.natural _ _)
    (.cons (a.mode.tells b.mode)
    (.cons (.textOption _ _) .nil)))))))))).imp ?_
  rintro ⟨hadr, hdatR, hwe, hdatW, hre, hasync, hgranularity, hmode, hdomain, -⟩
  cases a
  cases b
  simp_all

theorem Special.tells (a b : Special) : a.datum.Tells b.datum (a = b) := by
  cases a with
  | primitive i =>
    cases b with
    | primitive j =>
      have hports := Tells.list (fun p (_ : p ∈ i.ports) => InstancePort.tells p) j.ports
      refine (Tells.tagged fun _ => .record (.cons (.text _ _) (.cons hports .nil))).imp ?_
      rintro ⟨-, hkind, hports, -⟩
      cases i
      cases j
      simp_all
    | memory _ => exact .of_ne (by decide)
  | memory m =>
    cases b with
    | primitive _ => exact .of_ne (by decide)
    | memory n =>
      have hinit := Tells.list (fun i (_ : i ∈ m.init) => Tells.integer i) n.init
      have hports := Tells.list (fun p (_ : p ∈ m.ports) => MemoryPort.tells p) n.ports
      refine (Tells.tagged fun _ => .record (.cons (.text _ _) (.cons (.natural _ _)
        (.cons (.natural _ _) (.cons hinit (.cons hports .nil)))))).imp ?_
      rintro ⟨-, hhint, hwidth, hdepth, hinit, hports, -⟩
      cases m
      cases n
      simp_all

/-! ## Trees -/

def Node.written (n : Node) : Node := { n with drivers := [], hook := none, transforms := [] }

mutual
/-- The tree as far as it is written: the record of drivers, the deferred constructions and the
transforms to come are left out. -/
def Module.written : Module → Module
  | ⟨node, children⟩ => ⟨node.written, Module.writtenAll children⟩

def Module.writtenAll : List (Option String × Module) → List (Option String × Module)
  | [] => []
  | (name, m) :: rest => (name, m.written) :: Module.writtenAll rest
end

theorem Module.writtenAll_eq_map (children : List (Option String × Module)) :
    Module.writtenAll children = children.map fun c => (c.1, c.2.written) :=
  map_of_cons rfl (fun _ _ => rfl) children

def Module.childDatum (child : Option String × Module) : Datum :=
  .record [("name", .ofOption .text child.1), ("module", child.2.datum)]

theorem Module.childData_eq_map (children : List (Option String × Module)) :
    Module.childData children = children.map Module.childDatum :=
  map_of_cons rfl (fun _ _ => rfl) children

theorem Blocks.tells (a b : Blocks) :
    (Datum.list (a.map fun (domain, block) =>
        .tuple [.text domain, .list (Block.data block)])).Tells
      (.list (b.map fun (domain, block) => .tuple [.text domain, .list (Block.data block)]))
      (a = b) := by
  refine Tells.list (fun x _ y => ?_) b
  refine (Tells.pair (.text _ _) (Block.tells (fun s _ => s.tells) y.2)).imp ?_
  rintro ⟨hdomain, hblock⟩
  exact Prod.ext hdomain hblock

theorem Module.tells (a b : Module) : a.datum.Tells b.datum (a.written = b.written) := by
  induction a generalizing b with
  | step node children ih =>
    obtain ⟨node', children'⟩ := b
    have hchildren : (Datum.list (Module.childData children)).Tells
        (.list (Module.childData children'))
        (Module.writtenAll children = Module.writtenAll children') := by
      rw [Module.childData_eq_map, Module.childData_eq_map, Module.writtenAll_eq_map,
        Module.writtenAll_eq_map]
      refine .views _ (fun c hc d => ?_) children'
      refine (Tells.record (.cons (.textOption _ _) (.cons (ih c hc d.2) .nil))).imp ?_
      rintro ⟨hname, hmodule, -⟩
      rw [hname, hmodule]
    have hspecials := Tells.list (fun s (_ : s ∈ node.specials) => Special.tells s) node'.specials
    have hdeclared :=
      Tells.list (fun d (_ : d ∈ node.declared) => ClockDomain.tells d) node'.declared
    have hresolved :=
      Tells.list (fun d (_ : d ∈ node.resolved) => ClockDomain.tells d) node'.resolved
    refine (Tells.record (.cons (.text _ _) (.cons (Blocks.tells node.blocks node'.blocks)
      (.cons hchildren (.cons hspecials (.cons hdeclared (.cons hresolved
      (.cons (.truth _ _) .nil)))))))).imp ?_
    rintro ⟨hkind, hblocks, hchildren, hspecials, hdeclared, hresolved, hfinalized, -⟩
    simp only [Module.written, Node.written, hkind, hblocks, hchildren, hspecials, hdeclared,
      hresolved, hfinalized]

theorem Module.datum_written (m : Module) : m.written.datum = m.datum := by
  induction m with
  | step node children ih =>
    have hchildren : Module.childData (Module.writtenAll children) = Module.childData children := by
      rw [Module.writtenAll_eq_map, Module.childData_eq_map, Module.childData_eq_map, List.map_map]
      refine List.map_congr_left fun c hc => ?_
      simp only [Function.comp_apply, Module.childDatum, ih c hc]
    rw [Module.written, Module.datum, Module.datum, hchildren]
    rfl

/-- Two trees begin one text of bytes exactly if they agree in all that is written: kinds, blocks
with their values and patterns, names and contents of children, specials, declared and resolved
domains and whether a module is closed. Then they also end in one place. -/
theorem Module.bytes_decodable {a b : Module} (ha : a.datum.fits = true)
    (hb : b.datum.fits = true) (r s : List UInt8) :
    a.datum.bytes ++ r = b.datum.bytes ++ s ↔ a.written = b.written ∧ r = s := by
  constructor
  · exact a.tells b ha hb r s
  · rintro ⟨hwritten, rfl⟩
    rw [← a.datum_written, ← b.datum_written, hwritten]

/-- A closed module with a wide constant and one clock domain, either its own or one from below. -/
def clockedModule (declared resolved : List ClockDomain) : Module :=
  let q : Signal := { id := 300, shape := .ofSigned 70000, reset := -129, hint := some "µs_tick" }
  { node :=
      { kind := "Top"
        blocks := [("pix", [.assign (.signal q) (.const (.wrap (-1) (.ofUnsigned 128)))])]
        declared
        resolved
        finalized := true } }

/-- The list that holds the domain comes right before or right after one without items. -/
theorem Module.bytes_decodable_moved :
    (clockedModule [.fresh 0 "pix"] []).datum.fits = true ∧
      (clockedModule [] [.fresh 0 "pix"]).datum.fits = true ∧
      (clockedModule [.fresh 0 "pix"] []).datum.bytes ≠
        (clockedModule [] [.fresh 0 "pix"]).datum.bytes := by
  have hdeclared : (clockedModule [.fresh 0 "pix"] []).datum.fits = true := by decide
  have hresolved : (clockedModule [] [.fresh 0 "pix"]).datum.fits = true := by decide
  refine ⟨hdeclared, hresolved, fun h => ?_⟩
  have hbytes := congrArg (· ++ []) h
  obtain ⟨hwritten, -⟩ := (Module.bytes_decodable hdeclared hresolved [] []).mp hbytes
  cases congrArg (fun m => m.node.declared) hwritten

end Gateware
