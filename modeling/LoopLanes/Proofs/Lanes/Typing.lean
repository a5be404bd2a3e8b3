/-
Values of their types.

A temporary has a type, and so has every operand.  What an instruction computes from values of the types of
its operands is a value of the type of its target, in arithmetic, comparisons, selects and addresses, and it
comes upon no value of another type.  Instructions are checked when they are read, and no later step changes
them; for phis there is no such check.

* `Frame.Typed` — all temporaries hold values of their types;
* `Instr.Typed`, `Phi.Typed` — instructions and phis that keep them so;
* `Program.typed_of_parse` — the instructions of a program that was read do;
* **`Program.run_typed`** — where the phis do, too, no run comes upon a value of another type;
* **`Program.run_mistyped`** — a phi that takes a float for an integer.
-/
import LoopLanes.Proofs.Cfg.WellFormed
import LoopLanes.Proofs.Lanes.Endings
import LoopLanes.Proofs.Lanes.Singles
import LoopLanes.Proofs.Text.Spelling

namespace LoopLanes

/-! ### Values -/

namespace Cell

/-- The values of a type. -/
def HasTy : Cell → Ty → Prop
  | int _, ty => ty = .i32
  | float _, ty => ty = .f32
  | ptr _, ty => ty.isPtr = true

instance : (c : Cell) → (ty : Ty) → Decidable (c.HasTy ty)
  | int _, ty => inferInstanceAs (Decidable (ty = .i32))
  | float _, ty => inferInstanceAs (Decidable (ty = .f32))
  | ptr _, ty => inferInstanceAs (Decidable (ty.isPtr = true))

variable {a b : Cell}

theorem exists_int (h : a.HasTy .i32) : ∃ x, a = int x := by
  cases a with
  | int x => exact ⟨x, rfl⟩
  | float => cases h
  | ptr => cases h

theorem exists_float (h : a.HasTy .f32) : ∃ x, a = float x := by
  cases a with
  | float x => exact ⟨x, rfl⟩
  | int => cases h
  | ptr => cases h

theorem onInts_total (g : Int32 → Int32 → Int32) (ha : a.HasTy .i32) (hb : b.HasTy .i32) :
    ∃ c, onInts g a b = .ok c ∧ c.HasTy .i32 := by
  obtain ⟨x, rfl⟩ := exists_int ha
  obtain ⟨y, rfl⟩ := exists_int hb
  exact ⟨int (g x y), rfl, rfl⟩

theorem onFloats_total (g : Float32 → Float32 → Float32) (ha : a.HasTy .f32) (hb : b.HasTy .f32) :
    ∃ c, onFloats g a b = .ok c ∧ c.HasTy .f32 := by
  obtain ⟨x, rfl⟩ := exists_float ha
  obtain ⟨y, rfl⟩ := exists_float hb
  exact ⟨float (g x y), rfl, rfl⟩

/-- Arithmetic fails on values of its type only where it divides. -/
theorem arith_total {op : ArithOp} (hdiv : op ≠ .div) (hrem : op ≠ .rem) (ha : a.HasTy op.operandTy)
    (hb : b.HasTy op.operandTy) : ∃ c, arith op a b = .ok c ∧ c.HasTy op.operandTy := by
  cases op with
  | div => exact absurd rfl hdiv
  | rem => exact absurd rfl hrem
  | fadd | fsub | fmul | fdiv => exact onFloats_total _ ha hb
  | _ => exact onInts_total _ ha hb

theorem testInts_total (g : Int32 → Int32 → Bool) (ha : a.HasTy .i32) (hb : b.HasTy .i32) :
    ∃ r, testInts g a b = .ok r := by
  obtain ⟨x, rfl⟩ := exists_int ha
  obtain ⟨y, rfl⟩ := exists_int hb
  exact ⟨g x y, rfl⟩

theorem testFloats_total (g : Float32 → Float32 → Bool) (ha : a.HasTy .f32) (hb : b.HasTy .f32) :
    ∃ r, testFloats g a b = .ok r := by
  obtain ⟨x, rfl⟩ := exists_float ha
  obtain ⟨y, rfl⟩ := exists_float hb
  exact ⟨g x y, rfl⟩

/-- Comparisons do not fail on values of their type. -/
theorem compare_total {op : CompOp} (ha : a.HasTy op.operandTy) (hb : b.HasTy op.operandTy) :
    ∃ c, compare op a b = .ok c ∧ c.HasTy .i32 := by
  have htest : ∃ r, test op a b = .ok r := by
    cases op with
    | eq | ne | sgt | sge | slt | sle => exact testInts_total _ ha hb
    | _ => exact testFloats_total _ ha hb
  obtain ⟨r, hr⟩ := htest
  refine ⟨int (if r then 1 else 0), ?_, rfl⟩
  rw [compare, hr]
  rfl

theorem exists_ptr {ty : Ty} (hty : ty.isPtr = true) (h : a.HasTy ty) : ∃ n, a = ptr n := by
  cases a with
  | ptr n => exact ⟨n, rfl⟩
  | int | float =>
    obtain rfl : ty = _ := h
    cases hty

/-- What has the type of a pointer to something is a pointer. -/
theorem exists_ptr_of_toPtr {ty : Ty} (h : a.HasTy ty.toPtr) : ∃ n, a = ptr n := by
  cases hptr : ty.toPtr.isPtr with
  | true => exact exists_ptr hptr h
  | false =>
    obtain hvoid : ty.toPtr = .void := by cases ty <;> first | rfl | cases hptr
    rw [hvoid] at h
    cases a <;> cases h

end Cell

/-- Failures other than that a value has another type than it should. -/
def RunError.NoMismatch : RunError → Prop
  | typeMismatch .. => False
  | _ => True

/-- A result is a value of a type, or it fails for another reason. -/
structure Cell.Yields (r : Except RunError Cell) (ty : Ty) : Prop where
  ok : ∀ c, r = .ok c → c.HasTy ty
  error : ∀ e, r = .error e → e.NoMismatch

namespace Cell

variable {a b : Cell} {r : Except RunError Cell} {ty : Ty} {e : RunError}

theorem yields_of_ok (h : ∃ c, r = .ok c ∧ c.HasTy ty) : Yields r ty := by
  obtain ⟨c, rfl, hc⟩ := h
  exact ⟨fun _ e => Except.ok.inj e ▸ hc, fun _ => nofun⟩

theorem yields_error (h : e.NoMismatch) : Yields (.error e) ty :=
  ⟨fun _ => nofun, fun _ he => Except.error.inj he ▸ h⟩

/-- Arithmetic on values of its type. -/
theorem yields_arith (op : ArithOp) (ha : a.HasTy op.operandTy) (hb : b.HasTy op.operandTy) :
    Yields (arith op a b) op.operandTy := by
  have hdivide (g : Int32 → Int32 → Int32) (ha : a.HasTy .i32) (hb : b.HasTy .i32) :
      Yields (if b = int 0 then .error .divisionByZero else onInts g a b) .i32 := by
    split
    · exact yields_error trivial
    · exact yields_of_ok (onInts_total g ha hb)
  cases op with
  | div | rem => exact hdivide _ ha hb
  | _ => exact yields_of_ok (arith_total (by decide) (by decide) ha hb)

/-- A pointer moves to a pointer, or out of bounds. -/
theorem yields_offset (hty : ty.isPtr = true) (h : a.HasTy ty) (delta : Int) : Yields (a.offset delta) ty := by
  obtain ⟨n, rfl⟩ := exists_ptr hty h
  unfold offset
  dsimp only
  split
  · exact yields_error trivial
  · exact yields_of_ok ⟨_, rfl, hty⟩

end Cell

/-! ### Frames -/

/-- Every temporary that has a value holds a single one of its type. -/
def Frame.Typed (fr : Frame) : Prop := ∀ t ls, fr.lookup t = some ls → ∃ c, ls = [c] ∧ c.HasTy t.ty

variable {f : Func} {b : Block} {x : Instr} {fr fr' : Frame} {t : Temp} {c : Cell} {v : Value} {call : Caller}
  {ls : Lanes}

theorem Lanes.uniform_single (c : Cell) : uniform [c] = .ok c ∨ uniform [c] = .error .divergentValue := by
  unfold uniform
  dsimp only
  split
  · exact .inl rfl
  · exact .inr rfl

theorem Lanes.noMismatch_of_uniform {e : RunError} (h : uniform ls = .error e) : e.NoMismatch :=
  Lanes.eq_of_uniform h ▸ trivial

theorem Frame.noMismatch_of_read {e : RunError} (h : fr.read v = .error e) : e.NoMismatch := by
  cases v with
  | int | float => cases h
  | temp t =>
    simp only [Frame.read] at h
    split at h
    · cases h
    · cases h
      trivial

theorem Frame.noMismatch_of_readUniform {e : RunError} (h : fr.readUniform v = .error e) : e.NoMismatch := by
  unfold readUniform at h
  cases hread : fr.read v with
  | error e' =>
    rw [hread] at h
    cases h
    exact noMismatch_of_read hread
  | ok ls =>
    rw [hread] at h
    exact Lanes.noMismatch_of_uniform h

namespace Frame.Typed

theorem setEntry (h : fr.Typed) (hls : ∃ c, ls = [c] ∧ c.HasTy t.ty) : Frame.Typed (setEntry t ls fr) := by
  intro u ls' hu
  by_cases e : u = t
  · subst e
    rw [lookup_setEntry_self] at hu
    exact Option.some.inj hu ▸ hls
  · rw [lookup_setEntry_of_ne _ _ e] at hu
    exact h u ls' hu

theorem foldl_setEntry {α : Type} (key : α → Temp) (val : α → Lanes) : ∀ {es : List α} {fr : Frame},
    fr.Typed → (∀ e ∈ es, ∃ c, val e = [c] ∧ c.HasTy (key e).ty) →
      Frame.Typed (es.foldl (fun fr e => LoopLanes.setEntry (key e) (val e) fr) fr) := by
  intro es
  induction es with
  | nil => exact fun h _ => h
  | cons e es ih =>
    intro fr h hes
    obtain ⟨he, hes⟩ := List.forall_mem_cons.mp hes
    exact ih (h.setEntry he) hes

/-- Arguments of the types of the parameters. -/
theorem frameOf {args : List Cell} (h : ∀ e ∈ f.params.zip args, e.2.HasTy e.1.ty) :
    (Program.frameOf f args).Typed := by
  refine foldl_setEntry Prod.fst (fun e => [e.2]) (fun t ls ht => ?_) fun e he => ⟨e.2, rfl, h e he⟩
  cases ht

theorem read (h : fr.Typed) (hread : fr.read v = .ok ls) : ∃ c, ls = [c] ∧ c.HasTy v.ty := by
  cases v with
  | int n => exact ⟨.int n, (Except.ok.inj hread).symm, rfl⟩
  | float x => exact ⟨.float x, (Except.ok.inj hread).symm, rfl⟩
  | temp t =>
    simp only [Frame.read] at hread
    split at hread
    · rename_i ls' hls
      exact Except.ok.inj hread ▸ h t ls' hls
    · cases hread

/-- A lane of an operand is a value of its type. -/
theorem endsIn_operand (h : fr.Typed) (v : Value) (k : Nat) :
    EndsIn RunError.NoMismatch (Instr.operand fr k v) (·.HasTy v.ty) := by
  have hconst : ∀ c : Cell, c.HasTy v.ty → fr.lane v k = Lanes.uniform [c] →
      EndsIn RunError.NoMismatch (Instr.operand fr k v) (·.HasTy v.ty) := by
    intro c hc hlane
    refine endsIn_lift (fun a ha => ?_) fun e he => Lanes.noMismatch_of_uniform (hlane ▸ he)
    rcases Lanes.uniform_single c with hok | herror
    · rw [hlane, hok] at ha
      exact Except.ok.inj ha ▸ hc
    · rw [hlane, herror] at ha
      cases ha
  cases v with
  | int n => exact hconst (.int n) rfl rfl
  | float x => exact hconst (.float x) rfl rfl
  | temp t =>
    cases hls : fr.lookup t with
    | none =>
      refine endsIn_lift (fun a ha => ?_) fun e he => ?_
      · simp [Frame.lane, hls] at ha
      · obtain rfl : RunError.undefinedTemp t.text = e := by simpa [Frame.lane, hls] using he
        trivial
    | some ls =>
      obtain ⟨c, rfl, hc⟩ := h t ls hls
      refine endsIn_lift (fun a ha => ?_) fun e he => ?_
      · rw [Frame.lane_of_lookup hls] at ha
        exact Except.ok.inj ha ▸ hc
      · rw [Frame.lane_of_lookup hls] at he
        cases he

theorem width (h : fr.Typed) (t : Temp) : fr.width t = 1 := by
  unfold Frame.width
  cases hls : fr.lookup t with
  | none => rfl
  | some ls =>
    obtain ⟨c, rfl, -⟩ := h t ls hls
    rfl

end Frame.Typed

/-- A store at a place fails only where there is no such place. -/
theorem Machine.noMismatch_of_store {m : Machine} {n : Nat} {e : RunError} (h : m.store (.ptr n) c = .error e) :
    e.NoMismatch := by
  simp only [store, Cell.toPlace, bind, Except.bind] at h
  split at h
  · cases h
  · cases h
    trivial

/-! ### Instructions -/

namespace Instr

/-- The type of what an instruction gives. -/
def valueTy : Instr → Ty
  | .arith _ _ ty _ _ | .select _ ty _ _ _ | .load _ ty _ | .gep _ ty _ _ | .call _ ty _ _ => ty
  | .ladder _ ty _ _ _ | .buildVec _ ty _ | .reduce _ _ ty _ _ => ty
  | .comp .. => .i32
  | .phi p => p.ty
  | .vec _ _ inner => inner.valueTy
  | .jump _ | .branch .. | .ret _ | .store .. => .void

/-- The operands of an instruction and its target have the types that it declares. -/
structure Typed (x : Instr) : Prop where
  wellTyped : x.wellTyped = true
  target : ∀ t, x.write = some t → t.ty = x.valueTy

/-- A result of the type of the target. -/
theorem Typed.endsIn_some (hx : x.Typed) {r : Except RunError Cell} (hr : Cell.Yields r x.valueTy) :
    EndsIn RunError.NoMismatch (do return some (← Exec.lift r)) fun o =>
      ∀ t, x.write = some t → ∃ c, o = some c ∧ c.HasTy t.ty :=
  endsIn_bind (endsIn_lift hr.ok hr.error) fun c hc => endsIn_pure fun t ht => ⟨c, rfl, hx.target t ht ▸ hc⟩

/-- What is computed in a lane is a value of the type of the target. -/
theorem endsIn_execLane (h : fr.Typed) (hx : x.Typed) (hscalar : x.isScalar = true) (hload : x.isLoad = false)
    (hcall : x.isCall = false) (k : Nat) : EndsIn RunError.NoMismatch (execLane call fr k x) fun o =>
      ∀ t, x.write = some t → ∃ c, o = some c ∧ c.HasTy t.ty := by
  have hty := hx.wellTyped
  cases x <;> try cases hscalar
  case arith t op ty lhs rhs =>
    simp only [wellTyped, Bool.and_eq_true, beq_iff_eq] at hty
    obtain ⟨⟨rfl, hl⟩, hr⟩ := hty
    refine endsIn_bind (h.endsIn_operand lhs k) fun a ha => endsIn_bind (h.endsIn_operand rhs k) fun b hb => ?_
    exact hx.endsIn_some (Cell.yields_arith op (hl ▸ ha) (hr ▸ hb))
  case comp t kind op ty lhs rhs =>
    simp only [wellTyped, Bool.and_eq_true, beq_iff_eq] at hty
    obtain ⟨⟨⟨-, rfl⟩, hl⟩, hr⟩ := hty
    refine endsIn_bind (h.endsIn_operand lhs k) fun a ha => endsIn_bind (h.endsIn_operand rhs k) fun b hb => ?_
    exact hx.endsIn_some (Cell.yields_of_ok (Cell.compare_total (hl ▸ ha) (hr ▸ hb)))
  case select t ty cond lhs rhs =>
    simp only [wellTyped, Bool.and_eq_true, beq_iff_eq] at hty
    obtain ⟨⟨-, hl⟩, hr⟩ := hty
    have branch (v : Value) (hv : v.ty = ty) : EndsIn RunError.NoMismatch (do return some (← operand fr k v))
        fun o => ∀ u, (Instr.select t ty cond lhs rhs).write = some u → ∃ c, o = some c ∧ c.HasTy u.ty := by
      refine endsIn_bind (h.endsIn_operand v k) fun c hc => endsIn_pure fun u hu => ⟨c, rfl, ?_⟩
      rw [hx.target u hu]
      exact hv ▸ hc
    refine endsIn_bind (h.endsIn_operand cond k) fun c _ => ?_
    split
    · exact branch lhs hl
    · exact branch rhs hr
  case load => cases hload
  case call => cases hcall
  case store value addr =>
    simp only [wellTyped, beq_iff_eq] at hty
    refine endsIn_bind (h.endsIn_operand addr k) fun a ha => endsIn_bind (h.endsIn_operand value k) fun v _ => ?_
    refine endsIn_bind endsIn_get fun m _ => endsIn_bind (P := fun _ => True) ?_ fun m' _ => ?_
    · obtain ⟨n, rfl⟩ := Cell.exists_ptr_of_toPtr (hty ▸ ha)
      exact endsIn_lift (fun _ _ => trivial) fun e he => Machine.noMismatch_of_store he
    · exact endsIn_bind (endsIn_set m') fun _ _ => endsIn_pure fun u hu => (Option.some_ne_none u hu.symm).elim
  case gep t ty addr offset =>
    simp only [wellTyped, Bool.and_eq_true, beq_iff_eq] at hty
    obtain ⟨⟨hptr, ha⟩, ho⟩ := hty
    refine endsIn_bind (h.endsIn_operand offset k) fun o hoff => ?_
    obtain ⟨n, rfl⟩ := Cell.exists_int (ho ▸ hoff)
    refine endsIn_bind (endsIn_lift (Q := fun _ => True) (fun _ _ => trivial) fun e he => by cases he) fun d _ => ?_
    refine endsIn_bind (h.endsIn_operand addr k) fun a haddr => ?_
    exact hx.endsIn_some (Cell.yields_offset hptr (ha ▸ haddr) _)

/-- Instructions of text other than loads and calls keep a frame typed. -/
theorem endsIn_exec (h : fr.Typed) (hx : x.Typed) (hscalar : x.isScalar = true) (hload : x.isLoad = false)
    (hcall : x.isCall = false) : EndsIn RunError.NoMismatch (x.exec call fr) Frame.Typed := by
  have hvector : x.isVector = false := by
    cases x <;> first | rfl | cases hscalar
  have hreduce : x.isReduce = false := by
    cases x <;> first | rfl | cases hscalar
  have hlanes : EndsIn RunError.NoMismatch (x.lanes call fr) fun ls =>
      ∀ t, x.write = some t → ∃ c, ls = [c] ∧ c.HasTy t.ty := by
    rw [lanes_of_scalar hvector hreduce, widest_eq_one fun t _ => h.width t]
    refine (endsIn_mapM (Q := fun c => ∀ t, x.write = some t → c.HasTy t.ty) fun k _ => ?_).mono fun ls hls => ?_
    · refine endsIn_bind (endsIn_execLane h hx hscalar hload hcall k) fun o ho => endsIn_pure fun t ht => ?_
      obtain ⟨c, rfl, hc⟩ := ho t ht
      exact hc
    · intro t ht
      obtain ⟨c, rfl⟩ := List.length_eq_one_iff.mp hls.1
      exact ⟨c, rfl, hls.2 c List.mem_cons_self t ht⟩
  refine endsIn_bind hlanes fun ls hls => ?_
  cases hw : x.write with
  | none => exact endsIn_pure h
  | some t => exact endsIn_pure (h.setEntry (hls t hw))

end Instr

/-! ### Blocks -/

/-- What reading checks of a block: the types of its instructions, and of the targets of its phis. -/
structure Block.Checked (b : Block) : Prop where
  targets : ∀ p ∈ b.phis, p.target.ty = p.ty
  instrs : ∀ x ∈ b.instrs, x.isScalar = true ∧ x.Typed

/-- All types in a block agree: what flows into its phis has their types, too. -/
structure Block.Typed (b : Block) : Prop extends b.Checked where
  phis : ∀ p ∈ b.phis, p.wellTyped = true

/-- What flows into a phi has its type. -/
theorem ty_of_incoming? {p : Phi} {l : Label} (hp : p.wellTyped = true) (h : p.incoming? l = some v) :
    v.ty = p.ty := by
  have hall := List.all_eq_true.mp hp
  simpa using hall _ (Phi.mem_of_incoming? h)

namespace Block.Typed

/-- Phis take in values of their types. -/
theorem endsIn_enter (hb : b.Typed) (h : fr.Typed) (source : Option Label) :
    EndsIn RunError.NoMismatch (Exec.lift (b.enter fr source)) Frame.Typed := by
  cases source with
  | none => exact endsIn_lift (fun a ha => Except.ok.inj ha ▸ h) fun _ => nofun
  | some l =>
    refine endsIn_lift (fun fr' hfr => ?_) fun e he => ?_
    · obtain ⟨vs, hvs, rfl⟩ := enter_eq_ok.mp hfr
      refine h.foldl_setEntry Prod.fst Prod.snd fun e he => ?_
      obtain ⟨p, hp, htarget, v, hv, hread⟩ := exists_of_forall₂ (phiValues_eq_ok.mp hvs) e he
      obtain ⟨c, hc, hcty⟩ := h.read hread
      refine ⟨c, hc, ?_⟩
      rw [htarget, hb.targets p hp, ← ty_of_incoming? (hb.phis p hp) hv]
      exact hcty
    · -- a phi without an entry, or one that reads what has no value
      obtain ⟨p, -, hp⟩ := exists_of_mapM_eq_error (map_eq_error.mp he)
      split at hp
      · exact Except.error.inj hp ▸ trivial
      · exact Frame.noMismatch_of_read (map_eq_error.mp hp)

/-- The instructions of a block, one after the other. -/
theorem endsIn_body (hb : b.Typed) (hplain : ∀ x ∈ b.instrs, x.isLoad = false ∧ x.isCall = false)
    (h : fr.Typed) : EndsIn RunError.NoMismatch (b.execBody call fr) Frame.Typed := by
  refine endsIn_foldlM (fun x hx fr h => ?_) h
  obtain ⟨hscalar, htyped⟩ := hb.instrs x hx
  obtain ⟨hload, hcall⟩ := hplain x hx
  exact endsIn_bind (endsIn_tick trivial) fun _ _ => Instr.endsIn_exec h htyped hscalar hload hcall

end Block.Typed

/-- Terminators only look at whether a value is zero. -/
theorem Block.endsIn_leave (b : Block) (fr : Frame) :
    EndsIn RunError.NoMismatch (Exec.lift (b.leave fr)) fun _ => True := by
  refine endsIn_lift (fun _ _ => trivial) fun e he => ?_
  unfold leave at he
  split at he
  · exact Except.error.inj he ▸ trivial
  · cases he
  · exact Frame.noMismatch_of_readUniform (map_eq_error.mp he)
  · cases he
  · exact Frame.noMismatch_of_readUniform (map_eq_error.mp he)
  · exact Except.error.inj he ▸ trivial

/-! ### What was read -/

namespace Reading

open Text

variable {n n' : TempCounter} {form : Form}

/-- The target of an instruction has the type of what it gives. -/
theorem target_of_plain? {read : Reading Instr} (hread : plain? form = some read) {x : Instr}
    (h : Gives read n x n') (t : Temp) (ht : x.write = some t) : t.ty = x.valueTy := by
  cases form <;> simp only [plain?, Option.some.injEq, reduceCtorEq] at hread <;> subst hread <;>
    simp only [gives_bind, gives_pure] at h
  case arith | comp =>
    obtain ⟨u, _, hu, _, _, -, _, _, -, rfl, -⟩ := h
    rw [← Option.some.inj ht, temp_of_gives hu]
    rfl
  case select =>
    obtain ⟨_, _, -, _, _, -, _, _, -, u, _, hu, rfl, -⟩ := h
    rw [← Option.some.inj ht, temp_of_gives hu]
    rfl
  case load =>
    obtain ⟨u, _, hu, _, _, -, rfl, -⟩ := h
    rw [← Option.some.inj ht, temp_of_gives hu]
    rfl
  case gep =>
    obtain ⟨_, _, -, u, _, hu, _, _, -, rfl, -⟩ := h
    rw [← Option.some.inj ht, temp_of_gives hu]
    rfl
  case store =>
    obtain ⟨_, _, -, _, _, -, rfl, -⟩ := h
    cases ht
  case call target ty callee args =>
    obtain ⟨as, _, -, h⟩ := h
    obtain ⟨u, hu, rfl⟩ : ∃ u : Temp, u.ty = ty ∧ x = .call u ty callee as := by
      cases target with
      | some name =>
        obtain ⟨u, _, hu, h⟩ := gives_bind.mp h
        exact ⟨u, by rw [temp_of_gives hu]; rfl, (gives_pure.mp h).1.symm⟩
      | none =>
        obtain ⟨u, _, hu, h⟩ := gives_bind.mp h
        rw [gives_modifyGet, TempCounter.fresh, Prod.mk.injEq] at hu
        exact ⟨u, hu.1 ▸ rfl, (gives_pure.mp h).1.symm⟩
    simp only [Instr.write] at ht
    split at ht
    · cases ht
    · cases ht
      exact hu

/-- Adding a line keeps what is checked of a block. -/
theorem checked_of_addLine {b b' : Block} {l : Line} (hb : b.Checked) (h : Gives (addLine b l) n b' n') :
    b'.Checked := by
  unfold addLine at h
  dsimp only at h
  split at h
  · obtain ⟨_, _, h, -⟩ := gives_bind.mp h
    exact absurd h not_gives_throw
  split at h
  · obtain ⟨p, _, hp, h⟩ := gives_bind.mp h
    obtain ⟨rfl, -⟩ := gives_pure.mp h
    obtain ⟨t, _, -, hp⟩ := gives_bind.mp hp
    obtain ⟨entries, _, -, hp⟩ := gives_bind.mp hp
    obtain ⟨rfl, -⟩ := gives_pure.mp hp
    refine ⟨fun q hq => ?_, hb.instrs⟩
    rcases List.mem_append.mp hq with hq | hq
    · exact hb.targets q hq
    · rw [List.mem_singleton.mp hq]
      rfl
  · split at h
    · obtain ⟨_, _, -, h⟩ := gives_bind.mp h
      obtain ⟨rfl, -⟩ := gives_pure.mp h
      exact ⟨hb.targets, hb.instrs⟩
    · rename_i hread
      obtain ⟨x, _, hx, h⟩ := gives_bind.mp h
      split at h
      · rename_i hty
        obtain ⟨rfl, -⟩ := gives_pure.mp h
        refine ⟨hb.targets, fun y hy => ?_⟩
        rcases List.mem_append.mp hy with hy | hy
        · exact hb.instrs y hy
        · rw [List.mem_singleton.mp hy]
          exact ⟨(spelled_of_plain? hread hx).1, hty, target_of_plain? hread hx⟩
      · exact absurd h not_gives_throw
    · obtain ⟨rfl, -⟩ := gives_pure.mp h
      exact hb

theorem checked_of_foldlM : ∀ {ls : List Line} {b b' : Block} {n n' : TempCounter}, b.Checked →
    Gives (ls.foldlM addLine b) n b' n' → b'.Checked := by
  intro ls
  induction ls with
  | nil =>
    intro b b' n n' hb h
    exact (gives_pure.mp h).1 ▸ hb
  | cons l ls ih =>
    intro b b' n n' hb h
    rw [List.foldlM_cons] at h
    obtain ⟨_, _, hl, h⟩ := gives_bind.mp h
    exact ih (checked_of_addLine hb hl) h

end Reading

/-- The types in the instructions of a program that was read agree. -/
theorem Program.checked_of_parse {s : String} {p : Program} (h : Program.parse s = .ok p) (hf : f ∈ p.funcs)
    (hb : b ∈ f.blocks) : b.Checked := by
  obtain ⟨ls, n, c, n', hlines, hphis, hinstrs, -⟩ := exists_lines_of_parse h hf hb
  have hempty : (Block.ofId 0).Checked := ⟨fun _ => nofun, fun _ => nofun⟩
  have hc := Reading.checked_of_foldlM hempty hlines
  exact ⟨hphis ▸ hc.targets, hinstrs ▸ hc.instrs⟩

/-! ### Runs -/

/-- A function that neither loads nor calls. -/
def Func.IsClosed (f : Func) : Prop := ∀ b ∈ f.blocks, ∀ x ∈ b.instrs, x.isLoad = false ∧ x.isCall = false

instance (f : Func) : Decidable f.IsClosed :=
  inferInstanceAs (Decidable (∀ b ∈ f.blocks, ∀ x ∈ b.instrs, x.isLoad = false ∧ x.isCall = false))

/-- Where control stands in a run of a function with some arguments. -/
inductive Func.StandsFor (f : Func) (args : List Cell) : Block → List Instr → Frame → Prop
  | start : StandsFor f args f.entry f.entry.instrs (Program.frameOf f args)
  | exec {b : Block} {x : Instr} {xs : List Instr} {fr fr' : Frame} {call : Caller} {m m' : Machine}
    (before : StandsFor f args b (x :: xs) fr) (runs : Gives (x.exec call fr) m fr' m') :
      StandsFor f args b xs fr'
  | jump {b c : Block} {fr fr' : Frame} {l : Label} (before : StandsFor f args b [] fr)
    (leaves : b.leave fr = .ok (.jump l)) (next : f.labelled? l = some c)
    (enters : c.enter fr (some b.label) = .ok fr') : StandsFor f args c c.instrs fr'

namespace Func.StandsFor

variable {args : List Cell} {xs : List Instr}

theorem stands (h : f.StandsFor args b xs fr) : f.Stands b xs fr := by
  induction h with
  | start => exact .start args
  | exec _ runs ih => exact .exec ih runs
  | jump _ leaves next enters ih => exact .jump ih leaves next enters

theorem mem (h : f.StandsFor args b xs fr) (hne : f.blocks ≠ []) : b ∈ f.blocks ∧ xs <:+ b.instrs :=
  h.stands.invariant (P := (· ∈ f.blocks)) (entry_mem hne) fun _ _ _ _ _ next => (labelled?_mem next).1

/-- Step by step, all temporaries hold values of their types. -/
theorem typed (h : f.StandsFor args b xs fr) (hne : f.blocks ≠ []) (hblocks : ∀ b ∈ f.blocks, b.Typed)
    (hclosed : f.IsClosed) (hargs : ∀ e ∈ f.params.zip args, e.2.HasTy e.1.ty) : fr.Typed := by
  induction h with
  | start => exact .frameOf hargs
  | exec before runs ih =>
    obtain ⟨hb, hxs⟩ := before.mem hne
    have hx := hxs.subset List.mem_cons_self
    obtain ⟨hscalar, htyped⟩ := (hblocks _ hb).instrs _ hx
    obtain ⟨hload, hcall⟩ := hclosed _ hb _ hx
    exact (Instr.endsIn_exec ih htyped hscalar hload hcall _).1 _ (congrArg Prod.fst runs)
  | @jump b c _ _ _ before leaves next enters ih =>
    exact ((hblocks c (labelled?_mem next).1).endsIn_enter ih (some b.label) default).1 _ enters

end Func.StandsFor

namespace Program

variable {p : Program}

/-- However long a run goes on from a block, it comes upon no value of another type. -/
theorem endsIn_runBlocks (hblocks : ∀ b ∈ f.blocks, b.Typed) (hclosed : f.IsClosed) :
    ∀ (fuel : Nat) {b : Block} {source : Option Label} {fr : Frame}, b ∈ f.blocks → fr.Typed →
      EndsIn RunError.NoMismatch (p.runBlocks fuel f b source fr) fun _ => True := by
  intro fuel
  induction fuel with
  | zero => exact fun _ _ => endsIn_throw trivial
  | succ fuel ih =>
    intro b source fr hb h
    rw [runBlocks]
    refine endsIn_bind ((hblocks b hb).endsIn_enter h source) fun fr₁ h₁ => ?_
    refine endsIn_bind ((hblocks b hb).endsIn_body (hclosed b hb) h₁) fun fr₂ h₂ => ?_
    refine endsIn_bind (endsIn_tick trivial) fun _ _ => endsIn_bind (b.endsIn_leave fr₂) fun l _ => ?_
    cases l with
    | ret v => exact endsIn_pure trivial
    | jump target =>
      dsimp only
      split
      · exact endsIn_throw trivial
      · rename_i next hnext
        exact ih (Func.labelled?_mem hnext).1 h₂

/-- A run of a function that neither loads nor calls, and into whose phis nothing flows but values of their
types, never comes upon a value of another type than it should be, if its arguments have the types of the
parameters; and at every step all temporaries hold values of their types. -/
theorem run_typed {s : String} (hp : Program.parse s = .ok p) {name : String} (hfunc : p.func? name = some f)
    (hclosed : f.IsClosed) (hphis : ∀ b ∈ f.blocks, ∀ q ∈ b.phis, q.wellTyped = true) {args : List Cell}
    (hargs : ∀ e ∈ f.params.zip args, e.2.HasTy e.1.ty) :
    (∀ m expected found, ((p.run name args).run.run m).1 ≠ .error (.typeMismatch expected found)) ∧
      ∀ b xs fr, f.StandsFor args b xs fr → fr.Typed := by
  have hmem : f ∈ p.funcs := List.mem_of_find?_eq_some hfunc
  have hne := (spelled_of_parse hp f hmem).nonempty
  have hblocks : ∀ b ∈ f.blocks, b.Typed := fun b hb => ⟨checked_of_parse hp hmem hb, hphis b hb⟩
  refine ⟨fun m expected found hrun => ?_, fun b xs fr h => h.typed hne hblocks hclosed hargs⟩
  have hends : EndsIn RunError.NoMismatch (p.run name args) fun _ => True := by
    unfold Program.run
    simp only [hfunc]
    refine endsIn_bind endsIn_get fun _ _ => ?_
    exact endsIn_runBlocks hblocks hclosed _ (Func.entry_mem hne) (.frameOf hargs)
  exact (hends m).2 _ hrun

end Program

/-- Fills an array with the numbers from zero on, and divides. -/
def filling : String :=
  "define i32 @f(i32* %p, i32 %n) \x7b\nentry:\n  br label %B1\n" ++
  "B1:\n  %i = phi i32 [0, %entry], [%j, %B1]\n  %x = phi f32 [0.0, %entry], [%y, %B1]\n" ++
  "  %y = fadd f32 %x, 1.5\n  %a = getelementptr i32, i32* %p, i32 %i\n  store i32 %i, i32* %a\n" ++
  "  %j = add i32 %i, 1\n  %c = icmp slt i32 %j, %n\n  br i32 %c, label %B1, label %B2\n" ++
  "B2:\n  %q = sdiv i32 %j, %n\n  ret i32 %q\n\x7d\n"

set_option maxRecDepth 100000 in
/-- Its phis take in a word and a float each round. -/
theorem Program.run_filling : ∃ p f, Program.parse filling = .ok p ∧ p.func? "f" = some f ∧ f.IsClosed ∧
    (∀ b ∈ f.blocks, ∀ q ∈ b.phis, q.wellTyped = true) ∧
    (∀ m expected found, ((p.run "f" [.ptr 0, .int 2]).run.run m).1 ≠ .error (.typeMismatch expected found)) ∧
      ∀ b xs fr, f.StandsFor [.ptr 0, .int 2] b xs fr → fr.Typed := by
  obtain ⟨p, hp, h⟩ := Program.exists_of_chars (s := filling) (P := fun p => (p.func? "f").any fun (f : Func) =>
      decide f.IsClosed && decide (∀ b ∈ f.blocks, ∀ q ∈ b.phis, q.wellTyped = true) &&
        decide (∀ e ∈ f.params.zip [Cell.ptr 0, .int 2], e.2.HasTy e.1.ty))
    (by
      unfold filling
      repeat apply toList_append_of String.toList_ofList
      exact String.toList_ofList) (by decide +kernel)
  simp only [Option.any_eq_true, Bool.and_eq_true, decide_eq_true_eq] at h
  obtain ⟨f, hfunc, ⟨hclosed, hphis⟩, hargs⟩ := h
  exact ⟨p, f, hp, hfunc, hclosed, hphis, Program.run_typed hp hfunc hclosed hphis hargs⟩

/-- A phi of words that takes in a float. -/
def blending : String :=
  "define i32 @f() \x7b\nentry:\n  br label %B1\n" ++
  "B1:\n  %x = phi i32 [1.5, %entry]\n  %y = add i32 %x, 1\n  ret i32 7\n\x7d\n"

/-- The float that was found where something else was expected. -/
def RunError.foundFloat? : RunError → Option (String × Float32)
  | typeMismatch expected (.float x) => some (expected, x)
  | _ => none

theorem RunError.foundFloat?_eq_some {e : RunError} {expected : String} {x : Float32}
    (h : e.foundFloat? = some (expected, x)) : e = .typeMismatch expected (.float x) := by
  unfold foundFloat? at h
  split at h
  · cases h
    rfl
  · cases h

set_option maxRecDepth 100000 in
/-- The function is verified, and yet the sum comes upon the float. -/
theorem Program.run_mistyped : ∃ p f x, Program.parse blending = .ok p ∧ p.func? "f" = some f ∧
    f.verify = .ok () ∧ f.IsClosed ∧ f.params = [] ∧
    ((p.run "f" []).run.run Machine.start).1 = .error (.typeMismatch "i32" (.float x)) := by
  obtain ⟨p, hp, h⟩ := Program.exists_of_chars (s := blending) (P := fun p => (p.func? "f").any fun (f : Func) =>
      f.verify.toBool && decide f.IsClosed && f.params.isEmpty &&
        ((failure? ((p.run "f" []).run.run Machine.start).1).bind RunError.foundFloat?).any (·.1 == "i32"))
    (by
      unfold blending
      repeat apply toList_append_of String.toList_ofList
      exact String.toList_ofList) (by decide +kernel)
  simp only [Option.any_eq_true, Bool.and_eq_true, decide_eq_true_eq, toBool_eq_true, List.isEmpty_iff,
    Option.bind_eq_some_iff, beq_iff_eq] at h
  obtain ⟨f, hfunc, ⟨⟨hf, hclosed⟩, hparams⟩, ⟨_, x⟩, ⟨e, hrun, hfound⟩, rfl⟩ := h
  obtain rfl := RunError.foundFloat?_eq_some hfound
  exact ⟨p, f, x, hp, hfunc, hf, hclosed, hparams, failure?_eq_some.mp hrun⟩

end LoopLanes
