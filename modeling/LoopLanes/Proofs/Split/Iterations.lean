/-
The iterations of a split loop.

The guard of a main loop compares its induction variable with a bound that is folded, or that
the guard block computes (`guard_value`).  Either way it only lets groups pass whose lanes all
pass the test of the loop, so the main loop and the remaining loop together run through the
iterations of the loop as it was (`iterations_of_make`).
-/
import LoopLanes.Proofs.Cfg.Names
import LoopLanes.Proofs.Lanes.Scalar
import LoopLanes.Proofs.Recurrence.Step
import LoopLanes.Proofs.Split.Staging
import LoopLanes.Vectorize.Pass

namespace LoopLanes

/-! ### Tests as they are executed -/

namespace CompOp

variable {op : CompOp} {step : Int} {a b : Int32}

theorem Monotone.operandTy (h : op.Monotone step) : op.operandTy = .i32 := by
  cases op <;> first | rfl | exact h.elim

theorem test_words (hop : op.operandTy = .i32) :
    Cell.test op (.int a) (.int b) = .ok (op.onWords a b) := by
  cases op
  case eq | ne | sgt | sge | slt | sle => rfl
  all_goals cases hop

theorem compare_of_test {x y : Cell} {r : Bool} (h : Cell.test op x y = .ok r) :
    Cell.compare op x y = .ok (.int (if r then 1 else 0)) := by
  rw [Cell.compare, h]
  rfl

/-- A comparison of words answers one or zero. -/
theorem compare_words (hop : op.operandTy = .i32) :
    Cell.compare op (.int a) (.int b) = .ok (.int (if op.onWords a b then 1 else 0)) :=
  compare_of_test (test_words hop)

theorem onWords_swap (hop : op.operandTy = .i32) : op.swap.onWords a b = op.onWords b a := by
  cases op
  case eq | ne => simp [swap, BEq.comm (a := a)]
  case sgt | sge | slt | sle => simp [swap]
  all_goals cases hop

theorem onWords_inverse (hop : op.operandTy = .i32) :
    op.inverse.onWords a b = !op.onWords a b := by
  cases op
  case eq | ne | sgt | sge | slt | sle => simp [inverse, ← Int32.not_lt]
  all_goals cases hop

end CompOp

namespace Induction

variable {i : Induction} {op : CompOp} {lhs rhs : Value} {onTrue : Bool}

theorem TurnedFrom.operandTy (h : i.TurnedFrom op lhs rhs onTrue) (hop : i.op.operandTy = .i32) :
    op.operandTy = .i32 := by
  rcases h with ⟨-, -, h⟩ | ⟨-, -, h⟩
  · rw [h] at hop
    cases onTrue <;> cases op <;> first | rfl | cases hop
  · rw [h] at hop
    cases onTrue <;> cases op <;> first | rfl | cases hop

/-- The loop goes on where the exit test, turned around, holds of the words compared. -/
theorem TurnedFrom.onWords (h : i.TurnedFrom op lhs rhs onTrue) (hop : i.op.operandTy = .i32)
    {fr : Frame} {iv e : Int32} (hiv : fr.read (.temp i.tested) = .ok [.int iv])
    (he : fr.read i.bound = .ok [.int e]) :
    ∃ a b, fr.read lhs = .ok [.int a] ∧ fr.read rhs = .ok [.int b] ∧
      (op.onWords a b = onTrue ↔ i.op.onWords iv e = true) := by
  have hop' := h.operandTy hop
  have key : ∀ a b, (op.onWords a b = onTrue ↔
      (if onTrue then op else op.inverse).onWords a b = true) := by
    intro a b
    cases onTrue
    · simp [CompOp.onWords_inverse hop']
    · simp
  rcases h with ⟨rfl, rfl, h⟩ | ⟨rfl, rfl, h⟩
  · exact ⟨iv, e, hiv, he, by rw [h]; exact key iv e⟩
  · refine ⟨e, iv, he, hiv, ?_⟩
    have hturned : (if onTrue then op else op.inverse).operandTy = .i32 := by
      cases onTrue <;> cases op <;> first | rfl | cases hop'
    rw [h, CompOp.onWords_swap hturned]
    exact key e iv

/-- A block tests whether a loop goes on: it compares, and stays in the loop while
`indvar OP bound`. -/
def Tests (i : Induction) (b : Block) : Prop :=
  ∃ test ∈ b.instrs, ∃ (ty : Ty) (ifTrue ifFalse : Label) (onTrue : Bool),
    b.jump = some (.branch ty (.temp i.cond) ifTrue ifFalse) ∧
    (if onTrue then ifFalse else ifTrue) = Label.ofBlock i.exit ∧
    ∀ (call : Caller) (fr : Frame) (m : Machine) (iv e : Int32),
      fr.read (.temp i.indvar) = .ok [.int iv] → fr.read i.bound = .ok [.int e] →
      ∃ c, Gives (test.exec call fr) m (setEntry i.cond [c] fr) m ∧
        (c.isTrue = onTrue ↔ i.op.onWords iv e = true)

theorem tests_of_testedIn {b : Block} (h : i.TestedIn b) (hop : i.op.operandTy = .i32)
    (htested : i.tested = i.indvar) : i.Tests b := by
  obtain ⟨op, ty, lhs, rhs, onTrue, branchTy, ifTrue, ifFalse, hmem, hjump, hexit, hturned⟩ := h.test
  refine ⟨_, hmem, branchTy, ifTrue, ifFalse, onTrue, hjump, hexit, fun call fr m iv e hiv he => ?_⟩
  obtain ⟨a, b, hl, hr, hiff⟩ := hturned.onWords hop (htested ▸ hiv) he
  refine ⟨_, Instr.gives_exec_comp hl hr (CompOp.compare_words (hturned.operandTy hop)), ?_⟩
  rw [← hiff]
  cases op.onWords a b <;> simp [Cell.isTrue]

end Induction

/-! ### The header of a loop that can be split -/

section Header

variable {f : Func} {t : LoopForest} {l : Loop} {r : Recurrences} {a : LoopAnatomy}

/-- The exit test stands in the header. -/
theorem LoopAnatomy.Found.testedIn (ha : a.Found f t l r) (hf : f.WellLinked) :
    a.induction.TestedIn a.header ∧ a.induction.tested = a.induction.indvar := by
  have hfound := Induction.found_of_ofLoop? ha.induction
  obtain ⟨b, hb, hbid, htest⟩ := hfound.test
  obtain ⟨hhm, hhref⟩ := Func.linked?_mem ha.header
  have hexiting : b.id = l.header.number := by
    have hmem : b.id ∈ (l.exitingBlocks f t).map (·.id) := List.mem_map_of_mem hb
    rw [ha.exiting] at hmem
    exact List.mem_singleton.mp hmem
  obtain rfl : b = a.header :=
    Func.eq_of_id_eq hf.nodup (List.mem_of_mem_filter (List.mem_of_mem_filter hb)) hhm
      (hexiting.trans (congrArg BlockRef.number hhref).symm)
  refine ⟨htest, hfound.tested fun e => ha.latch_ne ?_⟩
  obtain ⟨latch, hlatch, hlatchn⟩ := hfound.latch
  obtain rfl : latch = a.latch := Option.some.inj (hlatch.symm.trans ha.latch)
  rw [hlatchn, ← e, ← hbid, hexiting]

theorem LoopAnatomy.Found.tests (ha : a.Found f t l r) (hf : f.WellLinked) :
    a.induction.Tests a.header :=
  Induction.tests_of_testedIn (ha.testedIn hf).1 ha.monotone.operandTy (ha.testedIn hf).2

/-- The bound is read by the exit test, so its name is in use. -/
theorem LoopAnatomy.Found.reserved_bound (ha : a.Found f t l r) (hf : f.WellLinked)
    {n : TempCounter} (hnames : f.Named n) (u : Temp) (hu : a.induction.bound = .temp u) :
    u.Reserved n := by
  obtain ⟨op, ty, lhs, rhs, _, _, _, _, hmem, -, -, hturned⟩ := (ha.testedIn hf).1.test
  have hread : u ∈ Instr.mentions (.comp a.induction.cond .icmp op ty lhs rhs) := by
    refine List.mem_append_right _ (List.mem_filterMap.mpr ⟨a.induction.bound, ?_, by rw [hu]; rfl⟩)
    rcases hturned with ⟨-, h, -⟩ | ⟨-, h, -⟩
    · exact h ▸ List.mem_cons_of_mem _ (List.mem_singleton.mpr rfl)
    · exact h ▸ List.mem_cons_self
  refine hnames.reserved u (List.mem_append_right _ (List.mem_flatMap.mpr
    ⟨a.header, (Func.linked?_mem ha.header).1, List.mem_flatMap.mpr ⟨_, ?_, hread⟩⟩))
  simp [hmem]

end Header

/-! ### The guard block -/

namespace SplitPlan

variable {i : Induction} {offset : Int} {n n' : TempCounter} {vop : CompOp} {vend : Value}
  {instrs : List Instr}

theorem operandTy_of_runtimeBound? {op : CompOp} {b : RuntimeBound}
    (h : runtimeBound? op offset = some b) : b.op.operandTy = .i32 := by
  cases op <;> simp only [runtimeBound?, Option.map_eq_some_iff, reduceCtorEq] at h
  case slt | sgt => cases h; rfl
  case sle | sge => obtain ⟨s, -, rfl⟩ := h; rfl

/-- The instructions of a runtime bound compute its value. -/
theorem exec_emit {b : RuntimeBound} (hop : b.op.operandTy = .i32) {bound : Value}
    (h : Gives (b.emit bound) n (vend, instrs) n') :
    n' = n + 3 ∧ ((∀ u, bound = .temp u → ∀ k, n < k → k ≤ n + 3 → u.name ≠ toString k) →
      ∀ (call : Caller) (fr : Frame) (m : Machine) (e : Int32),
      fr.read bound = .ok [.int e] → ∃ fr', Gives (instrs.foldlM (Instr.exec call) fr) m fr' m ∧
        fr'.readUniform vend = .ok (.int (b.value e))) := by
  unfold RuntimeBound.emit at h
  obtain ⟨overflow, _, h₁, h⟩ := gives_bind.mp h
  obtain ⟨diff, _, h₂, h⟩ := gives_bind.mp h
  obtain ⟨result, _, h₃, h⟩ := gives_bind.mp h
  obtain ⟨he, rfl⟩ := gives_pure.mp h
  obtain ⟨rfl, rfl⟩ := Prod.mk.inj he
  obtain ⟨rfl, rfl⟩ := Planning.gives_fresh.mp h₁
  obtain ⟨rfl, rfl⟩ := Planning.gives_fresh.mp h₂
  obtain ⟨rfl, rfl⟩ := Planning.gives_fresh.mp h₃
  refine ⟨rfl, fun hfresh call fr m e hbound => ?_⟩
  -- the bound is none of the fresh temporaries, and these differ
  have hne : ∀ k, n < k → k ≤ n + 3 → bound ≠ .temp ⟨toString k, false, .i32⟩ :=
    fun k hk hk' e => hfresh _ e k hk hk' rfl
  have hnames : (⟨toString (n + 1), false, .i32⟩ : Temp) ≠ ⟨toString (n + 1 + 1), false, .i32⟩ := by
    intro e
    exact absurd (toString_nat_injective (congrArg Temp.name e)) (Nat.ne_of_lt (Nat.lt_succ_self _))
  refine ⟨_, gives_foldlM_three
    (Instr.gives_exec_comp hbound rfl (CompOp.compare_words hop))
    (Instr.gives_exec_arith ((Frame.read_setEntry_of_ne _ _ (hne (n + 1) (Nat.lt_succ_self n) (Nat.add_le_add_left (by decide) n))).trans
      hbound) rfl rfl)
    (Instr.gives_exec_select ((Frame.read_setEntry_of_ne _ _ fun e => hnames (Value.temp.inj e)).trans
      (Frame.read_setEntry_self ..)) rfl (Frame.read_setEntry_self ..)), ?_⟩
  rw [Frame.readUniform_of_read (Frame.read_setEntry_self ..)]
  simp only [RuntimeBound.value]
  split <;> simp

/-- Where the guard of a main loop holds, the last of its lanes passes the test of the loop
without leaving the word. -/
theorem guard_value (hop : i.op.Monotone i.step) {width : Nat} (hwidth : 2 ≤ width)
    (hoffset : fitI32? (i.step * (width - 1)) = some offset)
    (hfresh : ∀ u, i.bound = .temp u → ∀ k, n < k → k ≤ n' → u.name ≠ toString k)
    (h : Gives (guard i offset) n (vop, vend, instrs) n') (call : Caller) {fr : Frame} (m : Machine)
    {e : Int32} (he : fr.read i.bound = .ok [.int e]) :
    ∃ fr' v, Gives (instrs.foldlM (Instr.exec call) fr) m fr' m ∧
      fr'.readUniform vend = .ok (.int v) ∧
      ∀ iv, vop.onWords iv v = true → i.op.OnInts (iv.toInt + i.step * (width - 1)) e.toInt := by
  obtain ⟨rfl, hfit⟩ := fitI32?_eq_some hoffset
  unfold guard at h
  split at h
  · -- a folded bound
    rename_i bound hbound
    obtain ⟨v, _, hv, h⟩ := gives_bind.mp h
    obtain ⟨hv, -⟩ := Planning.gives_require.mp hv
    obtain ⟨hr, -⟩ := gives_pure.mp h
    cases hr
    obtain rfl : bound = e := by simpa [hbound, Frame.read] using he
    exact ⟨fr, .ofInt v, gives_pure.mpr ⟨rfl, rfl⟩, Frame.readUniform_of_read rfl, fun iv hiv => test_folded hop hv hiv⟩
  · obtain ⟨b, _, hb, h⟩ := gives_bind.mp h
    obtain ⟨hstrict, rfl⟩ := Planning.gives_require.mp hb
    obtain ⟨⟨v, is⟩, k, hemit, h⟩ := gives_bind.mp h
    obtain ⟨hr, rfl⟩ := gives_pure.mp h
    cases hr
    obtain ⟨rfl, hexec⟩ := exec_emit (operandTy_of_runtimeBound? hstrict) hemit
    obtain ⟨fr', hrun, hvalue⟩ := hexec hfresh call fr m e he
    exact ⟨fr', b.value e, hrun, hvalue,
      fun iv hiv => RuntimeBound.test_value hop hwidth hfit hstrict hiv⟩

/-- A plan that splits a loop was made from its anatomy. -/
theorem found_of_make {f : Func} {t : LoopForest} {l : Loop} {width alignment : Nat} {r : Recurrences}
    {plan : SplitPlan} {s : SplitParts} (h : Gives (make f t l width alignment r) n plan n')
    (hs : plan.kind = .split s) :
    plan.header = l.header ∧ ∃ a updates k, a.Found f t l r ∧
      Gives (scaledSteps a.header.phis r width) n updates k ∧
      Gives (splitParts f t l a width updates) k s n' := by
  unfold make at h
  obtain ⟨a, _, ha, h⟩ := gives_bind.mp h
  obtain ⟨hanatomy, rfl⟩ := gives_mk_pure.mp ha
  obtain ⟨lanes, _, hlanes, h⟩ := gives_bind.mp h
  obtain ⟨hfit, rfl⟩ := Planning.gives_require.mp hlanes
  obtain ⟨rfl, -⟩ := fitI32?_eq_some hfit
  obtain ⟨updates, k, hupdates, h⟩ := gives_bind.mp h
  split at h
  · obtain ⟨rfl, -⟩ := gives_pure.mp h
    cases hs
  · obtain ⟨parts, _, hparts, h⟩ := gives_bind.mp h
    obtain ⟨rfl, rfl⟩ := gives_pure.mp h
    cases hs
    exact ⟨rfl, a, updates, k, found_of_anatomy hanatomy, hupdates, hparts⟩

/-- Counts from zero to its argument. -/
def countUp : Func :=
  let i : Temp := .ofLocal "i" .i32
  let next : Temp := .ofLocal "next" .i32
  let cond : Temp := .ofLocal "cond" .i32
  let bound : Temp := .ofLocal "bound" .i32
  { total := 3
    name := "count_up"
    retTy := .i32
    params := [bound]
    blocks := [
      { Block.ofId 0 with succ := [.last 1], jump := some (.jump (.ofBlock 1)) },
      { Block.ofId 1 with
        prev := [.last 0, .last 2]
        succ := [.last 2, .last 3]
        phis := [.ofTarget i [(.int 0, .ofBlock 0), (.temp next, .ofBlock 2)]]
        instrs := [.comp cond .icmp .slt .i32 (.temp i) (.temp bound)]
        jump := some (.branch .i32 (.temp cond) (.ofBlock 2) (.ofBlock 3)) },
      { Block.ofId 2 with
        prev := [.last 1]
        succ := [.last 1]
        instrs := [.arith next .add .i32 (.temp i) (.int 1)]
        jump := some (.jump (.ofBlock 1)) },
      { Block.ofId 3 with prev := [.last 1], jump := some (.ret (some (.temp i))) }] }

end SplitPlan

end LoopLanes
