/-
Execution of plain instructions.

Arithmetic, comparisons and selects only compute: a lane of them is a function of that lane of the
operands (`Instr.resultOf`), and the machine stays as it is.  Where every operand has a single
lane, so has the result (`gives_exec_iff`).
-/
import LoopLanes.Lanes.Run
import LoopLanes.Proofs.Basic.Success

namespace LoopLanes

variable {fr : Frame} {t : Temp} {v lhs rhs cond : Value} {c : Cell} {m m' : Machine}
  {call : Caller}

namespace Frame

theorem read_setEntry_self (t : Temp) (ls : Lanes) (fr : Frame) :
    Frame.read (setEntry t ls fr) (.temp t) = .ok ls := by
  simp [Frame.read, lookup_setEntry_self]

/-- Setting a temporary does not change what other operands read. -/
theorem read_setEntry_of_ne (ls : Lanes) (fr : Frame) (h : v ≠ .temp t) :
    Frame.read (setEntry t ls fr) v = fr.read v := by
  cases v with
  | temp u =>
    have hne : u ≠ t := fun e => h (e ▸ rfl)
    simp [Frame.read, lookup_setEntry_of_ne ls fr hne]
  | _ => rfl

theorem lane_of_lookup (h : fr.lookup t = some [c]) (i : Nat) : fr.lane (.temp t) i = .ok c := by
  simp [Frame.lane, h]

theorem width_of_lookup (h : fr.lookup t = some [c]) : fr.width t = 1 := by
  simp [width, h]

theorem lookup_of_read {ls : Lanes} (h : fr.read (.temp t) = .ok ls) : fr.lookup t = some ls := by
  simp only [Frame.read] at h
  cases hl : fr.lookup t with
  | none => simp [hl] at h
  | some ls => simpa [hl] using h

/-- The only lane of an integer. -/
theorem lane_of_read {x : Int32} (h : fr.read v = .ok [.int x]) (i : Nat) :
    fr.lane v i = .ok (.int x) := by
  cases v with
  | temp u => exact lane_of_lookup (lookup_of_read h) i
  | int y =>
    obtain rfl : y = x := by simpa [Frame.read] using h
    simp [Frame.lane, readUniform, Frame.read, Lanes.uniform, Cell.same, bind, Except.bind]
  | float y => simp [Frame.read] at h

theorem readUniform_of_read {x : Int32} (h : fr.read v = .ok [.int x]) :
    fr.readUniform v = .ok (.int x) := by
  simp [readUniform, h, Lanes.uniform, Cell.same, bind, Except.bind]

theorem width_of_read (h : fr.read (.temp t) = .ok [c]) : fr.width t = 1 :=
  width_of_lookup (lookup_of_read h)

end Frame

namespace Instr

variable {x : Instr} {k : Nat}

/-- Instructions that only compute. -/
def isPlain : Instr → Bool
  | arith .. | comp .. | select .. => true
  | _ => false

/-- The temporary that a plain instruction defines. -/
theorem write_of_isPlain (h : x.isPlain = true) : ∃ t, x.write = some t := by
  cases x <;> first | exact ⟨_, rfl⟩ | cases h

/-- What a plain instruction computes from what it reads. -/
def resultOf (read : Value → Except RunError Cell) : Instr → Except RunError Cell
  | arith _ op _ lhs rhs => do Cell.arith op (← read lhs) (← read rhs)
  | comp _ _ op _ lhs rhs => do Cell.compare op (← read lhs) (← read rhs)
  | select _ _ cond lhs rhs => do if (← read cond).isTrue then read lhs else read rhs
  | x => .error (.unsupported x.text)

/-- The result depends on the operands alone. -/
theorem resultOf_congr {read read' : Value → Except RunError Cell}
    (h : ∀ v ∈ x.reads, read v = read' v) : x.resultOf read = x.resultOf read' := by
  cases x <;> simp_all [resultOf, reads]

theorem resultOf_subst {σ : Temp → Option Value} {read : Value → Except RunError Cell}
    (h : x.isPlain = true) : (x.subst σ).resultOf read = x.resultOf fun v => read (v.subst σ) := by
  cases x <;> first | rfl | cases h

theorem gives_operand {k : Nat} : Gives (operand fr k v) m c m' ↔ fr.lane v k = .ok c ∧ m = m' :=
  gives_mk_pure

/-- A lane of a plain instruction. -/
theorem gives_execLane_iff (h : x.isPlain = true) {o : Option Cell} :
    Gives (execLane call fr k x) m o m' ↔
      ∃ c, x.resultOf (fr.lane · k) = .ok c ∧ o = some c ∧ m = m' := by
  cases x <;> try cases h
  case arith | comp =>
    simp only [execLane, resultOf, gives_bind, gives_operand, gives_pure, Exec.lift, gives_mk_pure,
      bind_eq_ok]
    constructor
    · rintro ⟨a, _, ⟨ha, rfl⟩, b, _, ⟨hb, rfl⟩, c, _, ⟨hc, rfl⟩, rfl, rfl⟩
      exact ⟨c, ⟨a, ha, b, hb, hc⟩, rfl, rfl⟩
    · rintro ⟨c, ⟨a, ha, b, hb, hc⟩, rfl, rfl⟩
      exact ⟨a, _, ⟨ha, rfl⟩, b, _, ⟨hb, rfl⟩, c, _, ⟨hc, rfl⟩, rfl, rfl⟩
  case select t ty cond lhs rhs =>
    simp only [execLane, resultOf, gives_bind, gives_operand, bind_eq_ok]
    constructor
    · rintro ⟨z, _, ⟨hz, rfl⟩, h⟩
      split at h <;> rename_i htrue
      · obtain ⟨a, _, ha, h⟩ := gives_bind.mp h
        obtain ⟨hread, rfl⟩ := gives_operand.mp ha
        obtain ⟨rfl, rfl⟩ := gives_pure.mp h
        exact ⟨a, ⟨z, hz, by rw [if_pos htrue]; exact hread⟩, rfl, rfl⟩
      · obtain ⟨a, _, ha, h⟩ := gives_bind.mp h
        obtain ⟨hread, rfl⟩ := gives_operand.mp ha
        obtain ⟨rfl, rfl⟩ := gives_pure.mp h
        exact ⟨a, ⟨z, hz, by rw [if_neg htrue]; exact hread⟩, rfl, rfl⟩
    · rintro ⟨c, ⟨z, hz, hc⟩, rfl, rfl⟩
      refine ⟨z, _, ⟨hz, rfl⟩, ?_⟩
      split at hc <;> rename_i htrue
      · rw [if_pos htrue]
        exact gives_bind.mpr ⟨c, _, gives_operand.mpr ⟨hc, rfl⟩, gives_pure.mpr ⟨rfl, rfl⟩⟩
      · rw [if_neg htrue]
        exact gives_bind.mpr ⟨c, _, gives_operand.mpr ⟨hc, rfl⟩, gives_pure.mpr ⟨rfl, rfl⟩⟩

/-- Where all operands have a single lane, so has the result. -/
theorem widest_eq_one (h : ∀ t ∈ x.readTemps, fr.width t = 1) : widest fr x = 1 := by
  unfold widest
  cases hm : (x.readTemps.map fr.width).max? with
  | none => rfl
  | some w =>
    have hw := List.max?_mem hm
    obtain ⟨t, ht, rfl⟩ := List.mem_map.mp hw
    exact h t ht

theorem lanes_of_isPlain (h : x.isPlain = true) :
    lanes call fr x = execLanes call fr x (widest fr x) fun _ => true := by
  cases x <;> first | rfl | cases h

/-- Executing the lanes of a plain instruction. -/
theorem gives_execLanes_iff (h : x.isPlain = true) {width : Nat} {ls : Lanes} :
    Gives (execLanes call fr x width fun _ => true) m ls m' ↔
      List.Forall₂ (fun k c => x.resultOf (fr.lane · k) = .ok c) (List.range width) ls ∧ m = m' := by
  refine gives_mapM_iff fun k m c m' => ?_
  simp only [if_true, gives_bind, gives_execLane_iff h, gives_pure]
  constructor
  · rintro ⟨_, _, ⟨c', hc, rfl, rfl⟩, rfl, rfl⟩
    exact ⟨hc, rfl⟩
  · rintro ⟨hc, rfl⟩
    exact ⟨some c, m, ⟨c, hc, rfl, rfl⟩, rfl, rfl⟩

/-- A plain instruction whose operands have a single lane. -/
theorem gives_exec_iff (h : x.isPlain = true) (hw : x.write = some t)
    (hone : ∀ t ∈ x.readTemps, fr.width t = 1) {fr' : Frame} :
    Gives (exec call fr x) m fr' m' ↔
      ∃ c, x.resultOf (fr.lane · 0) = .ok c ∧ fr' = setEntry t [c] fr ∧ m = m' := by
  unfold exec
  rw [lanes_of_isPlain h, widest_eq_one hone]
  simp only [gives_bind, gives_execLanes_iff h, hw, gives_pure, List.range_one,
    List.forall₂_cons_left_iff, List.forall₂_nil_left_iff]
  constructor
  · rintro ⟨_, _, ⟨⟨c, _, hc, rfl, rfl⟩, rfl⟩, rfl, rfl⟩
    exact ⟨c, hc, rfl, rfl⟩
  · rintro ⟨c, hc, rfl, rfl⟩
    exact ⟨[c], m, ⟨⟨c, [], hc, rfl, rfl⟩, rfl⟩, rfl, rfl⟩

/-! ### What stays -/

/-- An instruction sets the temporary that it defines, and no other one. -/
theorem lookup_of_gives_exec {fr' : Frame} (h : Gives (exec call fr x) m fr' m')
    (ht : x.write ≠ some t) : fr'.lookup t = fr.lookup t := by
  obtain ⟨values, r, -, h⟩ := gives_bind.mp h
  cases hw : x.write with
  | none =>
    rw [hw] at h
    rw [(gives_pure.mp h).1]
  | some u =>
    rw [hw] at h
    rw [← (gives_pure.mp h).1]
    exact lookup_setEntry_of_ne values fr fun e => ht (e ▸ hw)

/-- Instructions set no temporary but those that they define. -/
theorem lookup_of_gives_foldlM : ∀ {xs : List Instr} {fr fr' : Frame} {m m' : Machine},
    Gives (xs.foldlM (exec call) fr) m fr' m' → t ∉ xs.filterMap write →
      fr'.lookup t = fr.lookup t := by
  intro xs
  induction xs with
  | nil =>
    intro fr fr' m m' h _
    rw [(gives_pure.mp h).1]
  | cons x xs ih =>
    intro fr fr' m m' h ht
    obtain ⟨fr₁, m₁, h₁, h⟩ := gives_bind.mp h
    rw [ih h fun hmem => ht ?_, lookup_of_gives_exec h₁ fun e => ht ?_]
    · exact List.mem_filterMap.mpr ⟨x, List.mem_cons_self, e⟩
    · obtain ⟨y, hy, hwrite⟩ := List.mem_filterMap.mp hmem
      exact List.mem_filterMap.mpr ⟨y, List.mem_cons_of_mem _ hy, hwrite⟩

/-! ### Integers -/

section Integers

variable {y z w : Int32}

theorem width_of_mem_readTemps (h : ∀ v ∈ x.reads, ∃ y, fr.read v = .ok [.int y]) :
    ∀ t ∈ x.readTemps, fr.width t = 1 := by
  intro t ht
  obtain ⟨v, hv, he⟩ := List.mem_filterMap.mp ht
  obtain ⟨y, hy⟩ := h v hv
  cases v with
  | temp u =>
    obtain rfl : u = t := by simpa [Value.temp?] using he
    exact Frame.width_of_read hy
  | _ => simp [Value.temp?] at he

theorem gives_exec_comp {kind : CompKind} {op : CompOp} {ty : Ty}
    (hl : fr.read lhs = .ok [.int y]) (hr : fr.read rhs = .ok [.int z])
    (h : Cell.compare op (.int y) (.int z) = .ok c) :
    Gives (exec call fr (.comp t kind op ty lhs rhs)) m (setEntry t [c] fr) m := by
  refine (gives_exec_iff rfl rfl (width_of_mem_readTemps (by simp [reads, hl, hr]))).mpr
    ⟨c, ?_, rfl, rfl⟩
  rw [resultOf, Frame.lane_of_read hl, Frame.lane_of_read hr]
  exact h

theorem gives_exec_arith {op : ArithOp} {ty : Ty}
    (hl : fr.read lhs = .ok [.int y]) (hr : fr.read rhs = .ok [.int z])
    (h : Cell.arith op (.int y) (.int z) = .ok c) :
    Gives (exec call fr (.arith t op ty lhs rhs)) m (setEntry t [c] fr) m := by
  refine (gives_exec_iff rfl rfl (width_of_mem_readTemps (by simp [reads, hl, hr]))).mpr
    ⟨c, ?_, rfl, rfl⟩
  rw [resultOf, Frame.lane_of_read hl, Frame.lane_of_read hr]
  exact h

theorem gives_exec_select {ty : Ty} (hc : fr.read cond = .ok [.int w])
    (hl : fr.read lhs = .ok [.int y]) (hr : fr.read rhs = .ok [.int z]) :
    Gives (exec call fr (.select t ty cond lhs rhs)) m
      (setEntry t [.int (if w ≠ 0 then y else z)] fr) m := by
  refine (gives_exec_iff rfl rfl (width_of_mem_readTemps (by simp [reads, hc, hl, hr]))).mpr
    ⟨_, ?_, rfl, rfl⟩
  rw [resultOf, Frame.lane_of_read hc, Frame.lane_of_read hl, Frame.lane_of_read hr]
  by_cases hw : w = 0 <;> simp [Cell.isTrue, hw, bind, Except.bind]

end Integers

end Instr

/-- Executing three instructions one after the other. -/
theorem gives_foldlM_three {call : Caller} {a b c : Instr} {fr₀ fr₁ fr₂ fr₃ : Frame} {m : Machine}
    (ha : Gives (a.exec call fr₀) m fr₁ m) (hb : Gives (b.exec call fr₁) m fr₂ m)
    (hc : Gives (c.exec call fr₂) m fr₃ m) :
    Gives ([a, b, c].foldlM (Instr.exec call) fr₀) m fr₃ m :=
  gives_bind.mpr ⟨_, _, ha, gives_bind.mpr ⟨_, _, hb, gives_bind.mpr ⟨_, _, hc,
    gives_pure.mpr ⟨rfl, rfl⟩⟩⟩⟩

/-- Where a block goes depends on what its terminator reads. -/
theorem Block.leave_congr {b : Block} {fr fr' : Frame} {j : Instr} (hj : b.jump = some j)
    (h : ∀ v ∈ j.reads, fr'.read v = fr.read v) : b.leave fr' = b.leave fr := by
  have huniform : ∀ v ∈ j.reads, fr'.readUniform v = fr.readUniform v := fun v hv => by
    rw [Frame.readUniform, Frame.readUniform, h v hv]
  unfold Block.leave
  rw [hj]
  cases j with
  | branch ty cond l m => simp only [huniform cond (List.mem_singleton_self cond)]
  | ret value =>
    cases value with
    | none => rfl
    | some v => simp only [huniform v (List.mem_singleton_self v)]
  | _ => rfl

end LoopLanes
