/-
Instructions that are executed ahead of their branch.

A body with varying branches is lined up: what stood under a branch is executed in every round, and
only what could fail or be seen from outside is kept under the mask of its block.

* `Instr.exec_under`: an instruction other than a `getelementptr` does in a lined-up body what it would
  do under its mask, as far as the lanes under the mask and the machine are concerned; it does not fail
  either, as long as the other lanes hold values of the types of the operands.
* `flaw_of_lagging` and `flaw_of_shifting`: both conditions are needed.  A `getelementptr` is not
  masked, although it fails where it leads to a place below zero; and a masked load leaves the integer
  zero in the lanes that it leaves out, whatever it loads.
-/
import LoopLanes.Proofs.Lanes.Typing
import LoopLanes.Proofs.Text.Spelling
import LoopLanes.Proofs.Vectorize.Resets
import LoopLanes.Proofs.Widen.Steps
import LoopLanes.Widen.Linearize

namespace LoopLanes

namespace Instr

variable {x : Instr} {fr fr' : Frame} {m m' : Machine} {call : Caller} {width : Nat}

/-- The type of what a plain instruction computes. -/
def resultTy : Instr → Ty
  | arith _ _ ty _ _ | select _ ty _ _ _ => ty
  | comp .. => .i32
  | _ => .void

/-- On operands of their types, plain instructions that need no mask do not fail. -/
theorem resultOf_total {read : Value → Except RunError Cell} (hplain : x.isPlain = true)
    (hty : x.wellTyped = true) (hmask : x.needsMask = false)
    (hread : ∀ v ∈ x.reads, ∃ c, read v = .ok c ∧ c.HasTy v.ty) :
    ∃ c, x.resultOf read = .ok c ∧ c.HasTy x.resultTy := by
  cases x with
  | arith t op ty lhs rhs =>
    obtain ⟨a, ha, hla⟩ := hread lhs (by simp [reads])
    obtain ⟨b, hb, hrb⟩ := hread rhs (by simp [reads])
    simp only [wellTyped, Bool.and_eq_true, beq_iff_eq] at hty
    obtain ⟨⟨rfl, hl⟩, hr⟩ := hty
    simp only [needsMask, Bool.or_eq_false_iff, decide_eq_false_iff_not] at hmask
    obtain ⟨c, hc, hcty⟩ := Cell.arith_total hmask.1 hmask.2 (hl ▸ hla) (hr ▸ hrb)
    exact ⟨c, bind_eq_ok.mpr ⟨a, ha, bind_eq_ok.mpr ⟨b, hb, hc⟩⟩, hcty⟩
  | comp t kind op ty lhs rhs =>
    obtain ⟨a, ha, hla⟩ := hread lhs (by simp [reads])
    obtain ⟨b, hb, hrb⟩ := hread rhs (by simp [reads])
    simp only [wellTyped, Bool.and_eq_true, beq_iff_eq] at hty
    obtain ⟨⟨⟨-, rfl⟩, hl⟩, hr⟩ := hty
    obtain ⟨c, hc, hcty⟩ := Cell.compare_total (hl ▸ hla) (hr ▸ hrb)
    exact ⟨c, bind_eq_ok.mpr ⟨a, ha, bind_eq_ok.mpr ⟨b, hb, hc⟩⟩, hcty⟩
  | select t ty cond lhs rhs =>
    obtain ⟨z, hz, -⟩ := hread cond (by simp [reads])
    obtain ⟨a, ha, hla⟩ := hread lhs (by simp [reads])
    obtain ⟨b, hb, hrb⟩ := hread rhs (by simp [reads])
    simp only [wellTyped, Bool.and_eq_true, beq_iff_eq] at hty
    obtain ⟨⟨-, hl⟩, hr⟩ := hty
    cases htrue : z.isTrue with
    | true => exact ⟨a, bind_eq_ok.mpr ⟨z, hz, by rw [if_pos htrue]; exact ha⟩, hl ▸ hla⟩
    | false =>
      have hfalse : ¬ z.isTrue = true := by rw [htrue]; exact Bool.false_ne_true
      exact ⟨b, bind_eq_ok.mpr ⟨z, hz, by rw [if_neg hfalse]; exact hb⟩, hr ▸ hrb⟩
  | _ => cases hplain

/-- The lanes of a plain instruction that take part. -/
theorem gives_execLanes_active (hplain : x.isPlain = true) {active : Nat → Bool} {ls : Lanes} :
    Gives (execLanes call fr x width active) m ls m' ↔
      List.Forall₂ (fun k c => if active k then x.resultOf (fr.lane · k) = .ok c else default = c)
        (List.range width) ls ∧ m = m' := by
  refine gives_mapM_iff fun k m c m' => ?_
  cases hactive : active k with
  | false => simp [gives_pure]
  | true =>
    simp only [if_true, gives_bind, gives_execLane_iff hplain, gives_pure]
    constructor
    · rintro ⟨_, _, ⟨c', hc, rfl, rfl⟩, rfl, rfl⟩
      exact ⟨hc, rfl⟩
    · rintro ⟨hc, rfl⟩
      exact ⟨some c, m, ⟨c, hc, rfl, rfl⟩, rfl, rfl⟩

/-- Executed for all lanes, a plain instruction that needs no mask gives what it gives in the lanes that
take part. -/
theorem exists_resultOf (hplain : x.isPlain = true) (hty : x.wellTyped = true)
    (hmask : x.needsMask = false) {active : Nat → Bool} {ls : Lanes}
    (hidle : ∀ k < width, active k = false →
      ∀ v ∈ x.reads, ∃ c, fr.lane v k = .ok c ∧ c.HasTy v.ty)
    (h : Gives (execLanes call fr x width active) m ls m') :
    m = m' ∧ ∀ k < width, ∃ c, x.resultOf (fr.lane · k) = .ok c ∧ (active k = true → ls[k]? = some c) := by
  obtain ⟨hlanes, rfl⟩ := (gives_execLanes_active hplain).mp h
  refine ⟨rfl, fun k hk => ?_⟩
  have hlen : ls.length = width := by
    have := hlanes.length_eq
    simpa using this.symm
  have hget : k < ls.length := by omega
  have hat := hlanes.get (by simpa using hk) hget
  simp only [List.get_eq_getElem, List.getElem_range] at hat
  cases hactive : active k with
  | true =>
    rw [hactive, if_pos rfl] at hat
    exact ⟨ls[k], hat, fun _ => List.getElem?_eq_getElem hget⟩
  | false =>
    obtain ⟨c, hc, -⟩ := resultOf_total hplain hty hmask (hidle k hk hactive)
    exact ⟨c, hc, nofun⟩

/-- An instruction of a lined-up body as it is executed for all lanes. -/
def widened (width : Nat) (mask : Value) (x : Instr) : Instr :=
  let y := x.under width (some mask)
  if y.isVector then y else .vec width none y

/-- Moved out from under its branch, an instruction does what it did in the lanes that came to it. -/
theorem exec_under {mask : Value} {ms : Lanes} (hkind : x.isPlain = true ∨ x.needsMask = true)
    (hty : x.wellTyped = true) (hread : fr.read mask = .ok ms)
    (hidle : ∀ k < width, maskActive ms k = false →
      ∀ v ∈ x.reads, ∃ c, fr.lane v k = .ok c ∧ c.HasTy v.ty)
    (h : Gives (exec call fr (.vec width (some mask) x)) m fr' m') :
    ∃ fr'', Gives (exec call fr (x.widened width mask)) m fr'' m' ∧
      ∀ t, ∀ k < width, maskActive ms k = true →
        (fr''.lookup t).bind (·[k]?) = (fr'.lookup t).bind (·[k]?) := by
  cases hmask : x.needsMask with
  | true =>
    have hw : x.widened width mask = .vec width (some mask) x := by
      simp [widened, under, hmask, isVector]
    exact ⟨fr', hw ▸ h, fun _ _ _ _ => rfl⟩
  | false =>
    have hplain : x.isPlain = true := hkind.resolve_right (by simp [hmask])
    have hvector : x.isVector = false := by
      cases x <;> first | rfl | cases hplain
    have hw : x.widened width mask = .vec width none x := by
      simp [widened, under, hmask, hvector]
    obtain ⟨t, ht⟩ := write_of_isPlain hplain
    obtain ⟨ls, m₁, hlanes, h⟩ := gives_bind.mp h
    obtain ⟨_, _, hms, hlanes⟩ := gives_bind.mp hlanes
    obtain ⟨he, rfl⟩ := gives_mk_pure.mp hms
    obtain rfl := Except.ok.inj (hread.symm.trans he)
    obtain ⟨rfl, hresults⟩ := exists_resultOf hplain hty hmask hidle hlanes
    have hvec : (Instr.vec width (some mask) x).write = some t := ht
    rw [hvec] at h
    obtain ⟨rfl, rfl⟩ := gives_pure.mp h
    have hresult : ∀ k, ∃ c, k < width →
        x.resultOf (fr.lane · k) = .ok c ∧ (maskActive ms k = true → ls[k]? = some c) := by
      intro k
      by_cases hk : k < width
      · obtain ⟨c, hc⟩ := hresults k hk
        exact ⟨c, fun _ => hc⟩
      · exact ⟨default, fun h => absurd h hk⟩
    choose c hc using hresult
    refine ⟨_, hw ▸ gives_exec_vec hplain ht fun k hk => (hc k hk).1, fun u k hk hactive => ?_⟩
    by_cases hu : u = t
    · subst hu
      simp [lookup_setEntry_self, hk, (hc k hk).2 hactive]
    · rw [lookup_setEntry_of_ne _ _ hu, lookup_setEntry_of_ne _ _ hu]

/-- One less than a counter. -/
def stepBack : Instr := .arith (.ofLocal "d" .i32) .sub .i32 (.temp (.ofLocal "i" .i32)) (.int 1)

/-- A counter in two lanes, of which a mask holds in the second. -/
def halfway : Frame :=
  [(.ofLocal "m" .i32, [.int 0, .int 1]), (.ofLocal "i" .i32, [.int 0, .int 1])]

/-- The subtraction is made in both lanes, although only the second comes to it. -/
theorem exec_under_stepBack : ∃ fr',
    Gives (exec Builtin.call halfway (stepBack.widened 2 (.temp (.ofLocal "m" .i32)))) Machine.start fr'
      Machine.start ∧
    (fr'.lookup (.ofLocal "d" .i32)).bind (·[1]?) = some (.int 0) := by
  have hmasked : Gives (exec Builtin.call halfway (.vec 2 (some (.temp (.ofLocal "m" .i32))) stepBack))
      Machine.start (setEntry (.ofLocal "d" .i32) [.int 0, .int 0] halfway) Machine.start := rfl
  have hidle : ∀ k < 2, maskActive [.int 0, .int 1] k = false →
      ∀ v ∈ stepBack.reads, ∃ c, halfway.lane v k = .ok c ∧ c.HasTy v.ty := by
    rintro k hk hactive v hv
    obtain rfl : k = 0 := by
      by_contra hne
      obtain rfl : k = 1 := by omega
      cases hactive
    obtain rfl | rfl : v = .temp (.ofLocal "i" .i32) ∨ v = .int 1 := by simpa [stepBack, reads] using hv
    · exact ⟨.int 0, rfl, rfl⟩
    · exact ⟨.int 1, rfl, rfl⟩
  obtain ⟨fr', hgives, hlanes⟩ := exec_under (.inl rfl) (by decide) rfl hidle hmasked
  exact ⟨fr', hgives, hlanes (.ofLocal "d" .i32) 1 (by decide) (by decide)⟩

end Instr

/-! ### Two loops -/

/-- Stores one element back from where it stands, but not in the first round. -/
def lagging : String :=
  "define void @f(i32 %n, i32* %p) \x7b\n" ++
  "entry:\n  br label %B1\n" ++
  "B1:\n  %i = phi i32 [0, %entry], [%j, %B3]\n" ++
  "  %c = icmp slt i32 %i, %n\n  br i32 %c, label %B2, label %B4\n" ++
  "B2:\n  br i32 %i, label %B5, label %B3\n" ++
  "B3:\n  %j = add i32 %i, 1\n" ++
  "  br label %B1, !loop \x7bllvm.loop.vectorize.enable = 1, llvm.loop.parallel_accesses\x7d\n" ++
  "B4:\n  ret void\n" ++
  "B5:\n  %d = sub i32 %i, 1\n  %q = getelementptr i32, i32* %p, i32 %d\n" ++
  "  store i32 7, i32* %q\n  br label %B3\n\x7d\n"

/-- Adds one to every element but the first. -/
def shifting : String :=
  "define void @f(i32 %n, f32* %p) \x7b\n" ++
  "entry:\n  br label %B1\n" ++
  "B1:\n  %i = phi i32 [0, %entry], [%j, %B3]\n" ++
  "  %c = icmp slt i32 %i, %n\n  br i32 %c, label %B2, label %B4\n" ++
  "B2:\n  br i32 %i, label %B5, label %B3\n" ++
  "B3:\n  %j = add i32 %i, 1\n" ++
  "  br label %B1, !loop \x7bllvm.loop.vectorize.enable = 1, llvm.loop.parallel_accesses\x7d\n" ++
  "B4:\n  ret void\n" ++
  "B5:\n  %q = getelementptr f32, f32* %p, i32 %i\n  %v = load f32, f32* %q\n" ++
  "  %w = fadd f32 %v, 1.0\n  store f32 %w, f32* %q\n  br label %B3\n\x7d\n"

/-- How a program fails when its function is called with a number and the first place of some memory. -/
def Program.flaw? (p : Program) (name : String) (n : Int32) (memory : Array Cell) : Option RunError :=
  failure? ((p.run name [.int n, .ptr 0]).run.run { Machine.start with memory := memory }).1

set_option maxRecDepth 100000 in
/-- With two lanes, the place below the first element is computed in the round that stores nothing. -/
theorem flaw_of_lagging : ∃ p q, Program.parse lagging = .ok p ∧
    p.funcs.all (·.verify.toBool) = true ∧ p.forLanes? 2 = some q ∧
    p.flaw? "f" 4 #[.int 1, .int 2, .int 3, .int 4] = none ∧
    q.flaw? "f" 4 #[.int 1, .int 2, .int 3, .int 4] = some (.outOfBounds (-1)) := by
  obtain ⟨p, hp, h⟩ := Program.exists_of_chars (s := lagging) (P := fun p =>
    p.funcs.all (·.verify.toBool) && p.flaw? "f" 4 #[.int 1, .int 2, .int 3, .int 4] == none &&
      (p.forLanes? 2).any fun q =>
        q.flaw? "f" 4 #[.int 1, .int 2, .int 3, .int 4] == some (.outOfBounds (-1)))
    (by
      unfold lagging
      repeat apply toList_append_of String.toList_ofList
      exact String.toList_ofList) (by decide +kernel)
  simp only [Bool.and_eq_true, Option.any_eq_true, beq_iff_eq] at h
  obtain ⟨⟨hverified, hbefore⟩, q, hq, hafter⟩ := h
  exact ⟨p, q, hp, hverified, hq, hbefore, hafter⟩

set_option maxRecDepth 100000 in
/-- With two lanes, one is added to the integer that stands for what the first lane did not load. -/
theorem flaw_of_shifting : ∃ p q, Program.parse shifting = .ok p ∧
    p.funcs.all (·.verify.toBool) = true ∧ p.forLanes? 2 = some q ∧
    p.flaw? "f" 4 (Array.replicate 4 (.float 1)) = none ∧
    q.flaw? "f" 4 (Array.replicate 4 (.float 1)) = some (.typeMismatch "f32" (.int 0)) := by
  obtain ⟨p, hp, h⟩ := Program.exists_of_chars (s := shifting) (P := fun p =>
    p.funcs.all (·.verify.toBool) && p.flaw? "f" 4 (Array.replicate 4 (.float 1)) == none &&
      (p.forLanes? 2).any fun q =>
        q.flaw? "f" 4 (Array.replicate 4 (.float 1)) == some (.typeMismatch "f32" (.int 0)))
    (by
      unfold shifting
      repeat apply toList_append_of String.toList_ofList
      exact String.toList_ofList) (by decide +kernel)
  simp only [Bool.and_eq_true, Option.any_eq_true, beq_iff_eq] at h
  obtain ⟨⟨hverified, hbefore⟩, q, hq, hafter⟩ := h
  exact ⟨p, q, hp, hverified, hq, hbefore, hafter⟩

end LoopLanes
