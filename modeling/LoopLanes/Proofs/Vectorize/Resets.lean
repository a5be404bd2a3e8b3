/-
Accumulators that are reset.

The kind of a recurrence is what its arithmetic agrees on (`kindOf_eq`); phis and selects that
pass values on have no say, not even where they bring in a value from outside the recurrence.
So a sum that a select resets is split over lanes like any other sum, and the partial sums
are added up where the loop only keeps what came after the reset (`sum_of_resetting_ne`).
-/
import LoopLanes.Lanes.Run
import LoopLanes.Proofs.Cfg.Names
import LoopLanes.Proofs.Text.Spelling
import LoopLanes.Text.Reader
import LoopLanes.Vectorize.Pass

namespace LoopLanes

namespace Reduction

variable {g : UseGraph} {elements : List Temp} {phi : Temp} {k : RedKind}

theorem foldl_join_self : ∀ {ks : List RedKind}, (∀ j ∈ ks, j = k) → ks.foldl RedKind.join k = k := by
  intro ks
  induction ks with
  | nil => exact fun _ => rfl
  | cons j ks ih =>
    intro h
    obtain ⟨rfl, hks⟩ := List.forall_mem_cons.mp h
    rw [List.foldl_cons, RedKind.join_self]
    exact ih hks

/-- A recurrence is of the kind of its arithmetic, whatever its phis and selects bring in. -/
theorem kindOf_eq
    (hsteps : ∀ t ∈ elements, t ≠ phi →
      stepKind elements (g.definition? t) = some k ∨ stepKind elements (g.definition? t) = none)
    (hsome : ∃ t ∈ elements, t ≠ phi ∧ stepKind elements (g.definition? t) = some k) :
    kindOf g elements phi = k := by
  have hkinds : ∀ j ∈ (elements.filter (· != phi)).filterMap
      fun t => stepKind elements (g.definition? t), j = k := by
    intro j hj
    obtain ⟨t, ht, hstep⟩ := List.mem_filterMap.mp hj
    obtain ⟨hmem, hne⟩ := List.mem_filter.mp ht
    rcases hsteps t hmem (by simpa using hne) with h | h
    · exact Option.some.inj (hstep.symm.trans h)
    · rw [h] at hstep
      cases hstep
  obtain ⟨t, hmem, hne, hstep⟩ := hsome
  have hk : k ∈ (elements.filter (· != phi)).filterMap
      fun t => stepKind elements (g.definition? t) :=
    List.mem_filterMap.mpr ⟨t, List.mem_filter.mpr ⟨hmem, by simpa using hne⟩, hstep⟩
  unfold kindOf
  dsimp only
  split
  · rename_i hnil
    rw [hnil] at hk
    cases hk
  · rename_i j ks hcons
    rw [hcons] at hkinds
    obtain ⟨rfl, hks⟩ := List.forall_mem_cons.mp hkinds
    exact foldl_join_self hks

end Reduction

/-- A loop that counts rounds and starts over after each one but the first. -/
def resetting : String :=
  "define i32 @f(i32 %n) \x7b\n" ++
  "entry:\n  br label %B1\n" ++
  "B1:\n  %i = phi i32 [0, %entry], [%j, %B2]\n  %s = phi i32 [0, %entry], [%u, %B2]\n" ++
  "  %c = icmp slt i32 %i, %n\n  br i32 %c, label %B2, label %B3\n" ++
  "B2:\n  %t = add i32 %s, 1\n  %u = select i32 %i, i32 0, i32 %t\n  %j = add i32 %i, 1\n" ++
  "  br label %B1, !loop {llvm.loop.vectorize.enable = 1, llvm.loop.parallel_accesses}\n" ++
  "B3:\n  ret i32 %s\n\x7d\n"

/-- What a program answers when its function is called, without its memory. -/
def Program.answer? (p : Program) (name : String) (args : List Cell) : Option (Option Cell) :=
  ((p.run name args).run.run Machine.start).1.toOption

/-- A program after vectorizing for a number of lanes. -/
def Program.forLanes? (p : Program) (width : Nat) : Option Program :=
  ((p.vectorize.run.run (.ofConfig { Config.standard with forceWidth := some width })).1.toOption).map
    (·.2)

/-- A function that is verified, works on words and leaves the memory alone. -/
def Func.isPure (f : Func) : Bool :=
  f.verify.toBool && f.blocks.all (fun b => b.instrs.all (!·.hasSideEffect)) &&
    f.mentions.all (·.ty == .i32)

set_option maxRecDepth 100000 in
/-- For two lanes, a sum that starts over keeps what was to be dropped. -/
theorem sum_of_resetting_ne : ∃ p q, Program.parse resetting = .ok p ∧
    p.funcs.all Func.isPure = true ∧ p.forLanes? 2 = some q ∧
    p.answer? "f" [.int 2] = some (some (.int 0)) ∧
    q.answer? "f" [.int 2] = some (some (.int 1)) := by
  obtain ⟨p, hp, h⟩ := Program.exists_of_chars (s := resetting) (P := fun p =>
    p.funcs.all Func.isPure && p.answer? "f" [.int 2] == some (some (.int 0)) &&
      (p.forLanes? 2).any fun q => q.answer? "f" [.int 2] == some (some (.int 1)))
    (by
      unfold resetting
      repeat apply toList_append_of String.toList_ofList
      exact String.toList_ofList) (by decide +kernel)
  simp only [Bool.and_eq_true, Option.any_eq_true, beq_iff_eq] at h
  obtain ⟨⟨hpure, hbefore⟩, q, hq, hafter⟩ := h
  exact ⟨p, q, hp, hpure, hq, hbefore, hafter⟩

end LoopLanes
