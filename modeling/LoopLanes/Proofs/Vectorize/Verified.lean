/-
Runs and verification.

Every function that was written to is verified before a run goes on, so that what a run answers is verified
if what it was given was.  A run need not answer: conditions are tested as words where a body is lined up, so
that a branch on a number with a fraction is not well typed afterwards, and the run fails.

* `Sweep.verify_eq_ok`, `Program.verify_of_vectorize` — what visits leave and what a run answers;
* `Program.flaw_of_weighing` — a run that fails on a function that can be prepared.
-/
import LoopLanes.Proofs.Text.Spelling
import LoopLanes.Proofs.Vectorize.Calls
import LoopLanes.Proofs.Vectorize.Visits

namespace LoopLanes

theorem Func.flaw?_eq_none_iff {f : Func} : f.flaw? = none ↔ f.verify = .ok () := by
  unfold flaw?
  cases f.verify <;> simp

/-- What is tried is verified afterwards, unless preparing is all that is asked for. -/
theorem Work.Tried.verify_eq_ok {c : Config} {w : Work} {t : LoopForest} {l : Loop} {r : LoopOutcome × Work}
    (h : Tried c w t l r) (hc : c.emitPrepared = false) (hw : w.func.verify = .ok ()) : r.2.func.verify = .ok () := by
  cases h with
  | skipped _ => exact hw
  | carried _ _ _ hcarried =>
    cases hcarried with
    | prepared hemit => exact absurd (hc.symm.trans hemit) nofun
    | vectorized _ _ _ _ _ hsound => exact Func.flaw?_eq_none_iff.mp hsound

namespace Sweep

variable {w w' : Work} {s s' : RunState} {vs : List Visit}

theorem config (h : Sweep w s vs w' s') : s'.config = s.config := by
  induction h with
  | done => rfl
  | visit _ hv _ ih =>
    obtain ⟨-, _, _, rfl⟩ := Work.tells_visitLoop _ _ _ _ _ _ rfl hv
    exact ih

theorem verify_eq_ok (h : Sweep w s vs w' s') (hs : s.config.emitPrepared = false)
    (hw : w.func.verify = .ok ()) : w'.func.verify = .ok () := by
  induction h with
  | done => exact hw
  | visit _ hv _ ih =>
    obtain ⟨htried, _, _, rfl⟩ := Work.tells_visitLoop _ _ _ _ _ _ rfl hv
    exact ih hs (htried.verify_eq_ok hs hw)

end Sweep

theorem Sweeps.verify_eq_ok {fs fs' : List Func} {n n' : TempCounter} {s s' : RunState} {vs : List Visit}
    (h : Sweeps fs n s vs fs' n' s') (hs : s.config.emitPrepared = false) (hfs : ∀ f ∈ fs, f.verify = .ok ()) :
    ∀ g ∈ fs', g.verify = .ok () := by
  induction h with
  | done => exact hfs
  | func hf _ ih =>
    obtain ⟨hw, hfs⟩ := List.forall_mem_cons.mp hfs
    exact List.forall_mem_cons.mpr ⟨hf.verify_eq_ok hs hw, ih (hf.config ▸ hs) hfs⟩

/-- A flaw of the function: an instruction that its operands do not fit. -/
def PassError.isIllTyped (name : String) : PassError → Bool
  | .flaw f (.illTyped _) => f == name
  | _ => false

theorem PassError.isIllTyped_iff {name : String} {e : PassError} :
    e.isIllTyped name = true ↔ ∃ x, e = .flaw name (.illTyped x) := by
  constructor
  · intro h
    unfold isIllTyped at h
    split at h
    · exact ⟨_, by rw [beq_iff_eq.mp h]⟩
    · cases h
  · rintro ⟨x, rfl⟩
    exact beq_self_eq_true name

namespace Program

/-- What a run answers for verified functions is verified. -/
theorem verify_of_vectorize {p q : Program} {s s' : RunState} {changed : Bool}
    (hs : s.config.emitPrepared = false) (hp : ∀ f ∈ p.funcs, f.verify = .ok ())
    (h : Gives p.vectorize s (changed, q) s') : ∀ g ∈ q.funcs, g.verify = .ok () := by
  rcases sweeps_of_vectorize h with ⟨-, rfl, -⟩ | ⟨-, vs, hvs, -⟩
  · exact hp
  · exact hvs.verify_eq_ok hs hp

/-- A loop with a branch that is taken unless a number with a fraction is zero. -/
def weighing : String :=
  "define void @f(i32 %n, f32* %p) \x7b\n" ++
  "entry:\n  br label %B1\n" ++
  "B1:\n  %i = phi i32 [0, %entry], [%j, %B3]\n" ++
  "  %c = icmp slt i32 %i, %n\n  br i32 %c, label %B2, label %B4\n" ++
  "B2:\n  %q = getelementptr f32, f32* %p, i32 %i\n  %v = load f32, f32* %q\n" ++
  "  br f32 %v, label %B5, label %B3\n" ++
  "B3:\n  %j = add i32 %i, 1\n" ++
  "  br label %B1, !loop \x7bllvm.loop.vectorize.enable = 1, llvm.loop.parallel_accesses\x7d\n" ++
  "B4:\n  ret void\n" ++
  "B5:\n  store f32 1.0, f32* %q\n  br label %B3\n\x7d\n"

set_option maxRecDepth 100000 in
/-- The function is verified, and so is the one that is prepared; but lining up its body makes an ill-typed
comparison. -/
theorem flaw_of_weighing : ∃ p q s t x, parse weighing = .ok p ∧ (∀ f ∈ p.funcs, f.verify = .ok ()) ∧
    Gives p.vectorize (.ofConfig { Config.standard with forceWidth := some 2, emitPrepared := true }) (true, q) s ∧
    (∀ g ∈ q.funcs, g.verify = .ok ()) ∧
    p.vectorize.run.run (.ofConfig { Config.standard with forceWidth := some 2 }) =
      (.error (.flaw "f" (.illTyped x)), t) := by
  obtain ⟨p, hp, h⟩ := exists_of_chars (s := weighing) (P := fun p =>
    p.funcs.all (decide <| ·.verify = .ok ()) &&
    (p.vectorize.run.run
      (.ofConfig { Config.standard with forceWidth := some 2, emitPrepared := true })).1.toOption.any
        (fun r => r.1 && r.2.funcs.all (decide <| ·.verify = .ok ())) &&
    (failure? (p.vectorize.run.run (.ofConfig { Config.standard with forceWidth := some 2 })).1).any
      (·.isIllTyped "f"))
    (by
      unfold weighing
      repeat apply toList_append_of String.toList_ofList
      exact String.toList_ofList) (by decide +kernel)
  simp only [Bool.and_eq_true, Option.any_eq_true, List.all_eq_true, decide_eq_true_eq, failure?_eq_some,
    PassError.isIllTyped_iff] at h
  obtain ⟨⟨hbefore, hprepared⟩, _, hfails, x, rfl⟩ := h
  obtain ⟨⟨changed, q⟩, hprepared, rfl, hafter⟩ := hprepared
  exact ⟨p, q, _, _, x, hp, hbefore, Prod.ext (toOption_eq_some.mp hprepared) rfl, hafter, Prod.ext hfails rfl⟩

end Program

end LoopLanes
