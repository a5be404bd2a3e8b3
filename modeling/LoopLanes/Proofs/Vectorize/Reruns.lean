/-
Running again.

A loop that does not pass the gate is refused before anything is done to it.  Where no loop of a
program passes, a run changes nothing, and neither does any run after it
(`Program.vectorizeTimes_of_settled`).

A run marks the loop that it vectorizes and what is left of it, and takes their wishes away.  It does
not look at the loops inside: they keep what they wished for, and the next run, which passes over the
marked loop and goes on inside, vectorizes them (`Program.rerun_of_wishing`).
-/
import LoopLanes.Proofs.Vectorize.Visits

namespace LoopLanes

variable {α β : Type}

/-! ### Refusals -/

/-- No loop of a function passes the gate. -/
def Func.isSettled (f : Func) : Bool := f.forest.loops.all fun l => !(l.gate f f.forest).toBool

/-- No loop of a program passes the gate. -/
def Program.isSettled (p : Program) : Bool := p.funcs.all Func.isSettled

/-- Two states between which loops were skipped, and nothing else was done. -/
def RunState.Skips (s s' : RunState) : Prop :=
  ∃ es os, s' = { s with events := s.events ++ es, outcomes := s.outcomes ++ os } ∧
    ∀ o ∈ os, ∃ r, o.2.2 = LoopOutcome.skipped r

namespace RunState.Skips

variable {s s₁ s' : RunState}

theorem refl (s : RunState) : s.Skips s := ⟨[], [], by simp, fun _ => nofun⟩

theorem trans (h : s.Skips s₁) (h' : s₁.Skips s') : s.Skips s' := by
  obtain ⟨es, os, rfl, hos⟩ := h
  obtain ⟨es', os', rfl, hos'⟩ := h'
  refine ⟨es ++ es', os ++ os', by simp, fun o ho => ?_⟩
  exact (List.mem_append.mp ho).elim (hos o) (hos' o)

end RunState.Skips

namespace Pass

/-- A part of a run that answers `a`, whatever the state, and skips loops at most. -/
def Refuses (x : Pass α) (a : α) : Prop := ∀ s, ∃ s', Gives x s a s' ∧ s.Skips s'

theorem refuses_pure (a : α) : Refuses (pure a) a :=
  fun s => ⟨s, gives_pure.mpr ⟨rfl, rfl⟩, .refl s⟩

theorem Refuses.bind {x : Pass α} {a : α} {g : α → Pass β} {b : β} (hx : Refuses x a)
    (hg : Refuses (g a) b) : Refuses (x >>= g) b := by
  intro s
  obtain ⟨s₁, h, hskips⟩ := hx s
  obtain ⟨s', h', hskips'⟩ := hg s₁
  exact ⟨s', gives_bind.mpr ⟨a, s₁, h, h'⟩, hskips.trans hskips'⟩

/-- What depends on the state, too. -/
theorem refuses_get_bind {g : RunState → Pass β} {b : β} (hg : ∀ s, Refuses (g s) b) :
    Refuses (get >>= g) b := by
  intro s
  obtain ⟨s', h, hskips⟩ := hg s s
  exact ⟨s', gives_bind.mpr ⟨s, s, gives_get.mpr ⟨rfl, rfl⟩, h⟩, hskips⟩

theorem refuses_tell (e : Event) : Refuses (tell e) () :=
  fun s => ⟨_, gives_modify.mpr rfl, [e], [], by simp, fun _ => nofun⟩

theorem refuses_log (level : LogLevel) (text : String) : Refuses (log level text) () :=
  refuses_tell _

theorem refuses_diag (text : String) : Refuses (diag text) () := by
  refine refuses_get_bind fun s => ?_
  split
  · exact refuses_tell _
  · exact refuses_pure ()

theorem refuses_report (text : String) : Refuses (report text) () := by
  refine refuses_get_bind fun s => ?_
  split
  · exact refuses_tell _
  · exact refuses_log _ _

/-- Keeping a skipped loop. -/
theorem refuses_record (name : String) (header : Label) (reason : SkipReason) :
    Refuses (modify fun s : RunState =>
      { s with outcomes := s.outcomes ++ [(name, header, .skipped reason)] }) () := by
  refine fun s => ⟨_, gives_modify.mpr rfl, [], [(name, header, .skipped reason)], by simp,
    fun o ho => ⟨reason, ?_⟩⟩
  rw [List.mem_singleton.mp ho]

end Pass

theorem LoopForest.mem_of_withHeader? {t : LoopForest} {header : Int} {l : Loop}
    (h : t.withHeader? header = some l) : l ∈ t.loops := by
  obtain ⟨_, -, hl⟩ := Option.bind_eq_some_iff.mp (Option.filter_eq_some_iff.mp h).1
  exact List.mem_of_getElem? hl

namespace Work

open Pass

variable {w : Work} {t : LoopForest} {l : Loop} {e : SkipReason}

theorem refuses_visitLoop (h : l.gate w.func t = .error e) :
    Refuses (w.visitLoop t l) (.skipped e, w) := by
  unfold visitLoop
  refine (refuses_log _ _).bind ?_
  simp only [h]
  exact (refuses_diag _).bind (refuses_pure _)

/-- Loops tried one after the other, each of which is refused. -/
theorem refuses_foldlM {g : Work → Int → Pass (Bool × Work)} (hg : ∀ h, Refuses (g w h) (false, w)) :
    ∀ headers : List Int, Refuses (headers.foldlM (fun (changed, w) h => do
      let (c, w) ← g w h
      return (changed || c, w)) (false, w)) (false, w) := by
  intro headers
  induction headers with
  | nil => exact refuses_pure _
  | cons h headers ih =>
    rw [List.foldlM_cons]
    exact ((hg h).bind (refuses_pure _)).bind ih

theorem refuses_visit (hw : w.func.isSettled = true) :
    ∀ (fuel : Nat) (header : Int), Refuses (visit fuel w header) (false, w) := by
  intro fuel
  induction fuel with
  | zero => exact fun _ => refuses_pure _
  | succ fuel ih =>
    intro header
    unfold visit
    dsimp only
    split
    · exact refuses_pure _
    · rename_i l hl
      have hrefused := List.all_eq_true.mp hw l (LoopForest.mem_of_withHeader? hl)
      cases hgate : l.gate w.func w.func.forest with
      | ok g =>
        rw [hgate] at hrefused
        cases hrefused
      | error e =>
        refine (refuses_visitLoop hgate).bind ((refuses_record _ _ e).bind ?_)
        exact refuses_foldlM ih _

theorem refuses_run (hw : w.func.isSettled = true) : Refuses (run w) (false, w) := by
  unfold run
  refine (refuses_diag _).bind (refuses_get_bind fun s => ?_)
  have htry := refuses_foldlM (g := fun w => visit (w.func.blocks.length + 1) w) (refuses_visit hw _)
  extract_lets t headers
  split
  · exact (refuses_report _).bind (htry _)
  · exact htry _

end Work

namespace Program

open Pass

theorem refuses_vectorizeFuncs : ∀ {fs : List Func} (n : TempCounter),
    fs.all Func.isSettled = true → Refuses (vectorizeFuncs fs n) (false, fs, n) := by
  intro fs n
  induction fs with
  | nil => exact fun _ => refuses_pure _
  | cons f fs ih =>
    intro h
    rw [List.all_cons, Bool.and_eq_true] at h
    obtain ⟨hf, hfs⟩ := h
    rw [vectorizeFuncs]
    exact (Work.refuses_run (w := ⟨f, n⟩) hf).bind ((ih hfs).bind (refuses_pure _))

/-- A run over a program of which no loop passes the gate hands the program back. -/
theorem refuses_vectorize {p : Program} (h : p.isSettled = true) :
    Refuses p.vectorize (false, p) := by
  refine refuses_get_bind fun s => ?_
  split
  · exact (refuses_log _ _).bind (refuses_pure _)
  · exact (refuses_vectorizeFuncs _ h).bind (refuses_pure _)

/-- Where no loop of a program passes the gate, no number of runs changes anything: none of them
fails, each answers that nothing changed, and all that was tried was skipped. -/
theorem vectorizeTimes_of_settled {p : Program} (h : p.isSettled = true) (n : Nat) (s : RunState) :
    ∃ s', p.vectorizeTimes n s = (List.replicate n false, none, p, s') ∧ s.Skips s' := by
  induction n generalizing s with
  | zero => exact ⟨s, rfl, .refl s⟩
  | succ n ih =>
    obtain ⟨s₁, hrun, hskips⟩ := refuses_vectorize h s
    obtain ⟨s', hrest, hskips'⟩ := ih s₁
    refine ⟨s', ?_, hskips.trans hskips'⟩
    have hrun : p.vectorize.run.run s = (.ok (false, p), s₁) := hrun
    rw [vectorizeTimes, hrun]
    simp only [hrest]
    rfl

end Program

/-! ### A loop inside a loop -/

/-- The wish to be vectorized. -/
def wishing : Hints := Hints.empty.set HintKey.enable (some 1)

/-- A loop that wishes to be vectorized, around another one with hints of its own. -/
def surrounding (inner : Option Hints) : Func :=
  let i : Temp := .ofLocal "i" .i32
  let c : Temp := .ofLocal "c" .i32
  let j : Temp := .ofLocal "j" .i32
  let d : Temp := .ofLocal "d" .i32
  let q : Temp := .ofLocal "q" .i32
  let p : Temp := .ofLocal "p" .i32
  { total := 6
    name := "f"
    retTy := .void
    params := []
    blocks := [
      { Block.ofId 0 with succ := [.last 1], jump := some (.jump (.ofBlock 1)) },
      { Block.ofId 1 with
        prev := [.last 0, .last 5]
        succ := [.last 2, .last 6]
        phis := [.ofTarget i [(.int 0, .ofBlock 0), (.temp p, .ofBlock 5)]]
        instrs := [.comp c .icmp .slt .i32 (.temp i) (.int 4)]
        jump := some (.branch .i32 (.temp c) (.ofBlock 2) (.ofBlock 6)) },
      { Block.ofId 2 with
        prev := [.last 1]
        succ := [.last 3]
        jump := some (.jump (.ofBlock 3)) },
      { Block.ofId 3 with
        prev := [.last 2, .last 4]
        succ := [.last 4, .last 5]
        phis := [.ofTarget j [(.int 0, .ofBlock 2), (.temp q, .ofBlock 4)]]
        instrs := [.comp d .icmp .slt .i32 (.temp j) (.int 4)]
        jump := some (.branch .i32 (.temp d) (.ofBlock 4) (.ofBlock 5)) },
      { Block.ofId 4 with
        prev := [.last 3]
        succ := [.last 3]
        instrs := [.arith q .add .i32 (.temp j) (.int 1)]
        jump := some (.jump (.ofBlock 3))
        hints := inner },
      { Block.ofId 5 with
        prev := [.last 3]
        succ := [.last 1]
        instrs := [.arith p .add .i32 (.temp i) (.int 1)]
        jump := some (.jump (.ofBlock 1))
        hints := some wishing },
      { Block.ofId 6 with prev := [.last 1], jump := some (.ret none) }] }

/-- Settings that force two lanes. -/
def twoLanes : Config := { Config.standard with forceWidth := some 2 }

namespace Program

/-- Where the inner loop has no wish, one run settles the program. -/
theorem settled_surrounding : ∃ (q : Program) (s s' : RunState),
    Gives (vectorize ⟨[surrounding none], 0⟩) (.ofConfig twoLanes) (true, q) s ∧
    q.isSettled = true ∧
    q.vectorizeTimes 2 (.ofConfig twoLanes) = ([false, false], none, q, s') ∧
    (RunState.ofConfig twoLanes).Skips s' := by
  obtain ⟨⟨changed, q⟩, s, hq, h⟩ := exists_gives_of_any (x := vectorize ⟨[surrounding none], 0⟩)
    (s := .ofConfig twoLanes) (fun r _ => r.1 && r.2.isSettled) (by decide +kernel)
  obtain ⟨rfl, hsettled⟩ := Bool.and_eq_true_iff.mp h
  obtain ⟨s', hs', hskips⟩ := vectorizeTimes_of_settled hsettled 2 (.ofConfig twoLanes)
  exact ⟨q, s, s', hq, hsettled, hs', hskips⟩

/-- Whether a run on `q` vectorizes the loop of block 3 and answers with another text. -/
def rewrites (q : Program) (r : Bool × Program) (s : RunState) : Bool :=
  r.1 && ("f", .ofBlock 3, .vectorized 2) ∈ s.outcomes && r.2.text != q.text

/-- Where the inner loop has a wish, it keeps it, and a second run vectorizes it. -/
theorem rerun_of_wishing : ∃ (q q' : Program) (s s' : RunState),
    (surrounding (some wishing)).verify = .ok () ∧
    Gives (vectorize ⟨[surrounding (some wishing)], 0⟩) (.ofConfig twoLanes) (true, q) s ∧
    Gives q.vectorize (.ofConfig twoLanes) (true, q') s' ∧
    ("f", .ofBlock 3, .vectorized 2) ∈ s'.outcomes ∧ q'.text ≠ q.text := by
  have hverify : (surrounding (some wishing)).verify.toBool = true := by decide +kernel
  obtain ⟨⟨changed, q⟩, s, hq, h⟩ := exists_gives_of_any (x := vectorize ⟨[surrounding (some wishing)], 0⟩)
    (s := .ofConfig twoLanes) (fun r _ => r.1 && (r.2.vectorize.run.run (.ofConfig twoLanes)).1.toOption.any
      (rewrites r.2 · (r.2.vectorize.run.run (.ofConfig twoLanes)).2)) (by decide +kernel)
  obtain ⟨rfl, h⟩ := Bool.and_eq_true_iff.mp h
  obtain ⟨⟨changed', q'⟩, s', hq', h⟩ := exists_gives_of_any (rewrites q) h
  simp only [rewrites, Bool.and_eq_true, decide_eq_true_eq, bne_iff_ne] at h
  obtain ⟨⟨rfl, houtcome⟩, htext⟩ := h
  exact ⟨q, q', s, s', toBool_eq_true.mp hverify, hq, hq', houtcome, htext⟩

end Program

end LoopLanes
