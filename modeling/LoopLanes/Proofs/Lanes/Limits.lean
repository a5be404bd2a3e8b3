/-
The limits of a run.

Blocks jump to each other and functions call each other without end, but all that goes around passes a step, and
after `maxSteps` of them the next one ends the run, through every activation.  What the run did to the machine
until then stands: the memory has its size, the output what was in it before.

* `KeepsLimits` — what a run leaves of the machine it started on, however it ends;
* `Program.runBlock` — one block of a run; who makes the calls and follows the jump is a parameter;
* `AgreeFrom` — computations that keep the limits, and do the same where so many steps have been made;
* `Program.agreeFrom_runBlock` — each block adds a step before it calls or jumps;
* **`Program.run_keepsLimits`** — runs of programs keep the limits, and end: from blocks within blocks as deep as
  there are steps left, the run never comes to what would follow.
-/
import LoopLanes.Proofs.Lanes.Renaming

namespace LoopLanes

/-! ### What a run leaves -/

/-- What a run that ends with `r` leaves of the machine it started on. -/
structure KeepsLimits {α : Type} (m : Machine) (r : Except RunError α) (m' : Machine) : Prop where
  /-- the count of steps never goes down -/
  steps : m.steps ≤ m'.steps
  /-- at most one step is made that is not allowed -/
  bound : m'.steps ≤ maxSteps + 1
  /-- it is the last thing that is done -/
  limit : m'.steps = maxSteps + 1 → r = .error (.stepLimit maxSteps)
  memory : m'.memory.size = m.memory.size
  output : m.output.toList <+: m'.output.toList

namespace KeepsLimits

variable {α β : Type} {m m₁ m' : Machine} {r : Except RunError α} {a : α} {e : RunError}

theorem refl (h : m.steps ≤ maxSteps) : KeepsLimits m r m where
  steps := Nat.le_refl _
  bound := Nat.le_succ_of_le h
  limit := fun he => by omega
  memory := rfl
  output := List.prefix_rfl

/-- With a result, there is no step too many. -/
theorem steps_le (h : KeepsLimits m (.ok a) m') : m'.steps ≤ maxSteps := by
  refine Nat.le_of_lt_succ (Nat.lt_of_le_of_ne h.bound fun he => ?_)
  cases h.limit he

theorem trans (h : KeepsLimits m (.ok a) m₁) {r : Except RunError β} (h' : KeepsLimits m₁ r m') :
    KeepsLimits m r m' where
  steps := Nat.le_trans h.steps h'.steps
  bound := h'.bound
  limit := h'.limit
  memory := h'.memory.trans h.memory
  output := h.output.trans h'.output

/-- A failure is one of all that surrounds it. -/
theorem error (h : KeepsLimits m (.error e : Except RunError α) m') :
    KeepsLimits m (.error e : Except RunError β) m' :=
  { h with limit := fun he => congrArg _ (Except.error.inj (h.limit he)) }

end KeepsLimits

/-! ### The machine -/

namespace Machine

variable {m m' : Machine}

/-- What is stored takes the place of what was there. -/
theorem keepsLimits_of_store {pointer value : Cell} (h : m.store pointer value = .ok m')
    (hm : m.steps ≤ maxSteps) : KeepsLimits m (.ok ()) m' := by
  obtain ⟨place, -, h⟩ := bind_eq_ok.mp h
  split at h
  · cases h
    exact { KeepsLimits.refl hm with memory := Array.size_setIfInBounds }
  · cases h

theorem keepsLimits_print (line : String) (hm : m.steps ≤ maxSteps) :
    KeepsLimits m (.ok ()) { m with output := m.output.push line } :=
  { KeepsLimits.refl hm with output := by rw [Array.toList_push]; exact List.prefix_append _ _ }

end Machine

theorem Exec.run_get_bind {α : Type} (g : Machine → Exec α) (m : Machine) :
    (get >>= g : Exec α).run.run m = (g m).run.run m := rfl

/-- A step: the count goes up, and the run ends if that was one too many. -/
theorem Exec.run_tick {m : Machine} (hm : m.steps ≤ maxSteps) :
    Exec.tick.run.run m =
      (if maxSteps < m.steps + 1 then .error (.stepLimit maxSteps) else .ok (), { m with steps := m.steps + 1 }) := by
  have hwrap : wrapU64 (m.steps + 1) = m.steps + 1 := wrapU64_of_lt (by unfold maxSteps at hm; omega)
  change ((if maxSteps < wrapU64 (m.steps + 1) then throw (.stepLimit maxSteps) else pure () : Exec Unit).run.run
    { m with steps := wrapU64 (m.steps + 1) }) = _
  rw [hwrap]
  split <;> rfl

theorem keepsLimits_tick {m : Machine} (hm : m.steps ≤ maxSteps) :
    KeepsLimits m (Exec.tick.run.run m).1 (Exec.tick.run.run m).2 := by
  rw [Exec.run_tick hm]
  refine { KeepsLimits.refl (r := .ok ()) hm with
    steps := Nat.le_succ _, bound := Nat.succ_le_succ hm, limit := fun he => ?_ }
  exact if_pos (Nat.lt_of_lt_of_eq (Nat.lt_succ_self _) he.symm)

/-! ### Computations that agree from a step on -/

/-- Where `s` steps have been made, and no more than are allowed, two computations leave the same machine and end
alike, within the limits. -/
def AgreeFrom (s : Nat) {α β : Type} (R : α → β → Prop) (x : Exec α) (y : Exec β) : Prop :=
  ∀ m : Machine, s ≤ m.steps → m.steps ≤ maxSteps → (y.run.run m).2 = (x.run.run m).2 ∧
    EndAlike Eq R (x.run.run m).1 (y.run.run m).1 ∧ KeepsLimits m (x.run.run m).1 (x.run.run m).2

section Rules

variable {α β γ δ : Type} {s s' : Nat} {R R' : α → β → Prop} {Q : γ → δ → Prop} {x : Exec α} {y : Exec β}

/-- Ends that are alike in all are the same. -/
theorem EndAlike.eq {r r' : Except RunError α} (h : EndAlike Eq Eq r r') : r = r' := by
  cases h with
  | ok h => rw [h]
  | error h => rw [h]

namespace AgreeFrom

/-- What agrees with itself is what keeps the limits. -/
theorem of_keepsLimits {x : Exec α} (h : ∀ m : Machine, m.steps ≤ maxSteps →
    KeepsLimits m (x.run.run m).1 (x.run.run m).2) : AgreeFrom s Eq x x :=
  fun m _ hm => ⟨rfl, .refl fun _ _ => rfl, h m hm⟩

theorem pure {a : α} {b : β} (h : R a b) : AgreeFrom s R (pure a) (pure b) :=
  fun _ _ hm => ⟨rfl, .ok h, .refl hm⟩

theorem lift (r : Except RunError α) : AgreeFrom s Eq (Exec.lift r) (Exec.lift r) :=
  of_keepsLimits fun _ hm => .refl hm

theorem throw (e : RunError) : AgreeFrom s (@Eq α) (throw e) (throw e) := lift (.error e)

theorem get : AgreeFrom s Eq (get : Exec Machine) get := of_keepsLimits fun _ hm => .refl hm

theorem print (line : String) : AgreeFrom s Eq (Exec.print line) (Exec.print line) :=
  of_keepsLimits fun _ hm => Machine.keepsLimits_print line hm

/-- Nothing is done where too many steps have been made. -/
theorem of_lt (h : maxSteps < s) : AgreeFrom s R x y :=
  fun _ hs hm => absurd (Nat.le_trans hs hm) (Nat.not_le_of_lt h)

theorem mono (h : AgreeFrom s R x y) (hR : ∀ a b, R a b → R' a b) : AgreeFrom s R' x y := by
  intro m hs hm
  obtain ⟨hsame, hends, hkeeps⟩ := h m hs hm
  exact ⟨hsame, hends.mono (fun _ _ he => he) hR, hkeeps⟩

/-- What comes second starts where the first has brought the steps to. -/
theorem bind_later {g : α → Exec γ} {g' : β → Exec δ} (h : AgreeFrom s R x y)
    (hlater : ∀ m : Machine, s ≤ m.steps → m.steps ≤ maxSteps → s' ≤ (x.run.run m).2.steps)
    (hg : ∀ a b, R a b → AgreeFrom s' Q (g a) (g' b)) : AgreeFrom s Q (x >>= g) (y >>= g') := by
  intro m hs hm
  change ((ExceptT.bindCont g' (y.run.run m).1).run (y.run.run m).2).2 =
      ((ExceptT.bindCont g (x.run.run m).1).run (x.run.run m).2).2 ∧
    EndAlike Eq Q ((ExceptT.bindCont g (x.run.run m).1).run (x.run.run m).2).1
      ((ExceptT.bindCont g' (y.run.run m).1).run (y.run.run m).2).1 ∧
    KeepsLimits m ((ExceptT.bindCont g (x.run.run m).1).run (x.run.run m).2).1
      ((ExceptT.bindCont g (x.run.run m).1).run (x.run.run m).2).2
  obtain ⟨hsame, hends, hkeeps⟩ := h m hs hm
  have hsteps := hlater m hs hm
  rw [hsame]
  generalize (x.run.run m).1 = r at hends hkeeps ⊢
  generalize (y.run.run m).1 = r' at hends ⊢
  generalize (x.run.run m).2 = m₁ at hkeeps hsteps ⊢
  cases hends with
  | ok hab =>
    obtain ⟨hsame', hends', hkeeps'⟩ := hg _ _ hab m₁ hsteps hkeeps.steps_le
    exact ⟨hsame', hends', hkeeps.trans hkeeps'⟩
  | error he => exact ⟨rfl, .error he, hkeeps.error⟩

theorem bind {g : α → Exec γ} {g' : β → Exec δ} (h : AgreeFrom s R x y)
    (hg : ∀ a b, R a b → AgreeFrom s Q (g a) (g' b)) : AgreeFrom s Q (x >>= g) (y >>= g') :=
  h.bind_later (fun m hs hm => Nat.le_trans hs (h m hs hm).2.2.steps) hg

/-- Where the results are the same, it goes on with the same. -/
theorem bind_eq {x y : Exec α} {g : α → Exec γ} {g' : α → Exec δ} (h : AgreeFrom s Eq x y)
    (hg : ∀ a, AgreeFrom s Q (g a) (g' a)) : AgreeFrom s Q (x >>= g) (y >>= g') :=
  h.bind fun a _ he => he ▸ hg a

theorem tick : AgreeFrom s Eq Exec.tick Exec.tick := of_keepsLimits fun _ hm => keepsLimits_tick hm

/-- What comes after a step starts where one step more has been made. -/
theorem tick_bind {g : Unit → Exec α} {g' : Unit → Exec β} (h : AgreeFrom (s + 1) R (g ()) (g' ())) :
    AgreeFrom s R (Exec.tick >>= g) (Exec.tick >>= g') := by
  refine tick.bind_later (fun m hs hm => ?_) fun _ _ _ => h
  rw [Exec.run_tick hm]
  exact Nat.succ_le_succ hs

theorem couples (s : Nat) : Couples (AgreeFrom s) := ⟨.pure, .bind, .mono⟩

end AgreeFrom

end Rules

/-! ### Instructions -/

section Instructions

variable {s : Nat} {call call' : Caller} {fr : Frame} {x : Instr} {b : Block}

namespace Builtin

theorem agreeFrom_arg (name : String) (args : List Cell) (i : Nat) :
    AgreeFrom s Eq (arg name args i) (arg name args i) := by
  unfold arg
  split
  · exact .pure rfl
  · exact .throw _

theorem agreeFrom_call (name : String) (args : List Cell) :
    AgreeFrom s Eq (Builtin.call name args) (Builtin.call name args) := by
  unfold Builtin.call
  split
  case h_5 => exact (AgreeFrom.throw (α := Unit) _).bind_eq fun _ => .pure rfl
  case h_4 =>
    refine (agreeFrom_arg _ args 0).bind_eq fun v => (AgreeFrom.lift _).bind_eq fun n => ?_
    refine (agreeFrom_arg _ args 1).bind_eq fun pointer => AgreeFrom.get.bind_eq fun m => ?_
    exact (AgreeFrom.lift _).bind_eq fun values => (AgreeFrom.print _).bind_eq fun _ => .pure rfl
  all_goals
    refine (agreeFrom_arg _ args 0).bind_eq fun v => (AgreeFrom.lift _).bind_eq fun n => ?_
    exact (AgreeFrom.print _).bind_eq fun _ => .pure rfl

end Builtin

namespace Instr

theorem agreeFrom_operand (k : Nat) (v : Value) : AgreeFrom s Eq (operand fr k v) (operand fr k v) := .lift _

theorem agreeFrom_store (pointer value : Cell) :
    AgreeFrom s Eq (do set (← Exec.lift ((← get).store pointer value)); return none : Exec (Option Cell))
      (do set (← Exec.lift ((← get).store pointer value)); return none) := by
  refine .of_keepsLimits fun m hm => ?_
  rw [Exec.run_get_bind]
  rcases hstore : m.store pointer value with e | m'
  · exact .refl hm
  · have hkeeps := Machine.keepsLimits_of_store hstore hm
    exact hkeeps.trans (.refl hkeeps.steps_le)

/-- A lane does the same, and keeps the limits, if the functions do that it calls. -/
theorem agreeFrom_execLane (hcall : ∀ name args, AgreeFrom s Eq (call name args) (call' name args)) (k : Nat) :
    AgreeFrom s Eq (execLane call fr k x) (execLane call' fr k x) := by
  cases x
  case arith | comp =>
    refine (agreeFrom_operand k _).bind_eq fun a => (agreeFrom_operand k _).bind_eq fun b => ?_
    exact (AgreeFrom.lift _).bind_eq fun _ => .pure rfl
  case select =>
    refine (agreeFrom_operand k _).bind_eq fun c => ?_
    split <;> exact (agreeFrom_operand k _).bind_eq fun _ => .pure rfl
  case load =>
    refine (agreeFrom_operand k _).bind_eq fun a => AgreeFrom.get.bind_eq fun m => ?_
    exact (AgreeFrom.lift _).bind_eq fun _ => .pure rfl
  case store =>
    exact (agreeFrom_operand k _).bind_eq fun a => (agreeFrom_operand k _).bind_eq fun v => agreeFrom_store a v
  case gep =>
    refine (agreeFrom_operand k _).bind_eq fun o => (AgreeFrom.lift _).bind_eq fun n => ?_
    exact (agreeFrom_operand k _).bind_eq fun a => (AgreeFrom.lift _).bind_eq fun _ => .pure rfl
  case call =>
    refine ((AgreeFrom.couples s).mapM_eq fun a _ => agreeFrom_operand k _).bind_eq fun as => ?_
    exact hcall _ as
  all_goals exact .throw _

theorem agreeFrom_execLanes (hcall : ∀ name args, AgreeFrom s Eq (call name args) (call' name args))
    (width : Nat) (active : Nat → Bool) :
    AgreeFrom s Eq (execLanes call fr x width active) (execLanes call' fr x width active) := by
  refine (AgreeFrom.couples s).mapM_eq fun k _ => ?_
  split
  · exact (agreeFrom_execLane hcall k).bind_eq fun _ => .pure rfl
  · exact .pure rfl

theorem agreeFrom_lanes (hcall : ∀ name args, AgreeFrom s Eq (call name args) (call' name args)) :
    AgreeFrom s Eq (lanes call fr x) (lanes call' fr x) := by
  cases x
  case vec width mask inner =>
    cases mask with
    | none => exact agreeFrom_execLanes hcall width _
    | some m => exact (AgreeFrom.lift _).bind_eq fun ls => agreeFrom_execLanes hcall width _
  case ladder | reduce => exact (AgreeFrom.lift _).bind_eq fun c => .lift _
  case buildVec => exact .lift _
  all_goals exact agreeFrom_execLanes hcall _ _

theorem agreeFrom_exec (hcall : ∀ name args, AgreeFrom s Eq (call name args) (call' name args)) :
    AgreeFrom s Eq (exec call fr x) (exec call' fr x) := by
  refine (agreeFrom_lanes hcall).bind_eq fun ls => ?_
  split <;> exact .pure rfl

end Instr

/-- The instructions of a block, which call where a step more has been made. -/
theorem Block.agreeFrom_execBody (hcall : ∀ name args, AgreeFrom (s + 1) Eq (call name args) (call' name args)) :
    AgreeFrom s Eq (b.execBody call fr) (b.execBody call' fr) :=
  (AgreeFrom.couples s).foldlM (fun _ _ _ _ he => he ▸ .tick_bind (Instr.agreeFrom_exec hcall)) rfl

end Instructions

/-! ### Runs -/

/-- What runs a function from a block on. -/
abbrev Runner := Func → Block → Option Label → Frame → Exec (Option Cell)

/-- What goes on where the fuel is used up. -/
def Runner.spent : Runner := fun _ _ _ _ => throw (.stepLimit maxSteps)

namespace Program

variable {p : Program} {s : Nat} {deeper deeper' : Runner}

/-- How calls are made where functions are run so. -/
def callerOf (p : Program) (deeper : Runner) : Caller := fun name args =>
  if Builtin.names.contains name then Builtin.call name args
  else
    match p.func? name with
    | none => throw (.unknownFunction name)
    | some g => deeper g g.entry none (frameOf g args)

/-- One block of a run; the functions it calls and the block it jumps to are left to `deeper`. -/
def runBlock (p : Program) (deeper : Runner) : Runner := fun f b source fr => do
  let fr ← Exec.lift (b.enter fr source)
  let fr ← b.execBody (p.callerOf deeper) fr
  Exec.tick
  match ← Exec.lift (b.leave fr) with
  | .ret v => return v
  | .jump l =>
    match f.labelled? l with
    | none => throw (.unknownBlock l.name)
    | some next => deeper f next (some b.label) fr

/-- A run is made of such blocks, one inside the other. -/
theorem runBlocks_eq_iterate (p : Program) (n : Nat) :
    p.runBlocks n = p.runBlock^[n] .spent := by
  induction n with
  | zero => rfl
  | succ n ih =>
    rw [Function.iterate_succ_apply', ← ih]
    rfl

theorem agreeFrom_callerOf (h : ∀ f b source fr, AgreeFrom s Eq (deeper f b source fr) (deeper' f b source fr))
    (name : String) (args : List Cell) :
    AgreeFrom s Eq (p.callerOf deeper name args) (p.callerOf deeper' name args) := by
  unfold callerOf
  split
  · exact Builtin.agreeFrom_call name args
  · split
    · exact .throw _
    · exact h _ _ _ _

/-- All that a block leaves to others comes after a step. -/
theorem agreeFrom_runBlock
    (h : ∀ f b source fr, AgreeFrom (s + 1) Eq (deeper f b source fr) (deeper' f b source fr)) (f : Func) (b : Block)
    (source : Option Label) (fr : Frame) :
    AgreeFrom s Eq (p.runBlock deeper f b source fr) (p.runBlock deeper' f b source fr) := by
  refine (AgreeFrom.lift _).bind_eq fun fr₁ => ?_
  refine (Block.agreeFrom_execBody (agreeFrom_callerOf h)).bind_eq fun fr₂ => .tick_bind ?_
  refine (AgreeFrom.lift _).bind_eq fun o => ?_
  split
  · exact .pure rfl
  · split
    · exact .throw _
    · exact h _ _ _ _

/-- Blocks within blocks have used up all steps before they come to what they are given. -/
theorem agreeFrom_iterate (p : Program) (deeper deeper' : Runner) : ∀ {n n' s : Nat}, maxSteps < s + n →
    maxSteps < s + n' → ∀ f b source fr,
      AgreeFrom s Eq ((p.runBlock^[n] deeper) f b source fr) ((p.runBlock^[n'] deeper') f b source fr)
  | 0, _, _, hn, _ => fun _ _ _ _ => .of_lt hn
  | _ + 1, 0, _, _, hn' => fun _ _ _ _ => .of_lt hn'
  | n + 1, n' + 1, s, hn, hn' => by
    rw [Function.iterate_succ_apply', Function.iterate_succ_apply']
    exact agreeFrom_runBlock (agreeFrom_iterate p deeper deeper' (s := s + 1) (by omega) (by omega))

/-- A run has as many blocks within blocks as there are steps left, and more. -/
theorem run_eq_iterate {p : Program} {name : String} {f : Func} (hfunc : p.func? name = some f) (args : List Cell)
    {m : Machine} (hm : m.steps ≤ maxSteps) : ∃ n, maxSteps < m.steps + n ∧ (p.run name args).run.run m =
      ((p.runBlock^[n] .spent) f f.entry none (frameOf f args)).run.run m := by
  have hwrap : wrapU64 (m.steps + 1) = m.steps + 1 := wrapU64_of_lt (by unfold maxSteps at hm; omega)
  refine ⟨maxSteps - wrapU64 (m.steps + 1) + 3, by omega, ?_⟩
  rw [← runBlocks_eq_iterate]
  unfold run
  rw [hfunc]
  exact Exec.run_get_bind _ m

/-- A run keeps the limits, whatever its program and however it ends.  It does end: made of blocks within blocks,
one more than there are steps left, it has this end and leaves this machine, whoever is to go on inside the
innermost of them. -/
theorem run_keepsLimits (p : Program) (name : String) (args : List Cell) {m : Machine} (hm : m.steps ≤ maxSteps) :
    ∃ r m', (p.run name args).run.run m = (r, m') ∧ KeepsLimits m r m' ∧
      ∀ f, p.func? name = some f → ∀ n, maxSteps < m.steps + n → ∀ deeper : Runner,
        ((p.runBlock^[n] deeper) f f.entry none (frameOf f args)).run.run m = (r, m') := by
  cases hfunc : p.func? name with
  | none =>
    refine ⟨.error (.unknownFunction name), m, ?_, .refl hm, fun f hf => nomatch hf⟩
    unfold run
    rw [hfunc]
    rfl
  | some f =>
    obtain ⟨n, hn, hrun⟩ := run_eq_iterate hfunc args hm
    rw [hrun]
    refine ⟨_, _, Prod.mk.eta.symm, ?_, ?_⟩
    · exact (p.agreeFrom_iterate .spent .spent hn hn f f.entry none (frameOf f args) m (Nat.le_refl _) hm).2.2
    · rintro _ ⟨⟩ n' hn' deeper
      obtain ⟨hsame, hends, -⟩ :=
        p.agreeFrom_iterate .spent deeper hn hn' f f.entry none (frameOf f args) m (Nat.le_refl _) hm
      exact Prod.ext hends.eq.symm hsame

end Program

/-! ### A run that does not end by itself -/

/-- Prints a number, and calls itself for two lanes at once. -/
def descent : Func where
  total := 0
  name := "f"
  retTy := .i32
  params := []
  blocks := [{ Block.ofId 0 with
    instrs := [
      .call (.ofLocal "x" .void) .void "putint" [(.i32, .int 1)],
      .vec 2 none (.call (.ofLocal "y" .i32) .i32 "f" [])]
    jump := some (.ret (some (.int 0))) }]

/-- A machine on which three steps may be made. -/
def Machine.late : Machine := ⟨#[.int 7], #["before"], maxSteps - 3⟩

/-- Two calls deep it comes to the limit.  What was printed until then stands, and no more than four blocks were
one inside the other. -/
theorem Program.run_keepsLimits_of_descent : ∃ m',
    ((Program.mk [descent] 0).run "f" []).run.run .late = (.error (.stepLimit maxSteps), m') ∧
      KeepsLimits .late (.error (.stepLimit maxSteps) : Except _ (Option Cell)) m' ∧
      m'.steps = maxSteps + 1 ∧ m'.output = #["before", "1", "1"] ∧
      ∀ deeper, (((Program.mk [descent] 0).runBlock^[4] deeper) descent descent.entry none []).run.run .late =
        (.error (.stepLimit maxSteps), m') := by
  obtain ⟨r, m', hrun, hkeeps, hends⟩ := Program.run_keepsLimits ⟨[descent], 0⟩ "f" [] (m := .late) (by decide)
  have hcheck : (((Program.mk [descent] 0).run "f" []).run.run .late).1 = .error (.stepLimit maxSteps) ∧
      (((Program.mk [descent] 0).run "f" []).run.run .late).2.steps = maxSteps + 1 ∧
      (((Program.mk [descent] 0).run "f" []).run.run .late).2.output = #["before", "1", "1"] := by
    decide +kernel
  rw [hrun] at hcheck
  obtain ⟨rfl, hsteps, houtput⟩ := hcheck
  exact ⟨m', hrun, hkeeps, hsteps, houtput, hends descent (by decide) 4 (by decide)⟩

end LoopLanes
