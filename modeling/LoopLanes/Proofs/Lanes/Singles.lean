/-
Temporaries that hold single values.

A temporary holds one value, or one per lane.  Lanes come from vector instructions; an instruction that
reads lanes computes lanes, and a phi passes them on.  So where a set of temporaries has whatever a vector
instruction defines, and nothing else is computed from it but by folding, every other temporary holds a single
value throughout every run (`Func.Stands.singleBut`).

* `Func.Stands` — where control stands in a run of a function, and with which frame;
* `Block.Confined` — what keeps lanes within a set of temporaries;
* `Program.stands_of_runBlocks` — the states that a run comes through.
-/
import LoopLanes.Proofs.Lanes.Turns

namespace LoopLanes

/-- Instructions that fold lanes. -/
def Instr.isReduce : Instr → Bool
  | reduce .. => true
  | _ => false

/-- Whatever is not in a set of temporaries holds a single value, if any. -/
def Frame.SingleBut (fr : Frame) (wide : Temp → Prop) : Prop :=
  ∀ t ls, fr.lookup t = some ls → ¬ wide t → ∃ c, ls = [c]

/-- Lanes do not leave a set of temporaries through an instruction. -/
structure Instr.Confined (wide : Temp → Prop) (x : Instr) : Prop where
  vector : x.isVector = true → ∀ t, x.write = some t → wide t
  scalar : ∀ t, x.write = some t → ¬ wide t → x.isReduce = true ∨ ∀ u ∈ x.readTemps, ¬ wide u

/-- Lanes do not leave a set of temporaries through the code of a block. -/
structure Block.Confined (wide : Temp → Prop) (b : Block) : Prop where
  phis : ∀ p ∈ b.phis, ¬ wide p.target → ∀ t ∈ (Instr.phi p).readTemps, ¬ wide t
  instrs : ∀ x ∈ b.instrs, x.Confined wide

/-- Where control stands in a run of a function: the block, the instructions of it that are still to come,
and the frame.  Calls may answer anything, and the machine may be in any state. -/
inductive Func.Stands (f : Func) : Block → List Instr → Frame → Prop
  | start (args : List Cell) : Stands f f.entry f.entry.instrs (Program.frameOf f args)
  | exec {b : Block} {x : Instr} {xs : List Instr} {fr fr' : Frame} {call : Caller} {m m' : Machine}
    (before : Stands f b (x :: xs) fr) (runs : Gives (x.exec call fr) m fr' m') : Stands f b xs fr'
  | jump {b c : Block} {fr fr' : Frame} {l : Label} (before : Stands f b [] fr)
    (leaves : b.leave fr = .ok (.jump l)) (next : f.labelled? l = some c)
    (enters : c.enter fr (some b.label) = .ok fr') : Stands f c c.instrs fr'

variable {f : Func} {wide : Temp → Prop} {b c : Block} {x : Instr} {xs : List Instr} {fr fr' : Frame} {t : Temp}
  {call : Caller} {m m' : Machine}

namespace Frame.SingleBut

theorem setEntry (h : fr.SingleBut wide) {ls : Lanes} (hls : ¬ wide t → ∃ c, ls = [c]) :
    Frame.SingleBut (setEntry t ls fr) wide := by
  intro u ls' hu hwide
  by_cases e : u = t
  · subst e
    rw [lookup_setEntry_self] at hu
    obtain rfl := Option.some.inj hu
    exact hls hwide
  · rw [lookup_setEntry_of_ne _ _ e] at hu
    exact h u ls' hu hwide

theorem foldl_setEntry {α : Type} (key : α → Temp) (val : α → Lanes) : ∀ {es : List α} {fr : Frame},
    fr.SingleBut wide → (∀ e ∈ es, ¬ wide (key e) → ∃ c, val e = [c]) →
      Frame.SingleBut (es.foldl (fun fr e => LoopLanes.setEntry (key e) (val e) fr) fr) wide := by
  intro es
  induction es with
  | nil => exact fun h _ => h
  | cons e es ih =>
    intro fr h hes
    obtain ⟨he, hes⟩ := List.forall_mem_cons.mp hes
    exact ih (h.setEntry he) hes

/-- The arguments of a call are single values. -/
theorem frameOf (f : Func) (args : List Cell) : (Program.frameOf f args).SingleBut wide := by
  refine foldl_setEntry Prod.fst (fun e => [e.2]) (fun t ls ht => ?_) fun e _ _ => ⟨e.2, rfl⟩
  cases ht

theorem read (h : fr.SingleBut wide) {v : Value} {ls : Lanes} (hread : fr.read v = .ok ls)
    (hv : ∀ u, v.temp? = some u → ¬ wide u) : ∃ c, ls = [c] := by
  cases v with
  | temp u =>
    cases hu : fr.lookup u with
    | none => simp [Frame.read, hu] at hread
    | some ls' =>
      simp only [Frame.read, hu, Except.ok.injEq] at hread
      exact hread ▸ h u ls' hu (hv u rfl)
  | int v => exact ⟨.int v, (Except.ok.inj hread).symm⟩
  | float v => exact ⟨.float v, (Except.ok.inj hread).symm⟩

theorem width_eq_one (h : fr.SingleBut wide) (ht : ¬ wide t) : fr.width t = 1 := by
  unfold Frame.width
  cases hls : fr.lookup t with
  | none => rfl
  | some ls =>
    obtain ⟨c, rfl⟩ := h t ls hls ht
    rfl

end Frame.SingleBut

/-! ### What is computed -/

theorem length_of_execLanes {width : Nat} {active : Nat → Bool} {ls : Lanes}
    (h : Gives (Instr.execLanes call fr x width active) m ls m') : ls.length = width := by
  have hlength : ∀ {ks : List Nat} {ls : Lanes} {m m' : Machine}, Gives (ks.mapM fun lane => do
      if active lane then return (← Instr.execLane call fr lane x).getD default else return default) m ls m' →
        ls.length = ks.length := by
    intro ks
    induction ks with
    | nil =>
      intro ls m m' h
      obtain ⟨rfl, -⟩ := gives_pure.mp h
      rfl
    | cons k ks ih =>
      intro ls m m' h
      rw [List.mapM_cons] at h
      obtain ⟨c, m₁, -, h⟩ := gives_bind.mp h
      obtain ⟨cs, m₂, hcs, h⟩ := gives_bind.mp h
      rw [← (gives_pure.mp h).1, List.length_cons, List.length_cons, ih hcs]
  rw [hlength h, List.length_range]

theorem Instr.lanes_of_scalar (hvector : x.isVector = false) (hreduce : x.isReduce = false) :
    x.lanes call fr = execLanes call fr x (widest fr x) fun _ => true := by
  cases x
  case vec => cases hvector
  case ladder => cases hvector
  case buildVec => cases hvector
  case reduce => cases hreduce
  all_goals rfl

/-- An instruction outside of the set computes a single value. -/
theorem Instr.Confined.single (hx : x.Confined wide) (h : fr.SingleBut wide) (hw : x.write = some t)
    (ht : ¬ wide t) {ls : Lanes} (hls : Gives (x.lanes call fr) m ls m') : ∃ c, ls = [c] := by
  have hscalar : x.isVector = false := by
    by_contra hvector
    exact ht (hx.vector (by simpa using hvector) t hw)
  cases hreduce : x.isReduce with
  | true =>
    cases x with
    | reduce u op ty vector width =>
      obtain ⟨c, _, -, h⟩ := gives_bind.mp hls
      exact ⟨c, (gives_pure.mp h).1.symm⟩
    | _ => cases hreduce
  | false =>
    -- as many values as the widest operand has
    have hreads := (hx.scalar t hw ht).resolve_left (by simp [hreduce])
    have hone : widest fr x = 1 := widest_eq_one fun u hu => h.width_eq_one (hreads u hu)
    rw [lanes_of_scalar hscalar hreduce, hone] at hls
    exact List.length_eq_one_iff.mp (length_of_execLanes hls)

theorem Instr.Confined.exec (hx : x.Confined wide) (h : fr.SingleBut wide)
    (hrun : Gives (x.exec call fr) m fr' m') : fr'.SingleBut wide := by
  obtain ⟨ls, _, hls, hrun⟩ := gives_bind.mp hrun
  cases hw : x.write with
  | none =>
    rw [hw] at hrun
    rw [← (gives_pure.mp hrun).1]
    exact h
  | some t =>
    rw [hw] at hrun
    rw [← (gives_pure.mp hrun).1]
    exact h.setEntry fun ht => hx.single h hw ht hls

theorem Block.Confined.enter (hb : b.Confined wide) (h : fr.SingleBut wide) {l : Label}
    (hrun : b.enter fr (some l) = .ok fr') : fr'.SingleBut wide := by
  obtain ⟨vs, hvs, rfl⟩ := enter_eq_ok.mp hrun
  refine h.foldl_setEntry Prod.fst Prod.snd fun e he ht => ?_
  obtain ⟨p, hp, htarget, v, hv, hread⟩ := exists_of_forall₂ (phiValues_eq_ok.mp hvs) e he
  refine h.read hread fun u hu => hb.phis p hp (htarget ▸ ht) u ?_
  obtain ⟨o, ho, rfl⟩ := Option.map_eq_some_iff.mp hv
  exact Instr.mem_readTemps.mpr ⟨o.1, List.mem_map_of_mem (List.mem_of_find?_eq_some ho), hu⟩

/-! ### Runs -/

namespace Func.Stands

/-- What holds of the first block and is kept by jumps holds of all blocks that a run comes to. -/
theorem invariant {P : Block → Prop} (hentry : P f.entry)
    (hjump : ∀ b, P b → ∀ l ∈ b.targets, ∀ c, f.labelled? l = some c → P c) (h : f.Stands b xs fr) :
    P b ∧ xs <:+ b.instrs := by
  induction h with
  | start args => exact ⟨hentry, List.suffix_refl _⟩
  | exec _ _ ih => exact ⟨ih.1, (List.suffix_cons _ _).trans ih.2⟩
  | jump _ leaves next _ ih =>
    exact ⟨hjump _ ih.1 _ (Block.mem_targets_of_leave leaves) _ next, List.suffix_refl _⟩

/-- Lanes stay within the set throughout every run. -/
theorem singleBut {P : Block → Prop} (hentry : P f.entry)
    (hjump : ∀ b, P b → ∀ l ∈ b.targets, ∀ c, f.labelled? l = some c → P c) (hconfined : ∀ b, P b → b.Confined wide)
    (h : f.Stands b xs fr) : fr.SingleBut wide := by
  induction h with
  | start args => exact .frameOf f args
  | exec before runs ih =>
    obtain ⟨hb, hxs⟩ := before.invariant hentry hjump
    exact ((hconfined _ hb).instrs _ (hxs.subset List.mem_cons_self)).exec ih runs
  | jump before leaves next enters ih =>
    obtain ⟨hb, -⟩ := before.invariant hentry hjump
    exact (hconfined _ (hjump _ hb _ (Block.mem_targets_of_leave leaves) _ next)).enter ih enters

/-- The instructions of a block are executed one after the other. -/
theorem foldlM : ∀ {xs : List Instr} {fr : Frame} {m m' : Machine}, f.Stands b xs fr →
    Gives (xs.foldlM (fun fr x => do Exec.tick; x.exec call fr) fr) m fr' m' → f.Stands b [] fr' := by
  intro xs
  induction xs with
  | nil =>
    intro fr m m' h hrun
    rw [← (gives_pure.mp hrun).1]
    exact h
  | cons x xs ih =>
    intro fr m m' h hrun
    obtain ⟨mid, m₁, hx, hrun⟩ := gives_bind.mp hrun
    obtain ⟨_, _, -, hx⟩ := gives_bind.mp hx
    exact ih (.exec h hx) hrun

end Func.Stands

/-- A run that returns comes through such states, from the block where it starts to a block that returns. -/
theorem Program.stands_of_runBlocks (p : Program) : ∀ {fuel : Nat} {b : Block} {source : Option Label}
    {fr mid : Frame} {m m' : Machine} {v : Option Cell}, b.enter fr source = .ok mid → f.Stands b b.instrs mid →
    Gives (p.runBlocks fuel f b source fr) m v m' →
      ∃ c out, f.Stands c [] out ∧ c.leave out = .ok (.ret v) := by
  intro fuel
  -- the block that is run and the frame at its entrance vary with the fuel
  induction fuel with
  | zero => exact fun _ _ h => absurd h not_gives_throw
  | succ fuel ih =>
    intro b source fr mid m m' v henter hb h
    obtain ⟨mid', m₁, hlift, h⟩ := gives_bind.mp h
    obtain ⟨hmid, rfl⟩ := gives_mk_pure.mp hlift
    obtain rfl : mid = mid' := Except.ok.inj (henter.symm.trans hmid)
    obtain ⟨out, m₂, hbody, h⟩ := gives_bind.mp h
    have hout := hb.foldlM hbody
    obtain ⟨_, m₃, -, h⟩ := gives_bind.mp h
    obtain ⟨leaving, m₄, hlift, h⟩ := gives_bind.mp h
    have hleave := (gives_mk_pure.mp hlift).1
    cases leaving with
    | ret w =>
      obtain ⟨rfl, -⟩ := gives_pure.mp h
      exact ⟨b, out, hout, hleave⟩
    | jump l =>
      dsimp only at h
      split at h
      · exact absurd h not_gives_throw
      · rename_i c hc
        cases henters : c.enter out (some b.label) with
        | error e =>
          -- the run would end in the next block
          cases fuel with
          | zero => exact absurd h not_gives_throw
          | succ fuel =>
            obtain ⟨_, _, hlift, -⟩ := gives_bind.mp h
            have hlift := (gives_mk_pure.mp hlift).1
            rw [henters] at hlift
            cases hlift
        | ok entered => exact ih henters (.jump hout hleave hc henters) h

end LoopLanes
