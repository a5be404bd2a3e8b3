/-
Verified code runs without accidents.

A run of a verified function keeps one invariant: every temporary that was defined on all paths to
the place where the run stands has a value (`Func.DefinedAt`).  Entering a block keeps it because
what dominates a block dominates the predecessor that the run came from, an instruction because
what it reads was defined before it.  So no run meets an undefined temporary, a block that is not
there, a missing terminator or a phi without an entry for its edge (`Program.run_verified`).

The first block is the exception: it is entered without an edge, and its phis are not set.
Verification accepts phis in a first block that has predecessors, and then the promise fails
(`Program.run_startingInLoop`).
-/
import LoopLanes.Proofs.Cfg.WellFormed
import LoopLanes.Proofs.Lanes.Endings
import LoopLanes.Proofs.Lanes.Rounds
import LoopLanes.Proofs.Text.Spelling

namespace LoopLanes

/-! ### Definitions along an edge -/

namespace Func

variable {f : Func} {b c : Block} {t : Temp} {pos pos' : Nat}

theorem DefinedAt.mono (h : f.DefinedAt t b pos) (hle : ∀ k < pos, k < b.instrs.length → k < pos') :
    f.DefinedAt t b pos' := by
  refine h.imp_right (Or.imp_left fun h => Block.mem_writesBefore.mpr ?_)
  refine (Block.mem_writesBefore.mp h).imp_right ?_
  rintro ⟨k, x, hx, hw, hlt⟩
  exact ⟨k, x, hx, hw, hle k hlt (List.getElem?_eq_some_iff.mp hx).1⟩

/-- An instruction adds what it writes. -/
theorem DefinedAt.step {x : Instr} (hx : b.instrs[pos]? = some x)
    (h : f.DefinedAt t b (pos + 1)) : f.DefinedAt t b pos ∨ x.write = some t := by
  rcases h with h | h | h
  · exact .inl (.inl h)
  · rcases Block.mem_writesBefore.mp h with h | ⟨k, y, hy, hw, hlt⟩
    · exact .inl (.inr (.inl (Block.mem_writesBefore.mpr (.inl h))))
    · by_cases e : k = pos
      · subst e
        obtain rfl : x = y := Option.some.inj (hx.symm.trans hy)
        exact .inr hw
      · have hk : k < pos := by omega
        exact .inl (.inr (.inl (Block.mem_writesBefore.mpr (.inr ⟨k, y, hy, hw, hk⟩))))
  · exact .inl (.inr (.inr h))

/-- What is defined at the start of a block is set by its phis or was defined at the end of the
predecessor. -/
theorem DefinedAt.of_edge (hnodup : (f.blocks.map Block.id).Nodup) (hc : c ∈ f.blocks)
    (hedge : (f.flow false).edge c.id b.id) (h : f.DefinedAt t b 0) :
    t ∈ b.phis.map (·.target) ∨ f.DefinedAt t c c.instrs.length := by
  rcases h with h | h | ⟨d, hd, ne, ht, hpath⟩
  · exact .inr (.inl h)
  · rcases Block.mem_writesBefore.mp h with h | ⟨k, x, -, -, hlt⟩
    · exact .inl h
    · omega
  · right
    by_cases e : d.id = c.id
    · obtain rfl := eq_of_id_eq hnodup hd hc e
      exact .inr (.inl (d.writesBefore_length ▸ ht))
    · refine .inr (.inr ⟨d, hd, e, ht, fun vs hvs => ?_⟩)
      exact (List.mem_cons.mp (hpath _ (hvs.step hedge))).resolve_left ne

/-- Where the function starts, only its parameters are defined. -/
theorem DefinedAt.of_entry (hne : f.blocks ≠ []) (hphis : f.entry.phis = [])
    (h : f.DefinedAt t f.entry 0) : t ∈ f.params := by
  rcases h with h | h | ⟨d, -, ne, -, hpath⟩
  · exact h
  · rcases Block.mem_writesBefore.mp h with h | ⟨k, x, -, -, hlt⟩
    · simp [hphis] at h
    · omega
  · exact absurd (List.mem_singleton.mp (hpath _ (.root (root_entry hne)))) ne

end Func

/-! ### Steps of a run -/

section Steps

variable {f : Func} {b c : Block} {fr : Frame} {call : Caller} {P : Temp → Prop}

theorem holds_foldl_setEntry : ∀ {es : List (Temp × Lanes)} {fr : Frame} {P : Temp → Prop},
    fr.Holds P → (∀ e ∈ es, ∃ c, e.2 = [c]) →
      Frame.Holds (es.foldl (fun fr e => setEntry e.1 e.2 fr) fr) fun t => P t ∨ t ∈ es.map (·.1) := by
  intro es
  induction es with
  | nil => exact fun h _ => h.mono fun t ht => ht.resolve_right List.not_mem_nil
  | cons e es ih =>
    intro fr P h hsingle
    obtain ⟨⟨c, hc⟩, hes⟩ := List.forall_mem_cons.mp hsingle
    rw [List.foldl_cons, hc]
    refine (ih (h.setEntry e.1 c) hes).mono fun t ht => ?_
    rw [List.map_cons, List.mem_cons, ← or_assoc] at ht
    exact ht

/-- How a run comes to a block: from nowhere at the start, with the parameters set, or along an
edge, with all that was defined at the end of the predecessor. -/
def Func.Arrives (f : Func) (b : Block) (fr : Frame) : Option Label → Prop
  | none => b = f.entry ∧ fr.Holds (· ∈ f.params)
  | some l => ∃ c ∈ f.blocks, c.label = l ∧ f.Reached c ∧ b.ref ∈ c.succ ∧
      fr.Holds fun t => f.DefinedAt t c c.instrs.length

/-- Phis that find single values take them in. -/
theorem exists_phiValues {l : Label}
    (h : ∀ p ∈ b.phis, ∃ v c, p.incoming? l = some v ∧ fr.read v = .ok [c]) :
    ∃ vs, b.phiValues fr l = .ok vs ∧ ∀ e ∈ vs, ∃ c, e.2 = [c] := by
  have key : ∀ ps : List Phi, (∀ p ∈ ps, ∃ v c, p.incoming? l = some v ∧ fr.read v = .ok [c]) →
      ∃ vs : List (Temp × Lanes), List.Forall₂ (fun p e => e.1 = p.target ∧
        ∃ v, p.incoming? l = some v ∧ fr.read v = .ok e.2) ps vs ∧ ∀ e ∈ vs, ∃ c, e.2 = [c] := by
    intro ps
    induction ps with
    | nil => exact fun _ => ⟨[], .nil, fun _ => nofun⟩
    | cons p ps ih =>
      intro h
      obtain ⟨⟨v, c, hv, hread⟩, hps⟩ := List.forall_mem_cons.mp h
      obtain ⟨vs, hvs, hsingle⟩ := ih hps
      exact ⟨(p.target, [c]) :: vs, .cons ⟨rfl, v, hv, hread⟩ hvs,
        List.forall_mem_cons.mpr ⟨⟨c, rfl⟩, hsingle⟩⟩
  obtain ⟨vs, hvs, hsingle⟩ := key b.phis h
  exact ⟨vs, Block.phiValues_eq_ok.mpr hvs, hsingle⟩

theorem edge_of_mem_succ (hb : b.ref ∈ c.succ) (hc : c ∈ f.blocks) :
    (f.flow false).edge c.id b.id :=
  ⟨c, hc, rfl, b.ref, hb, rfl⟩

/-- Along an edge, a phi finds its entry, and a single value in it. -/
theorem exists_incoming (hf : f.verify = .ok ()) (hs : f.Spelled) (hb : b ∈ f.blocks)
    (hc : c ∈ f.blocks) (hreach : f.Reached c) (hsucc : b.ref ∈ c.succ)
    (h : fr.Holds fun t => f.DefinedAt t c c.instrs.length) {p : Phi} (hp : p ∈ b.phis) :
    ∃ v d, p.incoming? c.label = some v ∧ fr.read v = .ok [d] := by
  have hwf := Func.wellFormed_of_verify hf
  have hprev : c.ref ∈ b.prev := (hwf.mutual_links c hc b hb).mp hsucc
  have hreached : f.Reached b := by
    obtain ⟨vs, hvs⟩ := hreach
    exact ⟨_, hvs.step (edge_of_mem_succ hsucc hc)⟩
  obtain ⟨hnodup, hlabels⟩ := hwf.phis b hb p hp
  obtain ⟨⟨v, l⟩, hmem, rfl⟩ := List.mem_map.mp ((hlabels c.label).mpr (List.mem_map_of_mem hprev))
  obtain ⟨d, hd⟩ := h.read (v := v) fun t ht => by
    cases v <;> cases ht
    refine hwf.incoming b hb hreached p hp c hc hprev hreach t hmem ?_
    refine (hs.blocks b hb).phis p hp t (List.mem_append_right _ ?_)
    exact List.mem_filterMap.mpr ⟨_, List.mem_map_of_mem hmem, rfl⟩
  exact ⟨v, d, Phi.incoming?_of_mem hnodup hmem, hd⟩

/-- Entering a block gives a value to whatever is defined at its start. -/
theorem ends_enter (hf : f.verify = .ok ()) (hs : f.Spelled) (hphis : f.entry.phis = [])
    (hb : b ∈ f.blocks) {source : Option Label} (h : f.Arrives b fr source) :
    Ends (Exec.lift (b.enter fr source)) fun fr' => fr'.Holds fun t => f.DefinedAt t b 0 := by
  cases source with
  | none =>
    obtain ⟨rfl, hparams⟩ := h
    refine ends_lift (fun fr' he => ?_) fun _ => nofun
    cases he
    exact hparams.mono fun t => Func.DefinedAt.of_entry hs.nonempty hphis
  | some l =>
    obtain ⟨c, hc, rfl, hreach, hsucc, hholds⟩ := h
    obtain ⟨vs, hvs, hsingle⟩ :=
      exists_phiValues fun p => exists_incoming hf hs hb hc hreach hsucc hholds
    have henter : b.enter fr (some c.label) = .ok (vs.foldl (fun fr e => setEntry e.1 e.2 fr) fr) :=
      Block.enter_eq_ok.mpr ⟨vs, hvs, rfl⟩
    rw [henter]
    refine ends_lift (fun fr' he => ?_) fun _ => nofun
    cases he
    refine (holds_foldl_setEntry hholds hsingle).mono fun t ht => ?_
    rw [Block.map_fst_of_phiValues hvs]
    exact (ht.of_edge (Func.wellLinked_of_verify hf).nodup hc (edge_of_mem_succ hsucc hc)).symm

/-- The first of the instructions from a position on, and those that follow it. -/
theorem getElem?_of_drop_eq_cons {x : Instr} {xs ys : List Instr} {pos : Nat}
    (h : ys.drop pos = x :: xs) : ys[pos]? = some x ∧ ys.drop (pos + 1) = xs := by
  refine ⟨?_, by rw [← List.tail_drop, h, List.tail_cons]⟩
  have := congrArg (·[0]?) h
  simpa [List.getElem?_drop] using this

/-- The instructions of a block from a position on: what is defined at their end has a value. -/
theorem ends_instrs (hf : f.verify = .ok ()) (hs : f.Spelled)
    (hcalls : ∀ x ∈ b.instrs, x.callsBuiltins = true)
    (hcall : ∀ name ∈ Builtin.names, ∀ args, Ends (call name args) fun _ => True)
    (hb : b ∈ f.blocks) (hreach : f.Reached b) : ∀ {xs : List Instr} {pos : Nat} {fr : Frame},
    b.instrs.drop pos = xs → (fr.Holds fun t => f.DefinedAt t b pos) →
      Ends (xs.foldlM (fun fr x => do Exec.tick; x.exec call fr) fr) fun fr' =>
        fr'.Holds fun t => f.DefinedAt t b b.instrs.length := by
  intro xs
  induction xs with
  | nil =>
    intro pos fr hdrop h
    have hlen : b.instrs.length ≤ pos := List.drop_eq_nil_iff.mp hdrop
    refine ends_pure (h.mono fun t ht => ht.mono ?_)
    intro k _ hk
    omega
  | cons x xs ih =>
    intro pos fr hdrop h
    obtain ⟨hx, hrest⟩ := getElem?_of_drop_eq_cons hdrop
    have hmem := List.mem_of_getElem? hx
    obtain ⟨hscalar, hlocal⟩ := (hs.blocks b hb).instrs x hmem
    have hreads : ∀ t ∈ x.readTemps, f.DefinedAt t b pos := by
      intro t ht
      refine (Func.wellFormed_of_verify hf).reads b hb hreach pos x ?_ t ht ?_
      · rw [List.getElem?_append_left (List.getElem?_eq_some_iff.mp hx).1]
        exact hx
      · exact hlocal t (List.mem_append_right _ ht)
    rw [List.foldlM_cons]
    refine ends_bind (P := fun fr' : Frame => fr'.Holds fun t => f.DefinedAt t b (pos + 1)) ?_ ?_
    · refine ends_bind ends_tick fun _ _ => ?_
      exact (Instr.ends_exec hscalar (hcalls x hmem) hcall h hreads).mono fun fr' h' =>
        h'.mono fun t ht => ht.step hx
    · exact fun fr' h' => ih hrest h'

/-- Leaving a block leads to a block along an edge, or ends the run. -/
theorem ends_leave (hf : f.verify = .ok ()) (hs : f.Spelled) (hb : b ∈ f.blocks)
    (hreach : f.Reached b) (h : fr.Holds fun t => f.DefinedAt t b b.instrs.length) :
    Ends (Exec.lift (b.leave fr)) fun l => ∀ target, l = .jump target → target ∈ b.targets := by
  obtain ⟨j, hj⟩ := Option.isSome_iff_exists.mp ((Func.wellFormed_of_verify hf).terminated b hb)
  obtain ⟨hexit, hlocal⟩ := (hs.blocks b hb).jump j hj
  have hread : ∀ v ∈ j.reads, FailsAtRunTime (fr.readUniform v) := by
    intro v hv
    refine h.fails_readUniform fun t ht => ?_
    have hmem : t ∈ j.readTemps := List.mem_filterMap.mpr ⟨v, hv, ht⟩
    refine (Func.wellFormed_of_verify hf).reads b hb hreach _ j ?_ t hmem
      (hlocal t (List.mem_append_right _ hmem))
    rw [hj, List.getElem?_append_right (Nat.le_refl _), Nat.sub_self]
    rfl
  have htargets : b.targets = j.targets := by rw [Block.targets, hj]; rfl
  rw [htargets]
  cases j <;> try cases hexit
  case jump l =>
    rw [Block.leave, hj]
    refine ends_lift (fun _ he => ?_) (fails_ok _)
    cases he
    rintro _ ⟨⟩
    exact List.mem_singleton.mpr rfl
  case branch ty cond l m =>
    rw [Block.leave, hj]
    refine ends_lift (fun _ he => ?_) (fails_map (hread cond (by simp [Instr.reads])))
    obtain ⟨c, -, rfl⟩ := map_eq_ok.mp he
    rintro _ ⟨⟩
    rw [Instr.targets]
    split <;> simp
  case ret value =>
    cases value with
    | none =>
      rw [Block.leave, hj]
      refine ends_lift (fun _ he => ?_) (fails_ok _)
      cases he
      rintro _ ⟨⟩
    | some v =>
      rw [Block.leave, hj]
      refine ends_lift (fun _ he => ?_) (fails_map (hread v (by simp [Instr.reads])))
      obtain ⟨c, -, rfl⟩ := map_eq_ok.mp he
      rintro _ ⟨⟩

/-- A target of a block is the label of a block that it has an edge to. -/
theorem exists_target (hf : f.WellLinked) (hb : b ∈ f.blocks) {l : Label} (hl : l ∈ b.targets) :
    ∃ c ∈ f.blocks, f.labelled? l = some c ∧ c.ref ∈ b.succ := by
  obtain ⟨j, hj, hlinks⟩ := hf.jump b hb
  have hl : l ∈ b.succ.map (·.label) := by
    rw [hlinks]
    simpa [Block.targets, hj] using hl
  obtain ⟨r, hr, rfl⟩ := List.mem_map.mp hl
  obtain ⟨c, hc, rfl, -⟩ := hf.succ b hb r hr
  exact ⟨c, hc, Func.labelled?_of_linked? hf.nodup (hf.linked? hc), hr⟩

end Steps

/-! ### Runs -/

/-- A function that calls nothing but builtin functions. -/
def Func.callsBuiltins (f : Func) : Bool := f.blocks.all (·.instrs.all Instr.callsBuiltins)

variable {p : Program} {f : Func}

/-- However long a run goes on from a block that it came to, it fails at run time only. -/
theorem Program.ends_runBlocks (hf : f.verify = .ok ()) (hs : f.Spelled)
    (hphis : f.entry.phis = []) (hcalls : f.callsBuiltins = true) :
    ∀ (fuel : Nat) {b : Block} {source : Option Label} {fr : Frame}, b ∈ f.blocks → f.Reached b →
      f.Arrives b fr source → Ends (p.runBlocks fuel f b source fr) fun _ => True := by
  intro fuel
  induction fuel with
  | zero => exact fun _ _ _ => ends_throw trivial
  | succ fuel ih =>
    intro b source fr hb hreach harrive
    have hcallsHere : ∀ x ∈ b.instrs, x.callsBuiltins = true := by
      have := List.all_eq_true.mp hcalls b hb
      exact List.all_eq_true.mp this
    rw [runBlocks]
    refine ends_bind (ends_enter hf hs hphis hb harrive) fun fr₁ h₁ => ?_
    refine ends_bind (ends_instrs hf hs hcallsHere ?_ hb hreach List.drop_zero h₁) fun fr₂ h₂ => ?_
    · intro name hname args
      rw [if_pos (List.contains_iff_mem.mpr hname)]
      exact Builtin.ends_call name args
    refine ends_bind ends_tick fun _ _ => ends_bind (ends_leave hf hs hb hreach h₂) fun l hl => ?_
    cases l with
    | ret v => exact ends_pure trivial
    | jump target =>
      obtain ⟨c, hc, hlabel, hsucc⟩ :=
        exists_target (Func.wellLinked_of_verify hf) hb (hl target rfl)
      simp only [hlabel]
      refine ih hc ?_ ⟨b, hb, rfl, hreach, hsucc, h₂⟩
      obtain ⟨vs, hvs⟩ := hreach
      exact ⟨_, hvs.step (edge_of_mem_succ hsucc hb)⟩

/-- A function starts with a value for each parameter if there are arguments enough. -/
theorem Program.holds_frameOf {args : List Cell} (h : f.params.length ≤ args.length) :
    (Program.frameOf f args).Holds (· ∈ f.params) := by
  have hfold : Program.frameOf f args = ((f.params.zip args).map fun e => (e.1, [e.2])).foldl
      (fun fr e => setEntry e.1 e.2 fr) [] := by
    rw [List.foldl_map]
    rfl
  have hnone : Frame.Holds [] fun _ => False := fun _ => nofun
  rw [hfold]
  refine (holds_foldl_setEntry hnone ?_).mono fun t ht => .inr ?_
  · intro e he
    obtain ⟨⟨t, c⟩, -, rfl⟩ := List.mem_map.mp he
    exact ⟨c, rfl⟩
  · rw [List.map_map]
    show t ∈ (f.params.zip args).map Prod.fst
    rw [List.map_fst_zip h]
    exact ht

/-- What a failure at run time is not. -/
theorem RunError.AtRunTime.ne {e : RunError} (h : e.AtRunTime) :
    (∀ t, e ≠ .undefinedTemp t) ∧ (∀ l, e ≠ .unknownBlock l) ∧
      (∀ b : Block, e ≠ .unsupported s!"{b.label.name} has no terminator") ∧
      ∀ (p : Phi) (l : Label), e ≠ .unsupported s!"{p.text} from {l.name}" := by
  refine ⟨?_, ?_, ?_, ?_⟩
  · rintro t rfl
    exact h
  · rintro l rfl
    exact h
  · rintro b rfl
    obtain ⟨name, -, e⟩ := h
    -- the two messages end differently
    have hlast := congrArg (fun s : String => s.toList.getLast?) e
    have hr : (toString " has no terminator").toList.getLast? = some 'r' := by decide +kernel
    have ht : (toString " without argument").toList.getLast? = some 't' := by decide +kernel
    simp [hr, ht] at hlast
  · rintro p l rfl
    obtain ⟨name, hname, e⟩ := h
    -- the name of a phi starts with a sign, that of a function does not
    have hsign : (toString p.text ++ toString " from " ++ toString l.name).toList.head? = some '@' ∨
        (toString p.text ++ toString " from " ++ toString l.name).toList.head? = some '%' := by
      cases hglobal : p.target.isGlobal <;> simp [Phi.text, Temp.text, hglobal, toString]
    have hnames : ∀ name ∈ Builtin.names,
        ¬ ((toString name ++ toString " without argument").toList.head? = some '@' ∨
          (toString name ++ toString " without argument").toList.head? = some '%') := by
      decide +kernel
    exact hnames name hname (e ▸ hsign)

/-- A run of a verified function that calls nothing but builtin functions and starts in a block
without phis meets no undefined temporary, no block that is not there, no missing terminator and no
phi without an entry for its edge. -/
theorem Program.run_verified {s : String} (hp : Program.parse s = .ok p) {name : String}
    (hfunc : p.func? name = some f) (hf : f.verify = .ok ()) (hcalls : f.callsBuiltins = true)
    (hphis : f.entry.phis = []) {args : List Cell} (hargs : f.params.length ≤ args.length)
    (m : Machine) {e : RunError} (h : ((p.run name args).run.run m).1 = .error e) :
    (∀ t, e ≠ .undefinedTemp t) ∧ (∀ l, e ≠ .unknownBlock l) ∧
      (∀ b : Block, e ≠ .unsupported s!"{b.label.name} has no terminator") ∧
      ∀ (q : Phi) (l : Label), e ≠ .unsupported s!"{q.text} from {l.name}" := by
  have hs : f.Spelled := Program.spelled_of_parse hp f (List.mem_of_find?_eq_some hfunc)
  have hends : Ends (p.run name args) fun _ => True := by
    unfold Program.run
    simp only [hfunc]
    refine ends_bind ends_get fun m' _ => ?_
    exact ends_runBlocks hf hs hphis hcalls _ (Func.entry_mem hs.nonempty)
      ⟨_, .root (Func.root_entry hs.nonempty)⟩ ⟨rfl, holds_frameOf hargs⟩
  exact ((hends m).2 e h).ne

/-- A function that divides by its argument. -/
def dividing : String :=
  "define i32 @f(i32 %n) \x7b\nentry:\n  %q = sdiv i32 1, %n\n  ret i32 %q\n\x7d\n"

/-- What was verified and calls nothing but builtin functions. -/
def Func.isRunnable (f : Func) : Bool := f.verify.toBool && f.callsBuiltins

theorem Func.isRunnable_iff : f.isRunnable = true ↔ f.verify = .ok () ∧ f.callsBuiltins = true := by
  rw [isRunnable, Bool.and_eq_true, toBool_eq_true]

set_option maxRecDepth 100000 in
/-- Called with zero, it fails for a reason of run time. -/
theorem Program.run_dividing : ∃ p e, Program.parse dividing = .ok p ∧
    ((p.run "f" [.int 0]).run.run Machine.start).1 = .error e ∧
    (∀ t, e ≠ .undefinedTemp t) ∧ (∀ l, e ≠ .unknownBlock l) ∧
      (∀ b : Block, e ≠ .unsupported s!"{b.label.name} has no terminator") ∧
      ∀ (q : Phi) (l : Label), e ≠ .unsupported s!"{q.text} from {l.name}" := by
  obtain ⟨p, hp, h⟩ := Program.exists_of_chars (s := dividing) (P := fun p =>
    (p.func? "f").any (fun f => f.isRunnable && f.entry.phis.isEmpty && f.params.length == 1) &&
      (failure? ((p.run "f" [.int 0]).run.run Machine.start).1).isSome)
    (by
      unfold dividing
      exact String.toList_ofList) (by decide +kernel)
  simp only [Bool.and_eq_true, Option.any_eq_true, List.isEmpty_iff, beq_iff_eq, Func.isRunnable_iff,
    Option.isSome_iff_exists, failure?_eq_some] at h
  obtain ⟨⟨f, hfunc, ⟨⟨hf, hcalls⟩, hphis⟩, hparams⟩, e, hrun⟩ := h
  have hargs : f.params.length ≤ [Cell.int 0].length := Nat.le_of_eq hparams
  exact ⟨p, e, hp, hrun, run_verified hp hfunc hf hcalls hphis hargs Machine.start hrun⟩

/-- A loop that the function starts in. -/
def startingInLoop : String :=
  "define i32 @f(i32 %n) \x7b\n" ++
  "entry:\n  %x = phi i32 [7, %B1]\n  br i32 %n, label %B1, label %B2\n" ++
  "B1:\n  br label %entry\nB2:\n  ret i32 %x\n\x7d\n"

set_option maxRecDepth 100000 in
/-- The first block is not entered along an edge, so its phi has no value at first, and yet
verification takes it for a definition. -/
theorem Program.run_startingInLoop : ∃ p f, Program.parse startingInLoop = .ok p ∧
    p.func? "f" = some f ∧ f.verify = .ok () ∧ f.callsBuiltins = true ∧ f.params.length = 1 ∧
    ((p.run "f" [.int 0]).run.run Machine.start).1 = .error (.undefinedTemp "%x") := by
  obtain ⟨p, hp, h⟩ := Program.exists_of_chars (s := startingInLoop) (P := fun p =>
    (p.func? "f").any (fun f => f.isRunnable && f.params.length == 1) &&
      failure? ((p.run "f" [.int 0]).run.run Machine.start).1 == some (.undefinedTemp "%x"))
    (by
      unfold startingInLoop
      repeat apply toList_append_of String.toList_ofList
      exact String.toList_ofList) (by decide +kernel)
  simp only [Bool.and_eq_true, Option.any_eq_true, beq_iff_eq, Func.isRunnable_iff,
    failure?_eq_some] at h
  obtain ⟨⟨f, hfunc, ⟨hf, hcalls⟩, hparams⟩, hrun⟩ := h
  exact ⟨p, f, hp, hfunc, hf, hcalls, hparams, hrun⟩

end LoopLanes
