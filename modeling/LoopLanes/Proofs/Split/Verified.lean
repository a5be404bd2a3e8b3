/-
A split leaves its function verified.

The copy of the loop becomes the main loop by what is put in where it ends its blocks: the guard computes a
bound, the copy of the header tests it, and the copy of the latch makes the scaled steps.  None of this leads
anywhere else, so the function stays formed by its jumps.

* `Detour.grows_tested` — the bound and its test are put in;
* `Detour.stepping` — the copies of the header and of the latch can take the steps;
* `Detour.placed_eq` — what a commit places is the function with the copy, so changed;
* `verify_commit` — so a plan for a loop that is entered apart is put in, and the function is verified again.
-/
import LoopLanes.Proofs.Split.Formed

namespace LoopLanes

namespace SplitPlan

namespace Detour

variable {f : Func} {l : Loop} {a : LoopAnatomy} {lanes : Int} {updates : List StrideUpdate}
  {n n' : TempCounter} {s : SplitParts} {x : Choice} {b c d : Block} {t : Temp} {pos : Nat}

/-! ### The test of the main loop -/

/-- The exit test of the main loop. -/
def comparison (a : LoopAnatomy) (x : Choice) : Instr :=
  .comp x.cond .icmp x.op .i32 (.temp (x.clone.temp a.induction.indvar)) x.bound

/-- What the guard and the copy of the header are given. -/
def testing (f : Func) (a : LoopAnatomy) (x : Choice) (b : Block) : List Instr :=
  (if b.id = Choice.guardId f then x.guardInstrs else []) ++ if b.id = x.header then [comparison a x] else []

/-- A block, once the guard computes a bound and the copy of the header tests it. -/
def tested (f : Func) (l : Loop) (a : LoopAnatomy) (x : Choice) (b : Block) : Block :=
  { b with
    instrs := b.instrs ++ testing f a x b
    jump := if b.id = x.header then some (.branch .i32 (.temp x.cond) (Label.ofBlock x.body)
      (Label.ofBlock (Choice.joiningId f f.forest l))) else b.jump }

section Tests

theorem guard_ne_header (h : Detour f l a lanes updates n s n' x) : Choice.guardId f ≠ x.header := by
  rw [h.header_eq, ← h.header_id]
  exact Int.ne_of_lt (h.copyId_spec h.header_mem_blocks).2.1

theorem headerCopy_id (h : Detour f l a lanes updates n s n' x) :
    ((x.names f f.forest l a).copy a.header).id = x.header := by
  rw [h.header_eq, ← h.header_id]
  rfl

theorem testing_guard (h : Detour f l a lanes updates n s n' x) : testing f a x (x.plainGuard f) = x.guardInstrs := by
  have hid : (x.plainGuard f).id = Choice.guardId f := rfl
  rw [testing, if_pos hid, if_neg (hid ▸ h.guard_ne_header), List.append_nil]

theorem testing_header (h : Detour f l a lanes updates n s n' x) (hb : b.id = x.header) :
    testing f a x b = [comparison a x] := by
  rw [testing, if_neg (hb ▸ h.guard_ne_header.symm), if_pos hb, List.nil_append]

theorem testing_of_ne (hguard : b.id ≠ Choice.guardId f) (hheader : b.id ≠ x.header) : testing f a x b = [] := by
  rw [testing, if_neg hguard, if_neg hheader, List.nil_append]

/-- The body of the main loop starts with the copy of the block that the body starts with. -/
theorem exists_body (h : Detour f l a lanes updates n s n' x) :
    ∃ b ∈ l.blocks f f.forest, b.id = a.bodyEntry ∧ x.copyId b.id = x.body := by
  obtain ⟨r, hr⟩ := h.found
  obtain ⟨b, hb, hlabel⟩ := h.linked.exists_target h.header_mem.1 (h.mem_targets_header.mpr (.inl rfl))
  have hid : b.id = a.bodyEntry := Label.ofBlock_injective hlabel
  refine ⟨b, Loop.mem_blocks.mpr ⟨hb, hid ▸ List.find?_some hr.bodyEntry⟩, hid, ?_⟩
  rw [hid, Choice.copyId, h.staged.body, Option.getD_some]

/-- The copy of the header goes on as its test does. -/
theorem mem_targets_headerCopy (h : Detour f l a lanes updates n s n' x) {k : Label} :
    k ∈ ((x.names f f.forest l a).copy a.header).targets ↔
      k = Label.ofBlock x.body ∨ k = Label.ofBlock (Choice.joiningId f f.forest l) := by
  obtain ⟨b, hb, hid, hbody⟩ := h.exists_body
  rw [h.mem_targets_copy h.header_mem_blocks, and_iff_right h.header_id]
  refine or_congr_left ⟨?_, ?_⟩
  · rintro ⟨c, hc, hl, rfl⟩
    rcases h.mem_targets_header.mp hl with e | e
    · rw [← hbody, hid, ← show c.id = a.bodyEntry from Label.ofBlock_injective e]
    · have hin := (Loop.mem_blocks.mp hc).2
      rw [show c.id = a.induction.exit from Label.ofBlock_injective e, h.not_contains_exit] at hin
      cases hin
  · rintro rfl
    exact ⟨b, hb, h.mem_targets_header.mpr (.inl (congrArg Label.ofBlock hid)), congrArg Label.ofBlock hbody.symm⟩

/-- The bound of the loop has its value in the guard. -/
theorem definedAlong_bound (h : Detour f l a lanes updates n s n' x) (ht : a.induction.bound = .temp t)
    (hlocal : t.isGlobal = false) :
    (func f l a s x).DefinedAlong (func f l a s x).jumpFlow t (x.plainGuard f) 0 := by
  obtain ⟨r, hr⟩ := h.found
  obtain ⟨op, ty, lhs, rhs, onTrue, -, -, -, hcomp, -, -, hturned⟩ := (hr.testedIn h.linked).1.test
  have hinvariant := (Induction.found_of_ofLoop? hr.induction).invariant t ht
  obtain ⟨hm, -⟩ := h.header_mem
  have hread : t ∈ (Instr.comp a.induction.cond .icmp op ty lhs rhs).readTemps := by
    refine List.mem_filterMap.mpr ⟨a.induction.bound, ?_, by rw [ht]; rfl⟩
    rcases hturned with ⟨-, e, -⟩ | ⟨-, e, -⟩
    · exact e ▸ List.mem_cons_of_mem _ (List.mem_singleton_self _)
    · exact e ▸ List.mem_cons_self
  have hreach : f.jumpFlow.Reaches a.header.id := by
    obtain ⟨ws, hway, -⟩ := h.exists_way_in
    exact h.header_id ▸ (hway.step h.edge_entering).reaches
  obtain ⟨k, hk⟩ := List.getElem?_of_mem (List.mem_append_left a.header.jump.toList hcomp)
  rcases h.formed.reads _ hm hreach k _ hk t hread hlocal with hp | hw | ⟨c, hc, hne, hw, hdom⟩
  · exact .inl hp
  · -- the loop does not change its bound
    exact absurd (List.mem_flatMap.mpr ⟨_, h.header_mem_blocks, Block.mem_writes_of_writesBefore hw⟩) hinvariant
  · refine (h.definedAlong_guard hc hw fun ws hway => ?_).2
    have := hdom _ (h.header_id ▸ hway.step h.edge_entering)
    exact (List.mem_cons.mp this).resolve_left (h.header_id ▸ hne)

theorem extends_tested : (func f l a s x).Extends (tested f l a x) (testing f a x) :=
  ⟨fun _ _ => rfl, fun _ _ => rfl, fun _ _ => rfl⟩

/-- What the test defines. -/
theorem perm_testing (h : Detour f l a lanes updates n s n' x) :
    ((func f l a s x).blocks.flatMap fun b => (testing f a x b).filterMap Instr.write).Perm
      (x.guardInstrs.filterMap Instr.write ++ [x.cond]) := by
  have hheader : (func f l a s x).blocks.flatMap (fun b => if b.id = x.header then [x.cond] else []) = [x.cond] := by
    rw [h.header_eq, ← h.header_id]
    exact flatMap_ite_of_nodup h.distinct (copy_mem h.header_mem_blocks) [x.cond]
  have hguard : (func f l a s x).blocks.flatMap (fun b => if b.id = Choice.guardId f
      then x.guardInstrs.filterMap Instr.write else []) = x.guardInstrs.filterMap Instr.write :=
    flatMap_ite_of_nodup h.distinct guard_mem _
  have hsplit : ((func f l a s x).blocks.flatMap fun b => (testing f a x b).filterMap Instr.write) =
      (func f l a s x).blocks.flatMap fun b => (if b.id = Choice.guardId f
        then x.guardInstrs.filterMap Instr.write else []) ++ if b.id = x.header then [x.cond] else [] := by
    refine List.flatMap_congr fun b _ => ?_
    rw [testing, List.filterMap_append]
    congr 1 <;> split <;> rfl
  have hperm := List.flatMap_append_perm (func f l a s x).blocks (fun b => if b.id = Choice.guardId f
    then x.guardInstrs.filterMap Instr.write else []) fun b => if b.id = x.header then [x.cond] else []
  rw [hguard, hheader] at hperm
  exact hsplit ▸ hperm.symm

/-- What the test and the steps define is new. -/
theorem nodup_testing (h : Detour f l a lanes updates n s n' x) {ts : List Temp} {m : TempCounter}
    (hext : f.Extensible m) (hts : Temp.AllFresh m n ts) :
    ((func f l a s x).params ++ writesOf (func f l a s x).blocks ++
      ((func f l a s x).blocks.flatMap fun b => (testing f a x b).filterMap Instr.write) ++ ts).Nodup := by
  have hnodup := hext.nodup_append h.formed.defined_once h.word (hts.append h.allFresh)
  have hparams : (func f l a s x).params = f.params := rfl
  refine (List.Perm.nodup_iff (List.perm_iff_count.mpr fun t => ?_)).mp hnodup
  have hwrites := (perm_writesOf (f := f) (l := l) (a := a) (s := s) (x := x)).count_eq t
  have hadded := h.perm_testing.count_eq t
  simp only [List.count_append, hparams] at hwrites hadded ⊢
  omega

theorem testing_typed (h : Detour f l a lanes updates n s n' x) {y : Instr} (hy : y ∈ testing f a x b) :
    y.wellTyped = true := by
  obtain ⟨k, k', hguards, hclone, hcond, -⟩ := h.guards
  obtain ⟨-, hindvar⟩ := h.test_typed
  rcases List.mem_append.mp hy with hy | hy
  · split at hy
    · exact hguards.typed y hy
    · cases hy
  · split at hy
    · obtain rfl := List.mem_singleton.mp hy
      have hty : (Value.temp (x.clone.temp a.induction.indvar)).ty = .i32 :=
        (LoopClone.ty_temp hclone _).trans hindvar
      simp [comparison, Instr.wellTyped, hcond, hguards.op, hguards.ty, hty, CompKind.operandTy]
    · cases hy

/-- The variable that the loop is counted by is a phi of its header. -/
theorem exists_indvar (h : Detour f l a lanes updates n s n' x) :
    a.induction.indvar ∈ a.header.phis.map (·.target) := by
  obtain ⟨r, hr⟩ := h.found
  obtain ⟨-, -, header, p, hheader, hp, htarget, -⟩ := (Induction.found_of_ofLoop? hr.induction).entering
  obtain rfl := Option.some.inj (hheader.symm.trans hr.header)
  exact htarget ▸ List.mem_map_of_mem hp

/-- What the test reads has its value. -/
theorem definedAlong_testing (h : Detour f l a lanes updates n s n' x) (hd : d ∈ (func f l a s x).blocks)
    {y : Instr} (hy : (testing f a x d)[pos]? = some y) (ht : t ∈ y.readTemps) (hlocal : t.isGlobal = false) :
    ((func f l a s x).mapBlocks (tested f l a x)).DefinedAlong (func f l a s x).jumpFlow t (tested f l a x d)
      (d.instrs.length + pos) := by
  obtain ⟨k, k', hguards, -⟩ := h.guards
  by_cases hguard : d.id = Choice.guardId f
  · obtain rfl : x.plainGuard f = d := Func.eq_of_id_eq h.distinct guard_mem hd hguard.symm
    rw [h.testing_guard] at hy
    rcases hguards.reads pos y hy t ht with hbound | hw
    · have hle : (0 : Nat) ≤ (x.plainGuard f).instrs.length + pos := Nat.zero_le _
      exact (extends_tested.definedAlong guard_mem (Nat.le_refl 0) (h.definedAlong_bound hbound hlocal)).mono hle
    · refine .inr (.inl (List.mem_append_right _ ?_))
      rw [tested, h.testing_guard]
      simpa [Choice.plainGuard, Block.ofId] using hw
  by_cases hheader : d.id = x.header
  · obtain rfl : (x.names f f.forest l a).copy a.header = d :=
      Func.eq_of_id_eq h.distinct (copy_mem h.header_mem_blocks) hd (h.headerCopy_id.trans hheader.symm)
    rw [h.testing_header hheader] at hy
    obtain ⟨rfl, rfl⟩ : pos = 0 ∧ comparison a x = y := by
      cases pos with
      | zero => exact ⟨rfl, Option.some.inj hy⟩
      | succ => cases hy
    obtain rfl | hbound : t = x.clone.temp a.induction.indvar ∨ x.bound = .temp t := by
      cases hb : x.bound <;>
        simpa [comparison, Instr.readTemps, Instr.reads, Value.temp?, hb, eq_comm] using ht
    · refine .inr (.inl (List.mem_append_left _ ?_))
      rw [tested, targets_phis_plainCopy]
      exact List.mem_map_of_mem h.exists_indvar
    · -- the guard computes the bound, and the main loop is come to by the guard
      refine .inr (.inr ⟨_, List.mem_map_of_mem guard_mem, Ne.symm hguard, ?_, fun vs p => ?_⟩)
      · rw [(extends_tested (s := s)).writes_eq guard_mem, h.testing_guard]
        exact List.mem_append_right _ (hguards.result t hbound)
      · exact (h.way_copy h.header_mem_blocks p).1
  · rw [testing_of_ne hguard hheader] at hy
    cases hy

/-- The test leads where the header led. -/
theorem jump_tested (h : Detour f l a lanes updates n s n' x) (hd : d ∈ (func f l a s x).blocks) :
    (tested f l a x d).jump = d.jump ∨ ∃ j, (tested f l a x d).jump = some j ∧ (∀ k, k ∈ j.targets ↔ k ∈ d.targets) ∧
      j.wellTyped = true ∧ ∀ t ∈ j.readTemps, t ∈ (tested f l a x d).writes := by
  obtain ⟨k, k', -, -, hcond, -⟩ := h.guards
  by_cases hheader : d.id = x.header
  · obtain rfl : (x.names f f.forest l a).copy a.header = d :=
      Func.eq_of_id_eq h.distinct (copy_mem h.header_mem_blocks) hd (h.headerCopy_id.trans hheader.symm)
    refine .inr ⟨_, if_pos hheader, fun k => ?_, ?_, fun t ht => ?_⟩
    · rw [h.mem_targets_headerCopy]
      simp [Instr.targets]
    · rw [hcond]
      rfl
    · obtain rfl : t = x.cond := List.mem_singleton.mp ht
      rw [extends_tested.writes_eq hd, h.testing_header hheader]
      exact List.mem_append_right _ (List.mem_singleton_self _)
  · exact .inl (if_neg hheader)

/-- The bound and its test can be put in. -/
theorem grows_tested (h : Detour f l a lanes updates n s n' x) :
    (func f l a s x).Grows (tested f l a x) (testing f a x) where
  toExtends := extends_tested
  labels _ _ q hq := ⟨q, hq, rfl⟩
  jump _ hd := h.jump_tested hd
  fresh := by
    have := h.nodup_testing h.extensible (.nil n)
    rwa [List.append_nil] at this
  typed _ _ _ hy := h.testing_typed hy
  reads _ hd _ _ _ hy _ ht hlocal := h.definedAlong_testing hd hy ht hlocal
  incoming _ _ q hq _ he := .inl ⟨q, hq, he⟩

end Tests

/-! ### The steps of the main loop -/

section Steps

variable {m : TempCounter} {r : Recurrences}

/-- The function with the copy, once its header tests the bound. -/
def testedFunc (f : Func) (l : Loop) (a : LoopAnatomy) (s : SplitParts) (x : Choice) : Func :=
  (func f l a s x).mapBlocks (tested f l a x)

theorem formedByJumps_tested (h : Detour f l a lanes updates n s n' x) : (testedFunc f l a s x).FormedByJumps :=
  h.grows_tested.formedByJumps h.formedByJumps

/-- The copy of the latch can make the scaled steps, and the copy of the header take them in. -/
theorem stepping (h : Detour f l a lanes updates n s n' x) (hext : f.Extensible m)
    (hsteps : Gives (scaledSteps a.header.phis (.ofLoop f f.forest l) lanes) m updates n) :
    ∃ latch, (x.copyId latch.id = x.latch ∧ latch ∈ l.blocks f f.forest) ∧
      Stepping (testedFunc f l a s x) (tested f l a x ((x.names f f.forest l a).copy a.header))
        (tested f l a x ((x.names f f.forest l a).copy latch)) updates x.clone.temp := by
  obtain ⟨r, hr⟩ := h.found
  obtain ⟨latch, hlm, hlref, hne, hin, hedge, -⟩ := latch_of_found h.linked h.mem hr
  obtain ⟨_, _, _, -, -, hclone, -⟩ := h.staged.guard
  have hl : latch ∈ l.blocks f f.forest := Loop.mem_blocks.mpr ⟨hlm, hin⟩
  have hheader := h.header_mem_blocks
  have hid : x.copyId latch.id = x.latch := by
    rw [Choice.copyId, show latch.id = a.latch.number from congrArg BlockRef.number hlref, h.staged.latch,
      Option.getD_some]
  refine ⟨latch, ⟨hid, hl⟩, List.mem_map_of_mem (copy_mem hheader), List.mem_map_of_mem (copy_mem hl),
    fun e => hne (congrArg Block.id (h.copyId_inj hheader hl e)), ?_, fun vs p => ?_, fun u hu => ?_, ?_⟩
  · rw [h.grows_tested.mem_targets h.formedByJumps (copy_mem hl)]
    exact (h.mem_targets_copy hl).mpr (.inl ⟨_, hheader, hedge, rfl⟩)
  · rw [testedFunc, h.grows_tested.jumpFlow_eq h.formedByJumps] at p
    rw [show (tested f l a x ((x.names f f.forest l a).copy a.header)).id = x.header from h.headerCopy_id]
    exact (h.way_copy hl p).2.1
  · obtain ⟨hphi, hty⟩ := phis_of_scaledSteps hext hr.header hsteps u hu
    refine ⟨?_, (LoopClone.ty_temp hclone _).trans hty⟩
    rw [tested, targets_phis_plainCopy]
    exact List.mem_map_of_mem hphi
  · have hnodup := h.nodup_testing hext (nexts_of_scaledSteps hsteps)
    refine (List.Perm.nodup_iff (List.Perm.append_right _ ?_)).mp hnodup
    rw [List.append_assoc]
    exact (extends_tested.perm_writesOf.symm).append_left _

end Steps

/-! ### What is placed -/

section Placed

theorem tested_of_ne (hguard : b.id ≠ Choice.guardId f) (hheader : b.id ≠ x.header) : tested f l a x b = b := by
  rw [tested, testing_of_ne hguard hheader, if_neg hheader, List.append_nil]

theorem finish_of_ne {ρ : Temp → Temp} {header latch : Int} {test : Block → Block} (hheader : b.id ≠ header)
    (hlatch : b.id ≠ latch) : finish updates ρ header latch test b = b := by
  unfold finish
  rw [if_neg hheader]
  exact if_neg hlatch

/-- The test is put into the header alone. -/
theorem finish_test {ρ : Temp → Temp} {header latch : Int} (test : Block → Block) (htest : ∀ b, (test b).id = b.id) :
    finish updates ρ header latch test b = finish updates ρ header latch id (if b.id = header then test b else b) := by
  unfold finish
  by_cases hb : b.id = header
  · simp only [if_pos hb, if_pos ((htest b).trans hb), id_eq]
  · simp only [if_neg hb]

/-- A copy becomes a block of the main loop. -/
theorem finish_tested (h : Detour f l a lanes updates n s n' x) (hb : b ∈ l.blocks f f.forest) :
    finish updates x.clone.temp x.header x.latch id (tested f l a x ((x.names f f.forest l a).copy b)) =
      x.mainBlock f f.forest l a updates b := by
  have hid : ((x.names f f.forest l a).copy b).id ≠ Choice.guardId f := (Int.ne_of_lt (h.copyId_spec hb).2.1).symm
  rw [Choice.mainBlock, finish_test (testBlock _ _ _ _ _ _ _) fun _ => rfl]
  split
  · rename_i hheader
    rw [tested, h.testing_header hheader, if_pos hheader]
    rfl
  · rename_i hheader
    rw [tested_of_ne hid hheader]
    rfl

/-- What a commit makes of a block of the function does not depend on the blocks of the main loop. -/
theorem rewired_eq_kept (h : Detour f l a lanes updates n s n' x) : rewired l.header s c = kept f l a s x c := by
  have hhead : (s.blocks.head?).map Block.label = ((x.plainBlocks f f.forest l a).head?).map Block.label := by
    rw [h.staged.blocks]
    rfl
  unfold kept rewired
  rw [hhead]
  rfl

/-- A commit places the function with the copy, the bound and its test and the steps put in. -/
theorem placed_eq (h : Detour f l a lanes updates n s n' x) (hc : c ∈ l.blocks f f.forest)
    (hlatch : x.copyId c.id = x.latch) : placed l.header s f =
      (testedFunc f l a s x).mapBlocks (finish updates x.clone.temp x.header x.latch id) := by
  have hspec := h.copyId_spec hc
  have hheader := h.copyId_spec h.header_mem_blocks
  rw [hlatch] at hspec
  rw [h.header_id, ← h.header_eq] at hheader
  have hstay : ∀ b : Block, b.id ≠ Choice.guardId f → b.id ≠ x.header → b.id ≠ x.latch →
      finish updates x.clone.temp x.header x.latch id (tested f l a x b) = b := by
    intro b hguard hheader hlatch
    rw [tested_of_ne hguard hheader, finish_of_ne hheader hlatch]
  -- blocks of the function are not changed
  have hold : (f.blocks.map (kept f l a s x)).map
      (finish updates x.clone.temp x.header x.latch id ∘ tested f l a x) = f.blocks.map (rewired l.header s) := by
    rw [List.map_map]
    refine List.map_congr_left fun b hb => ?_
    have hlt := h.id_lt hb
    rw [h.rewired_eq_kept]
    refine hstay _ ?_ ?_ ?_ <;> rw [kept_id]
    · exact Int.ne_of_lt hlt
    · exact Int.ne_of_lt (Int.lt_trans hlt hheader.2.1)
    · exact Int.ne_of_lt (Int.lt_trans hlt hspec.2.1)
  have hguard : finish updates x.clone.temp x.header x.latch id (tested f l a x (x.plainGuard f)) =
      x.guardBlock f := by
    have hid : (tested f l a x (x.plainGuard f)).id = Choice.guardId f := rfl
    rw [finish_of_ne (hid ▸ Int.ne_of_lt hheader.2.1) (hid ▸ Int.ne_of_lt hspec.2.1), tested, h.testing_guard,
      if_neg (show ¬ (x.plainGuard f).id = x.header from h.guard_ne_header)]
    rfl
  have hjoining : finish updates x.clone.temp x.header x.latch id (tested f l a x (Choice.joiningBlock f f.forest l)) =
      Choice.joiningBlock f f.forest l :=
    hstay _ (Int.ne_of_gt guard_lt_joining) (Int.ne_of_gt hheader.2.2) (Int.ne_of_gt hspec.2.2)
  have hnew : (x.plainBlocks f f.forest l a).map
      (finish updates x.clone.temp x.header x.latch id ∘ tested f l a x) = s.blocks := by
    rw [h.staged.blocks, Choice.plainBlocks, List.cons_append, List.cons_append, List.map_cons, List.map_append,
      List.map_map]
    refine congrArg₂ List.cons hguard (congrArg₂ _ (List.map_congr_left fun b hb => h.finish_tested hb) ?_)
    exact congrArg (fun b => [b]) hjoining
  have hkept : rewired l.header { s with blocks := x.plainBlocks f f.forest l a } = kept f l a s x := rfl
  rw [testedFunc, func, Func.mapBlocks, Func.mapBlocks, placed, placed]
  dsimp only
  rw [List.map_map, List.map_append, List.map_append, hnew, List.map_take, List.map_drop, hkept, hold]

end Placed

end Detour

/-! ### Commits -/

variable {f : Func} {l : Loop} {width alignment : Nat} {n n' : TempCounter} {plan : SplitPlan}

/-- A split of a loop that is entered apart is put in, and the function it leaves is verified. -/
theorem verify_split {s : SplitParts} (hf : f.verify = .ok ()) (hext : f.Extensible n) (hl : l ∈ f.forest.loops)
    (hapart : l.EnteredApart f f.forest)
    (h : Gives (make f f.forest l width alignment (.ofLoop f f.forest l)) n plan n') (hword : (n' : Int) ≤ u32Max)
    (hk : plan.kind = .split s) : ∃ prepared g, plan.commit f = .ok (prepared, g) ∧ g.verify = .ok () := by
  have hlinked := Func.wellLinked_of_verify hf
  obtain ⟨hheader, a, updates, k, ha, hsteps, hparts⟩ := found_of_make h hk
  have hnodup : ((l.blocks f f.forest).map Block.id).Nodup := hlinked.nodup.sublist (List.filter_sublist.map _)
  obtain ⟨x, hx⟩ := staged_of_splitParts hnodup hparts
  have hd : Detour f l a width updates k s n' x :=
    ⟨hf, hext.mono (le_of_scaledSteps hsteps), hl, ⟨_, ha⟩, hapart, hx, hword⟩
  obtain ⟨latch, ⟨hid, hin⟩, hstepping⟩ := hd.stepping hext hsteps
  have hformed := (hstepping.grows hd.formedByJumps_tested).formedByJumps hd.formedByJumps_tested
  have hplaced : placed plan.header s f =
      (Detour.testedFunc f l a s x).mapBlocks (finish updates x.clone.temp x.header x.latch id) :=
    hheader ▸ hd.placed_eq hin hid
  rw [show (Detour.tested f l a x ((x.names f f.forest l a).copy a.header)).id = x.header from hd.headerCopy_id,
    show (Detour.tested f l a x ((x.names f f.forest l a).copy latch)).id = x.latch from hid, ← hplaced] at hformed
  obtain ⟨hnone, hverify⟩ := Func.verify_resolveLinks_of_formedByJumps hformed
  refine ⟨⟨s.mainHeader, s.mainLatch, s.uniforms, s.clone.tempMap⟩, (placed plan.header s f).resolveLinks.1, ?_, hverify⟩
  rw [commit_split hk]
  split
  · rename_i hresolve
    rw [hresolve] at hnone
    cases hnone
  · rename_i g hresolve
    rw [hresolve]

/-- A plan for a loop of a verified function is put in, and the function it leaves is verified again, where the
loop, if it is split, is entered apart from what it leaves to. -/
theorem verify_commit (hf : f.verify = .ok ()) (hext : f.Extensible n) (hl : l ∈ f.forest.loops)
    (h : Gives (make f f.forest l width alignment (.ofLoop f f.forest l)) n plan n') (hword : (n' : Int) ≤ u32Max)
    (hapart : plan.isSplit = true → l.EnteredApart f f.forest) :
    ∃ prepared g, plan.commit f = .ok (prepared, g) ∧ g.verify = .ok () := by
  cases hk : plan.kind with
  | inPlace latch updates cond => exact verify_inPlace hf hext hl h hword hk
  | split s => exact verify_split hf hext hl (hapart (by rw [isSplit, hk])) h hword hk

/-- A plan for four lanes is put into a function that counts up. -/
theorem verify_commit_countUp : ∃ l ∈ countUp.forest.loops, ∃ plan n' prepared g,
    Gives (make countUp countUp.forest l 4 1 (.ofLoop countUp countUp.forest l)) 0 plan n' ∧ plan.isSplit = true ∧
      l.EnteredApart countUp countUp.forest ∧ plan.commit countUp = .ok (prepared, g) ∧ g.verify = .ok () := by
  have hf : countUp.verify = .ok () := toBool_eq_true.mp (by decide +kernel)
  have hext : countUp.Extensible 0 :=
    ⟨⟨by decide +kernel, by decide +kernel⟩, by decide +kernel, by decide +kernel⟩
  obtain ⟨l, hl, ⟨hprev, hreach, hne⟩, hplan⟩ : ∃ l ∈ countUp.forest.loops,
      ((∀ b ∈ l.body countUp countUp.forest, ∀ r ∈ b.prev, countUp.forest.contains l r.number = true) ∧
        (∀ r ∈ l.outsidePreds countUp countUp.forest,
          ((DomTree.ofFunc countUp false).region? countUp.entry.id).getD [] |>.contains r.number) ∧
        ∀ r ∈ l.outsidePreds countUp countUp.forest, ∀ q ∈ l.exits countUp countUp.forest, r.number ≠ q.number) ∧
      ((make countUp countUp.forest l 4 1 (.ofLoop countUp countUp.forest l)).run.run 0).1.toOption.any
        (fun plan => plan.isSplit && decide
          (((make countUp countUp.forest l 4 1 (.ofLoop countUp countUp.forest l)).run.run 0).2 ≤ 100)) = true := by
    decide +kernel
  obtain ⟨plan, n', hgives, hcheck⟩ := exists_gives_of_any
    (fun (plan : SplitPlan) (n' : TempCounter) => plan.isSplit && decide (n' ≤ 100)) hplan
  obtain ⟨hsplit, hle⟩ := Bool.and_eq_true_iff.mp hcheck
  have hword : (n' : Int) ≤ u32Max := Int.le_trans (Int.ofNat_le.mpr (of_decide_eq_true hle)) (by decide)
  have hapart : l.EnteredApart countUp countUp.forest := ⟨hprev, fun r hr =>
    (Func.mem_reachable (Func.wellLinked_of_verify hf).toLinked).mp (hreach r hr), hne⟩
  obtain ⟨prepared, g, hcommit, hg⟩ := verify_commit hf hext hl hgives hword fun _ => hapart
  exact ⟨l, hl, plan, n', prepared, g, hgives, hsplit, hapart, hcommit, hg⟩

end SplitPlan

end LoopLanes
