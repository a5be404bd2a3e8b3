/-
Putting a plan into its function.

`SplitPlan.staged_of_splitParts` takes apart what a split stages.  Every jump of the staged blocks
leads to one of them or back into the function, so that a plan is always put in
(`SplitPlan.exists_commit`), whatever becomes of the links and of the phis.
-/
import LoopLanes.Proofs.Cfg.Edits
import LoopLanes.Proofs.Split.Iterations
import LoopLanes.Proofs.Text.Spelling
import LoopLanes.Text.Reader
import LoopLanes.Vectorize.Pass

namespace LoopLanes

namespace SplitPlan

variable {f : Func} {t : LoopForest} {l : Loop} {a : LoopAnatomy} {lanes : Int}
  {updates : List StrideUpdate} {s : SplitParts} {n n' : TempCounter}

/-- What the new blocks of a split are made with: the guard, the names of the copies, and the exit
test of the main loop. -/
structure Choice where
  op : CompOp
  bound : Value
  guardInstrs : List Instr
  clone : LoopClone
  header : Int
  latch : Int
  body : Int
  cond : Temp

namespace Choice

/-- The number of the guard block. -/
def guardId (f : Func) : Int := f.total + 1

/-- The number of the joining block. -/
def joiningId (f : Func) (t : LoopForest) (l : Loop) : Int :=
  f.total + 1 + (l.blocks f t).length + 1

/-- The number of the copy of a block. -/
def copyId (x : Choice) (v : Int) : Int := (x.clone.block? v).getD v

/-- The numbers of the new blocks. -/
def ids (x : Choice) (f : Func) (t : LoopForest) (l : Loop) : List Int :=
  guardId f :: (l.blocks f t).map (fun b => x.copyId b.id) ++ [joiningId f t l]

/-- The names of the copies, with those of what lies outside of the loop. -/
def names (x : Choice) (f : Func) (t : LoopForest) (l : Loop) (a : LoopAnatomy) : LoopClone :=
  (x.clone.mapOutside a.entering.label (Label.ofBlock (guardId f))).mapOutside
    (Label.ofBlock a.induction.exit) (Label.ofBlock (joiningId f t l))

/-- The block in front of the main loop. -/
def guardBlock (x : Choice) (f : Func) : Block :=
  { Block.ofId (guardId f) with
    instrs := x.guardInstrs, jump := some (.jump (Label.ofBlock x.header)) }

/-- The block behind the main loop. -/
def joiningBlock (f : Func) (t : LoopForest) (l : Loop) : Block :=
  { Block.ofId (joiningId f t l) with jump := some (.jump l.header.label) }

/-- A block of the main loop, made from its original. -/
def mainBlock (x : Choice) (f : Func) (t : LoopForest) (l : Loop) (a : LoopAnatomy)
    (updates : List StrideUpdate) (b : Block) : Block :=
  finish updates (x.names f t l a).temp x.header x.latch
    (testBlock (x.names f t l a) a.induction x.cond x.op x.bound (Label.ofBlock x.body)
      (Label.ofBlock (joiningId f t l))) ((x.names f t l a).copy b)

end Choice

/-- What is staged for a split, with the choices behind it. -/
structure Staged (f : Func) (t : LoopForest) (l : Loop) (a : LoopAnatomy) (lanes : Int)
    (updates : List StrideUpdate) (n : TempCounter) (s : SplitParts) (n' : TempCounter)
    (x : Choice) : Prop where
  guard : ∃ offset k k', fitI32? (a.induction.step * (lanes - 1)) = some offset ∧
    Gives (guard a.induction offset) n (x.op, x.bound, x.guardInstrs) k ∧
    LoopClone.ofBlocks (l.blocks f t) (f.total + 1) k = (x.clone, k') ∧
    x.cond = ⟨toString (k' + 1), false, .i32⟩ ∧ n' = k' + 1
  header : x.clone.block? l.header.number = some x.header
  latch : x.clone.block? a.latch.number = some x.latch
  body : x.clone.block? a.bodyEntry = some x.body
  entering : s.entering = a.entering
  blocks : s.blocks = x.guardBlock f ::
    (l.blocks f t).map (x.mainBlock f t l a updates) ++ [Choice.joiningBlock f t l]
  mainHeader : s.mainHeader = x.header
  mainLatch : s.mainLatch = x.latch
  leaving : s.leaving = a.header.phis.map fun p => (p.target, .temp (x.clone.temp p.target))
  joining : s.joining = Label.ofBlock (Choice.joiningId f t l)
  total : s.total = Choice.joiningId f t l
  clone : s.clone = x.names f t l a

theorem staged_of_splitParts (hblocks : ((l.blocks f t).map Block.id).Nodup)
    (h : Gives (splitParts f t l a lanes updates) n s n') :
    ∃ x, Staged f t l a lanes updates n s n' x := by
  unfold splitParts at h
  obtain ⟨offset, _, hoffset, h⟩ := gives_bind.mp h
  obtain ⟨⟨op, bound, instrs⟩, k, hguard, h⟩ := gives_bind.mp h
  obtain ⟨clone, k', hclone, h⟩ := gives_bind.mp h
  obtain ⟨header, _, hheader, h⟩ := gives_bind.mp h
  obtain ⟨latch, _, hlatch, h⟩ := gives_bind.mp h
  obtain ⟨body, _, hbody, h⟩ := gives_bind.mp h
  obtain ⟨cond, _, hcond, h⟩ := gives_bind.mp h
  obtain ⟨hs, rfl⟩ := gives_pure.mp h
  subst hs
  obtain ⟨hfit, rfl⟩ := Planning.gives_require.mp hoffset
  obtain ⟨hnewHeader, rfl⟩ := Planning.gives_require.mp hheader
  obtain ⟨hnewLatch, rfl⟩ := Planning.gives_require.mp hlatch
  obtain ⟨hnewBody, rfl⟩ := Planning.gives_require.mp hbody
  obtain ⟨hfresh, rfl⟩ := Planning.gives_fresh.mp hcond
  refine ⟨⟨op, bound, instrs, clone, header, latch, body, cond⟩,
    ⟨offset, k, k', hfit, hguard, gives_modifyGet.mp hclone, hfresh, rfl⟩, hnewHeader, hnewLatch,
    hnewBody, rfl, ?_, rfl, rfl, rfl, rfl, rfl, rfl⟩
  rw [LoopClone.copies_eq _ hblocks, List.map_map]
  rfl

/-! ### Numbers -/

section Numbers

variable {x : Choice} {b c : Block}

/-- The copy of a block has a number between those of the guard and of the joining block. -/
theorem Staged.copyId_spec (hx : Staged f t l a lanes updates n s n' x) (hb : b ∈ l.blocks f t) :
    x.clone.block? b.id = some (x.copyId b.id) ∧ Choice.guardId f < x.copyId b.id ∧
      x.copyId b.id < Choice.joiningId f t l := by
  obtain ⟨_, _, _, -, -, hclone, -⟩ := hx.guard
  obtain ⟨k, hk, hlast, hle⟩ := LoopClone.exists_block? hclone hb
  have hcopy : x.copyId b.id = k := by rw [Choice.copyId, hk, Option.getD_some]
  rw [hcopy]
  refine ⟨hk, hlast, ?_⟩
  unfold Choice.joiningId
  omega

theorem Staged.copyId_injective (hx : Staged f t l a lanes updates n s n' x)
    (hnodup : ((l.blocks f t).map Block.id).Nodup) (hb : b ∈ l.blocks f t) (hc : c ∈ l.blocks f t)
    (e : x.copyId b.id = x.copyId c.id) : b = c := by
  obtain ⟨_, _, _, -, -, hclone, -⟩ := hx.guard
  have hid := LoopClone.block?_injective hclone (hx.copyId_spec hb).1 (e ▸ (hx.copyId_spec hc).1)
  exact List.inj_on_of_nodup_map hnodup hb hc hid

theorem guard_lt_joining : Choice.guardId f < Choice.joiningId f t l := by
  unfold Choice.guardId Choice.joiningId
  omega

/-- The numbers of the new blocks are distinct, and behind those in use. -/
theorem Staged.ids_spec (hx : Staged f t l a lanes updates n s n' x)
    (hnodup : ((l.blocks f t).map Block.id).Nodup) :
    (x.ids f t l).Nodup ∧ ∀ i ∈ x.ids f t l, Choice.guardId f ≤ i ∧ i ≤ Choice.joiningId f t l := by
  have hlt : Choice.guardId f < Choice.joiningId f t l := guard_lt_joining
  have hcopies : ((l.blocks f t).map fun b => x.copyId b.id).Nodup :=
    List.Nodup.map_on (fun b hb c hc e => hx.copyId_injective hnodup hb hc e) (.of_map Block.id hnodup)
  have hbetween : ∀ i ∈ (l.blocks f t).map fun b => x.copyId b.id,
      Choice.guardId f < i ∧ i < Choice.joiningId f t l :=
    List.forall_mem_map.mpr fun b hb => (hx.copyId_spec hb).2
  rw [Choice.ids, List.cons_append]
  refine ⟨List.nodup_cons.mpr ⟨fun hi => ?_, List.nodup_append.mpr ⟨hcopies, List.nodup_singleton _, ?_⟩⟩,
    List.forall_mem_cons.mpr ⟨⟨Int.le_refl _, Int.le_of_lt hlt⟩, fun i hi => ?_⟩⟩
  · rcases List.mem_append.mp hi with hi | hi
    · exact Int.lt_irrefl _ (hbetween _ hi).1
    · exact Int.ne_of_lt hlt (List.mem_singleton.mp hi)
  · rintro i hi j hj rfl
    exact Int.ne_of_lt (hbetween i hi).2 (List.mem_singleton.mp hj)
  · rcases List.mem_append.mp hi with hi | hi
    · exact (hbetween i hi).imp Int.le_of_lt Int.le_of_lt
    · rw [List.mem_singleton.mp hi]
      exact ⟨Int.le_of_lt hlt, Int.le_refl _⟩

end Numbers

/-! ### Labels -/

theorem finish_ref {ρ : Temp → Temp} {header latch : Int} {test : Block → Block}
    (htest : ∀ b, (test b).ref = b.ref) (b : Block) :
    (finish updates ρ header latch test b).ref = b.ref := by
  unfold finish
  dsimp only
  split <;> split <;> simp [advance, redirect, htest]

/-- The test is the only change of a terminator. -/
theorem finish_jump {ρ : Temp → Temp} {header latch : Int} {test : Block → Block} (b : Block) :
    (finish updates ρ header latch test b).jump = if b.id = header then (test b).jump else b.jump := by
  unfold finish
  dsimp only
  split <;> split <;> simp [advance, redirect]

variable {x : Choice} {b : Block}

theorem ref_mainBlock : (x.mainBlock f t l a updates b).ref = ((x.names f t l a).copy b).ref := by
  rw [Choice.mainBlock, finish_ref]
  exact fun _ => rfl

theorem Staged.map_id (hx : Staged f t l a lanes updates n s n' x) : s.blocks.map Block.id = x.ids f t l := by
  have hid : ∀ b, (x.mainBlock f t l a updates b).id = x.copyId b.id := fun b =>
    congrArg BlockRef.number ref_mainBlock
  rw [hx.blocks, Choice.ids, List.cons_append, List.map_cons, List.map_append, List.map_map]
  simp only [Function.comp_def, hid]
  rfl

theorem targets_copy {c : LoopClone} : (c.copy b).targets = b.targets.map c.label := by
  cases hj : b.jump with
  | none => simp [Block.targets, LoopClone.copy, hj]
  | some j =>
    simp only [Block.targets, LoopClone.copy, hj, Option.map_some, Option.getD_some,
      Instr.targets_renameLabels]
    cases j <;> rfl

theorem targets_mainBlock : (x.mainBlock f t l a updates b).targets =
    if ((x.names f t l a).copy b).id = x.header then
      [Label.ofBlock x.body, Label.ofBlock (Choice.joiningId f t l)]
    else b.targets.map (x.names f t l a).label := by
  rw [← targets_copy, Block.targets, Choice.mainBlock, finish_jump]
  split
  · rfl
  · rfl

theorem label_mapOutside (c : LoopClone) (old new k : Label) :
    (c.mapOutside old new).label k = if k = old then new else c.label k := by
  rw [LoopClone.label, LoopClone.mapOutside, List.lookup_cons]
  by_cases h : k = old
  · simp [h]
  · rw [if_neg h, beq_false_of_ne h, LoopClone.label]

/-- A copy of a block is staged, under the number that the copy was given. -/
theorem Staged.exists_copy (hx : Staged f t l a lanes updates n s n' x) (hb : b ∈ l.blocks f t)
    {k : Int} (hk : x.clone.block? b.id = some k) : ∃ c ∈ s.blocks, c.id = k := by
  refine ⟨x.mainBlock f t l a updates b, ?_, ?_⟩
  · rw [hx.blocks]
    exact List.mem_append_left _ (List.mem_cons_of_mem _ (List.mem_map_of_mem hb))
  · rw [Block.id, ref_mainBlock]
    exact copy_id hk

/-- A label in the copies stays as it is, or a staged block carries it. -/
theorem Staged.label_names (hx : Staged f t l a lanes updates n s n' x)
    (hnodup : ((l.blocks f t).map Block.id).Nodup) (k : Label) :
    (x.names f t l a).label k = k ∨ ∃ c ∈ s.blocks, c.label = (x.names f t l a).label k := by
  rw [Choice.names, label_mapOutside, label_mapOutside]
  split
  · refine .inr ⟨Choice.joiningBlock f t l, ?_, rfl⟩
    rw [hx.blocks]
    exact List.mem_append_right _ List.mem_cons_self
  split
  · refine .inr ⟨x.guardBlock f, ?_, rfl⟩
    rw [hx.blocks]
    exact List.mem_append_left _ List.mem_cons_self
  obtain ⟨_, _, _, -, -, hclone, -⟩ := hx.guard
  refine (LoopClone.label_eq_or hclone hnodup k).imp_right ?_
  rintro ⟨b, hb, j, hj, e⟩
  obtain ⟨c, hc, rfl⟩ := hx.exists_copy hb hj
  exact ⟨c, hc, e.symm⟩

/-- The jumps of the staged blocks lead to staged blocks, or to where the loop jumped. -/
theorem Staged.targets (hx : Staged f t l a lanes updates n s n' x)
    (hnodup : ((l.blocks f t).map Block.id).Nodup) (hheader : ∃ b ∈ l.blocks f t, b.id = l.header.number)
    (hbody : ∃ b ∈ l.blocks f t, b.id = a.bodyEntry) {c : Block} (hc : c ∈ s.blocks) {k : Label}
    (hk : k ∈ c.targets) : (∃ d ∈ s.blocks, d.label = k) ∨ k = l.header.label ∨
      ∃ b ∈ l.blocks f t, k ∈ b.targets := by
  rw [hx.blocks] at hc
  rcases List.mem_append.mp hc with hc | hc
  · rcases List.mem_cons.mp hc with rfl | hc
    · -- the guard block jumps to the main header
      obtain rfl : k = Label.ofBlock x.header := by simpa [Choice.guardBlock, Block.targets, Instr.targets] using hk
      obtain ⟨b, hb, e⟩ := hheader
      obtain ⟨d, hd, hid⟩ := hx.exists_copy hb (e ▸ hx.header)
      exact .inl ⟨d, hd, congrArg Label.ofBlock hid⟩
    · obtain ⟨b, hb, rfl⟩ := List.mem_map.mp hc
      rw [targets_mainBlock] at hk
      split at hk
      · left
        rcases List.mem_cons.mp hk with rfl | hk
        · obtain ⟨b, hb, e⟩ := hbody
          obtain ⟨d, hd, hid⟩ := hx.exists_copy hb (e ▸ hx.body)
          exact ⟨d, hd, congrArg Label.ofBlock hid⟩
        · refine ⟨Choice.joiningBlock f t l, ?_, (List.mem_singleton.mp hk).symm⟩
          rw [hx.blocks]
          exact List.mem_append_right _ List.mem_cons_self
      · obtain ⟨j, hj, rfl⟩ := List.mem_map.mp hk
        rcases hx.label_names hnodup j with e | h
        · exact .inr (.inr ⟨b, hb, e.symm ▸ hj⟩)
        · exact .inl h
  · rw [List.mem_singleton] at hc
    subst hc
    exact .inr (.inl (by simpa [Choice.joiningBlock, Block.targets, Instr.targets] using hk))

/-! ### Commits -/

/-- What a commit makes of a block of the function: the entering block jumps to the guard instead
of the header, and the header's phis start from where the main loop is left. -/
def rewired (header : BlockRef) (s : SplitParts) (b : Block) : Block :=
  let ρ := Func.renameOne header.label (((s.blocks.head?).map Block.label).getD header.label)
  let b := if b.ref == s.entering then b.renameTargets ρ else b
  if b.ref == header then { b with phis := b.phis.map (startFrom s) } else b

/-- The function with the new blocks in front of the header, not linked yet. -/
def placed (header : BlockRef) (s : SplitParts) (f : Func) : Func :=
  let place := (f.position? header.number).getD 0
  { f with
    blocks := (f.blocks.map (rewired header s)).take place ++ s.blocks ++
      (f.blocks.map (rewired header s)).drop place
    total := max f.total s.total }

theorem ref_rewired (header : BlockRef) (s : SplitParts) (b : Block) :
    (rewired header s b).ref = b.ref := by
  unfold rewired
  dsimp only
  split <;> split <;> rfl

theorem mem_placed {header : BlockRef} {b : Block} :
    b ∈ (placed header s f).blocks ↔ b ∈ s.blocks ∨ ∃ c ∈ f.blocks, rewired header s c = b := by
  rw [← List.mem_map]
  simp only [placed, List.mem_append]
  constructor
  · rintro ((h | h) | h)
    · exact .inr (List.mem_of_mem_take h)
    · exact .inl h
    · exact .inr (List.mem_of_mem_drop h)
  · rintro (h | h)
    · exact .inl (.inr h)
    · rw [← List.take_append_drop ((f.position? header.number).getD 0)
        (f.blocks.map (rewired header s)), List.mem_append] at h
      exact h.imp_left .inl

/-- New blocks and old ones, in another order. -/
theorem perm_placed (header : BlockRef) (s : SplitParts) (f : Func) :
    (placed header s f).blocks.Perm (s.blocks ++ f.blocks.map (rewired header s)) := by
  have h := List.take_append_drop ((f.position? header.number).getD 0) (f.blocks.map (rewired header s))
  conv_rhs => rw [← h]
  rw [← List.append_assoc]
  exact List.perm_append_comm.append_right _

/-- Numbers still tell the blocks apart. -/
theorem nodup_placed {header : BlockRef} (hnodup : (f.blocks.map Block.id).Nodup)
    (htotal : ∀ b ∈ f.blocks, b.id ≤ f.total) (hnew : (s.blocks.map Block.id).Nodup)
    (hlt : ∀ i ∈ s.blocks.map Block.id, Choice.guardId f ≤ i) :
    ((placed header s f).blocks.map Block.id).Nodup := by
  have hkept : (f.blocks.map (rewired header s)).map Block.id = f.blocks.map Block.id := by
    rw [List.map_map]
    exact List.map_congr_left fun b _ => congrArg BlockRef.number (ref_rewired header s b)
  rw [((perm_placed header s f).map Block.id).nodup_iff, List.map_append, hkept]
  refine List.nodup_append.mpr ⟨hnew, hnodup, ?_⟩
  rintro i hi j hj rfl
  obtain ⟨c, hc, rfl⟩ := List.mem_map.mp hj
  have := hlt _ hi
  have := htotal c hc
  unfold Choice.guardId at *
  omega

/-- A commit of a split links the function with the new blocks. -/
theorem commit_split {plan : SplitPlan} (hk : plan.kind = .split s) :
    plan.commit f = match (placed plan.header s f).resolveLinks with
      | (_, some l) => .error l
      | (g, none) => .ok (⟨s.mainHeader, s.mainLatch, s.uniforms, s.clone.tempMap⟩, g) := by
  have hblocks : ∀ ρ : Label → Label, (f.blocks.map fun b => if b.ref == s.entering then
      b.renameTargets ρ else b).map (fun b => if b.ref == plan.header then
        { b with phis := b.phis.map (startFrom s) } else b) = f.blocks.map fun b =>
      let b := if b.ref == s.entering then b.renameTargets ρ else b
      if b.ref == plan.header then { b with phis := b.phis.map (startFrom s) } else b := by
    intro ρ
    rw [List.map_map]
    rfl
  have hplace : ∀ bs : List Block, bs.map Block.ref = f.blocks.map Block.ref →
      bs.findIdx? (·.id == plan.header.number) = f.position? plan.header.number := by
    intro bs hbs
    have hids := congrArg (List.findIdx? fun r : BlockRef => r.number == plan.header.number) hbs
    rwa [List.findIdx?_map, List.findIdx?_map] at hids
  rw [commit, hk]
  simp only [Func.modify, Func.position?, hblocks]
  rw [hplace]
  · rfl
  · rw [List.map_map]
    exact List.map_congr_left fun b _ => ref_rewired plan.header s b

theorem jump_rewired (header : BlockRef) (s : SplitParts) (c : Block) :
    (rewired header s c).jump = if c.ref = s.entering then
      c.jump.map (·.renameLabels (Func.renameOne header.label
        (((s.blocks.head?).map Block.label).getD header.label))) else c.jump := by
  unfold rewired
  dsimp only
  simp only [beq_iff_eq]
  split <;> split <;> rfl

/-- The entering block may jump to the guard instead of the header; no other jump changes. -/
theorem targets_rewired {header : BlockRef} {c : Block} {k : Label}
    (h : k ∈ (rewired header s c).targets) : k ∈ c.targets ∨
      k = ((s.blocks.head?).map Block.label).getD header.label ∧ header.label ∈ c.targets := by
  rw [Block.targets, jump_rewired] at h
  split at h
  · cases hj : c.jump with
    | none => simp [hj] at h
    | some j =>
      rw [hj, Option.map_some, Option.map_some, Option.getD_some, Instr.targets_renameLabels] at h
      obtain ⟨i, hi, rfl⟩ := List.mem_map.mp h
      rw [Block.targets, hj]
      unfold Func.renameOne
      split
      · rename_i e
        exact .inr ⟨rfl, beq_iff_eq.mp e ▸ hi⟩
      · exact .inl hi
  · exact .inl h

/-- Every jump of the function with the new blocks leads to a block. -/
theorem labels_of_placed {r : Recurrences} {header : BlockRef} (hf : f.WellLinked)
    (hheader : t.contains l l.header.number = true) (ha : a.Found f t l r)
    (hx : Staged f t l a lanes updates n s n' x) :
    ∀ b ∈ (placed header s f).blocks, ∀ k ∈ b.targets, ∃ c ∈ (placed header s f).blocks, c.label = k := by
  have hnodup : ((l.blocks f t).map Block.id).Nodup := hf.nodup.sublist (List.filter_sublist.map _)
  have old : ∀ c ∈ f.blocks, ∃ d ∈ (placed header s f).blocks, d.label = c.label := fun c hc =>
    ⟨_, mem_placed.mpr (.inr ⟨c, hc, rfl⟩), congrArg BlockRef.label (ref_rewired header s c)⟩
  have new : ∀ c ∈ s.blocks, ∃ d ∈ (placed header s f).blocks, d.label = c.label := fun c hc =>
    ⟨c, mem_placed.mpr (.inl hc), rfl⟩
  have target : ∀ c ∈ f.blocks, ∀ k ∈ c.targets, ∃ d ∈ (placed header s f).blocks, d.label = k := by
    intro c hc k hk
    obtain ⟨j, hj, hlinks⟩ := hf.jump c hc
    have hk : k ∈ c.succ.map (·.label) := by
      rw [hlinks]
      simpa [Block.targets, hj] using hk
    obtain ⟨r, hr, rfl⟩ := List.mem_map.mp hk
    obtain ⟨d, hd, rfl, -⟩ := hf.succ c hc r hr
    exact old d hd
  obtain ⟨hhm, hhref⟩ := Func.linked?_mem ha.header
  have hhid : a.header.id = l.header.number := congrArg BlockRef.number hhref
  obtain ⟨bodyBlock, hbm, hbid, hbin⟩ : ∃ b ∈ f.blocks, b.id = a.bodyEntry ∧
      t.contains l b.id = true := by
    obtain ⟨r, hr, e⟩ := List.mem_map.mp (List.mem_of_find?_eq_some ha.bodyEntry)
    obtain ⟨b, hb, rfl, -⟩ := hf.succ _ hhm r hr
    have hin : t.contains l a.bodyEntry = true := List.find?_some ha.bodyEntry
    exact ⟨b, hb, e, (congrArg (t.contains l) e).trans hin⟩
  have staged : ∀ c ∈ s.blocks, ∀ k ∈ c.targets, ∃ d ∈ (placed header s f).blocks, d.label = k := by
    intro c hc k hk
    rcases hx.targets hnodup ⟨a.header, Loop.mem_blocks.mpr ⟨hhm, hhid ▸ hheader⟩, hhid⟩
        ⟨bodyBlock, Loop.mem_blocks.mpr ⟨hbm, hbin⟩, hbid⟩ hc hk with
      ⟨d, hd, rfl⟩ | rfl | ⟨b, hb, hk⟩
    · exact new d hd
    · rw [← hhref]
      exact old a.header hhm
    · exact target b (Loop.mem_blocks.mp hb).1 k hk
  intro b hb k hk
  rcases mem_placed.mp hb with hb | ⟨c, hc, rfl⟩
  · exact staged b hb k hk
  · rcases targets_rewired hk with hk | ⟨rfl, -⟩
    · exact target c hc k hk
    · have hhead : s.blocks.head? = some (x.guardBlock f) := by rw [hx.blocks]; rfl
      rw [hhead]
      exact new _ (List.mem_of_mem_head? hhead)

/-- A plan is always put in: no jump of the new function leads nowhere. -/
theorem exists_commit {width alignment : Nat} {r : Recurrences} {plan : SplitPlan}
    (hf : f.WellLinked) (hheader : t.contains l l.header.number = true)
    (h : Gives (make f t l width alignment r) n plan n') :
    ∃ prepared g, plan.commit f = .ok (prepared, g) := by
  cases hk : plan.kind with
  | inPlace latch updates cond => exact ⟨_, _, by rw [commit, hk]⟩
  | split s =>
    obtain ⟨-, a, updates, k, ha, -, hparts⟩ := found_of_make h hk
    have hnodup : ((l.blocks f t).map Block.id).Nodup := hf.nodup.sublist (List.filter_sublist.map _)
    obtain ⟨x, hx⟩ := staged_of_splitParts hnodup hparts
    have hlinks : (placed plan.header s f).resolveLinks.2 = none :=
      Func.resolveLinks_eq_none_iff.mpr (labels_of_placed hf hheader ha hx)
    rw [commit_split hk]
    split
    · rename_i hresolve
      rw [hresolve] at hlinks
      cases hlinks
    · exact ⟨_, _, rfl⟩

/-- A nest of loops whose inner loop is entered from the block that it leaves to. -/
def nested : String :=
  "define i32 @f(i32 %n) \x7b\n" ++
  "entry:\n  br label %B1\n" ++
  "B1:\n  %o = phi i32 [0, %entry], [%p, %B2]\n  %p = add i32 %o, 1\n" ++
  "  %d = icmp slt i32 %p, %n\n  br i32 %d, label %B2, label %B4\n" ++
  "B2:\n  %i = phi i32 [0, %B1], [%j, %B3]\n  %c = icmp slt i32 %i, %n\n" ++
  "  br i32 %c, label %B3, label %B1\n" ++
  "B3:\n  %j = add i32 %i, 1\n  br label %B2\nB4:\n  ret i32 %o\n\x7d\n"

/-- Some loop of a verified function has a plan for two lanes that leaves the function flawed. -/
def isSpoilt (f : Func) (n : TempCounter) : Bool :=
  f.verify.toBool && f.forest.loops.any fun l =>
    match (make f f.forest l 2 1 (.ofLoop f f.forest l)).run.run n with
    | (.ok plan, _) =>
      match plan.commit f with
      | .ok (_, g) => !g.verify.toBool
      | .error _ => false
    | (.error _, _) => false

set_option maxRecDepth 100000 in
/-- The label of the outer header is renamed twice, for the edge into the inner loop and for the
edge out of it; only one renaming is found, and the phis of the main loop get a wrong label. -/
theorem commit_nested : ∃ p f l plan n' prepared g, Program.parse nested = .ok p ∧
    p.func? "f" = some f ∧ f.verify = .ok () ∧ l ∈ f.forest.loops ∧
    Gives (make f f.forest l 2 1 (.ofLoop f f.forest l)) p.temps plan n' ∧
    plan.commit f = .ok (prepared, g) ∧ g.verify ≠ .ok () := by
  obtain ⟨p, hp, h⟩ := Program.exists_of_chars (s := nested)
    (P := fun p => (p.func? "f").any (isSpoilt · p.temps))
    (by
      unfold nested
      repeat apply toList_append_of String.toList_ofList
      exact String.toList_ofList) (by decide +kernel)
  obtain ⟨f, hfunc, h⟩ := (Option.any_eq_true _ _).mp h
  obtain ⟨hf, hloops⟩ := Bool.and_eq_true_iff.mp h
  obtain ⟨l, hl, h⟩ := List.any_eq_true.mp hloops
  split at h
  case h_2 => cases h
  rename_i plan n' hplan
  split at h
  case h_2 => cases h
  rename_i prepared g hcommit
  refine ⟨p, f, l, plan, n', prepared, g, hp, hfunc, ?_, hl, hplan, hcommit, fun hg => ?_⟩
  · revert hf
    cases f.verify <;> simp [Except.toBool]
  · rw [hg] at h
    cases h

end SplitPlan

end LoopLanes
