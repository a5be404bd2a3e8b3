/-
A loop with a copy of itself in front is formed as the loop was.

What flows into a block is known by who jumps to it.  A block of the function is jumped to as before, but
that the header is entered from the joining block; the copy of a block is jumped to by copies, and that of
the header by the guard.

* `Detour.jumps_kept_iff`, `Detour.jumps_copy_iff` — who jumps to a block, and who to its copy;
* `Detour.definedAlong_kept`, `Detour.definedAlong_copy` — what has its value at a place of a block still has
  it there, and under its new name at the same place of the copy;
* `Detour.formedByJumps` — so the function with the copy is formed by its jumps.
-/
import LoopLanes.Proofs.Split.Detour
import Mathlib.Data.List.Flatten

namespace LoopLanes

/-- The names of a copy are new. -/
theorem LoopClone.allFresh {bs : List Block} {last : Int} {n n' : TempCounter} {c : LoopClone}
    (h : ofBlocks bs last n = (c, n')) (hnodup : (writesOf bs).Nodup) :
    Temp.AllFresh n n' ((writesOf bs).map c.temp) := by
  refine ⟨?_, hnodup.map_on fun t ht u hu e => temp_injective h ht hu e, List.forall_mem_map.mpr fun t ht => ?_⟩
  · obtain ⟨-, rfl⟩ := Prod.mk.inj h
    exact le_freshTemps _ n
  · obtain ⟨k, hk, hk', e⟩ := temp_of_mem h ht
    exact ⟨k, hk, hk', congrArg Temp.name e⟩

namespace SplitPlan

/-! ### The guard block -/

/-- What the guard block is given: instructions on words that need the bound of the loop alone, and an operator
with a bound for the main loop. -/
structure Guards (i : Induction) (n : TempCounter) (op : CompOp) (bound : Value) (instrs : List Instr)
    (n' : TempCounter) : Prop where
  fresh : Temp.AllFresh n n' (instrs.filterMap Instr.write)
  op : op.operandTy = .i32
  ty : bound.ty = .i32
  result : ∀ t, bound = .temp t → t ∈ instrs.filterMap Instr.write
  typed : ∀ y ∈ instrs, y.wellTyped = true
  reads : ∀ pos y, instrs[pos]? = some y → ∀ t ∈ y.readTemps,
    i.bound = .temp t ∨ t ∈ (instrs.take pos).filterMap Instr.write

/-- The instructions of a bound that is known at run time. -/
theorem guards_of_emit {i : Induction} {b : RuntimeBound} {n n' : TempCounter} {bound : Value} {instrs : List Instr}
    (hop : b.op.operandTy = .i32) (hty : i.bound.ty = .i32) (h : Gives (b.emit i.bound) n (bound, instrs) n') :
    Guards i n b.op bound instrs n' := by
  unfold RuntimeBound.emit at h
  obtain ⟨overflow, _, h₁, h⟩ := gives_bind.mp h
  obtain ⟨diff, _, h₂, h⟩ := gives_bind.mp h
  obtain ⟨result, _, h₃, h⟩ := gives_bind.mp h
  obtain ⟨e, rfl⟩ := gives_pure.mp h
  obtain ⟨rfl, rfl⟩ := Prod.mk.inj e
  obtain ⟨rfl, rfl⟩ := Planning.gives_fresh.mp h₁
  obtain ⟨rfl, rfl⟩ := Planning.gives_fresh.mp h₂
  obtain ⟨rfl, rfl⟩ := Planning.gives_fresh.mp h₃
  clear h h₁ h₂ h₃ e
  refine ⟨?_, hop, rfl, fun t e => ?_, ?_, fun pos y hy t ht => ?_⟩
  · exact ((Temp.AllFresh.singleton n false .i32).append (.singleton (n + 1) false .i32)).append
      (.singleton (n + 2) false .i32)
  · obtain rfl := Value.temp.inj e
    simp [Instr.write]
  · have hint : ∀ v, (Value.ofInt v).ty = .i32 := fun _ => rfl
    have htemp : ∀ t : Temp, (Value.temp t).ty = t.ty := fun _ => rfl
    simp [Instr.wellTyped, hop, hty, hint, htemp, CompKind.operandTy, ArithOp.operandTy]
  · rcases pos with _ | _ | _ | pos
    case zero | succ.zero =>
      obtain rfl := Option.some.inj hy
      cases hbound : i.bound <;> simp_all [Instr.readTemps, Instr.reads, Value.temp?, Value.ofInt]
    case succ.succ.zero =>
      obtain rfl := Option.some.inj hy
      refine .inr ?_
      simpa [Instr.readTemps, Instr.reads, Value.temp?, Value.ofInt, Instr.write, eq_comm] using ht
    case succ.succ.succ => cases hy

theorem guards_of_guard {i : Induction} {offset : Int} {n n' : TempCounter} {op : CompOp} {bound : Value}
    {instrs : List Instr} (hop : i.op.operandTy = .i32) (hty : i.bound.ty = .i32)
    (h : Gives (guard i offset) n (op, bound, instrs) n') : Guards i n op bound instrs n' := by
  unfold guard at h
  split at h
  · -- a folded bound
    obtain ⟨b, _, hb, h⟩ := gives_bind.mp h
    obtain ⟨-, rfl⟩ := Planning.gives_require.mp hb
    obtain ⟨e, rfl⟩ := gives_pure.mp h
    cases e
    exact ⟨.nil n, hop, rfl, nofun, nofun, nofun⟩
  · obtain ⟨b, _, hb, h⟩ := gives_bind.mp h
    obtain ⟨hstrict, rfl⟩ := Planning.gives_require.mp hb
    obtain ⟨⟨v, is⟩, k, hemit, h⟩ := gives_bind.mp h
    obtain ⟨e, rfl⟩ := gives_pure.mp h
    cases e
    exact guards_of_emit (operandTy_of_runtimeBound? hstrict) hty hemit

namespace Detour

variable {f : Func} {l : Loop} {a : LoopAnatomy} {lanes : Int} {updates : List StrideUpdate}
  {n n' : TempCounter} {s : SplitParts} {x : Choice} {b c d : Block} {t : Temp} {pos : Nat}

/-! ### Who jumps to a block -/

section Jumps

theorem header_mem_blocks (h : Detour f l a lanes updates n s n' x) : a.header ∈ l.blocks f f.forest :=
  Loop.mem_blocks.mpr ⟨h.header_mem.1, h.header_id ▸ h.contains_header⟩

/-- The loop is entered at its header, from one block. -/
theorem mem_or_entering (h : Detour f l a lanes updates n s n' x) (hb : b ∈ l.blocks f f.forest)
    (hc : c ∈ f.blocks) (hl : b.label ∈ c.targets) :
    c ∈ l.blocks f f.forest ∨ b.id = l.header.number ∧ c.ref = a.entering := by
  obtain ⟨r, hr⟩ := h.found
  obtain ⟨hbf, hin⟩ := Loop.mem_blocks.mp hb
  have hlinks := Func.linkedByJumps_of_wellLinked h.linked
  have hprev : c.ref ∈ b.prev :=
    (hlinks.mutual_links c hc b hbf).mp ((hlinks.mem_succ_iff h.linked.nodup hc hbf).mpr hl)
  by_cases hcin : f.forest.contains l c.id = true
  · exact .inl (Loop.mem_blocks.mpr ⟨hc, hcin⟩)
  by_cases hbh : b.id = l.header.number
  · refine .inr ⟨hbh, ?_⟩
    obtain rfl := Func.eq_of_id_eq h.linked.nodup hbf h.header_mem.1 (hbh.trans h.header_id.symm)
    obtain ⟨⟨hentering, -⟩, honly⟩ := Loop.outsidePreds_eq_singleton hr.entering
    have hheader : l.headerPrev f = a.header.prev := by simp [Loop.headerPrev, hr.header]
    rw [hheader] at hentering honly
    obtain ⟨e, he, heref, -⟩ := h.linked.prev _ hbf _ hentering
    rw [← heref]
    exact congrArg Block.ref (Func.eq_of_id_eq h.linked.nodup hc he
      ((honly c.ref hprev (Bool.eq_false_iff.mpr hcin)).trans (congrArg BlockRef.number heref).symm))
  · exact absurd (h.apart.prev b (Loop.mem_body.mpr ⟨hbf, hin, hbh⟩) c.ref hprev) hcin

theorem kept_label : (kept f l a s x c).label = c.label := congrArg BlockRef.label kept_ref

theorem label_plainCopy : ((x.names f f.forest l a).copy b).label = Label.ofBlock (x.copyId b.id) := rfl

theorem copyId_ne (h : Detour f l a lanes updates n s n' x) (hb : b ∈ l.blocks f f.forest) (hc : c ∈ f.blocks) :
    x.copyId b.id ≠ c.id := fun e =>
  Int.lt_irrefl _ (Int.lt_trans (h.copyId_spec hb).2.1 (e ▸ h.id_lt hc))

theorem copyId_inj (h : Detour f l a lanes updates n s n' x) (hb : b ∈ l.blocks f f.forest)
    (hc : c ∈ l.blocks f f.forest) (e : x.copyId b.id = x.copyId c.id) : b = c :=
  h.staged.copyId_injective h.nodup_blocks hb hc e

theorem joiningId_ne (h : Detour f l a lanes updates n s n' x) (hc : c ∈ f.blocks) :
    Choice.joiningId f f.forest l ≠ c.id := fun e =>
  Int.lt_irrefl _ (Int.lt_trans guard_lt_joining (e ▸ h.id_lt hc))

theorem targets_plainGuard : (x.plainGuard f).targets = [Label.ofBlock x.header] := rfl

theorem targets_joiningBlock : (Choice.joiningBlock f f.forest l).targets = [l.header.label] := rfl

/-- Who jumps to a block of the function: who did so before, but for the block that enters the loop, and the
joining block instead of it. -/
theorem jumps_kept_iff (h : Detour f l a lanes updates n s n' x) (hb : b ∈ f.blocks) {k : Label} :
    (∃ d ∈ (func f l a s x).blocks, b.label ∈ d.targets ∧ d.label = k) ↔
      (∃ c ∈ f.blocks, b.label ∈ c.targets ∧ c.label = k ∧ ¬ (c.ref = a.entering ∧ b.id = l.header.number)) ∨
        b.id = l.header.number ∧ k = Label.ofBlock (Choice.joiningId f f.forest l) := by
  constructor
  · rintro ⟨d, hd, hl, rfl⟩
    rcases mem_func.mp hd with ⟨c, hc, rfl⟩ | rfl | ⟨c, hc, rfl⟩ | rfl
    · obtain ⟨hl, hne⟩ := (h.mem_targets_kept hb).mp hl
      exact .inl ⟨c, hc, hl, kept_label.symm, hne⟩
    · rw [targets_plainGuard, List.mem_singleton, h.header_eq, ← h.header_id] at hl
      exact absurd (Label.ofBlock_injective hl).symm (h.copyId_ne h.header_mem_blocks hb)
    · rcases (h.mem_targets_copy hc).mp hl with ⟨e, he, -, hk⟩ | ⟨-, hk⟩
      · exact absurd (Label.ofBlock_injective hk).symm (h.copyId_ne he hb)
      · exact absurd (Label.ofBlock_injective hk).symm (h.joiningId_ne hb)
    · exact .inr ⟨Label.ofBlock_injective (List.mem_singleton.mp hl), rfl⟩
  · rintro (⟨c, hc, hl, rfl, hne⟩ | ⟨hb, rfl⟩)
    · exact ⟨_, kept_mem hc, (h.mem_targets_kept hb).mpr ⟨hl, hne⟩, kept_label⟩
    · exact ⟨_, joining_mem, List.mem_singleton.mpr (congrArg Label.ofBlock hb), rfl⟩

/-- Who jumps to the copy of a block: the copies of those who jump to the block, and the guard instead of the
block that enters the loop. -/
theorem jumps_copy_iff (h : Detour f l a lanes updates n s n' x) (hb : b ∈ l.blocks f f.forest)
    (hd : d ∈ (func f l a s x).blocks) : Label.ofBlock (x.copyId b.id) ∈ d.targets ↔
      (∃ c ∈ l.blocks f f.forest, b.label ∈ c.targets ∧ d = (x.names f f.forest l a).copy c) ∨
        b.id = l.header.number ∧ d = x.plainGuard f := by
  constructor
  · intro hl
    rcases mem_func.mp hd with ⟨c, hc, rfl⟩ | rfl | ⟨c, hc, rfl⟩ | rfl
    · -- the blocks of the function jump to each other, or to the guard
      have hne : Label.ofBlock (x.copyId b.id) ≠ Label.ofBlock (Choice.guardId f) := fun e =>
        Int.ne_of_gt (h.copyId_spec hb).2.1 (Label.ofBlock_injective e)
      obtain ⟨e, he, hk⟩ := h.linked.exists_target hc (h.mem_targets_of_kept hl hne)
      exact absurd (Label.ofBlock_injective hk).symm (h.copyId_ne hb he)
    · rw [targets_plainGuard, List.mem_singleton, h.header_eq, ← h.header_id] at hl
      have := h.copyId_inj hb h.header_mem_blocks (Label.ofBlock_injective hl)
      exact .inr ⟨this ▸ h.header_id, rfl⟩
    · rcases (h.mem_targets_copy hc).mp hl with ⟨e, he, hel, hk⟩ | ⟨-, hk⟩
      · obtain rfl := h.copyId_inj hb he (Label.ofBlock_injective hk)
        exact .inl ⟨c, hc, hel, rfl⟩
      · exact absurd (Label.ofBlock_injective hk) (Int.ne_of_lt (h.copyId_spec hb).2.2)
    · rw [targets_joiningBlock, List.mem_singleton] at hl
      exact absurd ((Label.ofBlock_injective hl).trans h.header_id.symm) (h.copyId_ne hb h.header_mem.1)
  · rintro (⟨c, hc, hl, rfl⟩ | ⟨hbh, rfl⟩)
    · exact (h.mem_targets_copy hc).mpr (.inl ⟨b, hb, hl, rfl⟩)
    · rw [targets_plainGuard, h.header_eq, hbh]
      exact List.mem_singleton_self _

/-- A label by which the loop is come to stands for one new block. -/
theorem label_injective (h : Detour f l a lanes updates n s n' x)
    (hc : c ∈ l.blocks f f.forest ∨ c.ref = a.entering) (hd : d ∈ l.blocks f f.forest ∨ d.ref = a.entering)
    (e : (x.names f f.forest l a).label c.label = (x.names f f.forest l a).label d.label) :
    c.label = d.label := by
  obtain ⟨hguard, -, hcopy⟩ := h.label_names
  have hne : ∀ b ∈ l.blocks f f.forest, Label.ofBlock (x.copyId b.id) ≠ Label.ofBlock (Choice.guardId f) :=
    fun b hb e => Int.ne_of_gt (h.copyId_spec hb).2.1 (Label.ofBlock_injective e)
  have hentering : ∀ {e : Block}, e.ref = a.entering → e.label = a.entering.label := congrArg BlockRef.label
  rcases hc with hc | hc <;> rcases hd with hd | hd
  · rw [hcopy c hc, hcopy d hd] at e
    rw [h.copyId_inj hc hd (Label.ofBlock_injective e)]
  · rw [hcopy c hc, hentering hd, hguard] at e
    exact absurd e (hne c hc)
  · rw [hcopy d hd, hentering hc, hguard] at e
    exact absurd e.symm (hne d hd)
  · rw [hentering hc, hentering hd]

end Jumps

/-! ### What the blocks define -/

section Definitions

theorem kept_instrs : (kept f l a s x c).instrs = c.instrs := by
  unfold kept rewired
  dsimp only
  split <;> split <;> rfl

theorem kept_phis : (kept f l a s x c).phis =
    if c.ref = l.header then c.phis.map (startFrom { s with blocks := x.plainBlocks f f.forest l a })
    else c.phis := by
  have key : ∀ d : Block, d.ref = c.ref → d.phis = c.phis → ∀ g : Phi → Phi,
      (if d.ref == l.header then { d with phis := d.phis.map g } else d).phis =
        if c.ref = l.header then c.phis.map g else c.phis := by
    intro d href hphis g
    rw [href, ← hphis]
    simp only [beq_iff_eq]
    split <;> rfl
  exact key _ (by split <;> rfl) (by split <;> rfl) _

theorem kept_targets : (kept f l a s x c).phis.map (·.target) = c.phis.map (·.target) := by
  rw [kept_phis]
  split
  · rw [List.map_map]
    rfl
  · rfl

theorem writesBefore_kept : (kept f l a s x c).writesBefore pos = c.writesBefore pos := by
  rw [Block.writesBefore, kept_targets, kept_instrs, Block.writesBefore]

theorem writes_kept : (kept f l a s x c).writes = c.writes := by
  rw [Block.writes, kept_targets, kept_instrs, Block.writes]

theorem targets_phis_plainCopy : ((x.names f f.forest l a).copy b).phis.map (·.target) =
    (b.phis.map (·.target)).map x.clone.temp := by
  rw [LoopClone.copy, List.map_map, List.map_map]
  rfl

theorem writesBefore_plainCopy : ((x.names f f.forest l a).copy b).writesBefore pos =
    (b.writesBefore pos).map x.clone.temp := by
  rw [Block.writesBefore, Block.writesBefore, List.map_append, targets_phis_plainCopy, List.map_filterMap,
    LoopClone.copy, ← List.map_take, List.filterMap_map]
  exact congrArg _ (List.filterMap_congr fun i _ => Instr.write_rename i)

theorem writes_plainCopy : ((x.names f f.forest l a).copy b).writes = b.writes.map x.clone.temp := by
  rw [← Block.writesBefore_length, writesBefore_plainCopy, ← Block.writesBefore_length]
  simp [LoopClone.copy]

/-- What the loop defines is defined nowhere else. -/
theorem notMem_writes (h : Detour f l a lanes updates n s n' x) (ht : t ∈ writesOf (l.blocks f f.forest)) :
    t ∉ f.params ∧ ∀ c ∈ f.blocks, f.forest.contains l c.id = false → t ∉ c.writes := by
  obtain ⟨b, hb, htb⟩ := List.mem_flatMap.mp ht
  obtain ⟨hbf, hin⟩ := Loop.mem_blocks.mp hb
  obtain ⟨-, -, hdisjoint⟩ := List.nodup_append.mp h.formed.defined_once
  refine ⟨fun hp => hdisjoint t hp t (List.mem_flatMap.mpr ⟨b, hbf, htb⟩) rfl, fun c hc hout htc => ?_⟩
  obtain rfl := Func.eq_of_mem_writes h.verified hbf hc htb htc
  rw [hin] at hout
  cases hout

theorem temp_of_notMem (h : Detour f l a lanes updates n s n' x) (ht : t ∉ writesOf (l.blocks f f.forest)) :
    x.clone.temp t = t := by
  obtain ⟨_, _, _, -, -, hclone, -⟩ := h.staged.guard
  exact LoopClone.temp_of_notMem hclone ht

theorem temp_of_param (h : Detour f l a lanes updates n s n' x) (ht : t ∈ f.params) : x.clone.temp t = t :=
  h.temp_of_notMem fun hin => (h.notMem_writes hin).1 ht

theorem temp_of_outside (h : Detour f l a lanes updates n s n' x) (hc : c ∈ f.blocks)
    (hout : f.forest.contains l c.id = false) (ht : t ∈ c.writes) : x.clone.temp t = t :=
  h.temp_of_notMem fun hin => (h.notMem_writes hin).2 c hc hout ht

/-- What has a local name in the copy has one in the loop. -/
theorem isGlobal_of_temp (h : Detour f l a lanes updates n s n' x) (ht : (x.clone.temp t).isGlobal = false) :
    t.isGlobal = false := by
  by_cases hin : t ∈ writesOf (l.blocks f f.forest)
  · obtain ⟨b, hb, htb⟩ := List.mem_flatMap.mp hin
    exact h.extensible.locals t (List.mem_flatMap.mpr ⟨b, (Loop.mem_blocks.mp hb).1, htb⟩)
  · rwa [h.temp_of_notMem hin] at ht

/-- What has its value at a place of a block still has it there. -/
theorem definedAlong_kept (h : Detour f l a lanes updates n s n' x) (hc : c ∈ f.blocks)
    (ht : f.DefinedAlong f.jumpFlow t c pos) :
    (func f l a s x).DefinedAlong (func f l a s x).jumpFlow t (kept f l a s x c) pos := by
  rcases ht with ht | ht | ⟨d, hd, hne, ht, hdom⟩
  · exact .inl ht
  · exact .inr (.inl (writesBefore_kept.symm ▸ ht))
  · refine .inr (.inr ⟨_, kept_mem hd, ?_, writes_kept.symm ▸ ht, fun vs p => ?_⟩)
    · rwa [kept_id, kept_id]
    · rw [kept_id] at p ⊢
      exact h.mem_path_kept hc hdom p

/-- What has its value at a place of a block of the loop has it, under its new name, at that place of the copy. -/
theorem definedAlong_copy (h : Detour f l a lanes updates n s n' x) (hb : b ∈ l.blocks f f.forest)
    (ht : f.DefinedAlong f.jumpFlow t b pos) : (func f l a s x).DefinedAlong (func f l a s x).jumpFlow
      (x.clone.temp t) ((x.names f f.forest l a).copy b) pos := by
  rcases ht with ht | ht | ⟨d, hd, hne, ht, hdom⟩
  · exact .inl ((h.temp_of_param ht).symm ▸ ht)
  · exact .inr (.inl (writesBefore_plainCopy ▸ List.mem_map_of_mem ht))
  · have hpath : ∀ vs, (func f l a s x).jumpFlow.Path (x.copyId b.id) vs → _ :=
      fun vs p => h.mem_path_copy hb hdom p
    by_cases hin : f.forest.contains l d.id = true
    · have hdl := Loop.mem_blocks.mpr ⟨hd, hin⟩
      refine .inr (.inr ⟨_, copy_mem hdl, fun e => hne (congrArg Block.id (h.copyId_inj hdl hb e)),
        writes_plainCopy ▸ List.mem_map_of_mem ht, fun vs p => ?_⟩)
      have := hpath vs p
      rwa [if_pos hin] at this
    · rw [h.temp_of_outside hd (Bool.eq_false_iff.mpr hin) ht]
      refine .inr (.inr ⟨_, kept_mem hd, fun e => h.copyId_ne hb hd (e.symm.trans kept_id),
        writes_kept.symm ▸ ht, fun vs p => ?_⟩)
      have := hpath vs p
      rw [if_neg hin] at this
      rwa [kept_id]

/-- What a block outside of the loop defines on every way to it has its value in the guard. -/
theorem definedAlong_guard (h : Detour f l a lanes updates n s n' x) (hc : c ∈ f.blocks) (ht : t ∈ c.writes)
    (hdom : ∀ ws, f.jumpFlow.Path a.entering.number ws → c.id ∈ ws) : x.clone.temp t = t ∧
      (func f l a s x).DefinedAlong (func f l a s x).jumpFlow t (x.plainGuard f) 0 := by
  have hout : f.forest.contains l c.id = false := by
    obtain ⟨ws, hway, hout⟩ := h.exists_way_in
    exact hout _ (hdom ws hway)
  refine ⟨h.temp_of_outside hc hout ht, .inr (.inr ⟨_, kept_mem hc, ?_, writes_kept.symm ▸ ht, fun vs p => ?_⟩)⟩
  · rw [kept_id]
    exact Int.ne_of_lt (h.id_lt hc)
  · rw [kept_id]
    exact h.mem_path_guard hdom p

end Definitions

/-! ### The function with the copy -/

section Formed

/-- What starts a phi of the header, once the copy is in front of it. -/
theorem incoming_startFrom (h : Detour f l a lanes updates n s n' x) {p : Phi} (hp : p ∈ a.header.phis) :
    (startFrom { s with blocks := x.plainBlocks f f.forest l a } p).incoming =
      p.incoming.filter (·.2 != a.entering.label) ++
        [(.temp (x.clone.temp p.target), Label.ofBlock (Choice.joiningId f f.forest l))] := by
  have hleaving : s.leaving.lookup p.target = some (.temp (x.clone.temp p.target)) := by
    rw [h.staged.leaving]
    refine lookup_of_mem ?_ (List.mem_map_of_mem (f := fun p : Phi =>
      (p.target, Value.temp (x.clone.temp p.target))) hp)
    rw [List.map_map]
    exact Func.phi_targets_nodup h.verified h.header_mem.1
  simp [startFrom, hleaving, h.staged.entering, h.staged.joining]

/-- The kept header is the header. -/
theorem eq_header (h : Detour f l a lanes updates n s n' x) (hc : c ∈ f.blocks) (e : c.id = l.header.number) :
    c = a.header := Func.eq_of_id_eq h.linked.nodup hc h.header_mem.1 (e.trans h.header_id.symm)

theorem ref_eq_header_iff (h : Detour f l a lanes updates n s n' x) (hc : c ∈ f.blocks) :
    c.ref = l.header ↔ c.id = l.header.number :=
  ⟨congrArg BlockRef.number, fun e => h.eq_header hc e ▸ h.header_mem.2⟩

/-- A phi of a block of the function is one from before, or it starts from the copy. -/
theorem mem_phis_kept (h : Detour f l a lanes updates n s n' x) (hc : c ∈ f.blocks) {q : Phi}
    (hq : q ∈ (kept f l a s x c).phis) :
    c.id ≠ l.header.number ∧ q ∈ c.phis ∨ c.id = l.header.number ∧ ∃ p ∈ c.phis,
      q.incoming = p.incoming.filter (·.2 != a.entering.label) ++
        [(.temp (x.clone.temp p.target), Label.ofBlock (Choice.joiningId f f.forest l))] := by
  rw [kept_phis] at hq
  split at hq
  · rename_i href
    have hid := (h.ref_eq_header_iff hc).mp href
    obtain ⟨p, hp, rfl⟩ := List.mem_map.mp hq
    exact .inr ⟨hid, p, hp, h.incoming_startFrom (h.eq_header hc hid ▸ hp)⟩
  · rename_i href
    exact .inl ⟨mt (h.ref_eq_header_iff hc).mpr href, hq⟩

/-- The entries of a phi that a copy has are those of the phi, under other names. -/
theorem mem_phis_copy {q : Phi} (hq : q ∈ ((x.names f f.forest l a).copy b).phis) : ∃ p ∈ b.phis,
    q.incoming = p.incoming.map fun e => (e.1.rename x.clone.temp, (x.names f f.forest l a).label e.2) := by
  obtain ⟨p, hp, rfl⟩ := List.mem_map.mp hq
  refine ⟨p, hp, ?_⟩
  rw [Phi.renameLabels, Phi.rename, List.map_map]
  rfl

/-- The phis of a block of the function have an entry for everyone who jumps to it. -/
theorem phis_kept (h : Detour f l a lanes updates n s n' x) (hc : c ∈ f.blocks) {q : Phi}
    (hq : q ∈ (kept f l a s x c).phis) : (q.incoming.map (·.2)).Nodup ∧ ∀ k, k ∈ q.incoming.map (·.2) ↔
      ∃ d ∈ (func f l a s x).blocks, c.label ∈ d.targets ∧ d.label = k := by
  rcases h.mem_phis_kept hc hq with ⟨hid, hq⟩ | ⟨hid, p, hp, e⟩
  · obtain ⟨hnodup, hmem⟩ := h.formed.phis c hc q hq
    refine ⟨hnodup, fun k => (hmem k).trans ?_⟩
    rw [h.jumps_kept_iff hc]
    constructor
    · rintro ⟨d, hd, hl, rfl⟩
      exact .inl ⟨d, hd, hl, rfl, fun hno => hid hno.2⟩
    · rintro (⟨d, hd, hl, rfl, -⟩ | ⟨hno, -⟩)
      · exact ⟨d, hd, hl, rfl⟩
      · exact absurd hno hid
  · obtain ⟨hnodup, hmem⟩ := h.formed.phis c hc p hp
    have hlabels : q.incoming.map (·.2) = (p.incoming.map (·.2)).filter (· != a.entering.label) ++
        [Label.ofBlock (Choice.joiningId f f.forest l)] := by
      rw [e, List.map_append, List.filter_map]
      rfl
    rw [hlabels]
    refine ⟨List.nodup_append.mpr ⟨hnodup.filter _, List.nodup_singleton _, ?_⟩, fun k => ?_⟩
    · rintro k hk _ hj rfl
      obtain ⟨d, hd, -, hl⟩ := (hmem k).mp (List.mem_of_mem_filter hk)
      exact h.joiningId_ne hd (Label.ofBlock_injective (hl.trans (List.mem_singleton.mp hj))).symm
    · rw [h.jumps_kept_iff hc, List.mem_append, List.mem_filter, hmem, List.mem_singleton, bne_iff_ne]
      refine or_congr ?_ (and_iff_right hid).symm
      constructor
      · rintro ⟨⟨d, hd, hl, rfl⟩, hne⟩
        exact ⟨d, hd, hl, rfl, fun hno => hne (congrArg BlockRef.label hno.1)⟩
      · rintro ⟨d, hd, hl, rfl, hne⟩
        refine ⟨⟨d, hd, hl, rfl⟩, fun e => hne ⟨?_, hid⟩⟩
        -- a block of the loop is not the entering block, so it is the one the loop is entered from
        refine ((h.mem_or_entering (h.eq_header hc hid ▸ h.header_mem_blocks) hd hl).resolve_left fun hin => ?_).2
        have hout := h.not_contains_entering
        rw [← show d.id = a.entering.number from Label.ofBlock_injective e, (Loop.mem_blocks.mp hin).2] at hout
        cases hout

/-- So do those of the copy of a block. -/
theorem phis_copy (h : Detour f l a lanes updates n s n' x) (hb : b ∈ l.blocks f f.forest) {q : Phi}
    (hq : q ∈ ((x.names f f.forest l a).copy b).phis) : (q.incoming.map (·.2)).Nodup ∧
      ∀ k, k ∈ q.incoming.map (·.2) ↔
        ∃ d ∈ (func f l a s x).blocks, Label.ofBlock (x.copyId b.id) ∈ d.targets ∧ d.label = k := by
  obtain ⟨hguard, -, hcopy⟩ := h.label_names
  obtain ⟨hbf, -⟩ := Loop.mem_blocks.mp hb
  obtain ⟨p, hp, e⟩ := mem_phis_copy hq
  obtain ⟨hnodup, hmem⟩ := h.formed.phis b hbf p hp
  have hlabels : q.incoming.map (·.2) = (p.incoming.map (·.2)).map (x.names f f.forest l a).label := by
    rw [e, List.map_map, List.map_map]
    rfl
  have hentering : ∀ c ∈ f.blocks, b.label ∈ c.targets → c ∈ l.blocks f f.forest ∨ c.ref = a.entering :=
    fun c hc hl => (h.mem_or_entering hb hc hl).imp_right And.right
  rw [hlabels]
  refine ⟨hnodup.map_on fun j hj k hk e => ?_, fun k => ?_⟩
  · obtain ⟨c, hc, hcl, rfl⟩ := (hmem j).mp hj
    obtain ⟨d, hd, hdl, rfl⟩ := (hmem k).mp hk
    exact h.label_injective (hentering c hc hcl) (hentering d hd hdl) e
  · rw [List.mem_map]
    constructor
    · rintro ⟨j, hj, rfl⟩
      obtain ⟨c, hc, hcl, rfl⟩ := (hmem j).mp hj
      rcases h.mem_or_entering hb hc hcl with hin | ⟨hbh, href⟩
      · exact ⟨_, copy_mem hin, (h.jumps_copy_iff hb (copy_mem hin)).mpr (.inl ⟨c, hin, hcl, rfl⟩),
          (hcopy c hin).symm⟩
      · refine ⟨_, guard_mem, (h.jumps_copy_iff hb guard_mem).mpr (.inr ⟨hbh, rfl⟩), ?_⟩
        rw [show c.label = a.entering.label from congrArg BlockRef.label href, hguard]
        rfl
    · rintro ⟨d, hd, hl, rfl⟩
      rcases (h.jumps_copy_iff hb hd).mp hl with ⟨c, hc, hcl, rfl⟩ | ⟨hbh, rfl⟩
      · exact ⟨c.label, (hmem _).mpr ⟨c, (Loop.mem_blocks.mp hc).1, hcl, rfl⟩, hcopy c hc⟩
      · refine ⟨a.entering.label, (hmem _).mpr ?_, hguard⟩
        obtain ⟨e, he, heid, hel⟩ := h.edge_entering
        refine ⟨e, he, ?_, congrArg Label.ofBlock heid⟩
        rwa [← hbh] at hel

/-- What stands at a place of mapped code stands there for a line of the code. -/
theorem exists_getElem?_code {is : List Instr} {j : Option Instr} {u v : Instr → Instr} {y : Instr}
    (hy : (is.map u ++ (j.map v).toList)[pos]? = some y) :
    ∃ z, (is ++ j.toList)[pos]? = some z ∧ (y = u z ∨ y = v z) := by
  rw [List.getElem?_append, List.length_map, List.getElem?_map] at hy
  rw [List.getElem?_append]
  split at hy
  · rename_i hpos
    obtain ⟨z, hz, rfl⟩ := Option.map_eq_some_iff.mp hy
    exact ⟨z, by rw [if_pos hpos, hz], .inl rfl⟩
  · rename_i hpos
    rw [show (j.map v).toList = j.toList.map v by cases j <;> rfl, List.getElem?_map] at hy
    obtain ⟨z, hz, rfl⟩ := Option.map_eq_some_iff.mp hy
    exact ⟨z, by rw [if_neg hpos, hz], .inr rfl⟩

/-- The code of a block stays, labels aside. -/
theorem code_kept (h : Detour f l a lanes updates n s n' x) {y : Instr}
    (hy : ((kept f l a s x c).instrs ++ (kept f l a s x c).jump.toList)[pos]? = some y) :
    ∃ z, (c.instrs ++ c.jump.toList)[pos]? = some z ∧ y.readTemps = z.readTemps ∧ y.wellTyped = z.wellTyped := by
  rw [kept_instrs, h.jump_kept] at hy
  split at hy
  · rw [← List.map_id c.instrs] at hy
    obtain ⟨z, hz, hyz | rfl⟩ := exists_getElem?_code hy
    · obtain rfl : y = z := hyz
      exact ⟨y, hz, rfl, rfl⟩
    · exact ⟨z, hz, congrArg (·.filterMap Value.temp?) (Instr.reads_renameLabels z), Instr.wellTyped_renameLabels z⟩
  · exact ⟨y, hy, rfl, rfl⟩

/-- The code of a copy is that of the block under the new names. -/
theorem code_copy (h : Detour f l a lanes updates n s n' x) {y : Instr}
    (hy : (((x.names f f.forest l a).copy b).instrs ++ ((x.names f f.forest l a).copy b).jump.toList)[pos]? =
      some y) : ∃ z, (b.instrs ++ b.jump.toList)[pos]? = some z ∧
        y.readTemps = z.readTemps.map x.clone.temp ∧ y.wellTyped = z.wellTyped := by
  obtain ⟨_, _, _, -, -, hclone, -⟩ := h.staged.guard
  have hty : ∀ z : Instr, (z.rename x.clone.temp).wellTyped = z.wellTyped :=
    Instr.wellTyped_rename (LoopClone.ty_temp hclone)
  obtain ⟨z, hz, rfl | rfl⟩ := exists_getElem?_code hy
  · exact ⟨z, hz, Instr.readTemps_rename z, hty z⟩
  · refine ⟨z, hz, ?_, (Instr.wellTyped_renameLabels _).trans (hty z)⟩
    rw [Instr.readTemps, Instr.reads_renameLabels]
    exact Instr.readTemps_rename z

theorem reaches_kept (h : Detour f l a lanes updates n s n' x) (hc : c ∈ f.blocks)
    (hr : (func f l a s x).jumpFlow.Reaches c.id) : f.jumpFlow.Reaches c.id := by
  obtain ⟨vs, p⟩ := Flow.reaches_iff_exists_path.mp hr
  obtain ⟨ws, way, -⟩ := h.way_kept hc p
  exact way.reaches

theorem reaches_copy (h : Detour f l a lanes updates n s n' x) (hb : b ∈ l.blocks f f.forest)
    (hr : (func f l a s x).jumpFlow.Reaches (x.copyId b.id)) : f.jumpFlow.Reaches b.id := by
  obtain ⟨vs, p⟩ := Flow.reaches_iff_exists_path.mp hr
  obtain ⟨-, -, ws, r, way, -, through, -⟩ := h.way_copy hb p
  exact (through ws way).reaches

/-- A jump leads to a block. -/
theorem exists_target (h : Detour f l a lanes updates n s n' x) (hd : d ∈ (func f l a s x).blocks) {k : Label}
    (hk : k ∈ d.targets) : ∃ c ∈ (func f l a s x).blocks, c.label = k := by
  rcases mem_func.mp hd with ⟨c, hc, rfl⟩ | rfl | ⟨c, hc, rfl⟩ | rfl
  · by_cases hg : k = Label.ofBlock (Choice.guardId f)
    · exact ⟨_, guard_mem, hg.symm⟩
    · obtain ⟨e, he, rfl⟩ := h.linked.exists_target hc (h.mem_targets_of_kept hk hg)
      exact ⟨_, kept_mem he, kept_label⟩
  · rw [targets_plainGuard, List.mem_singleton, h.header_eq, ← h.header_id] at hk
    exact ⟨_, copy_mem h.header_mem_blocks, hk.symm⟩
  · rcases (h.mem_targets_copy hc).mp hk with ⟨e, he, -, rfl⟩ | ⟨-, rfl⟩
    · exact ⟨_, copy_mem he, rfl⟩
    · exact ⟨_, joining_mem, rfl⟩
  · rw [targets_joiningBlock, List.mem_singleton] at hk
    exact ⟨_, kept_mem h.header_mem.1, kept_label.trans (hk ▸ congrArg Label.ofBlock h.header_id)⟩

theorem isSome_jump (h : Detour f l a lanes updates n s n' x) (hd : d ∈ (func f l a s x).blocks) :
    d.jump.isSome := by
  rcases mem_func.mp hd with ⟨c, hc, rfl⟩ | rfl | ⟨c, hc, rfl⟩ | rfl
  · rw [h.jump_kept]
    split
    · rw [Option.isSome_map]
      exact h.formed.terminated c hc
    · exact h.formed.terminated c hc
  · rfl
  · show (c.jump.map _).isSome
    rw [Option.isSome_map]
    exact h.formed.terminated c (Loop.mem_blocks.mp hc).1
  · rfl

/-- What is defined is what was, and what the loop defines under its new names. -/
theorem perm_writesOf : (writesOf (func f l a s x).blocks).Perm
    (writesOf f.blocks ++ (writesOf (l.blocks f f.forest)).map x.clone.temp) := by
  have hcopies : writesOf (x.plainBlocks f f.forest l a) = (writesOf (l.blocks f f.forest)).map x.clone.temp := by
    rw [Choice.plainBlocks, writesOf, List.cons_append, List.flatMap_cons, List.flatMap_append, List.flatMap_map,
      writesOf, List.map_flatMap]
    have hnone : (x.plainGuard f).writes = [] ∧ [Choice.joiningBlock f f.forest l].flatMap Block.writes = [] :=
      ⟨rfl, rfl⟩
    rw [hnone.1, hnone.2, List.nil_append, List.append_nil]
    exact List.flatMap_congr fun b _ => writes_plainCopy
  have hkept : writesOf (f.blocks.map (kept f l a s x)) = writesOf f.blocks := by
    rw [writesOf, List.flatMap_map]
    exact List.flatMap_congr fun b _ => writes_kept
  have hperm : (writesOf (func f l a s x).blocks).Perm
      (writesOf (x.plainBlocks f f.forest l a ++ f.blocks.map (kept f l a s x))) :=
    (perm_placed l.header { s with blocks := x.plainBlocks f f.forest l a } f).flatMap_right Block.writes
  have happend : ∀ bs cs : List Block, writesOf (bs ++ cs) = writesOf bs ++ writesOf cs := fun _ _ =>
    List.flatMap_append
  rw [happend, hcopies, hkept] at hperm
  exact hperm.trans List.perm_append_comm

/-- The exit test of the header compares words. -/
theorem test_typed (h : Detour f l a lanes updates n s n' x) :
    a.induction.bound.ty = .i32 ∧ a.induction.indvar.ty = .i32 := by
  obtain ⟨r, hr⟩ := h.found
  obtain ⟨htest, htested⟩ := hr.testedIn h.linked
  obtain ⟨op, ty, lhs, rhs, onTrue, -, -, -, hcomp, -, -, hturned⟩ := htest.test
  have hreach : f.jumpFlow.Reaches a.header.id := by
    obtain ⟨ws, hway, -⟩ := h.exists_way_in
    exact h.header_id ▸ (hway.step h.edge_entering).reaches
  have htyped := h.formed.typed _ h.header_mem.1 hreach _ (List.mem_append_left _ hcomp)
  have hop := hturned.operandTy hr.monotone.operandTy
  simp only [Instr.wellTyped, Bool.and_eq_true, beq_iff_eq] at htyped
  obtain ⟨⟨⟨-, hty⟩, hlhs⟩, hrhs⟩ := htyped
  have hty : ty = .i32 := hty.symm.trans hop
  subst hty
  rcases hturned with ⟨e, e', -⟩ | ⟨e, e', -⟩
  · exact ⟨e' ▸ hrhs, htested ▸ (by rw [e] at hlhs; exact hlhs)⟩
  · exact ⟨e' ▸ hlhs, htested ▸ (by rw [e] at hrhs; exact hrhs)⟩

theorem guards (h : Detour f l a lanes updates n s n' x) : ∃ k k', Guards a.induction n x.op x.bound x.guardInstrs k ∧
    LoopClone.ofBlocks (l.blocks f f.forest) (f.total + 1) k = (x.clone, k') ∧
    x.cond = ⟨toString (k' + 1), false, .i32⟩ ∧ n' = k' + 1 := by
  obtain ⟨r, hr⟩ := h.found
  obtain ⟨_, k, k', -, hguard, hclone, hcond, hn⟩ := h.staged.guard
  exact ⟨k, k', guards_of_guard hr.monotone.operandTy h.test_typed.1 hguard, hclone, hcond, hn⟩

/-- The new names of a split. -/
theorem allFresh (h : Detour f l a lanes updates n s n' x) : Temp.AllFresh n n'
    (x.guardInstrs.filterMap Instr.write ++ (writesOf (l.blocks f f.forest)).map x.clone.temp ++ [x.cond]) := by
  obtain ⟨k, k', hguards, hclone, hcond, rfl⟩ := h.guards
  have hnodup : (writesOf (l.blocks f f.forest)).Nodup :=
    (List.nodup_append.mp h.formed.defined_once).2.1.sublist (List.filter_sublist.flatMap _)
  rw [hcond]
  exact (hguards.fresh.append (LoopClone.allFresh hclone hnodup)).append (.singleton k' false .i32)

/-- Nothing is defined twice. -/
theorem nodup_definitions (h : Detour f l a lanes updates n s n' x) :
    ((func f l a s x).params ++ writesOf (func f l a s x).blocks).Nodup := by
  have hnodup := h.extensible.nodup_append h.formed.defined_once h.word (h.allFresh.sublist
    ((List.sublist_append_right _ _).trans (List.sublist_append_left _ _)))
  refine ((perm_writesOf.append_left f.params).nodup_iff).mpr ?_
  rwa [← List.append_assoc]

/-- What is read has its value. -/
theorem definedAlong_of_read (h : Detour f l a lanes updates n s n' x) (hd : d ∈ (func f l a s x).blocks)
    (hr : (func f l a s x).jumpFlow.Reaches d.id) {y : Instr} (hy : (d.instrs ++ d.jump.toList)[pos]? = some y)
    (ht : t ∈ y.readTemps) (hlocal : t.isGlobal = false) :
    (func f l a s x).DefinedAlong (func f l a s x).jumpFlow t d pos := by
  rcases mem_func.mp hd with ⟨c, hc, rfl⟩ | rfl | ⟨b, hb, rfl⟩ | rfl
  · obtain ⟨z, hz, hreads, -⟩ := h.code_kept hy
    rw [kept_id] at hr
    exact h.definedAlong_kept hc (h.formed.reads c hc (h.reaches_kept hc hr) pos z hz t (hreads ▸ ht) hlocal)
  · obtain rfl := List.mem_singleton.mp (List.mem_of_getElem? hy)
    cases ht
  · obtain ⟨z, hz, hreads, -⟩ := h.code_copy hy
    rw [hreads] at ht
    obtain ⟨u, hu, rfl⟩ := List.mem_map.mp ht
    exact h.definedAlong_copy hb (h.formed.reads b (Loop.mem_blocks.mp hb).1 (h.reaches_copy hb hr) pos z hz u hu
      (h.isGlobal_of_temp hlocal))
  · obtain rfl := List.mem_singleton.mp (List.mem_of_getElem? hy)
    cases ht

theorem wellTyped_of_mem (h : Detour f l a lanes updates n s n' x) (hd : d ∈ (func f l a s x).blocks)
    (hr : (func f l a s x).jumpFlow.Reaches d.id) {y : Instr} (hy : y ∈ d.instrs ++ d.jump.toList) :
    y.wellTyped = true := by
  obtain ⟨pos, hpos⟩ := List.getElem?_of_mem hy
  rcases mem_func.mp hd with ⟨c, hc, rfl⟩ | rfl | ⟨b, hb, rfl⟩ | rfl
  · obtain ⟨z, hz, -, htyped⟩ := h.code_kept hpos
    rw [kept_id] at hr
    exact htyped.trans (h.formed.typed c hc (h.reaches_kept hc hr) z (List.mem_of_getElem? hz))
  · exact List.mem_singleton.mp hy ▸ rfl
  · obtain ⟨z, hz, -, htyped⟩ := h.code_copy hpos
    exact htyped.trans (h.formed.typed b (Loop.mem_blocks.mp hb).1 (h.reaches_copy hb hr) z (List.mem_of_getElem? hz))
  · exact List.mem_singleton.mp hy ▸ rfl

/-- What flows into a phi of a block of the function has its value where it comes from. -/
theorem definedAlong_of_incoming_kept (h : Detour f l a lanes updates n s n' x) (hc : c ∈ f.blocks)
    (hr : f.jumpFlow.Reaches c.id) {q : Phi} (hq : q ∈ (kept f l a s x c).phis)
    (hd : d ∈ (func f l a s x).blocks) (hl : c.label ∈ d.targets)
    (hr' : (func f l a s x).jumpFlow.Reaches d.id) (ht : (Value.temp t, d.label) ∈ q.incoming)
    (hlocal : t.isGlobal = false) :
    (func f l a s x).DefinedAlong (func f l a s x).jumpFlow t d d.instrs.length := by
  -- an entry of a phi that the block had comes from a block of the function
  have old : ∀ p ∈ c.phis, (Value.temp t, d.label) ∈ p.incoming →
      (func f l a s x).DefinedAlong (func f l a s x).jumpFlow t d d.instrs.length := by
    intro p hp hin
    obtain ⟨e, he, hel, hlabel⟩ := ((h.formed.phis c hc p hp).2 _).mp (List.mem_map_of_mem hin)
    obtain rfl : kept f l a s x e = d := Func.eq_of_id_eq h.distinct (kept_mem he) hd
      (kept_id.trans (Label.ofBlock_injective hlabel))
    rw [kept_id] at hr'
    rw [kept_label] at hin
    rw [kept_instrs]
    exact h.definedAlong_kept he (h.formed.incoming c hc hr p hp e he hel (h.reaches_kept he hr') t hin hlocal)
  rcases h.mem_phis_kept hc hq with ⟨-, hq⟩ | ⟨hid, p, hp, e⟩
  · exact old q hq ht
  · rw [e, List.mem_append, List.mem_singleton] at ht
    rcases ht with ht | ht
    · exact old p hp (List.mem_of_mem_filter ht)
    · -- the header starts from the copy of its phi
      obtain ⟨hv, hlabel⟩ := Prod.mk.inj ht
      obtain rfl := Value.temp.inj hv
      obtain rfl : Choice.joiningBlock f f.forest l = d :=
        Func.eq_of_id_eq h.distinct joining_mem hd (Label.ofBlock_injective hlabel).symm
      obtain rfl := h.eq_header hc hid
      refine .inr (.inr ⟨_, copy_mem h.header_mem_blocks, ?_, ?_, fun vs path => ?_⟩)
      · exact Int.ne_of_lt (h.copyId_spec h.header_mem_blocks).2.2
      · rw [writes_plainCopy]
        exact List.mem_map_of_mem (List.mem_append_left _ (List.mem_map_of_mem hp))
      · have := h.mem_path_joining path
        rwa [h.header_eq, ← h.header_id] at this

/-- What flows into a phi of a copy has its value where it comes from. -/
theorem definedAlong_of_incoming_copy (h : Detour f l a lanes updates n s n' x) (hb : b ∈ l.blocks f f.forest)
    (hr : f.jumpFlow.Reaches b.id) {q : Phi} (hq : q ∈ ((x.names f f.forest l a).copy b).phis)
    (hd : d ∈ (func f l a s x).blocks) (hl : Label.ofBlock (x.copyId b.id) ∈ d.targets)
    (hr' : (func f l a s x).jumpFlow.Reaches d.id) (ht : (Value.temp t, d.label) ∈ q.incoming)
    (hlocal : t.isGlobal = false) :
    (func f l a s x).DefinedAlong (func f l a s x).jumpFlow t d d.instrs.length := by
  obtain ⟨hguard, -, hcopy⟩ := h.label_names
  obtain ⟨hbf, -⟩ := Loop.mem_blocks.mp hb
  obtain ⟨p, hp, e⟩ := mem_phis_copy hq
  rw [e] at ht
  obtain ⟨⟨v, k⟩, hin, ht⟩ := List.mem_map.mp ht
  obtain ⟨hv, hlabel⟩ := Prod.mk.inj ht
  obtain ⟨u, rfl, rfl⟩ : ∃ u, v = .temp u ∧ x.clone.temp u = t := by
    cases v with
    | temp u => exact ⟨u, rfl, Value.temp.inj hv⟩
    | _ => cases hv
  obtain ⟨c, hc, hcl, rfl⟩ := ((h.formed.phis b hbf p hp).2 _).mp (List.mem_map_of_mem hin)
  have hreach : ∀ hr : f.jumpFlow.Reaches c.id, f.DefinedAlong f.jumpFlow u c c.instrs.length := fun hr' =>
    h.formed.incoming b hbf hr p hp c hc hcl hr' u hin (h.isGlobal_of_temp hlocal)
  rcases h.mem_or_entering hb hc hcl with hcin | ⟨hbh, href⟩
  · -- the copy of the block that the entry came from
    obtain rfl : (x.names f f.forest l a).copy c = d := Func.eq_of_id_eq h.distinct (copy_mem hcin) hd
      (Label.ofBlock_injective ((hcopy c hcin).symm.trans hlabel))
    have := h.definedAlong_copy hcin (hreach (h.reaches_copy hcin hr'))
    rwa [← List.length_map (fun y : Instr => y.rename x.clone.temp)] at this
  · -- the guard, which the entering block now jumps to
    have hclabel : c.label = a.entering.label := congrArg BlockRef.label href
    rw [hclabel, hguard] at hlabel
    obtain rfl : x.plainGuard f = d := Func.eq_of_id_eq h.distinct guard_mem hd (Label.ofBlock_injective hlabel)
    have hcid : c.id = a.entering.number := congrArg BlockRef.number href
    have hcreach : f.jumpFlow.Reaches c.id := by
      obtain ⟨ws, hway, -⟩ := h.exists_way_in
      exact hcid ▸ hway.reaches
    rcases hreach hcreach with ht | ht | ⟨e, he, -, ht, hdom⟩
    · exact .inl ((h.temp_of_param ht).symm ▸ ht)
    · rw [Block.writesBefore_length] at ht
      obtain ⟨e, hdefined⟩ := h.definedAlong_guard hc ht fun ws p => hcid ▸ p.mem
      exact e.symm ▸ hdefined
    · obtain ⟨e, hdefined⟩ := h.definedAlong_guard he ht (hcid ▸ hdom)
      exact e.symm ▸ hdefined

/-- The function with the copy in front of the loop is formed by its jumps. -/
theorem formedByJumps (h : Detour f l a lanes updates n s n' x) : (func f l a s x).FormedByJumps where
  distinct := h.distinct
  terminated _ hd := h.isSome_jump hd
  target _ hd _ hk := h.exists_target hd hk
  phis d hd q hq := by
    rcases mem_func.mp hd with ⟨c, hc, rfl⟩ | rfl | ⟨b, hb, rfl⟩ | rfl
    · rw [kept_label]
      exact h.phis_kept hc hq
    · cases hq
    · exact h.phis_copy hb hq
    · cases hq
  defined_once := h.nodup_definitions
  typed _ hd hr _ hy := h.wellTyped_of_mem hd hr hy
  reads _ hd hr _ _ hy _ ht hlocal := h.definedAlong_of_read hd hr hy ht hlocal
  incoming d hd hr q hq e he hl hr' t ht hlocal := by
    rcases mem_func.mp hd with ⟨c, hc, rfl⟩ | rfl | ⟨b, hb, rfl⟩ | rfl
    · rw [kept_id] at hr
      rw [kept_label] at hl
      exact h.definedAlong_of_incoming_kept hc (h.reaches_kept hc hr) hq he hl hr' ht hlocal
    · cases hq
    · exact h.definedAlong_of_incoming_copy hb (h.reaches_copy hb hr) hq he hl hr' ht hlocal
    · cases hq

end Formed

end Detour

end SplitPlan

end LoopLanes
