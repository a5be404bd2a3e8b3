/-
What a plan stages.

Planning fails where a loop does not have the form it needs, so a plan that comes about tells
what the loop looks like (`LoopAnatomy.Found`) and what the staged blocks contain:

* `LoopClone.temp_injective` — a copy keeps different temporaries apart;
* `exists_update` — every strided phi has an update that adds the scaled stride;
* `Staged` — the guard block, the header and the latch of the main loop.
-/
import LoopLanes.Proofs.Cfg.Edits
import LoopLanes.Proofs.Split.Copies
import LoopLanes.Proofs.Split.Counting
import LoopLanes.Proofs.Basic.Success
import LoopLanes.Proofs.Loop.Parts

namespace LoopLanes

variable {n n' : TempCounter}

namespace Planning

theorem gives_require {α : Type} {e : UnsupportedLoop} {o : Option α} {a : α} :
    Gives (Planning.require e o) n a n' ↔ o = some a ∧ n = n' := by
  cases o with
  | none => simp [Planning.require, not_gives_throw]
  | some b => simp [Planning.require, gives_pure]

theorem gives_fresh {ty : Ty} {t : Temp} :
    Gives (Planning.fresh ty) n t n' ↔ t = ⟨toString (n + 1), false, ty⟩ ∧ n' = n + 1 := by
  simp only [Planning.fresh, gives_modifyGet, TempCounter.fresh, Prod.mk.injEq]
  exact ⟨fun h => ⟨h.1.symm, h.2.symm⟩, fun h => ⟨h.1.symm, h.2.symm⟩⟩

theorem le_of_mapM {α β : Type} {g : α → Planning β}
    (hg : ∀ a b n n', Gives (g a) n b n' → n ≤ n') : ∀ {as : List α} {bs : List β}
    {n n' : TempCounter}, Gives (as.mapM g) n bs n' → n ≤ n' := by
  intro as
  induction as with
  | nil =>
    intro bs n n' h
    exact Nat.le_of_eq (gives_pure.mp h).2
  | cons a as ih =>
    intro bs n n' h
    rw [List.mapM_cons] at h
    obtain ⟨b, k, hb, h⟩ := gives_bind.mp h
    obtain ⟨bs', k', hbs, h⟩ := gives_bind.mp h
    obtain ⟨-, rfl⟩ := gives_pure.mp h
    exact Nat.le_trans (hg a b n k hb) (ih hbs)

end Planning

/-! ### The anatomy of a loop -/

/-- What is known of a loop whose parts were found. -/
structure LoopAnatomy.Found (f : Func) (t : LoopForest) (l : Loop) (r : Recurrences)
    (a : LoopAnatomy) : Prop where
  exiting : (l.exitingBlocks f t).map (·.id) = [l.header.number]
  latch : l.singleLatch? f t = some a.latch
  latch_jump : ∃ target, (f.linked? a.latch).bind (·.jump) = some (.jump target)
  latch_ne : a.latch.number ≠ l.header.number
  entering : l.outsidePreds f t = [a.entering]
  header : f.linked? l.header = some a.header
  bodyEntry : (a.header.succ.map (·.number)).find? (t.contains l) = some a.bodyEntry
  postDom : (DomTree.ofFunc f true).dominates a.latch.number a.bodyEntry = true
  induction : Induction.ofLoop? f t l = some a.induction
  stride : (r.stride? a.induction.indvar).isSome = true
  monotone : a.induction.op.Monotone a.induction.step

theorem SplitPlan.found_of_anatomy {f : Func} {t : LoopForest} {l : Loop} {r : Recurrences}
    {a : LoopAnatomy} (h : SplitPlan.anatomy f t l r = .ok a) : a.Found f t l r := by
  simp only [SplitPlan.anatomy, bind, Except.bind, throw, throwThe, MonadExceptOf.throw, pure,
    Except.pure] at h
  split at h
  case h_2 => cases h
  rename_i e hexit
  obtain ⟨he, h⟩ := ite_error_eq_ok.mp h
  split at h
  case h_2 => cases h
  rename_i latch hlatch
  split at h
  case h_2 => cases h
  rename_i target hjump
  obtain ⟨hne, h⟩ := ite_error_eq_ok.mp h
  split at h
  case h_2 => cases h
  rename_i entering hentering
  split at h
  case h_2 => cases h
  rename_i header hheader
  split at h
  case h_2 => cases h
  rename_i bodyEntry hbody
  obtain ⟨hpost, h⟩ := ite_error_eq_ok.mp h
  split at h
  case h_2 => cases h
  rename_i i hind
  obtain ⟨hmono, h⟩ := ite_error_eq_ok.mp h
  obtain ⟨hstride, h⟩ := ite_error_eq_ok.mp h
  cases h
  refine ⟨Decidable.not_not.mp he ▸ hexit, hlatch, ⟨target, hjump⟩, hne, hentering, hheader,
    hbody, by simpa using hpost, hind, Option.isSome_iff_ne_none.mpr (by simpa using hstride), ?_⟩
  cases hop : i.op <;> simp_all [CompOp.Monotone]

/-- A plan is made from the anatomy of a loop. -/
theorem SplitPlan.anatomy_of_make {f : Func} {t : LoopForest} {l : Loop} {width alignment : Nat} {r : Recurrences}
    {plan : SplitPlan} {n n' : TempCounter} (h : Gives (make f t l width alignment r) n plan n') :
    ∃ a : LoopAnatomy, a.Found f t l r := by
  unfold make at h
  obtain ⟨a, _, ha, -⟩ := gives_bind.mp h
  exact ⟨a, found_of_anatomy (gives_mk_pure.mp ha).1⟩

/-! ### Entries of phis -/

namespace Phi

variable {l : Label} {v : Value} {target : Temp} {p : Phi}

theorem find?_setEntries (l : Label) (v : Value) : ∀ es : List (Value × Label),
    ((setEntries l v es).find? (·.2 == l)).map (·.1) = some v := by
  intro es
  induction es with
  | nil => simp [setEntries]
  | cons e es ih =>
    obtain ⟨w, k⟩ := e
    by_cases h : k = l
    · simp [setEntries, h]
    · simp [setEntries, h, ih]

theorem incoming?_setIncoming (p : Phi) (l : Label) (v : Value) :
    (p.setIncoming l v).incoming? l = some v :=
  find?_setEntries l v p.incoming

theorem mem_setIn_of_ne {ps : List Phi} (h : p ∈ ps) (ne : p.target ≠ target) :
    p ∈ setIn target l v ps := by
  induction ps with
  | nil => simp at h
  | cons q ps ih =>
    simp only [setIn]
    rcases List.mem_cons.mp h with rfl | h
    · rw [if_neg (by simpa using ne)]
      simp
    · split
      · exact List.mem_cons_of_mem _ h
      · exact List.mem_cons_of_mem _ (ih h)

theorem setIncoming_mem_setIn {ps : List Phi} (hnodup : (ps.map (·.target)).Nodup) (h : p ∈ ps) :
    p.setIncoming l v ∈ setIn p.target l v ps := by
  induction ps with
  | nil => simp at h
  | cons q ps ih =>
    obtain ⟨hnew, hnodup⟩ := List.nodup_cons.mp hnodup
    simp only [setIn]
    rcases List.mem_cons.mp h with rfl | h
    · simp
    · have hne : q.target ≠ p.target := fun e => hnew (List.mem_map.mpr ⟨p, h, e.symm⟩)
      rw [if_neg (by simpa using hne)]
      exact List.mem_cons_of_mem _ (ih hnodup h)

end Phi

namespace SplitPlan

variable {f : Func} {t : LoopForest} {l : Loop} {a : LoopAnatomy} {lanes : Int}
  {updates : List StrideUpdate} {s : SplitParts} {u : StrideUpdate}

/-- Each scaled step flows into the phi that it is for, whose name no other update has. -/
theorem exists_redirected {ρ : Temp → Temp} {latch : Label} : ∀ {us : List StrideUpdate}
    {ps : List Phi} {p : Phi}, (ps.map (·.target)).Nodup → p ∈ ps → u ∈ us →
    ρ u.phi = p.target → (us.Pairwise fun u v => ρ u.phi ≠ ρ v.phi) →
      ∃ q ∈ us.foldl (fun ps u => Phi.setIn (ρ u.phi) latch (.temp u.next) ps) ps,
        q.target = p.target ∧ q.incoming? latch = some (.temp u.next) := by
  intro us
  induction us with
  | nil => simp
  | cons w us ih =>
    intro ps p hnodup hp hu htarget hpair
    obtain ⟨hother, hpair⟩ := List.pairwise_cons.mp hpair
    have hnodup' : ((Phi.setIn (ρ w.phi) latch (.temp w.next) ps).map (·.target)).Nodup := by
      rwa [Phi.map_target_setIn]
    rw [List.foldl_cons]
    rcases List.mem_cons.mp hu with rfl | hu
    · -- no later update touches the phi
      have hkeep : ∀ (us : List StrideUpdate) (ps : List Phi) (q : Phi), q ∈ ps →
          (∀ v ∈ us, ρ v.phi ≠ q.target) →
          q ∈ us.foldl (fun ps u => Phi.setIn (ρ u.phi) latch (.temp u.next) ps) ps := by
        intro us
        induction us with
        | nil => exact fun _ _ hq _ => hq
        | cons v us ihus =>
          intro ps q hq hne
          obtain ⟨hv, hus⟩ := List.forall_mem_cons.mp hne
          exact ihus _ q (Phi.mem_setIn_of_ne hq (Ne.symm hv)) hus
      refine ⟨p.setIncoming latch (.temp u.next), hkeep us _ _ ?_ fun v hv => ?_, rfl,
        Phi.incoming?_setIncoming ..⟩
      · rw [htarget]
        exact Phi.setIncoming_mem_setIn hnodup hp
      · exact fun e => hother v hv (htarget.trans e.symm)
    · have hne : p.target ≠ ρ w.phi := fun e => hother u hu (e.symm.trans htarget.symm)
      exact ih hnodup' (Phi.mem_setIn_of_ne hp hne) hu htarget hpair

theorem phi_of_stride? {r : Recurrences} {phi : Temp} {e : StridePattern}
    (h : r.stride? phi = some e) : e.phi = phi := by
  simpa using List.find?_some h

/-- Scaling one step takes one name from the counter. -/
theorem gives_scaledStep {e : StridePattern} (h : Gives (do
      let step ← Planning.require .boundOverflow (fitI32? (e.stride * lanes))
      return (⟨e.phi, ← Planning.fresh .i32, step⟩ : StrideUpdate) : Planning StrideUpdate) n u n') :
    (u.phi = e.phi ∧ fitI32? (e.stride * lanes) = some u.step) ∧
      u.next = ⟨toString (n + 1), false, .i32⟩ ∧ n' = n + 1 := by
  obtain ⟨step, _, hstep, h⟩ := gives_bind.mp h
  obtain ⟨hfit, rfl⟩ := Planning.gives_require.mp hstep
  obtain ⟨next, _, hnext, h⟩ := gives_bind.mp h
  obtain ⟨rfl, rfl⟩ := Planning.gives_fresh.mp hnext
  obtain ⟨rfl, rfl⟩ := gives_pure.mp h
  exact ⟨⟨rfl, hfit⟩, rfl, rfl⟩

/-- The updates belong to the strided phis, each with its stride scaled. -/
theorem updates_of_scaledSteps {phis : List Phi} {r : Recurrences} {n n' : TempCounter}
    (h : Gives (scaledSteps phis r lanes) n updates n') :
    List.Forall₂ (fun (e : StridePattern) u => u.phi = e.phi ∧ fitI32? (e.stride * lanes) = some u.step)
      (phis.filterMap fun p => r.stride? p.target) updates := by
  refine (gives_mapM h).imp ?_
  rintro e u ⟨k, k', h⟩
  exact (gives_scaledStep h).1

/-- Scaling steps only takes names from the counter. -/
theorem le_of_scaledSteps {phis : List Phi} {r : Recurrences} {n n' : TempCounter}
    (h : Gives (scaledSteps phis r lanes) n updates n') : n ≤ n' :=
  Planning.le_of_mapM (fun _ _ k _ h => (gives_scaledStep h).2.2 ▸ Nat.le_succ k) h

theorem phis_of_updates {phis : List Phi} {r : Recurrences}
    (h : List.Forall₂ (fun (e : StridePattern) u => u.phi = e.phi ∧
      fitI32? (e.stride * lanes) = some u.step) (phis.filterMap fun p => r.stride? p.target) updates) :
    (updates.map (·.phi)).Sublist (phis.map (·.target)) := by
  have hmap : updates.map (·.phi) = (phis.filterMap fun p => r.stride? p.target).map (·.phi) := by
    generalize phis.filterMap (fun p => r.stride? p.target) = es at h
    induction h with
    | nil => rfl
    | cons hu _ ih => simp [hu.1, ih]
  rw [hmap]
  clear h hmap
  induction phis with
  | nil => exact .slnil
  | cons p phis ih =>
    rw [List.filterMap_cons]
    cases he : r.stride? p.target with
    | none => exact ih.cons _
    | some e =>
      rw [List.map_cons, List.map_cons, phi_of_stride? he]
      exact ih.cons_cons _

theorem exists_update {phis : List Phi} {r : Recurrences} {p : Phi} {e : StridePattern}
    (h : List.Forall₂ (fun (e : StridePattern) u => u.phi = e.phi ∧
      fitI32? (e.stride * lanes) = some u.step) (phis.filterMap fun p => r.stride? p.target) updates)
    (hp : p ∈ phis) (he : r.stride? p.target = some e) :
    ∃ u ∈ updates, u.phi = p.target ∧ fitI32? (e.stride * lanes) = some u.step := by
  have hmem : e ∈ phis.filterMap fun p => r.stride? p.target :=
    List.mem_filterMap.mpr ⟨p, hp, he⟩
  generalize phis.filterMap (fun p => r.stride? p.target) = es at h hmem
  induction h with
  | nil => simp at hmem
  | cons hu _ ih =>
    rcases List.mem_cons.mp hmem with rfl | hmem
    · exact ⟨_, by simp, hu.1.trans (phi_of_stride? he), hu.2⟩
    · obtain ⟨u, hu, hphi⟩ := ih hmem
      exact ⟨u, List.mem_cons_of_mem _ hu, hphi⟩

end SplitPlan

/-! ### The main loop -/

/-- How the main loop counts: its header goes on while the copy of `indvar` passes a test
against `vend`, its latch adds `advance` to it, and what remains starts from where it was left. -/
structure SplitParts.Counts (s : SplitParts) (indvar : Temp) (vop : CompOp) (vend : Value)
    (advance : Int) : Prop where
  test : ∃ b ∈ s.blocks, b.id = s.mainHeader ∧ ∃ cond body,
    b.instrs.getLast? = some (.comp cond .icmp vop .i32 (.temp (s.clone.temp indvar)) vend) ∧
    b.jump = some (.branch .i32 (.temp cond) body s.joining)
  update : ∃ next,
    (∃ b ∈ s.blocks, b.id = s.mainLatch ∧
      .arith next .add .i32 (.temp (s.clone.temp indvar)) (.ofInt advance) ∈ b.instrs) ∧
    ∃ b ∈ s.blocks, b.id = s.mainHeader ∧ ∃ p ∈ b.phis,
      p.target = s.clone.temp indvar ∧
        p.incoming? (Label.ofBlock s.mainLatch) = some (.temp next)
  leaving : s.leaving.lookup indvar = some (.temp (s.clone.temp indvar))

namespace SplitPlan

variable {f : Func} {t : LoopForest} {l : Loop} {a : LoopAnatomy} {lanes : Int}
  {updates : List StrideUpdate} {s : SplitParts} {u : StrideUpdate}

/-- The header and the latch of the main loop, made from the copies of their blocks. -/
def finish (updates : List StrideUpdate) (ρ : Temp → Temp) (header latch : Int)
    (test : Block → Block) (b : Block) : Block :=
  let b := if b.id = header then redirect updates ρ (Label.ofBlock latch) (test b) else b
  if b.id = latch then advance updates ρ b else b

/-- The header of the main loop, with the test at its end. -/
def testBlock (c : LoopClone) (i : Induction) (cond : Temp) (op : CompOp) (bound : Value)
    (body joining : Label) (b : Block) : Block :=
  { b with
    instrs := b.instrs ++ [.comp cond .icmp op .i32 (.temp (c.temp i.indvar)) bound]
    jump := some (.branch .i32 (.temp cond) body joining) }

theorem finish_header {ρ : Temp → Temp} {header latch : Int} {test : Block → Block} {b : Block}
    (htest : ∀ b, (test b).id = b.id) (hne : header ≠ latch) (h : b.id = header) :
    finish updates ρ header latch test b =
      redirect updates ρ (Label.ofBlock latch) (test b) := by
  have hid : (redirect updates ρ (Label.ofBlock latch) (test b)).id = header := (htest b).trans h
  simp only [finish, if_pos h]
  rw [if_neg (by rw [hid]; exact hne)]

theorem finish_latch {ρ : Temp → Temp} {header latch : Int} {test : Block → Block} {b : Block}
    (hne : header ≠ latch) (h : b.id = latch) :
    finish updates ρ header latch test b = advance updates ρ b := by
  simp only [finish, if_neg (show ¬ b.id = header from fun e => hne (e.symm.trans h)), if_pos h]

theorem copy_id {c : LoopClone} {b : Block} {id : Int} (h : c.block? b.id = some id) :
    (c.copy b).id = id := by
  show (c.block? b.id).getD b.id = id
  rw [h, Option.getD_some]

/-- What a split stages, for the update of a phi of the header. -/
theorem counts_of_splitParts {r : Recurrences} (hf : f.verify = .ok ()) (ha : a.Found f t l r)
    (hheader : t.contains l l.header.number = true) (hu : u ∈ updates)
    (hphi : u.phi = a.induction.indvar)
    (hphis : (updates.map (·.phi)).Sublist (a.header.phis.map (·.target)))
    (h : Gives (splitParts f t l a lanes updates) n s n') :
    ∃ offset vop vend instrs n₁ n₂,
      fitI32? (a.induction.step * (lanes - 1)) = some offset ∧
      n = n₁ ∧ Gives (guard a.induction offset) n₁ (vop, vend, instrs) n₂ ∧ n₂ ≤ n' ∧
      (∃ b, s.blocks.head? = some b ∧ b.instrs = instrs) ∧
      s.Counts a.induction.indvar vop vend u.step := by
  have hlinked := Func.wellLinked_of_verify hf
  unfold splitParts at h
  obtain ⟨offset, n₁, hoffset, h⟩ := gives_bind.mp h
  obtain ⟨⟨op, bound, instrs⟩, n₂, hguard, h⟩ := gives_bind.mp h
  obtain ⟨clone, n₃, hclone, h⟩ := gives_bind.mp h
  obtain ⟨header, n₄, hnewHeader, h⟩ := gives_bind.mp h
  obtain ⟨latch, n₅, hnewLatch, h⟩ := gives_bind.mp h
  obtain ⟨body, n₆, hbody, h⟩ := gives_bind.mp h
  obtain ⟨cond, n₇, hcond, h⟩ := gives_bind.mp h
  obtain ⟨hs, rfl⟩ := gives_pure.mp h
  clear h
  obtain ⟨hoffset, hn⟩ := Planning.gives_require.mp hoffset
  have hclone := gives_modifyGet.mp hclone
  have hle : n₂ ≤ n₇ := by
    obtain ⟨-, rfl⟩ := Planning.gives_require.mp hnewHeader
    obtain ⟨-, rfl⟩ := Planning.gives_require.mp hnewLatch
    obtain ⟨-, rfl⟩ := Planning.gives_require.mp hbody
    obtain ⟨-, rfl⟩ := Planning.gives_fresh.mp hcond
    obtain ⟨-, rfl⟩ := Prod.mk.inj hclone
    exact Nat.le_trans (LoopClone.le_freshTemps _ n₂) (Nat.le_succ _)
  have hnewHeader : clone.block? l.header.number = some header :=
    (Planning.gives_require.mp hnewHeader).1
  have hnewLatch : clone.block? a.latch.number = some latch :=
    (Planning.gives_require.mp hnewLatch).1
  have hne : header ≠ latch := fun e =>
    ha.latch_ne (LoopClone.block?_injective hclone (e ▸ hnewLatch) hnewHeader)
  have hblocks : ((l.blocks f t).map Block.id).Nodup :=
    hlinked.nodup.sublist (List.filter_sublist.map _)
  -- the header and the latch are blocks of the loop
  obtain ⟨hhm, hhref⟩ := Func.linked?_mem ha.header
  have hhid : a.header.id = l.header.number := congrArg BlockRef.number hhref
  have hhmem : a.header ∈ l.blocks f t := Loop.mem_blocks.mpr ⟨hhm, by rw [hhid]; exact hheader⟩
  obtain ⟨latchBlock, hlmem, hlid⟩ : ∃ b ∈ l.blocks f t, b.id = a.latch.number := by
    obtain ⟨target, hjump⟩ := ha.latch_jump
    obtain ⟨b, hb, -⟩ := Option.bind_eq_some_iff.mp hjump
    obtain ⟨hbm, hbref⟩ := Func.linked?_mem hb
    have hid : b.id = a.latch.number := congrArg BlockRef.number hbref
    refine ⟨b, Loop.mem_blocks.mpr ⟨hbm, ?_⟩, hid⟩
    rw [hid]
    exact (Loop.singleLatch?_eq_some ha.latch).1.2
  have hwrites : ∀ p ∈ a.header.phis, p.target ∈ writesOf (l.blocks f t) := fun p hp =>
    List.mem_flatMap.mpr ⟨_, hhmem, List.mem_append_left _ (List.mem_map_of_mem hp)⟩
  obtain ⟨p, hp, hptarget⟩ : ∃ p ∈ a.header.phis, p.target = a.induction.indvar := by
    obtain ⟨p, hp, he⟩ := List.mem_map.mp (hphis.subset (List.mem_map_of_mem hu))
    exact ⟨p, hp, he.trans hphi⟩
  generalize hjoining : Label.ofBlock (f.total + 1 + (l.blocks f t).length + 1) = joining at hs
  generalize hc : (clone.mapOutside a.entering.label (Label.ofBlock (f.total + 1))).mapOutside
    (Label.ofBlock a.induction.exit) joining = c at hs
  have hctemp : c.temp = clone.temp := by rw [← hc]; rfl
  have hcblock : c.block? = clone.block? := by rw [← hc]; rfl
  have hheaderId : (c.copy a.header).id = header := copy_id (by rw [hcblock, hhid, hnewHeader])
  have hlatchId : (c.copy latchBlock).id = latch := copy_id (by rw [hcblock, hlid, hnewLatch])
  have hstaged : ∀ b ∈ l.blocks f t, finish updates c.temp header latch
      (testBlock c a.induction cond op bound (Label.ofBlock body) joining) (c.copy b) ∈ s.blocks := by
    intro b hb
    rw [← hs, LoopClone.copies_eq c hblocks]
    exact List.mem_append_left _ (List.mem_cons_of_mem _
      (List.mem_map_of_mem (List.mem_map_of_mem hb)))
  have hheaderBlock := hstaged a.header hhmem
  have htest : ∀ b, (testBlock c a.induction cond op bound (Label.ofBlock body) joining b).id = b.id :=
    fun _ => rfl
  rw [finish_header htest hne hheaderId] at hheaderBlock
  have hlatchBlock := hstaged latchBlock hlmem
  rw [finish_latch hne hlatchId] at hlatchBlock
  have hsclone : s.clone = c := by rw [← hs]
  have hsheader : s.mainHeader = header := by rw [← hs]
  have hslatch : s.mainLatch = latch := by rw [← hs]
  refine ⟨offset, op, bound, instrs, n₁, n₂, hoffset, hn, hguard, hle, ?_, ?_, ?_, ?_⟩
  · rw [← hs]
    exact ⟨_, rfl, rfl⟩
  · refine ⟨_, hheaderBlock, hheaderId.trans hsheader.symm, cond, Label.ofBlock body, ?_, ?_⟩
    · rw [hsclone]
      simp [redirect, testBlock]
    · rw [← hs]
      rfl
  · -- the scaled step flows into the copy of the phi
    have hnodup : ((c.copy a.header).phis.map (·.target)).Nodup := by
      have hmap : (c.copy a.header).phis.map (·.target) =
          (a.header.phis.map (·.target)).map c.temp := by
        simp [LoopClone.copy, Phi.rename, Phi.renameLabels]
      rw [hmap]
      refine List.Nodup.map_on ?_ (Func.phi_targets_nodup hf hhm)
      intro x hx y hy e
      obtain ⟨q, hq, rfl⟩ := List.mem_map.mp hx
      obtain ⟨q', hq', rfl⟩ := List.mem_map.mp hy
      rw [hctemp] at e
      exact LoopClone.temp_injective hclone (hwrites q hq) (hwrites q' hq') e
    have hpair : updates.Pairwise fun u v => c.temp u.phi ≠ c.temp v.phi := by
      have hupdates := (Func.phi_targets_nodup hf hhm).sublist hphis
      refine (List.pairwise_map.mp hupdates).imp_of_mem fun {v w} hv hw hvw e => hvw ?_
      obtain ⟨q, hq, hqe⟩ := List.mem_map.mp (hphis.subset (List.mem_map_of_mem hv))
      obtain ⟨q', hq', hqe'⟩ := List.mem_map.mp (hphis.subset (List.mem_map_of_mem hw))
      rw [hctemp] at e
      exact LoopClone.temp_injective hclone (hqe ▸ hwrites q hq) (hqe' ▸ hwrites q' hq') e
    obtain ⟨q, hq, hqt, hqi⟩ := @exists_redirected _ _ (Label.ofBlock latch) _ _
      ((p.rename c.temp).renameLabels c.label) hnodup (List.mem_map_of_mem hp) hu
      (by rw [hphi, ← hptarget]; rfl) hpair
    refine ⟨u.next, ⟨_, hlatchBlock, hlatchId.trans hslatch.symm, ?_⟩,
      _, hheaderBlock, hheaderId.trans hsheader.symm, q, hq, ?_, ?_⟩
    · rw [hsclone, ← hphi]
      exact List.mem_append_right _ (List.mem_map_of_mem hu)
    · rw [hqt, hsclone, ← hptarget]
      rfl
    · rw [hslatch]
      exact hqi
  · -- every header phi hands on its copy
    have hleaving : s.leaving =
        a.header.phis.map fun p => (p.target, .temp (c.temp p.target)) := by rw [← hs]
    rw [hleaving, hsclone, ← hptarget]
    refine lookup_of_mem ?_ (List.mem_map_of_mem (f := fun p : Phi =>
      (p.target, Value.temp (c.temp p.target))) hp)
    rw [List.map_map]
    exact Func.phi_targets_nodup hf hhm

end SplitPlan

end LoopLanes
