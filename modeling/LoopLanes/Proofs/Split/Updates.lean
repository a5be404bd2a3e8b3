/-
Scaled steps in a function.

The header of a main loop takes in the scaled steps that its latch computes.  Both change as
`SplitPlan.finish` says, whether the loop is a copy or stands where it stood.

* `nexts_of_scaledSteps` — the results of the scaled steps have fresh names;
* `Recurrences.exists_of_mem_strides` — only words step by strides;
* `Stepping.grows` — a function with the steps put in is formed by its jumps as before;
* `verify_inPlace` — so a plan that needs no second loop leaves the function verified.
-/
import LoopLanes.Proofs.Cfg.Recasts
import LoopLanes.Proofs.Loop.Body
import LoopLanes.Proofs.Split.Commit

namespace LoopLanes

/-! ### Strides of words -/

namespace Recurrences

variable {g : UseGraph} {phis : List Phi}

/-- Only the phis of words have strides. -/
theorem exists_of_mem_strides {e : StridePattern} (h : e ∈ (ofPhis g phis).strides) :
    ∃ p ∈ phis, p.target = e.phi ∧ p.ty = .i32 := by
  obtain ⟨p, hp, hphi, hsum⟩ := (summed_of_ofPhis h).sum
  exact ⟨p, hp, hphi, ty_of_sum? hsum⟩

end Recurrences

namespace SplitPlan

variable {f : Func} {t : LoopForest} {l : Loop} {a : LoopAnatomy} {lanes : Int}
  {updates : List StrideUpdate} {u : StrideUpdate} {n n' : TempCounter} {ρ : Temp → Temp}

/-- The results of the scaled steps have fresh names. -/
theorem nexts_of_scaledSteps {phis : List Phi} {r : Recurrences}
    (h : Gives (scaledSteps phis r lanes) n updates n') : Temp.AllFresh n n' (updates.map (·.next)) := by
  unfold scaledSteps at h
  generalize phis.filterMap (fun p => r.stride? p.target) = es at h
  induction es generalizing n updates with
  | nil =>
    obtain ⟨rfl, rfl⟩ := gives_pure.mp h
    exact .nil n
  | cons e es ih =>
    rw [List.mapM_cons] at h
    obtain ⟨u, k, hu, h⟩ := gives_bind.mp h
    obtain ⟨us, k', hus, h⟩ := gives_bind.mp h
    obtain ⟨rfl, rfl⟩ := gives_pure.mp h
    obtain ⟨-, hnext, rfl⟩ := gives_scaledStep hu
    rw [List.map_cons, hnext]
    exact (Temp.AllFresh.singleton n false .i32).append (ih hus)

end SplitPlan

/-! ### What the steps change -/

/-- The instruction that makes a scaled step. -/
def StrideUpdate.instr (ρ : Temp → Temp) (u : StrideUpdate) : Instr :=
  .arith u.next .add .i32 (.temp (ρ u.phi)) (.ofInt u.step)

namespace SplitPlan

variable {f : Func} {updates : List StrideUpdate} {ρ : Temp → Temp} {b header latch : Block} {k : Label}
  {q : Phi} {h l : Int} {test : Block → Block}

theorem targets_redirect :
    (redirect updates ρ k b).phis.map (·.target) = b.phis.map (·.target) := by
  rw [redirect]
  dsimp only
  induction updates generalizing b with
  | nil => rfl
  | cons u us ih =>
    rw [List.foldl_cons, ← Phi.map_target_setIn (ρ u.phi) k (.temp u.next) b.phis]
    exact ih (b := { b with phis := Phi.setIn (ρ u.phi) k (.temp u.next) b.phis })

/-- A phi that scaled steps flow into has the entries that it had, but for those from the latch. -/
theorem exists_of_mem_redirect (hq : q ∈ (redirect updates ρ k b).phis) : ∃ p ∈ b.phis,
    (k ∈ p.incoming.map (·.2) → q.incoming.map (·.2) = p.incoming.map (·.2)) ∧
    ∀ e ∈ q.incoming, e ∈ p.incoming ∨ ∃ u ∈ updates, e = (.temp u.next, k) := by
  induction updates generalizing b with
  | nil => exact ⟨q, hq, fun _ => rfl, fun _ he => .inl he⟩
  | cons u us ih =>
    obtain ⟨p, hp, hlabels, hentries⟩ := ih (b := { b with phis := Phi.setIn (ρ u.phi) k (.temp u.next) b.phis }) hq
    have later : ∀ {e : Value × Label}, (∃ v ∈ us, e = (.temp v.next, k)) →
        ∃ v ∈ u :: us, e = (.temp v.next, k) := by
      rintro e ⟨v, hv, rfl⟩
      exact ⟨v, List.mem_cons_of_mem _ hv, rfl⟩
    rcases Phi.exists_of_mem_setIn hp with hp' | ⟨p', hp', -, rfl⟩
    · exact ⟨p, hp', hlabels, fun e he => (hentries e he).imp_right later⟩
    · refine ⟨p', hp', fun hk => ?_, fun e he => ?_⟩
      · have hset := Phi.labels_setEntries (v := .temp u.next) hk
        exact (hlabels (hset.symm ▸ hk)).trans hset
      · rcases hentries e he with he | he
        · exact (Phi.mem_setEntries he).imp_right fun e => ⟨u, List.mem_cons_self, e⟩
        · exact .inr (later he)

theorem finish_id (b : Block) : (finish updates ρ h l id b).id = b.id :=
  congrArg BlockRef.number (finish_ref (fun _ => rfl) b)

theorem finish_instrs : (finish updates ρ h l id b).instrs =
    b.instrs ++ if b.id = l then updates.map (·.instr ρ) else [] := by
  have key : ∀ c : Block, c.id = b.id → c.instrs = b.instrs →
      (if c.id = l then advance updates ρ c else c).instrs =
        b.instrs ++ if b.id = l then updates.map (·.instr ρ) else [] := by
    intro c hid hinstrs
    rw [hid]
    split
    · rw [← hinstrs]
      rfl
    · rw [hinstrs, List.append_nil]
  unfold finish
  dsimp only
  split
  · exact key _ rfl rfl
  · exact key b rfl rfl

theorem finish_phis : (finish updates ρ h l id b).phis =
    if b.id = h then (redirect updates ρ (Label.ofBlock l) b).phis else b.phis := by
  unfold finish
  dsimp only
  split <;> split <;> rfl

theorem finish_links : (finish updates ρ h l id b).prev = b.prev ∧ (finish updates ρ h l id b).succ = b.succ := by
  unfold finish
  dsimp only
  split <;> split <;> exact ⟨rfl, rfl⟩

/-- A header and a latch that scaled steps can be put into. -/
structure Stepping (f : Func) (header latch : Block) (updates : List StrideUpdate) (ρ : Temp → Temp) : Prop where
  header_mem : header ∈ f.blocks
  latch_mem : latch ∈ f.blocks
  ne : header.id ≠ latch.id
  edge : header.label ∈ latch.targets
  dominates : ∀ vs, f.jumpFlow.Path latch.id vs → header.id ∈ vs
  phis : ∀ u ∈ updates, ρ u.phi ∈ header.phis.map (·.target) ∧ (ρ u.phi).ty = .i32
  fresh : (f.params ++ writesOf f.blocks ++ updates.map (·.next)).Nodup

namespace Stepping

variable {x : Instr} {t : Temp}

theorem write_instr : (updates.map (·.instr ρ)).filterMap Instr.write = updates.map (·.next) := by
  rw [List.filterMap_map]
  exact List.filterMap_eq_map_iff_forall_eq_some.mpr fun _ _ => rfl

/-- Blocks grow by the scaled steps. -/
theorem grows (hs : Stepping f header latch updates ρ) (hf : f.FormedByJumps) :
    f.Grows (finish updates ρ header.id latch.id id)
      fun b => if b.id = latch.id then updates.map (·.instr ρ) else [] := by
  have hwritten : ∀ b ∈ f.blocks, b.id = latch.id → ∀ u ∈ updates,
      u.next ∈ (finish updates ρ header.id latch.id id b).writes := by
    intro b hb hid u hu
    refine List.mem_append_right _ ?_
    rw [finish_instrs, if_pos hid, List.filterMap_append, write_instr]
    exact List.mem_append_right _ (List.mem_map_of_mem hu)
  refine ⟨⟨fun b _ => finish_ref (fun _ => rfl) b, fun b _ => finish_instrs, fun b _ => ?_⟩, fun b hb q hq => ?_,
    fun b _ => .inl ?_, ?_, fun b _ x hx => ?_, fun b hb hr pos x hx t ht _ => ?_, fun b hb q hq e he => ?_⟩
  · rw [finish_phis]
    split
    · exact targets_redirect
    · rfl
  · rw [finish_phis] at hq
    split at hq
    · rename_i hid
      obtain rfl := Func.eq_of_id_eq hf.distinct hb hs.header_mem hid
      obtain ⟨p, hp, hlabels, -⟩ := exists_of_mem_redirect hq
      exact ⟨p, hp, hlabels (((hf.phis b hb p hp).2 _).mpr ⟨latch, hs.latch_mem, hs.edge, rfl⟩)⟩
    · exact ⟨q, hq, rfl⟩
  · rw [finish_jump]
    exact ite_self _
  · have hadded : (f.blocks.flatMap fun b =>
        (if b.id = latch.id then updates.map (·.instr ρ) else []).filterMap Instr.write) =
          updates.map (·.next) := by
      rw [← flatMap_ite_of_nodup hf.distinct hs.latch_mem (updates.map (·.next))]
      refine List.flatMap_congr fun b _ => ?_
      split
      · exact write_instr
      · rfl
    rw [hadded]
    exact hs.fresh
  · split at hx
    · obtain ⟨u, hu, rfl⟩ := List.mem_map.mp hx
      have hty := (hs.phis u hu).2
      simp [StrideUpdate.instr, Instr.wellTyped, Value.ty, Value.ofInt, hty, ArithOp.operandTy]
    · cases hx
  · split at hx
    · rename_i hid
      obtain ⟨u, hu, rfl⟩ := List.mem_map.mp (List.mem_of_getElem? hx)
      obtain rfl : t = ρ u.phi := by simpa [StrideUpdate.instr, Instr.readTemps, Instr.reads, Value.temp?, Value.ofInt] using ht
      -- the header defines the phi, and it stands before the latch on every path
      refine .inr (.inr ⟨_, List.mem_map_of_mem hs.header_mem, ?_, ?_, ?_⟩)
      · rw [finish_id, finish_id, hid]
        exact hs.ne
      · refine List.mem_append_left _ ?_
        rw [finish_phis, if_pos rfl, targets_redirect]
        exact (hs.phis u hu).1
      · rw [finish_id, finish_id, hid]
        exact hs.dominates
    · simp at hx
  · rw [finish_phis] at hq
    split at hq
    · obtain ⟨p, hp, -, hentries⟩ := exists_of_mem_redirect hq
      rcases hentries e he with he | ⟨u, hu, rfl⟩
      · exact .inl ⟨p, hp, he⟩
      · refine .inr fun c hc hlabel t ht => ?_
        obtain rfl : u.next = t := Value.temp.inj ht
        exact hwritten c hc (Label.ofBlock_injective hlabel) u hu
    · exact .inl ⟨q, hq, he⟩

end Stepping

/-! ### Plans that need no second loop -/

section InPlace

variable {l : Loop} {a : LoopAnatomy} {lanes : Int} {n n' : TempCounter}

/-- The latch of a loop whose parts were found goes back to the header, which dominates it. -/
theorem latch_of_found {r : Recurrences} (hf : f.WellLinked) (hl : l ∈ f.forest.loops)
    (ha : a.Found f f.forest l r) : ∃ latch ∈ f.blocks, latch.ref = a.latch ∧ a.header.id ≠ latch.id ∧
      f.forest.contains l latch.id = true ∧ a.header.label ∈ latch.targets ∧
      ∀ vs, f.jumpFlow.Path latch.id vs → a.header.id ∈ vs := by
  obtain ⟨hm, href⟩ := Func.linked?_mem ha.header
  have hid : a.header.id = l.header.number := congrArg BlockRef.number href
  obtain ⟨⟨hlatch, hin⟩, honly⟩ := Loop.singleLatch?_eq_some ha.latch
  have hprevs : l.headerPrev f = a.header.prev := by simp [Loop.headerPrev, ha.header]
  rw [hprevs] at hlatch honly
  obtain ⟨latch, hlm, hlref, hsucc⟩ := hf.prev _ hm _ hlatch
  have hlid : latch.id = a.latch.number := congrArg BlockRef.number hlref
  have hlinks := Func.linkedByJumps_of_wellLinked hf
  refine ⟨latch, hlm, hlref, ?_, hlid ▸ hin, (hlinks.mem_succ_iff hf.nodup hlm hm).mp hsucc, ?_⟩
  · rw [hid, hlid]
    exact Ne.symm ha.latch_ne
  · obtain ⟨p, hp, hdom⟩ := LoopForest.exists_latch hf.toLinked hl (Loop.isRoot_of_exits ha.exiting)
    have hpl := LoopForest.contains_latch hf.toLinked hl hp hdom
    have hp : p ∈ a.header.prev := by simpa [LoopSearch.prevs, ha.header] using hp
    rw [← hid, honly p hp hpl, ← hlid, Flow.dominates_iff_forall_path, hlinks.flow_eq] at hdom
    exact hdom.2

/-- The scaled steps belong to phis of words in the header. -/
theorem phis_of_scaledSteps (hext : f.Extensible n) (hheader : f.linked? l.header = some header)
    {k : TempCounter} (h : Gives (scaledSteps header.phis (.ofLoop f f.forest l) lanes) k updates n') :
    ∀ u ∈ updates, u.phi ∈ header.phis.map (·.target) ∧ u.phi.ty = .i32 := by
  intro u hu
  have hupdates := updates_of_scaledSteps h
  refine ⟨(phis_of_updates hupdates).subset (List.mem_map_of_mem hu), ?_⟩
  obtain ⟨e, he, hphi⟩ : ∃ e ∈ header.phis.filterMap fun p => (Recurrences.ofLoop f f.forest l).stride? p.target,
      u.phi = e.phi := by
    generalize header.phis.filterMap (fun p => (Recurrences.ofLoop f f.forest l).stride? p.target) = es at hupdates
    clear h
    induction hupdates with
    | nil => cases hu
    | cons hstep _ ih =>
      rcases List.mem_cons.mp hu with rfl | hu
      · exact ⟨_, List.mem_cons_self, hstep.1⟩
      · obtain ⟨e, he, hphi⟩ := ih hu
        exact ⟨e, List.mem_cons_of_mem _ he, hphi⟩
  obtain ⟨p, -, hstride⟩ := List.mem_filterMap.mp he
  have hmem := List.mem_of_find?_eq_some hstride
  rw [Recurrences.ofLoop, hheader] at hmem
  obtain ⟨q, hq, htarget, hty⟩ := Recurrences.exists_of_mem_strides hmem
  rw [hphi, ← htarget, ← hext.phis header (Func.linked?_mem hheader).1 q hq, hty]

/-- A plan that needs no second loop was made from the anatomy of the loop. -/
theorem inPlace_of_make {r : Recurrences} {width alignment : Nat} {plan : SplitPlan} {latch : BlockRef}
    {cond : Temp} (h : Gives (make f f.forest l width alignment r) n plan n')
    (hk : plan.kind = .inPlace latch updates cond) :
    ∃ a : LoopAnatomy, a.Found f f.forest l r ∧ latch = a.latch ∧ plan.header = l.header ∧
      ∃ lanes, Gives (scaledSteps a.header.phis r lanes) n updates n' := by
  unfold make at h
  obtain ⟨a, _, ha, h⟩ := gives_bind.mp h
  obtain ⟨hanatomy, rfl⟩ := gives_mk_pure.mp ha
  obtain ⟨lanes, _, hlanes, h⟩ := gives_bind.mp h
  obtain ⟨-, rfl⟩ := Planning.gives_require.mp hlanes
  obtain ⟨us, k, hupdates, h⟩ := gives_bind.mp h
  split at h
  · obtain ⟨rfl, rfl⟩ := gives_pure.mp h
    cases hk
    exact ⟨a, found_of_anatomy hanatomy, rfl, rfl, lanes, hupdates⟩
  · obtain ⟨s, _, -, h⟩ := gives_bind.mp h
    obtain ⟨rfl, -⟩ := gives_pure.mp h
    cases hk

/-- The steps are put into the latch and the header of the loop. -/
theorem modify_eq_mapBlocks (hnodup : (f.blocks.map Block.id).Nodup) (hheader : header ∈ f.blocks)
    (hlatch : latch ∈ f.blocks) (hne : header.id ≠ latch.id) :
    (f.modify latch.ref (advance updates ρ)).modify header.ref (redirect updates ρ latch.label) =
      f.mapBlocks (finish updates ρ header.id latch.id id) := by
  rw [Func.modify, Func.modify, Func.mapBlocks, List.map_map]
  refine congrArg (fun bs => { f with blocks := bs }) (List.map_congr_left fun b hb => ?_)
  have href : ∀ {c : Block}, c ∈ f.blocks → (b.ref == c.ref) = decide (b.id = c.id) := by
    intro c hc
    refine Bool.eq_iff_iff.mpr (beq_iff_eq.trans (Iff.trans ?_ decide_eq_true_iff.symm))
    exact ⟨congrArg BlockRef.number, fun e => congrArg Block.ref (Func.eq_of_id_eq hnodup hb hc e)⟩
  have hadvance : (advance updates ρ b).ref = b.ref := rfl
  have hredirect : (redirect updates ρ latch.label b).id = b.id := rfl
  have hlabel : latch.label = Label.ofBlock latch.id := rfl
  unfold finish
  by_cases hl : b.id = latch.id
  · -- the latch is not the header
    have hh : ¬ b.id = header.id := fun e => hne (e.symm.trans hl)
    simp only [Function.comp, href hlatch, decide_eq_true_eq, if_pos hl, hadvance, href hheader, if_neg hh]
  · by_cases hh : b.id = header.id
    · simp only [Function.comp, href hlatch, decide_eq_true_eq, if_neg hl, href hheader, if_pos hh, id_eq,
        ← hlabel, hredirect]
    · simp only [Function.comp, href hlatch, decide_eq_true_eq, if_neg hl, href hheader, if_neg hh]

/-- A plan that needs no second loop is put in, and the function it leaves is verified. -/
theorem verify_inPlace {width alignment : Nat} {plan : SplitPlan} {latch : BlockRef} {cond : Temp}
    (hf : f.verify = .ok ()) (hext : f.Extensible n) (hl : l ∈ f.forest.loops)
    (h : Gives (make f f.forest l width alignment (.ofLoop f f.forest l)) n plan n')
    (hword : (n' : Int) ≤ u32Max) (hk : plan.kind = .inPlace latch updates cond) :
    ∃ prepared g, plan.commit f = .ok (prepared, g) ∧ g.verify = .ok () := by
  have hlinked := Func.wellLinked_of_verify hf
  have hformed := Func.formedByJumps_of_verify hf
  obtain ⟨a, ha, rfl, hheader, lanes, hupdates⟩ := inPlace_of_make h hk
  obtain ⟨hm, href⟩ := Func.linked?_mem ha.header
  obtain ⟨latch, hlm, hlref, hne, -, hedge, hdom⟩ := latch_of_found hlinked hl ha
  have hstepping : Stepping f a.header latch updates id := by
    refine ⟨hm, hlm, hne, hedge, hdom, phis_of_scaledSteps hext ha.header hupdates, ?_⟩
    exact hext.nodup_append hformed.defined_once hword (nexts_of_scaledSteps hupdates)
  have hgrows := hstepping.grows hformed
  have hcommit : plan.commit f = .ok (⟨plan.header.number, a.latch.number, [cond], []⟩,
      f.mapBlocks (finish updates id a.header.id latch.id id)) := by
    rw [← modify_eq_mapBlocks hformed.distinct hm hlm hne, hlref, href, ← hheader, commit, hk]
    rw [Block.label, hlref]
  have hlinks := (Func.linkedByJumps_of_wellLinked hlinked).mapBlocks (φ := finish updates id a.header.id latch.id id)
    fun b _ => ⟨finish_ref (fun _ => rfl) b, finish_links.1, finish_links.2, (finish_jump b).trans (ite_self _)⟩
  exact ⟨_, _, hcommit, Func.verify_of_formedByJumps hlinks (hgrows.formedByJumps hformed)⟩

end InPlace

end SplitPlan

end LoopLanes
