/-
Partial results in well-formed code.

Lanes are seeded at the end of the block that enters a loop, and flow into phis of the header (`Seeded`).  They are
folded in a block that stands on the way out of the loop, so what is folded has its value wherever the phis had
theirs outside of the loop (`Seeded.recasts`), and may be read in their place.

* `Seeded.add` — one more phi is seeded;
* `LaneInfo.verify_foldPartials` — the function in which partial results are folded is verified;
* `LaneInfo.verify_widen` — so is the one that a region is widened to.
-/
import LoopLanes.Proofs.Cfg.Interposed
import LoopLanes.Proofs.Widen.Escapes
import LoopLanes.Proofs.Widen.Formed

namespace LoopLanes

namespace RedKind

variable {k : RedKind} {ty : Ty}

theorem ty_identity {v : Value} (h : k.identity? ty = some v) : v.ty = ty := by
  cases k <;> cases ty <;> simp only [identity?, Option.some.injEq, reduceCtorEq] at h <;> (subst h; rfl)

/-- The operator of a kind that has an identity is one of its type. -/
theorem operandTy_arithOp {v : Value} {op : ArithOp} (h : k.identity? ty = some v) (hop : k.arithOp? ty = some op) :
    op.operandTy = ty := by
  cases k <;> cases ty <;> simp only [identity?, reduceCtorEq] at h <;>
    (simp only [arithOp?, Ty.isFloat, Option.some.injEq] at hop; subst hop; rfl)

end RedKind

/-- An entry of a phi is given another value of its type. -/
theorem Phi.wellTyped_setIn {t : Temp} {l : Label} {v : Value} {ps : List Phi} (htyped : ∀ p ∈ ps, p.wellTyped = true)
    (htypes : ∀ p ∈ ps, p.ty = p.target.ty) (hv : v.ty = t.ty) : ∀ q ∈ setIn t l v ps, q.wellTyped = true := by
  intro q hq
  rcases exists_of_mem_setIn hq with hq | ⟨p, hp, htarget, rfl⟩
  · exact htyped q hq
  refine List.all_eq_true.mpr fun e he => ?_
  rcases mem_setEntries he with he | rfl
  · exact List.all_eq_true.mp (htyped p hp) e he
  · exact beq_iff_eq.mpr (hv.trans (htarget ▸ (htypes p hp).symm))

/-- What a block defines may flow into a phi of a block that it goes on to. -/
theorem Func.Workable.setIn {f : Func} {n : TempCounter} {b c : Block} {u : Temp} (h : f.Workable n)
    (hword : (n : Int) ≤ u32Max) (hb : b ∈ f.blocks) (hc : c ∈ f.blocks) (hedge : c.label ∈ b.targets)
    (hu : u ∈ b.writes) (t : Temp) :
    (f.modify c.ref fun d => { d with phis := Phi.setIn t b.label (.temp u) d.phis }).Workable n := by
  have hlabel : ∀ p ∈ c.phis, b.label ∈ p.incoming.map (·.2) := fun p hp =>
    ((h.formed.phis c hc p hp).2 _).mpr ⟨b, hb, hedge, rfl⟩
  refine h.rephi hc hword (Phi.map_target_setIn ..) (fun q hq => ?_) (fun q hq => ?_) fun q hq e he => ?_
  · rcases Phi.exists_of_mem_setIn hq with hq | ⟨p, hp, -, rfl⟩
    · exact h.phis c hc q hq
    · exact h.phis c hc p hp
  · rcases Phi.exists_of_mem_setIn hq with hq | ⟨p, hp, -, rfl⟩
    · exact ⟨q, hq, rfl⟩
    · exact ⟨p, hp, Phi.labels_setEntries (hlabel p hp)⟩
  · rcases Phi.exists_of_mem_setIn hq with hq | ⟨p, hp, -, rfl⟩
    · exact .inl ⟨q, hq, he⟩
    · rcases Phi.mem_setEntries he with he | rfl
      · exact .inl ⟨p, hp, he⟩
      · exact .inr fun v hv => ⟨b, hb, rfl, Value.temp.inj hv ▸ hu⟩

theorem FoldSite.le_of_foldlM {site : FoldSite} : ∀ {phis : List (Temp × RedKind)} {s s' : FoldState},
    phis.foldlM (fun s (t, k) => site.add s t k) s = .ok s' → s.temps ≤ s'.temps := by
  intro phis
  induction phis with
  | nil =>
    intro s s' hrun
    exact pure_eq_ok.mp hrun ▸ Nat.le_refl _
  | cons e phis ih =>
    intro s s' hrun
    obtain ⟨s₁, hadd, hrun⟩ := bind_eq_ok.mp hrun
    have hle : s.temps ≤ s₁.temps := by
      obtain ⟨-, -, -, -, -, -, rfl⟩ := exists_of_add hadd
      exact Nat.le_add_right _ 2
    exact Nat.le_trans hle (ih hrun)

/-- Seeding and folding under way, between a header and a block that enters the loop: the function may be worked
on, and what is folded are phis of the header, under new names. -/
structure Seeded (f : Func) (header : Block) (s : FoldState) : Prop where
  workable : s.func.Workable s.temps
  outline : f.SameOutline s.func
  head : ∃ c ∈ s.func.blocks, c.ref = header.ref ∧ c.phis.map (·.target) = header.phis.map (·.target) ∧
    ∀ p ∈ c.phis, p.wellTyped = true
  fresh : (s.func.params ++ writesOf s.func.blocks ++ s.folds.filterMap Instr.write).Nodup
  folds : ∀ x ∈ s.folds, x.wellTyped = true ∧ (∀ t ∈ x.readTemps, t ∈ header.phis.map (·.target)) ∧
    ∀ t, x.write = some t → t.Reserved s.temps
  results : ∀ e ∈ s.results, e.1 ∈ header.phis.map (·.target) ∧ ∃ t : Temp, e.2 = .temp t ∧ t.ty = e.1.ty ∧
    t.isGlobal = false ∧ t ∈ s.folds.filterMap Instr.write

namespace Seeded

variable {f : Func} {header entering : Block} {width : Nat} {s s' : FoldState} {t : Temp} {kind : RedKind}

/-- The start of a reduction has the type of its phi, and its value where the loop is entered. -/
theorem start_spec (h : Seeded f header s) {init identity : Value}
    (hidentity : kind.identity? t.ty = some identity) (hinit : init = identity ∨ ∃ c p,
      s.func.linked? header.ref = some c ∧ c.phis.find? (·.target == t) = some p ∧
        p.incoming? entering.label = some init) {b : Block} (hb : b ∈ s.func.blocks) (hbref : b.ref = entering.ref) :
    init.ty = t.ty ∧ ∀ u, init = .temp u → u.Reserved s.temps ∧ (s.func.jumpFlow.Reaches b.id → u.isGlobal = false →
      s.func.DefinedAlong s.func.jumpFlow u b b.instrs.length) := by
  obtain ⟨c, hc, hcref, -, htyped⟩ := h.head
  rcases hinit with rfl | ⟨d, p, hd, hp, hinit⟩
  · refine ⟨RedKind.ty_identity hidentity, ?_⟩
    rintro u rfl
    cases RedKind.temp?_identity hidentity
  obtain ⟨hd, hdref⟩ := Func.linked?_mem hd
  obtain rfl := Func.eq_of_id_eq h.workable.formed.distinct hd hc (congrArg BlockRef.number (hdref.trans hcref.symm))
  have hpd := List.mem_of_find?_eq_some hp
  have htarget : p.target = t := by simpa using List.find?_some hp
  have hmem := Phi.mem_of_incoming? hinit
  refine ⟨?_, ?_⟩
  · rw [beq_iff_eq.mp (List.all_eq_true.mp (htyped p hpd) _ hmem), h.workable.phis d hd p hpd, htarget]
  · rintro u rfl
    rw [show entering.label = b.label from (congrArg BlockRef.label hbref).symm] at hmem
    exact (h.workable.entry hb hd hpd hmem).2

/-- Lanes are seeded at the end of the block that enters the loop. -/
theorem workable_seed (h : Seeded f header s) (width : Nat) (hword : ((s.temps + 1 : TempCounter) : Int) ≤ u32Max)
    {b : Block} (hb : b ∈ s.func.blocks) {init identity : Value} (hidentity : kind.identity? t.ty = some identity)
    (hty : init.ty = t.ty) (hreads : ∀ u, init = .temp u → u.Reserved s.temps ∧ (s.func.jumpFlow.Reaches b.id →
      u.isGlobal = false → s.func.DefinedAlong s.func.jumpFlow u b b.instrs.length)) :
    (s.func.modify b.ref fun c => { c with instrs := c.instrs ++
      [.buildVec ⟨toString (s.temps + 1), false, t.ty⟩ t.ty (FoldSite.seed width init identity)] }).Workable
        (s.temps + 1) := by
  have hlanes : ∀ v ∈ FoldSite.seed width init identity, v = init ∨ v = identity := fun v hv =>
    (List.mem_cons.mp (List.mem_of_mem_take hv)).imp_right fun hv => (List.mem_replicate.mp hv).2
  have hread : ∀ u ∈ (Instr.buildVec ⟨toString (s.temps + 1), false, t.ty⟩ t.ty
      (FoldSite.seed width init identity)).readTemps, init = .temp u := by
    intro u hu
    obtain ⟨v, hv, hvu⟩ := Instr.mem_readTemps.mp hu
    rcases hlanes v hv with rfl | rfl
    · cases v <;> cases hvu
      rfl
    · rw [RedKind.temp?_identity hidentity] at hvu
      cases hvu
  refine h.workable.append hb hword rfl ?_ (fun u hu => (hreads u (hread u hu)).1) fun hr u hu =>
    (hreads u (hread u hu)).2 hr
  refine List.all_eq_true.mpr fun v hv => beq_iff_eq.mpr ?_
  rcases hlanes v hv with rfl | rfl
  · exact hty
  · exact RedKind.ty_identity hidentity

/-- One more phi is seeded. -/
theorem add (h : Seeded f header s) (hne : entering.ref ≠ header.ref) (hentering : entering ∈ f.blocks)
    (hedge : header.label ∈ entering.targets) (ht : t ∈ header.phis.map (·.target))
    (hadd : FoldSite.add ⟨header.ref, entering.ref, width⟩ s t kind = .ok s') (hword : (s'.temps : Int) ≤ u32Max) :
    Seeded f header s' := by
  obtain ⟨identity, op, init, hidentity, hop, hinit, rfl⟩ := FoldSite.exists_of_add hadd
  obtain ⟨c, hc, hcref, htargets, htyped⟩ := h.head
  obtain ⟨b, hb, hbref, -, -, hbtargets⟩ := h.outline.symm.exists_block hentering
  have hword₁ : ((s.temps + 1 : TempCounter) : Int) ≤ u32Max := Int.le_trans (by simp) hword
  obtain ⟨hty, hreads⟩ := h.start_spec hidentity hinit hb hbref
  have hseeded := h.workable_seed width hword₁ hb hidentity hty hreads
  have hbc : c.ref ≠ b.ref := fun e => hne (hbref.symm.trans (e.symm.trans hcref))
  have houtline := h.outline.trans (FoldSite.sameOutline_add hadd)
  rw [← hbref, ← hcref] at houtline ⊢
  -- the seed stands at the end of the entering block, and flows into the phi
  set seed : Temp := ⟨toString (s.temps + 1), false, t.ty⟩
  set result : Temp := ⟨toString (s.temps + 2), false, t.ty⟩
  set x : Instr := .buildVec seed t.ty (FoldSite.seed width init identity)
  set f₁ : Func := s.func.modify b.ref fun c => { c with instrs := c.instrs ++ [x] }
  have hb₁ : { b with instrs := b.instrs ++ [x] } ∈ f₁.blocks := List.mem_map.mpr ⟨b, hb, if_pos (beq_self_eq_true _)⟩
  have hc₁ : c ∈ f₁.blocks := List.mem_map.mpr ⟨c, hc, if_neg (by simpa using hbc)⟩
  have hwrites : { b with instrs := b.instrs ++ [x] }.writes = b.writes ++ [seed] := by
    rw [Block.writes, List.filterMap_append, ← List.append_assoc]
    rfl
  have hedge' : c.label ∈ b.targets := by
    rw [hbtargets, show c.label = header.label from congrArg BlockRef.label hcref]
    exact hedge
  have hrephi := hseeded.setIn hword₁ hb₁ hc₁ hedge' (hwrites ▸ List.mem_append_right _ (List.mem_singleton_self _)) t
  have hperm : (writesOf (f₁.modify c.ref fun d =>
      { d with phis := Phi.setIn t b.label (.temp seed) d.phis }).blocks).Perm (writesOf s.func.blocks ++ [seed]) := by
    have hnone : ({ c with phis := Phi.setIn t b.label (.temp seed) c.phis } : Block).writes.Perm (c.writes ++ []) := by
      rw [Block.writes, Phi.map_target_setIn, List.append_nil]
      exact .refl _
    refine (Func.perm_writesOf_modify hseeded.formed.distinct hc₁ hnone).trans ?_
    rw [List.append_nil]
    exact Func.perm_writesOf_modify h.workable.formed.distinct hb (hwrites ▸ .refl _)
  refine { workable := hrephi.mono (Nat.le_succ _), outline := houtline, head := ?_, fresh := ?_, folds := ?_,
           results := ?_ }
  · refine ⟨{ c with phis := Phi.setIn t b.label (.temp seed) c.phis }, ?_, hcref, ?_, ?_⟩
    · exact List.mem_map.mpr ⟨c, hc₁, if_pos (beq_self_eq_true _)⟩
    · rw [← htargets]
      exact Phi.map_target_setIn ..
    · exact Phi.wellTyped_setIn htyped (h.workable.phis c hc) rfl
  · -- the seed and the result are new
    have hnew : Temp.AllFresh s.temps (s.temps + 2) [seed, result] :=
      (Temp.AllFresh.singleton s.temps false t.ty).append (.singleton (s.temps + 1) false t.ty)
    have hnodup := hnew.nodup_append hword h.fresh fun u hu => ?_
    · rw [List.append_cons _ seed [result]] at hnodup
      refine (List.Perm.nodup_iff ?_).mpr hnodup
      rw [List.filterMap_append, ← List.append_assoc]
      refine .append_right _ ?_
      rw [List.append_assoc, List.append_assoc, List.append_assoc]
      refine .append_left _ ((hperm.append_right _).trans ?_)
      rw [List.append_assoc]
      exact .append_left _ List.perm_append_comm
    · rcases List.mem_append.mp hu with hu | hu
      · exact h.workable.reserved u (Func.mem_mentions hu)
      · obtain ⟨x, hx, hxu⟩ := List.mem_filterMap.mp hu
        exact (h.folds x hx).2.2 u hxu
  · refine List.forall_mem_append.mpr ⟨fun x hx => ?_, List.forall_mem_singleton.mpr ⟨?_, ?_, ?_⟩⟩
    · obtain ⟨hx₁, hx₂, hx₃⟩ := h.folds x hx
      exact ⟨hx₁, hx₂, fun u hu => (hx₃ u hu).mono (Nat.le_add_right _ 2)⟩
    · exact Bool.and_eq_true_iff.mpr ⟨beq_self_eq_true _, beq_iff_eq.mpr (RedKind.operandTy_arithOp hidentity hop)⟩
    · intro u hu
      rw [show (Instr.reduce result op t.ty (.temp t) width).readTemps = [t] from rfl, List.mem_singleton] at hu
      exact hu ▸ ht
    · intro u hu
      obtain rfl := Option.some.inj hu
      exact ((Temp.AllFresh.singleton (s.temps + 1) false t.ty).fresh _ (List.mem_singleton_self _)).reserved hword
  · refine List.forall_mem_append.mpr ⟨fun e he => ?_, List.forall_mem_singleton.mpr ⟨ht, result, rfl, rfl, rfl, ?_⟩⟩
    · obtain ⟨he₁, u, hu, hty, hlocal, hmem⟩ := h.results e he
      refine ⟨he₁, u, hu, hty, hlocal, ?_⟩
      rw [List.filterMap_append]
      exact List.mem_append_left _ hmem
    · rw [List.filterMap_append]
      exact List.mem_append_right _ (by simp [Instr.write])

end Seeded

/-- What is defined in a block has its value only behind it. -/
theorem Func.FormedByJumps.mem_of_definedAlong {f : Func} {G : Flow Int} {b c : Block} {t : Temp} {pos : Nat}
    {vs : List Int} (hf : f.FormedByJumps) (hc : c ∈ f.blocks) (ht : t ∈ c.writes) (hb : b ∈ f.blocks)
    (h : f.DefinedAlong G t b pos) (p : G.Path b.id vs) : c.id ∈ vs := by
  have honce : ∀ d ∈ f.blocks, t ∈ d.writes → d = c := fun d hd htd =>
    eq_of_nodup_writes (List.nodup_append.mp hf.defined_once).2.1 hd hc htd ht
  rcases h with hparam | hmem | ⟨d, hd, -, htd, hpaths⟩
  · exact absurd hparam fun hparam => (List.nodup_append.mp hf.defined_once).2.2 t hparam t
      (List.mem_flatMap.mpr ⟨c, hc, ht⟩) rfl
  · rw [← honce b hb (Block.mem_writes_of_writesBefore hmem)]
    exact p.mem
  · exact honce d hd htd ▸ hpaths vs p

/-! ### Reading other values in some blocks -/

namespace Instr

variable {K K' : Temp → Prop} {σ : Temp → Option Value}

/-- Code stays closed if what is read instead is known. -/
theorem Closed.subst (hK : ∀ t, K t → K' t) : ∀ {xs : List Instr}, Closed K xs → (∀ x ∈ xs, ∀ u ∈ x.readTemps, ∀ v,
    σ u = some v → ∀ t, v.temp? = some t → t.isGlobal = false → K' t) → Closed K' (xs.map (·.subst σ)) := by
  intro xs
  induction xs generalizing K K' with
  | nil => exact fun _ _ => trivial
  | cons x xs ih =>
    rintro ⟨hx, hxs⟩ hσ
    obtain ⟨hσx, hσxs⟩ := List.forall_mem_cons.mp hσ
    refine ⟨fun t ht hlocal => ?_, ih (fun t => ?_) hxs fun y hy u hu v hv t ht hlocal =>
      .inl (hσxs y hy u hu v hv t ht hlocal)⟩
    · obtain ⟨u, hu, ⟨-, rfl⟩ | ⟨v, hv, hvt⟩⟩ := mem_readTemps_subst ht
      · exact hK _ (hx _ hu hlocal)
      · exact hσx u hu v hv t hvt hlocal
    · rw [write_subst]
      exact Or.imp_left (hK t)

end Instr

namespace LaneInfo

variable {σ : Temp → Option Value} {b : Block}

theorem map_target_substBlock : (substBlock σ b).phis.map (·.target) = b.phis.map (·.target) := by
  simp [substBlock, Phi.subst]

theorem writes_instrs_substBlock : (substBlock σ b).instrs.filterMap Instr.write = b.instrs.filterMap Instr.write := by
  rw [substBlock, List.filterMap_map]
  exact List.filterMap_congr fun x _ => x.write_subst σ

theorem code_substBlock : (substBlock σ b).instrs ++ (substBlock σ b).jump.toList =
    (b.instrs ++ b.jump.toList).map (·.subst σ) := by
  rw [List.map_append]
  cases hj : b.jump <;> simp [substBlock, hj]

/-- A block in which other values are read, if it is one of some. -/
def substIn (outside : List BlockRef) (σ : Temp → Option Value) (b : Block) : Block :=
  if b.ref ∈ outside then substBlock σ b else b

variable {outside : List BlockRef}

theorem outline_substIn : (substIn outside σ b).outline = b.outline := by
  unfold substIn
  split
  · exact outline_substBlock σ b
  · rfl

theorem map_target_substIn : (substIn outside σ b).phis.map (·.target) = b.phis.map (·.target) := by
  unfold substIn
  split
  · exact map_target_substBlock
  · rfl

theorem writes_instrs_substIn : (substIn outside σ b).instrs.filterMap Instr.write =
    b.instrs.filterMap Instr.write := by
  unfold substIn
  split
  · exact writes_instrs_substBlock
  · rfl

/-- Where other values are read, block by block. -/
theorem foldl_modify_substBlock : ∀ {rs : List BlockRef} (f : Func), rs.Nodup →
    rs.foldl (fun f r => f.modify r (substBlock σ)) f = f.mapBlocks (substIn rs σ) := by
  intro rs
  induction rs with
  | nil =>
    intro f _
    rw [Func.mapBlocks, funext (f := substIn [] σ) (g := id) fun b => if_neg List.not_mem_nil, List.map_id]
    rfl
  | cons r rs ih =>
    intro f hnodup
    obtain ⟨hnew, hnodup⟩ := List.nodup_cons.mp hnodup
    rw [List.foldl_cons, ih _ hnodup, Func.mapBlocks, Func.mapBlocks, Func.modify, List.map_map]
    refine congrArg (fun bs => { f with blocks := bs }) (List.map_congr_left fun b _ => ?_)
    by_cases e : b.ref = r
    · simp [substIn, substBlock, e, hnew]
    · simp [substIn, e]

end LaneInfo

namespace Func

variable {f : Func} {σ : Temp → Option Value} {outside : List BlockRef}

/-- In some blocks other values may be read, of the same types, as long as each is there whenever the one in whose
place it is read is. -/
theorem recasts_substIn (hf : f.FormedByJumps)
    (hσ : ∀ u v, σ u = some v → u.isGlobal = false ∧ ∃ r : Temp, v = .temp r ∧ r.ty = u.ty)
    (hreads : ∀ b ∈ f.blocks, b.ref ∈ outside → f.jumpFlow.Reaches b.id → ∀ u r pos, σ u = some (.temp r) →
      f.DefinedAlong f.jumpFlow u b pos → f.DefinedAlong f.jumpFlow r b 0)
    (hentries : ∀ b ∈ f.blocks, b.ref ∈ outside → ∀ c ∈ f.blocks, b.label ∈ c.targets → f.jumpFlow.Reaches c.id →
      ∀ u r, σ u = some (.temp r) → f.DefinedAlong f.jumpFlow u c c.instrs.length →
        f.DefinedAlong f.jumpFlow r c c.instrs.length) :
    f.Recasts (LaneInfo.substIn outside σ) := by
  have hretains : f.Retains (LaneInfo.substIn outside σ) := by
    refine ⟨fun b _ => congrArg Prod.fst LaneInfo.outline_substIn, fun b _ => LaneInfo.map_target_substIn, fun b _ => ?_⟩
    rw [LaneInfo.writes_instrs_substIn]
    exact List.Subset.refl _
  have hty : ∀ u v, σ u = some v → v.ty = u.ty := fun u v huv => by
    obtain ⟨-, r, rfl, hty⟩ := hσ u v huv
    exact hty
  have hmem : ∀ b, b.ref ∈ outside → ∀ q ∈ (LaneInfo.substIn outside σ b).phis, ∃ p ∈ b.phis, p.subst σ = q :=
    fun b hb q hq => by
      rw [LaneInfo.substIn, if_pos hb] at hq
      exact List.mem_map.mp hq
  refine { hretains with labels := ?_, terminated := ?_, ways := ?_, fresh := ?_, typed := ?_, closed := ?_,
                         incoming := ?_ }
  · intro b _ q hq
    by_cases hb : b.ref ∈ outside
    · obtain ⟨p, hp, rfl⟩ := hmem b hb q hq
      exact ⟨p, hp, by simp [Phi.subst]⟩
    · rw [LaneInfo.substIn, if_neg hb] at hq
      exact ⟨q, hq, rfl⟩
  · intro b hb
    unfold LaneInfo.substIn
    split
    · rw [LaneInfo.substBlock, Option.isSome_map]
      exact hf.terminated b hb
    · exact hf.terminated b hb
  · intro b _ l
    rw [show (LaneInfo.substIn outside σ b).targets = b.targets from
      congrArg (fun o => o.2.2.2) LaneInfo.outline_substIn]
  · rw [show writesOf (f.mapBlocks (LaneInfo.substIn outside σ)).blocks = writesOf f.blocks from ?_]
    · exact hf.defined_once
    · rw [writesOf, mapBlocks, List.flatMap_map]
      refine List.flatMap_congr fun b _ => ?_
      rw [Block.writes, LaneInfo.map_target_substIn, LaneInfo.writes_instrs_substIn, Block.writes]
  · intro b hb hr x hx
    unfold LaneInfo.substIn at hx
    split at hx
    · rw [LaneInfo.code_substBlock] at hx
      obtain ⟨y, hy, rfl⟩ := List.mem_map.mp hx
      rw [Instr.wellTyped_subst hty]
      exact hf.typed b hb hr y hy
    · exact hf.typed b hb hr x hx
  · intro b hb hr
    have hclosed := closed_code_iff.mpr fun pos x => hf.reads b hb hr pos x
    by_cases hO : b.ref ∈ outside
    · have hcode : (LaneInfo.substIn outside σ b).instrs ++ (LaneInfo.substIn outside σ b).jump.toList =
          (b.instrs ++ b.jump.toList).map (·.subst σ) := by
        rw [LaneInfo.substIn, if_pos hO, LaneInfo.code_substBlock]
      rw [hcode]
      refine hclosed.subst (fun t => hretains.definedAlong_zero hb) fun x hx u hu v hv t ht _ => ?_
      obtain ⟨pos, hpos⟩ := List.getElem?_of_mem hx
      obtain ⟨hlocal, r, rfl, -⟩ := hσ u v hv
      obtain rfl := Option.some.inj ht
      exact hretains.definedAlong_zero hb (hreads b hb hO hr u r pos hv (hf.reads b hb hr pos x hpos u hu hlocal))
    · have hsame : LaneInfo.substIn outside σ b = b := if_neg hO
      rw [hsame]
      exact hclosed.mono fun t ht => hsame ▸ hretains.definedAlong_zero hb ht
  · intro b hb hr q hq e he
    by_cases hO : b.ref ∈ outside
    swap
    · rw [LaneInfo.substIn, if_neg hO] at hq
      exact .inl ⟨q, hq, he⟩
    obtain ⟨p, hp, rfl⟩ := hmem b hO q hq
    obtain ⟨o, ho, rfl⟩ := List.mem_map.mp he
    obtain ⟨v, l⟩ := o
    -- an entry that is left alone, or one that takes in another value
    by_cases hsame : v.subst σ = v
    · exact .inl ⟨p, hp, by rwa [hsame]⟩
    refine .inr fun c hc hl hedge hr' t ht _ => hretains.definedAlong_length hc ?_
    cases v with
    | temp u =>
      cases hu : σ u with
      | none => exact absurd (by simp [Value.subst, hu]) hsame
      | some w =>
        obtain ⟨hlocal, r, rfl, -⟩ := hσ u w hu
        obtain rfl : r = t := by simpa [Value.subst, hu] using ht
        subst hl
        exact hentries b hb hO c hc hedge hr' u r hu (hf.incoming b hb hr p hp c hc hedge hr' u ho hlocal)
    | _ => exact absurd rfl hsame

end Func

namespace Seeded

variable {f : Func} {header exit : Block} {s : FoldState} {place : Nat} {d : Block}

/-- One after the other, phis are seeded. -/
theorem foldlM {entering : Block} {width : Nat} (hne : entering.ref ≠ header.ref) (hentering : entering ∈ f.blocks)
    (hedge : header.label ∈ entering.targets) : ∀ {phis : List (Temp × RedKind)} {s s' : FoldState},
    Seeded f header s → (∀ e ∈ phis, e.1 ∈ header.phis.map (·.target)) →
    phis.foldlM (fun s (t, k) => FoldSite.add ⟨header.ref, entering.ref, width⟩ s t k) s = .ok s' →
    (s'.temps : Int) ≤ u32Max → Seeded f header s' := by
  intro phis
  induction phis with
  | nil =>
    intro s s' h _ hrun _
    exact pure_eq_ok.mp hrun ▸ h
  | cons e phis ih =>
    intro s s' h hphis hrun hword
    obtain ⟨s₁, hadd, hrun⟩ := bind_eq_ok.mp hrun
    obtain ⟨he, hphis⟩ := List.forall_mem_cons.mp hphis
    exact ih (h.add hne hentering hedge he hadd (Int.le_trans (Int.ofNat_le.mpr (FoldSite.le_of_foldlM hrun)) hword))
      hphis hrun hword

/-- What folds may be put on the way out of the header. -/
theorem interposes (h : Seeded f header s) {c e : Block} (hc : c ∈ s.func.blocks) (hcref : c.ref = header.ref)
    (he : e ∈ s.func.blocks) (hedge : e.label ∈ c.targets) (hplace : place ≠ 0) (hle : place ≤ s.func.blocks.length)
    (hnew : ∀ b ∈ s.func.blocks, b.id ≠ d.id) (hphis : d.phis = []) (hinstrs : d.instrs = s.folds)
    (hjump : d.jump = some (.jump e.label)) : s.func.Interposes c e place d := by
  obtain ⟨c', hc', hcref', htargets, -⟩ := h.head
  obtain rfl := Func.eq_of_id_eq h.workable.formed.distinct hc hc' (congrArg BlockRef.number (hcref.trans hcref'.symm))
  refine { formed := h.workable.formed, source_mem := hc, target_mem := he, edge := hedge, place_ne := hplace,
           place_le := hle, new := hnew, phis := hphis, jump := hjump, fresh := hinstrs ▸ h.fresh,
           typed := fun x hx => (h.folds x (hinstrs ▸ hx)).1,
           closed := fun _ => Instr.closed_iff.mpr fun pos x hx t ht _ => .inl (.inr (.inl ?_)) }
  -- what is folded is held by phis of the header
  rw [hinstrs] at hx
  rw [Block.writesBefore_length]
  exact List.mem_append_left _ (htargets ▸ (h.folds x (List.mem_of_getElem? hx)).2.1 t ht)

/-- Behind the block that folds, what is folded may be read in place of the phis. -/
theorem recasts (h : Seeded f header s) {c e : Block} (hcref : c.ref = header.ref)
    (hd : s.func.Interposes c e place d) (hinstrs : d.instrs = s.folds) {outside : List BlockRef} {S : Int → Prop}
    (hS : S header.id) (hleaves : ∀ u w, S u → s.func.jumpFlow.edge u w → S w ∨ u = c.id ∧ w = e.id)
    (hout : ∀ b ∈ s.func.blocks, b.ref ∈ outside ↔ ¬ S b.id) (hdout : d.ref ∉ outside) :
    (s.func.interpose c.ref e.ref place d).Recasts (LaneInfo.substIn outside fun t => s.results.reverse.lookup t) := by
  set σ : Temp → Option Value := fun t => s.results.reverse.lookup t with hσ
  set T := s.func.interpose c.ref e.ref place d
  have hT := hd.formedByJumps
  obtain ⟨c', hc', hcref', htargets, -⟩ := h.head
  obtain rfl := Func.eq_of_id_eq h.workable.formed.distinct hd.source_mem hc'
    (congrArg BlockRef.number (hcref.trans hcref'.symm))
  have hresult : ∀ u v, σ u = some v → u ∈ c.writes ∧ ∃ r : Temp, v = .temp r ∧ r.ty = u.ty ∧ r ∈ d.writes := by
    intro u v huv
    obtain ⟨hu, r, hr, hty, -, hmem⟩ := h.results _ (List.mem_reverse.mp (mem_of_lookup huv))
    exact ⟨List.mem_append_left _ (htargets ▸ hu), r, hr, hty, List.mem_append_right _ (hinstrs ▸ hmem)⟩
  have hSc : S c.id := by rwa [show c.id = header.id from congrArg BlockRef.number hcref]
  -- who has the value of a phi outside of the loop passed the block that folds
  have hpassed : ∀ b ∈ T.blocks, b.id ≠ d.id → ¬ S b.id → ∀ u r pos pos', σ u = some (.temp r) →
      T.DefinedAlong T.jumpFlow u b pos → T.DefinedAlong T.jumpFlow r b pos' := by
    intro b hb hne hSb u r pos pos' hur hu
    obtain ⟨hwrites, r', e', -, hr⟩ := hresult u _ hur
    obtain rfl := Value.temp.inj e'
    refine .inr (.inr ⟨d, hd.mem_iff.mpr (.inl rfl), hne.symm, hr, fun vs p => ?_⟩)
    refine hd.mem_of_leaves hSc hleaves p hSb ?_
    have hmem := hT.mem_of_definedAlong (hd.mem_iff.mpr (.inr ⟨c, hc', rfl⟩)) (by rwa [Func.writes_onward]) hb hu p
    rwa [Func.id_onward] at hmem
  have hside : ∀ b ∈ T.blocks, b.ref ∈ outside → b.id ≠ d.id ∧ ¬ S b.id := by
    intro b hb hO
    rcases hd.mem_iff.mp hb with rfl | ⟨b, hb', rfl⟩
    · exact absurd hO hdout
    · rw [Func.ref_onward] at hO
      rw [Func.id_onward]
      exact ⟨hd.new b hb', (hout b hb').mp hO⟩
  refine Func.recasts_substIn hT (fun u v huv => ?_) (fun b hb hO _ u r pos hur hu => ?_)
    fun b hb hO a ha hedge _ u r hur hu => ?_
  · obtain ⟨hu, r, hr, hty, -⟩ := hresult u v huv
    exact ⟨h.workable.locals u (List.mem_flatMap.mpr ⟨c, hc', hu⟩), r, hr, hty⟩
  · obtain ⟨hne, hSb⟩ := hside b hb hO
    exact hpassed b hb hne hSb u r pos 0 hur hu
  · obtain ⟨hne, hSb⟩ := hside b hb hO
    rcases hd.mem_iff.mp ha with rfl | ⟨a, ha', rfl⟩
    · obtain ⟨-, r', e', -, hr⟩ := hresult u _ hur
      obtain rfl := Value.temp.inj e'
      refine .inr (.inl ?_)
      rwa [Block.writesBefore_length]
    · -- it does not come from the loop
      refine hpassed _ ha (by rw [Func.id_onward]; exact hd.new a ha') (fun hSa => ?_) u r _ _ hur hu
      rw [Func.id_onward] at hSa
      have hedge' : T.jumpFlow.edge a.id b.id := ⟨_, ha, Func.id_onward, hedge⟩
      rcases hd.edge_cases hedge' with ⟨-, e'⟩ | ⟨e', -⟩ | ⟨-, -, e', hno⟩
      · exact hne e'
      · exact hd.new a ha' e'
      · exact (hleaves _ _ hSa e').elim hSb hno

end Seeded

namespace LaneInfo

variable {i : LaneInfo} {f g : Func} {n m : TempCounter} {header : Block} {phis : List (Temp × RedKind)}
  {outside : List BlockRef}

/-- The function that is left once results are folded, put together from a block put in and other values read. -/
theorem redirected_eq (s : FoldState) (exit : BlockRef) {place : Nat} {d : Block} (houtside : outside.Nodup)
    (hd : d.ref ∉ outside) : { i.redirected s exit d.label outside with
      blocks := (i.redirected s exit d.label outside).blocks.insertIdx place d } =
    (s.func.interpose i.region.header exit place d).mapBlocks (substIn outside fun t => s.results.reverse.lookup t) := by
  have hmap : (i.redirected s exit d.label outside).blocks =
      (s.func.blocks.map (Func.onward i.region.header exit d.label)).map
        (substIn outside fun t => s.results.reverse.lookup t) := by
    rw [redirected, foldl_modify_substBlock _ houtside, Func.mapBlocks, Func.modify, Func.modify, List.map_map,
      List.map_map, List.map_map]
    rfl
  have hkept : substIn outside (fun t => s.results.reverse.lookup t) d = d := if_neg hd
  have hparts : ∀ bs, { i.redirected s exit d.label outside with blocks := bs } = { s.func with blocks := bs } := by
    intro bs
    rw [redirected, foldl_modify_substBlock _ houtside]
    rfl
  rw [hparts, hmap, Func.mapBlocks, Func.interpose, List.map_insertIdx, hkept]

/-- The function in which partial results are folded is verified, if the one in which they were kept could be worked
on, and its loop is left from the header alone. -/
theorem verify_foldPartials (hf : f.Workable n) (hlinks : f.LinkedByJumps) (hheader : header ∈ f.blocks)
    (href : header.ref = i.region.header) (htyped : ∀ p ∈ header.phis, p.wellTyped = true)
    (hphis : ∀ e ∈ phis, e.1 ∈ header.phis.map (·.target)) (hin : i.region.contains header.id = true)
    (hout : ∀ r, r ∈ outside ↔ r ∈ f.blocks.map Block.ref ∧ i.region.contains r.number = false)
    (houtside : outside.Nodup) (hleaves : ∃ x, ∀ u w, i.region.contains u = true → f.jumpFlow.edge u w →
      i.region.contains w = true ∨ u = header.id ∧ w = x)
    (h : i.foldPartials f n phis outside = .ok (g, m)) (hword : (m : Int) ≤ u32Max) : g.verify = .ok () := by
  obtain ⟨entering, exit, s, place, hentering, hexit, hlinked, hrun, rfl, hplace, hle, hresolved⟩ :=
    exists_of_foldPartials h
  obtain ⟨hprev, hsucc⟩ := hlinked header (href ▸ Func.linked?_of_mem hf.formed.distinct hheader)
  obtain ⟨a, ha, rfl⟩ := hlinks.inside header hheader entering (List.mem_append_left _ hprev)
  obtain ⟨x, hx, rfl⟩ := hlinks.inside header hheader exit (List.mem_append_right _ hsucc)
  have hedge : header.label ∈ a.targets :=
    (hlinks.mem_succ_iff hf.formed.distinct ha hheader).mp ((hlinks.mutual_links a ha header hheader).mpr hprev)
  have hexits : x.label ∈ header.targets := (hlinks.mem_succ_iff hf.formed.distinct hheader hx).mp hsucc
  have hne : a.ref ≠ header.ref := fun e => by
    rw [e] at hentering
    exact absurd (hin.symm.trans hentering) (by decide)
  -- all that is left to leave by is the exit
  obtain ⟨v, hleaves⟩ := hleaves
  obtain rfl : x.id = v := by
    rcases hleaves header.id x.id hin ⟨header, hheader, rfl, hexits⟩ with hx' | ⟨-, e⟩
    · exact absurd (hx'.symm.trans hexit) (by decide)
    · exact e
  -- a number is taken for the block that folds
  set f₁ : Func := { f with total := f.total + 1 } with hf₁
  have hstart : Seeded f₁ header ⟨f₁, n, [], []⟩ := by
    refine ⟨hf.congr rfl rfl (Int.le_add_one (Int.le_refl _)), .refl _, ⟨header, hheader, rfl, rfl, htyped⟩, ?_,
      nofun, nofun⟩
    rw [List.filterMap_nil, List.append_nil]
    exact hf.formed.defined_once
  rw [← href] at hrun
  have hs := hstart.foldlM (f := f₁) hne ha hedge hphis hrun hword
  obtain ⟨c, hc, hcref, -, -, hctargets⟩ := hs.outline.symm.exists_block (g := f₁) hheader
  obtain ⟨e, he, heref, -⟩ := hs.outline.symm.exists_block (g := f₁) hx
  have hids : ∀ b ∈ s.func.blocks, b.id ≤ f.total := fun b hb => by
    obtain ⟨b₀, hb₀, href₀, -⟩ := hs.outline.exists_block hb
    rw [← show b₀.id = b.id from congrArg BlockRef.number href₀]
    exact hf.total b₀ hb₀
  have hrefs : (i.redirected s x.ref (.ofBlock (f.total + 1)) outside).blocks.map Block.ref =
      s.func.blocks.map Block.ref := refs_redirected s x.ref _ fun r hr => ((hout r).mp hr).2
  have hlength := congrArg List.length hrefs
  rw [List.length_map, List.length_map] at hlength
  set d : Block := { Block.ofId (f.total + 1) with instrs := s.folds, jump := some (.jump x.label) } with hd
  have hinterposes : s.func.Interposes c e place d := by
    refine hs.interposes hc hcref he ?_ (hplace fun hnil => ?_) (hlength ▸ hle) (fun b hb hbd => ?_) rfl rfl ?_
    · rw [hctargets, show e.label = x.label from congrArg BlockRef.label heref]
      exact hexits
    · rw [hnil, List.length_nil] at hlength
      exact List.not_mem_nil (List.eq_nil_of_length_eq_zero hlength.symm ▸ hc)
    · have := hids b hb
      rw [hbd] at this
      exact absurd this (Int.not_le.mpr (Int.lt_succ _))
    · rw [show e.label = x.label from congrArg BlockRef.label heref]
  have hdout : d.ref ∉ outside := fun hmem => by
    obtain ⟨b, hb, hbd⟩ := List.mem_map.mp ((hout _).mp hmem).1
    have := hf.total b hb
    rw [Block.id, hbd] at this
    exact absurd this (Int.not_le.mpr (Int.lt_succ _))
  have hrecasts : (s.func.interpose c.ref e.ref place d).Recasts (substIn outside fun t => s.results.reverse.lookup t) := by
    refine hs.recasts (S := fun v => i.region.contains v = true) hcref hinterposes rfl hin (fun u w hu hedge => ?_)
      (fun b hb => ?_) hdout
    · rw [hs.outline.jumpFlow_eq] at hedge
      rw [show c.id = header.id from congrArg BlockRef.number hcref, show e.id = x.id from congrArg BlockRef.number heref]
      exact hleaves u w hu hedge
    · obtain ⟨b₀, hb₀, href₀, -⟩ := hs.outline.exists_block hb
      rw [hout, Bool.not_eq_true]
      exact and_iff_right (List.mem_map.mpr ⟨b₀, hb₀, href₀⟩)
  have hformed := hrecasts.formedByJumps hinterposes.formedByJumps
  rw [hcref, href, heref, ← redirected_eq s x.ref houtside hdout] at hformed
  rw [show g = _ from (congrArg Prod.fst hresolved).symm]
  exact (Func.verify_resolveLinks_of_formedByJumps hformed).2

/-- A region that is left from its header alone is widened to a function that verification accepts, if it stands in
one that could be worked on. -/
theorem verify_widen (hf : f.Workable n) (hlinks : f.LinkedByJumps) (hregion : i.region.blocks.Nodup)
    (hheader : header ∈ f.blocks) (href : header.ref = i.region.header) (hin : i.region.header ∈ i.region.blocks)
    (htyped : ∀ p ∈ header.phis, p.wellTyped = true) (hleaves : ∃ x, ∀ u w, i.region.contains u = true →
      f.jumpFlow.edge u w → i.region.contains w = true ∨ u = header.id ∧ w = x)
    (h : i.widen f n = .ok (g, m)) (hword : (m : Int) ≤ u32Max) : g.verify = .ok () := by
  obtain ⟨p, q, hp, hq, -, hend⟩ := widen_eq_ok h
  have houtline := sameOutline_widened hp hq
  have hlinked := houtline.linkedByJumps hlinks
  have hle : (q.2 : Int) ≤ u32Max := by
    rcases hend with ⟨-, rfl⟩ | hfold
    · exact hword
    · refine Int.le_trans (Int.ofNat_le.mpr ?_) hword
      exact (foldPartials_region hfold (houtline.map_id ▸ hf.formed.distinct) i.not_contains_outside).1
  obtain ⟨hwidened, hkept⟩ := workable_widened hf hregion hp hq hle
  rcases hend with ⟨-, rfl⟩ | hfold
  · exact Func.verify_of_formedByJumps hlinked hwidened.formed
  obtain ⟨c, hc, hcref, hphis⟩ := hkept header hheader (congrArg BlockRef.number href)
  refine verify_foldPartials hwidened hlinked hc (hcref.trans href) (hphis ▸ htyped) (fun e he => ?_)
    (i.region.contains_of_mem ((hcref.trans href).symm ▸ hin)) (fun r => ?_) ?_ ?_ hfold hword
  · rw [← href, Func.linked?_of_mem hf.formed.distinct hheader, Option.map_some, Option.getD_some] at he
    obtain ⟨p, hp, he⟩ := List.mem_filterMap.mp he
    split at he
    · obtain rfl := Option.some.inj he
      exact hphis ▸ List.mem_map_of_mem hp
    · cases he
  · rw [houtline.map_ref, List.mem_map, List.mem_map]
    constructor
    · rintro ⟨b, hb, rfl⟩
      obtain ⟨hb, hout⟩ := List.mem_filter.mp hb
      exact ⟨⟨b, hb, rfl⟩, by simpa [Block.id] using hout⟩
    · rintro ⟨⟨b, hb, rfl⟩, hout⟩
      exact ⟨b, List.mem_filter.mpr ⟨hb, by simpa [Block.id] using hout⟩, rfl⟩
  · have hrefs : (f.blocks.map Block.ref).Nodup := .of_map BlockRef.number (by rw [List.map_map]; exact hf.formed.distinct)
    exact hrefs.sublist (List.filter_sublist.map _)
  · rw [houtline.jumpFlow_eq, show c.id = header.id from congrArg BlockRef.number hcref]
    exact hleaves

end LaneInfo

end LoopLanes
