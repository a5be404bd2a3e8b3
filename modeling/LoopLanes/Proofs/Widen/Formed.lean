/-
Widened code is well formed.

What is emitted for the instructions of a block reads what they read, and lanes that were laid out in front
(`Coherent`).  Lanes that a phi takes in are laid out where the block ends that it comes from.  So a function that
is formed by its jumps stays so while a region of it is widened, block by block and phi by phi.

* `Coherent.forM` — what is emitted for the instructions of a block;
* `LaneInfo.workable_widenBlock` — a function with one more block widened;
* `LaneInfo.workable_widened` — a function whose region is widened, with the phis of its blocks.
-/
import LoopLanes.Proofs.Cfg.Recasts
import LoopLanes.Proofs.Widen.CutOff
import LoopLanes.Proofs.Widen.Stems

namespace LoopLanes

variable {σ : Temp → Option Value}

theorem Value.ty_subst (hσ : ∀ t v, σ t = some v → v.ty = t.ty) (v : Value) : (v.subst σ).ty = v.ty := by
  cases v with
  | temp t =>
    cases h : σ t with
    | none => simp [subst, h]
    | some w =>
      rw [subst, h]
      exact hσ t w h
  | _ => rfl

/-- Values of the same types may take the places of operands. -/
theorem Instr.wellTyped_subst (hσ : ∀ t v, σ t = some v → v.ty = t.ty) (x : Instr) :
    (x.subst σ).wellTyped = x.wellTyped := by
  induction x with
  | vec width mask inner ih => exact ih
  | _ => simp [subst, wellTyped, Phi.subst, Phi.wellTyped, Value.ty_subst hσ, Function.comp_def]

/-! ### Emitted code -/

/-- Code that was emitted for instructions, which define the temporaries in `done`: it is well typed and closed, if
they are (`P`), reads names in use (`R`), and lanes are laid out under new names. -/
structure WidenState.Coherent (P : Prop) (K R : Temp → Prop) (n : TempCounter) (done : List Temp) (s : WidenState) :
    Prop where
  typed : P → ∀ x ∈ s.out, x.wellTyped = true
  closed : P → Instr.Closed K s.out
  reads : ∀ x ∈ s.out, ∀ t ∈ x.readTemps, R t ∨ t ∈ s.out.filterMap Instr.write
  writes : ∃ us, Temp.AllFresh n s.temps us ∧ (∀ t ∈ us, t.isGlobal = false) ∧
    (s.out.filterMap Instr.write).Perm (us ++ done)
  ladders : ∀ e ∈ s.ladders, e.2.ty = e.1.ty ∧ e.2 ∈ s.out.filterMap Instr.write

/-- A temporary can be read behind the code that was emitted. -/
structure WidenState.Finds (P : Prop) (K R : Temp → Prop) (s : WidenState) (t : Temp) : Prop where
  known : P → t.isGlobal = false → K t ∨ t ∈ s.out.filterMap Instr.write
  used : R t ∨ t ∈ s.out.filterMap Instr.write

namespace WidenState

variable {P : Prop} {K R : Temp → Prop} {n : TempCounter} {done : List Temp} {s s' : WidenState} {t : Temp}
  {x : Instr} {i : LaneInfo}

theorem Finds.mono (h : s.Finds P K R t) (hsub : s.out.filterMap Instr.write ⊆ s'.out.filterMap Instr.write) :
    s'.Finds P K R t :=
  ⟨fun hP hlocal => (h.known hP hlocal).imp_right fun ht => hsub ht, h.used.imp_right fun ht => hsub ht⟩

theorem Finds.of_written (h : t ∈ s.out.filterMap Instr.write) : s.Finds P K R t := ⟨fun _ _ => .inr h, .inr h⟩

namespace Coherent

/-- One more instruction, which defines one more temporary, or lays out lanes. -/
theorem emit (h : s.Coherent P K R n done) (htyped : P → x.wellTyped = true) (hreads : ∀ t ∈ x.readTemps, s.Finds P K R t)
    {r : WidenState} {d : List Temp} (hout : r.out = s.out ++ [x]) (hwrites : ∃ us, Temp.AllFresh n r.temps us ∧
      (∀ t ∈ us, t.isGlobal = false) ∧ (s.out.filterMap Instr.write ++ x.write.toList).Perm (us ++ d))
    (hladders : ∀ e ∈ r.ladders, e ∈ s.ladders ∨ e.2.ty = e.1.ty ∧ x.write = some e.2) :
    r.Coherent P K R n d ∧ s.out.filterMap Instr.write ⊆ r.out.filterMap Instr.write := by
  have hall : r.out.filterMap Instr.write = s.out.filterMap Instr.write ++ x.write.toList := by
    rw [hout, List.filterMap_append]
    cases hw : x.write <;> simp [hw]
  have hsub : s.out.filterMap Instr.write ⊆ r.out.filterMap Instr.write := by
    rw [hall]
    exact List.subset_append_left _ _
  refine ⟨⟨fun hP => ?_, fun hP => ?_, ?_, hall ▸ hwrites, fun e he => ?_⟩, hsub⟩
  · rw [hout]
    exact List.forall_mem_append.mpr ⟨h.typed hP, List.forall_mem_singleton.mpr (htyped hP)⟩
  · rw [hout]
    exact Instr.closed_append.mpr ⟨h.closed hP, Instr.closed_singleton.mpr fun t ht => (hreads t ht).known hP⟩
  · rw [hout]
    refine List.forall_mem_append.mpr ⟨fun y hy t ht => ?_, List.forall_mem_singleton.mpr fun t ht => ?_⟩
    · exact (h.reads y hy t ht).imp_right fun ht => hout ▸ hsub ht
    · exact (hreads t ht).used.imp_right fun ht => hout ▸ hsub ht
  · rcases hladders e he with he | ⟨hty, hw⟩
    · exact ⟨(h.ladders e he).1, hsub (h.ladders e he).2⟩
    · refine ⟨hty, ?_⟩
      rw [hall, hw]
      exact List.mem_append_right _ (List.mem_singleton_self _)

/-- Lanes are laid out for a temporary, unless they are already. -/
theorem ladder (h : s.Coherent P K R n done) (ht : s.Finds P K R t) (stride : Int) :
    let r := (Widening.ladder i.width t stride).run s
    r.2.Coherent P K R n done ∧ s.out.filterMap Instr.write ⊆ r.2.out.filterMap Instr.write ∧ r.1.ty = t.ty ∧
      r.1 ∈ r.2.out.filterMap Instr.write := by
  intro r
  have hr : r = (Widening.ladder i.width t stride).run s := rfl
  rw [Widening.run_ladder] at hr
  cases hlookup : s.ladders.lookup t with
  | some lanes =>
    rw [hlookup] at hr
    obtain ⟨hty, hmem⟩ := h.ladders _ (mem_of_lookup hlookup)
    rw [hr]
    exact ⟨h, List.Subset.refl _, hty, hmem⟩
  | none =>
    rw [hlookup] at hr
    obtain ⟨us, hus, hlocals, hperm⟩ := h.writes
    let lanes : Temp := ⟨toString (s.temps + 1), false, t.ty⟩
    have hreads : ∀ u ∈ (Instr.ladder lanes t.ty (.temp t) stride i.width).readTemps, s.Finds P K R u := by
      intro u hu
      obtain rfl : u = t := by simpa [Instr.readTemps, Instr.reads, Value.temp?] using hu
      exact ht
    have hwrites : ∃ us, Temp.AllFresh n (s.temps + 1) us ∧ (∀ t ∈ us, t.isGlobal = false) ∧
        (s.out.filterMap Instr.write ++ [lanes]).Perm (us ++ done) := by
      refine ⟨us ++ [lanes], hus.append (.singleton s.temps false t.ty),
        List.forall_mem_append.mpr ⟨hlocals, List.forall_mem_singleton.mpr rfl⟩, ?_⟩
      refine (hperm.append_right _).trans ?_
      rw [List.append_assoc, List.append_assoc]
      exact List.perm_append_comm.append_left us
    obtain ⟨hcoherent, hsub⟩ := h.emit (x := .ladder lanes t.ty (.temp t) stride i.width) (r := r.2)
      (fun _ => beq_self_eq_true t.ty) hreads (by rw [hr]) (by rw [hr]; exact hwrites)
      (by rw [hr]; exact List.forall_mem_cons.mpr ⟨.inr ⟨rfl, rfl⟩, fun e he => .inl he⟩)
    refine ⟨hcoherent, hsub, by rw [hr], ?_⟩
    rw [hr, List.filterMap_append]
    exact List.mem_append_right _ (List.mem_singleton_self _)

/-- Lanes are laid out for all temporaries of a list that have a stride. -/
theorem mapM : ∀ {ts : List Temp} {s : WidenState}, s.Coherent P K R n done → (∀ t ∈ ts, s.Finds P K R t) →
    let r := (ts.mapM (Widening.lanesOf i)).run s
    r.2.Coherent P K R n done ∧ s.out.filterMap Instr.write ⊆ r.2.out.filterMap Instr.write ∧
      ∀ e ∈ r.1.filterMap id, ∃ lanes, e.2 = .temp lanes ∧ lanes.ty = e.1.ty ∧ lanes ∈ r.2.out.filterMap Instr.write := by
  intro ts
  induction ts with
  | nil => exact fun h _ => ⟨h, List.Subset.refl _, nofun⟩
  | cons t ts ih =>
    intro s h hts
    obtain ⟨ht, hts⟩ := List.forall_mem_cons.mp hts
    rw [Widening.run_mapM_cons]
    by_cases hstrided : ∃ stride, i.shapeOf t = .strided stride
    · obtain ⟨stride, hstrided⟩ := hstrided
      obtain ⟨h₁, hsub₁, hty, hmem⟩ := h.ladder ht stride (i := i)
      rw [Widening.run_lanesOf_of_strided hstrided]
      obtain ⟨h₂, hsub₂, hall⟩ := ih h₁ fun u hu => (hts u hu).mono hsub₁
      refine ⟨h₂, List.Subset.trans hsub₁ hsub₂, ?_⟩
      rw [List.filterMap_cons]
      exact List.forall_mem_cons.mpr ⟨⟨_, rfl, hty, hsub₂ hmem⟩, hall⟩
    · rw [Widening.run_lanesOf_of_not_strided fun stride e => hstrided ⟨stride, e⟩]
      obtain ⟨h₂, hsub₂, hall⟩ := ih h hts
      exact ⟨h₂, hsub₂, by rwa [List.filterMap_cons]⟩

/-- One more instruction is widened. -/
theorem instr (h : s.Coherent P K R n done) (htyped : P → x.wellTyped = true)
    (hreads : ∀ t ∈ x.readTemps, s.Finds P K R t) :
    let s' := ((Widening.instr i x).run s).2
    s'.Coherent P K R n (done ++ x.write.toList) ∧ s.out.filterMap Instr.write ⊆ s'.out.filterMap Instr.write ∧
      ∀ t, x.write = some t → t ∈ s'.out.filterMap Instr.write := by
  intro s'
  have hadds : ∀ {s : WidenState}, s.Coherent P K R n done → ∃ us, Temp.AllFresh n s.temps us ∧
      (∀ t ∈ us, t.isGlobal = false) ∧
      (s.out.filterMap Instr.write ++ x.write.toList).Perm (us ++ (done ++ x.write.toList)) := by
    intro s h
    obtain ⟨us, hus, hlocals, hperm⟩ := h.writes
    refine ⟨us, hus, hlocals, ?_⟩
    rw [← List.append_assoc]
    exact hperm.append_right _
  have hwritten : ∀ {y : Instr} {out : List Instr}, s'.out = out ++ [y] → y.write = x.write →
      ∀ t, x.write = some t → t ∈ s'.out.filterMap Instr.write := by
    intro y out hout hwrite t hw
    rw [hout]
    exact List.mem_filterMap.mpr ⟨y, List.mem_append_right _ (List.mem_singleton_self _), hwrite.trans hw⟩
  cases hv : i.isVectorInstr x with
  | false =>
    have hs' : s' = { s with out := s.out ++ [x] } := Widening.run_instr_of_not hv s
    obtain ⟨h', hsub⟩ := h.emit htyped hreads (r := s') (by rw [hs']) (by rw [hs']; exact hadds h)
      fun e he => .inl (by rwa [hs'] at he)
    exact ⟨h', hsub, hwritten (by rw [hs']) rfl⟩
  | true =>
    obtain ⟨y, -, hwrite, hyreads, hytyped, hrun⟩ := Widening.run_instr_of_vector hv s
    have hs' : s' = _ := hrun
    have hfinds : ∀ t ∈ y.readTemps, s.Finds P K R t := fun t ht => hreads t (by rwa [Instr.readTemps, ← hyreads])
    obtain ⟨h₁, hsub₁, hlanes⟩ := h.mapM hfinds (i := i)
    generalize (y.readTemps.mapM (Widening.lanesOf i)).run s = r at *
    have hlookup : ∀ u v, (r.1.filterMap id).lookup u = some v → ∃ lanes, v = .temp lanes ∧ lanes.ty = u.ty ∧
        lanes ∈ r.2.out.filterMap Instr.write := fun u v huv => hlanes _ (mem_of_lookup huv)
    have hw : (y.subst fun u => (r.1.filterMap id).lookup u).write = x.write := (Instr.write_subst _ y).trans hwrite
    have hemit := h₁.emit (x := y.subst fun u => (r.1.filterMap id).lookup u) (r := s')
      (d := done ++ x.write.toList) (fun hP => ?_) (fun t ht => ?_) (by rw [hs']) ?_ fun e he => .inl ?_
    · obtain ⟨h', hsub⟩ := hemit
      exact ⟨h', List.Subset.trans hsub₁ hsub, hwritten (by rw [hs']) hw⟩
    · rw [Instr.wellTyped_subst (fun u v huv => ?_), hytyped]
      · exact htyped hP
      · obtain ⟨lanes, rfl, hty, -⟩ := hlookup u v huv
        exact hty
    · obtain ⟨u, hu, ⟨-, rfl⟩ | ⟨v, hv, hvt⟩⟩ := Instr.mem_readTemps_subst ht
      · exact (hfinds _ hu).mono hsub₁
      · obtain ⟨lanes, rfl, -, hmem⟩ := hlookup u v hv
        exact .of_written (Option.some.inj hvt ▸ hmem)
    · rw [hs', hw]
      exact hadds h₁
    · rwa [hs'] at he

/-- The instructions of a block are widened. -/
theorem forM : ∀ {xs : List Instr} {done : List Temp} {s : WidenState}, s.Coherent P K R n done →
    (P → ∀ x ∈ xs, x.wellTyped = true) → (P → Instr.Closed (fun t => K t ∨ t ∈ s.out.filterMap Instr.write) xs) →
    (∀ x ∈ xs, ∀ t ∈ x.readTemps, R t) →
    ((xs.forM (Widening.instr i)).run s).2.Coherent P K R n (done ++ xs.filterMap Instr.write) := by
  intro xs
  induction xs with
  | nil =>
    intro done s h _ _ _
    rw [List.filterMap_nil, List.append_nil]
    exact h
  | cons x xs ih =>
    intro done s h htyped hclosed hused
    obtain ⟨hx, hused⟩ := List.forall_mem_cons.mp hused
    obtain ⟨h', hsub, hwritten⟩ := h.instr (i := i) (x := x)
      (fun hP => (List.forall_mem_cons.mp (htyped hP)).1) fun t ht => ⟨fun hP => (hclosed hP).1 t ht, .inl (hx t ht)⟩
    rw [Widening.run_forM_cons]
    have hrest := ih h' (fun hP => (List.forall_mem_cons.mp (htyped hP)).2) (fun hP => (hclosed hP).2.mono fun t ht => ?_)
      hused
    · rw [List.append_assoc] at hrest
      rw [List.filterMap_cons]
      cases hw : x.write <;> simpa [hw] using hrest
    · rcases ht with (ht | ht) | ht
      · exact .inl ht
      · exact .inr (hsub ht)
      · exact .inr (hwritten t ht)

end Coherent

end WidenState

/-! ### Widened instructions -/

namespace LaneInfo

variable {f : Func} {n : TempCounter} {i : LaneInfo} {b : Block} {r : BlockRef}

/-- What is emitted for the instructions of a block may stand in their place. -/
theorem replaces_emitted (h : f.Workable n) (hword : ((i.emitted n b).temps : Int) ≤ u32Max) (hb : b ∈ f.blocks) :
    f.Replaces n (i.emitted n b).temps b { b with instrs := (i.emitted n b).out } := by
  have hstart : WidenState.Coherent (f.jumpFlow.Reaches b.id) (fun t => f.DefinedAlong f.jumpFlow t b 0)
      (Temp.Reserved n) n [] ⟨n, [], []⟩ :=
    ⟨fun _ => nofun, fun _ => trivial, nofun, ⟨[], .nil n, nofun, .refl _⟩, nofun⟩
  have hemitted : (i.emitted n b).Coherent _ _ _ n ([] ++ b.instrs.filterMap Instr.write) := hstart.forM
    (fun hr => (h.code hb hr).1) (fun hr => (h.code hb hr).2.mono fun t => .inl)
    fun x hx t ht => h.reserved_of_read hb (Block.mem_readTemps.mpr (.inr (.inl ⟨x, hx, ht⟩)))
  have hle : n ≤ (i.emitted n b).temps := le_emitted b n
  refine { h.replaces_self hle hb with
    writes := hemitted.writes
    reserved := fun x hx t ht => ?_
    typed := hemitted.typed
    closed := hemitted.closed }
  -- what is read was in use, or is defined in front
  rcases hemitted.reads x hx t ht with ht | ht
  · exact ht.mono hle
  · obtain ⟨us, hus, -, hperm⟩ := hemitted.writes
    rcases List.mem_append.mp (hperm.subset ht) with ht | ht
    · exact (hus.fresh t ht).reserved hword
    · exact (h.reserved_of_write hb (List.mem_append_right _ ht)).mono hle

theorem workable_widenBlock (h : f.Workable n) (hword : ((i.widenBlock f n r).2 : Int) ≤ u32Max) :
    (i.widenBlock f n r).1.Workable (i.widenBlock f n r).2 := by
  cases hr : f.linked? r with
  | none => rwa [widenBlock_of_none hr]
  | some b =>
    obtain ⟨hb, rfl⟩ := Func.linked?_mem hr
    rw [widenBlock_of_linked? hr] at hword ⊢
    exact h.modify hword hb (replaces_emitted h hword hb) fun q hq e he => .inl ⟨q, hq, he⟩

/-- The instructions of some blocks are widened. -/
theorem workable_foldl_widenBlock : ∀ {rs : List BlockRef} {f : Func} {n : TempCounter}, f.Workable n → rs.Nodup →
    ((rs.foldl (fun (f, n) r => i.widenBlock f n r) (f, n)).2 : Int) ≤ u32Max →
    (rs.foldl (fun (f, n) r => i.widenBlock f n r) (f, n)).1.Workable
      (rs.foldl (fun (f, n) r => i.widenBlock f n r) (f, n)).2 := by
  intro rs
  induction rs with
  | nil => exact fun h _ _ => h
  | cons r rs ih =>
    intro f n h hnodup hword
    have hle := (foldl_widenBlock (i := i) (f := (i.widenBlock f n r).1) (n := (i.widenBlock f n r).2)
      hnodup.of_cons).1
    exact ih (workable_widenBlock h (Int.le_trans (Int.ofNat_le.mpr hle) hword)) hnodup.of_cons hword

/-! ### Widened phis -/

/-- A block with lanes laid out at its end, and with other phis. -/
def spreadOut (i : LaneInfo) (tails : Label → List Spread) (phis : BlockRef → List Phi) (b : Block) : Block :=
  { b with phis := phis b.ref, instrs := b.instrs ++ (tails b.label).map (Spread.instr i.width) }

/-- A phi whose entries are as before, or take in lanes that were laid out where they come from. -/
structure Takes (tails : Label → List Spread) (p q : Phi) : Prop where
  target : q.target = p.target
  ty : q.ty = p.ty
  incoming : List.Forall₂ (fun e e' => e' = e ∨ e'.2 = e.2 ∧ ∃ s ∈ tails e.2, e'.1 = .temp s.name) p.incoming q.incoming

variable {g : Func} {m : TempCounter} {tails : Label → List Spread} {phis : BlockRef → List Phi} {p q : Phi}

theorem Takes.refl (tails : Label → List Spread) (p : Phi) : Takes tails p p :=
  ⟨rfl, rfl, List.forall₂_same.mpr fun _ _ => .inl rfl⟩

theorem PhiWidened.takes (h : i.PhiWidened f tails p q) : Takes tails p q := by
  unfold PhiWidened at h
  split at h
  · refine ⟨h.1, h.2.1, h.2.2.imp fun e e' he => ?_⟩
    rcases he.2 with ⟨s, hs, -, hname⟩ | ⟨hsame, -⟩
    · exact .inr ⟨he.1, s, hs, hname⟩
    · exact .inl (Prod.ext hsame he.1)
  · exact h ▸ .refl tails p

theorem Takes.labels (h : Takes tails p q) : q.incoming.map (·.2) = p.incoming.map (·.2) := by
  refine (List.forall₂_eq_eq_eq ▸ List.forall₂_map_left_iff.mpr (List.forall₂_map_right_iff.mpr ?_)).symm
  exact h.incoming.imp fun e e' he => he.elim (congrArg _ ·.symm) (·.1.symm)

theorem map_target_of_takes {ps qs : List Phi} (h : List.Forall₂ (Takes tails) ps qs) :
    qs.map (·.target) = ps.map (·.target) := by
  refine (List.forall₂_eq_eq_eq ▸ List.forall₂_map_left_iff.mpr (List.forall₂_map_right_iff.mpr ?_)).symm
  exact h.imp fun _ _ hq => hq.target.symm

namespace Spreading

/-- The blocks are those of before, one by one. -/
theorem blocks_eq (hf : (f.blocks.map Block.id).Nodup) (h : Spreading i f n tails phis g m) :
    g.blocks = f.blocks.map (i.spreadOut tails phis) := by
  have hlength : g.blocks.length = f.blocks.length := by simpa using congrArg List.length h.refs
  refine List.ext_getElem (by rw [hlength, List.length_map]) fun k hk hk' => ?_
  rw [List.getElem_map]
  have hkf : k < f.blocks.length := hlength ▸ hk
  have href : g.blocks[k].ref = f.blocks[k].ref := by
    have := List.getElem_of_eq h.refs (by rwa [List.length_map] : k < (g.blocks.map Block.ref).length)
    rwa [List.getElem_map, List.getElem_map] at this
  have hlook := Func.linked?_of_mem (Func.nodup_ids_of_refs h.refs hf) (List.getElem_mem hk)
  rw [href, h.block _ _ (Func.linked?_of_mem hf (List.getElem_mem hkf))] at hlook
  exact (Option.some.inj hlook).symm

theorem extends_spreadOut (i : LaneInfo) (htakes : ∀ b ∈ f.blocks, List.Forall₂ (Takes tails) b.phis (phis b.ref)) :
    f.Extends (i.spreadOut tails phis) fun b => (tails b.label).map (Spread.instr i.width) :=
  ⟨fun _ _ => rfl, fun _ _ => rfl, fun b hb => map_target_of_takes (htakes b hb)⟩

theorem writes_tails (h : Spreading i f n tails phis g m) (l : Label) :
    ((tails l).map (Spread.instr i.width)).filterMap Instr.write = (tails l).map Spread.name ∧
      Temp.AllFresh n m ((tails l).map Spread.name) := by
  refine ⟨?_, h.le, h.nodup l, List.forall_mem_map.mpr (h.fresh l)⟩
  rw [List.filterMap_map]
  exact congrFun (List.filterMap_eq_map (f := Spread.name)) (tails l)

/-- A source of lanes has its value at the end of the block that lays them out. -/
theorem source (h : Spreading i f n tails phis g m) (hf : f.Workable n) (hb : b ∈ f.blocks) {s : Spread}
    (hs : s ∈ tails b.label) : s.source.Reserved n ∧ (f.jumpFlow.Reaches b.id → s.source.isGlobal = false →
      f.DefinedAlong f.jumpFlow s.source b b.instrs.length) := by
  obtain ⟨r, -, -, c, hc, p, hp, he⟩ := h.taken b.label s hs
  exact (hf.entry hb (Func.linked?_mem hc).1 hp he).2

/-- A block with lanes laid out at its end may stand in the place of the block. -/
theorem replaces (h : Spreading i f n tails phis g m) (hf : f.Workable n)
    (htakes : ∀ b ∈ f.blocks, List.Forall₂ (Takes tails) b.phis (phis b.ref)) (hb : b ∈ f.blocks) :
    f.Replaces n m b (i.spreadOut tails phis b) := by
  obtain ⟨hwrites, hfresh⟩ := h.writes_tails b.label
  have hself := hf.replaces_self h.le hb
  have htargets := (extends_spreadOut i htakes).targets b hb
  have hphi : ∀ q ∈ phis b.ref, ∃ p ∈ b.phis, Takes tails p q := exists_of_forall₂ (htakes b hb)
  have hreads : ∀ s : Spread, (s.instr i.width).readTemps = [s.source] := fun _ => rfl
  refine { hself with
    targets := htargets
    labels := fun q hq => (hphi q hq).imp fun p hp => ⟨hp.1, hp.2.labels⟩
    types := fun q hq => ?_
    writes := ⟨(tails b.label).map Spread.name, hfresh, List.forall_mem_map.mpr (h.locals b.label), ?_⟩
    reserved := List.forall_mem_append.mpr ⟨hself.reserved, List.forall_mem_map.mpr fun s hs t ht => ?_⟩
    typed := fun hr => List.forall_mem_append.mpr ⟨hself.typed hr, List.forall_mem_map.mpr fun s _ => ?_⟩
    closed := fun hr => Instr.closed_append.mpr ⟨hself.closed hr, Instr.closed_iff.mpr fun pos x hx t ht hlocal => ?_⟩ }
  · obtain ⟨p, hp, hpq⟩ := hphi q hq
    rw [hpq.ty, hpq.target]
    exact hf.phis b hb p hp
  · rw [spreadOut, List.filterMap_append, hwrites]
    exact List.perm_append_comm
  · rw [hreads, List.mem_singleton] at ht
    exact ht ▸ (h.source hf hb hs).1.mono h.le
  · exact beq_self_eq_true _
  · obtain ⟨s, hs, rfl⟩ := List.mem_map.mp (List.mem_of_getElem? hx)
    rw [hreads, List.mem_singleton] at ht
    have hdefined := Func.definedAlong_iff.mp ((h.source hf hb hs).2 hr (ht ▸ hlocal))
    rw [List.take_length, ← ht] at hdefined
    exact .inl hdefined

/-- A function with lanes laid out is as workable as before. -/
theorem workable (h : Spreading i f n tails phis g m) (hf : f.Workable n) (hword : (m : Int) ≤ u32Max)
    (htakes : ∀ b ∈ f.blocks, List.Forall₂ (Takes tails) b.phis (phis b.ref)) :
    (f.mapBlocks (i.spreadOut tails phis)).Workable m := by
  have hall : Temp.AllFresh n m (f.blocks.flatMap fun b => (tails b.label).map Spread.name) := by
    refine ⟨h.le, List.nodup_flatMap.mpr ⟨fun b _ => h.nodup b.label, ?_⟩, fun t ht => ?_⟩
    · refine (List.pairwise_map.mp hf.formed.distinct).imp fun {b c} hne t hb hc => hne ?_
      obtain ⟨s, hs, rfl⟩ := List.mem_map.mp hb
      obtain ⟨u, hu, e⟩ := List.mem_map.mp hc
      exact Label.ofBlock_injective (h.apart _ s hs _ u hu e.symm)
    · obtain ⟨b, -, ht⟩ := List.mem_flatMap.mp ht
      obtain ⟨s, hs, rfl⟩ := List.mem_map.mp ht
      exact h.fresh b.label s hs
  refine hf.mapBlocks hword h.le (fun b hb => h.replaces hf htakes hb) ?_ fun b hb q hq e he => ?_
  · have hnodup := hf.toNamed.nodup_append hf.formed.defined_once hword hall
    rw [List.append_assoc] at hnodup
    refine (((extends_spreadOut i htakes).perm_writesOf.append_left _).nodup_iff).mpr ?_
    rwa [List.flatMap_congr fun b _ => (h.writes_tails b.label).1]
  · obtain ⟨p, hp, hpq⟩ := exists_of_forall₂ (htakes b hb) q hq
    obtain ⟨e₀, he₀, rfl | ⟨hl, s, hs, hname⟩⟩ := exists_of_forall₂ hpq.incoming e he
    · exact .inl ⟨p, hp, he₀⟩
    · refine .inr fun t ht => ?_
      obtain ⟨c, hc, -, hcl⟩ := ((hf.formed.phis b hb p hp).2 e₀.2).mp (List.mem_map_of_mem he₀)
      obtain rfl : s.name = t := Value.temp.inj (hname.symm.trans ht)
      refine ⟨c, hc, hcl.trans hl.symm, List.mem_append_right _ (List.mem_filterMap.mpr ⟨s.instr i.width, ?_, rfl⟩)⟩
      exact List.mem_append_right _ (List.mem_map_of_mem (hcl ▸ hs))

end Spreading

/-- Instructions and phis of a region are widened: the function may be worked on as before, and the header has the
phis that it had. -/
theorem workable_widened (h : f.Workable n) (hregion : i.region.blocks.Nodup) {p q : Func × TempCounter}
    (hp : i.region.blocks.foldl (fun (f, n) r => i.widenBlock f n r) (f, n) = p)
    (hq : i.region.blocks.foldl (fun (f, n) r => i.widenBlockPhis f n r) (p.1, p.2) = q)
    (hword : (q.2 : Int) ≤ u32Max) : q.1.Workable q.2 ∧ ∀ b ∈ f.blocks, b.ref.number = i.region.header.number →
      ∃ c ∈ q.1.blocks, c.ref = b.ref ∧ c.phis = b.phis := by
  obtain ⟨hle, hrefs, hblocks⟩ := foldl_widenBlock (i := i) (f := f) (n := n) hregion
  have hemitted := workable_foldl_widenBlock (i := i) h hregion
  have houtline := sameOutline_foldl i.sameOutline_widenBlockPhis i.region.blocks p.1 p.2
  rw [hp] at hle hrefs hblocks hemitted
  rw [hq] at houtline
  have hids : (p.1.blocks.map Block.id).Nodup := Func.nodup_ids_of_refs hrefs h.formed.distinct
  obtain ⟨tails, phis, -, hspread, hrest, hwidened⟩ := Spreading.foldl hids hregion (List.Subset.refl _)
    (Spreading.refl (i := i) p.1 p.2) fun r _ b hb => by simp [hb]
  rw [hq] at hspread
  have hsame : ∀ r b, p.1.linked? r = some b → r.number = i.region.header.number → phis r = b.phis := by
    intro r b hb hr
    by_cases hin : r ∈ i.region.blocks
    · have hw := hwidened r hin b hb
      rwa [if_pos hr] at hw
    · rw [hrest r hin, hb, Option.map_some, Option.getD_some]
  have htakes : ∀ b ∈ p.1.blocks, List.Forall₂ (Takes tails) b.phis (phis b.ref) := by
    intro b hb
    have hlook := Func.linked?_of_mem hids hb
    have hrefl : List.Forall₂ (Takes tails) b.phis b.phis := List.forall₂_same.mpr fun p _ => .refl tails p
    by_cases hin : b.ref ∈ i.region.blocks
    · have hw := hwidened b.ref hin b hlook
      split at hw
      · exact hw ▸ hrefl
      · exact hw.imp fun _ _ => PhiWidened.takes
    · rw [hrest _ hin, hlook, Option.map_some, Option.getD_some]
      exact hrefl
  refine ⟨?_, fun b hb hr => ?_⟩
  · refine (hspread.workable (hemitted ?_) hword htakes).congr houtline.params (hspread.blocks_eq hids)
      (Int.le_of_eq houtline.total.symm)
    exact Int.le_trans (Int.ofNat_le.mpr hspread.le) hword
  · obtain ⟨hout, hin⟩ := hblocks b.ref b (Func.linked?_of_mem h.formed.distinct hb)
    -- the block has its phis still, whatever its instructions are by now
    obtain ⟨c, hc, hphis⟩ : ∃ c, p.1.linked? b.ref = some c ∧ c.phis = b.phis := by
      by_cases hmem : b.ref ∈ i.region.blocks
      · obtain ⟨_, -, -, hlook⟩ := hin hmem
        exact ⟨_, hlook, rfl⟩
      · exact ⟨b, hout hmem, rfl⟩
    obtain ⟨hmem, href⟩ := Func.linked?_mem (hspread.block b.ref c hc)
    exact ⟨_, hmem, href, (hsame b.ref c hc hr).trans hphis⟩

end LaneInfo

end LoopLanes
