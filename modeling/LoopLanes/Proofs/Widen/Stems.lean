/-
What becomes of blocks when a region is widened.

Each block of the function that is left stems from a block of the one before (`LaneInfo.Stem`): within the region
its code is tidy, and outside it reads single values, beside what it read before and what is passed on.  First
the instructions and the phis of the region are widened (`Ready.stems_widened`).  The edits of blocks that follow
keep this.
-/
import LoopLanes.Proofs.Widen.Rounds
import LoopLanes.Proofs.Widen.Tidy

namespace LoopLanes

/-- After a substitution, what is read was read before, or stands for what was. -/
theorem Instr.mem_readTemps_subst {σ : Temp → Option Value} {x : Instr} {t : Temp} (h : t ∈ (x.subst σ).readTemps) :
    ∃ u ∈ x.readTemps, σ u = none ∧ t = u ∨ ∃ v, σ u = some v ∧ v.temp? = some t := by
  obtain ⟨v, hv, ht⟩ := mem_readTemps.mp h
  rw [reads_subst] at hv
  obtain ⟨w, hw, rfl⟩ := List.mem_map.mp hv
  cases w with
  | temp u =>
    refine ⟨u, mem_readTemps.mpr ⟨_, hw, rfl⟩, ?_⟩
    cases hσ : σ u with
    | none =>
      simp only [Value.subst, hσ] at ht
      exact .inl ⟨rfl, (Option.some.inj ht).symm⟩
    | some v =>
      simp only [Value.subst, hσ] at ht
      exact .inr ⟨v, rfl, ht⟩
  | _ => cases ht

namespace LaneInfo

variable {i : LaneInfo} {f g : Func} {n m n' : TempCounter} {laid passed passed' : Temp → Prop} {fold : Label}
  {b c d : Block} {x : Instr} {t : Temp} {r : BlockRef}

/-- Partial results are passed on. -/
def Partial (i : LaneInfo) (t : Temp) : Prop := ∃ k, i.shapeOf t = .partials k

/-- What becomes of a block.  Its jumps lead where they led, or to the block in which partial results are
folded; within the region its code is tidy; and outside, beside what holds single values, it reads only what
it read before and what is passed on. -/
structure Stem (i : LaneInfo) (laid passed : Temp → Prop) (fold : Label) (b c : Block) : Prop where
  ref : c.ref = b.ref
  targets : ∀ l ∈ c.targets, l ∈ b.targets ∨ l = fold ∧ b.ref = i.region.header
  instrs : i.region.contains b.id = true → ∀ x ∈ c.instrs, i.Tidy laid x
  phis : i.region.contains b.id = true → ∀ p ∈ c.phis, ¬ i.Wide laid p.target →
    ∀ t ∈ (Instr.phi p).readTemps, ¬ i.Wide laid t
  reads : i.region.contains b.id = false → ∀ t ∈ c.readTemps, ¬ i.Wide laid t ∨ passed t ∧ t ∈ b.readTemps
  vectors : i.region.contains b.id = false → (∀ x ∈ b.instrs, x.isVector = false) →
    ∀ x ∈ c.instrs, x.isVector = true → ∀ t, x.write = some t → laid t

/-- All blocks of a function stem from blocks of another one. -/
def Stems (i : LaneInfo) (laid passed : Temp → Prop) (fold : Label) (f g : Func) : Prop :=
  ∀ c ∈ g.blocks, ∃ b ∈ f.blocks, i.Stem laid passed fold b c

theorem Stems.imp (h : i.Stems laid passed fold f g)
    (himp : ∀ b ∈ f.blocks, ∀ c, i.Stem laid passed fold b c → i.Stem laid passed' fold b c) :
    i.Stems laid passed' fold f g := by
  intro c hc
  obtain ⟨b, hb, hbc⟩ := h c hc
  exact ⟨b, hb, himp b hb c hbc⟩

/-! ### Widened code -/

/-- A block with its instructions widened, if it belongs to the region. -/
structure Recoded (i : LaneInfo) (laid : Temp → Prop) (b d : Block) : Prop where
  ref : d.ref = b.ref
  phis : d.phis = b.phis
  jump : d.jump = b.jump
  succ : d.succ = b.succ
  outside : b.ref ∉ i.region.blocks → d.instrs = b.instrs
  inside : b.ref ∈ i.region.blocks → ∀ x ∈ d.instrs, i.Tidy laid x

theorem Ready.exists_recoded (h : Ready f n i) (hlaid : ∀ t : Temp, t.Reserved n → ¬ laid t) {p : Func × TempCounter}
    (hp : i.region.blocks.foldl (fun (f, n) r => i.widenBlock f n r) (f, n) = p)
    (hfresh : ∀ t : Temp, t.Fresh n p.2 → laid t) (hb : b ∈ f.blocks) :
    ∃ d, p.1.linked? b.ref = some d ∧ i.Recoded laid b d := by
  obtain ⟨-, -, hblocks⟩ := foldl_widenBlock (i := i) (f := f) (n := n) h.nodup
  rw [hp] at hblocks
  obtain ⟨hout, hin⟩ := hblocks b.ref b (h.linked.linked? hb)
  by_cases hr : b.ref ∈ i.region.blocks
  · obtain ⟨m, hm, hm', hd⟩ := hin hr
    refine ⟨_, hd, rfl, rfl, rfl, rfl, fun hne => absurd hr hne, fun _ => ?_⟩
    refine tidy_forM (fun x hx => h.raw hlaid (h.mem_blocksIn hb hr) hx) (by simp) fun t ht => hfresh t ?_
    exact (ht.weaken hm).mono hm'
  · exact ⟨b, hout hr, rfl, rfl, rfl, rfl, fun _ => rfl, fun hr' => absurd hr' hr⟩

/-- What does not vary holds a single value, or is a partial result. -/
theorem not_wide_or (hlaid : ∀ t : Temp, t.Reserved n → ¬ laid t) (hr : t.Reserved n) (h : i.shapeOf t ≠ .varying) :
    ¬ i.Wide laid t ∨ i.Partial t := by
  cases e : i.shapeOf t with
  | varying => exact absurd e h
  | partials k => exact .inr ⟨k, e⟩
  | _ => exact .inl (Ready.not_wide hlaid (by rw [e]; rfl) hr)

theorem shape_of_escaping? {outside : List Block} (h : i.escaping? outside = none) (hb : b ∈ outside)
    (ht : t ∈ b.readTemps) : i.shapeOf t ≠ .varying := by
  have := List.find?_eq_none.mp h t (List.mem_flatMap.mpr ⟨b, hb, ht⟩)
  simpa using this

/-- A block with its instructions and phis widened, and with lanes laid out at its end for phis elsewhere. -/
theorem Recoded.stem (h : Ready f n i) (hlaid : ∀ t : Temp, t.Reserved n → ¬ laid t)
    (hescape : i.escaping? (f.blocks.filter fun b => !i.region.contains b.id) = none) (hb : b ∈ f.blocks)
    (hd : i.Recoded laid b d) {phis : List Phi} (hkept : b.ref ∉ i.region.blocks → phis = b.phis)
    (hphis : ∀ p ∈ phis, p ∈ b.phis ∨ i.Wide laid p.target) {tail : List Spread}
    (htail : ∀ s ∈ tail, laid s.name ∧ ¬ i.Wide laid s.source) :
    i.Stem laid i.Partial fold b { d with phis := phis, instrs := d.instrs ++ tail.map (Spread.instr i.width) } := by
  have houtside : i.region.contains b.id = false → b.ref ∉ i.region.blocks := fun hout hr => by
    rw [(h.contains_iff hb).mpr hr] at hout
    cases hout
  refine ⟨hd.ref, fun l hl => .inl ?_, fun hin x hx => ?_, fun hin p hp hwide => ?_, fun hout t ht => ?_,
    fun hout hscalar x hx hvec t hw => ?_⟩
  · rwa [Block.targets, ← hd.jump]
  · rcases List.mem_append.mp hx with hx | hx
    · exact hd.inside ((h.contains_iff hb).mp hin) x hx
    · obtain ⟨s, hs, rfl⟩ := List.mem_map.mp hx
      exact tidy_of_laid rfl (htail s hs).1
  · rcases hphis p hp with hp | hp
    · exact h.phi_single hlaid (h.mem_blocksIn hb ((h.contains_iff hb).mp hin)) hp hwide
    · exact absurd hp hwide
  · -- nothing that varies escapes, so what was read outside is single or a partial result
    have hread : ∀ t ∈ b.readTemps, ¬ i.Wide laid t ∨ i.Partial t ∧ t ∈ b.readTemps := fun t ht =>
      (not_wide_or hlaid (h.reserved_of_read hb ht) (shape_of_escaping? hescape
        (List.mem_filter.mpr ⟨hb, by rw [hout]; rfl⟩) ht)).imp_right fun hpartial => ⟨hpartial, ht⟩
    rcases Block.mem_readTemps.mp ht with ⟨p, hp, ht⟩ | ⟨x, hx, ht⟩ | ⟨j, hj, ht⟩
    · exact hread t (Block.mem_readTemps.mpr (.inl ⟨p, hkept (houtside hout) ▸ hp, ht⟩))
    · rcases List.mem_append.mp hx with hx | hx
      · exact hread t (Block.mem_readTemps.mpr (.inr (.inl ⟨x, hd.outside (houtside hout) ▸ hx, ht⟩)))
      · obtain ⟨s, hs, rfl⟩ := List.mem_map.mp hx
        obtain rfl : t = s.source := by simpa [Spread.instr, Instr.readTemps, Instr.reads, Value.temp?] using ht
        exact .inl (htail s hs).2
    · exact hread t (Block.mem_readTemps.mpr (.inr (.inr ⟨j, hd.jump ▸ hj, ht⟩)))
  · rcases List.mem_append.mp hx with hx | hx
    · rw [hscalar x (hd.outside (houtside hout) ▸ hx)] at hvec
      cases hvec
    · obtain ⟨s, hs, rfl⟩ := List.mem_map.mp hx
      exact Option.some.inj hw ▸ (htail s hs).1

/-- The blocks after their instructions and phis were widened. -/
theorem Ready.stems_widened (h : Ready f n i) (hlaid : ∀ t : Temp, t.Reserved n → ¬ laid t)
    (hescape : i.escaping? (f.blocks.filter fun b => !i.region.contains b.id) = none) {p q : Func × TempCounter}
    (hp : i.region.blocks.foldl (fun (f, n) r => i.widenBlock f n r) (f, n) = p)
    (hq : i.region.blocks.foldl (fun (f, n) r => i.widenBlockPhis f n r) (p.1, p.2) = q)
    (hfresh : ∀ t : Temp, t.Fresh n q.2 → laid t) (fold : Label) :
    q.1.blocks.map Block.ref = f.blocks.map Block.ref ∧ n ≤ q.2 ∧ i.Stems laid i.Partial fold f q.1 ∧
      ∀ b c, f.linked? i.region.header = some b → q.1.linked? i.region.header = some c →
        c.phis = b.phis ∧ c.succ = b.succ := by
  obtain ⟨hle, hrefs, -⟩ := foldl_widenBlock (i := i) (f := f) (n := n) h.nodup
  rw [hp] at hle hrefs
  have hids : (p.1.blocks.map Block.id).Nodup := Func.nodup_ids_of_refs hrefs h.distinct
  obtain ⟨tails, phis, -, hspread, hrest, hwidened⟩ := Spreading.foldl hids h.nodup
    (List.Subset.refl _) (Spreading.refl (i := i) p.1 p.2) fun r _ b hb => by simp [hb]
  rw [hq] at hspread
  have hidsq : (q.1.blocks.map Block.id).Nodup := Func.nodup_ids_of_refs hspread.refs hids
  have hrecoded : ∀ b ∈ f.blocks, ∃ d, p.1.linked? b.ref = some d ∧ i.Recoded laid b d := fun b hb =>
    h.exists_recoded hlaid hp (fun t ht => hfresh t (ht.mono hspread.le)) hb
  -- lanes are laid out of what was read before
  have htail : ∀ l, ∀ s ∈ tails l, laid s.name ∧ ¬ i.Wide laid s.source := by
    intro l s hs
    refine ⟨hfresh _ ((hspread.fresh l s hs).weaken hle), ?_⟩
    obtain ⟨r, hr, -, d, hd, p', hp', he⟩ := hspread.taken l s hs
    obtain ⟨b, hb, rfl⟩ := h.blocks r hr
    obtain ⟨d', hd', hbd⟩ := hrecoded b hb
    obtain rfl := Option.some.inj (hd.symm.trans hd')
    refine not_wide hlaid (by rw [hspread.strided l s hs]; rfl) (h.reserved_of_read hb ?_)
    exact Block.mem_readTemps.mpr (.inl ⟨p', hbd.phis ▸ hp',
      Instr.mem_readTemps.mpr ⟨_, List.mem_map_of_mem he, rfl⟩⟩)
  -- phis stay as they were in the header and outside; elsewhere those that are changed hold lanes
  have hphis : ∀ b ∈ f.blocks, (b.ref ∉ i.region.blocks ∨ b.ref = i.region.header → phis b.ref = b.phis) ∧
      ∀ p ∈ phis b.ref, p ∈ b.phis ∨ i.Wide laid p.target := by
    intro b hb
    obtain ⟨d, hd, hbd⟩ := hrecoded b hb
    by_cases hr : b.ref ∈ i.region.blocks
    · have hw := hwidened b.ref hr d hd
      split at hw
      · rw [hw, hbd.phis]
        exact ⟨fun _ => rfl, fun p hp => .inl hp⟩
      · rename_i hne
        refine ⟨fun hor => ?_, fun p hp => ?_⟩
        · rcases hor with hr' | e
          · exact absurd hr hr'
          · exact absurd (congrArg BlockRef.number e) hne
        · obtain ⟨p₀, hp₀, hpw⟩ := exists_of_forall₂ hw p hp
          unfold PhiWidened at hpw
          split at hpw
          · exact .inr (.inl (hpw.1 ▸ ‹_›))
          · exact .inl (hpw ▸ hbd.phis ▸ hp₀)
    · have : phis b.ref = b.phis := by rw [hrest _ hr, hd, Option.map_some, Option.getD_some, hbd.phis]
      exact ⟨fun _ => this, fun p hp => .inl (this ▸ hp)⟩
  -- so each block is known
  have hknown : ∀ c ∈ q.1.blocks, ∃ b ∈ f.blocks, ∃ d, i.Recoded laid b d ∧ c = { d with
      phis := phis b.ref, instrs := d.instrs ++ (tails b.ref.label).map (Spread.instr i.width) } := by
    intro c hc
    obtain ⟨b, hb, href⟩ := List.mem_map.mp ((hspread.refs.trans hrefs) ▸ List.mem_map_of_mem (f := Block.ref) hc)
    obtain ⟨d, hd, hbd⟩ := hrecoded b hb
    refine ⟨b, hb, d, hbd, ?_⟩
    have hc' := Func.linked?_of_mem hidsq hc
    rw [← href, hspread.block b.ref d hd] at hc'
    exact (Option.some.inj hc').symm
  refine ⟨hspread.refs.trans hrefs, Nat.le_trans hle hspread.le, fun c hc => ?_, fun b c hb hc => ?_⟩
  · obtain ⟨b, hb, d, hbd, rfl⟩ := hknown c hc
    exact ⟨b, hb, hbd.stem h hlaid hescape hb (fun hr => (hphis b hb).1 (.inl hr)) (hphis b hb).2
      fun s hs => htail _ s hs⟩
  · obtain ⟨hc, hcref⟩ := Func.linked?_mem hc
    obtain ⟨hbmem, hbref⟩ := Func.linked?_mem hb
    obtain ⟨b', hb', d, hbd, rfl⟩ := hknown c hc
    obtain rfl : b' = b := Func.eq_of_id_eq h.distinct hb' hbmem (congrArg BlockRef.number
      (hbd.ref.symm.trans (hcref.trans hbref.symm)))
    exact ⟨(hphis b' hb').1 (.inr hbref), hbd.succ⟩

/-! ### Edits of blocks -/

namespace Stem

theorem of_inside (hin : i.region.contains b.id = true) (href : c.ref = b.ref)
    (htargets : ∀ l ∈ c.targets, l ∈ b.targets ∨ l = fold ∧ b.ref = i.region.header)
    (hinstrs : ∀ x ∈ c.instrs, i.Tidy laid x)
    (hphis : ∀ p ∈ c.phis, ¬ i.Wide laid p.target → ∀ t ∈ (Instr.phi p).readTemps, ¬ i.Wide laid t) :
    i.Stem laid passed fold b c := by
  refine ⟨href, htargets, fun _ => hinstrs, fun _ => hphis, fun hout => ?_, fun hout => ?_⟩ <;>
  · rw [hin] at hout
    cases hout

theorem of_outside (hout : i.region.contains b.id = false) (href : c.ref = b.ref)
    (htargets : ∀ l ∈ c.targets, l ∈ b.targets ∨ l = fold ∧ b.ref = i.region.header)
    (hreads : ∀ t ∈ c.readTemps, ¬ i.Wide laid t ∨ passed t ∧ t ∈ b.readTemps)
    (hvectors : (∀ x ∈ b.instrs, x.isVector = false) →
      ∀ x ∈ c.instrs, x.isVector = true → ∀ t, x.write = some t → laid t) : i.Stem laid passed fold b c := by
  refine ⟨href, htargets, fun hin => ?_, fun hin => ?_, fun _ => hreads, fun _ => hvectors⟩ <;>
  · rw [hout] at hin
    cases hin

theorem congr (h : i.Stem laid passed fold b c) (href : d.ref = c.ref) (hphis : d.phis = c.phis)
    (hinstrs : d.instrs = c.instrs) (hjump : d.jump = c.jump) : i.Stem laid passed fold b d := by
  have hreads : d.readTemps = c.readTemps := by rw [Block.readTemps, Block.code, hphis, hinstrs, hjump]; rfl
  have htargets : d.targets = c.targets := by rw [Block.targets, hjump]; rfl
  obtain ⟨h₁, h₂, h₃, h₄, h₅, h₆⟩ := h
  exact ⟨href.trans h₁, htargets ▸ h₂, hinstrs ▸ h₃, hphis ▸ h₄, hreads ▸ h₅, hinstrs ▸ h₆⟩

/-- Lanes are gathered at the end of a block outside. -/
theorem append (h : i.Stem laid passed fold b c) (hout : i.region.contains b.id = false) (hw : x.write = some t)
    (ht : laid t) (hreads : ∀ u ∈ x.readTemps, ¬ i.Wide laid u) :
    i.Stem laid passed fold b { c with instrs := c.instrs ++ [x] } := by
  refine of_outside hout h.ref h.targets (fun u hu => ?_) fun hscalar y hy hvec u hu => ?_
  · rcases Block.mem_readTemps.mp hu with hu | ⟨y, hy, hu⟩ | hu
    · exact h.reads hout u (Block.mem_readTemps.mpr (.inl hu))
    · rcases List.mem_append.mp hy with hy | hy
      · exact h.reads hout u (Block.mem_readTemps.mpr (.inr (.inl ⟨y, hy, hu⟩)))
      · exact .inl (hreads u (List.mem_singleton.mp hy ▸ hu))
    · exact h.reads hout u (Block.mem_readTemps.mpr (.inr (.inr hu)))
  · rcases List.mem_append.mp hy with hy | hy
    · exact h.vectors hout hscalar y hy hvec u hu
    · rw [List.mem_singleton.mp hy, hw] at hu
      exact Option.some.inj hu ▸ ht

/-- Lanes flow into a phi of the header that holds partial results. -/
theorem setIn (h : i.Stem laid passed fold b c) (hin : i.region.contains b.id = true) (ht : i.Partial t) (l : Label)
    (v : Value) : i.Stem laid passed fold b { c with phis := Phi.setIn t l v c.phis } := by
  refine of_inside hin h.ref h.targets (h.instrs hin) fun p hp hwide => ?_
  rcases Phi.exists_of_mem_setIn hp with hp | ⟨q, -, rfl, rfl⟩
  · exact h.phis hin p hp hwide
  · obtain ⟨k, hk⟩ := ht
    exact absurd (.inl (congrArg LaneShape.isVector hk)) hwide

/-- The way out of the header leads to the block that folds. -/
theorem renameTargets (h : i.Stem laid passed fold b c) (hb : b.ref = i.region.header)
    (hin : i.region.contains b.id = true) (exit : Label) :
    i.Stem laid passed fold b (c.renameTargets (Func.renameOne exit fold)) := by
  refine of_inside hin h.ref (fun l hl => ?_) (h.instrs hin) (h.phis hin)
  rw [Block.targets_renameTargets] at hl
  obtain ⟨l', hl', rfl⟩ := List.mem_map.mp hl
  unfold Func.renameOne
  split
  · exact .inr ⟨rfl, hb⟩
  · exact h.targets l' hl'

theorem renameIncoming (h : i.Stem laid passed fold b c) (ρ : Label → Label) :
    i.Stem laid passed fold b (c.renameIncoming ρ) := by
  have hphi : ∀ p : Phi, (Instr.phi (p.renameLabels ρ)).readTemps = (Instr.phi p).readTemps := fun p =>
    congrArg (List.filterMap Value.temp?) (p.reads_renameLabels ρ)
  refine ⟨h.ref, h.targets, h.instrs, fun hin p hp => ?_, fun hout t ht => h.reads hout t ?_, h.vectors⟩
  · obtain ⟨q, hq, rfl⟩ := List.mem_map.mp hp
    rw [hphi]
    exact h.phis hin q hq
  · rcases Block.mem_readTemps.mp ht with ⟨p, hp, ht⟩ | ht
    · obtain ⟨q, hq, rfl⟩ := List.mem_map.mp hp
      exact Block.mem_readTemps.mpr (.inl ⟨q, hq, hphi q ▸ ht⟩)
    · exact Block.mem_readTemps.mpr (.inr ht)

theorem mem_readTemps_substBlock {σ : Temp → Option Value} (h : t ∈ (substBlock σ c).readTemps) :
    ∃ u ∈ c.readTemps, σ u = none ∧ t = u ∨ ∃ v, σ u = some v ∧ v.temp? = some t := by
  have hcode : (substBlock σ c).code = c.code.map (·.subst σ) := by
    rw [Block.code, Block.code, List.map_append, List.map_append, substBlock, List.map_map, List.map_map]
    congr 1
    cases c.jump <;> rfl
  rw [Block.readTemps, hcode] at h
  obtain ⟨y, hy, ht⟩ := List.mem_flatMap.mp h
  obtain ⟨x, hx, rfl⟩ := List.mem_map.mp hy
  obtain ⟨u, hu, h⟩ := Instr.mem_readTemps_subst ht
  exact ⟨u, List.mem_flatMap.mpr ⟨x, hx, hu⟩, h⟩

/-- Outside, what is folded is read in place of partial results. -/
theorem substBlock {σ : Temp → Option Value} (h : i.Stem laid passed fold b c)
    (hout : i.region.contains b.id = false) (hσ : ∀ u v, σ u = some v → ∀ t, v.temp? = some t → ¬ i.Wide laid t)
    (hpassed : ∀ u, passed u → σ u = none → passed' u) :
    i.Stem laid passed' fold b (substBlock σ c) := by
  have htargets : (LaneInfo.substBlock σ c).targets = c.targets.map id :=
    Block.targets_of_jump (fun x => by rw [Instr.targets_subst, List.map_id]) rfl
  refine of_outside hout h.ref (fun l hl => h.targets l ?_) (fun t ht => ?_) fun hscalar y hy hvec t hw => ?_
  · rwa [htargets, List.map_id] at hl
  · obtain ⟨u, hu, ⟨hnone, rfl⟩ | ⟨v, hv, hvt⟩⟩ := mem_readTemps_substBlock ht
    · exact (h.reads hout t hu).imp_right fun ⟨hp, hmem⟩ => ⟨hpassed t hp hnone, hmem⟩
    · exact .inl (hσ u v hv t hvt)
  · obtain ⟨x, hx, rfl⟩ := List.mem_map.mp hy
    rw [Instr.isVector_subst] at hvec
    rw [Instr.write_subst] at hw
    exact h.vectors hout hscalar x hx hvec t hw

end Stem

theorem Stem.passed_mono (h : i.Stem laid passed fold b c) (hsub : ∀ t, passed t → passed' t) :
    i.Stem laid passed' fold b c :=
  ⟨h.ref, h.targets, h.instrs, h.phis, fun hout t ht => (h.reads hout t ht).imp_right fun ⟨hp, hmem⟩ => ⟨hsub t hp, hmem⟩,
    h.vectors⟩

/-- Within the region it does not matter what is passed on outside. -/
theorem Stem.inside (h : i.Stem laid passed fold b c) (hin : i.region.contains b.id = true) :
    i.Stem laid passed' fold b c :=
  .of_inside hin h.ref h.targets (h.instrs hin) (h.phis hin)

/-- Blocks that are changed in their places. -/
theorem Stems.modify (h : i.Stems laid passed fold f g) {u : Block → Block}
    (hu : ∀ b ∈ f.blocks, ∀ c, c.ref = r → i.Stem laid passed fold b c → i.Stem laid passed fold b (u c)) :
    i.Stems laid passed fold f (g.modify r u) := by
  intro c hc
  obtain ⟨d, hd, rfl⟩ := List.mem_map.mp hc
  obtain ⟨b, hb, hbd⟩ := h d hd
  refine ⟨b, hb, ?_⟩
  split
  · exact hu b hb d (beq_iff_eq.mp ‹_›) hbd
  · exact hbd

end LaneInfo

end LoopLanes
