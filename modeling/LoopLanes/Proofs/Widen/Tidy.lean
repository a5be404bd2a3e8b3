/-
Where lanes may be found once a region is widened.

A temporary holds lanes if its shape says so or if lanes were laid out under its name (`LaneInfo.Wide`).  What is
emitted for a region keeps to that (`Tidy`): vector instructions define nothing else, and what holds a single
value is computed once, from single values.

* `Region.Placed`, `LaneInfo.Ready` — a region in its function, and one that is about to be widened;
* `Ready.raw`, `Ready.phi_single` — what settled shapes say about its code;
* `tidy_forM` — what is emitted for the instructions of a block is tidy.
-/
import LoopLanes.Proofs.Loop.CutOff
import LoopLanes.Proofs.Widen.Transfers

namespace LoopLanes

/-! ### Regions in their functions -/

/-- A region of a function whose numbers and names leave room for new ones.  Its blocks are blocks of the
function, and its header takes in from outside what is defined outside. -/
structure Region.Placed (R : Region) (f : Func) (n : TempCounter) : Prop where
  distinct : (f.blocks.map Block.id).Nodup
  links : f.LinkedByJumps
  total : ∀ b ∈ f.blocks, b.id ≤ f.total
  reserved : ∀ t ∈ f.mentions, t.Reserved n
  nodup : R.blocks.Nodup
  blocks : ∀ r ∈ R.blocks, ∃ b ∈ f.blocks, b.ref = r
  header : R.header ∈ R.blocks
  targets : ∀ b ∈ f.blocks, b.ref = R.header → (b.phis.map (·.target)).Nodup
  start : ∀ b ∈ f.blocks, b.ref = R.header → ∀ p ∈ b.phis, ∀ v l, p.incoming? l = some v →
    (∀ r ∈ R.blocks, r.label ≠ l) → ∀ t, v.temp? = some t → t ∉ writesOf (R.blocksIn f)

theorem Region.contains_of_mem (R : Region) {r : BlockRef} (hr : r ∈ R.blocks) : R.contains r.number = true :=
  List.any_eq_true.mpr ⟨r, hr, by simp⟩

namespace Region.Placed

variable {R : Region} {f : Func} {n : TempCounter} {b : Block} {x : Instr} {t : Temp}

theorem linked (h : R.Placed f n) : f.Linked := h.links.linked h.distinct

theorem contains_iff (h : R.Placed f n) (hb : b ∈ f.blocks) : R.contains b.id = true ↔ b.ref ∈ R.blocks := by
  refine ⟨fun hin => ?_, fun hr => R.contains_of_mem hr⟩
  obtain ⟨r, hr, e⟩ := List.any_eq_true.mp hin
  obtain ⟨c, hc, rfl⟩ := h.blocks r hr
  rwa [← h.linked.ref_eq hc hb (beq_iff_eq.mp e)]

theorem mem_blocksIn (h : R.Placed f n) (hb : b ∈ f.blocks) (hr : b.ref ∈ R.blocks) : b ∈ R.blocksIn f :=
  List.mem_filterMap.mpr ⟨b.ref, hr, h.linked.linked? hb⟩

theorem mem_of_blocksIn (hb : b ∈ R.blocksIn f) : b ∈ f.blocks ∧ b.ref ∈ R.blocks := by
  obtain ⟨r, hr, hb⟩ := List.mem_filterMap.mp hb
  obtain ⟨hmem, rfl⟩ := Func.linked?_mem hb
  exact ⟨hmem, hr⟩

theorem reserved_of_read (h : R.Placed f n) (hb : b ∈ f.blocks) (ht : t ∈ b.readTemps) : t.Reserved n :=
  h.reserved t (Func.mem_mentions_of_read hb ht)

/-- What the region defines is mentioned. -/
theorem reserved_of_write (h : R.Placed f n) (ht : t ∈ writesOf (R.blocksIn f)) : t.Reserved n := by
  obtain ⟨b, hb, ht⟩ := List.mem_flatMap.mp ht
  exact h.reserved t (Func.mem_mentions (List.mem_append_right _
    (List.mem_flatMap.mpr ⟨b, (mem_of_blocksIn hb).1, ht⟩)))

end Region.Placed

theorem mem_writesOf_of_instr {bs : List Block} {b : Block} {x : Instr} {t : Temp} (hb : b ∈ bs) (hx : x ∈ b.instrs)
    (hw : x.write = some t) : t ∈ writesOf bs :=
  List.mem_flatMap.mpr ⟨b, hb, List.mem_append_right _ (List.mem_filterMap.mpr ⟨x, hx, hw⟩)⟩

theorem mem_writesOf_of_phi {bs : List Block} {b : Block} {p : Phi} (hb : b ∈ bs) (hp : p ∈ b.phis) :
    p.target ∈ writesOf bs :=
  List.mem_flatMap.mpr ⟨b, hb, List.mem_append_left _ (List.mem_map_of_mem hp)⟩

namespace LaneInfo

variable {i : LaneInfo} {f g : Func} {n m n' : TempCounter} {laid : Temp → Prop} {b c : Block} {x : Instr} {t : Temp}
  {r : BlockRef}

/-- A temporary that may hold lanes once a region is widened: its shape says so, or lanes were laid out under
its name. -/
def Wide (i : LaneInfo) (laid : Temp → Prop) (t : Temp) : Prop := (i.shapeOf t).isVector = true ∨ laid t

/-- Code of a widened region: what vector instructions define varies, and what holds a single value is
computed from what does. -/
structure Tidy (i : LaneInfo) (laid : Temp → Prop) (x : Instr) : Prop where
  vector : x.isVector = true → ∀ t, x.write = some t → i.shapeOf t = .varying ∨ laid t
  scalar : ∀ t, x.write = some t → ¬ i.Wide laid t → x.isReduce = true ∨ ∀ u ∈ x.readTemps, ¬ i.Wide laid u

theorem Tidy.confined (hx : i.Tidy laid x) : x.Confined (i.Wide laid) where
  vector hvector t hw := (hx.vector hvector t hw).imp_left fun e => by rw [e]; rfl
  scalar := hx.scalar

theorem tidy_of_laid (hw : x.write = some t) (ht : laid t) : i.Tidy laid x := by
  refine ⟨fun _ u hu => ?_, fun u hu hwide => ?_⟩
  · rw [hw, Option.some.injEq] at hu
    exact .inr (hu ▸ ht)
  · rw [hw, Option.some.injEq] at hu
    exact absurd (.inr (hu ▸ ht)) hwide

/-- Code of a region before it is widened: what is to be run lane by lane defines what varies. -/
structure Raw (i : LaneInfo) (laid : Temp → Prop) (x : Instr) : Prop where
  vector : i.isVectorInstr x = true → ∀ t, x.write = some t → i.shapeOf t = .varying
  scalar : i.isVectorInstr x = false → i.Tidy laid x

/-! ### Emitted code -/

theorem tidy_ladder (width : Nat) (u : Temp) (stride : Int) (s : WidenState) (hs : ∀ x ∈ s.out, i.Tidy laid x)
    (hlaid : ∀ t : Temp, t.Fresh s.temps ((Widening.ladder width u stride).run s).2.temps → laid t) :
    ∀ x ∈ ((Widening.ladder width u stride).run s).2.out, i.Tidy laid x := by
  rw [Widening.run_ladder] at hlaid ⊢
  split
  · exact hs
  · rename_i hnone
    rw [hnone] at hlaid
    intro x hx
    rcases List.mem_append.mp hx with hx | hx
    · exact hs x hx
    · rw [List.mem_singleton.mp hx]
      exact tidy_of_laid rfl (hlaid _ ⟨s.temps + 1, Nat.lt_succ_self _, Nat.le_refl _, rfl⟩)

theorem tidy_lanesOf : ∀ {ts : List Temp} {s : WidenState}, (∀ x ∈ s.out, i.Tidy laid x) →
    (∀ t : Temp, t.Fresh s.temps ((ts.mapM (Widening.lanesOf i)).run s).2.temps → laid t) →
    ∀ x ∈ ((ts.mapM (Widening.lanesOf i)).run s).2.out, i.Tidy laid x := by
  intro ts
  induction ts with
  | nil => exact fun hs _ => hs
  | cons u ts ih =>
    intro s hs hlaid
    rw [Widening.run_mapM_cons] at hlaid ⊢
    have hle := Widening.le_temps_lanesOf i u s
    refine ih ?_ fun t ht => hlaid t (ht.weaken hle)
    have hfirst : ∀ t : Temp, t.Fresh s.temps ((Widening.lanesOf i u).run s).2.temps → laid t :=
      fun t ht => hlaid t (ht.mono (Widening.le_temps_mapM_lanesOf i ts _))
    by_cases hstrided : ∃ stride, i.shapeOf u = .strided stride
    · obtain ⟨stride, hstrided⟩ := hstrided
      rw [Widening.run_lanesOf_of_strided hstrided] at hfirst ⊢
      exact tidy_ladder i.width u stride s hs hfirst
    · rw [Widening.run_lanesOf_of_not_strided fun stride e => hstrided ⟨stride, e⟩]
      exact hs

theorem tidy_forM : ∀ {xs : List Instr} {s : WidenState}, (∀ x ∈ xs, i.Raw laid x) →
    (∀ x ∈ s.out, i.Tidy laid x) →
    (∀ t : Temp, t.Fresh s.temps ((xs.forM (Widening.instr i)).run s).2.temps → laid t) →
    ∀ x ∈ ((xs.forM (Widening.instr i)).run s).2.out, i.Tidy laid x := by
  intro xs
  induction xs with
  | nil => exact fun _ hs _ => hs
  | cons y xs ih =>
    intro s hraw hs hlaid
    obtain ⟨hy, hraw⟩ := List.forall_mem_cons.mp hraw
    rw [Widening.run_forM_cons] at hlaid ⊢
    have hle := Widening.le_temps_instr (i := i) y s
    refine ih hraw ?_ fun t ht => hlaid t (ht.weaken hle)
    have hfirst : ∀ t : Temp, t.Fresh s.temps ((Widening.instr i y).run s).2.temps → laid t :=
      fun t ht => hlaid t (ht.mono (Widening.le_temps_forM xs _))
    intro x hx
    cases hv : i.isVectorInstr y with
    | false =>
      rw [Widening.run_instr_of_not hv] at hx
      rcases List.mem_append.mp hx with hx | hx
      · exact hs x hx
      · exact List.mem_singleton.mp hx ▸ hy.scalar hv
    | true =>
      -- first lanes are laid out for the operands that have a stride
      obtain ⟨z, hz, hwrite, -, -, hrun⟩ := Widening.run_instr_of_vector hv s
      rw [hrun] at hx hfirst
      rcases List.mem_append.mp hx with hx | hx
      · exact tidy_lanesOf hs hfirst x hx
      · rw [List.mem_singleton.mp hx]
        have hvarying : ∀ t, (z.subst fun u => (((z.readTemps.mapM (Widening.lanesOf i)).run s).1.filterMap id).lookup
            u).write = some t → i.shapeOf t = .varying := fun t ht =>
          hy.vector hv t (hwrite ▸ Instr.write_subst _ z ▸ ht)
        refine ⟨fun _ t ht => .inl (hvarying t ht), fun t ht hwide => absurd (.inl ?_) hwide⟩
        rw [hvarying t ht]
        rfl

/-! ### Regions about to be widened -/

variable {p : Phi}

/-- A region that is about to be widened: shapes are settled, and what is pinned and does not vary is
computed from what does not vary. -/
structure Ready (f : Func) (n : TempCounter) (i : LaneInfo) : Prop extends Region.Placed i.region f n where
  defs : i.defs = writesOf (i.region.blocksIn f)
  settled : Settled (i.region.blocksIn f) i
  known : ∀ t, i.pinned.lookup t ≠ some .unknown
  pinned : ∀ b ∈ i.region.blocksIn f, ∀ x ∈ b.instrs, ∀ t s, x.write = some t → i.pinned.lookup t = some s →
    s.isVector = false ∧ x.isVector = false ∧ x.isCall = false ∧
      ∀ u ∈ x.readTemps, (i.shapeOf u).isVector = false
  phis : ∀ b ∈ i.region.blocksIn f, ∀ p ∈ b.phis, ∀ s, i.pinned.lookup p.target = some s → s.isVector = false →
    ∀ u ∈ (Instr.phi p).readTemps, (i.shapeOf u).isVector = false

namespace Ready

theorem shape_ne_unknown (h : Ready f n i) (v : Value) : i.shape v ≠ .unknown :=
  h.settled.shape_ne_unknown h.defs h.known v

theorem reserved_of_mem_defs (h : Ready f n i) (ht : t ∈ i.defs) : t.Reserved n :=
  h.reserved_of_write (h.defs ▸ ht)

/-- Unless it is pinned, what an instruction of the region defines varies, or has the shape that the
instruction gives it. -/
theorem shape_of_write (h : Ready f n i) (hb : b ∈ i.region.blocksIn f) (hx : x ∈ b.instrs) (hw : x.write = some t)
    (hpin : i.pinned.lookup t = none) :
    i.shapeOf t = .varying ∨ i.shapeOf t = LaneShape.transfer i.shape x := by
  have habsorbs := h.settled.absorbs_transfer h.defs hb hx hw hpin
  rcases LaneShape.absorbs_iff.mp habsorbs with e | e | ⟨e, -⟩
  · exact absurd e (LaneShape.transfer_known h.shape_ne_unknown x)
  · exact .inr e
  · exact .inl e

/-- What an instruction of the region defines without varying is computed once, from what does not vary. -/
theorem scalar_of_flat (h : Ready f n i) (hb : b ∈ i.region.blocksIn f) (hx : x ∈ b.instrs) (hw : x.write = some t)
    (hflat : (i.shapeOf t).isVector = false) : x.isVector = false ∧ x.isCall = false ∧
      (x.isReduce = true ∨ ∀ u ∈ x.readTemps, (i.shapeOf u).isVector = false) := by
  cases hpin : i.pinned.lookup t with
  | some s =>
    obtain ⟨-, hvector, hcall, hreads⟩ := h.pinned b hb x hx t s hw hpin
    exact ⟨hvector, hcall, .inr hreads⟩
  | none =>
    rcases h.shape_of_write hb hx hw hpin with e | e
    · rw [e] at hflat
      cases hflat
    · rw [e] at hflat
      obtain ⟨hvector, hcall, hreads⟩ := LaneShape.scalar_of_transfer h.shape_ne_unknown hflat
      refine ⟨hvector, hcall, hreads.imp_right fun hreads u hu => ?_⟩
      obtain ⟨v, hv, hu⟩ := Instr.mem_readTemps.mp hu
      have := hreads v hv
      rwa [LaneInfo.shape, hu] at this

/-- No instruction of the region defines partial results. -/
theorem shape_ne_partials (h : Ready f n i) (hb : b ∈ i.region.blocksIn f) (hx : x ∈ b.instrs)
    (hw : x.write = some t) (k : RedKind) : i.shapeOf t ≠ .partials k := by
  cases hpin : i.pinned.lookup t with
  | some s =>
    intro e
    have hflat := (h.pinned b hb x hx t s hw hpin).1
    rw [← shapeOf_of_pinned (h.defs ▸ mem_writesOf_of_instr hb hx hw) hpin, e] at hflat
    cases hflat
  | none =>
    rcases h.shape_of_write hb hx hw hpin with e | e
    · simp [e]
    · exact e ▸ LaneShape.transfer_ne_partials i.shape x

theorem not_wide (hlaid : ∀ t : Temp, t.Reserved n → ¬ laid t) (hflat : (i.shapeOf t).isVector = false)
    (hr : t.Reserved n) : ¬ i.Wide laid t := by
  rintro (h | h)
  · rw [hflat] at h
    cases h
  · exact hlaid t hr h

/-- The instructions of the region before they are widened. -/
theorem raw (h : Ready f n i) (hlaid : ∀ t : Temp, t.Reserved n → ¬ laid t) (hb : b ∈ i.region.blocksIn f)
    (hx : x ∈ b.instrs) : i.Raw laid x := by
  have hvector : ∀ t, x.write = some t → (i.shapeOf t).isVector = false → i.isVectorInstr x = false := by
    intro t hw hflat
    obtain ⟨hvec, hcall, -⟩ := h.scalar_of_flat hb hx hw hflat
    simp [isVectorInstr, hvec, hcall, hw, hflat]
  refine ⟨fun hv t hw => ?_, fun hv => ⟨fun hvec => ?_, fun t hw hwide => ?_⟩⟩
  · cases e : i.shapeOf t with
    | varying => rfl
    | partials k => exact absurd e (h.shape_ne_partials hb hx hw k)
    | _ =>
      rw [hvector t hw (by rw [e]; rfl)] at hv
      cases hv
  · simp [isVectorInstr, hvec] at hv
  · have hflat : (i.shapeOf t).isVector = false := by
      by_contra hne
      exact hwide (.inl (by simpa using hne))
    obtain ⟨-, -, hreads⟩ := h.scalar_of_flat hb hx hw hflat
    refine hreads.imp_right fun hreads u hu => not_wide hlaid (hreads u hu) ?_
    refine h.reserved_of_read (Region.Placed.mem_of_blocksIn hb).1 (Block.mem_readTemps.mpr (.inr (.inl ⟨x, hx, hu⟩)))

/-- A phi of the region that holds a single value takes in such values. -/
theorem phi_single (h : Ready f n i) (hlaid : ∀ t : Temp, t.Reserved n → ¬ laid t) (hb : b ∈ i.region.blocksIn f)
    (hp : p ∈ b.phis) (hwide : ¬ i.Wide laid p.target) :
    ∀ t ∈ (Instr.phi p).readTemps, ¬ i.Wide laid t := by
  intro t ht
  have hflat : (i.shapeOf p.target).isVector = false := by
    by_contra hne
    exact hwide (.inl (by simpa using hne))
  have hmem : p.target ∈ i.defs := h.defs ▸ mem_writesOf_of_phi hb hp
  refine not_wide hlaid ?_ (h.reserved_of_read (Region.Placed.mem_of_blocksIn hb).1 (Block.mem_readTemps.mpr (.inl ⟨p, hp, ht⟩)))
  cases hpin : i.pinned.lookup p.target with
  | some s =>
    rw [shapeOf_of_pinned hmem hpin] at hflat
    exact h.phis b hb p hp s hpin hflat t ht
  | none =>
    obtain ⟨v, hv, hvt⟩ := Instr.mem_readTemps.mp ht
    obtain ⟨e, he, rfl⟩ := List.mem_map.mp hv
    have hshape : i.shape e.1 = i.shapeOf t := by rw [LaneInfo.shape, hvt]
    rcases h.settled.absorbs_incoming h.defs hb hp hpin with hvarying | habsorbs
    · rw [hvarying] at hflat
      cases hflat
    · rcases LaneShape.absorbs_iff.mp (habsorbs e he) with hnone | hsame | ⟨hvarying, -⟩
      · exact absurd hnone (h.shape_ne_unknown e.1)
      · rwa [← hshape, ← hsame]
      · rw [hvarying] at hflat
        cases hflat

end Ready

end LaneInfo

end LoopLanes
