/-
Values that leave a vectorized loop.

Widening lays out lanes under the names of a region.  Code behind the region reads them through reductions alone
(`Region.Keeps`): a loop that its header alone leaves keeps its lanes, in a verified function in which nothing that
is not reached leads to what is reached.

* `LaneInfo.Offered.keeps` — a region whose branches do not vary;
* `LaneInfo.Reworked.keeps` — a region that was lined up;
* `Loop.Enclosed.keeps_lanes` — a loop with what a plan fixed of it;
* `leaks_of_selfStarted` — a loop that is entered from nowhere, and reads its own lanes from in front.
-/
import LoopLanes.Proofs.Lanes.Singles
import LoopLanes.Proofs.Text.Spelling
import LoopLanes.Proofs.Vectorize.Resets
import LoopLanes.Proofs.Widen.Outside
import LoopLanes.Proofs.Widen.Reworked

namespace LoopLanes

variable {f g g' : Func} {l : Loop} {i i' j : LaneInfo} {n n' k : TempCounter} {t : Temp} {lowered : Lowering}

/-! ### What code outside reads -/

/-- What code outside may read of a region that is widened: nothing that a vector instruction of the region
defines, and no header phi of partial results. -/
structure Region.Public (R : Region) (i : LaneInfo) (f g : Func) (t : Temp) : Prop where
  vector : ∀ d ∈ g.blocks, R.contains d.id = true → ∀ y ∈ d.instrs, y.isVector = true → y.write ≠ some t
  partials : ∀ d ∈ f.blocks, d.ref = R.header → ∀ p ∈ d.phis, ∀ k, i.shapeOf p.target = .partials k → p.target ≠ t

/-- Widening keeps the lanes of a region inside: but for reductions in a new block, code outside reads what is
public, and finds single values in every run, as long as it held no vector code before. -/
structure Region.Keeps (R : Region) (i : LaneInfo) (f g : Func) : Prop where
  reads : ∀ c ∈ g.blocks, R.contains c.id = false → ∀ x ∈ c.code,
    c.id = f.total + 1 ∧ x.isReduce = true ∨ ∀ t ∈ x.readTemps, R.Public i f g t
  runs : (∀ b ∈ f.blocks, R.contains b.id = false → ∀ x ∈ b.instrs, x.isVector = false) →
    ∀ c fr, g.Comes c fr → R.contains c.id = false → ∀ x ∈ c.code,
      c.id = f.total + 1 ∧ x.isReduce = true ∨ ∀ t ∈ x.readTemps, ∀ ls, fr.lookup t = some ls → ∃ v, ls = [v]

namespace LaneInfo

/-- Partial results that are passed on leave a phi behind the header. -/
theorem Ready.exists_of_passedOn (h : Ready f n i) (ht : i.PassedOn f t) :
    ∃ d ∈ i.region.blocksIn f, d.ref ≠ i.region.header ∧ t ∈ d.phis.map (·.target) := by
  obtain ⟨⟨k, hk⟩, hheader⟩ := ht
  have hdef : t ∈ i.defs := by
    by_contra hout
    rw [shapeOf_of_outside hout] at hk
    cases hk
  rw [h.defs] at hdef
  obtain ⟨d, hd, hwrite⟩ := List.mem_flatMap.mp hdef
  rcases List.mem_append.mp hwrite with hphi | hinstr
  · exact ⟨d, hd, fun e => hheader d (Region.Placed.mem_of_blocksIn hd).1 e hphi, hphi⟩
  · obtain ⟨x, hx, hw⟩ := List.mem_filterMap.mp hinstr
    exact absurd hk (h.shape_ne_partials hd hx hw k)

/-- Finding shapes leaves alone what a plan fixed. -/
theorem Offered.analyze (h : Offered f n i) : Offered f n (Lowering.analyze f n i).info := by
  obtain ⟨hstage, -, -⟩ := infer_spec f i
  change Offered f n (i.infer f).1
  generalize (i.infer f).1 = j at *
  cases j
  obtain ⟨rfl, rfl, rfl, -⟩ := hstage
  refine ⟨h.toPlaced, h.known, h.named, h.body, fun b hb href p hp s hpin hflat => ?_, h.tests⟩
  obtain ⟨m, hm, hfit, hsteps⟩ := h.steps b hb href p hp s hpin hflat
  refine ⟨m, hm, hfit, fun u hu hwritten => ?_⟩
  obtain ⟨hunpinned, hphis, hinstrs⟩ := hsteps u hu hwritten
  exact ⟨hunpinned, hphis, hinstrs⟩

/-- A region that is handed on keeps its lanes, where no reachable code outside reads partial results that its
blocks pass on. -/
theorem Offered.keeps (h : Offered f n i) (hwiden : (Lowering.analyze f n i).widen = .ok (g, n'))
    (hmax : (n' : Int) ≤ u32Max)
    (hpassing : ∀ d ∈ i.region.blocksIn f, d.ref ≠ i.region.header → ∀ t ∈ d.phis.map (·.target),
      ∀ b ∈ f.blocks, (f.flow false).Reaches b.id → i.region.contains b.id = false → t ∉ b.readTemps) :
    i.region.Keeps (Lowering.analyze f n i).info f g := by
  have hready : Ready f n (Lowering.analyze f n i).info := h.ready
  have hregion := region_analyze f n i
  obtain ⟨laid, hlaid, hleft⟩ := hready.left (widen_of_lowering hwiden).2 hmax
  generalize (Lowering.analyze f n i).info = j at *
  rw [← hregion] at hpassing ⊢
  refine ⟨fun c hc hout x hx => (hleft.not_written hready hlaid hc hout hx).imp_right fun hreads t ht => ?_,
    fun hscalar c fr hcomes hout x hx => hleft.single hready (fun b hb hreach hout t ht hpassed => ?_)
      hscalar hcomes hout hx⟩
  · obtain ⟨hvector, hpartial⟩ := hreads t ht
    exact ⟨hvector, fun d hd href p hp k hk e => hpartial d hd href p hp e ⟨k, e ▸ hk⟩⟩
  · obtain ⟨d, hd, hne, htarget⟩ := hready.exists_of_passedOn hpassed
    exact hpassing d hd hne t htarget b hb hreach hout ht

/-- What the lines of a region keep, the region keeps. -/
theorem Reworked.keeps (hre : Reworked f n i g k i') (hplaced : i.region.Placed f n)
    (h : i'.region.Keeps j g g') : i.region.Keeps j f g' := by
  have hcontains : ∀ v, i'.region.contains v = i.region.contains v := fun v => hre.region.any_eq
  have hheader : ∀ d ∈ f.blocks, d.ref = i.region.header → ∃ c ∈ g.blocks, c.ref = i'.region.header ∧
      c.phis = d.phis := by
    intro d hd href
    obtain ⟨c, hc, e⟩ := List.mem_map.mp (hre.refs ▸ List.mem_map_of_mem (f := Block.ref) hd)
    obtain ⟨b, hb, e', hphis, -⟩ := hre.exists_rest hc fun _ => e.trans href
    obtain rfl := Func.eq_of_id_eq hplaced.distinct hb hd (congrArg BlockRef.number (e'.trans e))
    exact ⟨c, hc, e.trans (href.trans hre.header.symm), hphis.symm⟩
  refine ⟨fun c hc hout x hx => ?_, fun hscalar c fr hcomes hout x hx => ?_⟩
  · refine (h.reads c hc ((hcontains _).trans hout) x hx).imp (hre.total ▸ ·) fun hreads t ht => ?_
    refine ⟨fun d hd hin => (hreads t ht).vector d hd ((hcontains _).trans hin), fun d hd href p hp => ?_⟩
    obtain ⟨c, hc, hc', hphis⟩ := hheader d hd href
    exact (hreads t ht).partials c hc hc' p (hphis ▸ hp)
  · refine (h.runs (fun b hb hb' y hy => ?_) c fr hcomes ((hcontains _).trans hout) x hx).imp_left (hre.total ▸ ·)
    have hout : i.region.contains b.id = false := (hcontains _).symm.trans hb'
    obtain ⟨d, hd, e, -, hinstrs, -⟩ := hre.exists_rest hb fun hin => by
      rw [Block.id, i.region.contains_of_mem hin] at hout
      cases hout
    exact hscalar d hd (by rwa [Block.id, e]) y (hinstrs ▸ hy)

end LaneInfo

/-- Vector code of a loop that its header alone leaves keeps its lanes inside, in a verified function in which
nothing that is not reached leads to what is reached. -/
theorem Loop.Enclosed.keeps_lanes (h : l.Enclosed f) (hext : f.Extensible n)
    (hexit : (l.exitingBlocks f f.forest).map (·.id) = [l.header.number])
    (hregion : i.region = .ofLoop f f.forest l) (hpins : LaneInfo.Pins f n i)
    (hline : (Lowering.analyze f n i).lineUp = .ok lowered) (hwiden : lowered.widen = .ok (g, n'))
    (hmax : (n' : Int) ≤ u32Max) : i.region.Keeps lowered.info f g := by
  have hoffered : LaneInfo.Offered f n i := ⟨hregion ▸ Region.placed_ofLoop h hext, hpins⟩
  rcases LaneInfo.lineUp_eq_ok hline with rfl | ⟨-, f', i', k, hlinearize, rfl⟩
  · refine hoffered.keeps hwiden hmax fun d hd hne t ht b hb hreach hout => ?_
    -- what a block behind the header defines is not read outside
    have hid : d.id ≠ i.region.header.number := by
      obtain ⟨c, hc, e⟩ := hoffered.blocks _ hoffered.header
      rw [← e] at hne ⊢
      exact fun e => hne (hoffered.linked.ref_eq (Region.Placed.mem_of_blocksIn hd).1 hc e)
    rw [hregion] at hd hid hout
    rw [Region.blocksIn_ofLoop h.linked.toLinked] at hd
    rw [Region.contains_ofLoop hb] at hout
    have hwrite : t ∈ d.writes := List.mem_append_left _ ht
    have hlocal := hext.locals t (List.mem_flatMap.mpr ⟨d, (Loop.mem_blocks.mp hd).1, hwrite⟩)
    exact h.not_read_outside hexit hd hid hwrite hlocal hb hreach hout
  · have hinferred := hoffered.analyze
    have hre := LaneInfo.reworked_of_linearize hinferred.toPlaced hlinearize
    have hk : (k : Int) ≤ u32Max := by
      obtain ⟨_, hwidened⟩ := LaneInfo.exists_widened (Func.nodup_ids_of_refs hre.refs hinferred.distinct)
        ((LaneInfo.region_analyze f' k i').symm ▸ hre.region.nodup_iff.mpr hinferred.nodup) (LaneInfo.widen_of_lowering hwiden).2
      exact Int.le_trans (Int.ofNat_le.mpr hwidened.le) hmax
    -- the lines have no phis that could pass partial results on
    have hkeeps := (hinferred.linearize hlinearize hk).keeps hwiden hmax fun d hd hne t ht => by
      obtain ⟨hmem, hin⟩ := hre.mem_of_blocksIn hd
      rw [(hre.lined d hmem hin (hre.header ▸ hne)).1] at ht
      cases ht
    exact LaneInfo.region_analyze f n i ▸ hre.keeps hinferred.toPlaced hkeeps

namespace LaneInfo

/-- What is pinned of the loop that adds up multiples of three. -/
theorem pins_triples : Pins sumTriples 0 triples := by
  have hpinned : ∀ t s, triples.pinned.lookup t = some s →
      t = .ofLocal "cond" .i32 ∧ s = .uniform ∨ t = .ofLocal "s" .i32 ∧ s = .partials .add ∨
        t = .ofLocal "i" .i32 ∧ s = .strided 1 := by
    intro t s h
    have hmem : (t, s) ∈ triples.pinned := mem_of_lookup h
    simpa [triples, pin, ofRegion] using hmem
  refine ⟨fun t h => ?_, fun t s h => ?_, by decide +kernel, fun b hb href p hp s hpin hflat => ?_,
    fun b hb href x hx t s hw hpin => ?_⟩
  · rcases hpinned t _ h with ⟨-, e⟩ | ⟨-, e⟩ | ⟨-, e⟩ <;> cases e
  · rcases hpinned t s h with ⟨rfl, -⟩ | ⟨rfl, -⟩ | ⟨rfl, -⟩ <;> decide
  · have hphis : ∀ b ∈ sumTriples.blocks, ∀ p ∈ b.phis, p.target ≠ .ofLocal "cond" .i32 ∧
        (p.target = .ofLocal "i" .i32 → (Instr.phi p).readTemps = [.ofLocal "next" .i32]) := by decide
    rcases hpinned _ s hpin with ⟨e, rfl⟩ | ⟨e, rfl⟩ | ⟨e, rfl⟩
    · exact absurd e (hphis b hb p hp).1
    · cases hflat
    -- the counter advances by two
    refine ⟨1, rfl, rfl, fun u hu _ => ?_⟩
    rw [(hphis b hb p hp).2 e] at hu
    obtain rfl := List.mem_singleton.mp hu
    rw [e]
    have hinstrs : ∀ b ∈ triples.region.blocksIn sumTriples, ∀ x ∈ b.instrs,
        x.write = some (.ofLocal "next" .i32) →
          x = .arith (.ofLocal "next" .i32) .add .i32 (.temp (.ofLocal "i" .i32)) (.int 2) := by decide +kernel
    exact ⟨by decide, by decide +kernel, fun b hb x hx hw => ⟨2, hinstrs b hb x hx hw⟩⟩
  · have htests : ∀ b ∈ sumTriples.blocks, b.ref = triples.region.header → ∀ x ∈ b.instrs,
        x = .comp (.ofLocal "cond" .i32) .icmp .slt .i32 (.temp (.ofLocal "i" .i32)) (.temp (.ofLocal "bound" .i32)) ∧
          (.ofLocal "bound" .i32) ∉ writesOf (triples.region.blocksIn sumTriples) := by decide +kernel
    obtain ⟨rfl, hbound⟩ := htests b hb href x hx
    obtain rfl : .ofLocal "cond" .i32 = t := Option.some.inj hw
    rcases hpinned _ s hpin with ⟨-, rfl⟩ | ⟨e, -⟩ | ⟨e, -⟩
    · refine ⟨rfl, rfl, rfl, fun u hu hdef => ⟨.strided 1, ?_, rfl⟩⟩
      have hu : u = .ofLocal "i" .i32 ∨ u = .ofLocal "bound" .i32 := by
        simpa [Instr.readTemps, Instr.reads, Value.temp?] using hu
      rcases hu with rfl | rfl
      · decide
      · exact absurd hdef hbound
    · exact absurd e (by decide)
    · exact absurd e (by decide)

end LaneInfo

open LaneInfo in
/-- The loop that adds up multiples of three keeps its two lanes. -/
theorem Loop.Enclosed.keeps_lanes_of_triples : ∃ lowered g n',
    (Lowering.analyze sumTriples 0 triples).lineUp = .ok lowered ∧ lowered.widen = .ok (g, n') ∧
      triples.region.Keeps lowered.info sumTriples g := by
  have hverify : sumTriples.verify = .ok () := handed_triples.verified
  have hloop : Loop.Enclosed sumTriples ((sumTriples.forest.withHeader? 1).getD default) := by
    refine ⟨hverify, ?_, by decide +kernel, by decide +kernel⟩
    exact (Func.enclosed_iff (Func.wellLinked_of_verify hverify).toLinked).mpr (by decide +kernel)
  have hext : sumTriples.Extensible 0 := ⟨handed_triples.named, by decide, by decide⟩
  obtain ⟨lowered, hline, hdone⟩ := exists_of_any (x := (Lowering.analyze sumTriples 0 triples).lineUp)
    (P := fun l => l.widen.toOption.any fun (p : Func × TempCounter) => decide (p.2 ≤ 100)) (by decide +kernel)
  obtain ⟨⟨g, n'⟩, hwiden, hn'⟩ := exists_of_any hdone
  have hmax : (n' : Int) ≤ u32Max := Int.le_trans (Int.ofNat_le.mpr (of_decide_eq_true hn')) (by decide)
  exact ⟨lowered, g, n', hline, hwiden,
    hloop.keeps_lanes hext (by decide +kernel) rfl pins_triples hline hwiden hmax⟩

/-! ### A loop that is entered from nowhere -/

/-- A block outside a loop reads, other than by folding, what a vector instruction of the loop defines. -/
def Func.leaks (f : Func) (l : Loop) : Bool :=
  f.blocks.any fun b => !f.forest.contains l b.id && b.instrs.any fun x => !x.isReduce && x.readTemps.any fun t =>
    (l.blocks f f.forest).any fun c => c.instrs.any fun y => y.isVector && y.write == some t

/-- A loop that is entered from nowhere, and whose sum would start from what the loop computes. -/
def selfStarted : String :=
  "define i32 @f() \x7b\n" ++
  "entry:\n  %i = phi i32 [0, %B3], [%j, %B2]\n  %s = phi i32 [%v, %B3], [%u, %B2]\n" ++
  "  %c = icmp slt i32 %i, 8\n  br i32 %c, label %B2, label %B4\n" ++
  "B2:\n  %v = mul i32 %i, %i\n  %u = add i32 %s, %v\n  %j = add i32 %i, 1\n" ++
  "  br label %entry, !loop {llvm.loop.vectorize.enable = 1, llvm.loop.parallel_accesses}\n" ++
  "B3:\n  br label %entry\n" ++
  "B4:\n  ret i32 %s\n\x7d\n"

set_option maxRecDepth 100000 in
/-- For two lanes, what the loop computes lane by lane is read in front of it, as the start of its sum. -/
theorem leaks_of_selfStarted : ∃ p q, Program.parse selfStarted = .ok p ∧
    p.funcs.all (fun f => f.verify.toBool) = true ∧ p.forLanes? 2 = some q ∧
    ∃ g ∈ q.funcs, ∃ l, g.forest.withHeader? 0 = some l ∧ g.leaks l = true := by
  obtain ⟨p, hp, h⟩ := Program.exists_of_chars (s := selfStarted) (P := fun p =>
    p.funcs.all (fun f => f.verify.toBool) && (p.forLanes? 2).any fun q => q.funcs.any fun g =>
      (g.forest.withHeader? 0).any fun l => g.leaks l)
    (by
      unfold selfStarted
      repeat apply toList_append_of String.toList_ofList
      exact String.toList_ofList) (by decide +kernel)
  simp only [Bool.and_eq_true, Option.any_eq_true, List.any_eq_true] at h
  obtain ⟨hverified, q, hq, g, hg, l, hl, hleaks⟩ := h
  exact ⟨p, q, hp, hverified, hq, g, hg, l, hl, hleaks⟩

end LoopLanes
