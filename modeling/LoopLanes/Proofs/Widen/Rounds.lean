/-
Rounds of widened loops.

A region is handed to widening with the shapes of its header phis pinned (`Handed`).  Where no branch of it
varies, a round of the widened region does for all lanes what a round of the region does for each: it
takes the same way, and its frame stands for those of the lanes in the end (`Rounds.simulates`).  What is
read on the way was defined on the way, because the header dominates the region (`Passed`).
-/
import LoopLanes.Proofs.Cfg.Names
import LoopLanes.Proofs.Cfg.Uses
import LoopLanes.Proofs.Lanes.Rounds
import LoopLanes.Proofs.Shape.Fixpoint
import LoopLanes.Proofs.Loop.Discovery
import LoopLanes.Proofs.Loop.Parts
import LoopLanes.Proofs.Widen.Blocks
import LoopLanes.Vectorize.Pass

namespace LoopLanes

namespace LaneInfo

/-- A loop that is handed to widening.  Its header dominates whatever of it is reached; its instructions
only compute; and pinned are all header phis, and otherwise only what the header computes from phis
that do not vary and from outside, as the exit test is. -/
structure Handed (f : Func) (n : TempCounter) (i : LaneInfo) : Prop where
  verified : f.verify = .ok ()
  named : f.Named n
  width : 0 < i.width
  loop : ∃ l ∈ f.forest.loops, l.isRoot = false ∧ i.region = .ofLoop f f.forest l
  dominated : ∀ r ∈ i.region.blocks, (f.flow false).Reaches r.number →
    (f.flow false).Dominates i.region.header.number r.number
  plain : ∀ r ∈ i.region.blocks, Plain f r
  phis : ∀ b, f.linked? i.region.header = some b → ∀ p ∈ b.phis,
    ∃ s, i.pinned.lookup p.target = some s
  known : ∀ t, i.pinned.lookup t ≠ some .unknown
  pinned : ∀ t ∈ writesOf (i.region.blocksIn f), ∀ s, i.pinned.lookup t = some s →
    ∃ b, f.linked? i.region.header = some b ∧ (t ∈ b.phis.map (·.target) ∨
      ∃ x ∈ b.instrs, x.write = some t ∧ ∀ u ∈ x.readTemps, u ∈ writesOf (i.region.blocksIn f) →
        ∃ s, i.pinned.lookup u = some s ∧ s.isVector = false)

/-- A region whose shapes were found, and none of whose branches varies. -/
structure Analyzed (f : Func) (n : TempCounter) (i : LaneInfo) : Prop extends Handed f n i where
  defs : i.defs = writesOf (i.region.blocksIn f)
  settled : Settled (i.region.blocksIn f) i
  uniform : ∀ b ∈ i.region.blocksIn f, ∀ ty cond l m, b.jump = some (.branch ty cond l m) →
    i.shape cond = .uniform

variable {f f' : Func} {n n' : TempCounter} {i : LaneInfo} {b c : Block} {r : BlockRef} {t : Temp}

namespace Handed

theorem wellLinked (h : Handed f n i) : f.WellLinked := Func.wellLinked_of_verify h.verified

theorem nodup (h : Handed f n i) : i.region.blocks.Nodup := by
  obtain ⟨l, -, -, hregion⟩ := h.loop
  have hnodup := h.wellLinked.nodup
  rw [show f.blocks.map Block.id = (f.blocks.map Block.ref).map (·.number) by
    rw [List.map_map]; rfl] at hnodup
  rw [hregion]
  exact hnodup.of_map.sublist ((List.filter_sublist ..).map _)

/-- Links of the region lead to blocks of the function. -/
theorem linked (h : Handed f n i) (hr : r ∈ i.region.blocks) : ∃ b, f.linked? r = some b := by
  obtain ⟨l, -, -, hregion⟩ := h.loop
  rw [hregion] at hr
  obtain ⟨b, hb, rfl⟩ := List.mem_map.mp hr
  exact ⟨b, h.wellLinked.linked? (Loop.mem_blocks.mp hb).1⟩

theorem header (h : Handed f n i) : i.region.header ∈ i.region.blocks := by
  obtain ⟨l, hl, hroot, hregion⟩ := h.loop
  obtain ⟨p, hp, -⟩ := LoopForest.exists_latch h.wellLinked.toLinked hl hroot
  obtain ⟨b, hb⟩ : ∃ b, f.linked? l.header = some b := by
    cases hb : f.linked? l.header with
    | none => simp [LoopSearch.prevs, hb] at hp
    | some b => exact ⟨b, rfl⟩
  obtain ⟨hmem, href⟩ := Func.linked?_mem hb
  rw [hregion]
  refine List.mem_map.mpr ⟨b, Loop.mem_blocks.mpr ⟨hmem, ?_⟩, href⟩
  rw [show b.id = l.header.number from congrArg BlockRef.number href]
  exact LoopForest.contains_header h.wellLinked.toLinked hl

theorem reached (h : Handed f n i) : (f.flow false).Reaches i.region.header.number := by
  obtain ⟨l, hl, hroot, hregion⟩ := h.loop
  obtain ⟨p, -, hdom⟩ := LoopForest.exists_latch h.wellLinked.toLinked hl hroot
  rw [hregion]
  exact hdom.reaches_left

/-- What is handed over does not depend on the shapes found so far. -/
theorem of_stage {j : LaneInfo} {computed : List (Temp × LaneShape)} {defs : List Temp}
    (h : Handed f n i) (hs : Stage { i with computed := computed, defs := defs } j) : Handed f n j := by
  cases j
  obtain ⟨rfl, rfl, rfl, -⟩ := hs
  exact ⟨h.verified, h.named, h.width, h.loop, h.dominated, h.plain, h.phis, h.known, h.pinned⟩

/-- Finding the shapes of a region that was handed over. -/
theorem analyzed (h : Handed f n i) (hbranches : (Lowering.analyze f n i).isDivergent = false) :
    Analyzed f n (Lowering.analyze f n i).info := by
  obtain ⟨hstage, hsettled, hvarying⟩ := infer_spec f i
  change Analyzed f n (i.infer f).1
  change (!(i.infer f).2.isEmpty) = false at hbranches
  rw [hvarying] at hbranches
  have hj := h.of_stage hstage
  obtain ⟨-, hregion, -, hdefs⟩ := hstage
  generalize (i.infer f).1 = j at *
  have hregion : j.region = i.region := hregion
  rw [← hregion] at hsettled hdefs hbranches
  refine ⟨hj, hdefs, hsettled, fun b hb ty cond l m hjump => ?_⟩
  have hknown := hsettled.shape_ne_unknown hdefs hj.known cond
  by_contra hne
  have hmem : b.id ∈ varyingBranches (j.region.blocksIn f) j := by
    refine List.mem_map_of_mem (List.mem_filter.mpr ⟨hb, ?_⟩)
    simp [hjump, LaneShape.isDefined, LaneShape.isUniform, hknown, hne]
  have hnone : varyingBranches (j.region.blocksIn f) j = [] := by simpa using hbranches
  rw [hnone] at hmem
  cases hmem

end Handed

namespace Analyzed

theorem mem_blocksIn (h : Analyzed f n i) (hr : b.ref ∈ i.region.blocks) (hb : b ∈ f.blocks) :
    b ∈ i.region.blocksIn f :=
  List.mem_filterMap.mpr ⟨b.ref, hr, h.wellLinked.linked? hb⟩

theorem shape_ne_unknown (h : Analyzed f n i) (v : Value) : i.shape v ≠ .unknown :=
  h.settled.shape_ne_unknown h.defs h.known v

theorem mem_defs (h : Analyzed f n i) (hr : b.ref ∈ i.region.blocks) (hb : b ∈ f.blocks)
    (ht : t ∈ b.writes) : t ∈ i.defs :=
  h.defs ▸ List.mem_flatMap.mpr ⟨b, h.mem_blocksIn hr hb, ht⟩

/-- What the region defines is written by one of its blocks. -/
theorem exists_block (h : Analyzed f n i) (ht : t ∈ i.defs) :
    ∃ b ∈ f.blocks, b.ref ∈ i.region.blocks ∧ t ∈ b.writes ∧ t.isGlobal = false := by
  rw [h.defs] at ht
  obtain ⟨b, hb, ht⟩ := List.mem_flatMap.mp ht
  obtain ⟨r, hr, hb⟩ := List.mem_filterMap.mp hb
  obtain ⟨hmem, rfl⟩ := Func.linked?_mem hb
  exact ⟨b, hmem, hr, ht, h.named.locals t (List.mem_flatMap.mpr ⟨b, hmem, ht⟩)⟩

theorem reserved (h : Analyzed f n i) (hb : b ∈ f.blocks) (ht : t ∈ b.mentions) : t.Reserved n :=
  h.named.reserved t (List.mem_append_right _ (List.mem_flatMap.mpr ⟨b, hb, ht⟩))

end Analyzed

/-! ### What is known on the way -/

/-- A block of the region with the blocks passed so far, itself included: they hold every block of the region that
dominates it, and `past` holds what the others of them define. -/
structure Passed (f : Func) (i : LaneInfo) (visited : List Int) (past : List Temp) (b : Block) : Prop where
  mem : b ∈ f.blocks
  inside : b.ref ∈ i.region.blocks
  reached : (f.flow false).Reaches b.id
  dominators : ∀ c ∈ f.blocks, c.ref ∈ i.region.blocks → (f.flow false).Dominates c.id b.id →
    c.id ∈ visited
  past : ∀ c ∈ f.blocks, c.id ∈ visited → c.id ≠ b.id → c.writes ⊆ past

namespace Passed

variable {visited : List Int} {past : List Temp}

/-- A round starts at the header. -/
theorem start (h : Analyzed f n i) (hb : f.linked? i.region.header = some b) :
    Passed f i [b.id] [] b := by
  obtain ⟨hmem, href⟩ := Func.linked?_mem hb
  have hid : b.id = i.region.header.number := congrArg BlockRef.number href
  refine ⟨hmem, href ▸ h.header, hid ▸ h.reached, fun c _ hr hdom => ?_, fun c _ hv hne => ?_⟩
  · have hback := h.dominated c.ref hr hdom.reaches_left
    rw [List.mem_singleton]
    exact hdom.antisymm (hid ▸ hback)
  · exact absurd (List.mem_singleton.mp hv) hne

/-- A jump leads to a block with one more block behind it. -/
theorem step (h : Analyzed f n i) (hp : Passed f i visited past b) (hc : c ∈ f.blocks)
    (hinside : c.ref ∈ i.region.blocks) (hedge : (f.flow false).edge b.id c.id) :
    Passed f i (c.id :: visited) (b.writes ++ past) c := by
  refine ⟨hc, hinside, hp.reached.step hedge, fun d hd hr hdom => ?_, fun d hd hv hne => ?_⟩
  · by_cases e : d.id = c.id
    · exact e ▸ List.mem_cons_self
    · exact List.mem_cons_of_mem _
        (hp.dominators d hd hr (hdom.of_edge (fun e' => e e'.symm) hp.reached hedge))
  · have hv := (List.mem_cons.mp hv).resolve_left hne
    by_cases e : d.id = b.id
    · rw [Func.eq_of_id_eq h.wellLinked.nodup hd hp.mem e]
      exact List.subset_append_left _ _
    · exact List.Subset.trans (hp.past d hd hv e) (List.subset_append_right _ _)

/-- What a block of the way reads was defined on the way. -/
theorem defined (h : Analyzed f n i) (hp : Passed f i visited past b) (ht : t ∈ i.defs) {pos : Nat}
    (havail : Func.available f.definitions (DomTree.ofFunc f false) t b.id pos = true) :
    t ∈ past ∧ t ∉ b.writes ∨ t ∈ b.phis.map (·.target) ∨
      t ∈ (b.instrs.take pos).filterMap Instr.write := by
  obtain ⟨d, hd, hr, ht, hlocal⟩ := h.exists_block ht
  rcases Func.defined_of_available h.verified hd ht hlocal havail with ⟨e, hdef⟩ | ⟨ne, hdom⟩
  · rw [Func.eq_of_id_eq h.wellLinked.nodup hd hp.mem e] at hdef
    refine .inr (hdef.imp_right fun ⟨p, x, hx, hw, hlt⟩ => List.mem_filterMap.mpr ⟨x, ?_, hw⟩)
    exact List.mem_of_getElem? (i := p) (by rw [List.getElem?_take_of_lt hlt, hx])
  · refine .inl ⟨hp.past d hd (hp.dominators d hd hr hdom) ne ht, fun hb => ne ?_⟩
    rw [Func.eq_of_mem_writes h.verified hd hp.mem ht hb]

/-- The instructions of a block of the way read what is known by then. -/
theorem ordered (h : Analyzed f n i) (hp : Passed f i visited past b) :
    ∀ {xs pre : List Instr} {known : List Temp}, b.instrs = pre ++ xs →
    (∀ t, t ∈ past ∨ t ∈ b.phis.map (·.target) ∨ t ∈ pre.filterMap Instr.write → t ∈ known) →
    Widening.Ordered i n known xs := by
  intro xs
  induction xs with
  | nil => exact fun _ _ => trivial
  | cons x xs ih =>
    intro pre known hsplit hknown
    have hx : b.instrs[pre.length]? = some x := by simp [hsplit]
    have htake : b.instrs.take pre.length = pre := by simp [hsplit]
    have hnodup := Func.writes_nodup h.verified hp.mem
    rw [Block.writes, hsplit, List.filterMap_append] at hnodup
    have hdefined : ∀ u ∈ x.readTemps, u ∈ i.defs → u ∈ past ∧ u ∉ b.writes ∨
        u ∈ b.phis.map (·.target) ∨ u ∈ pre.filterMap Instr.write := by
      intro u hu hdef
      have hread : (b.instrs ++ b.jump.toList)[pre.length]? = some x := by simp [hsplit]
      have := hp.defined h hdef (Func.available_of_read h.verified hp.mem hp.reached hread hu)
      rwa [htake] at this
    refine ⟨fun u hu => ⟨⟨?_, fun hdef => ?_⟩, fun hdef hlater => ?_⟩, @ih (pre ++ [x]) _ ?_ ?_⟩
    · refine h.reserved hp.mem (List.mem_flatMap.mpr ⟨x, ?_, List.mem_append_right _ hu⟩)
      exact List.mem_append_left _ (List.mem_append_right _ (List.mem_of_getElem? hx))
    · exact hknown u ((hdefined u hu hdef).imp_left (·.1))
    · -- a block does not write anew what was defined before
      obtain ⟨-, hnodup', hdisjoint⟩ := List.nodup_append.mp hnodup
      rcases hdefined u hu hdef with ⟨-, hnot⟩ | htarget | hpre
      · refine hnot (List.mem_append_right _ ?_)
        rw [hsplit, List.filterMap_append]
        exact List.mem_append_right _ hlater
      · exact hdisjoint u htarget u (List.mem_append_right _ hlater) rfl
      · exact (List.nodup_append.mp hnodup').2.2 u hpre u hlater rfl
    · simp [hsplit]
    · intro t ht
      rw [List.filterMap_append, List.mem_append] at ht
      rw [List.mem_append]
      rcases ht with ht | ht | ht | ht
      · exact .inr (hknown t (.inl ht))
      · exact .inr (hknown t (.inr (.inl ht)))
      · exact .inr (hknown t (.inr (.inr ht)))
      · refine .inl ?_
        obtain ⟨y, hy, hw⟩ := List.mem_filterMap.mp ht
        rw [List.mem_singleton.mp hy] at hw
        simp [hw]

/-- What the terminator of a block of the way reads is known. -/
theorem readable_jump (h : Analyzed f n i) (hp : Passed f i visited past b) {j : Instr}
    (hj : b.jump = some j) (ht : t ∈ j.readTemps) : i.Readable n (b.writes ++ past) t := by
  refine ⟨h.reserved hp.mem (List.mem_flatMap.mpr ⟨j, ?_, List.mem_append_right _ ht⟩),
    fun hdef => ?_⟩
  · exact List.mem_append_right _ (by simp [hj])
  · have hread : (b.instrs ++ b.jump.toList)[b.instrs.length]? = some j := by simp [hj]
    have := hp.defined h hdef (Func.available_of_read h.verified hp.mem hp.reached hread ht)
    rw [List.take_length] at this
    rw [Block.writes, List.mem_append, List.mem_append]
    tauto

/-- What a phi takes in from a block of the way is known at its end. -/
theorem readable_incoming (h : Analyzed f n i) (hp : Passed f i visited past b) (hc : c ∈ f.blocks)
    {p : Phi} (hphi : p ∈ c.phis) (hin : (Value.temp t, b.label) ∈ p.incoming) :
    i.Readable n (b.writes ++ past) t := by
  have hprev := Func.mem_prev_of_incoming h.wellLinked hc hp.mem hphi hin
  refine ⟨h.reserved hc (List.mem_flatMap.mpr ⟨.phi p, ?_, List.mem_append_right _ ?_⟩),
    fun hdef => ?_⟩
  · exact List.mem_append_left _ (List.mem_append_left _ (List.mem_map_of_mem hphi))
  · exact List.mem_filterMap.mpr ⟨.temp t, List.mem_map_of_mem (f := (·.1)) hin, rfl⟩
  · obtain ⟨d, hd, hr, ht, hlocal⟩ := h.exists_block hdef
    have hincoming := Phi.incoming?_of_mem (Func.labels_of_phi h.wellLinked hc hphi).1 hin
    have hedge : (f.flow false).edge b.id c.id := by
      obtain ⟨e, he, hprev'⟩ := h.wellLinked.prev c hc _ hprev
      rw [← Func.eq_of_id_eq h.wellLinked.nodup he hp.mem (congrArg BlockRef.number hprev'.1)]
      exact (h.wellLinked.flow_edge he).mpr ⟨_, hprev'.2, rfl⟩
    obtain ⟨pos, havail⟩ := Func.available_of_incoming h.verified hc (hp.reached.step hedge) hphi
      hprev hp.reached hincoming
    rw [List.mem_append]
    rcases Func.dominates_of_available h.verified hd ht hlocal havail with e | hdom
    · rw [Func.eq_of_id_eq h.wellLinked.nodup hd hp.mem e] at ht
      exact .inl ht
    · by_cases e : d.id = b.id
      · rw [Func.eq_of_id_eq h.wellLinked.nodup hd hp.mem e] at ht
        exact .inl ht
      · exact .inr (hp.past d hd (hp.dominators d hd hr hdom) e ht)

end Passed

end LaneInfo

/-! ### One block -/

theorem Instr.eq_of_write {t : Temp} : ∀ {xs : List Instr} {x y : Instr},
    (xs.filterMap Instr.write).Nodup → x ∈ xs → y ∈ xs → x.write = some t → y.write = some t →
    x = y := by
  intro xs
  induction xs with
  | nil =>
    intro x y _ hx
    cases hx
  | cons z xs ih =>
    intro x y hnodup hx hy hwx hwy
    have hnot : ∀ {u v : Instr}, u.write = some t → ((u :: xs).filterMap Instr.write).Nodup →
        v ∈ xs → v.write = some t → False := by
      intro u v hu hnodup hv hwv
      rw [List.filterMap_cons_some hu] at hnodup
      exact (List.nodup_cons.mp hnodup).1 (List.mem_filterMap.mpr ⟨v, hv, hwv⟩)
    rcases List.mem_cons.mp hx with rfl | hx'
    · rcases List.mem_cons.mp hy with rfl | hy'
      · rfl
      · exact (hnot hwx hnodup hy' hwy).elim
    · rcases List.mem_cons.mp hy with rfl | hy'
      · exact (hnot hwy hnodup hx' hwx).elim
      · refine ih (hnodup.sublist ?_) hx' hy' hwx hwy
        exact (List.sublist_cons_self z xs).filterMap _

namespace LaneInfo

variable {f f' : Func} {n n' : TempCounter} {i : LaneInfo} {b b' c c' : Block} {r : BlockRef} {t : Temp}
  {visited : List Int} {past : List Temp} {lanes lanes' finals : Nat → Frame} {fr fr' : Frame}
  {call : Caller} {m : Machine} {tails : Label → List Spread}

/-- Shapes tell the truth of what a block computes, if the pinned ones do. -/
theorem Analyzed.backed (h : Analyzed f n i) (hp : Passed f i visited past b)
    (hpins : b.id = i.region.header.number → ∀ t ∈ i.defs, ∀ s, i.pinned.lookup t = some s →
      ∀ c : Nat → Cell, (∀ k < i.width, (finals k).lookup t = some [c k]) → s.Conforms i.width c)
    {x : Instr} (hx : x ∈ b.instrs) (hw : x.write = some t) : Widening.Backed i finals x t := by
  have hblocks := h.mem_blocksIn hp.inside hp.mem
  have htw : t ∈ b.instrs.filterMap Instr.write := List.mem_filterMap.mpr ⟨x, hx, hw⟩
  have ht : t ∈ b.writes := List.mem_append_right _ htw
  have hdef : t ∈ i.defs := h.mem_defs hp.inside hp.mem ht
  cases hpin : i.pinned.lookup t with
  | none => exact .inl (h.settled.absorbs_transfer h.defs hblocks hx hw hpin)
  | some s =>
    obtain ⟨d, hd, hd'⟩ := h.pinned t (h.defs ▸ hdef) s hpin
    obtain ⟨hdmem, hdref⟩ := Func.linked?_mem hd
    have htd : t ∈ d.writes := by
      rcases hd' with htarget | ⟨y, hy, hwy, -⟩
      · exact List.mem_append_left _ htarget
      · exact List.mem_append_right _ (List.mem_filterMap.mpr ⟨y, hy, hwy⟩)
    obtain rfl := Func.eq_of_mem_writes h.verified hdmem hp.mem htd ht
    have hnodup := List.nodup_append.mp (Func.writes_nodup h.verified hdmem)
    rcases hd' with htarget | ⟨y, hy, hwy, hflat⟩
    · exact absurd rfl (hnodup.2.2 t htarget t htw)
    · obtain rfl := Instr.eq_of_write hnodup.2.1 hx hy hw hwy
      refine .inr ⟨fun v hv => ?_, ?_⟩
      · cases v with
        | temp u =>
          change (i.shapeOf u).isVector = false
          by_cases hu : u ∈ i.defs
          · obtain ⟨s', hs', hvec⟩ :=
              hflat u (List.mem_filterMap.mpr ⟨_, hv, rfl⟩) (h.defs ▸ hu)
            rw [shapeOf_of_pinned hu hs']
            exact hvec
          · rw [shapeOf_of_outside hu]
            rfl
        | _ => rfl
      · rw [shapeOf_of_pinned hdef hpin]
        exact hpins (congrArg BlockRef.number hdref) t hdef s hpin

/-- What is emitted for a block of the way computes what the lanes compute. -/
theorem Analyzed.emits_block (h : Analyzed f n i) (hp : Passed f i visited past b)
    (hs : i.Simulates n (past ++ b.phis.map (·.target)) lanes fr)
    (hruns : ∀ k < i.width, Gives (b.instrs.foldlM (Instr.exec call) (lanes k)) m (finals k) m)
    (hpins : b.id = i.region.header.number → ∀ t ∈ i.defs, ∀ s, i.pinned.lookup t = some s →
      ∀ c : Nat → Cell, (∀ k < i.width, (finals k).lookup t = some [c k]) → s.Conforms i.width c)
    {k : TempCounter} (hk : n ≤ k) (hmax : ((i.emitted k b).temps : Int) ≤ u32Max) :
    ∃ fr', Gives ((i.emitted k b).out.foldlM (Instr.exec call) fr) m fr' m ∧
      i.Simulates n (b.writes ++ past) finals fr' := by
  have hplain := h.plain b.ref hp.inside b (h.wellLinked.linked? hp.mem)
  have hlaid : Widening.Laid i n (b.instrs.filterMap Instr.write) lanes ⟨k, [], []⟩ fr := by
    constructor <;> simp
  have hwrites : ∀ x ∈ b.instrs, ∀ t, x.write = some t →
      t ∈ i.defs ∧ t.Reserved n ∧ Widening.Backed i finals x t := by
    intro x hx t hw
    refine ⟨h.mem_defs hp.inside hp.mem ?_, h.reserved hp.mem ?_, h.backed hp hpins hx hw⟩
    · exact List.mem_append_right _ (List.mem_filterMap.mpr ⟨x, hx, hw⟩)
    · refine List.mem_flatMap.mpr ⟨x, ?_, List.mem_append_left _ (by simp [hw])⟩
      exact List.mem_append_left _ (List.mem_append_right _ hx)
  have hordered : Widening.Ordered i n (past ++ b.phis.map (·.target)) b.instrs :=
    hp.ordered h (show b.instrs = [] ++ b.instrs from rfl) (by simp)
  obtain ⟨fr', he⟩ := Widening.emits_instrs h.width h.shape_ne_unknown hs hlaid hplain hwrites hordered
    (List.nodup_append.mp (Func.writes_nodup h.verified hp.mem)).2.1 hruns hk hmax
  obtain ⟨new, hnew, hgives⟩ := he.runs
  refine ⟨fr', ?_, he.simulates.subset fun t ht => ?_⟩
  · have hout : (i.emitted k b).out = new := hnew
    rw [hout]
    exact hgives
  · rw [Block.writes, List.mem_append, List.mem_append] at ht
    rw [List.mem_append, List.mem_append]
    tauto

/-- Lanes laid out at the end of a block are stored there. -/
def Stored (i : LaneInfo) (lanes : Nat → Frame) (fr : Frame) (s : Spread) : Prop :=
  ∃ c : Nat → Cell, (∀ k < i.width, (lanes k).lookup s.source = some [c k]) ∧
    fr.lookup s.name = some ((List.range i.width).map c)

variable (call m) in
theorem run_spreads (hw : 0 < i.width) {known : List Temp} (hmax : (n' : Int) ≤ u32Max) :
    ∀ {ss : List Spread} {fr : Frame}, (ss.map Spread.name).Nodup →
    (∀ s ∈ ss, s.name.Fresh n n' ∧ i.shapeOf s.source = .strided s.stride ∧ s.source ∈ known) →
    i.Simulates n known lanes fr →
    ∃ fr', Gives ((ss.map (Spread.instr i.width)).foldlM (Instr.exec call) fr) m fr' m ∧
      i.Simulates n known lanes fr' ∧ (∀ s ∈ ss, i.Stored lanes fr' s) ∧
      ∀ t, t ∉ ss.map Spread.name → fr'.lookup t = fr.lookup t := by
  intro ss
  induction ss with
  | nil => exact fun _ _ hs => ⟨_, gives_pure.mpr ⟨rfl, rfl⟩, hs, by simp, fun _ _ => rfl⟩
  | cons s ss ih =>
    intro fr hnodup hss hs
    obtain ⟨hnot, hnodup⟩ := List.nodup_cons.mp hnodup
    obtain ⟨⟨hfresh, hshape, hknown⟩, hss⟩ := List.forall_mem_cons.mp hss
    obtain ⟨c, hc, l, hl, hrep⟩ := hs.inside s.source hknown
    obtain ⟨rfl, hconf⟩ := (LaneShape.represents_flat (by rw [hshape]; rfl)).mp hrep
    rw [hshape] at hconf
    obtain ⟨fr', hgives, hs', hstored, hsame⟩ := ih hnodup hss
      (hs.setEntry_fresh hfresh hmax ((List.range i.width).map c))
    refine ⟨fr', gives_bind.mpr ⟨_, m, Instr.gives_exec_ladder hw hl hconf, hgives⟩, hs',
      List.forall_mem_cons.mpr ⟨⟨c, hc, ?_⟩, hstored⟩, fun t ht => ?_⟩
    · rw [hsame _ hnot]
      exact lookup_setEntry_self ..
    · obtain ⟨hne, ht⟩ := not_or.mp (List.mem_cons.not.mp ht)
      rw [hsame t ht]
      exact lookup_setEntry_of_ne _ _ hne

/-- A block of the way is left by the same jump in all lanes and in their stead. -/
theorem Analyzed.leaves (h : Analyzed f n i) (hp : Passed f i visited past b)
    (hs : i.Simulates n (b.writes ++ past) finals fr) {ρ : Label → Label}
    (hjump : b'.jump = b.jump.map (·.renameLabels ρ)) {l : Label} (hl : ρ l = l)
    (hleave : b.leave (finals 0) = .ok (.jump l)) :
    (∀ k < i.width, b.leave (finals k) = .ok (.jump l)) ∧ b'.leave fr = .ok (.jump l) := by
  cases hj : b.jump with
  | none => simp [Block.leave, hj] at hleave
  | some j =>
    rw [hj] at hjump
    cases j with
    | jump l' =>
      have hleave' : ∀ fr : Frame, b.leave fr = .ok (.jump l') := fun fr => by
        simp [Block.leave, hj]
      obtain rfl : l' = l := by simpa using (hleave' (finals 0)).symm.trans hleave
      exact ⟨fun k _ => hleave' _, by simp [Block.leave, hjump, Instr.renameLabels, hl]⟩
    | branch ty cond l₁ l₂ =>
      have hleave' : ∀ fr : Frame, b.leave fr =
          (fr.readUniform cond).map fun c => .jump (if c.isTrue then l₁ else l₂) := fun fr => by
        simp [Block.leave, hj]
      have hcond : ∀ k < i.width, fr.readUniform cond = (finals k).readUniform cond := fun k hk => by
        have hv : ∀ t, cond = .temp t → i.Readable n (b.writes ++ past) t := fun t e =>
          hp.readable_jump h hj (List.mem_filterMap.mpr ⟨cond, List.mem_cons_self, by rw [e]; rfl⟩)
        rw [Frame.readUniform, Frame.readUniform, hs.read_uniform hv
          (h.uniform b (h.mem_blocksIn hp.inside hp.mem) ty cond l₁ l₂ hj) hk]
      rw [hleave'] at hleave
      obtain ⟨z, hz, hzl⟩ := map_eq_ok.mp hleave
      have hzl : (if z.isTrue then l₁ else l₂) = l := by simpa using hzl
      rw [← hcond 0 h.width] at hz
      refine ⟨fun k hk => ?_, ?_⟩
      · rw [hleave', ← hcond k hk, hz, ← hzl]
        rfl
      · simp only [Block.leave, hjump, Option.map_some, Instr.renameLabels, hz, Except.map]
        rw [← hl, ← hzl]
        split <;> rfl
    | ret v => cases v <;> simp [Block.leave, hj, map_eq_ok] at hleave
    | _ => simp [Block.leave, hj] at hleave

/-- Widened entries are found under the same labels. -/
theorem exists_widened_entry {es es' : List (Value × Label)} {l : Label}
    (h : List.Forall₂ (i.EntryWidened f tails) es es') {v : Value}
    (hv : (es.find? (·.2 == l)).map (·.1) = some v) :
    ∃ v', (es'.find? (·.2 == l)).map (·.1) = some v' ∧ i.EntryWidened f tails (v, l) (v', l) := by
  induction h with
  | nil => cases hv
  | @cons e e' es es' he _ ih =>
    by_cases hl : e.2 = l
    · subst hl
      rw [List.find?_cons_of_pos (by simp)] at hv
      rw [List.find?_cons_of_pos (by simp [he.1])]
      obtain rfl : e.1 = v := by simpa using hv
      refine ⟨e'.1, rfl, ?_⟩
      have hlabel : e' = (e'.1, e.2) := by rw [← he.1]
      rw [← hlabel]
      exact he
    · rw [List.find?_cons_of_neg (by simpa using hl)] at hv
      rw [List.find?_cons_of_neg (by simpa [he.1] using hl)]
      exact ih hv

/-- The phis of a region, those of the header apart, are not pinned. -/
theorem Analyzed.not_pinned (h : Analyzed f n i) (hc : c ∈ f.blocks) (hinside : c.ref ∈ i.region.blocks)
    (hother : c.id ≠ i.region.header.number) (ht : t ∈ c.writes) : i.pinned.lookup t = none := by
  cases hpin : i.pinned.lookup t with
  | none => rfl
  | some s =>
    obtain ⟨d, hd, hd'⟩ := h.pinned t (h.defs ▸ h.mem_defs hinside hc ht) s hpin
    obtain ⟨hdmem, hdref⟩ := Func.linked?_mem hd
    have htd : t ∈ d.writes := by
      rcases hd' with htarget | ⟨y, hy, hwy, -⟩
      · exact List.mem_append_left _ htarget
      · exact List.mem_append_right _ (List.mem_filterMap.mpr ⟨y, hy, hwy⟩)
    rw [Func.eq_of_mem_writes h.verified hc hdmem ht htd, Block.id, hdref] at hother
    exact absurd rfl hother

/-- What a phi takes in stands for what it takes in in the lanes. -/
theorem Analyzed.taken (h : Analyzed f n i) (hp : Passed f i visited past b)
    (hs : i.Simulates n (b.writes ++ past) finals fr)
    (hstored : ∀ s ∈ tails b.label, i.Stored finals fr s) (hc : c ∈ f.blocks)
    (hinside : c.ref ∈ i.region.blocks) (hother : c.id ≠ i.region.header.number) {p p' : Phi}
    (hphi : p ∈ c.phis) (hw : i.PhiWidened f tails p p') {d : Nat → Cell} {v : Value}
    (hv : p.incoming? b.label = some v) (hd : ∀ k < i.width, (finals k).read v = .ok [d k]) :
    ∃ v' l, p'.incoming? b.label = some v' ∧ fr.read v' = .ok l ∧
      (i.shapeOf p.target).Represents i.width l d := by
  have hmem := Phi.mem_of_incoming? hv
  have hreadable : ∀ t, v = .temp t → i.Readable n (b.writes ++ past) t := by
    rintro t rfl
    exact hp.readable_incoming h hc hphi hmem
  obtain ⟨l, hl, hrep⟩ := hs.represents_operand hreadable h.width hd
  have htarget : p.target ∈ c.writes := List.mem_append_left _ (List.mem_map_of_mem hphi)
  have habsorbs := h.settled.absorbs_incoming h.defs (h.mem_blocksIn hinside hc) hphi
    (h.not_pinned hc hinside hother htarget)
  by_cases hvec : (i.shapeOf p.target).isVector = true
  · rw [PhiWidened, if_pos hvec] at hw
    obtain ⟨v', hv', -, ⟨s, hsmem, hsource, hname⟩ | ⟨hsame, hnot⟩⟩ := exists_widened_entry hw.2.2 hv
    · -- the lanes of a strided value were laid out at the end of the block before
      obtain ⟨e, he, hlookup⟩ := hstored s hsmem
      refine ⟨v', _, hv', ?_, (LaneShape.represents_vector hvec).mpr (.inr rfl)⟩
      simp only at hsource hname
      subst hsource hname
      simp only [Frame.read, hlookup, Except.ok.injEq]
      refine List.map_congr_left fun k hk => ?_
      have := hd k (List.mem_range.mp hk)
      simpa [Frame.read, he k (List.mem_range.mp hk)] using this
    · simp only at hsame
      subst hsame
      refine ⟨v', l, hv', hl, hrep.of_vector ?_ hvec⟩
      cases v' with
      | temp t =>
        have hne := h.shape_ne_unknown (.temp t)
        have hnot := hnot ⟨b, hp.mem, rfl⟩ t
        change (i.shapeOf t).isVector = true ∨ i.shapeOf t = .uniform
        change i.shapeOf t ≠ .unknown at hne
        cases hshape : i.shapeOf t with
        | strided stride => exact absurd hshape (hnot stride rfl)
        | unknown => exact absurd hshape hne
        | uniform => exact .inr rfl
        | varying | partials => exact .inl rfl
      | _ => exact .inr rfl
  · rw [PhiWidened, if_neg hvec] at hw
    subst hw
    refine ⟨v, l, hv, hl, ?_⟩
    rcases habsorbs with e | habsorbs
    · rw [e] at hvec
      exact absurd rfl hvec
    · rcases LaneShape.absorbs_iff.mp (habsorbs _ hmem) with e | e | ⟨e, -⟩
      · exact absurd e (h.shape_ne_unknown v)
      · rw [e]
        exact hrep
      · rw [e] at hvec
        exact absurd rfl hvec

/-- What the phis of a block take in, in the lanes and in their stead. -/
theorem Analyzed.taken_all (h : Analyzed f n i) (hp : Passed f i visited past b)
    (hs : i.Simulates n (b.writes ++ past) finals fr)
    (hstored : ∀ s ∈ tails b.label, i.Stored finals fr s) (hc : c ∈ f.blocks)
    (hinside : c.ref ∈ i.region.blocks) (hother : c.id ≠ i.region.header.number) :
    ∀ {ps ps' : List Phi} {vs : Nat → List (Temp × Lanes)},
    List.Forall₂ (i.PhiWidened f tails) ps ps' → ps ⊆ c.phis →
    (∀ k < i.width, List.Forall₂ (fun p e => e.1 = p.target ∧
      ∃ v, p.incoming? b.label = some v ∧ (finals k).read v = .ok e.2) ps (vs k)) →
    ∃ es : List (Temp × (Nat → Cell) × Lanes), es.map (·.1) = ps.map (·.target) ∧
      (∀ k < i.width, vs k = es.map fun e => (e.1, [e.2.1 k])) ∧
      List.Forall₂ (fun p e => e.1 = p.target ∧
        ∃ v, p.incoming? b.label = some v ∧ fr.read v = .ok e.2) ps'
        (es.map fun e => (e.1, e.2.2)) ∧
      ∀ e ∈ es, (i.shapeOf e.1).Represents i.width e.2.2 e.2.1 := by
  intro ps ps' vs hps
  induction hps generalizing vs with
  | nil =>
    intro _ hvs
    exact ⟨[], rfl, fun k hk => List.forall₂_nil_left_iff.mp (hvs k hk), .nil, by simp⟩
  | @cons p p' ps ps' hphi _ ih =>
    intro hsub hvs
    obtain ⟨hmem, hsub⟩ := List.cons_subset.mp hsub
    obtain ⟨v, hv⟩ : ∃ v, p.incoming? b.label = some v := by
      obtain ⟨-, -, ⟨-, v, hv, -⟩, -⟩ := List.forall₂_cons_left_iff.mp (hvs 0 h.width)
      exact ⟨v, hv⟩
    have hreadable : ∀ t, v = .temp t → i.Readable n (b.writes ++ past) t := by
      rintro t rfl
      exact hp.readable_incoming h hc hmem (Phi.mem_of_incoming? hv)
    have hsplit : ∀ k, ∃ (d : Cell) (rest : List (Temp × Lanes)), k < i.width →
        (finals k).read v = .ok [d] ∧ vs k = (p.target, [d]) :: rest ∧
          List.Forall₂ (fun p e => e.1 = p.target ∧
            ∃ v, p.incoming? b.label = some v ∧ (finals k).read v = .ok e.2) ps rest := by
      intro k
      by_cases hk : k < i.width
      · obtain ⟨⟨t, l⟩, rest, ⟨rfl, w, hw, hread⟩, hrest, hvk⟩ :=
          List.forall₂_cons_left_iff.mp (hvs k hk)
        obtain rfl : v = w := Option.some.inj (hv.symm.trans hw)
        obtain ⟨d, rfl⟩ := hs.read_single hreadable hk hread
        exact ⟨d, rest, fun _ => ⟨hread, hvk, hrest⟩⟩
      · exact ⟨default, [], fun hk' => absurd hk' hk⟩
    choose d rest hd using hsplit
    obtain ⟨es, htargets, hlanes, hvec, hrep⟩ := ih hsub fun k hk => (hd k hk).2.2
    obtain ⟨v', l, hv', hl, hrep'⟩ :=
      h.taken hp hs hstored hc hinside hother hmem hphi hv fun k hk => (hd k hk).1
    have htarget : p'.target = p.target := by
      unfold PhiWidened at hphi
      split at hphi
      · exact hphi.1
      · rw [hphi]
    refine ⟨(p.target, d, l) :: es, by rw [List.map_cons, List.map_cons, htargets], fun k hk => ?_,
      .cons ⟨htarget.symm, v', hv', hl⟩ hvec, List.forall_mem_cons.mpr ⟨hrep', hrep⟩⟩
    rw [(hd k hk).2.1, hlanes k hk]
    rfl

/-- A block of the region, the header apart, is entered in the stead of all lanes. -/
theorem Analyzed.enters (h : Analyzed f n i) (hp : Passed f i visited past b)
    (hs : i.Simulates n (b.writes ++ past) finals fr)
    (hstored : ∀ s ∈ tails b.label, i.Stored finals fr s) (hc : c ∈ f.blocks)
    (hinside : c.ref ∈ i.region.blocks) (hother : c.id ≠ i.region.header.number)
    (hphis : List.Forall₂ (i.PhiWidened f tails) c.phis c'.phis)
    (henter : ∀ k < i.width, c.enter (finals k) (some b.label) = .ok (lanes' k)) :
    ∃ fr', c'.enter fr (some b.label) = .ok fr' ∧
      i.Simulates n ((b.writes ++ past) ++ c.phis.map (·.target)) lanes' fr' := by
  have hvs : ∀ k, ∃ vs, k < i.width → c.phiValues (finals k) b.label = .ok vs ∧
      lanes' k = vs.foldl (fun fr e => setEntry e.1 e.2 fr) (finals k) := by
    intro k
    by_cases hk : k < i.width
    · obtain ⟨vs, hvs, he⟩ := Block.enter_eq_ok.mp (henter k hk)
      exact ⟨vs, fun _ => ⟨hvs, he⟩⟩
    · exact ⟨[], fun hk' => absurd hk' hk⟩
  choose vs hvs using hvs
  obtain ⟨es, htargets, hlanes, hvec, hrep⟩ := h.taken_all hp hs hstored hc hinside hother hphis
    (List.Subset.refl _) fun k hk => Block.phiValues_eq_ok.mp (hvs k hk).1
  refine ⟨_, Block.enter_eq_ok.mpr ⟨_, Block.phiValues_eq_ok.mpr hvec, rfl⟩, ?_⟩
  rw [List.foldl_map]
  refine (hs.setEntries (fun e (he : e ∈ es) => ?_)
    (show ∀ k < i.width, lanes' k = _ from fun k hk => ?_)).subset ?_
  · have ht : e.1 ∈ c.phis.map (·.target) := htargets ▸ List.mem_map_of_mem he
    refine ⟨h.mem_defs hinside hc (List.mem_append_left _ ht), h.reserved hc ?_, hrep e he⟩
    obtain ⟨p, hp, htp⟩ := List.mem_map.mp ht
    refine List.mem_flatMap.mpr ⟨.phi p, ?_, List.mem_append_left _ (by simp [Instr.write, htp])⟩
    exact List.mem_append_left _ (List.mem_append_left _ (List.mem_map_of_mem hp))
  · rw [(hvs k hk).2, hlanes k hk, List.foldl_map]
  · rw [htargets]
    intro t ht
    rw [List.mem_append] at ht ⊢
    tauto

/-! ### Rounds -/

/-- A widened block of the way computes what the lanes compute, and lays out what phis take in from
it. -/
theorem Analyzed.through (h : Analyzed f n i) (hw : Widened i f f' n n' tails)
    (hmax : (n' : Int) ≤ u32Max) (hp : Passed f i visited past b)
    (hs : i.Simulates n (past ++ b.phis.map (·.target)) lanes fr)
    (hruns : ∀ k < i.width, Gives (b.instrs.foldlM (Instr.exec call) (lanes k)) m (finals k) m)
    (hpins : b.id = i.region.header.number → ∀ t ∈ i.defs, ∀ s, i.pinned.lookup t = some s →
      ∀ c : Nat → Cell, (∀ k < i.width, (finals k).lookup t = some [c k]) → s.Conforms i.width c)
    (hinstrs : ∃ k, n ≤ k ∧ (i.emitted k b).temps ≤ n' ∧
      b'.instrs = (i.emitted k b).out ++ (tails b.label).map (Spread.instr i.width)) :
    ∃ fr', Gives (b'.instrs.foldlM (Instr.exec call) fr) m fr' m ∧
      i.Simulates n (b.writes ++ past) finals fr' ∧ ∀ s ∈ tails b.label, i.Stored finals fr' s := by
  obtain ⟨k, hk, hk', hout⟩ := hinstrs
  obtain ⟨fr₁, h₁, hs₁⟩ := h.emits_block hp hs hruns hpins hk
    (Int.le_trans (Int.ofNat_le.mpr hk') hmax)
  have hsources : ∀ s ∈ tails b.label, s.source ∈ b.writes ++ past := by
    intro s hmem
    obtain ⟨r, hr, -, c, hc, p, hphi, hin⟩ := hw.taken _ s hmem
    refine (hp.readable_incoming h (Func.linked?_mem hc).1 hphi hin).2 ?_
    by_contra hdef
    have hstrided := hw.strided _ s hmem
    rw [shapeOf_of_outside hdef] at hstrided
    cases hstrided
  obtain ⟨fr₂, h₂, hs₂, hstored, -⟩ := run_spreads call m h.width hmax
    (hw.nodup b.label)
    (fun s hmem => ⟨hw.fresh _ s hmem, hw.strided _ s hmem, hsources s hmem⟩) hs₁
  refine ⟨fr₂, ?_, hs₂, hstored⟩
  rw [hout]
  exact gives_foldlM_append.mpr ⟨_, _, h₁, h₂⟩

/-- What is pinned is written by the header alone. -/
theorem Analyzed.not_mem_writes (h : Analyzed f n i) (ht : t ∈ i.defs) {s : LaneShape}
    (hpin : i.pinned.lookup t = some s) (hc : c ∈ f.blocks) (hother : c.id ≠ i.region.header.number) :
    t ∉ c.writes := by
  intro htc
  obtain ⟨d, hd, hr, htd, -⟩ := h.exists_block ht
  rw [← Func.eq_of_mem_writes h.verified hc hd htc htd] at hr
  rw [h.not_pinned hc hr hother htc] at hpin
  cases hpin

/-- A block that is jumped to is linked to. -/
theorem Analyzed.edge_of_leave (h : Analyzed f n i) (hp : Passed f i visited past b) {l : Label}
    (hleave : b.leave fr = .ok (.jump l)) (hnext : f.labelled? l = some c) :
    (f.flow false).edge b.id c.id := by
  obtain ⟨hc, hlabel⟩ := Func.labelled?_mem hnext
  exact (h.wellLinked.flow_edge hp.mem).mpr
    ⟨c.ref, h.wellLinked.mem_succ_of_leave hp.mem hleave hc hlabel, rfl⟩

/-- Where lanes stand at the same block, they run through it and leave it alike. -/
theorem Analyzed.firsts (h : Analyzed f n i) (hw : Widened i f f' n n' tails)
    (hmax : (n' : Int) ≤ u32Max) (hp : Passed f i visited past b)
    (hs : i.Simulates n (past ++ b.phis.map (·.target)) lanes fr) {outs : Nat → Frame}
    {paths : Nat → List BlockRef}
    (hrounds : ∀ k < i.width, f.Round call m i.region b (lanes k) (paths k) (outs k))
    (hpins : ∀ t ∈ i.defs, ∀ s, i.pinned.lookup t = some s → ∀ c : Nat → Cell,
      (∀ k < i.width, (outs k).lookup t = some [c k]) → s.Conforms i.width c)
    (hb' : f'.labelled? b.label = some b') {mid : Frame} {l : Label}
    (hrun : Gives (b.instrs.foldlM (Instr.exec call) (lanes 0)) m mid m)
    (hleave : b.leave mid = .ok (.jump l)) (hl : ∃ r ∈ i.region.blocks, r.label = l) :
    ∃ finals fr₁, finals 0 = mid ∧ b'.ref = b.ref ∧
      Gives (b'.instrs.foldlM (Instr.exec call) fr) m fr₁ m ∧ b'.leave fr₁ = .ok (.jump l) ∧
      i.Simulates n (b.writes ++ past) finals fr₁ ∧ (∀ s ∈ tails b.label, i.Stored finals fr₁ s) ∧
      ∀ k < i.width, (l = i.region.header.label ∧ paths k = [b.ref] ∧ outs k = finals k ∨
        ∃ c fr' path', l ≠ i.region.header.label ∧ f.labelled? l = some c ∧
          c.enter (finals k) (some b.label) = .ok fr' ∧
          f.Round call m i.region c fr' path' (outs k) ∧ paths k = b.ref :: path') := by
  have hfirst : ∀ k, ∃ mid l, k < i.width → Gives (b.instrs.foldlM (Instr.exec call) (lanes k)) m mid m ∧
      b.leave mid = .ok (.jump l) ∧
      (∀ t, (∀ c ∈ f.blocks, c.id ≠ i.region.header.number → t ∉ c.writes) →
        (outs k).lookup t = mid.lookup t) ∧
      (l = i.region.header.label ∧ paths k = [b.ref] ∧ outs k = mid ∨
        ∃ c fr' path', l ≠ i.region.header.label ∧ f.labelled? l = some c ∧
          c.enter mid (some b.label) = .ok fr' ∧
          f.Round call m i.region c fr' path' (outs k) ∧ paths k = b.ref :: path') := by
    intro k
    by_cases hk : k < i.width
    · obtain ⟨mid, l, hmid⟩ := (hrounds k hk).first
      exact ⟨mid, l, fun _ => hmid⟩
    · exact ⟨[], l, fun hk' => absurd hk' hk⟩
  choose finals ls hfirst using hfirst
  obtain ⟨c, hc, href, hinstrs, -, ρ, hρ, hfix⟩ :=
    hw.block b.ref hp.inside b (h.wellLinked.linked? hp.mem)
  obtain rfl : c = b' := Option.some.inj (hc.symm.trans hb')
  have hzero : finals 0 = mid := (Gives.unique (hfirst 0 h.width).1 hrun).1
  obtain ⟨fr₁, hgives, hs₁, hstored⟩ := h.through hw hmax hp hs (fun k hk => (hfirst k hk).1)
    (fun _ t ht s hpin c hc => hpins t ht s hpin c fun k hk => by
      rw [(hfirst k hk).2.2.1 t fun d hd hother => h.not_mem_writes ht hpin hd hother]
      exact hc k hk) hinstrs
  obtain ⟨r, hr, rfl⟩ := hl
  obtain ⟨hleaves, hleave'⟩ := h.leaves hp hs₁ hρ (hfix r hr) (hzero ▸ hleave)
  refine ⟨finals, fr₁, hzero, href, hgives, hleave', hs₁, hstored, fun k hk => ?_⟩
  obtain ⟨-, hleavek, -, halt⟩ := hfirst k hk
  have hlk : ls k = r.label := by simpa using hleavek.symm.trans (hleaves k hk)
  rwa [hlk] at halt

/-- Rounds of the lanes from a block of the way on all take the same way, and so does a round of the
widened region, whose frame stands for those of the lanes in the end. -/
theorem Analyzed.simulates (h : Analyzed f n i) (hw : Widened i f f' n n' tails)
    (hmax : (n' : Int) ≤ u32Max) {path : List BlockRef} {fr₀ out₀ : Frame}
    (hround : f.Round call m i.region b fr₀ path out₀) :
    ∀ {visited : List Int} {past : List Temp} {lanes outs : Nat → Frame} {paths : Nat → List BlockRef}
      {fr : Frame} {b' : Block}, Passed f i visited past b → lanes 0 = fr₀ →
    i.Simulates n (past ++ b.phis.map (·.target)) lanes fr →
    (∀ k < i.width, f.Round call m i.region b (lanes k) (paths k) (outs k)) →
    (∀ t ∈ i.defs, ∀ s, i.pinned.lookup t = some s → ∀ c : Nat → Cell,
      (∀ k < i.width, (outs k).lookup t = some [c k]) → s.Conforms i.width c) →
    f'.labelled? b.label = some b' →
    ∃ out, f'.Round call m i.region b' fr path out ∧ (∀ k < i.width, paths k = path) ∧
      ∃ past', past ⊆ past' ∧ (∀ r ∈ path, ∀ d, f.linked? r = some d → d.writes ⊆ past') ∧
        i.Simulates n past' outs out := by
  induction hround with
  | @back b fr₀ out₀ runs leaves =>
    rintro visited past lanes outs paths fr b' hp rfl hs hrounds hpins hb'
    obtain ⟨finals, fr₁, -, href, hgives, hleave, hs₁, -, hall⟩ := h.firsts hw hmax hp hs hrounds hpins
      hb' runs leaves ⟨_, h.header, rfl⟩
    have hback : ∀ k < i.width, paths k = [b.ref] ∧ outs k = finals k := fun k hk => by
      rcases hall k hk with ⟨-, hpath, hout⟩ | ⟨_, _, _, hne, -⟩
      · exact ⟨hpath, hout⟩
      · exact absurd rfl hne
    refine ⟨fr₁, href ▸ .back hgives hleave, fun k hk => (hback k hk).1, _,
      List.subset_append_right _ _, fun r hr d hd => ?_, hs₁.congr_lanes fun k hk => (hback k hk).2⟩
    obtain rfl := List.mem_singleton.mp hr
    rw [Option.some.inj (hd.symm.trans (h.wellLinked.linked? hp.mem))]
    exact List.subset_append_left _ _
  | @on b c fr₀ mid fr₁ out₀ l path runs leaves next inside other enters rest ih =>
    rintro visited past lanes outs paths fr b' hp rfl hs hrounds hpins hb'
    obtain ⟨hc, hlabel⟩ := Func.labelled?_mem next
    have hinside : c.ref ∈ i.region.blocks := by
      obtain ⟨r, hr, hnumber⟩ := List.any_eq_true.mp inside
      obtain ⟨d, hd⟩ := h.linked hr
      obtain ⟨hdmem, rfl⟩ := Func.linked?_mem hd
      rwa [← Func.eq_of_id_eq h.wellLinked.nodup hdmem hc (by simpa [Block.id] using hnumber)]
    obtain ⟨finals, fr₂, hzero, href, hgives, hleave, hs₁, hstored, hall⟩ :=
      h.firsts hw hmax hp hs hrounds hpins hb' runs leaves ⟨_, hinside, hlabel⟩
    -- all lanes enter the same block
    have hnext : ∀ k, ∃ fr' path', k < i.width → c.enter (finals k) (some b.label) = .ok fr' ∧
        f.Round call m i.region c fr' path' (outs k) ∧ paths k = b.ref :: path' := by
      intro k
      by_cases hk : k < i.width
      · rcases hall k hk with ⟨e, -⟩ | ⟨d, fr', path', -, hd, henter, hround, hpath⟩
        · rw [← hlabel] at e
          exact absurd (Label.ofBlock_injective e) other
        · obtain rfl : c = d := Option.some.inj (next.symm.trans hd)
          exact ⟨fr', path', fun _ => ⟨henter, hround, hpath⟩⟩
      · exact ⟨[], [], fun hk' => absurd hk' hk⟩
    choose lanes' paths' hnext using hnext
    obtain ⟨c', hc', hcref, -, hphis, -⟩ := hw.block c.ref hinside c (h.wellLinked.linked? hc)
    obtain ⟨fr', henter', hs'⟩ := h.enters hp hs₁ hstored hc hinside other (hphis other)
      fun k hk => (hnext k hk).1
    have hlane : lanes' 0 = fr₁ := by
      have := (hnext 0 h.width).1
      rw [hzero, enters] at this
      exact (Except.ok.inj this).symm
    obtain ⟨out, hround, hpaths, past', hsub, hwrites, hs''⟩ :=
      ih (hp.step h hc hinside (h.edge_of_leave hp leaves next)) hlane hs'
        (fun k hk => (hnext k hk).2.1) hpins hc'
    have hid : c'.id = c.id := congrArg BlockRef.number hcref
    refine ⟨out, ?_, fun k hk => ?_, past', List.Subset.trans (List.subset_append_right _ _) hsub,
      fun r hr d hd => ?_, hs''⟩
    · have hb : b'.label = b.label := congrArg BlockRef.label href
      rw [← href]
      exact .on hgives hleave (hlabel ▸ hc') (hid ▸ inside) (hid ▸ other) (hb ▸ henter') hround
    · rw [(hnext k hk).2.2, hpaths k hk]
    · rcases List.mem_cons.mp hr with rfl | hr
      · rw [Option.some.inj (hd.symm.trans (h.wellLinked.linked? hp.mem))]
        exact List.Subset.trans (List.subset_append_left _ _) hsub
      · exact hwrites r hr d hd

/-- Widening succeeds only where no branch varies. -/
theorem widen_of_lowering {l : Lowering} {p : Func × TempCounter} (h : l.widen = .ok p) :
    l.isDivergent = false ∧ l.info.widen l.func l.temps = .ok p := by
  unfold Lowering.widen at h
  cases hd : l.isDivergent with
  | true =>
    rw [hd] at h
    cases h
  | false =>
    rw [hd] at h
    exact ⟨rfl, h⟩

/-- Adds up multiples of three, two of them in a round. -/
def sumTriples : Func :=
  let i : Temp := .ofLocal "i" .i32
  let s : Temp := .ofLocal "s" .i32
  let cond : Temp := .ofLocal "cond" .i32
  let triple : Temp := .ofLocal "triple" .i32
  let sum : Temp := .ofLocal "sum" .i32
  let next : Temp := .ofLocal "next" .i32
  let bound : Temp := .ofLocal "bound" .i32
  { total := 3
    name := "sum_triples"
    retTy := .i32
    params := [bound]
    blocks := [
      { Block.ofId 0 with succ := [.last 1], jump := some (.jump (.ofBlock 1)) },
      { Block.ofId 1 with
        prev := [.last 0, .last 2]
        succ := [.last 2, .last 3]
        phis := [.ofTarget i [(.int 0, .ofBlock 0), (.temp next, .ofBlock 2)],
          .ofTarget s [(.int 0, .ofBlock 0), (.temp sum, .ofBlock 2)]]
        instrs := [.comp cond .icmp .slt .i32 (.temp i) (.temp bound)]
        jump := some (.branch .i32 (.temp cond) (.ofBlock 2) (.ofBlock 3)) },
      { Block.ofId 2 with
        prev := [.last 1]
        succ := [.last 1]
        instrs := [.arith triple .mul .i32 (.temp i) (.int 3),
          .arith sum .add .i32 (.temp s) (.temp triple),
          .arith next .add .i32 (.temp i) (.int 2)]
        jump := some (.jump (.ofBlock 1)) },
      { Block.ofId 3 with prev := [.last 1], jump := some (.ret (some (.temp s))) }] }

/-- Its loop, with the shapes of the header pinned. -/
def triples : LaneInfo :=
  let l := (sumTriples.forest.withHeader? 1).getD default
  (((ofRegion sumTriples 2 (.ofLoop sumTriples sumTriples.forest l)).pin (.ofLocal "i" .i32)
    (.strided 1)).pin (.ofLocal "s" .i32) (.partials .add)).pin (.ofLocal "cond" .i32) .uniform

theorem handed_triples : Handed sumTriples 0 triples := by
  have hverify : sumTriples.verify = .ok () := by
    have h : sumTriples.verify.toOption = some () := by decide +kernel
    revert h
    cases sumTriples.verify <;> simp [Except.toOption]
  refine ⟨hverify, ⟨by decide +kernel, by decide +kernel⟩, by decide, ?_, ?_, ?_, ?_, ?_, ?_⟩
  · exact ⟨(sumTriples.forest.withHeader? 1).getD default, by decide +kernel, by decide +kernel, rfl⟩
  · have hdom : ∀ r ∈ triples.region.blocks, (DomTree.ofFunc sumTriples false).dominates
        triples.region.header.number r.number = true := by decide +kernel
    exact fun r hr _ =>
      (DomTree.dominates_iff (Func.wellLinked_of_verify hverify).toLinked).mp (hdom r hr)
  · have hplain : ∀ b ∈ sumTriples.blocks, ∀ x ∈ b.instrs, x.isPlain = true := by decide
    exact fun r _ b hb => hplain b (Func.linked?_mem hb).1
  · have hphis : ∀ b ∈ sumTriples.blocks, ∀ p ∈ b.phis,
        (triples.pinned.lookup p.target).isSome = true := by decide +kernel
    exact fun b hb p hp => Option.isSome_iff_exists.mp (hphis b (Func.linked?_mem hb).1 p hp)
  · intro t h
    have hmem : (t, LaneShape.unknown) ∈ triples.pinned := mem_of_lookup h
    simp [triples, pin, ofRegion] at hmem
  · intro t _ s hs
    have hmem : (t, s) ∈ triples.pinned := mem_of_lookup hs
    refine ⟨sumTriples.blocks[1], by decide +kernel, ?_⟩
    simp only [triples, pin, ofRegion, List.mem_cons, Prod.mk.injEq, List.not_mem_nil,
      or_false] at hmem
    rcases hmem with ⟨rfl, rfl⟩ | ⟨rfl, rfl⟩ | ⟨rfl, rfl⟩
    · have hflat : ∀ u ∈ [Temp.ofLocal "i" .i32, .ofLocal "bound" .i32],
          u ∈ writesOf (triples.region.blocksIn sumTriples) →
            (triples.pinned.lookup u).isSome = true ∧
              (triples.pinned.lookup u).map LaneShape.isVector ≠ some true := by decide +kernel
      refine .inr ⟨_, List.mem_cons_self, rfl, fun u hu hdef => ?_⟩
      obtain ⟨hsome, hvec⟩ := hflat u hu hdef
      obtain ⟨s, hs⟩ := Option.isSome_iff_exists.mp hsome
      exact ⟨s, hs, by simpa [hs] using hvec⟩
    · exact .inl (by decide)
    · exact .inl (by decide)

/-- The frames of two lanes in the header. -/
def tripleLane (k : Nat) : Frame :=
  [(.ofLocal "bound" .i32, [.int 10]), (.ofLocal "i" .i32, [.int (.ofNat k)]),
    (.ofLocal "s" .i32, [.int 0])]

/-- The frames of the lanes after a round. -/
def tripleOut (k : Nat) : Frame :=
  tripleLane k ++ [(.ofLocal "cond" .i32, [.int 1]), (.ofLocal "triple" .i32, [.int (.ofNat (3 * k))]),
    (.ofLocal "sum" .i32, [.int (.ofNat (3 * k))]), (.ofLocal "next" .i32, [.int (.ofNat (k + 2))])]

end LaneInfo

end LoopLanes
