/-
Blocks that are cut off from the rest of a function.

A set of blocks is cut off when no jump leads into it or out of it and the function is not entered there.
Blocks that are not reached are such a set, as long as none of them leads to one that is reached, and
no loop has a block of it.

* `CutOff` — what is asked of the code, `Insulated` — with links that agree with it;
* `insulated_of_verify` — the blocks of a verified function that are not reached;
* `Insulated.not_walkedTo`, `Insulated.not_contains` — such blocks stay unreached and out of loops;
* `CutOff.mapBlocks`, `CutOff.insertIdx`, `Insulated.of_sameOutline`, `CutOff.resolveLinks` — edits that keep
  a set cut off.
-/
import Mathlib.Data.List.InsertIdx
import LoopLanes.Proofs.Cfg.Jumps
import LoopLanes.Proofs.Loop.Nesting

namespace LoopLanes

/-- A block without its content. -/
def Block.outline (b : Block) : BlockRef × List BlockRef × List BlockRef × List Label :=
  (b.ref, b.prev, b.succ, b.targets)

namespace Func

variable {f g h : Func} {D : Int → Prop} {b c : Block} {u v w : Int} {r : BlockRef}

/-! ### Outlines -/

/-- Blocks differ in their content alone. -/
structure SameOutline (f g : Func) : Prop where
  total : g.total = f.total
  params : g.params = f.params
  blocks : g.blocks.map Block.outline = f.blocks.map Block.outline

namespace SameOutline

theorem refl (f : Func) : f.SameOutline f := ⟨rfl, rfl, rfl⟩

theorem symm (hfg : f.SameOutline g) : g.SameOutline f :=
  ⟨hfg.total.symm, hfg.params.symm, hfg.blocks.symm⟩

theorem trans (hfg : f.SameOutline g) (hgh : g.SameOutline h) : f.SameOutline h :=
  ⟨hgh.total.trans hfg.total, hgh.params.trans hfg.params, hgh.blocks.trans hfg.blocks⟩

theorem modify (f : Func) (r : BlockRef) {φ : Block → Block} (hφ : ∀ b, (φ b).outline = b.outline) :
    f.SameOutline (f.modify r φ) := by
  refine ⟨rfl, rfl, ?_⟩
  rw [Func.modify, List.map_map]
  refine List.map_congr_left fun b _ => ?_
  dsimp only [Function.comp]
  split
  · exact hφ b
  · rfl

/-- Edits one after the other. -/
theorem foldl {α : Type} {step : Func → α → Func} (hstep : ∀ (f : Func) (a : α), f.SameOutline (step f a)) :
    ∀ (as : List α) (f : Func), f.SameOutline (as.foldl step f) := by
  intro as
  induction as with
  | nil => exact refl
  | cons a as ih => exact fun f => (hstep f a).trans (ih _)

theorem exists_block (hfg : f.SameOutline g) (hc : c ∈ g.blocks) : ∃ b ∈ f.blocks, b.ref = c.ref ∧
    b.prev = c.prev ∧ b.succ = c.succ ∧ b.targets = c.targets := by
  have hmem : c.outline ∈ f.blocks.map Block.outline := hfg.blocks ▸ List.mem_map_of_mem hc
  obtain ⟨b, hb, e⟩ := List.mem_map.mp hmem
  obtain ⟨href, e⟩ := Prod.mk.inj e
  obtain ⟨hprev, e⟩ := Prod.mk.inj e
  obtain ⟨hsucc, htargets⟩ := Prod.mk.inj e
  exact ⟨b, hb, href, hprev, hsucc, htargets⟩

theorem map_ref (hfg : f.SameOutline g) : g.blocks.map Block.ref = f.blocks.map Block.ref := by
  have := congrArg (List.map Prod.fst) hfg.blocks
  rwa [List.map_map, List.map_map] at this

theorem map_id (hfg : f.SameOutline g) : g.blocks.map Block.id = f.blocks.map Block.id := by
  have := congrArg (List.map BlockRef.number) hfg.map_ref
  rwa [List.map_map, List.map_map] at this

theorem linkedByJumps (hfg : f.SameOutline g) (hf : f.LinkedByJumps) : g.LinkedByJumps := by
  refine ⟨fun c hc => ?_, fun b hb c hc => ?_, fun c hc r hr => ?_⟩
  · obtain ⟨b, hb, -, -, hsucc, htargets⟩ := hfg.exists_block hc
    rw [← hsucc, ← htargets]
    exact hf.succ b hb
  · obtain ⟨b', hb', href, -, hsucc, -⟩ := hfg.exists_block hb
    obtain ⟨c', hc', href', hprev, -⟩ := hfg.exists_block hc
    rw [← href, ← hsucc, ← href', ← hprev]
    exact hf.mutual_links b' hb' c' hc'
  · obtain ⟨b, hb, -, hprev, hsucc, -⟩ := hfg.exists_block hc
    obtain ⟨d, hd, rfl⟩ := hf.inside b hb r (by rwa [hprev, hsucc])
    obtain ⟨e, he, href, -⟩ := hfg.symm.exists_block hd
    exact ⟨e, he, href⟩

/-- The same jumps draw the same graph. -/
theorem jumpFlow_eq (hfg : f.SameOutline g) : g.jumpFlow = f.jumpFlow := by
  have edge : ∀ {f g : Func}, f.SameOutline g → ∀ u w, g.jumpFlow.edge u w → f.jumpFlow.edge u w := by
    rintro f g h u w ⟨c, hc, rfl, hl⟩
    obtain ⟨b, hb, href, -, -, htargets⟩ := h.exists_block hc
    exact ⟨b, hb, congrArg BlockRef.number href, htargets ▸ hl⟩
  have hedge : g.jumpFlow.edge = f.jumpFlow.edge := by
    funext u w
    exact propext ⟨edge hfg u w, edge hfg.symm u w⟩
  have hroot : g.jumpFlow.root = f.jumpFlow.root := by
    funext v
    rw [eq_iff_iff, jumpFlow_root_iff, jumpFlow_root_iff, hfg.map_id]
  exact congrArg₂ Flow.mk hedge hroot

end SameOutline

/-! ### Sets of blocks -/

/-- No jump leads from a set of blocks to others or back, and the function is not entered there.  The
numbers that new blocks get are not in the set. -/
structure CutOff (f : Func) (D : Int → Prop) : Prop where
  distinct : (f.blocks.map Block.id).Nodup
  total : ∀ b ∈ f.blocks, b.id ≤ f.total
  low : ∀ v, D v → v ≤ f.total
  entry : ∀ i ∈ (f.blocks.map Block.id).head?, ¬ D i
  jump : ∀ b ∈ f.blocks, ∀ w, Label.ofBlock w ∈ b.targets → (D b.id ↔ D w)

/-- A set of blocks that is cut off, where links are those of the terminators. -/
structure Insulated (f : Func) (D : Int → Prop) : Prop extends CutOff f D where
  links : f.LinkedByJumps

theorem LinkedByJumps.linked (hl : f.LinkedByJumps) (hnodup : (f.blocks.map Block.id).Nodup) : f.Linked where
  nodup := hnodup
  succ b hb r hr := by
    obtain ⟨c, hc, rfl⟩ := hl.inside b hb r (List.mem_append_right _ hr)
    exact ⟨c, hc, rfl, (hl.mutual_links b hb c hc).mp hr⟩
  prev b hb r hr := by
    obtain ⟨c, hc, rfl⟩ := hl.inside b hb r (List.mem_append_left _ hr)
    exact ⟨c, hc, rfl, (hl.mutual_links c hc b hb).mpr hr⟩

namespace CutOff

theorem not_fresh (hf : f.CutOff D) (hv : f.total < v) : ¬ D v := fun hd =>
  Int.not_lt.mpr (hf.low v hd) hv

/-- Blocks may be changed as long as they keep their numbers and no jump is added that leads into the
set or out of it. -/
theorem mapBlocks {φ : Block → Block} (hf : f.CutOff D) (hid : ∀ b ∈ f.blocks, (φ b).id = b.id)
    (hjump : ∀ b ∈ f.blocks, ∀ w, Label.ofBlock w ∈ (φ b).targets →
      Label.ofBlock w ∈ b.targets ∨ (D b.id ↔ D w)) : (f.mapBlocks φ).CutOff D := by
  have hids : (f.mapBlocks φ).blocks.map Block.id = f.blocks.map Block.id := by
    rw [Func.mapBlocks, List.map_map]
    exact List.map_congr_left hid
  refine ⟨hids ▸ hf.distinct, List.forall_mem_map.mpr fun b hb => ?_, hf.low, hids ▸ hf.entry,
    List.forall_mem_map.mpr fun b hb w hw => ?_⟩
  · rw [hid b hb]
    exact hf.total b hb
  · rw [hid b hb]
    exact (hjump b hb w hw).elim (hf.jump b hb w) id

/-- Content does not matter. -/
theorem of_sameOutline (hf : f.CutOff D) (hfg : f.SameOutline g) : g.CutOff D := by
  refine { distinct := hfg.map_id ▸ hf.distinct, total := fun c hc => ?_, low := hfg.total ▸ hf.low,
           entry := hfg.map_id ▸ hf.entry, jump := fun c hc w hw => ?_ }
  · obtain ⟨b, hb, href, -⟩ := hfg.exists_block hc
    rw [hfg.total, ← show b.id = c.id from congrArg BlockRef.number href]
    exact hf.total b hb
  · obtain ⟨b, hb, href, -, -, htargets⟩ := hfg.exists_block hc
    rw [← htargets] at hw
    rw [← show b.id = c.id from congrArg BlockRef.number href]
    exact hf.jump b hb w hw

/-- A number is taken for a new block. -/
theorem newBlockId (hf : f.CutOff D) : f.newBlockId.2.CutOff D :=
  ⟨hf.distinct, fun b hb => Int.le_trans (hf.total b hb) (Int.le_add_one (Int.le_refl _)),
    fun v hv => Int.le_trans (hf.low v hv) (Int.le_add_one (Int.le_refl _)), hf.entry, hf.jump⟩

/-- A block beside the set is put in, which does not jump into it. -/
theorem insertIdx (hf : f.CutOff D) (place : Nat) (hnew : b.id ∉ f.blocks.map Block.id) (hle : b.id ≤ f.total)
    (hb : ¬ D b.id) (hjump : ∀ w, Label.ofBlock w ∈ b.targets → ¬ D w) :
    CutOff { f with blocks := f.blocks.insertIdx place b } D := by
  refine ⟨?_, fun c hc => ?_, hf.low, fun v hv => ?_, fun c hc w hw => ?_⟩
  · rw [List.map_insertIdx]
    by_cases hplace : place ≤ (f.blocks.map Block.id).length
    · exact (List.perm_insertIdx _ _ hplace).nodup_iff.mpr (List.nodup_cons.mpr ⟨hnew, hf.distinct⟩)
    · rw [List.insertIdx_of_length_lt (Nat.lt_of_not_le hplace)]
      exact hf.distinct
  · rcases List.eq_or_mem_of_mem_insertIdx hc with rfl | hc
    · exact hle
    · exact hf.total c hc
  · rw [List.map_insertIdx] at hv
    -- either the new block or the first one of before comes first
    cases place with
    | zero =>
      obtain rfl : b.id = v := by simpa using hv
      exact hb
    | succ place =>
      cases hids : f.blocks.map Block.id with
      | nil => simp [hids] at hv
      | cons u us =>
        rw [hids, List.insertIdx_succ_cons] at hv
        exact hf.entry v (by simpa [hids] using hv)
  · rcases List.eq_or_mem_of_mem_insertIdx hc with rfl | hc
    · exact iff_of_false hb (hjump w hw)
    · exact hf.jump c hc w hw

/-- Rebuilt links agree with the terminators. -/
theorem resolveLinks (hf : f.CutOff D) (hnone : f.resolveLinks.2 = none) : f.resolveLinks.1.Insulated D := by
  have hcode := sameCode_resolveLinks f
  have hids : f.resolveLinks.1.blocks.map Block.id = f.blocks.map Block.id := (hcode.map_eq fun _ => rfl).symm
  have htotal : f.resolveLinks.1.total = f.total := by
    obtain ⟨bs, e⟩ := exists_resolveLinks f
    rw [e]
  refine { distinct := hids ▸ hf.distinct, total := fun c hc => ?_, low := htotal ▸ hf.low,
           entry := hids ▸ hf.entry, jump := fun c hc w hw => ?_,
           links := linkedByJumps_resolveLinks hf.distinct hnone }
  · obtain ⟨b, hb, href, -⟩ := hcode.exists_block hc
    rw [htotal, ← show b.id = c.id from congrArg BlockRef.number href]
    exact hf.total b hb
  · obtain ⟨b, hb, href, -, -, hjump⟩ := hcode.exists_block hc
    rw [Block.targets, ← hjump] at hw
    rw [← show b.id = c.id from congrArg BlockRef.number href]
    exact hf.jump b hb w hw

end CutOff

namespace Insulated

theorem linked (hf : f.Insulated D) : f.Linked := hf.links.linked hf.distinct

theorem of_sameOutline (hf : f.Insulated D) (hfg : f.SameOutline g) : g.Insulated D :=
  ⟨hf.toCutOff.of_sameOutline hfg, hfg.linkedByJumps hf.links⟩

theorem iff_of_edge (hf : f.Insulated D) (e : (f.flow false).edge u w) : D u ↔ D w := by
  rw [hf.links.flow_eq] at e
  obtain ⟨b, hb, rfl, hw⟩ := e
  exact hf.jump b hb w hw

theorem not_of_reaches (hf : f.Insulated D) (hv : (f.flow false).Reaches v) : ¬ D v := by
  refine hv.induct (P := fun v => ¬ D v) (fun r hr => ?_) fun u w _ hu e hw => hu ((hf.iff_of_edge e).mpr hw)
  obtain ⟨b, hb, rfl⟩ := hr
  refine hf.entry b.id ?_
  rw [List.head?_map, Option.mem_map]
  refine ⟨b, ?_, rfl⟩
  cases hbs : f.blocks <;> simp_all [roots]

/-- What is cut off is not reached. -/
theorem not_walkedTo (hf : f.Insulated D) (hv : D v) : ¬ f.WalkedTo v := fun h =>
  hf.not_of_reaches ((reaches_iff_walkedTo hf.linked).mpr h) hv

/-- What is cut off belongs to no loop. -/
theorem not_contains (hf : f.Insulated D) {l : Loop} (hroot : l.isRoot = false)
    (h : f.forest.contains l v = true) : ¬ D v := by
  refine LoopForest.of_contains (P := fun v => ¬ D v) ⟨fun h p hp hdom => ?_, fun r hr p hp hd => ?_⟩ hroot h
  · have hdom := (DomTree.dominates_iff hf.linked).mp hdom
    exact ⟨hf.not_of_reaches hdom.reaches_left, hf.not_of_reaches hdom.reaches⟩
  · unfold LoopSearch.prevs at hp
    cases hb : f.linked? r with
    | none => simp [hb] at hp
    | some b =>
      obtain ⟨hmem, rfl⟩ := linked?_mem hb
      exact hr ((hf.iff_of_edge ((LoopSearch.mem_prevs_iff hf.linked hmem).mp
        ⟨p, by simpa [LoopSearch.prevs, hb] using hp, rfl⟩)).mp hd)

end Insulated

/-- The number of a block that is not reached. -/
def IsDead (f : Func) (v : Int) : Prop := ∃ b ∈ f.blocks, b.id = v ∧ ¬ f.WalkedTo v

/-- The blocks of a verified function that are not reached are cut off, if none of them leads to one that
is. -/
theorem insulated_of_verify (hv : f.verify = .ok ()) (henclosed : f.Enclosed)
    (htotal : ∀ b ∈ f.blocks, b.id ≤ f.total) : f.Insulated f.IsDead := by
  have hf := wellLinked_of_verify hv
  have hlinks := linkedByJumps_of_wellLinked hf
  refine { distinct := hf.nodup, total := htotal, low := ?_, entry := ?_, jump := ?_, links := hlinks }
  · rintro _ ⟨b, hb, rfl, -⟩
    exact htotal b hb
  · rintro i hi ⟨b, hb, rfl, hno⟩
    refine hno ⟨[b.id], ?_⟩
    have hentry : f.entry = b := by
      cases hbs : f.blocks with
      | nil => rw [hbs] at hb; cases hb
      | cons e es =>
        rw [hbs, List.map_cons, List.head?_cons, Option.mem_some_iff] at hi
        exact eq_of_id_eq hf.nodup (by simp [entry, hbs]) hb (by simpa [entry, hbs] using hi)
    rw [hentry]
    exact .stay hb
  · intro b hb w hw
    obtain ⟨c, hc, hcw⟩ := hf.exists_target hb hw
    obtain rfl : c.id = w := Label.ofBlock_injective hcw
    have e : f.Follows b.id c.id := by
      have : (f.flow false).edge b.id c.id := hlinks.flow_eq ▸ ⟨b, hb, rfl, hw⟩
      exact this
    constructor
    · rintro ⟨-, -, -, hno⟩
      exact ⟨c, hc, rfl, fun h => hno (henclosed _ _ e h)⟩
    · rintro ⟨-, -, -, hno⟩
      refine ⟨b, hb, rfl, ?_⟩
      rintro ⟨vs, h⟩
      exact hno ⟨_, h.snoc e ⟨c, hc, rfl⟩⟩

end Func

end LoopLanes
