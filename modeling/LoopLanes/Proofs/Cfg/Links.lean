/-
What verification says of the links and definitions of a function.

* `wellLinked_of_verify` — block numbers are distinct, and every link has its
  counterpart at the other end;
* `linked?_eq_some`, `block?_eq_some` — in such a function a link or a number leads to the
  only block it can mean;
* `definitions_nodup` — no temporary is defined twice.
-/
import Mathlib.Data.List.Nodup
import Mathlib.Data.List.Pairwise
import Mathlib.Tactic.ByContra
import LoopLanes.Cfg.Verify
import LoopLanes.Loop.Forest
import LoopLanes.Proofs.Basic.Success

namespace LoopLanes

/-! ### Checks that pass -/

theorem Flaw.unless_eq_ok {e : Flaw} {c : Bool} : Flaw.unless e c = .ok () ↔ c = true := by
  cases c <;> simp [Flaw.unless]

namespace Func

theorem sameMembers_iff {α : Type} [BEq α] [LawfulBEq α] {as bs : List α} :
    sameMembers as bs = true ↔ ∀ a, a ∈ as ↔ a ∈ bs := by
  simp only [sameMembers, Bool.and_eq_true, List.all_eq_true, List.contains_iff_mem]
  exact ⟨fun h a => ⟨h.1 a, h.2 a⟩, fun h => ⟨fun a => (h a).1, fun a => (h a).2⟩⟩

theorem allDistinct_iff {α : Type} [BEq α] [LawfulBEq α] {as : List α} :
    allDistinct as = true ↔ as.Nodup := by
  induction as with
  | nil => simp [allDistinct]
  | cons a as ih => simp [allDistinct, ih]

/-- What the check of a single block says. -/
structure CheckedBlock (f : Func) (b : Block) : Prop where
  jump : ∃ j, b.jump = some j ∧ b.succ.map (·.label) = j.targets
  succ : ∀ r ∈ b.succ, (f.linked? r).any (·.prev.any (·.number == b.id)) = true
  prev : ∀ r ∈ b.prev, (f.linked? r).any (·.succ.any (·.number == b.id)) = true
  phis : ∀ p ∈ b.phis, phiMatches b p = true

theorem checkBlock_eq_ok {f : Func} {before : List Int} {b : Block} :
    checkBlock f before b = .ok () ↔ b.id ∉ before ∧ CheckedBlock f b := by
  unfold checkBlock
  cases hj : b.jump with
  | none =>
    constructor
    · intro h
      obtain ⟨⟨⟩, -, h⟩ := bind_eq_ok.mp h
      exact absurd h throw_ne_ok
    · rintro ⟨-, hchecked⟩
      obtain ⟨j, hsome, -⟩ := hchecked.jump
      rw [hj] at hsome
      cases hsome
  | some j =>
    constructor
    · intro h
      obtain ⟨⟨⟩, hnew, h⟩ := bind_eq_ok.mp h
      obtain ⟨⟨⟩, hlinks, h⟩ := bind_eq_ok.mp h
      obtain ⟨⟨⟩, hsucc, h⟩ := bind_eq_ok.mp h
      obtain ⟨⟨⟩, hprev, hphis⟩ := bind_eq_ok.mp h
      refine ⟨by simpa [Flaw.unless_eq_ok] using hnew, ⟨j, hj, ?_⟩, ?_, ?_, ?_⟩
      · simpa [Flaw.unless_eq_ok] using hlinks
      · exact fun r hr => Flaw.unless_eq_ok.mp (forM_eq_ok.mp hsucc r hr)
      · exact fun r hr => Flaw.unless_eq_ok.mp (forM_eq_ok.mp hprev r hr)
      · exact fun p hp => Flaw.unless_eq_ok.mp (forM_eq_ok.mp hphis p hp)
    · rintro ⟨hnew, hchecked⟩
      obtain ⟨j', hsome, hlinks⟩ := hchecked.jump
      obtain rfl : j = j' := Option.some.inj (hj.symm.trans hsome)
      refine bind_eq_ok.mpr ⟨(), Flaw.unless_eq_ok.mpr (by simpa using hnew), ?_⟩
      refine bind_eq_ok.mpr ⟨(), Flaw.unless_eq_ok.mpr (by simpa using hlinks), ?_⟩
      refine bind_eq_ok.mpr ⟨(), forM_eq_ok.mpr fun r hr => ?_, ?_⟩
      · exact Flaw.unless_eq_ok.mpr (hchecked.succ r hr)
      refine bind_eq_ok.mpr ⟨(), forM_eq_ok.mpr fun r hr => ?_, forM_eq_ok.mpr fun p hp => ?_⟩
      · exact Flaw.unless_eq_ok.mpr (hchecked.prev r hr)
      · exact Flaw.unless_eq_ok.mpr (hchecked.phis p hp)

theorem checkBlocks_eq_ok {f : Func} : ∀ {bs : List Block} {before : List Int},
    checkBlocks f before bs = .ok () ↔
      (bs.map Block.id).Nodup ∧ (∀ b ∈ bs, b.id ∉ before) ∧ ∀ b ∈ bs, CheckedBlock f b := by
  intro bs
  induction bs with
  | nil => simp [checkBlocks]
  | cons b bs ih =>
    intro before
    rw [checkBlocks, bind_eq_ok, List.map_cons, List.nodup_cons]
    constructor
    · rintro ⟨⟨⟩, hb, h⟩
      obtain ⟨hnew, hchecked⟩ := checkBlock_eq_ok.mp hb
      obtain ⟨hnodup, hbefore, hrest⟩ := ih.mp h
      refine ⟨⟨fun hmem => ?_, hnodup⟩, ?_, List.forall_mem_cons.mpr ⟨hchecked, hrest⟩⟩
      · obtain ⟨c, hc, he⟩ := List.mem_map.mp hmem
        exact hbefore c hc (by simp [he])
      · rintro c (_ | ⟨_, hc⟩)
        · exact hnew
        · exact fun h => hbefore c hc (List.mem_cons_of_mem _ h)
    · rintro ⟨⟨hself, hnodup⟩, hbefore, hchecked⟩
      obtain ⟨hnew, hbefore⟩ := List.forall_mem_cons.mp hbefore
      obtain ⟨hb, hchecked⟩ := List.forall_mem_cons.mp hchecked
      refine ⟨(), checkBlock_eq_ok.mpr ⟨hnew, hb⟩, ih.mpr ⟨hnodup, fun c hc hmem => ?_, hchecked⟩⟩
      rcases List.mem_cons.mp hmem with e | hmem
      · exact hself (e ▸ List.mem_map_of_mem hc)
      · exact hbefore c hc hmem

theorem checkDefinitions_eq_ok : ∀ {ds : List (Temp × DefSite)} {seen : List Temp},
    checkDefinitions seen ds = .ok () ↔
      (ds.map (·.1)).Nodup ∧ ∀ d ∈ ds, d.1 ∉ seen := by
  intro ds
  induction ds with
  | nil => simp [checkDefinitions]
  | cons d ds ih =>
    intro seen
    obtain ⟨t, site⟩ := d
    rw [checkDefinitions, ite_error_eq_ok, ih, List.map_cons, List.nodup_cons,
      List.contains_iff_mem]
    constructor
    · rintro ⟨hseen, hnodup, hrest⟩
      refine ⟨⟨fun hmem => ?_, hnodup⟩, List.forall_mem_cons.mpr ⟨hseen, fun c hc h => ?_⟩⟩
      · obtain ⟨c, hc, he⟩ := List.mem_map.mp hmem
        exact hrest c hc (by simp [he])
      · exact hrest c hc (List.mem_cons_of_mem _ h)
    · rintro ⟨⟨hself, hnodup⟩, hseen⟩
      obtain ⟨hnew, hrest⟩ := List.forall_mem_cons.mp hseen
      refine ⟨hnew, hnodup, fun c hc hmem => ?_⟩
      rcases List.mem_cons.mp hmem with e | hmem
      · exact hself (List.mem_map.mpr ⟨c, hc, e⟩)
      · exact hrest c hc hmem

/-! ### Well-linked functions -/

/-- Numbers tell blocks apart, and what a block links to links back. -/
structure Linked (f : Func) : Prop where
  nodup : (f.blocks.map Block.id).Nodup
  succ : ∀ b ∈ f.blocks, ∀ r ∈ b.succ, ∃ c ∈ f.blocks, c.ref = r ∧ b.ref ∈ c.prev
  prev : ∀ b ∈ f.blocks, ∀ r ∈ b.prev, ∃ c ∈ f.blocks, c.ref = r ∧ b.ref ∈ c.succ

/-- Links that match the terminators as well, and phis that match the links. -/
structure WellLinked (f : Func) : Prop extends Linked f where
  jump : ∀ b ∈ f.blocks, ∃ j, b.jump = some j ∧ b.succ.map (·.label) = j.targets
  phis : ∀ b ∈ f.blocks, ∀ p ∈ b.phis, phiMatches b p = true

variable {f : Func} {b c : Block} {r : BlockRef} {id : Int}

/-- In a list of blocks with distinct numbers, the number determines the block. -/
theorem eq_of_id_eq (h : (f.blocks.map Block.id).Nodup) (hb : b ∈ f.blocks)
    (hc : c ∈ f.blocks) (e : b.id = c.id) : b = c :=
  List.inj_on_of_nodup_map h hb hc e

theorem linked?_mem (h : f.linked? r = some b) : b ∈ f.blocks ∧ b.ref = r :=
  ⟨List.mem_of_find?_eq_some h, by simpa using List.find?_some h⟩

theorem block?_mem (h : f.block? id = some b) : b ∈ f.blocks ∧ b.id = id :=
  ⟨List.mem_of_find?_eq_some h, by simpa using List.find?_some h⟩

theorem labelled?_mem {l : Label} (h : f.labelled? l = some b) : b ∈ f.blocks ∧ b.label = l :=
  ⟨List.mem_of_find?_eq_some h, by simpa using List.find?_some h⟩

theorem linked?_of_mem (hnodup : (f.blocks.map Block.id).Nodup) (hb : b ∈ f.blocks) : f.linked? b.ref = some b := by
  cases hc : f.linked? b.ref with
  | none =>
    have := List.find?_eq_none.mp hc b hb
    simp at this
  | some c =>
    obtain ⟨hm, he⟩ := linked?_mem hc
    rw [eq_of_id_eq hnodup hm hb (congrArg BlockRef.number he)]

namespace Linked

theorem linked? (h : f.Linked) (hb : b ∈ f.blocks) : f.linked? b.ref = some b :=
  linked?_of_mem h.nodup hb

theorem block? (h : f.Linked) (hb : b ∈ f.blocks) : f.block? b.id = some b := by
  cases hc : f.block? b.id with
  | none =>
    have := List.find?_eq_none.mp hc b hb
    simp at this
  | some c =>
    obtain ⟨hm, he⟩ := block?_mem hc
    rw [eq_of_id_eq h.nodup hm hb he]

/-- The link to a block of a number is known from the number. -/
theorem ref_eq (h : f.Linked) (hb : b ∈ f.blocks) (hc : c ∈ f.blocks)
    (e : b.ref.number = c.ref.number) : b.ref = c.ref := by
  rw [eq_of_id_eq h.nodup hb hc e]

/-- Links agree at both ends. -/
theorem mem_prev_iff (h : f.Linked) (hb : b ∈ f.blocks) (hc : c ∈ f.blocks) :
    b.ref ∈ c.prev ↔ c.ref ∈ b.succ := by
  constructor
  · intro hprev
    obtain ⟨d, hd, e, hsucc⟩ := h.prev c hc b.ref hprev
    rwa [eq_of_id_eq h.nodup hd hb (congrArg BlockRef.number e)] at hsucc
  · intro hsucc
    obtain ⟨d, hd, e, hprev⟩ := h.succ b hb c.ref hsucc
    rwa [eq_of_id_eq h.nodup hd hc (congrArg BlockRef.number e)] at hprev

end Linked

/-- A jump leads to a block. -/
theorem WellLinked.exists_target (h : f.WellLinked) (hb : b ∈ f.blocks) {l : Label} (hl : l ∈ b.targets) :
    ∃ c ∈ f.blocks, c.label = l := by
  obtain ⟨j, hj, htargets⟩ := h.jump b hb
  rw [Block.targets, hj, Option.map_some, Option.getD_some, ← htargets] at hl
  obtain ⟨r, hr, rfl⟩ := List.mem_map.mp hl
  obtain ⟨c, hc, rfl, -⟩ := h.succ b hb r hr
  exact ⟨c, hc, rfl⟩

theorem verify_eq_ok :
    f.verify = .ok () ↔
      checkBlocks f [] f.blocks = .ok () ∧ checkDefinitions [] f.definitions = .ok () ∧
      ∀ b ∈ f.blocks, ((DomTree.ofFunc f false).region? f.entry.id).getD [] |>.contains b.id →
        checkUses f f.definitions (DomTree.ofFunc f false)
          (((DomTree.ofFunc f false).region? f.entry.id).getD []) b = .ok () := by
  unfold verify
  constructor
  · intro h
    obtain ⟨⟨⟩, hblocks, h⟩ := bind_eq_ok.mp h
    obtain ⟨⟨⟩, hdefs, h⟩ := bind_eq_ok.mp h
    exact ⟨hblocks, hdefs, fun b hb hr => forM_eq_ok.mp h b (List.mem_filter.mpr ⟨hb, hr⟩)⟩
  · rintro ⟨hblocks, hdefs, huses⟩
    refine bind_eq_ok.mpr ⟨(), hblocks, bind_eq_ok.mpr ⟨(), hdefs, forM_eq_ok.mpr fun b hb => ?_⟩⟩
    obtain ⟨hb, hr⟩ := List.mem_filter.mp hb
    exact huses b hb hr

theorem wellLinked_of_verify (h : f.verify = .ok ()) : f.WellLinked := by
  obtain ⟨hnodup, -, hchecked⟩ := checkBlocks_eq_ok.mp (verify_eq_ok.mp h).1
  have resolve : ∀ r : BlockRef, ∀ q : Block → Bool, (f.linked? r).any q = true →
      ∃ c ∈ f.blocks, c.ref = r ∧ q c = true := by
    intro r q hq
    cases hc : f.linked? r with
    | none => simp [hc] at hq
    | some c =>
      refine ⟨c, (linked?_mem hc).1, (linked?_mem hc).2, ?_⟩
      simpa [hc] using hq
  refine ⟨⟨hnodup, ?_, ?_⟩, fun b hb => (hchecked b hb).jump, fun b hb => (hchecked b hb).phis⟩
  · intro b hb r hr
    obtain ⟨c, hc, he, hback⟩ := resolve r _ ((hchecked b hb).succ r hr)
    obtain ⟨p, hp, hn⟩ := List.any_eq_true.mp hback
    obtain ⟨d, hd, hde, -⟩ := resolve p _ ((hchecked c hc).prev p hp)
    have hdb : d = b := eq_of_id_eq hnodup hd hb (by simpa [Block.id, hde] using hn)
    exact ⟨c, hc, he, by rw [← hdb, hde]; exact hp⟩
  · intro b hb r hr
    obtain ⟨c, hc, he, hback⟩ := resolve r _ ((hchecked b hb).prev r hr)
    obtain ⟨p, hp, hn⟩ := List.any_eq_true.mp hback
    obtain ⟨d, hd, hde, -⟩ := resolve p _ ((hchecked c hc).succ p hp)
    have hdb : d = b := eq_of_id_eq hnodup hd hb (by simpa [Block.id, hde] using hn)
    exact ⟨c, hc, he, by rw [← hdb, hde]; exact hp⟩

theorem map_fst_zipIdx (id : Int) (is : List Instr) : ∀ k : Nat,
    ((is.zipIdx k).filterMap fun (i, pos) => i.write.map fun t => (t, DefSite.instr id pos)).map
      (·.1) = is.filterMap Instr.write := by
  induction is with
  | nil => intro k; rfl
  | cons i is ih =>
    intro k
    cases hw : i.write with
    | none =>
      simp only [List.zipIdx_cons, List.filterMap_cons, hw, Option.map_none]
      exact ih (k + 1)
    | some t =>
      simp only [List.zipIdx_cons, List.filterMap_cons, hw, Option.map_some, List.map_cons]
      rw [← ih (k + 1)]

theorem map_fst_definitions (f : Func) :
    f.definitions.map (·.1) = f.params ++ writesOf f.blocks := by
  simp only [definitions, writesOf, List.map_append, List.map_map, List.map_flatMap, map_fst_zipIdx]
  congr 1
  simp [Function.comp_def]

theorem definitions_nodup (h : f.verify = .ok ()) : (f.params ++ writesOf f.blocks).Nodup :=
  map_fst_definitions f ▸ (checkDefinitions_eq_ok.mp (verify_eq_ok.mp h).2.1).1

theorem writes_nodup (h : f.verify = .ok ()) (hb : b ∈ f.blocks) : b.writes.Nodup :=
  (List.nodup_flatMap.mp (List.nodup_append.mp (definitions_nodup h)).2.1).1 b hb

/-- What is defined once is written by one block only. -/
theorem eq_of_nodup_writes {bs : List Block} (hnodup : (writesOf bs).Nodup) (hb : b ∈ bs) (hc : c ∈ bs) {t : Temp}
    (htb : t ∈ b.writes) (htc : t ∈ c.writes) : b = c := by
  by_contra ne
  have : Std.Symm (Function.onFun List.Disjoint Block.writes) :=
    ⟨fun _ _ hd => List.disjoint_symm hd⟩
  exact (List.nodup_flatMap.mp hnodup).2.forall hb hc ne htb htc

/-- A temporary is written by one block only. -/
theorem eq_of_mem_writes (h : f.verify = .ok ()) (hb : b ∈ f.blocks) (hc : c ∈ f.blocks) {t : Temp}
    (htb : t ∈ b.writes) (htc : t ∈ c.writes) : b = c :=
  eq_of_nodup_writes (List.nodup_append.mp (definitions_nodup h)).2.1 hb hc htb htc

theorem phi_targets_nodup (h : f.verify = .ok ()) (hb : b ∈ f.blocks) :
    (b.phis.map (·.target)).Nodup :=
  (List.nodup_append.mp (writes_nodup h hb)).1

end Func

end LoopLanes
