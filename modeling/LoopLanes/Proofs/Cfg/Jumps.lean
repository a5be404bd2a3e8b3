/-
Verification by terminators alone.

Links are rebuilt from the terminators, so what verification says of a function whose links were rebuilt
can be said of the function before: `Func.FormedByJumps` does so with the graph that the terminators
draw, `Func.jumpFlow`.

* `formedByJumps_of_verify` — a verified function is formed so;
* `verify_of_formedByJumps` — where the links are those of the terminators, nothing else is needed;
* `verify_resolveLinks_of_formedByJumps` — so rebuilt links make a verified function of such a one.
-/
import LoopLanes.Proofs.Cfg.WellFormed

namespace LoopLanes

theorem Block.writesBefore_mono {b : Block} {pos pos' : Nat} {t : Temp} (hle : pos ≤ pos')
    (h : t ∈ b.writesBefore pos) : t ∈ b.writesBefore pos' := by
  rw [mem_writesBefore] at h ⊢
  refine h.imp_right ?_
  rintro ⟨k, x, hx, hw, hlt⟩
  exact ⟨k, x, hx, hw, Nat.lt_of_lt_of_le hlt hle⟩

namespace Func

variable {f g : Func} {b c : Block} {t : Temp} {pos : Nat} {G : Flow Int}

/-- The graph that the terminators draw. -/
def jumpFlow (f : Func) : Flow Int where
  edge u w := ∃ b ∈ f.blocks, b.id = u ∧ Label.ofBlock w ∈ b.targets
  root v := ∃ b ∈ f.roots false, b.id = v

/-- A temporary has its value at a position of a block, as far as ways through `G` go. -/
def DefinedAlong (f : Func) (G : Flow Int) (t : Temp) (b : Block) (pos : Nat) : Prop :=
  t ∈ f.params ∨ t ∈ b.writesBefore pos ∨
    ∃ c ∈ f.blocks, c.id ≠ b.id ∧ t ∈ c.writes ∧ ∀ vs, G.Path b.id vs → c.id ∈ vs

/-- What a function has to look like to be run, links aside. -/
structure FormedByJumps (f : Func) : Prop where
  distinct : (f.blocks.map Block.id).Nodup
  terminated : ∀ b ∈ f.blocks, b.jump.isSome
  target : ∀ b ∈ f.blocks, ∀ l ∈ b.targets, ∃ c ∈ f.blocks, c.label = l
  phis : ∀ b ∈ f.blocks, ∀ p ∈ b.phis, (p.incoming.map (·.2)).Nodup ∧
    ∀ l, l ∈ p.incoming.map (·.2) ↔ ∃ c ∈ f.blocks, b.label ∈ c.targets ∧ c.label = l
  defined_once : (f.params ++ writesOf f.blocks).Nodup
  typed : ∀ b ∈ f.blocks, f.jumpFlow.Reaches b.id → ∀ x ∈ b.instrs ++ b.jump.toList, x.wellTyped = true
  reads : ∀ b ∈ f.blocks, f.jumpFlow.Reaches b.id → ∀ pos x, (b.instrs ++ b.jump.toList)[pos]? = some x →
    ∀ t ∈ x.readTemps, t.isGlobal = false → f.DefinedAlong f.jumpFlow t b pos
  incoming : ∀ b ∈ f.blocks, f.jumpFlow.Reaches b.id → ∀ p ∈ b.phis, ∀ c ∈ f.blocks, b.label ∈ c.targets →
    f.jumpFlow.Reaches c.id → ∀ t, (Value.temp t, c.label) ∈ p.incoming → t.isGlobal = false →
      f.DefinedAlong f.jumpFlow t c c.instrs.length

theorem DefinedAlong.mono {pos' : Nat} (h : f.DefinedAlong G t b pos) (hle : pos ≤ pos') :
    f.DefinedAlong G t b pos' :=
  h.imp_right (Or.imp_left (Block.writesBefore_mono hle))

theorem jumpFlow_edge (hnodup : (f.blocks.map Block.id).Nodup) (hb : b ∈ f.blocks) {w : Int} :
    f.jumpFlow.edge b.id w ↔ Label.ofBlock w ∈ b.targets := by
  constructor
  · rintro ⟨c, hc, e, h⟩
    rwa [eq_of_id_eq hnodup hc hb e] at h
  · exact fun h => ⟨b, hb, rfl, h⟩

theorem jumpFlow_root_iff {v : Int} : f.jumpFlow.root v ↔ (f.blocks.map Block.id).head? = some v := by
  cases hbs : f.blocks <;> simp [jumpFlow, roots, hbs]

/-! ### Links that agree with the terminators -/

/-- Links are those of the terminators. -/
structure LinkedByJumps (f : Func) : Prop where
  succ : ∀ b ∈ f.blocks, b.succ.map (·.label) = b.targets
  mutual_links : ∀ b ∈ f.blocks, ∀ c ∈ f.blocks, c.ref ∈ b.succ ↔ b.ref ∈ c.prev
  inside : f.LinksInside

theorem linkedByJumps_of_wellLinked (h : f.WellLinked) : f.LinkedByJumps := by
  refine ⟨fun b hb => ?_, fun b hb c hc => (h.mem_prev_iff hb hc).symm, fun b hb r hr => ?_⟩
  · obtain ⟨j, hj, htargets⟩ := h.jump b hb
    rw [htargets, Block.targets, hj]
    rfl
  · rcases List.mem_append.mp hr with hr | hr
    · obtain ⟨c, hc, e, -⟩ := h.prev b hb r hr
      exact ⟨c, hc, e⟩
    · obtain ⟨c, hc, e, -⟩ := h.succ b hb r hr
      exact ⟨c, hc, e⟩

namespace LinkedByJumps

theorem mem_succ_iff (h : f.LinkedByJumps) (hnodup : (f.blocks.map Block.id).Nodup) (hb : b ∈ f.blocks)
    (hc : c ∈ f.blocks) : c.ref ∈ b.succ ↔ c.label ∈ b.targets := by
  rw [← h.succ b hb]
  constructor
  · exact fun hs => List.mem_map_of_mem hs
  · intro hl
    obtain ⟨r, hr, e⟩ := List.mem_map.mp hl
    obtain ⟨d, hd, rfl⟩ := h.inside b hb r (List.mem_append_right _ hr)
    rwa [← eq_of_id_eq hnodup hd hc (Label.ofBlock_injective e)]

/-- The links draw the graph of the terminators. -/
theorem flow_eq (h : f.LinkedByJumps) : f.flow false = f.jumpFlow := by
  have hedge : (f.flow false).edge = f.jumpFlow.edge := by
    funext u w
    refine propext (exists_congr fun b => and_congr_right fun hb => and_congr_right fun _ => ?_)
    rw [← h.succ b hb, List.mem_map]
    refine exists_congr fun r => and_congr_right fun _ => ⟨fun e => e ▸ rfl, fun e => ?_⟩
    exact Label.ofBlock_injective e
  exact congrArg (fun e => Flow.mk e (f.flow false).root) hedge

end LinkedByJumps

theorem formedByJumps_iff_wellFormed (h : f.LinkedByJumps) : f.FormedByJumps ↔ f.WellFormed := by
  have hprev : (f.blocks.map Block.id).Nodup → ∀ b ∈ f.blocks, ∀ c ∈ f.blocks,
      (b.label ∈ c.targets ↔ c.ref ∈ b.prev) := fun hnodup b hb c hc =>
    (h.mem_succ_iff hnodup hc hb).symm.trans (h.mutual_links c hc b hb)
  have hlabels : (f.blocks.map Block.id).Nodup → ∀ b ∈ f.blocks, ∀ l,
      (l ∈ b.prev.map (·.label) ↔ ∃ c ∈ f.blocks, b.label ∈ c.targets ∧ c.label = l) := by
    intro hnodup b hb l
    rw [List.mem_map]
    constructor
    · rintro ⟨r, hr, rfl⟩
      obtain ⟨c, hc, rfl⟩ := h.inside b hb r (List.mem_append_left _ hr)
      exact ⟨c, hc, (hprev hnodup b hb c hc).mpr hr, rfl⟩
    · rintro ⟨c, hc, hl, rfl⟩
      exact ⟨c.ref, (hprev hnodup b hb c hc).mp hl, rfl⟩
  have hreached : ∀ b, f.Reached b ↔ f.jumpFlow.Reaches b.id := fun b => by
    rw [reached_iff, h.flow_eq]
  have hdefined : ∀ t b pos, f.DefinedAt t b pos ↔ f.DefinedAlong f.jumpFlow t b pos := fun t b pos => by
    rw [← h.flow_eq]
    rfl
  constructor
  · intro hj
    refine ⟨hj.distinct, hj.terminated, h.succ, h.mutual_links, fun b hb p hp => ?_, hj.defined_once, ?_, ?_, ?_⟩
    · obtain ⟨hnodup, hmem⟩ := hj.phis b hb p hp
      exact ⟨hnodup, fun l => (hmem l).trans (hlabels hj.distinct b hb l).symm⟩
    · exact fun b hb hr => hj.typed b hb ((hreached b).mp hr)
    · exact fun b hb hr pos x hx t ht hlocal =>
        (hdefined t b pos).mpr (hj.reads b hb ((hreached b).mp hr) pos x hx t ht hlocal)
    · intro b hb hr p hp c hc hp' hr' t ht hlocal
      exact (hdefined t c _).mpr (hj.incoming b hb ((hreached b).mp hr) p hp c hc
        ((hprev hj.distinct b hb c hc).mpr hp') ((hreached c).mp hr') t ht hlocal)
  · intro hw
    refine ⟨hw.distinct, hw.terminated, fun b hb l hl => ?_, fun b hb p hp => ?_, hw.defined_once, ?_, ?_, ?_⟩
    · rw [← h.succ b hb] at hl
      obtain ⟨r, hr, rfl⟩ := List.mem_map.mp hl
      obtain ⟨c, hc, rfl⟩ := h.inside b hb r (List.mem_append_right _ hr)
      exact ⟨c, hc, rfl⟩
    · obtain ⟨hnodup, hmem⟩ := hw.phis b hb p hp
      exact ⟨hnodup, fun l => (hmem l).trans (hlabels hw.distinct b hb l)⟩
    · exact fun b hb hr => hw.typed b hb ((hreached b).mpr hr)
    · exact fun b hb hr pos x hx t ht hlocal =>
        (hdefined t b pos).mp (hw.reads b hb ((hreached b).mpr hr) pos x hx t ht hlocal)
    · intro b hb hr p hp c hc hl hr' t ht hlocal
      exact (hdefined t c _).mp (hw.incoming b hb ((hreached b).mpr hr) p hp c hc
        ((hprev hw.distinct b hb c hc).mp hl) ((hreached c).mpr hr') t ht hlocal)

/-- A verified function is formed by its jumps. -/
theorem formedByJumps_of_verify (h : f.verify = .ok ()) : f.FormedByJumps :=
  (formedByJumps_iff_wellFormed (linkedByJumps_of_wellLinked (wellLinked_of_verify h))).mpr (wellFormed_of_verify h)

/-- Where links are those of the terminators, verification accepts what the jumps form. -/
theorem verify_of_formedByJumps (hlinks : f.LinkedByJumps) (h : f.FormedByJumps) : f.verify = .ok () :=
  (verify_eq_ok_iff hlinks.inside).mpr ((formedByJumps_iff_wellFormed hlinks).mp h)

/-! ### Links that were rebuilt -/

/-- The same blocks, links aside. -/
def SameCode (f g : Func) : Prop :=
  f.params = g.params ∧ f.blocks.map Block.clearLinks = g.blocks.map Block.clearLinks

namespace SameCode

theorem symm (h : f.SameCode g) : g.SameCode f := ⟨h.1.symm, h.2.symm⟩

theorem exists_block (h : f.SameCode g) (hc : c ∈ g.blocks) : ∃ b ∈ f.blocks,
    b.ref = c.ref ∧ b.phis = c.phis ∧ b.instrs = c.instrs ∧ b.jump = c.jump := by
  have hmem : c.clearLinks ∈ f.blocks.map Block.clearLinks := h.2 ▸ List.mem_map_of_mem hc
  obtain ⟨b, hb, e⟩ := List.mem_map.mp hmem
  exact ⟨b, hb, code_of_clearLinks e⟩

/-- What is read off the blocks without their links is the same. -/
theorem map_eq {α : Type} (h : f.SameCode g) {p : Block → α} (hp : ∀ b, p b.clearLinks = p b) :
    f.blocks.map p = g.blocks.map p := by
  have key : ∀ f : Func, f.blocks.map p = (f.blocks.map Block.clearLinks).map p := fun f => by
    rw [List.map_map]
    exact List.map_congr_left fun b _ => (hp b).symm
  rw [key f, key g, h.2]

theorem writesOf_eq (h : f.SameCode g) : writesOf f.blocks = writesOf g.blocks := by
  rw [writesOf, writesOf, List.flatMap, List.flatMap, h.map_eq fun _ => rfl]

theorem jumpFlow_eq (h : f.SameCode g) : f.jumpFlow = g.jumpFlow := by
  have edge : ∀ {f g : Func}, f.SameCode g → ∀ u w, f.jumpFlow.edge u w → g.jumpFlow.edge u w := by
    rintro f g h u w ⟨b, hb, rfl, hl⟩
    obtain ⟨c, hc, href, -, -, hjump⟩ := h.symm.exists_block hb
    refine ⟨c, hc, congrArg BlockRef.number href, ?_⟩
    rwa [Block.targets, hjump]
  have hedge : f.jumpFlow.edge = g.jumpFlow.edge := by
    funext u w
    exact propext ⟨edge h u w, edge h.symm u w⟩
  have hroot : f.jumpFlow.root = g.jumpFlow.root := by
    funext v
    rw [eq_iff_iff, jumpFlow_root_iff, jumpFlow_root_iff, h.map_eq fun _ => rfl]
  exact congrArg₂ Flow.mk hedge hroot

theorem definedAlong (h : f.SameCode g) (hphis : b.phis = c.phis) (hinstrs : b.instrs = c.instrs)
    (href : b.ref = c.ref) (hd : f.DefinedAlong G t b pos) : g.DefinedAlong G t c pos := by
  have hid : b.id = c.id := congrArg BlockRef.number href
  rcases hd with ht | ht | ⟨d, hd, hne, ht, hpath⟩
  · exact .inl (h.1 ▸ ht)
  · refine .inr (.inl ?_)
    rwa [Block.writesBefore, hphis, hinstrs] at ht
  · obtain ⟨d', hd', e, ephis, einstrs, -⟩ := h.symm.exists_block hd
    have hdid : d'.id = d.id := congrArg BlockRef.number e
    refine .inr (.inr ⟨d', hd', hdid ▸ hid ▸ hne, ?_, hdid ▸ hid ▸ hpath⟩)
    rwa [Block.writes, ephis, einstrs]

/-- What the jumps form does not depend on the links. -/
theorem formedByJumps (h : f.SameCode g) (hf : f.FormedByJumps) : g.FormedByJumps := by
  have hback := h.symm
  have label : ∀ {b c : Block}, b.ref = c.ref → b.label = c.label := congrArg BlockRef.label
  have targets : ∀ {b c : Block}, b.jump = c.jump → b.targets = c.targets := fun e => by
    rw [Block.targets, Block.targets, e]
  refine ⟨?_, fun c hc => ?_, fun c hc l hl => ?_, fun c hc p hp => ?_, ?_, fun c hc hr => ?_,
    fun c hc hr pos x hx t ht hlocal => ?_, fun c hc hr p hp d hd hl hr' t ht hlocal => ?_⟩
  · rw [← h.map_eq fun _ => rfl]
    exact hf.distinct
  · obtain ⟨b, hb, -, -, -, hjump⟩ := h.exists_block hc
    exact hjump ▸ hf.terminated b hb
  · obtain ⟨b, hb, -, -, -, hjump⟩ := h.exists_block hc
    obtain ⟨d, hd, rfl⟩ := hf.target b hb l (targets hjump ▸ hl)
    obtain ⟨d', hd', e, -⟩ := hback.exists_block hd
    exact ⟨d', hd', label e⟩
  · obtain ⟨b, hb, href, hphis, -⟩ := h.exists_block hc
    obtain ⟨hnodup, hlabels⟩ := hf.phis b hb p (hphis ▸ hp)
    refine ⟨hnodup, fun l => (hlabels l).trans ⟨?_, ?_⟩⟩
    · rintro ⟨d, hd, hl, rfl⟩
      obtain ⟨d', hd', e, -, -, hjump⟩ := hback.exists_block hd
      exact ⟨d', hd', targets hjump ▸ label href ▸ hl, label e⟩
    · rintro ⟨d, hd, hl, rfl⟩
      obtain ⟨d', hd', e, -, -, hjump⟩ := h.exists_block hd
      exact ⟨d', hd', targets hjump ▸ label href ▸ hl, label e⟩
  · rw [← h.1, ← h.writesOf_eq]
    exact hf.defined_once
  · obtain ⟨b, hb, href, -, hinstrs, hjump⟩ := h.exists_block hc
    rw [← h.jumpFlow_eq, Block.id, ← href] at hr
    rw [← hinstrs, ← hjump]
    exact hf.typed b hb hr
  · obtain ⟨b, hb, href, hphis, hinstrs, hjump⟩ := h.exists_block hc
    rw [← h.jumpFlow_eq, Block.id, ← href] at hr
    rw [← hinstrs, ← hjump] at hx
    rw [← h.jumpFlow_eq]
    exact h.definedAlong hphis hinstrs href (hf.reads b hb hr pos x hx t ht hlocal)
  · obtain ⟨b, hb, href, hphis, -⟩ := h.exists_block hc
    obtain ⟨e, he, eref, ephis, einstrs, ejump⟩ := h.exists_block hd
    rw [← h.jumpFlow_eq, Block.id, ← href] at hr
    rw [← h.jumpFlow_eq, Block.id, ← eref] at hr'
    rw [← label href, ← targets ejump] at hl
    rw [← label eref] at ht
    rw [← h.jumpFlow_eq, ← einstrs]
    exact h.definedAlong ephis einstrs eref (hf.incoming b hb hr p (hphis ▸ hp) e he hl hr' t ht hlocal)

end SameCode

/-- Rebuilt links leave the code as it is. -/
theorem sameCode_resolveLinks (f : Func) : f.SameCode f.resolveLinks.1 :=
  ⟨(params_resolveLinks f).symm, (map_clearLinks_resolveLinks f).symm⟩

/-- Each jump that is linked adds its target to the successors of its block. -/
theorem succ_linkJumps : ∀ (js : List (BlockRef × Label)) (f : Func), (linkJumps js f).2 = none →
    ∀ c ∈ (linkJumps js f).1.blocks, ∃ b ∈ f.blocks, b.clearLinks = c.clearLinks ∧
      c.succ.map (·.label) = b.succ.map (·.label) ++ (js.filter (·.1 == c.ref)).map (·.2) := by
  intro js
  induction js with
  | nil => exact fun f _ c hc => ⟨c, hc, rfl, by simp⟩
  | cons j js ih =>
    intro f hnone c hc
    obtain ⟨source, l⟩ := j
    cases htarget : f.target? l with
    | none => simp [linkJumps, htarget] at hnone
    | some target =>
      have hlabel : target.label = l := by
        obtain ⟨d, hd, rfl⟩ := Option.map_eq_some_iff.mp htarget
        simpa [Block.label] using List.find?_some hd
      simp only [linkJumps, htarget] at hnone hc
      obtain ⟨b, hb, hbc, hsucc⟩ := ih _ hnone c hc
      obtain ⟨d, hd, hdb, hadded, -⟩ := exists_of_mem_link hb
      have hcode := hdb.symm.trans hbc
      have href : d.ref = c.ref := (code_of_clearLinks hcode).1
      refine ⟨d, hd, hcode, ?_⟩
      rw [hsucc, hadded, List.map_append, List.append_assoc, List.filter_cons]
      by_cases hs : source = c.ref
      · simp [hs, href, hlabel]
      · simp [hs, href, Ne.symm hs]

/-- The jumps of one block are its targets. -/
theorem filter_jumps (hnodup : (f.blocks.map Block.id).Nodup) (hb : b ∈ f.blocks) :
    (f.jumps.filter (·.1 == b.ref)).map (·.2) = b.targets := by
  have own : ∀ c ∈ f.blocks, (c.targets.map fun l => (c.ref, l)).filter (·.1 == b.ref) =
      if c.ref = b.ref then b.targets.map fun l => (b.ref, l) else [] := by
    intro c hc
    split
    · rename_i h
      obtain rfl := eq_of_id_eq hnodup hc hb (congrArg BlockRef.number h)
      simp
    · rename_i h
      simp [h]
  have hrefs : (f.blocks.map Block.ref).Nodup := .of_map BlockRef.number (by rwa [List.map_map])
  rw [jumps, List.filter_flatMap, List.flatMap_congr own, flatMap_ite_of_nodup hrefs hb]
  simp

/-- Links that were rebuilt to the end are those of the terminators. -/
theorem linkedByJumps_resolveLinks (hnodup : (f.blocks.map Block.id).Nodup) (h : f.resolveLinks.2 = none) :
    f.resolveLinks.1.LinkedByJumps := by
  refine ⟨fun c hc => ?_, fun b hb c hc => ?_, linksInside_resolveLinks f⟩
  · obtain ⟨b, hb, hcode, hsucc⟩ := succ_linkJumps _ _ h c hc
    obtain ⟨d, hd, rfl⟩ := List.mem_map.mp hb
    obtain ⟨href, -, -, hjump⟩ := @code_of_clearLinks d c hcode
    rw [hsucc, ← href, filter_jumps hnodup hd, Block.targets, Block.targets, hjump]
    rfl
  · have hbalanced := balanced_resolveLinks f b hb c hc
    rw [← List.count_pos_iff, hbalanced, List.count_pos_iff]

/-- What the jumps form is verified once the links are rebuilt. -/
theorem verify_resolveLinks_of_formedByJumps (h : f.FormedByJumps) :
    f.resolveLinks.2 = none ∧ f.resolveLinks.1.verify = .ok () := by
  have hnone := resolveLinks_eq_none_iff.mpr h.target
  exact ⟨hnone, verify_of_formedByJumps (linkedByJumps_resolveLinks h.distinct hnone)
    ((sameCode_resolveLinks f).formedByJumps h)⟩

/-! ### Blocks that change -/

/-- The function with each of its blocks changed. -/
def mapBlocks (f : Func) (φ : Block → Block) : Func := { f with blocks := f.blocks.map φ }

/-- Blocks that keep their links and terminators stay linked. -/
theorem LinkedByJumps.mapBlocks {φ : Block → Block} (h : f.LinkedByJumps) (hφ : ∀ b ∈ f.blocks,
    (φ b).ref = b.ref ∧ (φ b).prev = b.prev ∧ (φ b).succ = b.succ ∧ (φ b).jump = b.jump) :
    (f.mapBlocks φ).LinkedByJumps := by
  refine ⟨List.forall_mem_map.mpr fun b hb => ?_,
    List.forall_mem_map.mpr fun b hb => List.forall_mem_map.mpr fun c hc => ?_,
    List.forall_mem_map.mpr fun b hb r hr => ?_⟩
  · obtain ⟨-, -, hsucc, hjump⟩ := hφ b hb
    rw [hsucc, Block.targets, hjump]
    exact h.succ b hb
  · obtain ⟨hbref, -, hsucc, -⟩ := hφ b hb
    obtain ⟨hcref, hprev, -⟩ := hφ c hc
    rw [hbref, hcref, hsucc, hprev]
    exact h.mutual_links b hb c hc
  · obtain ⟨-, hprev, hsucc, -⟩ := hφ b hb
    rw [hprev, hsucc] at hr
    obtain ⟨c, hc, rfl⟩ := h.inside b hb r hr
    exact ⟨φ c, List.mem_map_of_mem hc, (hφ c hc).1⟩

end Func

end LoopLanes
