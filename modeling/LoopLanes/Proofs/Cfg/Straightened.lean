/-
Bodies whose blocks follow one another.

The blocks of a loop stand in an order in which jumps lead forward, and the last of them jumps back to the header
(`Func.Threads`).  Each is given other code and goes on to the next one.  A path through the function that is left
comes by the header and by all blocks in front (`Straightens.trace`), so what had its value at the end of a block has
it at the end of what stands in its place.

* `Straightens.formedByJumps` — the function that is left is formed by its jumps if it was before.
-/
import LoopLanes.Proofs.Cfg.Recasts

namespace LoopLanes

namespace Func

variable {f : Func} {header b c d : Block} {bs pre post : List Block} {t : Temp} {pos : Nat} {v : Int} {vs : List Int}
  {G : Flow Int} {φ : Block → Block}

/-- What has its value at the end of a block has it in every block to which all ways pass it. -/
theorem DefinedAlong.passed (h : f.DefinedAlong G t c c.instrs.length) (hc : c ∈ f.blocks) (hne : c.id ≠ b.id)
    (hr : G.Reaches b.id) (hpass : ∀ vs, G.Path b.id vs → c.id ∈ vs) : f.DefinedAlong G t b 0 := by
  have hdom : G.Dominates c.id b.id := Flow.dominates_iff_forall_path.mpr ⟨hr, hpass⟩
  rcases h with ht | ht | ⟨d, hd, -, ht, hpaths⟩
  · exact .inl ht
  · rw [Block.writesBefore_length] at ht
    exact .inr (.inr ⟨c, hc, hne, ht, hpass⟩)
  · have hdom' : G.Dominates d.id c.id := Flow.dominates_iff_forall_path.mpr ⟨hdom.reaches_left, hpaths⟩
    refine .inr (.inr ⟨d, hd, fun e => hne ?_, ht, (Flow.dominates_iff_forall_path.mp (hdom'.trans hdom)).2⟩)
    exact hdom.antisymm (e ▸ hdom')

/-- What has its value at the end of a block that leads to this one. -/
def HandedOn (f : Func) (b : Block) (t : Temp) : Prop :=
  ∃ q ∈ f.blocks, b.label ∈ q.targets ∧ f.DefinedAlong f.jumpFlow t q q.instrs.length

/-- Something leads to a block that is reached but is not the first one. -/
theorem exists_pred_of_reaches (hr : f.jumpFlow.Reaches b.id) (hroot : ¬ f.jumpFlow.root b.id) :
    ∃ q ∈ f.blocks, b.label ∈ q.targets := by
  obtain ⟨vs, p⟩ := Flow.reaches_iff_exists_path.mp hr
  cases p with
  | root hr => exact absurd hr hroot
  | step _ e =>
    obtain ⟨q, hq, -, hl⟩ := e
    exact ⟨q, hq, hl⟩

/-- What has its value where a block is entered was handed on to it, or is defined by a phi. -/
theorem FormedByJumps.handedOn (hf : f.FormedByJumps) (hr : f.jumpFlow.Reaches b.id) (hroot : ¬ f.jumpFlow.root b.id)
    (ht : f.DefinedAlong f.jumpFlow t b 0) : f.HandedOn b t ∨ t ∈ b.phis.map (·.target) := by
  obtain ⟨q, hq, hl⟩ := exists_pred_of_reaches hr hroot
  rcases ht with ht | ht | ⟨c, hc, hne, ht, hpaths⟩
  · exact .inl ⟨q, hq, hl, .inl ht⟩
  · refine .inr ?_
    rwa [Block.writesBefore, List.take_zero, List.filterMap_nil, List.append_nil] at ht
  · refine .inl ⟨q, hq, hl, ?_⟩
    by_cases hcq : c.id = q.id
    · obtain rfl := eq_of_id_eq hf.distinct hc hq hcq
      exact .inr (.inl (c.writesBefore_length.symm ▸ ht))
    · -- a way to the block in front goes on to this one
      refine .inr (.inr ⟨c, hc, hcq, ht, fun vs p => ?_⟩)
      exact (List.mem_cons.mp (hpaths _ (p.step ⟨q, hq, rfl, hl⟩))).resolve_left hne

/-- Something comes to the phis of such a block. -/
theorem FormedByJumps.incoming_ne_nil (hf : f.FormedByJumps) (hb : b ∈ f.blocks) (hr : f.jumpFlow.Reaches b.id)
    (hroot : ¬ f.jumpFlow.root b.id) {p : Phi} (hp : p ∈ b.phis) : p.incoming ≠ [] := by
  obtain ⟨q, hq, hl⟩ := exists_pred_of_reaches hr hroot
  intro hnil
  have := ((hf.phis b hb p hp).2 q.label).mpr ⟨q, hq, hl, rfl⟩
  rw [hnil] at this
  cases this

/-! ### Blocks in order -/

/-- Blocks in an order in which they are entered from the header or from blocks in front, and go on to blocks behind;
the last one goes back to the header. -/
structure Threads (f : Func) (header : Block) (bs : List Block) : Prop where
  formed : f.FormedByJumps
  header_mem : header ∈ f.blocks
  header_notMem : header ∉ bs
  sub : bs ⊆ f.blocks
  nodup : bs.Nodup
  live : ∀ b ∈ bs, f.jumpFlow.Reaches b.id
  root : ∀ b ∈ bs, ¬ f.jumpFlow.root b.id
  entered : ∀ pre b post, bs = pre ++ b :: post → ∀ c ∈ f.blocks, b.label ∈ c.targets → c = header ∧ pre = [] ∨ c ∈ pre
  goesOn : ∀ pre b post, bs = pre ++ b :: post → ∀ l ∈ b.targets, l = header.label ∧ post = [] ∨ ∃ c ∈ post, c.label = l

/-- A block of the order. -/
def Within (bs : List Block) (v : Int) : Prop := ∃ b ∈ bs, b.id = v

namespace Threads

theorem eq_of_id (h : f.Threads header bs) (hb : b ∈ f.blocks) (hc : c ∈ f.blocks) (e : b.id = c.id) : b = c :=
  eq_of_id_eq h.formed.distinct hb hc e

theorem within_iff (h : f.Threads header bs) (hc : c ∈ f.blocks) : Within bs c.id ↔ c ∈ bs := by
  refine ⟨?_, fun hc => ⟨c, hc, rfl⟩⟩
  rintro ⟨b, hb, e⟩
  exact h.eq_of_id (h.sub hb) hc e ▸ hb

/-- A block stands in one place. -/
theorem split_unique (h : f.Threads header bs) {pre' post' : List Block} (hsplit : bs = pre ++ b :: post)
    (hsplit' : bs = pre' ++ b :: post') : pre = pre' := by
  have hnodup := h.nodup
  have hnot : ∀ {pre post : List Block}, bs = pre ++ b :: post → b ∉ pre ∧ b ∉ post := by
    rintro pre post rfl
    have := List.nodup_middle.mp hnodup
    simpa using (List.nodup_cons.mp this).1
  exact ((List.append_cons_inj_of_notMem (hnot hsplit).1 (hnot hsplit).2).mp (hsplit.symm.trans hsplit')).1

/-- Each block of the order is led to by the header or by a block in front. -/
theorem exists_pred (h : f.Threads header bs) (hsplit : bs = pre ++ b :: post) :
    ∃ c ∈ f.blocks, b.label ∈ c.targets ∧ (c = header ∧ pre = [] ∨ c ∈ pre) := by
  have hb : b ∈ bs := by simp [hsplit]
  obtain ⟨c, hc, hl⟩ := exists_pred_of_reaches (h.live b hb) (h.root b hb)
  exact ⟨c, hc, hl, h.entered pre b post hsplit c hc hl⟩

/-- From the header a block of the order is reached by blocks in front of it. -/
theorem exists_path (h : f.Threads header bs) (p : f.jumpFlow.Path header.id vs) : ∀ {pre post : List Block} {b : Block},
    bs = pre ++ b :: post → ∃ us, f.jumpFlow.Path b.id (us ++ vs) ∧ ∀ u ∈ us, Within (pre ++ [b]) u := by
  intro pre
  induction hk : pre.length using Nat.strongRecOn generalizing pre with
  | _ k ih =>
    intro post b hsplit
    obtain ⟨c, hc, hl, ⟨rfl, -⟩ | hpre⟩ := h.exists_pred hsplit
    · exact ⟨[b.id], p.step ⟨c, hc, rfl, hl⟩, List.forall_mem_singleton.mpr ⟨b, by simp, rfl⟩⟩
    · obtain ⟨pre₁, pre₂, rfl⟩ := List.append_of_mem hpre
      have hsplit' : bs = pre₁ ++ c :: (pre₂ ++ b :: post) := by simp [hsplit]
      obtain ⟨us, q, hus⟩ := ih pre₁.length (by simp [← hk]) rfl hsplit'
      refine ⟨b.id :: us, q.step ⟨c, hc, rfl, hl⟩, List.forall_mem_cons.mpr ⟨⟨b, by simp, rfl⟩, fun u hu => ?_⟩⟩
      obtain ⟨a, ha, e⟩ := hus u hu
      refine ⟨a, ?_, e⟩
      simp only [List.mem_append, List.mem_cons, List.not_mem_nil, or_false] at ha ⊢
      tauto

end Threads

/-! ### Blocks that follow one another -/

/-- The blocks of an order are given other code, which defines what they defined, and follow one another. -/
structure Straightens (f : Func) (header : Block) (bs : List Block) (φ : Block → Block) : Prop
    extends f.Threads header bs where
  rest : ∀ b ∈ f.blocks, b ∉ bs → φ b = b
  ref : ∀ b ∈ bs, (φ b).ref = b.ref
  phis : ∀ b ∈ bs, (φ b).phis = []
  next : ∀ pre b c post, bs = pre ++ b :: c :: post → (φ b).jump = some (.jump c.label)
  back : ∀ pre b, bs = pre ++ [b] → (φ b).jump = b.jump
  writes : ∀ b ∈ bs, b.writes ⊆ (φ b).instrs.filterMap Instr.write
  fresh : (f.params ++ writesOf (f.mapBlocks φ).blocks).Nodup
  typed : ∀ b ∈ bs, ∀ x ∈ (φ b).instrs, x.wellTyped = true
  closed : ∀ pre b post, bs = pre ++ b :: post → Instr.Closed (fun t =>
    f.HandedOn b t ∨ t ∈ pre.flatMap fun c => (φ c).instrs.filterMap Instr.write) (φ b).instrs

namespace Straightens

theorem ref_eq (h : f.Straightens header bs φ) (hb : b ∈ f.blocks) : (φ b).ref = b.ref := by
  by_cases hmem : b ∈ bs
  · exact h.ref b hmem
  · rw [h.rest b hb hmem]

theorem id_eq (h : f.Straightens header bs φ) (hb : b ∈ f.blocks) : (φ b).id = b.id :=
  congrArg BlockRef.number (h.ref_eq hb)

theorem label_eq (h : f.Straightens header bs φ) (hb : b ∈ f.blocks) : (φ b).label = b.label :=
  congrArg BlockRef.label (h.ref_eq hb)

theorem map_id (h : f.Straightens header bs φ) : (f.mapBlocks φ).blocks.map Block.id = f.blocks.map Block.id := by
  rw [mapBlocks, List.map_map]
  exact List.map_congr_left fun b hb => h.id_eq hb

theorem root_iff (h : f.Straightens header bs φ) : (f.mapBlocks φ).jumpFlow.root v ↔ f.jumpFlow.root v := by
  rw [jumpFlow_root_iff, jumpFlow_root_iff, h.map_id]

/-- A block of the order jumps to the next one, or back to the header. -/
theorem targets_cases (h : f.Straightens header bs φ) (hsplit : bs = pre ++ b :: post) :
    (∃ c post', post = c :: post' ∧ (φ b).targets = [c.label]) ∨ post = [] ∧ (φ b).targets = b.targets := by
  cases post with
  | nil => exact .inr ⟨rfl, by rw [Block.targets, h.back pre b hsplit, Block.targets]⟩
  | cons c post => exact .inl ⟨c, post, rfl, by rw [Block.targets, h.next pre b c post hsplit]; rfl⟩

/-- Jumps lead where they led before, or to the header or a block of the order. -/
theorem edge_cases (h : f.Straightens header bs φ) {u w : Int} (e : (f.mapBlocks φ).jumpFlow.edge u w) :
    f.jumpFlow.edge u w ∨ w = header.id ∨ Within bs w := by
  obtain ⟨_, hmem, rfl, hl⟩ := e
  obtain ⟨b, hb, rfl⟩ := List.mem_map.mp hmem
  rw [h.id_eq hb]
  by_cases hbs : b ∈ bs
  · obtain ⟨pre, post, hsplit⟩ := List.append_of_mem hbs
    rcases h.targets_cases hsplit with ⟨c, post', rfl, htargets⟩ | ⟨-, htargets⟩
    · obtain rfl : w = c.id := Label.ofBlock_injective (List.mem_singleton.mp (htargets ▸ hl))
      exact .inr (.inr ⟨c, by simp [hsplit], rfl⟩)
    · exact .inl ⟨b, hb, rfl, htargets ▸ hl⟩
  · exact .inl ⟨b, hb, rfl, h.rest b hb hbs ▸ hl⟩

/-- A path comes by the header and by all blocks in front; without the order it is a path of before. -/
theorem trace (h : f.Straightens header bs φ) (p : (f.mapBlocks φ).jumpFlow.Path v vs) :
    (¬ Within bs v → ∃ ws, f.jumpFlow.Path v ws ∧ ws ⊆ vs ∧ ∀ w ∈ ws, ¬ Within bs w) ∧
      ∀ pre b post, bs = pre ++ b :: post → b.id = v → (∃ ws, f.jumpFlow.Path header.id ws ∧ ws ⊆ vs ∧
        ∀ w ∈ ws, ¬ Within bs w) ∧ ∀ c ∈ pre, c.id ∈ vs := by
  have hheader : ¬ Within bs header.id := (h.within_iff h.header_mem).not.mpr h.header_notMem
  induction p with
  | @root r hr =>
    have hr' := h.root_iff.mp hr
    refine ⟨fun hout => ⟨[r], .root hr', List.Subset.refl _, List.forall_mem_singleton.mpr hout⟩, ?_⟩
    rintro pre b post hsplit rfl
    exact absurd hr' (h.root b (by simp [hsplit]))
  | @step u w vs p e ih =>
    obtain ⟨hout, hin⟩ := ih
    obtain ⟨_, hmem, rfl, hl⟩ := e
    obtain ⟨c, hc, rfl⟩ := List.mem_map.mp hmem
    rw [h.id_eq hc] at hout hin p
    by_cases hcbs : c ∈ bs
    · obtain ⟨pre, post, hsplit⟩ := List.append_of_mem hcbs
      obtain ⟨⟨ws, q, hsub, hws⟩, hpre⟩ := hin pre c post hsplit rfl
      rcases h.targets_cases hsplit with ⟨d, post', rfl, htargets⟩ | ⟨rfl, htargets⟩
      · -- on to the next block
        obtain rfl : w = d.id := Label.ofBlock_injective (List.mem_singleton.mp (htargets ▸ hl))
        have hd : d ∈ bs := by simp [hsplit]
        refine ⟨fun hno => absurd ⟨d, hd, rfl⟩ hno, fun pre' b post' hsplit' hb => ?_⟩
        obtain rfl := h.eq_of_id (h.sub (by simp [hsplit'])) (h.sub hd) hb
        obtain rfl : pre' = pre ++ [c] := h.split_unique hsplit' (by rw [hsplit, List.append_cons])
        refine ⟨⟨ws, q, List.subset_cons_of_subset _ hsub, hws⟩, List.forall_mem_append.mpr ⟨fun a ha => ?_, ?_⟩⟩
        · exact List.mem_cons_of_mem _ (hpre a ha)
        · exact List.forall_mem_singleton.mpr (List.mem_cons_of_mem _ p.mem)
      · -- or back to the header
        rw [htargets] at hl
        obtain ⟨e, -⟩ := (h.goesOn pre c [] hsplit _ hl).resolve_right (by simp)
        obtain rfl : w = header.id := Label.ofBlock_injective e
        refine ⟨fun _ => ⟨ws, q, List.subset_cons_of_subset _ hsub, hws⟩, fun pre' b post' hsplit' hb => ?_⟩
        exact absurd ⟨b, by simp [hsplit'], hb⟩ hheader
    · -- from a block that is as before
      rw [h.rest c hc hcbs] at hl
      have hedge : f.jumpFlow.edge c.id w := ⟨c, hc, rfl, hl⟩
      obtain ⟨ws, q, hsub, hws⟩ := hout ((h.within_iff hc).not.mpr hcbs)
      refine ⟨fun hno => ⟨w :: ws, q.step hedge, List.cons_subset_cons _ hsub, List.forall_mem_cons.mpr ⟨hno, hws⟩⟩, ?_⟩
      rintro pre b post hsplit rfl
      rcases h.entered pre b post hsplit c hc hl with ⟨rfl, rfl⟩ | hpre
      · exact ⟨⟨ws, q, List.subset_cons_of_subset _ hsub, hws⟩, List.forall_mem_nil _⟩
      · exact absurd (by simp [hsplit, hpre]) hcbs

/-- Whatever all ways to a block pass before, they pass still. -/
theorem mem_of_path (h : f.Straightens header bs φ) (hb : b ∈ f.blocks) (hne : d.id ≠ b.id)
    (hpaths : ∀ vs, f.jumpFlow.Path b.id vs → d.id ∈ vs) (p : (f.mapBlocks φ).jumpFlow.Path b.id vs) : d.id ∈ vs := by
  by_cases hbs : b ∈ bs
  · obtain ⟨pre, post, hsplit⟩ := List.append_of_mem hbs
    obtain ⟨⟨ws, q, hsub, hws⟩, hpre⟩ := (h.trace p).2 pre b post hsplit rfl
    obtain ⟨us, q', hus⟩ := h.exists_path q hsplit
    rcases List.mem_append.mp (hpaths _ q') with hmem | hmem
    · obtain ⟨a, ha, e⟩ := hus _ hmem
      rcases List.mem_append.mp ha with ha | ha
      · exact e ▸ hpre a ha
      · exact absurd (e.symm.trans (congrArg Block.id (List.mem_singleton.mp ha))) hne
    · exact hsub hmem
  · obtain ⟨ws, q, hsub, -⟩ := (h.trace p).1 ((h.within_iff hb).not.mpr hbs)
    exact hsub (hpaths _ q)

theorem writes_subset (h : f.Straightens header bs φ) (hb : b ∈ f.blocks) : b.writes ⊆ (φ b).writes := by
  by_cases hbs : b ∈ bs
  · exact List.subset_append_of_subset_right _ (h.writes b hbs)
  · rw [h.rest b hb hbs]
    exact List.Subset.refl _

/-- What had its value in a block has it there still, as long as the block defines it in front. -/
theorem definedAlong (h : f.Straightens header bs φ) (hb : b ∈ f.blocks) {pos' : Nat}
    (hown : t ∈ b.writesBefore pos → t ∈ (φ b).writesBefore pos') (ht : f.DefinedAlong f.jumpFlow t b pos) :
    (f.mapBlocks φ).DefinedAlong (f.mapBlocks φ).jumpFlow t (φ b) pos' := by
  rcases ht with ht | ht | ⟨d, hd, hne, ht, hpaths⟩
  · exact .inl ht
  · exact .inr (.inl (hown ht))
  · refine .inr (.inr ⟨φ d, List.mem_map_of_mem hd, ?_, h.writes_subset hd ht, fun vs p => ?_⟩)
    · rwa [h.id_eq hd, h.id_eq hb]
    · rw [h.id_eq hb] at p
      rw [h.id_eq hd]
      exact h.mem_of_path hb hne hpaths p

/-- What had its value at the end of a block has it at the end of what stands in its place. -/
theorem definedAlong_length (h : f.Straightens header bs φ) (hb : b ∈ f.blocks)
    (ht : f.DefinedAlong f.jumpFlow t b b.instrs.length) :
    (f.mapBlocks φ).DefinedAlong (f.mapBlocks φ).jumpFlow t (φ b) (φ b).instrs.length := by
  refine h.definedAlong hb (fun ht => ?_) ht
  rw [Block.writesBefore_length] at ht ⊢
  exact h.writes_subset hb ht

/-- A block of the order may read what it is given to read. -/
theorem definedAlong_zero (h : f.Straightens header bs φ) (hsplit : bs = pre ++ b :: post)
    (hr : (f.mapBlocks φ).jumpFlow.Reaches b.id)
    (ht : f.HandedOn b t ∨ t ∈ pre.flatMap fun c => (φ c).instrs.filterMap Instr.write) :
    (f.mapBlocks φ).DefinedAlong (f.mapBlocks φ).jumpFlow t (φ b) 0 := by
  have hb : b ∈ f.blocks := h.sub (by simp [hsplit])
  -- the header and the blocks in front stand on every way
  have hpass : ∀ c, c = header ∨ c ∈ pre → c ∈ f.blocks ∧ c.id ≠ b.id ∧
      ∀ vs, (f.mapBlocks φ).jumpFlow.Path b.id vs → c.id ∈ vs := by
    intro c hc
    have hne : c ≠ b := by
      rintro rfl
      rcases hc with rfl | hc
      · exact h.header_notMem (by simp [hsplit])
      · exact (List.nodup_middle.mp (hsplit ▸ h.nodup)).notMem (List.mem_append_left _ hc)
    have hcf : c ∈ f.blocks := hc.elim (fun e => e ▸ h.header_mem) fun hc => h.sub (by simp [hsplit, hc])
    refine ⟨hcf, fun e => hne (h.eq_of_id hcf hb e), fun vs p => ?_⟩
    obtain ⟨⟨ws, q, hsub, -⟩, hpre⟩ := (h.trace p).2 pre b post hsplit rfl
    rcases hc with rfl | hc
    · exact hsub q.mem
    · exact hpre c hc
  rcases ht with ⟨q, hq, hl, ht⟩ | ht
  · obtain ⟨-, hne, hq'⟩ := hpass q ((h.entered pre b post hsplit q hq hl).imp_left And.left)
    refine (h.definedAlong_length hq ht).passed (List.mem_map_of_mem hq) ?_ ?_ fun vs p => ?_
    · rwa [h.id_eq hq, h.id_eq hb]
    · rwa [h.id_eq hb]
    · rw [h.id_eq hb] at p
      rw [h.id_eq hq]
      exact hq' vs p
  · obtain ⟨c, hc, ht⟩ := List.mem_flatMap.mp ht
    obtain ⟨hcf, hne, hpaths⟩ := hpass c (.inr hc)
    refine .inr (.inr ⟨φ c, List.mem_map_of_mem hcf, ?_, List.mem_append_right _ ht, fun vs p => ?_⟩)
    · rwa [h.id_eq hcf, h.id_eq hb]
    · rw [h.id_eq hb] at p
      rw [h.id_eq hcf]
      exact hpaths vs p

/-! ### The function that is left -/

theorem reaches (h : f.Straightens header bs φ) (hb : b ∈ f.blocks) (hr : (f.mapBlocks φ).jumpFlow.Reaches b.id) :
    f.jumpFlow.Reaches b.id := by
  by_cases hbs : b ∈ bs
  · exact h.live b hbs
  · obtain ⟨vs, p⟩ := Flow.reaches_iff_exists_path.mp hr
    obtain ⟨ws, q, -⟩ := (h.trace p).1 ((h.within_iff hb).not.mpr hbs)
    exact q.reaches

/-- Blocks out of the order are jumped to as before. -/
theorem mem_targets (h : f.Straightens header bs φ) (hb : b ∈ f.blocks) (hbs : b ∉ bs) (hc : c ∈ f.blocks) :
    b.label ∈ (φ c).targets ↔ b.label ∈ c.targets := by
  by_cases hcbs : c ∈ bs
  · obtain ⟨pre, post, hsplit⟩ := List.append_of_mem hcbs
    rcases h.targets_cases hsplit with ⟨d, post', rfl, htargets⟩ | ⟨rfl, htargets⟩
    · -- neither the next block nor any other behind is the one
      have hno : ∀ a ∈ d :: post', a.label ≠ b.label := fun a ha e =>
        hbs (h.eq_of_id (h.sub (by simp [hsplit, ha])) hb (Label.ofBlock_injective e) ▸ by simp [hsplit, ha])
      rw [htargets, List.mem_singleton]
      refine iff_of_false (fun e => hno d List.mem_cons_self e.symm) fun hl => ?_
      rcases h.goesOn pre c (d :: post') hsplit _ hl with ⟨-, e⟩ | ⟨a, ha, e⟩
      · cases e
      · exact hno a ha e
    · rw [htargets]
  · rw [h.rest c hc hcbs]

/-- The terminator of a block of the order is well typed, and reads what has its value. -/
theorem jump_spec (h : f.Straightens header bs φ) (hsplit : bs = pre ++ b :: post) :
    (φ b).jump.isSome ∧ ∀ x ∈ (φ b).jump.toList, x.wellTyped = true ∧ ∀ t ∈ x.readTemps, t.isGlobal = false →
      (f.mapBlocks φ).DefinedAlong (f.mapBlocks φ).jumpFlow t (φ b) (φ b).instrs.length := by
  have hbs : b ∈ bs := by simp [hsplit]
  have hb := h.sub hbs
  cases post with
  | cons c post =>
    rw [h.next pre b c post hsplit]
    exact ⟨rfl, List.forall_mem_singleton.mpr ⟨rfl, fun t ht => nomatch ht⟩⟩
  | nil =>
    rw [h.back pre b hsplit]
    refine ⟨h.formed.terminated b hb, fun x hx => ?_⟩
    have hlast : (b.instrs ++ b.jump.toList)[b.instrs.length]? = some x := by
      obtain ⟨j, hj⟩ := Option.isSome_iff_exists.mp (h.formed.terminated b hb)
      rw [hj] at hx ⊢
      rw [List.mem_singleton.mp hx, Option.toList_some, List.getElem?_concat_length]
    refine ⟨h.formed.typed b hb (h.live b hbs) x (List.mem_append_right _ hx), fun t ht hlocal => ?_⟩
    exact h.definedAlong_length hb (h.formed.reads b hb (h.live b hbs) _ x hlast t ht hlocal)

/-- A function whose body is straightened is formed by its jumps if it was before. -/
theorem formedByJumps (h : f.Straightens header bs φ) : (f.mapBlocks φ).FormedByJumps := by
  have hback : ∀ {b : Block}, b ∈ f.blocks → (f.mapBlocks φ).jumpFlow.Reaches (φ b).id →
      (f.mapBlocks φ).jumpFlow.Reaches b.id ∧ f.jumpFlow.Reaches b.id := fun hb hr => by
    rw [h.id_eq hb] at hr
    exact ⟨hr, h.reaches hb hr⟩
  refine ⟨h.map_id ▸ h.formed.distinct, List.forall_mem_map.mpr fun b hb => ?_, List.forall_mem_map.mpr fun b hb l hl => ?_,
    List.forall_mem_map.mpr fun b hb p hp => ?_, h.fresh, List.forall_mem_map.mpr fun b hb hr => ?_,
    List.forall_mem_map.mpr fun b hb hr => closed_code_iff.mp ?_,
    List.forall_mem_map.mpr fun b hb hr p hp => List.forall_mem_map.mpr fun c hc hl hr' t ht hlocal => ?_⟩
  · by_cases hbs : b ∈ bs
    · obtain ⟨pre, post, hsplit⟩ := List.append_of_mem hbs
      exact (h.jump_spec hsplit).1
    · rw [h.rest b hb hbs]
      exact h.formed.terminated b hb
  · have hold : ∀ l ∈ b.targets, ∃ c ∈ (f.mapBlocks φ).blocks, c.label = l := fun l hl => by
      obtain ⟨c, hc, rfl⟩ := h.formed.target b hb l hl
      exact ⟨φ c, List.mem_map_of_mem hc, h.label_eq hc⟩
    by_cases hbs : b ∈ bs
    · obtain ⟨pre, post, hsplit⟩ := List.append_of_mem hbs
      rcases h.targets_cases hsplit with ⟨c, post', rfl, htargets⟩ | ⟨-, htargets⟩
      · have hc : c ∈ f.blocks := h.sub (by simp [hsplit])
        exact ⟨φ c, List.mem_map_of_mem hc, (h.label_eq hc).trans (List.mem_singleton.mp (htargets ▸ hl)).symm⟩
      · exact hold l (htargets ▸ hl)
    · exact hold l (h.rest b hb hbs ▸ hl)
  · by_cases hbs : b ∈ bs
    · rw [h.phis b hbs] at hp
      cases hp
    rw [h.rest b hb hbs] at hp ⊢
    obtain ⟨hnodup, hlabels⟩ := h.formed.phis b hb p hp
    refine ⟨hnodup, fun l => (hlabels l).trans ⟨?_, ?_⟩⟩
    · rintro ⟨c, hc, hl, rfl⟩
      exact ⟨φ c, List.mem_map_of_mem hc, (h.mem_targets hb hbs hc).mpr hl, h.label_eq hc⟩
    · rintro ⟨_, hmem, hl, rfl⟩
      obtain ⟨c, hc, rfl⟩ := List.mem_map.mp hmem
      exact ⟨c, hc, (h.mem_targets hb hbs hc).mp hl, (h.label_eq hc).symm⟩
  · by_cases hbs : b ∈ bs
    · obtain ⟨pre, post, hsplit⟩ := List.append_of_mem hbs
      exact List.forall_mem_append.mpr ⟨h.typed b hbs, fun x hx => ((h.jump_spec hsplit).2 x hx).1⟩
    · rw [h.rest b hb hbs]
      exact h.formed.typed b hb (hback hb hr).2
  · obtain ⟨hr, hrf⟩ := hback hb hr
    by_cases hbs : b ∈ bs
    · obtain ⟨pre, post, hsplit⟩ := List.append_of_mem hbs
      refine Instr.closed_append.mpr ⟨(h.closed pre b post hsplit).mono fun t => h.definedAlong_zero hsplit hr, ?_⟩
      obtain ⟨j, hj⟩ := Option.isSome_iff_exists.mp (h.jump_spec hsplit).1
      have hreads := (h.jump_spec hsplit).2
      rw [hj] at hreads ⊢
      refine Instr.closed_singleton.mpr fun t ht hlocal => ?_
      have := definedAlong_iff.mp ((hreads j (List.mem_singleton_self j)).2 t ht hlocal)
      rwa [List.take_length] at this
    · have hcode := closed_code_iff.mpr fun pos x => h.formed.reads b hb hrf pos x
      have hkept : ∀ t, f.DefinedAlong f.jumpFlow t b 0 →
          (f.mapBlocks φ).DefinedAlong (f.mapBlocks φ).jumpFlow t (φ b) 0 := fun t =>
        h.definedAlong hb fun ht => (h.rest b hb hbs).symm ▸ ht
      rw [h.rest b hb hbs] at hkept ⊢
      exact hcode.mono hkept
  · by_cases hbs : b ∈ bs
    · rw [h.phis b hbs] at hp
      cases hp
    rw [h.label_eq hb, h.mem_targets hb hbs hc] at hl
    rw [h.rest b hb hbs] at hp
    rw [h.label_eq hc] at ht
    exact h.definedAlong_length hc (h.formed.incoming b hb (hback hb hr).2 p hp c hc hl (hback hc hr').2 t ht hlocal)

end Straightens

end Func

end LoopLanes
