/-
A block between two others.

A block is put on the way from one block to another: the first one jumps to it instead, and it jumps on.  A path
through the function that is left, without the new block, is a path as before (`Interposes.path`), so what had
its value has it still, and the new block may read what had its value at the end of the first one.

* `Interposes.formedByJumps` — the function that is left is formed by its jumps if it was before;
* `Interposes.mem_of_leaves` — where the new block is the only way out of a part of the function, who passed the
  first block outside of that part passed the new one.
-/
import Mathlib.Data.List.InsertIdx
import LoopLanes.Proofs.Cfg.Edits
import LoopLanes.Proofs.Cfg.Recasts

namespace LoopLanes

namespace Func

variable {f : Func} {source target : Block} {b c d : Block} {t : Temp} {l : Label} {pos place : Nat} {v : Int}
  {vs : List Int}

/-! ### The blocks -/

/-- A block once another one stands on the way from a source to a target: the source jumps to it, and phis of the
target take in from it what they took in from the source. -/
def onward (source target : BlockRef) (new : Label) (c : Block) : Block :=
  let c := if c.ref == source then c.renameTargets (renameOne target.label new) else c
  if c.ref == target then c.renameIncoming (renameOne source.label new) else c

/-- A function with a block on the way from a source to a target. -/
def interpose (f : Func) (source target : BlockRef) (place : Nat) (d : Block) : Func :=
  { f with blocks := (f.blocks.map (onward source target d.label)).insertIdx place d }

section Onward

variable {r s : BlockRef} {new : Label}

theorem ref_onward : (onward r s new c).ref = c.ref := by
  unfold onward
  dsimp only
  split <;> split <;> rfl

theorem id_onward : (onward r s new c).id = c.id := congrArg BlockRef.number ref_onward

theorem label_onward : (onward r s new c).label = c.label := congrArg BlockRef.label ref_onward

theorem instrs_onward : (onward r s new c).instrs = c.instrs := by
  unfold onward
  dsimp only
  split <;> split <;> rfl

theorem jump_onward : (onward r s new c).jump =
    if c.ref = r then c.jump.map (·.renameLabels (renameOne s.label new)) else c.jump := by
  unfold onward
  simp only [beq_iff_eq]
  split <;> split <;> rfl

theorem phis_onward : (onward r s new c).phis =
    if c.ref = s then c.phis.map (·.renameLabels (renameOne r.label new)) else c.phis := by
  have href : (if c.ref = r then c.renameTargets (renameOne s.label new) else c).ref = c.ref := by split <;> rfl
  unfold onward
  simp only [beq_iff_eq, href]
  split <;> split <;> rfl

theorem targets_onward : (onward r s new c).targets =
    if c.ref = r then c.targets.map (renameOne s.label new) else c.targets := by
  have hjump : (onward r s new c).jump = _ := jump_onward
  split
  · rw [if_pos ‹_›] at hjump
    exact Block.targets_of_jump (Instr.targets_renameLabels _) hjump
  · rw [if_neg ‹_›] at hjump
    rw [Block.targets, hjump, Block.targets]

theorem map_target_onward : (onward r s new c).phis.map (·.target) = c.phis.map (·.target) := by
  rw [phis_onward]
  split
  · rw [List.map_map]
    rfl
  · rfl

theorem writesBefore_onward : (onward r s new c).writesBefore pos = c.writesBefore pos := by
  rw [Block.writesBefore, map_target_onward, instrs_onward, Block.writesBefore]

theorem writes_onward : (onward r s new c).writes = c.writes := by
  rw [Block.writes, map_target_onward, instrs_onward, Block.writes]

/-- The terminator reads what it read. -/
theorem exists_jump_onward (r s : BlockRef) (new : Label) {j : Instr} (hj : c.jump = some j) : ∃ k, (onward r s new c).jump = some k ∧
    k.readTemps = j.readTemps ∧ k.wellTyped = j.wellTyped := by
  rw [jump_onward, hj]
  split
  · exact ⟨_, rfl, congrArg (List.filterMap Value.temp?) j.reads_renameLabels, j.wellTyped_renameLabels⟩
  · exact ⟨j, rfl, rfl, rfl⟩

end Onward

/-! ### A block that may be put in -/

/-- A block that may be put on the way from a source to a target: it is new, goes on to the target, and its code is
closed over what has its value at the end of the source. -/
structure Interposes (f : Func) (source target : Block) (place : Nat) (d : Block) : Prop where
  formed : f.FormedByJumps
  source_mem : source ∈ f.blocks
  target_mem : target ∈ f.blocks
  edge : target.label ∈ source.targets
  place_ne : place ≠ 0
  place_le : place ≤ f.blocks.length
  new : ∀ c ∈ f.blocks, c.id ≠ d.id
  phis : d.phis = []
  jump : d.jump = some (.jump target.label)
  fresh : (f.params ++ writesOf f.blocks ++ d.instrs.filterMap Instr.write).Nodup
  typed : ∀ x ∈ d.instrs, x.wellTyped = true
  closed : f.jumpFlow.Reaches source.id →
    Instr.Closed (fun t => f.DefinedAlong f.jumpFlow t source source.instrs.length) d.instrs

namespace Interposes

theorem mem_iff (h : f.Interposes source target place d) : b ∈ (f.interpose source.ref target.ref place d).blocks ↔
    b = d ∨ ∃ c ∈ f.blocks, onward source.ref target.ref d.label c = b := by
  have hle : place ≤ (f.blocks.map (onward source.ref target.ref d.label)).length := by
    rw [List.length_map]
    exact h.place_le
  rw [interpose, List.mem_insertIdx hle, List.mem_map]

theorem perm (h : f.Interposes source target place d) : (f.interpose source.ref target.ref place d).blocks.Perm
    (d :: f.blocks.map (onward source.ref target.ref d.label)) :=
  List.perm_insertIdx _ _ (by rw [List.length_map]; exact h.place_le)

theorem targets_new (h : f.Interposes source target place d) : d.targets = [target.label] := by
  rw [Block.targets, h.jump]
  rfl

theorem label_ne (h : f.Interposes source target place d) (hc : c ∈ f.blocks) : c.label ≠ d.label := fun e =>
  h.new c hc (Label.ofBlock_injective e)

/-- The new block is jumped to by the source alone. -/
theorem label_mem_targets (h : f.Interposes source target place d) (hc : c ∈ f.blocks) :
    d.label ∈ (onward source.ref target.ref d.label c).targets ↔ c = source := by
  rw [targets_onward]
  constructor
  · intro hl
    split at hl
    · exact eq_of_id_eq h.formed.distinct hc h.source_mem (congrArg BlockRef.number ‹_›)
    · obtain ⟨e, he, hel⟩ := h.formed.target c hc _ hl
      exact absurd hel (h.label_ne he)
  · rintro rfl
    rw [if_pos rfl]
    exact List.mem_map.mpr ⟨target.label, h.edge, if_pos (beq_self_eq_true _)⟩

/-- The blocks of before are jumped to as before, but for the way from the source to the target. -/
theorem mem_targets (h : f.Interposes source target place d) (hb : b ∈ f.blocks) (hc : c ∈ f.blocks) :
    b.label ∈ (onward source.ref target.ref d.label c).targets ↔ b.label ∈ c.targets ∧ ¬ (c = source ∧ b = target) := by
  rw [targets_onward]
  split
  · have hcs : c = source := eq_of_id_eq h.formed.distinct hc h.source_mem (congrArg BlockRef.number ‹_›)
    rw [List.mem_map]
    constructor
    · rintro ⟨k, hk, e⟩
      unfold renameOne at e
      split at e
      · exact absurd e.symm (h.label_ne hb)
      · subst e
        refine ⟨hk, ?_⟩
        rintro ⟨-, rfl⟩
        exact ‹¬ _› (beq_self_eq_true _)
    · rintro ⟨hk, hno⟩
      refine ⟨b.label, hk, if_neg fun e => hno ⟨hcs, ?_⟩⟩
      exact eq_of_id_eq h.formed.distinct hb h.target_mem (Label.ofBlock_injective (beq_iff_eq.mp e))
  · refine (and_iff_left ?_).symm
    rintro ⟨rfl, -⟩
    exact ‹¬ _› rfl

/-- Jumps lead to the new block or to those of before. -/
theorem exists_target (h : f.Interposes source target place d)
    (hb : b ∈ (f.interpose source.ref target.ref place d).blocks) (hl : l ∈ b.targets) :
    l = d.label ∨ ∃ c ∈ f.blocks, c.label = l := by
  rcases h.mem_iff.mp hb with rfl | ⟨c, hc, rfl⟩
  · rw [h.targets_new, List.mem_singleton] at hl
    exact .inr ⟨target, h.target_mem, hl.symm⟩
  rw [targets_onward] at hl
  split at hl
  · obtain ⟨k, hk, rfl⟩ := List.mem_map.mp hl
    unfold renameOne
    split
    · exact .inl rfl
    · exact .inr (h.formed.target c hc k hk)
  · exact .inr (h.formed.target c hc l hl)

/-! ### Paths -/

theorem root_iff (h : f.Interposes source target place d) :
    (f.interpose source.ref target.ref place d).jumpFlow.root v ↔ f.jumpFlow.root v := by
  obtain ⟨k, hk⟩ := Nat.exists_eq_succ_of_ne_zero h.place_ne
  cases hbs : f.blocks with
  | nil => exact absurd h.source_mem (by simp [hbs])
  | cons b bs => simp [jumpFlow, roots, interpose, hbs, hk, id_onward]

/-- An edge is one of before, or leads to the new block or away from it. -/
theorem edge_cases (h : f.Interposes source target place d) {u w : Int}
    (e : (f.interpose source.ref target.ref place d).jumpFlow.edge u w) :
    u = source.id ∧ w = d.id ∨ u = d.id ∧ w = target.id ∨
      u ≠ d.id ∧ w ≠ d.id ∧ f.jumpFlow.edge u w ∧ ¬ (u = source.id ∧ w = target.id) := by
  obtain ⟨b, hb, rfl, hl⟩ := e
  rcases h.mem_iff.mp hb with rfl | ⟨c, hc, rfl⟩
  · rw [h.targets_new, List.mem_singleton] at hl
    exact .inr (.inl ⟨rfl, Label.ofBlock_injective hl⟩)
  rw [id_onward]
  by_cases hw : w = d.id
  · subst hw
    exact .inl ⟨congrArg Block.id ((h.label_mem_targets hc).mp hl), rfl⟩
  · obtain ⟨e, he, hel⟩ := (h.exists_target hb hl).resolve_left fun e => hw (Label.ofBlock_injective e)
    obtain rfl : e.id = w := Label.ofBlock_injective hel
    obtain ⟨hk, hno⟩ := (h.mem_targets he hc).mp hl
    refine .inr (.inr ⟨h.new c hc, hw, ⟨c, hc, rfl, hk⟩, fun ⟨hs, ht⟩ => hno ⟨?_, ?_⟩⟩)
    · exact eq_of_id_eq h.formed.distinct hc h.source_mem hs
    · exact eq_of_id_eq h.formed.distinct he h.target_mem ht

/-- Without the new block a path is one of before; to the new block it leads by the source. -/
theorem path (h : f.Interposes source target place d)
    (p : (f.interpose source.ref target.ref place d).jumpFlow.Path v vs) :
    f.jumpFlow.Path (if v = d.id then source.id else v) (vs.filter (· ≠ d.id)) := by
  have hsource : source.id ≠ d.id := h.new source h.source_mem
  have htarget : target.id ≠ d.id := h.new target h.target_mem
  induction p with
  | @root r hr =>
    have hr' := h.root_iff.mp hr
    have hne : r ≠ d.id := by
      obtain ⟨b, hb, rfl⟩ := hr'
      refine h.new b ?_
      cases hbs : f.blocks <;> simp_all [roots]
    rw [if_neg hne, List.filter_singleton]
    simpa [hne] using Flow.Path.root hr'
  | @step u w vs _ e ih =>
    rcases h.edge_cases e with ⟨rfl, rfl⟩ | ⟨rfl, rfl⟩ | ⟨hu, hw, he, -⟩
    · rw [if_neg hsource] at ih
      rw [if_pos rfl, List.filter_cons_of_neg (by simp)]
      exact ih
    · rw [if_pos rfl] at ih
      rw [if_neg htarget, List.filter_cons_of_pos (by simpa using htarget)]
      exact ih.step ((jumpFlow_edge h.formed.distinct h.source_mem).mpr h.edge)
    · rw [if_neg hu] at ih
      rw [if_neg hw, List.filter_cons_of_pos (by simpa using hw)]
      exact ih.step he

/-- What was not reached is not reached now. -/
theorem reaches (h : f.Interposes source target place d)
    (hr : (f.interpose source.ref target.ref place d).jumpFlow.Reaches v) :
    f.jumpFlow.Reaches (if v = d.id then source.id else v) := by
  obtain ⟨vs, p⟩ := Flow.reaches_iff_exists_path.mp hr
  exact (h.path p).reaches

/-- Outside of a part of the function that is left from the source alone, and to the target alone, who passed the
source passed the new block. -/
theorem mem_of_leaves (h : f.Interposes source target place d) {S : Int → Prop} (hS : S source.id)
    (hleaves : ∀ u w, S u → f.jumpFlow.edge u w → S w ∨ u = source.id ∧ w = target.id)
    (p : (f.interpose source.ref target.ref place d).jumpFlow.Path v vs) (hv : ¬ S v) (hmem : source.id ∈ vs) :
    d.id ∈ vs := by
  suffices key : source.id ∈ vs → d.id ∈ vs ∨ S v from (key hmem).resolve_right hv
  clear hv hmem
  induction p with
  | root _ =>
    intro hmem
    rw [List.mem_singleton] at hmem
    exact .inr (hmem ▸ hS)
  | @step u w vs _ e ih =>
    intro hmem
    rcases List.mem_cons.mp hmem with rfl | hmem
    · exact .inr hS
    rcases ih hmem with hd | hu
    · exact .inl (List.mem_cons_of_mem _ hd)
    rcases h.edge_cases e with ⟨-, rfl⟩ | ⟨rfl, -⟩ | ⟨-, -, he, hno⟩
    · exact .inl List.mem_cons_self
    · exact .inl (List.mem_cons_of_mem _ ‹Flow.Path _ _ _›.mem)
    · exact .inr ((hleaves u w hu he).resolve_right hno)

/-! ### Values -/

/-- What had its value at a place has it there still. -/
theorem definedAlong (h : f.Interposes source target place d) (hc : c ∈ f.blocks)
    (ht : f.DefinedAlong f.jumpFlow t c pos) :
    (f.interpose source.ref target.ref place d).DefinedAlong
      (f.interpose source.ref target.ref place d).jumpFlow t (onward source.ref target.ref d.label c) pos := by
  rcases ht with ht | ht | ⟨e, he, hne, ht, hpaths⟩
  · exact .inl ht
  · exact .inr (.inl (by rwa [writesBefore_onward]))
  · refine .inr (.inr ⟨_, h.mem_iff.mpr (.inr ⟨e, he, rfl⟩), ?_, by rwa [writes_onward], fun vs p => ?_⟩)
    · rwa [id_onward, id_onward]
    · have hpath := h.path p
      rw [id_onward, if_neg (h.new c hc)] at hpath
      rw [id_onward]
      exact (List.mem_filter.mp (hpaths _ hpath)).1

/-- What had its value at the end of the source has it in the new block. -/
theorem definedAlong_new (h : f.Interposes source target place d)
    (ht : f.DefinedAlong f.jumpFlow t source source.instrs.length) :
    (f.interpose source.ref target.ref place d).DefinedAlong
      (f.interpose source.ref target.ref place d).jumpFlow t d pos := by
  have hpath : ∀ vs, (f.interpose source.ref target.ref place d).jumpFlow.Path d.id vs →
      f.jumpFlow.Path source.id (vs.filter (· ≠ d.id)) := fun vs p => by
    have := h.path p
    rwa [if_pos rfl] at this
  rcases ht with ht | ht | ⟨e, he, -, ht, hpaths⟩
  · exact .inl ht
  · refine .inr (.inr ⟨_, h.mem_iff.mpr (.inr ⟨source, h.source_mem, rfl⟩), ?_, ?_, fun vs p => ?_⟩)
    · rw [id_onward]
      exact h.new source h.source_mem
    · rwa [writes_onward, ← Block.writesBefore_length]
    · rw [id_onward]
      exact (List.mem_filter.mp (hpath vs p).mem).1
  · refine .inr (.inr ⟨_, h.mem_iff.mpr (.inr ⟨e, he, rfl⟩), ?_, by rwa [writes_onward], fun vs p => ?_⟩)
    · rw [id_onward]
      exact h.new e he
    · rw [id_onward]
      exact (List.mem_filter.mp (hpaths _ (hpath vs p))).1

/-- The phis of the blocks of before have an entry for each block that jumps there. -/
theorem labels_onward (h : f.Interposes source target place d) (hc : c ∈ f.blocks) {p : Phi}
    (hp : p ∈ (onward source.ref target.ref d.label c).phis) : (p.incoming.map (·.2)).Nodup ∧
      ∀ l, l ∈ p.incoming.map (·.2) ↔ ∃ b ∈ (f.interpose source.ref target.ref place d).blocks,
        c.label ∈ b.targets ∧ b.label = l := by
  have hjumps : ∀ l, (∃ b ∈ (f.interpose source.ref target.ref place d).blocks, c.label ∈ b.targets ∧ b.label = l) ↔
      c = target ∧ d.label = l ∨ ∃ b ∈ f.blocks, (c.label ∈ b.targets ∧ ¬ (b = source ∧ c = target)) ∧ b.label = l := by
    intro l
    constructor
    · rintro ⟨e, he, hl, rfl⟩
      rcases h.mem_iff.mp he with rfl | ⟨b, hb, rfl⟩
      · rw [h.targets_new, List.mem_singleton] at hl
        exact .inl ⟨eq_of_id_eq h.formed.distinct hc h.target_mem (Label.ofBlock_injective hl), rfl⟩
      · exact .inr ⟨b, hb, (h.mem_targets hc hb).mp hl, label_onward.symm⟩
    · rintro (⟨rfl, rfl⟩ | ⟨b, hb, hl, rfl⟩)
      · refine ⟨d, h.mem_iff.mpr (.inl rfl), ?_, rfl⟩
        rw [h.targets_new]
        exact List.mem_singleton_self _
      · exact ⟨_, h.mem_iff.mpr (.inr ⟨b, hb, rfl⟩), (h.mem_targets hc hb).mpr hl, label_onward⟩
  rw [phis_onward] at hp
  split at hp
  · obtain rfl := eq_of_id_eq h.formed.distinct hc h.target_mem (congrArg BlockRef.number ‹_›)
    obtain ⟨q, hq, rfl⟩ := List.mem_map.mp hp
    obtain ⟨hnodup, hlabels⟩ := h.formed.phis c hc q hq
    have hmap : (q.renameLabels (renameOne source.ref.label d.label)).incoming.map (·.2) =
        (q.incoming.map (·.2)).map (renameOne source.ref.label d.label) := by
      rw [Phi.renameLabels, List.map_map, List.map_map]
      rfl
    have hold : ∀ l ∈ q.incoming.map (·.2), l ≠ d.label := fun l hl e => by
      obtain ⟨b, hb, -, rfl⟩ := (hlabels l).mp hl
      exact h.label_ne hb e
    rw [hmap]
    refine ⟨List.Nodup.map_on (fun l hl l' hl' e => ?_) hnodup, fun l => ?_⟩
    · unfold renameOne at e
      split at e <;> split at e
      · rename_i e₁ e₂
        exact (beq_iff_eq.mp e₁).trans (beq_iff_eq.mp e₂).symm
      · exact absurd e.symm (hold l' hl')
      · exact absurd e (hold l hl)
      · exact e
    · rw [hjumps, List.mem_map]
      constructor
      · rintro ⟨k, hk, rfl⟩
        obtain ⟨b, hb, hl, rfl⟩ := (hlabels k).mp hk
        unfold renameOne
        split
        · exact .inl ⟨rfl, rfl⟩
        · refine .inr ⟨b, hb, ⟨hl, ?_⟩, rfl⟩
          rintro ⟨rfl, -⟩
          exact ‹¬ _› (beq_self_eq_true _)
      · rintro (⟨-, rfl⟩ | ⟨b, hb, ⟨hl, hno⟩, rfl⟩)
        · exact ⟨source.label, (hlabels _).mpr ⟨source, h.source_mem, h.edge, rfl⟩, if_pos (beq_self_eq_true _)⟩
        · refine ⟨b.label, (hlabels _).mpr ⟨b, hb, hl, rfl⟩, if_neg fun e => hno ⟨?_, rfl⟩⟩
          exact eq_of_id_eq h.formed.distinct hb h.source_mem (Label.ofBlock_injective (beq_iff_eq.mp e))
  · obtain ⟨hnodup, hlabels⟩ := h.formed.phis c hc p hp
    have hne : c ≠ target := by
      rintro rfl
      exact ‹¬ _› rfl
    refine ⟨hnodup, fun l => (hlabels l).trans ((hjumps l).trans ?_).symm⟩
    simp [hne]

/-- An entry of a phi was one of the phi before, from the same block, or from the source if it is from the new one. -/
theorem exists_entry (h : f.Interposes source target place d) (hc : c ∈ f.blocks) {p : Phi}
    (hp : p ∈ (onward source.ref target.ref d.label c).phis) {e : Value × Label} (he : e ∈ p.incoming) :
    ∃ q ∈ c.phis, e ∈ q.incoming ∧ e.2 ≠ d.label ∨ e.2 = d.label ∧ c = target ∧ (e.1, source.label) ∈ q.incoming := by
  have hold : ∀ q ∈ c.phis, ∀ e ∈ q.incoming, e.2 ≠ d.label := fun q hq e he hl => by
    obtain ⟨b, hb, -, e⟩ := ((h.formed.phis c hc q hq).2 e.2).mp (List.mem_map_of_mem he)
    exact h.label_ne hb (e.trans hl)
  rw [phis_onward] at hp
  split at hp
  · obtain rfl := eq_of_id_eq h.formed.distinct hc h.target_mem (congrArg BlockRef.number ‹_›)
    obtain ⟨q, hq, rfl⟩ := List.mem_map.mp hp
    obtain ⟨o, ho, rfl⟩ := List.mem_map.mp he
    refine ⟨q, hq, ?_⟩
    unfold renameOne
    dsimp only
    split
    · rename_i hl
      refine .inr ⟨rfl, rfl, ?_⟩
      rwa [← show o.2 = source.label from beq_iff_eq.mp hl]
    · exact .inl ⟨ho, hold q hq o ho⟩
  · exact ⟨p, hp, .inl ⟨he, hold p hp e he⟩⟩

/-- A function with a block put in is formed by its jumps if it was before. -/
theorem formedByJumps (h : f.Interposes source target place d) :
    (f.interpose source.ref target.ref place d).FormedByJumps := by
  have hreaches : ∀ {c : Block}, c ∈ f.blocks →
      (f.interpose source.ref target.ref place d).jumpFlow.Reaches (onward source.ref target.ref d.label c).id →
        f.jumpFlow.Reaches c.id := fun {c} hc hr => by
    have := h.reaches hr
    rwa [id_onward, if_neg (h.new c hc)] at this
  have hnew : (f.interpose source.ref target.ref place d).jumpFlow.Reaches d.id → f.jumpFlow.Reaches source.id :=
    fun hr => by
      have := h.reaches hr
      rwa [if_pos rfl] at this
  refine ⟨?_, fun b hb => ?_, fun b hb l hl => ?_, fun b hb p hp => ?_, ?_, fun b hb hr => ?_, fun b hb hr => ?_,
    fun b hb hr p hp c hc hl hr' t ht hlocal => ?_⟩
  · refine ((h.perm.map Block.id).nodup_iff).mpr (List.nodup_cons.mpr ⟨fun hmem => ?_, ?_⟩)
    · obtain ⟨_, hmem, e⟩ := List.mem_map.mp hmem
      obtain ⟨c, hc, rfl⟩ := List.mem_map.mp hmem
      exact h.new c hc (id_onward.symm.trans e)
    · rw [List.map_map]
      exact (List.map_congr_left (f := Block.id) fun c _ => id_onward.symm) ▸ h.formed.distinct
  · rcases h.mem_iff.mp hb with rfl | ⟨c, hc, rfl⟩
    · rw [h.jump]
      rfl
    · rw [jump_onward]
      split
      · rw [Option.isSome_map]
        exact h.formed.terminated c hc
      · exact h.formed.terminated c hc
  · rcases h.exists_target hb hl with rfl | ⟨e, he, rfl⟩
    · exact ⟨d, h.mem_iff.mpr (.inl rfl), rfl⟩
    · exact ⟨_, h.mem_iff.mpr (.inr ⟨e, he, rfl⟩), label_onward⟩
  · rcases h.mem_iff.mp hb with rfl | ⟨c, hc, rfl⟩
    · rw [h.phis] at hp
      cases hp
    · rw [label_onward]
      exact h.labels_onward hc hp
  · have hwrites : writesOf (f.blocks.map (onward source.ref target.ref d.label)) = writesOf f.blocks := by
      rw [writesOf, List.flatMap_map, writesOf]
      exact List.flatMap_congr fun c _ => writes_onward
    have hperm : (writesOf (f.interpose source.ref target.ref place d).blocks).Perm
        (writesOf f.blocks ++ d.instrs.filterMap Instr.write) := by
      refine (h.perm.flatMap_right Block.writes).trans ?_
      rw [List.flatMap_cons, Block.writes, h.phis]
      exact (List.perm_append_comm.trans (hwrites ▸ .refl _))
    refine (hperm.append_left f.params).nodup_iff.mpr ?_
    rw [← List.append_assoc]
    exact h.fresh
  · rcases h.mem_iff.mp hb with rfl | ⟨c, hc, rfl⟩
    · rw [h.jump]
      exact List.forall_mem_append.mpr ⟨h.typed, List.forall_mem_singleton.mpr rfl⟩
    · obtain ⟨j, hj⟩ := Option.isSome_iff_exists.mp (h.formed.terminated c hc)
      obtain ⟨k, hk, -, htyped⟩ := exists_jump_onward source.ref target.ref d.label hj
      have hold := h.formed.typed c hc (hreaches hc hr)
      rw [hj] at hold
      rw [instrs_onward, hk]
      refine List.forall_mem_append.mpr ⟨fun x hx => hold x (List.mem_append_left _ hx), List.forall_mem_singleton.mpr ?_⟩
      exact htyped.trans (hold j (List.mem_append_right _ (List.mem_singleton_self _)))
  · rcases h.mem_iff.mp hb with rfl | ⟨c, hc, rfl⟩
    · refine closed_code_iff.mp (Instr.closed_append.mpr ⟨?_, ?_⟩)
      · exact (h.closed (hnew hr)).mono fun t ht => h.definedAlong_new ht
      · rw [h.jump]
        exact Instr.closed_singleton.mpr (List.forall_mem_nil _)
    · obtain ⟨j, hj⟩ := Option.isSome_iff_exists.mp (h.formed.terminated c hc)
      obtain ⟨k, hk, hreads, -⟩ := exists_jump_onward source.ref target.ref d.label hj
      have hold := closed_code_iff.mpr fun pos x => h.formed.reads c hc (hreaches hc hr) pos x
      rw [hj] at hold
      obtain ⟨hinstrs, hjump⟩ := Instr.closed_append.mp hold
      refine closed_code_iff.mp ?_
      rw [instrs_onward, hk]
      refine Instr.closed_append.mpr ⟨hinstrs.mono fun t => h.definedAlong hc, Instr.closed_singleton.mpr ?_⟩
      rw [hreads]
      exact fun t ht hlocal => (Instr.closed_singleton.mp hjump t ht hlocal).imp_left (h.definedAlong hc)
  · rcases h.mem_iff.mp hb with rfl | ⟨e, he, rfl⟩
    · rw [h.phis] at hp
      cases hp
    rw [label_onward] at hl
    obtain ⟨q, hq, ⟨hin, hne⟩ | ⟨hnew', rfl, hin⟩⟩ := h.exists_entry he hp ht
    · rcases h.mem_iff.mp hc with rfl | ⟨o, ho, rfl⟩
      · exact absurd rfl hne
      · rw [label_onward] at hin
        rw [instrs_onward]
        exact h.definedAlong ho (h.formed.incoming e he (hreaches he hr) q hq o ho ((h.mem_targets he ho).mp hl).1
          (hreaches ho hr') t hin hlocal)
    · rcases h.mem_iff.mp hc with rfl | ⟨o, ho, rfl⟩
      · exact h.definedAlong_new (h.formed.incoming e he (hreaches he hr) q hq source h.source_mem h.edge
          (hnew hr') t hin hlocal)
      · exact absurd (label_onward.symm.trans hnew') (h.label_ne ho)

end Interposes

end Func

end LoopLanes
