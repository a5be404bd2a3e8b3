/-
What edits leave in place.

An edit of one block is seen through the links: `linked?_modify` says which block a link leads to
afterwards.  Rebuilding the links changes nothing else about the blocks
(`map_clearLinks_resolveLinks`).
-/
import LoopLanes.Cfg.Edit
import LoopLanes.Proofs.Cfg.Links
import LoopLanes.Proofs.Text.Decimal

namespace LoopLanes

/-! ### Instructions that are changed -/

theorem Instr.targets_renameLabels (ρ : Label → Label) (x : Instr) :
    (x.renameLabels ρ).targets = x.targets.map ρ := by
  cases x <;> rfl

theorem Instr.reads_renameLabels {ρ : Label → Label} (x : Instr) : (x.renameLabels ρ).reads = x.reads := by
  induction x with
  | vec w mask inner ih => simp [renameLabels, reads, ih]
  | phi p => simp [renameLabels, reads, Phi.renameLabels, Phi.reads, Function.comp_def]
  | _ => rfl

theorem Instr.wellTyped_renameLabels {ρ : Label → Label} (x : Instr) : (x.renameLabels ρ).wellTyped = x.wellTyped := by
  induction x with
  | vec w mask inner ih => exact ih
  | phi p => simp [renameLabels, wellTyped, Phi.renameLabels, Phi.wellTyped, Function.comp_def]
  | _ => rfl

theorem Instr.targets_subst (σ : Temp → Option Value) (x : Instr) : (x.subst σ).targets = x.targets := by
  cases x <;> rfl

theorem Instr.write_subst (σ : Temp → Option Value) (x : Instr) : (x.subst σ).write = x.write := by
  induction x with
  | vec width mask inner ih => exact ih
  | _ => rfl

theorem Instr.isVector_subst (σ : Temp → Option Value) (x : Instr) : (x.subst σ).isVector = x.isVector := by
  cases x <;> rfl

theorem Instr.reads_subst (σ : Temp → Option Value) (x : Instr) : (x.subst σ).reads = x.reads.map (·.subst σ) := by
  induction x with
  | phi p => simp [subst, reads, Phi.reads, Phi.subst]
  | ret v => cases v <;> simp [subst, reads]
  | call t ty callee args => simp [subst, reads]
  | vec width mask inner ih => cases mask <;> simp [subst, reads, ih]
  | _ => simp [subst, reads]

theorem Phi.reads_renameLabels (ρ : Label → Label) (p : Phi) : (p.renameLabels ρ).reads = p.reads := by
  simp [reads, renameLabels]

theorem Block.targets_of_jump {b c : Block} {u : Instr → Instr} {ρ : Label → Label}
    (hu : ∀ x, (u x).targets = x.targets.map ρ) (hjump : c.jump = b.jump.map u) : c.targets = b.targets.map ρ := by
  rw [Block.targets, Block.targets, hjump]
  cases b.jump with
  | none => rfl
  | some x => exact hu x

theorem Block.targets_renameTargets (ρ : Label → Label) (b : Block) : (b.renameTargets ρ).targets = b.targets.map ρ :=
  targets_of_jump (Instr.targets_renameLabels ρ) rfl

/-! ### Phis that take in other values -/

namespace Phi

variable {k : Label} {v : Value} {target : Temp} {q : Phi}

theorem labels_setEntries : ∀ {es : List (Value × Label)}, k ∈ es.map (·.2) →
    (setEntries k v es).map (·.2) = es.map (·.2) := by
  intro es
  induction es with
  | nil => simp
  | cons e es ih =>
    obtain ⟨w, j⟩ := e
    intro h
    by_cases hj : j = k
    · simp [setEntries, hj]
    · have hk : k ∈ es.map (·.2) := (List.mem_cons.mp h).resolve_left (Ne.symm hj)
      simp [setEntries, hj, ih hk]

theorem mem_setEntries {e : Value × Label} : ∀ {es : List (Value × Label)}, e ∈ setEntries k v es →
    e ∈ es ∨ e = (v, k) := by
  intro es
  induction es with
  | nil => simp [setEntries]
  | cons d es ih =>
    obtain ⟨w, j⟩ := d
    intro h
    by_cases hj : j = k
    · rw [setEntries, if_pos (by simpa using hj), hj] at h
      exact (List.mem_cons.mp h).symm.imp_left (List.mem_cons_of_mem _)
    · rw [setEntries, if_neg (by simpa using hj)] at h
      rcases List.mem_cons.mp h with rfl | h
      · exact .inl List.mem_cons_self
      · exact (ih h).imp_left (List.mem_cons_of_mem _)

theorem map_target_setIn (target : Temp) (l : Label) (v : Value) : ∀ ps : List Phi,
    (setIn target l v ps).map (·.target) = ps.map (·.target) := by
  intro ps
  induction ps with
  | nil => rfl
  | cons p ps ih =>
    simp only [setIn]
    split
    · rfl
    · simp [ih]

/-- Setting an entry of one phi leaves the others. -/
theorem exists_of_mem_setIn : ∀ {ps : List Phi}, q ∈ setIn target k v ps →
    q ∈ ps ∨ ∃ p ∈ ps, p.target = target ∧ q = p.setIncoming k v := by
  intro ps
  induction ps with
  | nil => simp [setIn]
  | cons p ps ih =>
    intro h
    rw [setIn] at h
    split at h
    · rename_i e
      rcases List.mem_cons.mp h with rfl | h
      · exact .inr ⟨p, List.mem_cons_self, beq_iff_eq.mp e, rfl⟩
      · exact .inl (List.mem_cons_of_mem _ h)
    · rcases List.mem_cons.mp h with rfl | h
      · exact .inl List.mem_cons_self
      · refine (ih h).imp (List.mem_cons_of_mem _) ?_
        rintro ⟨p', hp', e⟩
        exact ⟨p', List.mem_cons_of_mem _ hp', e⟩

end Phi

namespace Func

variable {f : Func} {b c : Block} {r s : BlockRef} {g : Block → Block} {l : Label}

/-- A block is found under its label where numbers tell blocks apart. -/
theorem labelled?_of_linked? (hnodup : (f.blocks.map Block.id).Nodup) (h : f.linked? r = some b) :
    f.labelled? r.label = some b := by
  obtain ⟨hb, rfl⟩ := linked?_mem h
  cases hc : f.labelled? b.ref.label with
  | none =>
    have := List.find?_eq_none.mp hc b hb
    simp [Block.label] at this
  | some c =>
    have hcb : c.ref.label = b.ref.label := by simpa [Block.label] using List.find?_some hc
    rw [eq_of_id_eq hnodup (List.mem_of_find?_eq_some hc) hb (Label.ofBlock_injective hcb)]

theorem map_ref_modify (hg : ∀ b, (g b).ref = b.ref) :
    (f.modify r g).blocks.map Block.ref = f.blocks.map Block.ref := by
  simp only [modify, List.map_map]
  refine List.map_congr_left fun b _ => ?_
  simp only [Function.comp]
  split
  · exact hg b
  · rfl

/-- The blocks that links lead to after one block was changed. -/
theorem linked?_modify (hg : ∀ b, (g b).ref = b.ref) :
    (f.modify r g).linked? s = if s = r then (f.linked? s).map g else f.linked? s := by
  have hp : ((fun b : Block => b.ref == s) ∘ fun b => if b.ref == r then g b else b) =
      fun b => b.ref == s := by
    funext b
    simp only [Function.comp]
    split
    · rw [hg]
    · rfl
  simp only [linked?, modify, List.find?_map, hp]
  cases h : f.blocks.find? (·.ref == s) with
  | none => simp
  | some b =>
    have hb : b.ref = s := by simpa using List.find?_some h
    by_cases e : s = r <;> simp [hb, e]

/-- Replacing a block keeps its number, so it is a change like any other. -/
theorem modify_const (hc : c.ref = r) : f.modify r (fun _ => c) = f.modify r fun b => { c with ref := b.ref } := by
  refine congrArg (fun bs => { f with blocks := bs }) (List.map_congr_left fun b _ => ?_)
  by_cases hb : b.ref = r
  · simp [hb, ← hc]
  · simp [hb]

theorem map_ref_modify_const (hc : c.ref = r) :
    (f.modify r fun _ => c).blocks.map Block.ref = f.blocks.map Block.ref := by
  rw [modify_const hc]
  exact map_ref_modify fun b => rfl

/-- The blocks that links lead to after one block was replaced. -/
theorem linked?_modify_const (hc : c.ref = r) (hb : f.linked? r = some b) :
    (f.modify r fun _ => c).linked? s = if s = r then some c else f.linked? s := by
  rw [modify_const hc, linked?_modify (g := fun b => { c with ref := b.ref }) fun b => rfl]
  by_cases h : s = r
  · rw [if_pos h, if_pos h, h, hb, Option.map_some, (linked?_mem hb).2, ← hc]
  · rw [if_neg h, if_neg h]

theorem linked?_isSome_iff : (f.linked? r).isSome = true ↔ r ∈ f.blocks.map Block.ref := by
  rw [linked?, List.find?_isSome, List.mem_map]
  simp

/-- The links to blocks tell their numbers. -/
theorem map_id_of_refs {f' : Func} (h : f.blocks.map Block.ref = f'.blocks.map Block.ref) :
    f.blocks.map Block.id = f'.blocks.map Block.id := by
  have hid : ∀ bs : List Block, bs.map Block.id = (bs.map Block.ref).map (·.number) := by
    intro bs
    rw [List.map_map]
    rfl
  rw [hid, h, ← hid]

theorem nodup_ids_of_refs {f' : Func} (h : f.blocks.map Block.ref = f'.blocks.map Block.ref)
    (hnodup : (f'.blocks.map Block.id).Nodup) : (f.blocks.map Block.id).Nodup :=
  map_id_of_refs h ▸ hnodup

/-! ### Rebuilding links -/

theorem map_clearLinks_modify (hg : ∀ b, (g b).clearLinks = b.clearLinks) :
    (f.modify r g).blocks.map Block.clearLinks = f.blocks.map Block.clearLinks := by
  simp only [modify, List.map_map]
  refine List.map_congr_left fun b _ => ?_
  simp only [Function.comp]
  split
  · exact hg b
  · rfl

theorem map_clearLinks_linkJumps : ∀ (js : List (BlockRef × Label)) (f : Func),
    (linkJumps js f).1.blocks.map Block.clearLinks = f.blocks.map Block.clearLinks := by
  intro js
  induction js with
  | nil => exact fun f => rfl
  | cons j js ih =>
    intro f
    simp only [linkJumps]
    split
    · rfl
    · rename_i target _
      rw [ih, link, map_clearLinks_modify (g := Block.addPrev j.1) fun _ => rfl,
        map_clearLinks_modify (g := Block.addSucc target) fun _ => rfl]

/-- Links are all that changes where links are made. -/
theorem exists_linkJumps : ∀ (js : List (BlockRef × Label)) (f : Func),
    ∃ bs, (linkJumps js f).1 = { f with blocks := bs } := by
  intro js
  induction js with
  | nil => exact fun f => ⟨f.blocks, rfl⟩
  | cons j js ih =>
    intro f
    simp only [linkJumps]
    split
    · exact ⟨f.blocks, rfl⟩
    · exact ih _

theorem exists_resolveLinks (f : Func) : ∃ bs, f.resolveLinks.1 = { f with blocks := bs } :=
  exists_linkJumps ..

theorem params_resolveLinks (f : Func) : f.resolveLinks.1.params = f.params := by
  obtain ⟨bs, e⟩ := f.exists_resolveLinks
  rw [e]

/-- Links apart, blocks stay as they are where links are rebuilt. -/
theorem map_clearLinks_resolveLinks (f : Func) :
    f.resolveLinks.1.blocks.map Block.clearLinks = f.blocks.map Block.clearLinks := by
  rw [resolveLinks, map_clearLinks_linkJumps, List.map_map]
  rfl

/-- Links are not written. -/
theorem text_resolveLinks (f : Func) : f.resolveLinks.1.text = f.text := by
  have htext : ∀ bs : List Block, bs.map Block.text = (bs.map Block.clearLinks).map Block.text :=
    fun bs => by rw [List.map_map]; rfl
  have hblocks := map_clearLinks_resolveLinks f
  obtain ⟨bs, e⟩ := f.exists_resolveLinks
  rw [e] at hblocks ⊢
  rw [text, text, htext bs, hblocks, ← htext]
  rfl

/-- A link leads to the same block as before where links are rebuilt. -/
theorem linked?_resolveLinks (f : Func) (r : BlockRef) :
    (f.resolveLinks.1.linked? r).map Block.clearLinks = (f.linked? r).map Block.clearLinks := by
  have key : ∀ f : Func, (f.linked? r).map Block.clearLinks =
      (f.blocks.map Block.clearLinks).find? (·.ref == r) := by
    intro f
    rw [List.find?_map]
    rfl
  rw [key, key, map_clearLinks_resolveLinks]

/-- A block is found under its label as before where links are rebuilt. -/
theorem labelled?_resolveLinks (f : Func) (l : Label) :
    (f.resolveLinks.1.labelled? l).map Block.clearLinks =
      (f.labelled? l).map Block.clearLinks := by
  have key : ∀ f : Func, (f.labelled? l).map Block.clearLinks =
      (f.blocks.map Block.clearLinks).find? (·.label == l) := by
    intro f
    rw [List.find?_map]
    rfl
  rw [key, key, map_clearLinks_resolveLinks]

theorem map_ref_link (f : Func) (r s : BlockRef) :
    (f.link r s).blocks.map Block.ref = f.blocks.map Block.ref := by
  rw [Func.link, map_ref_modify (g := (Block.addPrev r ·)) fun _ => rfl,
    map_ref_modify (g := (Block.addSucc s ·)) fun _ => rfl]

/-- Blocks that differ in their links only. -/
theorem code_of_clearLinks (h : b.clearLinks = c.clearLinks) :
    b.ref = c.ref ∧ b.phis = c.phis ∧ b.instrs = c.instrs ∧ b.jump = c.jump := by
  simp only [Block.clearLinks, Block.mk.injEq] at h
  exact ⟨h.1, h.2.2.2.1, h.2.2.2.2.1, h.2.2.2.2.2.1⟩

/-- A block of a function that was given a link. -/
theorem exists_of_mem_link (h : b ∈ (f.link r s).blocks) : ∃ c ∈ f.blocks,
    b.clearLinks = c.clearLinks ∧ b.succ = c.succ ++ (if c.ref = r then [s] else []) ∧
      b.prev = c.prev ++ if c.ref = s then [r] else [] := by
  simp only [Func.link, modify, List.map_map] at h
  obtain ⟨c, hc, rfl⟩ := List.mem_map.mp h
  refine ⟨c, hc, ?_⟩
  by_cases hr : c.ref = r
  · by_cases hs : c.ref = s
    · simp_all [Block.addSucc, Block.addPrev, Block.clearLinks]
    · simp_all [Block.addSucc, Block.clearLinks]
  · by_cases hs : c.ref = s
    · simp_all [Block.addPrev, Block.clearLinks]
    · simp_all [Block.clearLinks]

/-- Every edge is listed as often at the one end as at the other. -/
def Balanced (f : Func) : Prop :=
  ∀ b ∈ f.blocks, ∀ c ∈ f.blocks, b.succ.count c.ref = c.prev.count b.ref

instance (f : Func) : Decidable f.Balanced :=
  inferInstanceAs (Decidable (∀ b ∈ f.blocks, ∀ c ∈ f.blocks, b.succ.count c.ref = c.prev.count b.ref))

theorem Balanced.link (h : f.Balanced) (r s : BlockRef) : (f.link r s).Balanced := by
  intro b hb c hc
  obtain ⟨b₀, hb₀, hb, hsucc, -⟩ := exists_of_mem_link hb
  obtain ⟨c₀, hc₀, hc, -, hprev⟩ := exists_of_mem_link hc
  rw [hsucc, hprev, (code_of_clearLinks hb).1, (code_of_clearLinks hc).1, List.count_append, List.count_append, h b₀ hb₀ c₀ hc₀]
  -- the new edge is counted at both ends, and only between the two blocks that it joins
  by_cases hr : b₀.ref = r <;> by_cases hs : c₀.ref = s
  · simp [hr, hs]
  · simp [hr, hs, List.count_eq_zero]
  · simp [hr, hs, List.count_eq_zero]
  · simp [hr, hs]

/-- Links that were built from the terminators are balanced. -/
theorem balanced_resolveLinks (f : Func) : f.resolveLinks.1.Balanced := by
  have key : ∀ (js : List (BlockRef × Label)) (f : Func), f.Balanced → (linkJumps js f).1.Balanced := by
    intro js
    induction js with
    | nil => exact fun f hf => hf
    | cons j js ih =>
      intro f hf
      simp only [linkJumps]
      split
      · exact hf
      · exact ih _ (hf.link _ _)
  refine key _ _ fun b hb c hc => ?_
  obtain ⟨b, -, rfl⟩ := List.mem_map.mp hb
  obtain ⟨c, -, rfl⟩ := List.mem_map.mp hc
  rfl

/-- A jump target is found where a block carries its label. -/
theorem target?_isSome_iff : (f.target? l).isSome = true ↔ ∃ r ∈ f.blocks.map Block.ref, r.label = l := by
  rw [target?, Option.isSome_map, List.find?_isSome]
  constructor
  · rintro ⟨b, hb, e⟩
    exact ⟨b.ref, List.mem_map_of_mem (List.mem_reverse.mp hb), by simpa [Block.label] using e⟩
  · rintro ⟨r, hr, rfl⟩
    obtain ⟨b, hb, rfl⟩ := List.mem_map.mp hr
    exact ⟨b, List.mem_reverse.mpr hb, by simp [Block.label]⟩

theorem linkJumps_eq_none_iff : ∀ (js : List (BlockRef × Label)) (f : Func),
    (linkJumps js f).2 = none ↔ ∀ j ∈ js, ∃ r ∈ f.blocks.map Block.ref, r.label = j.2 := by
  intro js
  induction js with
  | nil => simp [linkJumps]
  | cons j js ih =>
    intro f
    rw [List.forall_mem_cons, ← target?_isSome_iff]
    simp only [linkJumps]
    cases htarget : f.target? j.2 with
    | none => simp
    | some target =>
      simp only [ih, map_ref_link, Option.isSome_some, true_and]

/-- Links are rebuilt to the end where every jump target is the label of a block. -/
theorem resolveLinks_eq_none_iff : f.resolveLinks.2 = none ↔
    ∀ b ∈ f.blocks, ∀ l ∈ b.targets, ∃ c ∈ f.blocks, c.label = l := by
  rw [resolveLinks, linkJumps_eq_none_iff]
  simp only [jumps, List.mem_flatMap, List.mem_map, List.map_map]
  constructor
  · intro h b hb l hl
    obtain ⟨_, ⟨c, hc, rfl⟩, e⟩ := h (b.ref, l) ⟨b, hb, l, hl, rfl⟩
    exact ⟨c, hc, e⟩
  · rintro h _ ⟨b, hb, l, hl, rfl⟩
    obtain ⟨c, hc, e⟩ := h b hb l hl
    exact ⟨_, ⟨c, hc, rfl⟩, e⟩

/-! ### Inserting a block -/

theorem find?_insertIdx {α : Type} {P : α → Bool} {a : α} : ∀ {as : List α} {j k : Nat},
    as.findIdx? P = some j → j < k → (as.insertIdx k a).find? P = as.find? P := by
  intro as
  induction as with
  | nil =>
    intro j k h
    cases h
  | cons b as ih =>
    intro j k h hjk
    cases k with
    | zero => omega
    | succ k =>
      rw [List.insertIdx_succ_cons]
      by_cases hb : P b = true
      · rw [List.find?_cons_of_pos hb, List.find?_cons_of_pos hb]
      · rw [List.find?_cons_of_neg hb, List.find?_cons_of_neg hb]
        rw [List.findIdx?_cons, if_neg hb] at h
        obtain ⟨j', hj', rfl⟩ := Option.map_eq_some_iff.mp h
        exact ih hj' (by omega)

/-- A block inserted behind another one does not hide it. -/
theorem labelled?_insertIdx {j k : Nat} (h : f.position? r.number = some j) (hjk : j < k) (b : Block) :
    ({ f with blocks := f.blocks.insertIdx k b } : Func).labelled? r.label =
      f.labelled? r.label := by
  refine find?_insertIdx (j := j) ?_ hjk
  rw [← h, position?]
  congr 1
  funext c
  rw [Bool.eq_iff_iff, beq_iff_eq, beq_iff_eq]
  exact ⟨fun e => Label.ofBlock_injective e, congrArg Label.ofBlock⟩

end Func

end LoopLanes
