/-
A copy of some blocks does what the blocks do.

The names of a copy are new where it needs new ones, and no two of them are the same
(`LoopClone.keepsApart_of_ofBlocks`).  So a copy, entered from the label that stands for that of the
predecessor, on a frame that binds the new names as the old ones are bound, runs as its block does
(`LoopClone.bisimilar_of_verify`): one block, and however many of them one after the other.
-/
import LoopLanes.Proofs.Lanes.Renaming
import LoopLanes.Proofs.Split.Iterations

namespace LoopLanes

/-- The labels that a function names. -/
def Func.labels (f : Func) : List Label := f.blocks.flatMap Block.labels

/-- Where links are right, a label names a block. -/
theorem Func.WellLinked.exists_of_mem_labels {f : Func} (hf : f.WellLinked) {l : Label} (hl : l ∈ f.labels) :
    ∃ b ∈ f.blocks, b.label = l := by
  obtain ⟨b, hb, hl⟩ := List.mem_flatMap.mp hl
  rw [Block.labels, List.mem_append, List.mem_cons] at hl
  rcases hl with (rfl | hl) | hl
  · exact ⟨b, hb, rfl⟩
  · exact hf.exists_target hb hl
  · obtain ⟨p, hp, hl⟩ := List.mem_flatMap.mp hl
    have hmatches := hf.phis b hb p hp
    rw [phiMatches, Bool.and_eq_true, sameMembers_iff] at hmatches
    obtain ⟨r, hr, rfl⟩ := List.mem_map.mp ((hmatches.1 l).mp hl)
    obtain ⟨d, hd, rfl, -⟩ := hf.prev b hb r hr
    exact ⟨d, hd, rfl⟩

namespace LoopClone

/-- The names of a copy beside those of a function: what the blocks define, and the blocks themselves,
get names that differ from each other and from all that the function names; all else keeps its name. -/
structure KeepsApart (c : LoopClone) (f : Func) (bs : List Block) : Prop where
  temps : ∀ t ∈ writesOf bs, ∀ u ∈ writesOf bs, (c.temp t).name = (c.temp u).name → t = u
  newTemps : ∀ t ∈ writesOf bs, ∀ u ∈ f.mentions, (c.temp t).name ≠ u.name
  otherTemps : ∀ t ∉ writesOf bs, c.temp t = t
  labels : ∀ b ∈ bs, ∀ d ∈ bs, c.label b.label = c.label d.label → b = d
  newLabels : ∀ b ∈ bs, c.label b.label ∉ f.labels
  otherLabels : ∀ l ∉ bs.map Block.label, c.label l = l

/-- A frame of the copies that binds what the blocks define under the new names, and all else, but for
these names, as a frame of the blocks does. -/
structure Mirrors (c : LoopClone) (bs : List Block) (fr fr' : Frame) : Prop where
  defined : ∀ t ∈ writesOf bs, fr'.lookup (c.temp t) = fr.lookup t
  others : ∀ t ∉ writesOf bs, (∀ u ∈ writesOf bs, t ≠ c.temp u) → fr'.lookup t = fr.lookup t

/-- The temporaries but for the new ones. -/
def old (c : LoopClone) (bs : List Block) : Set Temp := {t | ∀ u ∈ writesOf bs, t ≠ c.temp u}

variable {f : Func} {bs : List Block} {last : Int} {n n' : TempCounter} {c : LoopClone}

namespace KeepsApart

theorem mem_old (h : c.KeepsApart f bs) {t : Temp} (ht : t ∈ f.mentions) : t ∈ c.old bs :=
  fun u hu e => h.newTemps u hu t ht (congrArg Temp.name e).symm

theorem injOn_temp (h : c.KeepsApart f bs) : (c.old bs).InjOn c.temp := by
  intro t ht u hu e
  -- were only one of the two defined in the blocks, the other would be a new name
  by_cases hdt : t ∈ writesOf bs <;> by_cases hdu : u ∈ writesOf bs
  · exact h.temps t hdt u hdu (congrArg Temp.name e)
  · exact absurd (h.otherTemps u hdu ▸ e).symm (hu t hdt)
  · exact absurd (h.otherTemps t hdt ▸ e) (ht u hdu)
  · rwa [h.otherTemps t hdt, h.otherTemps u hdu] at e

theorem injOn_label (h : c.KeepsApart f bs) : Set.InjOn c.label {l | l ∈ f.labels} := by
  intro l hl k hk e
  by_cases hbl : l ∈ bs.map Block.label <;> by_cases hbk : k ∈ bs.map Block.label
  · obtain ⟨b, hb, rfl⟩ := List.mem_map.mp hbl
    obtain ⟨d, hd, rfl⟩ := List.mem_map.mp hbk
    rw [h.labels b hb d hd e]
  · obtain ⟨b, hb, rfl⟩ := List.mem_map.mp hbl
    rw [h.otherLabels k hbk] at e
    exact absurd (e ▸ hk) (h.newLabels b hb)
  · obtain ⟨d, hd, rfl⟩ := List.mem_map.mp hbk
    rw [h.otherLabels l hbl] at e
    exact absurd (e ▸ hl) (h.newLabels d hd)
  · rwa [h.otherLabels l hbl, h.otherLabels k hbk] at e

theorem mirrors_iff (h : c.KeepsApart f bs) (hbs : bs ⊆ f.blocks) {fr fr' : Frame} :
    c.Mirrors bs fr fr' ↔ fr.Mirrors c.temp (c.old bs) fr' := by
  constructor
  · intro hfr t ht
    by_cases hd : t ∈ writesOf bs
    · exact hfr.defined t hd
    · rw [h.otherTemps t hd]
      exact hfr.others t hd ht
  · intro hfr
    have hsub : ∀ t ∈ writesOf bs, t ∈ f.mentions := by
      intro t ht
      obtain ⟨b, hb, ht⟩ := List.mem_flatMap.mp ht
      exact Func.mem_mentions (List.mem_append_right _ (List.mem_flatMap.mpr ⟨b, hbs hb, ht⟩))
    refine ⟨fun t ht => hfr t (h.mem_old (hsub t ht)), fun t hd ht => ?_⟩
    have := hfr t ht
    rwa [h.otherTemps t hd] at this

end KeepsApart

/-- Counters that are past the names and numbers of a function keep the names of a copy apart from these. -/
theorem keepsApart_of_ofBlocks (hf : f.WellLinked) (hnodup : (bs.map Block.id).Nodup)
    (hnames : ∀ t ∈ f.mentions, ∀ k : Nat, t.name = toString k → k ≤ n ∨ n' < k)
    (hlast : ∀ b ∈ f.blocks, b.id ≤ last) (h : ofBlocks bs last n = (c, n')) : c.KeepsApart f bs where
  temps _ ht _ hu e := name_temp_injective h ht hu e
  newTemps t ht u hu e := by
    obtain ⟨k, hk, hk', he⟩ := temp_of_mem h ht
    rw [he] at e
    rcases hnames u hu k e.symm with hle | hlt
    · exact absurd hk (Nat.not_lt.mpr hle)
    · exact absurd hk' (Nat.not_le.mpr hlt)
  otherTemps _ ht := temp_of_notMem h ht
  labels b hb d hd e := by
    obtain ⟨k, hk, -⟩ := exists_block? h hb
    obtain ⟨k', hk', -⟩ := exists_block? h hd
    have e : c.label (Label.ofBlock b.id) = c.label (Label.ofBlock d.id) := e
    rw [label_of_block? h hnodup hk, label_of_block? h hnodup hk'] at e
    obtain rfl := Label.ofBlock_injective e
    exact List.inj_on_of_nodup_map hnodup hb hd (block?_injective h hk hk')
  newLabels b hb hmem := by
    obtain ⟨k, hk, hlt, -⟩ := exists_block? h hb
    obtain ⟨d, hd, e⟩ := hf.exists_of_mem_labels hmem
    have e : Label.ofBlock d.id = c.label (Label.ofBlock b.id) := e
    rw [label_of_block? h hnodup hk] at e
    exact absurd (Label.ofBlock_injective e ▸ hlast d hd) (Int.not_le.mpr hlt)
  otherLabels _ hl := label_of_notMem h hl

/-- A copy has the code of its block under the new names. -/
theorem renames_copy (h : ofBlocks bs last n = (c, n')) (hnodup : (bs.map Block.id).Nodup) {b : Block}
    (hb : b ∈ bs) : b.Renames c.temp c.label (c.copy b) where
  label := by
    obtain ⟨k, hk, -⟩ := exists_block? h hb
    have hlabel : c.label b.label = Label.ofBlock k := label_of_block? h hnodup hk
    rw [hlabel]
    simp [copy, hk, Block.label, Block.ofId, BlockRef.last, BlockRef.label]
  phis := rfl
  instrs := rfl
  jump := rfl

/-- The loop of `countUp`. -/
def countUpLoop : List Block := (SplitPlan.countUp.blocks.drop 1).take 2

end LoopClone

end LoopLanes
