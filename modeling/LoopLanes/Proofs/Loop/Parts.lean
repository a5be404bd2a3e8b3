/-
The parts of a loop: its latch, what enters it and what leaves it.

Links are compared by number alone, so of several links to one block the lists of latches and of
outside predecessors keep the first (`mem_of_mem_distinct`, `exists_mem_distinct`).
-/
import LoopLanes.Loop.Forest
import LoopLanes.Proofs.Cfg.Links

namespace LoopLanes

namespace BlockRef

theorem mem_of_mem_distinct {r : BlockRef} : ∀ {rs : List BlockRef}, r ∈ distinct rs → r ∈ rs := by
  intro rs
  induction h : rs.length using Nat.strongRecOn generalizing rs with
  | ind n ih =>
    intro hr
    cases rs with
    | nil => exact hr
    | cons q rs =>
      rw [distinct, List.eraseDupsBy_cons] at hr
      rcases List.mem_cons.mp hr with rfl | hr
      · simp
      · have hlen := List.length_filter_le (fun b : BlockRef => decide ((b.number == q.number) = false)) rs
        have hmem := ih _ (by simp at h; omega) rfl hr
        exact List.mem_cons_of_mem _ (List.mem_of_mem_filter hmem)

theorem exists_mem_distinct {r : BlockRef} : ∀ {rs : List BlockRef}, r ∈ rs →
    ∃ q ∈ distinct rs, q.number = r.number := by
  intro rs
  induction h : rs.length using Nat.strongRecOn generalizing rs with
  | ind n ih =>
    intro hr
    cases rs with
    | nil => simp at hr
    | cons q rs =>
      rw [distinct, List.eraseDupsBy_cons]
      by_cases hq : q.number = r.number
      · exact ⟨q, by simp, hq⟩
      · have hlen := List.length_filter_le (fun b : BlockRef => decide ((b.number == q.number) = false)) rs
        have hmem : r ∈ rs := by
          rcases List.mem_cons.mp hr with rfl | hr
          · exact absurd rfl hq
          · exact hr
        have hne : (r.number == q.number) = false := beq_false_of_ne (Ne.symm hq)
        have hkept : r ∈ rs.filter fun b => (b.number == q.number) = false :=
          List.mem_filter.mpr ⟨hmem, by simpa using hne⟩
        obtain ⟨p, hp, he⟩ := ih _ (by simp at h; omega) rfl hkept
        exact ⟨p, List.mem_cons_of_mem _ hp, he⟩

end BlockRef

namespace Loop

variable {f : Func} {t : LoopForest} {l : Loop} {p q : BlockRef} {b : Block}

theorem mem_blocks : b ∈ l.blocks f t ↔ b ∈ f.blocks ∧ t.contains l b.id = true := List.mem_filter

/-- The only latch is the only predecessor of the header inside the loop. -/
theorem singleLatch?_eq_some (h : l.singleLatch? f t = some q) :
    (q ∈ l.headerPrev f ∧ t.contains l q.number = true) ∧
      ∀ p ∈ l.headerPrev f, t.contains l p.number = true → p.number = q.number := by
  have hlatches : l.latches f t = [q] := by
    unfold singleLatch? at h
    split at h
    · cases h
      assumption
    · cases h
  have hmem : q ∈ l.latches f t := by simp [hlatches]
  refine ⟨List.mem_filter.mp (BlockRef.mem_of_mem_distinct hmem), fun p hp hin => ?_⟩
  have hin : p ∈ (l.headerPrev f).filter fun b => t.contains l b.number :=
    List.mem_filter.mpr ⟨hp, hin⟩
  obtain ⟨r, hr, he⟩ := BlockRef.exists_mem_distinct hin
  rw [← latches, hlatches] at hr
  rw [← he, List.mem_singleton.mp hr]

/-- The only outside predecessor is the only predecessor of the header outside the loop. -/
theorem outsidePreds_eq_singleton (h : l.outsidePreds f t = [q]) :
    (q ∈ l.headerPrev f ∧ t.contains l q.number = false) ∧
      ∀ p ∈ l.headerPrev f, t.contains l p.number = false → p.number = q.number := by
  have hmem : q ∈ l.outsidePreds f t := by simp [h]
  obtain ⟨hq, hout⟩ := List.mem_filter.mp (BlockRef.mem_of_mem_distinct hmem)
  refine ⟨⟨hq, by simpa using hout⟩, fun p hp hout => ?_⟩
  have hout : p ∈ (l.headerPrev f).filter fun b => !t.contains l b.number :=
    List.mem_filter.mpr ⟨hp, by simp [hout]⟩
  obtain ⟨r, hr, he⟩ := BlockRef.exists_mem_distinct hout
  rw [← outsidePreds, h] at hr
  rw [← he, List.mem_singleton.mp hr]

/-- Where one block leaves the loop, no other one does. -/
theorem id_eq_of_exits {e : Int} (h : (l.exitingBlocks f t).map (·.id) = [e]) (hb : b ∈ l.blocks f t)
    (hq : q ∈ b.succ) (hout : t.contains l q.number = false) : b.id = e := by
  have hmem : b.id ∈ (l.exitingBlocks f t).map (·.id) := by
    refine List.mem_map_of_mem (List.mem_filter.mpr ⟨hb, ?_⟩)
    exact List.any_eq_true.mpr ⟨q, hq, by simp [hout]⟩
  rw [h] at hmem
  exact List.mem_singleton.mp hmem

end Loop

end LoopLanes
