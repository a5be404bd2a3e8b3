/-
The topological order of a body.

A block joins the queue when the last of its edges from inside is counted, and an edge is counted
when the block it comes from leaves the queue.  `Counted` says what a sort knows on the way; it is
kept by every edge (`Counted.arrive`) and every block (`Counted.leave`).

* `topoOrder?_of_acyclic` — a body without cycle is sorted: every block comes once, and after
  all its predecessors.
-/
import LoopLanes.Proofs.Basic.Tables
import LoopLanes.Proofs.Cfg.Dominators
import LoopLanes.Proofs.Cfg.Edits
import LoopLanes.Proofs.Cfg.Paths
import LoopLanes.Widen.Linearize

namespace LoopLanes

namespace Func

/-! ### Counting edges -/

/-- The predecessors of a block. -/
def prevs (f : Func) (r : BlockRef) : List BlockRef := ((f.linked? r).map (·.prev)).getD []

/-- The successors of a block. -/
def succs (f : Func) (r : BlockRef) : List BlockRef := ((f.linked? r).map (·.succ)).getD []

/-- The edges into a block from a part of a body that is not done. -/
def openEdges (f : Func) (body done : List BlockRef) (r : BlockRef) : Nat :=
  (f.prevs r).countP fun p => p ∈ body ∧ p ∉ done

end Func

namespace TopoState

variable {f : Func} {body done left : List BlockRef} {s : TopoState} {r : BlockRef}

/-- What a sort knows while the edges in `left` out of the last of the blocks in `done` are still to
be counted. -/
structure Counted (f : Func) (body done left : List BlockRef) (s : TopoState) : Prop where
  pending : ∀ r ∈ body, s.pending.lookup r.number = some ((f.openEdges body done r + left.count r : Nat) : Int)
  outside : ∀ v, v ∉ body.map (·.number) → s.pending.lookup v = none
  ready : ∀ r ∈ body, r ∈ done ++ s.queue ↔ f.openEdges body done r + left.count r = 0
  nodup : (done ++ s.queue).Nodup
  inside : done ++ s.queue ⊆ body
  sorted : done.Pairwise fun q r => r ∉ f.prevs q

/-- Counting one edge.  A number tells which block of the body the edge leads to. -/
theorem Counted.arrive (h : Counted f body done (r :: left) s)
    (hr : ∀ q ∈ body, q.number = r.number → q = r) : Counted f body done left (s.arrive r) := by
  unfold TopoState.arrive
  by_cases hmem : r.number ∈ body.map (·.number)
  · obtain ⟨q, hq, e⟩ := List.mem_map.mp hmem
    obtain rfl := hr q hq e
    rw [h.pending q hq]
    dsimp only
    have hcount : (q :: left).count q = left.count q + 1 := List.count_cons_self
    have hother : ∀ p ≠ q, (q :: left).count p = left.count p := fun p hp =>
      List.count_cons_of_ne hp.symm
    have hnew : q ∉ done ++ s.queue := fun hq' => by
      have := (h.ready q hq).mp hq'
      omega
    refine ⟨fun p hp => ?_, fun v hv => ?_, fun p hp => ?_, ?_, ?_, h.sorted⟩
    · rw [lookup_setEntry]
      split
      · rename_i e
        obtain rfl := hr p hp e
        rw [hcount]
        congr 1
        omega
      · rename_i hne
        rw [h.pending p hp, hother p fun e => hne (congrArg BlockRef.number e)]
    · rw [lookup_setEntry, if_neg (by rintro rfl; exact hv hmem)]
      exact h.outside v hv
    · -- only the block at the end of the edge can become ready
      by_cases e : p = q
      · subst e
        by_cases hzero : f.openEdges body done p + left.count p = 0
        · rw [if_pos (by omega)]
          simp [hzero]
        · rw [if_neg (by omega)]
          exact ⟨fun hp' => absurd hp' hnew, fun hz => absurd hz hzero⟩
      · rw [← hother p e, ← h.ready p hp]
        split <;> simp [e]
    · split
      · rw [← List.append_assoc]
        refine List.nodup_append.mpr ⟨h.nodup, List.nodup_singleton q, fun a ha b hb => ?_⟩
        rintro (rfl : a = b)
        exact hnew (List.mem_singleton.mp hb ▸ ha)
      · exact h.nodup
    · split
      · rw [← List.append_assoc]
        exact List.append_subset.mpr ⟨h.inside, by simpa using hq⟩
      · exact h.inside
  · rw [h.outside _ hmem]
    have hother : ∀ p ∈ body, (r :: left).count p = left.count p := by
      intro p hp
      refine List.count_cons_of_ne ?_
      rintro rfl
      exact hmem (List.mem_map_of_mem hp)
    exact ⟨fun p hp => hother p hp ▸ h.pending p hp, h.outside, fun p hp => hother p hp ▸ h.ready p hp,
      h.nodup, h.inside, h.sorted⟩

/-- Counting all edges out of a block. -/
theorem Counted.foldl_arrive : ∀ {left : List BlockRef} {s : TopoState},
    Counted f body done left s → (∀ r ∈ left, ∀ q ∈ body, q.number = r.number → q = r) →
      Counted f body done [] (left.foldl TopoState.arrive s) := by
  intro left
  induction left with
  | nil => exact fun h _ => h
  | cons r left ih =>
    intro s h hleft
    obtain ⟨hr, hleft⟩ := List.forall_mem_cons.mp hleft
    exact ih (h.arrive hr) hleft

/-- A block leaves the queue, and the edges out of it are still to be counted. -/
theorem Counted.leave {b : BlockRef} {queue : List BlockRef} (h : Counted f body done [] s)
    (hs : s.queue = b :: queue)
    (hlinks : ∀ r ∈ body, (f.prevs r).count b = (f.succs b).count r) :
    Counted f body (done ++ [b]) (f.succs b) { s with queue := queue } := by
  have hb : b ∈ body := h.inside (by simp [hs])
  have hnew : b ∉ done := by
    have := h.nodup
    rw [hs, List.nodup_append] at this
    exact fun hb => this.2.2 b hb b (by simp) rfl
  have hopen : ∀ r ∈ body, f.openEdges body (done ++ [b]) r + (f.succs b).count r = f.openEdges body done r := by
    intro r hr
    rw [← hlinks r hr, Func.openEdges, Func.openEdges, List.count]
    induction f.prevs r with
    | nil => rfl
    | cons p ps ih =>
      simp only [List.countP_cons]
      by_cases e : p = b
      · subst e
        simp [hb, hnew]
        simp at ih
        omega
      · simp [e]
        simp at ih
        omega
  have hsame : done ++ [b] ++ queue = done ++ s.queue := by simp [hs]
  refine ⟨fun r hr => ?_, h.outside, fun r hr => ?_, hsame ▸ h.nodup, hsame ▸ h.inside, ?_⟩
  · rw [hopen r hr]
    simpa using h.pending r hr
  · rw [hopen r hr, hsame]
    simpa using h.ready r hr
  · rw [List.pairwise_append]
    refine ⟨h.sorted, List.pairwise_singleton .., fun q hq r hr hmem => ?_⟩
    -- all edges into a block that is done were counted, and this one was not
    obtain rfl := List.mem_singleton.mp hr
    have hzero := (h.ready q (h.inside (List.mem_append_left _ hq))).mp (List.mem_append_left _ hq)
    have hpos : 0 < f.openEdges body done q :=
      List.countP_pos_iff.mpr ⟨r, hmem, by simp [hb, hnew]⟩
    omega

theorem order_foldl_arrive : ∀ (left : List BlockRef) (s : TopoState),
    (left.foldl TopoState.arrive s).order = s.order := by
  intro left
  induction left with
  | nil => exact fun s => rfl
  | cons r left ih =>
    intro s
    rw [List.foldl_cons, ih, arrive]
    split <;> rfl

/-- What a sort needs to know of the links of a body. -/
structure Linked (f : Func) (body : List BlockRef) : Prop where
  nodup : (body.map (·.number)).Nodup
  number : ∀ b ∈ body, ∀ r ∈ f.succs b, ∀ q ∈ body, q.number = r.number → q = r
  count : ∀ b ∈ body, ∀ r ∈ body, (f.prevs r).count b = (f.succs b).count r

/-- A round of a sort. -/
theorem run_succ {b : BlockRef} {queue : List BlockRef} (hs : s.queue = b :: queue) (fuel : Nat) :
    TopoState.run f (fuel + 1) s = TopoState.run f fuel
      { (f.succs b).foldl TopoState.arrive { s with queue := queue } with order := s.order ++ [b] } := by
  have horder := order_foldl_arrive (f.succs b) { s with queue := queue }
  rw [TopoState.run, hs]
  show TopoState.run f fuel { (f.succs b).foldl TopoState.arrive { s with queue := queue } with
    order := ((f.succs b).foldl TopoState.arrive { s with queue := queue }).order ++ [b] } = _
  rw [horder]

/-- With fuel for all blocks, a sort ends with an empty queue. -/
theorem Counted.run (hbody : Linked f body) : ∀ {fuel : Nat} {s : TopoState}, Counted f body s.order [] s →
    body.length < s.order.length + fuel →
      Counted f body (TopoState.run f fuel s).order [] (TopoState.run f fuel s) ∧
        (TopoState.run f fuel s).queue = [] := by
  intro fuel
  induction fuel with
  | zero =>
    intro s h hfuel
    have := (List.subperm_of_subset h.nodup h.inside).length_le
    rw [List.length_append] at this
    omega
  | succ fuel ih =>
    intro s h hfuel
    cases hs : s.queue with
    | nil =>
      rw [TopoState.run, hs]
      exact ⟨h, hs⟩
    | cons b queue =>
      have hb : b ∈ body := h.inside (by simp [hs])
      have hleft := (h.leave hs fun r hr => hbody.count b hb r hr).foldl_arrive (hbody.number b hb)
      rw [run_succ hs]
      refine ih ⟨hleft.pending, hleft.outside, hleft.ready, hleft.nodup, hleft.inside, hleft.sorted⟩ ?_
      rw [List.length_append, List.length_singleton]
      omega

/-- The edges into a block from the blocks of a body, told by their numbers. -/
def edgesInto (f : Func) (body : List BlockRef) (r : BlockRef) : Int :=
  ((f.prevs r).filter fun p => (body.map (·.number)).contains p.number).length

/-- A sort before its first step. -/
def start (f : Func) (body : List BlockRef) : TopoState :=
  let pending := body.foldl (fun table b => setEntry b.number (edgesInto f body b) table) []
  ⟨pending, body.filter fun b => pending.lookup b.number == some 0, []⟩

theorem counted_start (hbody : (body.map (·.number)).Nodup)
    (hprevs : ∀ r ∈ body, ∀ p ∈ f.prevs r, ∀ q ∈ body, q.number = p.number → q = p) :
    Counted f body [] [] (start f body) := by
  have hopen : ∀ r ∈ body, edgesInto f body r = f.openEdges body [] r := by
    intro r hr
    rw [edgesInto, ← List.countP_eq_length_filter, Func.openEdges]
    refine congrArg _ (List.countP_congr fun p hp => ?_)
    rw [List.contains_iff_mem, decide_eq_true_iff]
    constructor
    · intro hmem
      obtain ⟨q, hq, e⟩ := List.mem_map.mp hmem
      exact ⟨hprevs r hr p hp q hq e ▸ hq, List.not_mem_nil⟩
    · exact fun h => List.mem_map_of_mem h.1
  have hpending : ∀ r ∈ body, (start f body).pending.lookup r.number =
      some ((f.openEdges body [] r : Nat) : Int) := by
    intro r hr
    rw [← hopen r hr]
    exact lookup_foldl_of_mem BlockRef.number (edgesInto f body) hbody hr
  refine ⟨fun r hr => ?_, fun v hv => ?_, fun r hr => ?_, ?_, ?_, .nil⟩
  · simpa using hpending r hr
  · exact lookup_foldl_of_notMem _ _ hv
  · show r ∈ body.filter (fun b => (start f body).pending.lookup b.number == some 0) ↔ _
    rw [List.mem_filter, hpending r hr]
    simp [hr]
  · exact (List.Nodup.of_map _ hbody).filter _
  · exact List.filter_sublist.subset

end TopoState

open TopoState

variable {f : Func} {body : List BlockRef}

/-- A body without cycle is sorted: each block comes once, and no block comes before one of its
predecessors. -/
theorem topoOrder?_of_acyclic (hlinked : Linked f body) (hacyclic : (f.flow false).Acyclic (body.map (·.number)))
    (hedge : ∀ r ∈ body, ∀ p ∈ f.prevs r, (f.flow false).edge p.number r.number)
    (hprevs : ∀ r ∈ body, ∀ p ∈ f.prevs r, ∀ q ∈ body, q.number = p.number → q = p) :
    ∃ order, topoOrder? f body = some order ∧ order.Perm body ∧
      order.Pairwise fun q r => r ∉ f.prevs q := by
  have hstart : Counted f body (start f body).order [] (start f body) := counted_start hlinked.nodup hprevs
  obtain ⟨hend, hqueue⟩ := hstart.run hlinked (show body.length < 0 + (body.length + 1) by omega)
  have heq : topoOrder? f body =
      if (TopoState.run f (body.length + 1) (start f body)).order.length = body.length
      then some (TopoState.run f (body.length + 1) (start f body)).order else none := rfl
  rw [heq]
  generalize TopoState.run f (body.length + 1) (start f body) = s at hend hqueue
  -- a block that is left out has a predecessor that is left out
  have hall : ∀ r ∈ body, r ∈ s.order := by
    suffices h : ∀ v, ∀ r ∈ body, r.number = v → r ∈ s.order from fun r hr => h _ r hr rfl
    intro v
    induction v using (Flow.wellFounded_of_acyclic hacyclic).induction with
    | _ v ih =>
      rintro r hr rfl
      have hzero : f.openEdges body s.order r = 0 := by
        refine List.countP_eq_zero.mpr fun p hp => ?_
        simp only [decide_eq_true_eq, not_and, Decidable.not_not]
        intro hpb
        exact ih p.number ⟨List.mem_map_of_mem hpb, List.mem_map_of_mem hr, hedge r hr p hp⟩ p hpb rfl
      have := (hend.ready r hr).mpr (by simpa using hzero)
      simpa [hqueue] using this
  have hperm : s.order.Perm body := by
    have hnodup : s.order.Nodup := (List.nodup_append.mp hend.nodup).1
    have hsub : s.order ⊆ body := fun r hr => hend.inside (List.mem_append_left _ hr)
    exact (List.subperm_of_subset hnodup hsub).antisymm
      (List.subperm_of_subset (List.Nodup.of_map _ hlinked.nodup) hall)
  exact ⟨s.order, if_pos hperm.length_eq, hperm, hend.sorted⟩

end LoopLanes
