/-
The loops of a function form a tree.

While a loop is collected, loops that were found before are put inside it.  Each is put inside one loop
only, which was found later, so the loops around a loop have larger and larger numbers and the chain of
them ends at the root.  This holds for every graph, however it is entered and whatever is not reached.

* `Below` — what holds of a loop and the one that it lies in directly;
* `IsTree` — what holds of all loops of a function;
* **`walks_isTree_of_resolveLinks`** — wherever the links of a function were just rebuilt, the search for
  its loops comes to an end, and what it finds is a tree.
-/
import LoopLanes.Proofs.Loop.Nesting
import LoopLanes.Proofs.Loop.Search

namespace LoopLanes

/-- The loops around a loop are counted up to the root, whatever the limit. -/
theorem LoopSearch.depth_eq {s : LoopSearch} (hs : s.Ranged) : ∀ {fuel fuel' id : Nat}, id ≤ s.found.length →
    s.found.length < id + fuel → s.found.length < id + fuel' → s.depth fuel id = s.depth fuel' id := by
  intro fuel
  induction fuel with
  | zero =>
    intro fuel' id hn hfuel
    omega
  | succ fuel ih =>
    intro fuel' id hn hfuel hfuel'
    obtain ⟨k, rfl⟩ : ∃ k, fuel' = k + 1 := ⟨fuel' - 1, by omega⟩
    rw [depth, depth]
    cases ho : s.outer? id with
    | none => rfl
    | some o =>
      obtain ⟨hlt, hle⟩ := hs.outer _ _ ho
      exact congrArg (· + 1) (ih hle (by omega) (by omega))

namespace LoopForest

variable {f : Func} {dom : DomTree} {l p q : Loop} {id : Nat}

/-- Loop `l` lies in loop `p` directly. -/
structure Below (t : LoopForest) (p l : Loop) : Prop where
  outer : l.outer = some p.id
  once : p.subloops.count l.id = 1
  alone : ∀ q ∈ t.loops, q ≠ p → l.id ∉ q.subloops
  later : p.isRoot = false → l.id < p.id
  level : l.level = p.level + 1
  contains : ∀ v, t.contains l v = true → t.contains p v = true

/-- All loops lie in the root, each directly in one other. -/
structure IsTree (t : LoopForest) : Prop where
  distinct : (t.loops.map Loop.id).Nodup
  root : ∃! r, r ∈ t.loops ∧ r.isRoot = true
  root_level : ∀ r ∈ t.loops, r.isRoot = true → r.level = 0
  parent : ∀ l ∈ t.loops, l.isRoot = false → ∃! p, p ∈ t.loops ∧ t.Below p l
  subloop : ∀ p ∈ t.loops, ∀ i ∈ p.subloops, ∃ l ∈ t.loops, l.id = i ∧ l.isRoot = false ∧ t.Below p l
  ends : ∀ r ∈ t.loops, r.isRoot = true → ∀ l ∈ t.loops, l.isRoot = false → t.Ancestor r l
  header : ∀ l ∈ t.loops, t.contains l l.header.number = true
  climb : ∀ l ∈ t.loops, l.isRoot = false → ∀ v,
    (t.contains l v = true ↔ ∃ o, t.owner? v = some o ∧ (l = o ∨ t.Ancestor l o))

/-! ### Loops as the search knows them -/

/-- A loop lists those that lie in it. -/
theorem subloops_spec (h : p ∈ (ofFunc f dom).loops) : p.subloops.Nodup ∧ ∀ i, i ∈ p.subloops ↔
    1 ≤ i ∧ i ≤ (searchOf f dom).found.length ∧ ((searchOf f dom).outer? i).getD 0 = p.id := by
  obtain ⟨le, hlist⟩ : ∃ le, p.subloops = (insertSort le (List.range' 1 (searchOf f dom).found.length)).filter
      fun sub => ((searchOf f dom).outer? sub).getD 0 = p.id := by
    simp only [ofFunc] at h
    rcases List.mem_cons.mp h with rfl | h
    · exact ⟨_, rfl⟩
    · obtain ⟨⟨e, i⟩, -, rfl⟩ := List.mem_map.mp h
      exact ⟨_, rfl⟩
  have hperm := insertSort_perm le (List.range' 1 (searchOf f dom).found.length)
  rw [hlist]
  refine ⟨(hperm.nodup_iff.mpr List.nodup_range').filter _, fun i => ?_⟩
  rw [List.mem_filter, hperm.mem_iff, List.mem_range'_1, decide_eq_true_iff]
  omega

/-- The level of a loop counts the loops around it. -/
theorem level_eq (h : l ∈ (ofFunc f dom).loops) (hroot : l.isRoot = false) :
    l.level = (searchOf f dom).depth (searchOf f dom).found.length l.id := by
  simp only [ofFunc] at h
  rcases List.mem_cons.mp h with rfl | h
  · simp [Loop.isRoot] at hroot
  · obtain ⟨⟨e, i⟩, -, rfl⟩ := List.mem_map.mp h
    rfl

theorem level_of_isRoot (h : l ∈ (ofFunc f dom).loops) (hroot : l.isRoot = true) : l.level = 0 := by
  simp only [ofFunc] at h
  rcases List.mem_cons.mp h with rfl | h
  · rfl
  · obtain ⟨e, -, rfl⟩ := List.mem_map.mp h
    simp [Loop.isRoot] at hroot

/-- Loops are numbered from 0, the root. -/
theorem map_id_loops (f : Func) (dom : DomTree) :
    (ofFunc f dom).loops.map Loop.id = List.range' 0 (ofFunc f dom).loops.length := by
  rw [length_loops, List.range'_succ]
  simp only [ofFunc, List.map_cons, List.map_map]
  refine congrArg (0 :: ·) ?_
  have := congrArg (List.map (1 + ·)) (List.zipIdx_map_snd 0 (searchOf f dom).found)
  rw [List.map_map, List.map_add_range'] at this
  exact (List.map_congr_left fun e _ => Nat.add_comm _ _).trans this

/-! ### Parents -/

/-- The loop around a loop. -/
theorem exists_below (hs : (searchOf f dom).Ranged) (h : l ∈ (ofFunc f dom).loops) (hroot : l.isRoot = false) :
    ∃ p ∈ (ofFunc f dom).loops, (ofFunc f dom).Below p l := by
  obtain ⟨h1, hn, -, houter⟩ := found_of_mem h hroot
  obtain ⟨p, hp, hbind, hcases⟩ := outer_cases hs h hroot
  have hid : ((searchOf f dom).outer? l.id).getD 0 = p.id := by
    rcases hcases with ⟨hpr, hnone⟩ | ⟨-, hsome, -⟩
    · rw [hnone, id_of_isRoot hp hpr]
      rfl
    · rw [hsome]
      rfl
  obtain ⟨hnodup, hmem⟩ := subloops_spec hp
  refine ⟨p, hp, houter.trans (congrArg some hid), ?_, fun q hq ne hlq => ?_, fun hpr => ?_, ?_, fun v hv => ?_⟩
  · exact List.count_eq_one_of_mem hnodup ((hmem l.id).mpr ⟨h1, hn, hid⟩)
  · exact ne (eq_of_id hq hp ((((subloops_spec hq).2 l.id).mp hlq).2.2.symm.trans hid))
  · rcases hcases with ⟨hpr', -⟩ | ⟨-, -, hlt⟩
    · rw [hpr] at hpr'
      cases hpr'
    · exact hlt
  · rw [level_eq h hroot]
    obtain ⟨k, hk⟩ : ∃ k, (searchOf f dom).found.length = k + 1 := ⟨(searchOf f dom).found.length - 1, by omega⟩
    rcases hcases with ⟨hpr, hnone⟩ | ⟨hpr, hsome, hlt⟩
    · rw [hk, LoopSearch.depth, hnone, level_of_isRoot hp hpr]
    · rw [level_eq hp hpr, hk, LoopSearch.depth, hsome]
      have hpn := (found_of_mem hp hpr).2.1
      exact congrArg (· + 1) (LoopSearch.depth_eq hs hpn (by omega) (by omega))
  · rcases hcases with ⟨hpr, -⟩ | ⟨hpr, hsome, -⟩
    · exact contains_of_isRoot hpr
    · obtain ⟨o, ho, ha⟩ := (contains_iff hs h hroot).mp hv
      exact (contains_iff hs hp hpr).mpr ⟨o, ho, .trans (.step hsome .refl) ha⟩

/-- The loops of a function form a tree. -/
theorem isTree_ofFunc (hf : f.Linked) : (ofFunc f (DomTree.ofFunc f false)).IsTree := by
  obtain ⟨_, hsound⟩ := LoopSearch.walk_sound hf
  have hs : (searchOf f (DomTree.ofFunc f false)).Ranged := hsound.toRanged
  obtain ⟨r, hr, hrr, -⟩ := loop?_zero f (DomTree.ofFunc f false)
  refine ⟨map_id_loops f _ ▸ List.nodup_range', ⟨r, ⟨hr, hrr⟩, fun r' ⟨hr', hrr'⟩ => ?_⟩, fun _ => level_of_isRoot, fun l hl hroot => ?_,
    fun p hp i hi => ?_, fun r hr hrr l hl hroot => ancestor_of_isRoot hs hr hrr hl hroot,
    fun l hl => contains_header hf hl, fun l hl hroot v => ?_⟩
  · exact eq_of_id hr' hr ((id_of_isRoot hr' hrr').trans (id_of_isRoot hr hrr).symm)
  · obtain ⟨p, hp, hbelow⟩ := exists_below hs hl hroot
    refine ⟨p, ⟨hp, hbelow⟩, fun q ⟨hq, hbelow'⟩ => eq_of_id hq hp ?_⟩
    exact Option.some.inj (hbelow'.outer.symm.trans hbelow.outer)
  · obtain ⟨h1, hn, houter⟩ := ((subloops_spec hp).2 i).mp hi
    obtain ⟨l, hl, hroot, rfl, -⟩ := exists_mem h1 hn
    obtain ⟨q, hq, hbelow⟩ := exists_below hs hl hroot
    -- the loop that lists it is the one around it
    obtain rfl : p = q := by
      by_contra ne
      exact hbelow.alone p hp ne hi
    exact ⟨l, hl, rfl, hroot, hbelow⟩
  · rw [contains_iff hs hl hroot]
    constructor
    · rintro ⟨k, hk, ha⟩
      obtain ⟨h1, hn⟩ := hs.owner _ _ hk
      obtain ⟨o, ho, hor, rfl, -⟩ := exists_mem h1 hn
      refine ⟨o, (owner?_eq_some_iff hs).mpr ⟨ho, hor, hk⟩, ?_⟩
      by_cases e : l = o
      · exact .inl e
      · exact .inr (ancestor_of_around hs hl ha ho hor rfl e)
    · rintro ⟨o, howner, hlo⟩
      obtain ⟨ho, hor, hk⟩ := (owner?_eq_some_iff hs).mp howner
      refine ⟨o.id, hk, ?_⟩
      rcases hlo with rfl | hlo
      · exact .refl
      · exact (around_of_ancestor hs hroot hlo ho hor).1

/-- The search for the loops of a function comes to an end. -/
theorem walks_searchOf (hf : f.Linked) : LoopSearch.Walks f (DomTree.ofFunc f false) [f.entry.ref] ⟨[], []⟩
    (searchOf f (DomTree.ofFunc f false)) := by
  have hranged := (LoopSearch.sound_empty f (DomTree.ofFunc f false)).toRanged
  by_cases hb : f.blocks = []
  · have hchildren : (DomTree.ofFunc f false).children f.entry.ref.number = [] := by
      simp [DomTree.children, DomTree.ofFunc, hb]
    have hsearch : searchOf f (DomTree.ofFunc f false) = LoopSearch.visit f (DomTree.ofFunc f false) f.entry.ref ⟨[], []⟩ := by
      rw [searchOf, LoopSearch.walk, hchildren]
      rfl
    rw [hsearch]
    exact .cons (hchildren ▸ .nil) (LoopSearch.visits_visit hf _ _ hranged) .nil
  · exact (LoopSearch.walks_walk hf (f.reaches_entry hb)
      (Nat.le_succ_of_le (Func.region_length_le hf f.entry.id)) hranged).1

end LoopForest

namespace Func

/-- Wherever the links of a function were just rebuilt, the search for its loops comes to an end, and the
loops that it finds form a tree. -/
theorem walks_isTree_of_resolveLinks {f : Func} (h : (f.blocks.map Block.id).Nodup) :
    LoopSearch.Walks f.resolveLinks.1 (DomTree.ofFunc f.resolveLinks.1 false) [f.resolveLinks.1.entry.ref] ⟨[], []⟩
        (LoopForest.searchOf f.resolveLinks.1 (DomTree.ofFunc f.resolveLinks.1 false)) ∧
      (LoopForest.ofFunc f.resolveLinks.1 (DomTree.ofFunc f.resolveLinks.1 false)).IsTree :=
  have hf := linked_resolveLinks h
  ⟨LoopForest.walks_searchOf hf, LoopForest.isTree_ofFunc hf⟩

/-- Two loops one after the other, two blocks behind them that are entered at both and go on to each other,
and a block that is not reached and leads into both loops. -/
def tangled : Func where
  total := 9
  blocks := [
    { Block.ofId 0 with jump := some (.jump (.ofBlock 1)) },
    { Block.ofId 1 with jump := some (.branch .i32 (.int 1) (.ofBlock 2) (.ofBlock 3)) },
    { Block.ofId 2 with jump := some (.jump (.ofBlock 1)) },
    { Block.ofId 3 with jump := some (.branch .i32 (.int 1) (.ofBlock 4) (.ofBlock 5)) },
    { Block.ofId 4 with jump := some (.jump (.ofBlock 3)) },
    { Block.ofId 5 with jump := some (.branch .i32 (.int 1) (.ofBlock 6) (.ofBlock 7)) },
    { Block.ofId 6 with jump := some (.branch .i32 (.int 1) (.ofBlock 7) (.ofBlock 8)) },
    { Block.ofId 7 with jump := some (.jump (.ofBlock 6)) },
    { Block.ofId 8 with jump := some (.ret none) },
    { Block.ofId 9 with jump := some (.branch .i32 (.int 1) (.ofBlock 2) (.ofBlock 4)) }]
  name := "f"
  retTy := .void
  params := []

/-- The block that is not reached takes the second loop into the first one. -/
theorem walks_isTree_of_tangled : (tangled.blocks.map Block.id).Nodup ∧
    LoopSearch.Walks tangled.resolveLinks.1 (DomTree.ofFunc tangled.resolveLinks.1 false)
      [tangled.resolveLinks.1.entry.ref] ⟨[], []⟩
      (LoopForest.searchOf tangled.resolveLinks.1 (DomTree.ofFunc tangled.resolveLinks.1 false)) ∧
    (LoopForest.ofFunc tangled.resolveLinks.1 (DomTree.ofFunc tangled.resolveLinks.1 false)).IsTree ∧
    (LoopForest.ofFunc tangled.resolveLinks.1 (DomTree.ofFunc tangled.resolveLinks.1 false)).loops.map
      (fun l => (l.id, l.header.number, l.outer, l.level, l.subloops)) =
        [(0, 0, none, 0, [2]), (1, 3, some 2, 2, []), (2, 1, some 0, 1, [1])] := by
  have h : (tangled.blocks.map Block.id).Nodup := by decide
  obtain ⟨hwalks, htree⟩ := walks_isTree_of_resolveLinks h
  exact ⟨h, hwalks, htree, by decide +kernel⟩

end Func

end LoopLanes
