/-
A loop with a copy of itself in front.

A split leads the way into a loop through a copy of the loop.  Before its test and its steps are put in, the
copy does what the loop does, and `Detour` collects what is known of the two.

* `Detour.trace` — a path through the function with the copy is a path of the function as it was, with ways
  through the copy left out, or one that ends with a way through the copy;
* `Detour.mem_path_kept`, `Detour.mem_path_copy` — so it passes what all paths passed before, or the copies
  of what they passed in the loop.
-/
import LoopLanes.Proofs.Split.Updates

namespace LoopLanes

/-- A loop is entered at its header alone, from a block that is reached and that the loop does not leave to. -/
structure Loop.EnteredApart (f : Func) (t : LoopForest) (l : Loop) : Prop where
  prev : ∀ b ∈ l.body f t, ∀ r ∈ b.prev, t.contains l r.number = true
  reached : ∀ r ∈ l.outsidePreds f t, (f.flow false).Reaches r.number
  apart : ∀ r ∈ l.outsidePreds f t, ∀ q ∈ l.exits f t, r.number ≠ q.number

namespace SplitPlan

namespace Choice

variable (x : Choice) (f : Func) (t : LoopForest) (l : Loop) (a : LoopAnatomy)

/-- The guard block before its bound is computed. -/
def plainGuard : Block := { Block.ofId (guardId f) with jump := some (.jump (Label.ofBlock x.header)) }

/-- The blocks of a split before the tests and the steps are put in. -/
def plainBlocks : List Block :=
  x.plainGuard f :: (l.blocks f t).map (x.names f t l a).copy ++ [joiningBlock f t l]

end Choice

/-- A loop of a verified function for which a split was staged. -/
structure Detour (f : Func) (l : Loop) (a : LoopAnatomy) (lanes : Int) (updates : List StrideUpdate)
    (n : TempCounter) (s : SplitParts) (n' : TempCounter) (x : Choice) : Prop where
  verified : f.verify = .ok ()
  extensible : f.Extensible n
  mem : l ∈ f.forest.loops
  found : ∃ r, a.Found f f.forest l r
  apart : l.EnteredApart f f.forest
  staged : Staged f f.forest l a lanes updates n s n' x
  word : (n' : Int) ≤ u32Max

namespace Detour

variable {f : Func} {l : Loop} {a : LoopAnatomy} {lanes : Int} {updates : List StrideUpdate}
  {n n' : TempCounter} {s : SplitParts} {x : Choice} {b c : Block} {u v w : Int}

section Loop

theorem linked (h : Detour f l a lanes updates n s n' x) : f.WellLinked := Func.wellLinked_of_verify h.verified

theorem formed (h : Detour f l a lanes updates n s n' x) : f.FormedByJumps := Func.formedByJumps_of_verify h.verified

theorem flow_eq (h : Detour f l a lanes updates n s n' x) : f.flow false = f.jumpFlow :=
  (Func.linkedByJumps_of_wellLinked h.linked).flow_eq

theorem nodup_blocks (h : Detour f l a lanes updates n s n' x) : ((l.blocks f f.forest).map Block.id).Nodup :=
  h.linked.nodup.sublist (List.filter_sublist.map _)

theorem header_mem (h : Detour f l a lanes updates n s n' x) : a.header ∈ f.blocks ∧ a.header.ref = l.header := by
  obtain ⟨r, hr⟩ := h.found
  exact Func.linked?_mem hr.header

theorem header_id (h : Detour f l a lanes updates n s n' x) : a.header.id = l.header.number :=
  congrArg BlockRef.number h.header_mem.2

theorem contains_header (h : Detour f l a lanes updates n s n' x) :
    f.forest.contains l l.header.number = true := LoopForest.contains_header h.linked.toLinked h.mem

theorem not_contains_entering (h : Detour f l a lanes updates n s n' x) :
    f.forest.contains l a.entering.number = false := by
  obtain ⟨r, hr⟩ := h.found
  exact (Loop.outsidePreds_eq_singleton hr.entering).1.2

theorem not_contains_exit (h : Detour f l a lanes updates n s n' x) :
    f.forest.contains l a.induction.exit = false := by
  obtain ⟨r, hr⟩ := h.found
  exact (Induction.found_of_ofLoop? hr.induction).exit

/-- An edge is linked at both of its ends. -/
theorem edge_iff (h : Detour f l a lanes updates n s n' x) : f.jumpFlow.edge u w ↔
    ∃ b ∈ f.blocks, ∃ c ∈ f.blocks, b.id = u ∧ c.id = w ∧ c.ref ∈ b.succ ∧ b.ref ∈ c.prev := by
  rw [← h.flow_eq]
  constructor
  · rintro ⟨b, hb, rfl, r, hr, rfl⟩
    obtain ⟨c, hc, rfl, hprev⟩ := h.linked.succ b hb r hr
    exact ⟨b, hb, c, hc, rfl, rfl, hr, hprev⟩
  · rintro ⟨b, hb, c, -, rfl, rfl, hsucc, -⟩
    exact ⟨b, hb, rfl, c.ref, hsucc, rfl⟩

/-- The loop is entered from one block. -/
theorem edge_entering (h : Detour f l a lanes updates n s n' x) :
    f.jumpFlow.edge a.entering.number l.header.number := by
  obtain ⟨r, hr⟩ := h.found
  obtain ⟨hm, href⟩ := h.header_mem
  have hprev : a.entering ∈ a.header.prev := by
    have := (Loop.outsidePreds_eq_singleton hr.entering).1.1
    rwa [Loop.headerPrev, hr.header] at this
  obtain ⟨c, hc, hcref, hsucc⟩ := h.linked.prev _ hm _ hprev
  refine h.edge_iff.mpr ⟨c, hc, a.header, hm, congrArg BlockRef.number hcref, h.header_id, hsucc, ?_⟩
  rwa [hcref]

/-- The header goes on into the loop or leaves it. -/
theorem mem_targets_header (h : Detour f l a lanes updates n s n' x) {k : Label} :
    k ∈ a.header.targets ↔ k = Label.ofBlock a.bodyEntry ∨ k = Label.ofBlock a.induction.exit := by
  obtain ⟨r, hr⟩ := h.found
  obtain ⟨-, -, -, -, onTrue, branchTy, ifTrue, ifFalse, -, hjump, hexit, -⟩ := (hr.testedIn h.linked).1.test
  have htargets : a.header.targets = [ifTrue, ifFalse] := by
    rw [Block.targets, hjump]
    rfl
  -- one of the two targets is that of the body
  have hbody : Label.ofBlock a.bodyEntry ∈ a.header.targets := by
    rw [← (Func.linkedByJumps_of_wellLinked h.linked).succ _ h.header_mem.1]
    obtain ⟨q, hq, e⟩ := List.mem_map.mp (List.mem_of_find?_eq_some hr.bodyEntry)
    exact e ▸ List.mem_map_of_mem hq
  have hin : f.forest.contains l a.bodyEntry = true := List.find?_some hr.bodyEntry
  have hne : Label.ofBlock a.bodyEntry ≠ Label.ofBlock a.induction.exit := by
    intro e
    have hout := h.not_contains_exit
    rw [← Label.ofBlock_injective e, hin] at hout
    cases hout
  rw [htargets, List.mem_pair] at hbody ⊢
  cases onTrue with
  | true =>
    have hexit : ifFalse = Label.ofBlock a.induction.exit := hexit
    rw [← hexit] at hne ⊢
    rw [hbody.resolve_right hne]
  | false =>
    have hexit : ifTrue = Label.ofBlock a.induction.exit := hexit
    rw [← hexit] at hne ⊢
    rw [hbody.resolve_left hne, or_comm]

/-- The loop is left from its header alone, and for one block. -/
theorem contains_or_exit (h : Detour f l a lanes updates n s n' x) (e : f.jumpFlow.edge u w)
    (hu : f.forest.contains l u = true) :
    f.forest.contains l w = true ∨ u = l.header.number ∧ w = a.induction.exit := by
  obtain ⟨r, hr⟩ := h.found
  obtain ⟨b, hb, c, hc, rfl, rfl, hsucc, -⟩ := h.edge_iff.mp e
  by_cases hin : f.forest.contains l c.id = true
  · exact .inl hin
  have hbid := Loop.id_eq_of_exits hr.exiting (Loop.mem_blocks.mpr ⟨hb, hu⟩) hsucc (Bool.eq_false_iff.mpr hin)
  obtain rfl := Func.eq_of_id_eq h.linked.nodup hb h.header_mem.1 (hbid.trans h.header_id.symm)
  have hl : Label.ofBlock c.id ∈ a.header.targets := (Func.jumpFlow_edge h.linked.nodup hb).mp e
  rcases h.mem_targets_header.mp hl with e | e
  · rw [Label.ofBlock_injective e] at hin
    exact absurd (List.find?_some hr.bodyEntry) hin
  · exact .inr ⟨hbid, Label.ofBlock_injective e⟩

/-- The loop is not left to where it is entered from. -/
theorem exit_ne (h : Detour f l a lanes updates n s n' x) : a.induction.exit ≠ a.entering.number := by
  obtain ⟨r, hr⟩ := h.found
  obtain ⟨hm, -⟩ := h.header_mem
  have hedge : f.jumpFlow.edge a.header.id a.induction.exit :=
    (Func.jumpFlow_edge h.linked.nodup hm).mpr (h.mem_targets_header.mpr (.inr rfl))
  obtain ⟨b, hb, c, hc, hbid, hcid, hsucc, -⟩ := h.edge_iff.mp hedge
  obtain rfl := Func.eq_of_id_eq h.linked.nodup hb hm hbid
  have hout : (!f.forest.contains l c.id) = true := by
    rw [hcid, h.not_contains_exit]
    rfl
  have hexiting : a.header ∈ l.exitingBlocks f f.forest := by
    refine List.mem_filter.mpr ⟨Loop.mem_blocks.mpr ⟨hm, h.header_id ▸ h.contains_header⟩, ?_⟩
    exact List.any_eq_true.mpr ⟨c.ref, hsucc, hout⟩
  have hleft : c.ref ∈ (l.exitingBlocks f f.forest).flatMap fun b =>
      b.succ.filter fun s => !f.forest.contains l s.number :=
    List.mem_flatMap.mpr ⟨a.header, hexiting, List.mem_filter.mpr ⟨hsucc, hout⟩⟩
  obtain ⟨q, hq, hqn⟩ := BlockRef.exists_mem_distinct hleft
  intro e
  refine h.apart.apart a.entering ?_ q hq ?_
  · rw [hr.entering]
    exact List.mem_singleton_self _
  · rw [hqn, ← e, ← hcid]
    rfl

/-- The block that enters the loop is reached without coming to the loop. -/
theorem exists_way_in (h : Detour f l a lanes updates n s n' x) :
    ∃ vs, f.jumpFlow.Path a.entering.number vs ∧ ∀ v ∈ vs, f.forest.contains l v = false := by
  obtain ⟨r, hr⟩ := h.found
  have hreach : (f.flow false).Reaches a.entering.number := by
    refine h.apart.reached a.entering ?_
    rw [hr.entering]
    exact List.mem_singleton_self _
  have hdom : ¬ (f.flow false).Dominates l.header.number a.entering.number := by
    intro hdom
    have hprev : a.entering ∈ LoopSearch.prevs f l.header := (Loop.outsidePreds_eq_singleton hr.entering).1.1
    have hin := LoopForest.contains_latch h.linked.toLinked h.mem hprev hdom
    rw [show (LoopForest.ofFunc f (DomTree.ofFunc f false)).contains l a.entering.number = false from
      h.not_contains_entering] at hin
    cases hin
  rw [h.flow_eq] at hreach hdom
  obtain ⟨vs, hpath, hheader⟩ := Flow.reaches_without_iff.mp (not_not.mp fun hno => hdom ⟨hreach, hno⟩)
  refine ⟨vs, hpath, ?_⟩
  -- whoever is in the loop and does not come to the header stays in it
  have key : ∀ {v : Int} {vs : List Int}, f.jumpFlow.Path v vs → l.header.number ∉ vs →
      f.forest.contains l v = false → ∀ v ∈ vs, f.forest.contains l v = false := by
    intro v vs hpath
    induction hpath with
    | root _ => exact fun _ hv => by simpa using hv
    | @step u w vs p e ih =>
      intro hheader hw
      obtain ⟨hne, hheader⟩ := not_or.mp (List.mem_cons.not.mp hheader)
      have hu : f.forest.contains l u = false := by
        refine Bool.eq_false_iff.mpr fun hu => ?_
        rcases h.contains_or_exit e hu with hin | ⟨rfl, -⟩
        · rw [hw] at hin
          cases hin
        · exact hheader p.mem
      exact List.forall_mem_cons.mpr ⟨hw, ih hheader hu⟩
  exact key hpath hheader h.not_contains_entering

end Loop

/-! ### Names of the copies -/

section Names

/-- The copy of a block of the loop has a number behind that of the guard. -/
theorem copyId_spec (h : Detour f l a lanes updates n s n' x) (hb : b ∈ l.blocks f f.forest) :
    x.clone.block? b.id = some (x.copyId b.id) ∧ Choice.guardId f < x.copyId b.id ∧
      x.copyId b.id < Choice.joiningId f f.forest l := h.staged.copyId_spec hb

theorem header_eq (h : Detour f l a lanes updates n s n' x) : x.header = x.copyId l.header.number := by
  rw [Choice.copyId, h.staged.header, Option.getD_some]

/-- The numbers in use are behind those of the new blocks. -/
theorem id_lt (h : Detour f l a lanes updates n s n' x) (hb : b ∈ f.blocks) : b.id < Choice.guardId f := by
  have := h.extensible.total b hb
  unfold Choice.guardId
  omega

/-- The labels that the copies get. -/
theorem label_names (h : Detour f l a lanes updates n s n' x) :
    (x.names f f.forest l a).label a.entering.label = Label.ofBlock (Choice.guardId f) ∧
    (x.names f f.forest l a).label (Label.ofBlock a.induction.exit) =
      Label.ofBlock (Choice.joiningId f f.forest l) ∧
    ∀ b ∈ l.blocks f f.forest, (x.names f f.forest l a).label b.label = Label.ofBlock (x.copyId b.id) := by
  have hne : a.entering.label ≠ Label.ofBlock a.induction.exit := fun e =>
    h.exit_ne (Label.ofBlock_injective e).symm
  refine ⟨?_, ?_, fun b hb => ?_⟩
  · rw [Choice.names, label_mapOutside, label_mapOutside, if_neg hne, if_pos rfl]
  · rw [Choice.names, label_mapOutside, if_pos rfl]
  · obtain ⟨_, _, _, -, -, hclone, -⟩ := h.staged.guard
    have hin := (Loop.mem_blocks.mp hb).2
    have hexit : b.label ≠ Label.ofBlock a.induction.exit := by
      intro e
      rw [show b.id = a.induction.exit from Label.ofBlock_injective e, h.not_contains_exit] at hin
      cases hin
    have hentering : b.label ≠ a.entering.label := by
      intro e
      rw [show b.id = a.entering.number from Label.ofBlock_injective e, h.not_contains_entering] at hin
      cases hin
    rw [Choice.names, label_mapOutside, label_mapOutside, if_neg hexit, if_neg hentering]
    exact LoopClone.label_of_block? hclone h.nodup_blocks (h.copyId_spec hb).1

end Names

/-! ### The function with the copy -/

/-- The function with a plain copy of the loop in front of it. -/
def func (f : Func) (l : Loop) (a : LoopAnatomy) (s : SplitParts) (x : Choice) : Func :=
  placed l.header { s with blocks := x.plainBlocks f f.forest l a } f

/-- A block of the function, as it stands beside the copy. -/
def kept (f : Func) (l : Loop) (a : LoopAnatomy) (s : SplitParts) (x : Choice) (c : Block) : Block :=
  rewired l.header { s with blocks := x.plainBlocks f f.forest l a } c

section Blocks

theorem mem_func : b ∈ (func f l a s x).blocks ↔ (∃ c ∈ f.blocks, kept f l a s x c = b) ∨
    b = x.plainGuard f ∨ (∃ c ∈ l.blocks f f.forest, (x.names f f.forest l a).copy c = b) ∨
    b = Choice.joiningBlock f f.forest l := by
  rw [func, mem_placed, or_comm]
  refine or_congr Iff.rfl ?_
  simp only [Choice.plainBlocks, List.cons_append, List.mem_cons, List.mem_append, List.mem_map,
    List.not_mem_nil, or_false]

theorem kept_mem (hc : c ∈ f.blocks) : kept f l a s x c ∈ (func f l a s x).blocks :=
  mem_func.mpr (.inl ⟨c, hc, rfl⟩)

theorem guard_mem : x.plainGuard f ∈ (func f l a s x).blocks := mem_func.mpr (.inr (.inl rfl))

theorem copy_mem (hb : b ∈ l.blocks f f.forest) :
    (x.names f f.forest l a).copy b ∈ (func f l a s x).blocks :=
  mem_func.mpr (.inr (.inr (.inl ⟨b, hb, rfl⟩)))

theorem joining_mem : Choice.joiningBlock f f.forest l ∈ (func f l a s x).blocks :=
  mem_func.mpr (.inr (.inr (.inr rfl)))

theorem kept_ref : (kept f l a s x c).ref = c.ref := ref_rewired ..

theorem kept_id : (kept f l a s x c).id = c.id := congrArg BlockRef.number kept_ref

/-- Numbers still tell the blocks apart. -/
theorem distinct (h : Detour f l a lanes updates n s n' x) : ((func f l a s x).blocks.map Block.id).Nodup := by
  have hids : (x.plainBlocks f f.forest l a).map Block.id = x.ids f f.forest l := by
    rw [Choice.plainBlocks, Choice.ids, List.cons_append, List.map_cons, List.map_append, List.map_map]
    rfl
  obtain ⟨hnew, hbetween⟩ := h.staged.ids_spec h.nodup_blocks
  exact nodup_placed h.linked.nodup h.extensible.total (hids ▸ hnew) (hids ▸ fun i hi => (hbetween i hi).1)

end Blocks

/-! ### Jumps -/

section Jumps

theorem jump_kept (h : Detour f l a lanes updates n s n' x) : (kept f l a s x c).jump =
    if c.ref = a.entering then
      c.jump.map (·.renameLabels (Func.renameOne l.header.label (Label.ofBlock (Choice.guardId f))))
    else c.jump := by
  have hjump := jump_rewired l.header { s with blocks := x.plainBlocks f f.forest l a } c
  rw [← h.staged.entering]
  exact hjump

/-- Only the block that enters the loop jumps elsewhere than before, to the guard instead of the header. -/
theorem targets_kept (h : Detour f l a lanes updates n s n' x) : (kept f l a s x c).targets =
    if c.ref = a.entering then
      c.targets.map (Func.renameOne l.header.label (Label.ofBlock (Choice.guardId f))) else c.targets := by
  have hjump := h.jump_kept (c := c)
  split
  · rename_i he
    rw [if_pos he] at hjump
    exact Block.targets_of_jump (Instr.targets_renameLabels _) hjump
  · rename_i he
    rw [if_neg he] at hjump
    rw [Block.targets, hjump, Block.targets]

theorem label_ne_guard (h : Detour f l a lanes updates n s n' x) (hb : b ∈ f.blocks) :
    b.label ≠ Label.ofBlock (Choice.guardId f) := fun e =>
  Int.ne_of_lt (h.id_lt hb) (Label.ofBlock_injective e)

/-- A jump to a block of the function leads there as before, but for that into the loop. -/
theorem mem_targets_kept (h : Detour f l a lanes updates n s n' x) (hb : b ∈ f.blocks) :
    b.label ∈ (kept f l a s x c).targets ↔
      b.label ∈ c.targets ∧ ¬ (c.ref = a.entering ∧ b.id = l.header.number) := by
  rw [h.targets_kept]
  split
  · rename_i he
    rw [List.mem_map]
    constructor
    · rintro ⟨k, hk, e⟩
      unfold Func.renameOne at e
      split at e
      · exact absurd e.symm (h.label_ne_guard hb)
      · rename_i hne
        subst e
        exact ⟨hk, fun hheader => hne (beq_iff_eq.mpr (congrArg Label.ofBlock hheader.2))⟩
    · rintro ⟨hk, hne⟩
      refine ⟨b.label, hk, ?_⟩
      unfold Func.renameOne
      rw [if_neg]
      intro e
      exact hne ⟨he, Label.ofBlock_injective (beq_iff_eq.mp e)⟩
  · rename_i he
    exact ⟨fun hk => ⟨hk, fun hno => he hno.1⟩, fun hk => hk.1⟩

/-- The guard is jumped to by the block that enters the loop. -/
theorem guard_mem_targets_kept (h : Detour f l a lanes updates n s n' x) (hc : c ∈ f.blocks)
    (hk : Label.ofBlock (Choice.guardId f) ∈ (kept f l a s x c).targets) : c.ref = a.entering := by
  rw [h.targets_kept] at hk
  split at hk
  · assumption
  · obtain ⟨b, hb, e⟩ := h.linked.exists_target hc hk
    exact absurd e (h.label_ne_guard hb)

theorem targets_plainCopy : ((x.names f f.forest l a).copy b).targets =
    b.targets.map (x.names f f.forest l a).label := targets_copy

/-- The copies jump to copies as their originals do, and that of the header may leave. -/
theorem mem_targets_copy (h : Detour f l a lanes updates n s n' x) (hb : b ∈ l.blocks f f.forest) {k : Label} :
    k ∈ ((x.names f f.forest l a).copy b).targets ↔
      (∃ c ∈ l.blocks f f.forest, c.label ∈ b.targets ∧ k = Label.ofBlock (x.copyId c.id)) ∨
        b.id = l.header.number ∧ k = Label.ofBlock (Choice.joiningId f f.forest l) := by
  obtain ⟨-, hexit, hlabel⟩ := h.label_names
  obtain ⟨hbf, hin⟩ := Loop.mem_blocks.mp hb
  rw [targets_plainCopy, List.mem_map]
  constructor
  · rintro ⟨j, hj, rfl⟩
    obtain ⟨c, hc, rfl⟩ := h.linked.exists_target hbf hj
    rcases h.contains_or_exit ((Func.jumpFlow_edge h.linked.nodup hbf).mpr hj) hin with hcin | ⟨hbh, hce⟩
    · exact .inl ⟨c, Loop.mem_blocks.mpr ⟨hc, hcin⟩, hj, hlabel c (Loop.mem_blocks.mpr ⟨hc, hcin⟩)⟩
    · refine .inr ⟨hbh, ?_⟩
      rw [← hexit]
      exact congrArg _ (congrArg Label.ofBlock hce)
  · rintro (⟨c, hc, hj, rfl⟩ | ⟨hbh, rfl⟩)
    · exact ⟨c.label, hj, hlabel c hc⟩
    · obtain rfl := Func.eq_of_id_eq h.linked.nodup hbf h.header_mem.1 (hbh.trans h.header_id.symm)
      exact ⟨_, h.mem_targets_header.mpr (.inr rfl), hexit⟩

end Jumps

/-! ### Paths -/

section Paths

/-- What a path through the function with the copy says of paths through the function: with its ways through
the copy left out it is one of those, and a way through the copy comes after any path to the loop. -/
inductive Trace (f : Func) (l : Loop) (a : LoopAnatomy) (x : Choice) : Int → List Int → Prop
  | kept {c : Block} {vs ws : List Int} (mem : c ∈ f.blocks) (way : f.jumpFlow.Path c.id ws) (sub : ws ⊆ vs) :
    Trace f l a x c.id vs
  | guard {vs ws : List Int} (way : f.jumpFlow.Path a.entering.number ws) (sub : ws ⊆ vs) :
    Trace f l a x (Choice.guardId f) vs
  | copy {b : Block} {vs ws r : List Int} (mem : b ∈ l.blocks f f.forest)
    (way : f.jumpFlow.Path a.entering.number ws) (sub : ws ⊆ vs) (guard : Choice.guardId f ∈ vs)
    (through : ∀ ws, f.jumpFlow.Path a.entering.number ws → f.jumpFlow.Path b.id (r ++ ws))
    (header : l.header.number ∈ r) (copies : ∀ u ∈ r, f.forest.contains l u = true ∧ x.copyId u ∈ vs) :
    Trace f l a x (x.copyId b.id) vs
  | joining {vs ws : List Int} (way : f.jumpFlow.Path a.entering.number ws) (sub : ws ⊆ vs)
    (header : x.header ∈ vs) : Trace f l a x (Choice.joiningId f f.forest l) vs

theorem Trace.mono {vs vs' : List Int} (ht : Trace f l a x v vs) (hsub : vs ⊆ vs') : Trace f l a x v vs' := by
  cases ht with
  | kept mem way sub => exact .kept mem way (List.Subset.trans sub hsub)
  | guard way sub => exact .guard way (List.Subset.trans sub hsub)
  | copy mem way sub guard through header copies =>
    exact .copy mem way (List.Subset.trans sub hsub) (hsub guard) through header fun u hu =>
      ⟨(copies u hu).1, hsub (copies u hu).2⟩
  | joining way sub header => exact .joining way (List.Subset.trans sub hsub) (hsub header)

/-- The function is entered where it was. -/
theorem root_iff (h : Detour f l a lanes updates n s n' x) : (func f l a s x).jumpFlow.root v ↔ f.jumpFlow.root v := by
  -- the entry is not the header, for the way to the loop starts outside of it
  have hfirst : ∀ b ∈ f.blocks.take 1, b.id ≠ l.header.number := by
    intro b hb e
    obtain ⟨vs, hpath, hout⟩ := h.exists_way_in
    have hroot : ∀ {v : Int} {vs : List Int}, f.jumpFlow.Path v vs → b.id ∈ vs := by
      intro v vs hpath
      induction hpath with
      | root hr =>
        obtain ⟨c, hc, rfl⟩ := hr
        have hc : c ∈ f.blocks.take 1 := hc
        cases hbs : f.blocks with
        | nil => simp [hbs] at hc
        | cons d ds =>
          rw [hbs, List.take_succ_cons, List.take_zero, List.mem_singleton] at hb hc
          rw [hb, hc]
          exact List.mem_singleton_self _
      | step _ _ ih => exact List.mem_cons_of_mem _ ih
    have hin := hout b.id (hroot hpath)
    rw [e, h.contains_header] at hin
    cases hin
  have hhead : (func f l a s x).blocks.take 1 = (f.blocks.take 1).map (kept f l a s x) := by
    obtain ⟨hm, -⟩ := h.header_mem
    cases hbs : f.blocks with
    | nil => simp [hbs] at hm
    | cons b bs =>
      have hb : (b.id == l.header.number) = false := beq_false_of_ne (hfirst b (by simp [hbs]))
      have hsome : (bs.findIdx? (·.id == l.header.number)).isSome = true := by
        rw [List.findIdx?_isSome, List.any_eq_true]
        refine ⟨a.header, ?_, beq_iff_eq.mpr h.header_id⟩
        rw [hbs] at hm
        exact (List.mem_cons.mp hm).resolve_left fun e => (beq_eq_false_iff_ne.mp hb) (e ▸ h.header_id)
      obtain ⟨j, hj⟩ := Option.isSome_iff_exists.mp hsome
      have hplace : f.position? l.header.number = some (j + 1) := by
        rw [Func.position?, hbs, List.findIdx?_cons, hb, hj]
        rfl
      simp [func, placed, hplace, hbs, kept]
  show (∃ b ∈ (func f l a s x).blocks.take 1, b.id = v) ↔ ∃ b ∈ f.blocks.take 1, b.id = v
  rw [hhead]
  constructor
  · rintro ⟨_, hmem, rfl⟩
    obtain ⟨b, hb, rfl⟩ := List.mem_map.mp hmem
    exact ⟨b, hb, kept_id.symm⟩
  · rintro ⟨b, hb, rfl⟩
    exact ⟨_, List.mem_map_of_mem hb, kept_id⟩

/-- Another jump of a block of the function leads where it led. -/
theorem mem_targets_of_kept (h : Detour f l a lanes updates n s n' x) {k : Label}
    (hk : k ∈ (kept f l a s x c).targets) (hne : k ≠ Label.ofBlock (Choice.guardId f)) : k ∈ c.targets := by
  rw [h.targets_kept] at hk
  split at hk
  · obtain ⟨j, hj, rfl⟩ := List.mem_map.mp hk
    unfold Func.renameOne at hne ⊢
    split at hne
    · exact absurd rfl hne
    · rename_i he
      rwa [if_neg he]
  · exact hk

/-- One step further, a path still has its trace. -/
theorem Trace.step (h : Detour f l a lanes updates n s n' x) {vs : List Int} (ht : Trace f l a x u vs)
    (hlast : u ∈ vs) (e : (func f l a s x).jumpFlow.edge u w) : Trace f l a x w (w :: vs) := by
  have hsub : ∀ {ws : List Int}, ws ⊆ vs → ws ⊆ w :: vs := fun hws => List.Subset.trans hws (List.subset_cons_self _ _)
  have hheader : a.header ∈ l.blocks f f.forest :=
    Loop.mem_blocks.mpr ⟨h.header_mem.1, h.header_id ▸ h.contains_header⟩
  cases ht with
  | @kept c _ ws mem way sub =>
    have hl : Label.ofBlock w ∈ (Detour.kept f l a s x c).targets :=
      (Func.jumpFlow_edge h.distinct (kept_mem mem)).mp (by rwa [kept_id])
    by_cases hg : w = Choice.guardId f
    · subst hg
      have he : c.id = a.entering.number := congrArg BlockRef.number (h.guard_mem_targets_kept mem hl)
      exact .guard (he ▸ way) (hsub sub)
    · have hc := h.mem_targets_of_kept hl fun e => hg (Label.ofBlock_injective e)
      obtain ⟨d, hd, hdl⟩ := h.linked.exists_target mem hc
      obtain rfl : d.id = w := Label.ofBlock_injective hdl
      exact .kept hd (way.step ((Func.jumpFlow_edge h.linked.nodup mem).mpr hc)) (List.cons_subset_cons _ sub)
  | @guard _ ws way sub =>
    have hl : Label.ofBlock w ∈ (x.plainGuard f).targets := (Func.jumpFlow_edge h.distinct guard_mem).mp e
    obtain rfl : w = x.copyId a.header.id := by
      rw [h.header_id, ← h.header_eq]
      exact Label.ofBlock_injective (List.mem_singleton.mp hl)
    refine .copy (r := [l.header.number]) hheader way (hsub sub) (List.mem_cons_of_mem _ hlast) (fun ws p => ?_)
      List.mem_cons_self ?_
    · exact h.header_id.symm ▸ p.step h.edge_entering
    · refine List.forall_mem_singleton.mpr ⟨h.contains_header, ?_⟩
      rw [h.header_id]
      exact List.mem_cons_self
  | @copy b _ ws us mem way sub guard through header copies =>
    have hl : Label.ofBlock w ∈ ((x.names f f.forest l a).copy b).targets :=
      (Func.jumpFlow_edge h.distinct (copy_mem mem)).mp e
    rcases (h.mem_targets_copy mem).mp hl with ⟨c, hc, hcl, hw⟩ | ⟨hbh, hw⟩
    · obtain rfl : w = x.copyId c.id := Label.ofBlock_injective hw
      refine .copy (r := c.id :: us) hc way (hsub sub) (List.mem_cons_of_mem _ guard) (fun ws p => ?_)
        (List.mem_cons_of_mem _ header) (List.forall_mem_cons.mpr ⟨⟨(Loop.mem_blocks.mp hc).2, ?_⟩, fun u hu => ?_⟩)
      · exact (through ws p).step ((Func.jumpFlow_edge h.linked.nodup (Loop.mem_blocks.mp mem).1).mpr hcl)
      · exact List.mem_cons_self
      · exact ⟨(copies u hu).1, List.mem_cons_of_mem _ (copies u hu).2⟩
    · obtain rfl : w = Choice.joiningId f f.forest l := Label.ofBlock_injective hw
      refine .joining way (hsub sub) (List.mem_cons_of_mem _ ?_)
      rw [h.header_eq, ← hbh]
      exact hlast
  | @joining _ ws way sub header =>
    have hl : Label.ofBlock w ∈ (Choice.joiningBlock f f.forest l).targets :=
      (Func.jumpFlow_edge h.distinct joining_mem).mp e
    obtain rfl : w = a.header.id := by
      rw [h.header_id]
      exact Label.ofBlock_injective (List.mem_singleton.mp hl)
    refine .kept h.header_mem.1 (h.header_id.symm ▸ way.step h.edge_entering) ?_
    rw [h.header_id]
    exact List.cons_subset_cons _ sub

/-- Every path has its trace. -/
theorem trace (h : Detour f l a lanes updates n s n' x) {vs : List Int} (p : (func f l a s x).jumpFlow.Path v vs) :
    Trace f l a x v vs := by
  induction p with
  | @root v hr =>
    have hroot := h.root_iff.mp hr
    obtain ⟨c, hc, rfl⟩ := hroot
    exact .kept (Func.mem_roots hc) (.root ⟨c, hc, rfl⟩) (List.Subset.refl _)
  | step p e ih => exact ih.step h p.mem e

/-- A path to a block of the function is one as before, but for its ways through the copy. -/
theorem way_kept (h : Detour f l a lanes updates n s n' x) (hc : c ∈ f.blocks) {vs : List Int}
    (p : (func f l a s x).jumpFlow.Path c.id vs) : ∃ ws, f.jumpFlow.Path c.id ws ∧ ws ⊆ vs := by
  have ht := h.trace p
  have hlt := h.id_lt hc
  generalize c.id = u at ht hlt
  cases ht with
  | kept _ way sub => exact ⟨_, way, sub⟩
  | guard => exact absurd hlt (Int.lt_irrefl _)
  | copy mem => exact absurd (h.copyId_spec mem).2.1 (Int.not_lt.mpr (Int.le_of_lt hlt))
  | joining => exact absurd guard_lt_joining (Int.not_lt.mpr (Int.le_of_lt hlt))

/-- A path to the guard comes by the entering block. -/
theorem way_guard (h : Detour f l a lanes updates n s n' x) {vs : List Int}
    (p : (func f l a s x).jumpFlow.Path (Choice.guardId f) vs) :
    ∃ ws, f.jumpFlow.Path a.entering.number ws ∧ ws ⊆ vs := by
  have ht := h.trace p
  generalize hu : Choice.guardId f = u at ht
  cases ht with
  | kept mem => exact absurd (h.id_lt mem) (Int.not_lt.mpr (Int.le_of_eq hu))
  | guard way sub => exact ⟨_, way, sub⟩
  | copy mem => exact absurd (h.copyId_spec mem).2.1 (Int.not_lt.mpr (Int.le_of_eq hu.symm))
  | joining => exact absurd (guard_lt_joining (f := f) (l := l)) (Int.not_lt.mpr (Int.le_of_eq hu.symm))

/-- A path to the copy of a block comes by the guard and the copy of the header, and goes on as a path through
the loop does after any way to it. -/
theorem way_copy (h : Detour f l a lanes updates n s n' x) (hb : b ∈ l.blocks f f.forest) {vs : List Int}
    (p : (func f l a s x).jumpFlow.Path (x.copyId b.id) vs) : Choice.guardId f ∈ vs ∧ x.header ∈ vs ∧
      ∃ ws r, f.jumpFlow.Path a.entering.number ws ∧ ws ⊆ vs ∧
        (∀ ws, f.jumpFlow.Path a.entering.number ws → f.jumpFlow.Path b.id (r ++ ws)) ∧
        ∀ u ∈ r, f.forest.contains l u = true ∧ x.copyId u ∈ vs := by
  have ht := h.trace p
  have hspec := h.copyId_spec hb
  generalize hu : x.copyId b.id = u at ht hspec
  cases ht with
  | kept mem => exact absurd hspec.2.1 (Int.not_lt.mpr (Int.le_of_lt (h.id_lt mem)))
  | guard => exact absurd hspec.2.1 (Int.lt_irrefl _)
  | @copy c _ ws us mem way sub guard through header copies =>
    obtain rfl := h.staged.copyId_injective h.nodup_blocks hb mem hu
    exact ⟨guard, h.header_eq ▸ (copies _ header).2, ws, us, way, sub, through, copies⟩
  | joining => exact absurd hspec.2.2 (Int.lt_irrefl _)

/-- A path to a block of the function passes what all paths to it passed. -/
theorem mem_path_kept (h : Detour f l a lanes updates n s n' x) (hc : c ∈ f.blocks)
    (hdom : ∀ ws, f.jumpFlow.Path c.id ws → v ∈ ws) {vs : List Int}
    (p : (func f l a s x).jumpFlow.Path c.id vs) : v ∈ vs := by
  obtain ⟨ws, way, sub⟩ := h.way_kept hc p
  exact sub (hdom ws way)

/-- A path to the guard passes what all paths to the entering block passed. -/
theorem mem_path_guard (h : Detour f l a lanes updates n s n' x)
    (hdom : ∀ ws, f.jumpFlow.Path a.entering.number ws → v ∈ ws) {vs : List Int}
    (p : (func f l a s x).jumpFlow.Path (Choice.guardId f) vs) : v ∈ vs := by
  obtain ⟨ws, way, sub⟩ := h.way_guard p
  exact sub (hdom ws way)

/-- A path to the copy of a block passes the copies of what all paths to the block passed inside the loop, and
what all paths passed outside. -/
theorem mem_path_copy (h : Detour f l a lanes updates n s n' x) (hb : b ∈ l.blocks f f.forest)
    (hdom : ∀ ws, f.jumpFlow.Path b.id ws → v ∈ ws) {vs : List Int}
    (p : (func f l a s x).jumpFlow.Path (x.copyId b.id) vs) :
    (if f.forest.contains l v = true then x.copyId v else v) ∈ vs := by
  obtain ⟨-, -, ws, r, way, sub, through, copies⟩ := h.way_copy hb p
  -- the way to the loop can be taken outside of it
  obtain ⟨ws', hway, hout⟩ := h.exists_way_in
  split
  · rename_i hv
    rcases List.mem_append.mp (hdom _ (through ws' hway)) with hin | hin
    · exact (copies v hin).2
    · rw [hout v hin] at hv
      cases hv
  · rename_i hv
    rcases List.mem_append.mp (hdom _ (through ws way)) with hin | hin
    · exact absurd (copies v hin).1 hv
    · exact sub hin

/-- A path to the joining block passes the copy of the header. -/
theorem mem_path_joining (h : Detour f l a lanes updates n s n' x) {vs : List Int}
    (p : (func f l a s x).jumpFlow.Path (Choice.joiningId f f.forest l) vs) : x.header ∈ vs := by
  have ht := h.trace p
  have hlt : Choice.guardId f < Choice.joiningId f f.forest l := guard_lt_joining
  generalize hu : Choice.joiningId f f.forest l = u at ht
  cases ht with
  | kept mem => exact absurd (hu ▸ hlt) (Int.not_lt.mpr (Int.le_of_lt (h.id_lt mem)))
  | guard => exact absurd (hu ▸ hlt) (Int.lt_irrefl _)
  | copy mem => exact absurd (h.copyId_spec mem).2.2 (Int.not_lt.mpr (Int.le_of_eq hu))
  | joining _ _ header => exact header

end Paths

end Detour

end SplitPlan

end LoopLanes
