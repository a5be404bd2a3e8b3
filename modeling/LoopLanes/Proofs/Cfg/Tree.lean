/-
The dominator tree, read off the walks of a function.

A walk follows successor links from block to block.  Dominance is what walks from the entry say, and
post-dominance is what walks to the blocks without successors say; a tree answers both.

* `idom?_eq_some_iff` — the immediate dominator is the only strict dominator that all others dominate;
* `idom?_eq_none_iff` — a block without one has no strict dominator;
* `mem_children_iff` — children and immediate dominators are inverse to each other;
* `trees_of_resolveLinks` — the trees of a function answer what stands on all ways in and on all ways
  out, wherever its links were just rebuilt.
-/
import LoopLanes.Proofs.Cfg.WellFormed

namespace LoopLanes

namespace Func

variable {f : Func} {u v w : Int} {vs ws : List Int}

/-- Rebuilt links agree at both ends. -/
theorem linked_resolveLinks (h : (f.blocks.map Block.id).Nodup) : f.resolveLinks.1.Linked := by
  have hrefs : f.resolveLinks.1.blocks.map Block.ref = f.blocks.map Block.ref := by
    have key : ∀ bs : List Block, bs.map Block.ref = (bs.map Block.clearLinks).map Block.ref :=
      fun bs => by rw [List.map_map]; rfl
    rw [key, map_clearLinks_resolveLinks, ← key]
  have hmutual : ∀ b ∈ f.resolveLinks.1.blocks, ∀ c ∈ f.resolveLinks.1.blocks,
      c.ref ∈ b.succ ↔ b.ref ∈ c.prev := by
    intro b hb c hc
    rw [← List.count_pos_iff, ← List.count_pos_iff, balanced_resolveLinks f b hb c hc]
  refine ⟨nodup_ids_of_refs hrefs h, fun b hb r hr => ?_, fun b hb r hr => ?_⟩
  · obtain ⟨c, hc, rfl⟩ := linksInside_resolveLinks f b hb r (List.mem_append_right _ hr)
    exact ⟨c, hc, rfl, (hmutual b hb c hc).mp hr⟩
  · obtain ⟨c, hc, rfl⟩ := linksInside_resolveLinks f b hb r (List.mem_append_left _ hr)
    exact ⟨c, hc, rfl, (hmutual c hc b hb).mpr hr⟩

/-! ### Walks -/

/-- A successor link leads from one block to another. -/
def Follows (f : Func) (u w : Int) : Prop := ∃ b ∈ f.blocks, b.id = u ∧ ∃ r ∈ b.succ, r.number = w

/-- A way along successor links, with the numbers of all blocks on it. -/
inductive Walk (f : Func) : Int → List Int → Int → Prop
  | stay {b : Block} (hb : b ∈ f.blocks) : Walk f b.id [b.id] b.id
  | go {u w v : Int} {vs : List Int} (e : f.Follows u w) (rest : Walk f w vs v) : Walk f u (u :: vs) v

/-- A block that nothing follows. -/
def IsExit (f : Func) (v : Int) : Prop := ∃ b ∈ f.blocks, b.id = v ∧ b.succ = []

theorem Walk.exists_block (h : f.Walk u vs v) : ∃ b ∈ f.blocks, b.id = u := by
  induction h with
  | stay hb => exact ⟨_, hb, rfl⟩
  | go e _ _ =>
    obtain ⟨b, hb, hid, -⟩ := e
    exact ⟨b, hb, hid⟩

theorem Walk.snoc (h : f.Walk u vs v) (e : f.Follows v w) (hw : ∃ b ∈ f.blocks, b.id = w) :
    f.Walk u (vs ++ [w]) w := by
  induction h with
  | stay hb =>
    obtain ⟨c, hc, rfl⟩ := hw
    exact .go e (.stay hc)
  | go e' _ ih => exact .go e' (ih e)

/-- What is walked behind a path prolongs it. -/
theorem Walk.path (h : f.Walk u vs v) (p : (f.flow false).Path u (u :: ws)) :
    (f.flow false).Path v (vs.reverse ++ ws) := by
  induction h generalizing ws with
  | stay hb => exact p
  | @go u w v vs e rest ih =>
    have := ih (p.step e)
    rwa [List.reverse_cons, List.append_assoc, List.singleton_append]

/-- The paths of the graph are the walks from the entry, written backwards. -/
theorem path_iff_walk (hf : f.Linked) : (f.flow false).Path v vs ↔ f.Walk f.entry.id vs.reverse v := by
  constructor
  · intro h
    induction h with
    | root h =>
      obtain ⟨b, hb, rfl⟩ := h
      rw [entry_eq_of_mem_roots hb]
      exact .stay (mem_roots hb)
    | step p e ih =>
      rw [List.reverse_cons]
      exact ih.snoc e (hf.exists_block (p.step e).reaches)
  · intro h
    obtain ⟨b, hb, -⟩ := h.exists_block
    simpa using h.path (.root (root_entry (List.ne_nil_of_mem hb)))

/-- Against the links, an edge goes back from a block to what leads to it. -/
theorem reverse_edge_iff (hf : f.Linked) : (f.flow true).edge u w ↔ f.Follows w u := by
  constructor
  · rintro ⟨b, hb, rfl, r, hr, rfl⟩
    obtain ⟨c, hc, rfl, hback⟩ := hf.prev b hb r hr
    exact ⟨c, hc, rfl, b.ref, hback, rfl⟩
  · rintro ⟨b, hb, rfl, r, hr, rfl⟩
    obtain ⟨c, hc, rfl, hback⟩ := hf.succ b hb r hr
    exact ⟨c, hc, rfl, b.ref, hback, rfl⟩

/-- The paths of the reversed graph are the walks to the exits. -/
theorem reverse_path_iff_walk (hf : f.Linked) :
    (f.flow true).Path v vs ↔ ∃ e, f.IsExit e ∧ f.Walk v vs e := by
  constructor
  · intro h
    induction h with
    | root h =>
      obtain ⟨b, hb, rfl⟩ := h
      obtain ⟨hmem, hexit⟩ := List.mem_filter.mp hb
      exact ⟨b.id, ⟨b, hmem, rfl, by simpa using hexit⟩, .stay hmem⟩
    | step _ e ih =>
      obtain ⟨x, hx, h⟩ := ih
      exact ⟨x, hx, .go ((reverse_edge_iff hf).mp e) h⟩
  · rintro ⟨e, ⟨b, hb, rfl, hexit⟩, h⟩
    generalize hv : b.id = v' at h
    induction h with
    | stay hc => 
      refine .root ⟨_, List.mem_filter.mpr ⟨hc, ?_⟩, rfl⟩
      rw [eq_of_id_eq hf.nodup hc hb hv.symm, hexit]
      rfl
    | go e _ ih => exact (ih hv).step ((reverse_edge_iff hf).mpr e)

end Func

/-- Some member of a list that has any is the first of the smallest. -/
theorem exists_firstMin? {α : Type} (key : α → Nat) : ∀ {l : List α}, l ≠ [] → ∃ a, firstMin? key l = some a := by
  intro l h
  cases l with
  | nil => exact absurd rfl h
  | cons a as =>
    rw [firstMin?]
    split
    · exact ⟨a, rfl⟩
    · split
      · exact ⟨_, rfl⟩
      · exact ⟨_, rfl⟩

namespace DomTree

open Func

variable {f : Func} {reverse : Bool} {a d v : Int}

/-- A block has at most one closest strict dominator. -/
theorem IsParent.unique {d' : Int} (h : IsParent f reverse d v) (h' : IsParent f reverse d' v) : d = d' :=
  (h'.closest d h.dominates h.ne).antisymm (h.closest d' h'.dominates h'.ne)

/-- A block that has a strict dominator has a parent. -/
theorem exists_parent (hf : f.Linked) {b : Block} (hb : b ∈ f.blocks)
    (h : (f.flow reverse).Dominates a b.id) (ne : a ≠ b.id) :
    ∃ d, (b.ref, d) ∈ (ofFunc f reverse).parents := by
  obtain ⟨c, hc, rfl⟩ := hf.exists_block h.reaches_left
  have hstrict : c.id ∈ (f.blocks.map (·.id)).filter fun d =>
      d != b.id && ((lookup (regionsOf f reverse) d).getD []).contains b.id := by
    refine List.mem_filter.mpr ⟨List.mem_map_of_mem hc, ?_⟩
    rw [Bool.and_eq_true, List.contains_iff_mem]
    exact ⟨by simpa using ne, (mem_region hf).mpr h⟩
  obtain ⟨d, hd⟩ := exists_firstMin? (fun d => ((lookup (regionsOf f reverse) d).getD []).length)
    (List.ne_nil_of_mem hstrict)
  exact ⟨d, List.mem_filterMap.mpr ⟨b, hb, Option.map_eq_some_iff.mpr ⟨d, hd, rfl⟩⟩⟩

/-- The immediate dominator is the closest strict one. -/
theorem idom?_eq_some_iff (hf : f.Linked) :
    (ofFunc f reverse).idom? v = some d ↔ IsParent f reverse d v := by
  have found : ∀ {d}, (ofFunc f reverse).idom? v = some d → IsParent f reverse d v := by
    intro d h
    obtain ⟨⟨r, d'⟩, hfind, rfl⟩ := Option.map_eq_some_iff.mp h
    obtain ⟨b, -, rfl, hparent⟩ := isParent_of_mem hf (List.mem_of_find?_eq_some hfind)
    have hid : b.id = v := by simpa [Block.id] using List.find?_some hfind
    exact hid ▸ hparent
  refine ⟨found, fun h => ?_⟩
  obtain ⟨b, hb, rfl⟩ := hf.exists_block h.dominates.reaches
  obtain ⟨d', hmem⟩ := exists_parent hf hb h.dominates h.ne
  obtain ⟨e, he⟩ : ∃ e, (ofFunc f reverse).idom? b.id = some e := by
    rw [← Option.isSome_iff_exists, idom?, Option.isSome_map, List.find?_isSome]
    exact ⟨_, hmem, by simp [Block.id]⟩
  rw [he, (found he).unique h]

/-- Only blocks without strict dominators have no immediate one. -/
theorem idom?_eq_none_iff (hf : f.Linked) :
    (ofFunc f reverse).idom? v = none ↔ ∀ a, (f.flow reverse).Dominates a v → a = v := by
  constructor
  · intro h a ha
    by_contra ne
    obtain ⟨b, hb, rfl⟩ := hf.exists_block ha.reaches
    obtain ⟨d, hmem⟩ := exists_parent hf hb ha ne
    have := List.find?_eq_none.mp (Option.map_eq_none_iff.mp h) _ hmem
    simp [Block.id] at this
  · intro h
    cases he : (ofFunc f reverse).idom? v with
    | none => rfl
    | some d =>
      have hparent := (idom?_eq_some_iff hf).mp he
      exact absurd (h d hparent.dominates) hparent.ne

/-- Children are the blocks whose immediate dominator it is. -/
theorem mem_children_iff (hf : f.Linked) {r : BlockRef} :
    r ∈ (ofFunc f reverse).children d ↔
      ∃ b ∈ f.blocks, b.ref = r ∧ (ofFunc f reverse).idom? b.id = some d := by
  constructor
  · intro h
    obtain ⟨b, hb, rfl, hparent⟩ := mem_children hf h
    exact ⟨b, hb, rfl, (idom?_eq_some_iff hf).mpr hparent⟩
  · rintro ⟨b, hb, rfl, h⟩
    have hparent := (idom?_eq_some_iff hf).mp h
    obtain ⟨e, hmem⟩ := exists_parent hf hb hparent.dominates hparent.ne
    obtain ⟨c, -, href, he⟩ := isParent_of_mem hf hmem
    rw [show c.id = b.id from congrArg BlockRef.number href] at he
    obtain rfl := he.unique hparent
    exact List.mem_map.mpr ⟨_, List.mem_filter.mpr ⟨hmem, by simp⟩, rfl⟩

/-- A strict dominator of a block has a child above the block. -/
theorem exists_child (hf : f.Linked) (h : (f.flow reverse).Dominates a v) (ne : a ≠ v) :
    ∃ r ∈ (ofFunc f reverse).children a, (f.flow reverse).Dominates r.number v := by
  -- the parents of a block come closer and closer to the dominator
  induction hn : ((lookup (regionsOf f reverse) a).getD []).length -
      ((lookup (regionsOf f reverse) v).getD []).length using Nat.strongRecOn generalizing v with
  | ind n ih =>
    obtain ⟨b, hb, rfl⟩ := hf.exists_block h.reaches
    obtain ⟨d, hmem⟩ := exists_parent hf hb h ne
    obtain ⟨c, hc, href, hparent⟩ := isParent_of_mem hf hmem
    rw [show c.id = b.id from congrArg BlockRef.number href] at hparent
    by_cases hd : a = d
    · subst hd
      refine ⟨b.ref, (mem_children_iff hf).mpr ⟨b, hb, rfl, ?_⟩, .refl h.reaches⟩
      exact (idom?_eq_some_iff hf).mpr hparent
    · have hbelow := hparent.closest a h ne
      have hlt := region_length_lt hf hparent.dominates hparent.ne
      have hlt' := region_length_lt hf hbelow hd
      obtain ⟨r, hr, hdom⟩ := ih _ (by omega) hbelow hd rfl
      exact ⟨r, hr, hdom.trans hparent.dominates⟩

/-- A tree that answers a relation between blocks: the parent of `b` is the one block strictly above
`b` that every other one is above of, only what has nothing strictly above it has no parent, and
children are listed under their parent. -/
structure Answers (t : DomTree) (f : Func) (Above : Int → Int → Prop) : Prop where
  dominates : ∀ a b, t.dominates a b = true ↔ Above a b
  parent : ∀ b d, t.idom? b = some d ↔ Above d b ∧ d ≠ b ∧ ∀ a, Above a b → a ≠ b → Above a d
  root : ∀ b, t.idom? b = none ↔ ∀ a, Above a b → a = b
  children : ∀ d r, r ∈ t.children d ↔ ∃ b ∈ f.blocks, b.ref = r ∧ t.idom? b.id = some d

theorem answers_dominance (hf : f.Linked) :
    (ofFunc f reverse).Answers f (f.flow reverse).Dominates where
  dominates _ _ := dominates_iff hf
  parent _ _ := (idom?_eq_some_iff hf).trans
    ⟨fun h => ⟨h.dominates, h.ne, h.closest⟩, fun ⟨h, ne, closest⟩ => ⟨h, ne, closest⟩⟩
  root _ := idom?_eq_none_iff hf
  children _ _ := mem_children_iff hf

end DomTree

namespace Func

variable {f : Func} {a b : Int}

/-- Some walk leads from the entry to `b`, and every such walk passes `a`. -/
def OnEveryWayIn (f : Func) (a b : Int) : Prop :=
  (∃ vs, f.Walk f.entry.id vs b) ∧ ∀ vs, f.Walk f.entry.id vs b → a ∈ vs

/-- Some walk leads from `b` to an exit, and every such walk passes `a`. -/
def OnEveryWayOut (f : Func) (a b : Int) : Prop :=
  (∃ e vs, f.IsExit e ∧ f.Walk b vs e) ∧ ∀ e vs, f.IsExit e → f.Walk b vs e → a ∈ vs

theorem dominates_iff_onEveryWayIn (hf : f.Linked) : (f.flow false).Dominates a b ↔ f.OnEveryWayIn a b := by
  rw [Flow.dominates_iff_forall_path, Flow.reaches_iff_exists_path]
  simp only [path_iff_walk hf]
  -- lists of paths are those of walks, turned around
  constructor
  · rintro ⟨⟨vs, h⟩, hall⟩
    refine ⟨⟨_, h⟩, fun ws hw => ?_⟩
    exact List.mem_reverse.mp (hall ws.reverse (by rwa [List.reverse_reverse]))
  · rintro ⟨⟨vs, h⟩, hall⟩
    refine ⟨⟨vs.reverse, by rwa [List.reverse_reverse]⟩, fun ws hw => ?_⟩
    exact List.mem_reverse.mp (hall ws.reverse hw)

theorem dominates_iff_onEveryWayOut (hf : f.Linked) : (f.flow true).Dominates a b ↔ f.OnEveryWayOut a b := by
  rw [Flow.dominates_iff_forall_path, Flow.reaches_iff_exists_path]
  simp only [reverse_path_iff_walk hf]
  constructor
  · rintro ⟨⟨vs, e, he, h⟩, hall⟩
    exact ⟨⟨e, vs, he, h⟩, fun e ws he hw => hall ws ⟨e, he, hw⟩⟩
  · rintro ⟨⟨e, vs, he, h⟩, hall⟩
    refine ⟨⟨vs, e, he, h⟩, ?_⟩
    rintro ws ⟨e, he, hw⟩
    exact hall e ws he hw

/-- The trees of a function whose blocks have distinct numbers and whose links were rebuilt: the one
answers which blocks stand on all ways in, the other which stand on all ways out. -/
theorem trees_of_resolveLinks (h : (f.blocks.map Block.id).Nodup) :
    (DomTree.ofFunc f.resolveLinks.1 false).Answers f.resolveLinks.1 f.resolveLinks.1.OnEveryWayIn ∧
      (DomTree.ofFunc f.resolveLinks.1 true).Answers f.resolveLinks.1 f.resolveLinks.1.OnEveryWayOut := by
  have hf := linked_resolveLinks h
  have hin : (f.resolveLinks.1.flow false).Dominates = f.resolveLinks.1.OnEveryWayIn :=
    funext fun _ => funext fun _ => propext (dominates_iff_onEveryWayIn hf)
  have hout : (f.resolveLinks.1.flow true).Dominates = f.resolveLinks.1.OnEveryWayOut :=
    funext fun _ => funext fun _ => propext (dominates_iff_onEveryWayOut hf)
  exact ⟨hin ▸ DomTree.answers_dominance hf, hout ▸ DomTree.answers_dominance hf⟩

/-- A cycle of two blocks that is entered at both of them, two exits, and a block without
predecessor that goes on to one of them. -/
def crossing : Func where
  total := 5
  blocks := [
    { Block.ofId 0 with jump := some (.branch .i32 (.int 1) (.ofBlock 1) (.ofBlock 2)) },
    { Block.ofId 1 with jump := some (.branch .i32 (.int 1) (.ofBlock 2) (.ofBlock 3)) },
    { Block.ofId 2 with jump := some (.branch .i32 (.int 1) (.ofBlock 1) (.ofBlock 4)) },
    { Block.ofId 3 with jump := some (.ret none) },
    { Block.ofId 4 with jump := some (.ret none) },
    { Block.ofId 5 with jump := some (.jump (.ofBlock 4)) }]
  name := "f"
  retTy := .void
  params := []

/-- Both blocks of the cycle hang from the entry, and no block stands on all ways out of it. -/
theorem trees_of_crossing : (crossing.blocks.map Block.id).Nodup ∧
    (DomTree.ofFunc crossing.resolveLinks.1 false).Answers crossing.resolveLinks.1
      crossing.resolveLinks.1.OnEveryWayIn ∧
    (DomTree.ofFunc crossing.resolveLinks.1 true).Answers crossing.resolveLinks.1
      crossing.resolveLinks.1.OnEveryWayOut ∧
    crossing.resolveLinks.1.OnEveryWayIn 0 2 ∧ ¬ crossing.resolveLinks.1.OnEveryWayIn 1 2 ∧
    crossing.resolveLinks.1.OnEveryWayOut 4 5 ∧ ∀ a, crossing.resolveLinks.1.OnEveryWayOut a 0 → a = 0 := by
  have h : (crossing.blocks.map Block.id).Nodup := by decide
  obtain ⟨hin, hout⟩ := trees_of_resolveLinks h
  refine ⟨h, hin, hout, ?_, ?_, ?_, ?_⟩
  · exact (hin.dominates 0 2).mp (by decide +kernel)
  · exact fun hb => absurd ((hin.dominates 1 2).mpr hb) (by decide +kernel)
  · exact (hout.dominates 4 5).mp (by decide +kernel)
  · exact (hout.root 0).mp (by decide +kernel)

end Func

end LoopLanes
