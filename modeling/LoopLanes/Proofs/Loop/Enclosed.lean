/-
Loops of functions in which nothing that is not reached leads to what is reached.

The header of such a loop dominates its blocks (`header_dominates`).  So whatever the loop defines flows into its
header from its own blocks alone (`start_not_defined`); and where the header alone leaves the loop, nothing behind
it reads what the other blocks define (`not_read_outside`).
-/
import LoopLanes.Proofs.Cfg.Names
import LoopLanes.Proofs.Cfg.Uses
import LoopLanes.Proofs.Loop.Nesting
import LoopLanes.Proofs.Loop.Parts

namespace LoopLanes

/-- A loop of a verified function in which nothing that is not reached leads to what is reached. -/
structure Loop.Enclosed (f : Func) (l : Loop) : Prop where
  verified : f.verify = .ok ()
  enclosed : f.Enclosed
  mem : l ∈ f.forest.loops
  notRoot : l.isRoot = false

namespace Loop.Enclosed

variable {f : Func} {l : Loop} {b c d header : Block} {r : BlockRef} {p : Phi} {t : Temp} {v : Int}

theorem linked (h : l.Enclosed f) : f.WellLinked := Func.wellLinked_of_verify h.verified

theorem header_reached (h : l.Enclosed f) : (f.flow false).Reaches l.header.number := by
  obtain ⟨p, -, hdom⟩ := (Func.naturalLoops_of_verify h.verified).heads l h.mem h.notRoot
  exact ((Func.dominates_iff_onEveryWayIn h.linked.toLinked).mpr hdom).reaches_left

theorem header_dominates (h : l.Enclosed f) (hin : f.forest.contains l v = true) :
    (f.flow false).Dominates l.header.number v := by
  have hf := h.linked.toLinked
  have hnatural := ((Func.naturalLoops_of_verify h.verified).contains h.enclosed l h.mem h.notRoot v).mp hin
  exact ((Func.natural_iff_inNaturalLoop hf).mpr hnatural).dominates (h.enclosed.sealed hf) h.header_reached

/-- What leads to a reached block is reached. -/
theorem reached_of_prev (h : l.Enclosed f) (hb : b ∈ f.blocks) (hreach : (f.flow false).Reaches b.id)
    (hr : r ∈ b.prev) : (f.flow false).Reaches r.number := by
  obtain ⟨c, hc, rfl, hsucc⟩ := h.linked.prev b hb r hr
  exact h.enclosed.sealed h.linked.toLinked _ _ ((h.linked.flow_edge hc).mpr ⟨_, hsucc, rfl⟩) hreach

/-- What leads to another block of the loop than the header belongs to the loop. -/
theorem contains_of_edge (h : l.Enclosed f) {u : Int} (e : (f.flow false).edge u v) (hin : f.forest.contains l v = true)
    (hne : v ≠ l.header.number) : f.forest.contains l u = true := by
  have hf := h.linked.toLinked
  have hcontains := (Func.naturalLoops_of_verify h.verified).contains h.enclosed l h.mem h.notRoot
  exact (hcontains u).mpr ((Func.natural_iff_inNaturalLoop hf).mp
    (.back e hne ((Func.natural_iff_inNaturalLoop hf).mpr ((hcontains v).mp hin))))

/-- Nothing that a loop defines flows into its header from a block outside. -/
theorem start_not_defined (h : l.Enclosed f) (hlocals : ∀ t ∈ writesOf f.blocks, t.isGlobal = false)
    (hheader : header ∈ f.blocks) (href : header.ref = l.header) (hp : p ∈ header.phis) (hr : r ∈ header.prev)
    (hout : f.forest.contains l r.number = false)
    (hin : p.incoming? (.ofBlock r.number) = some (.temp t)) : t ∉ writesOf (l.blocks f f.forest) := by
  intro hwritten
  obtain ⟨b, hb, ht⟩ := List.mem_flatMap.mp hwritten
  obtain ⟨hbf, hbl⟩ := Loop.mem_blocks.mp hb
  have hreach : (f.flow false).Reaches header.id := by
    rw [Block.id, href]
    exact h.header_reached
  obtain ⟨pos, havail⟩ := Func.available_of_incoming h.verified hheader hreach hp hr
    (h.reached_of_prev hheader hreach hr) hin
  rcases Func.dominates_of_available h.verified hbf ht (hlocals t (List.mem_flatMap.mpr ⟨b, hbf, ht⟩)) havail
    with e | hdom
  · rw [e, hout] at hbl
    cases hbl
  · -- the block outside would be a latch
    have hlatch : f.forest.contains l r.number = true := by
      refine LoopForest.contains_latch h.linked.toLinked h.mem ?_ ((h.header_dominates hbl).trans hdom)
      rw [LoopSearch.prevs, ← href, h.linked.linked? hheader]
      exact hr
    rw [hout] at hlatch
    cases hlatch

/-- Where the header alone leaves a loop, the other blocks dominate nothing outside. -/
theorem not_dominates_outside (h : l.Enclosed f)
    (hexit : (l.exitingBlocks f f.forest).map (·.id) = [l.header.number]) (hd : d ∈ l.blocks f f.forest)
    (hne : d.id ≠ l.header.number) (hv : f.forest.contains l v = false) : ¬ (f.flow false).Dominates d.id v := by
  intro hdom
  have hin : f.forest.contains l d.id = true := (Loop.mem_blocks.mp hd).2
  have hheader : ((f.flow false).without d.id).Reaches l.header.number := by
    by_contra hno
    exact hne (Flow.Dominates.antisymm ⟨h.header_reached, hno⟩ (h.header_dominates hin))
  -- what is reached lies in the loop, or is reached around the block
  have key : f.forest.contains l v = true ∨ ((f.flow false).without d.id).Reaches v := by
    refine hdom.reaches.induct (P := fun w => f.forest.contains l w = true ∨
      ((f.flow false).without d.id).Reaches w) (fun r hr => ?_) fun u w _ ih e => ?_
    · by_cases hrl : f.forest.contains l r = true
      · exact .inl hrl
      · exact .inr (.of_root ⟨hr, fun e => hrl (e ▸ hin)⟩)
    · by_cases hwl : f.forest.contains l w = true
      · exact .inl hwl
      have hu : ((f.flow false).without d.id).Reaches u := by
        rcases ih with hul | hu
        · obtain ⟨c, hc, rfl, s, hs, rfl⟩ := e
          rwa [Loop.id_eq_of_exits hexit (Loop.mem_blocks.mpr ⟨hc, hul⟩) hs (by simpa using hwl)]
        · exact hu
      exact .inr (hu.step ⟨e, fun e => hwl (e ▸ hin)⟩)
  rcases key with hin | hreach
  · rw [hv] at hin
    cases hin
  · exact hdom.2 hreach

/-- What the other blocks of the loop define is not available outside. -/
theorem not_available_outside (h : l.Enclosed f)
    (hexit : (l.exitingBlocks f f.forest).map (·.id) = [l.header.number]) (hd : d ∈ l.blocks f f.forest)
    (hne : d.id ≠ l.header.number) (ht : t ∈ d.writes) (hlocal : t.isGlobal = false)
    (hv : f.forest.contains l v = false ∨ v = l.header.number) (pos : Nat) :
    Func.available f.definitions (DomTree.ofFunc f false) t v pos = false := by
  obtain ⟨hdf, hdl⟩ := Loop.mem_blocks.mp hd
  by_contra havail
  rcases Func.dominates_of_available h.verified hdf ht hlocal (by simpa using havail) with e | hdom
  · rcases hv with hv | hv
    · rw [← e, hdl] at hv
      cases hv
    · exact hne (e.trans hv)
  · rcases hv with hv | rfl
    · exact h.not_dominates_outside hexit hd hne hv hdom
    · exact hne (hdom.antisymm (h.header_dominates hdl))

/-- Where the header alone leaves a loop, what its other blocks define is not read outside. -/
theorem not_read_outside (h : l.Enclosed f)
    (hexit : (l.exitingBlocks f f.forest).map (·.id) = [l.header.number]) (hd : d ∈ l.blocks f f.forest)
    (hne : d.id ≠ l.header.number) (ht : t ∈ d.writes) (hlocal : t.isGlobal = false) (hb : b ∈ f.blocks)
    (hreach : (f.flow false).Reaches b.id) (hout : f.forest.contains l b.id = false) : t ∉ b.readTemps := by
  intro hread
  have hinstr : ∀ (pos : Nat) (x : Instr), (b.instrs ++ b.jump.toList)[pos]? = some x → t ∉ x.readTemps := by
    intro pos x hx hread
    have := Func.available_of_read h.verified hb hreach hx hread
    rw [h.not_available_outside hexit hd hne ht hlocal (.inl hout)] at this
    cases this
  rcases Block.mem_readTemps.mp hread with ⟨p, hp, hread⟩ | ⟨x, hx, hread⟩ | ⟨j, hj, hread⟩
  · obtain ⟨w, hw, hwt⟩ := List.mem_filterMap.mp hread
    obtain rfl : w = .temp t := by
      cases w <;> cases hwt
      rfl
    obtain ⟨⟨_, k⟩, he, rfl⟩ := List.mem_map.mp hw
    -- it flows in from a block outside, or from the header
    obtain ⟨hnodup, hlabels⟩ := Func.labels_of_phi h.linked hb hp
    obtain ⟨r, hr, rfl⟩ := List.mem_map.mp ((hlabels k).mp (List.mem_map_of_mem (f := (·.2)) he))
    obtain ⟨pos, havail⟩ := Func.available_of_incoming h.verified hb hreach hp hr (h.reached_of_prev hb hreach hr)
      (Phi.incoming?_of_mem hnodup he)
    have hfrom : f.forest.contains l r.number = false ∨ r.number = l.header.number := by
      cases hin : f.forest.contains l r.number with
      | false => exact .inl rfl
      | true =>
        obtain ⟨c, hc, rfl, hsucc⟩ := h.linked.prev b hb r hr
        exact .inr (Loop.id_eq_of_exits hexit (Loop.mem_blocks.mpr ⟨hc, hin⟩) hsucc hout)
    rw [h.not_available_outside hexit hd hne ht hlocal hfrom] at havail
    cases havail
  · obtain ⟨pos, hpos⟩ := List.mem_iff_getElem?.mp (List.mem_append_left b.jump.toList hx)
    exact hinstr pos x hpos hread
  · obtain ⟨pos, hpos⟩ := List.mem_iff_getElem?.mp (List.mem_append_right b.instrs (Option.mem_toList.mpr hj))
    exact hinstr pos j hpos hread

end Loop.Enclosed

end LoopLanes
