/-
Rounds of a loop.

A round enters the header of a region with some frame, follows jumps from block to block within the
region, and ends at the jump back to the header.  Instructions are executed as `Block.execBody`
executes them, but steps are not counted.
-/
import LoopLanes.Loop.Region
import LoopLanes.Proofs.Basic.Tables
import LoopLanes.Proofs.Cfg.Links
import LoopLanes.Proofs.Lanes.Scalar
import LoopLanes.Proofs.Text.Decimal

namespace LoopLanes

variable {fr fr' out : Frame} {b : Block} {l : Label} {t : Temp}

namespace Block

/-- The values that the phis of a block take in. -/
theorem phiValues_eq_ok {vs : List (Temp × Lanes)} :
    b.phiValues fr l = .ok vs ↔
      List.Forall₂ (fun p e => e.1 = p.target ∧ ∃ v, p.incoming? l = some v ∧ fr.read v = .ok e.2)
        b.phis vs := by
  unfold phiValues
  rw [mapM_eq_ok]
  refine ⟨fun h => h.imp fun p e he => ?_, fun h => h.imp fun p e he => ?_⟩
  · cases hv : p.incoming? l with
    | none => simp [hv] at he
    | some v =>
      simp only [hv] at he
      obtain ⟨ls, hls, rfl⟩ := map_eq_ok.mp he
      exact ⟨rfl, v, rfl, hls⟩
  · obtain ⟨he, v, hv, hread⟩ := he
    simp only [hv]
    exact map_eq_ok.mpr ⟨e.2, hread, by rw [← he]⟩

theorem enter_eq_ok : b.enter fr (some l) = .ok fr' ↔
    ∃ vs, b.phiValues fr l = .ok vs ∧ fr' = vs.foldl (fun fr e => setEntry e.1 e.2 fr) fr := by
  rw [enter, map_eq_ok]
  exact exists_congr fun vs => and_congr_right fun _ => eq_comm

/-- The values taken in are those of the phis, in order. -/
theorem map_fst_of_phiValues {vs : List (Temp × Lanes)} (h : b.phiValues fr l = .ok vs) :
    vs.map (·.1) = b.phis.map (·.target) := by
  refine List.forall₂_eq_eq_eq ▸ ?_
  rw [List.forall₂_map_left_iff, List.forall₂_map_right_iff]
  exact ((phiValues_eq_ok.mp h).imp fun _ _ he => he.1).flip

/-- Entering a block sets its phis, and nothing else. -/
theorem lookup_of_enter (h : b.enter fr (some l) = .ok fr') (ht : t ∉ b.phis.map (·.target)) :
    fr'.lookup t = fr.lookup t := by
  obtain ⟨vs, hvs, rfl⟩ := enter_eq_ok.mp h
  exact lookup_foldl_of_notMem Prod.fst Prod.snd fun hmem => ht (map_fst_of_phiValues hvs ▸ hmem)

end Block

/-- A block leads where its terminator says. -/
theorem Block.mem_targets_of_leave (h : b.leave fr = .ok (.jump l)) : l ∈ b.targets := by
  unfold leave at h
  unfold targets
  split at h
  · cases h
  · rename_i l' hj
    obtain rfl : l' = l := by simpa using h
    simp [hj, Instr.targets]
  · rename_i ty cond l₁ l₂ hj
    obtain ⟨z, -, hz⟩ := map_eq_ok.mp h
    obtain rfl : (if z.isTrue then l₁ else l₂) = l := by simpa using hz
    rw [hj, Option.map_some, Option.getD_some, Instr.targets]
    split <;> simp
  · cases h
  · obtain ⟨z, -, hz⟩ := map_eq_ok.mp h
    cases hz
  · cases h

/-- A block that is jumped to is linked to. -/
theorem Func.WellLinked.mem_succ_of_leave {f : Func} {c : Block} (hf : f.WellLinked)
    (hb : b ∈ f.blocks) (hleave : b.leave fr = .ok (.jump l)) (hc : c ∈ f.blocks)
    (hlabel : c.label = l) : c.ref ∈ b.succ := by
  obtain ⟨j, hj, htargets⟩ := hf.jump b hb
  have hl : l ∈ j.targets := by simpa [Block.targets, hj] using Block.mem_targets_of_leave hleave
  rw [← htargets, ← hlabel] at hl
  obtain ⟨r, hr, he⟩ := List.mem_map.mp hl
  obtain ⟨d, hd, rfl, -⟩ := hf.succ b hb r hr
  rwa [← hf.ref_eq hd hc (Label.ofBlock_injective he)]

/-- A round from a block of a region on: the blocks on the way, and the frame with which the last of
them is left. -/
inductive Func.Round (f : Func) (call : Caller) (m : Machine) (r : Region) :
    Block → Frame → List BlockRef → Frame → Prop
  /-- The last block jumps back to the header. -/
  | back {b : Block} {fr out : Frame}
    (runs : Gives (b.instrs.foldlM (Instr.exec call) fr) m out m)
    (leaves : b.leave out = .ok (.jump r.header.label)) : Round f call m r b fr [b.ref] out
  /-- Any other block jumps to another block of the region. -/
  | on {b c : Block} {fr mid fr' out : Frame} {l : Label} {path : List BlockRef}
    (runs : Gives (b.instrs.foldlM (Instr.exec call) fr) m mid m)
    (leaves : b.leave mid = .ok (.jump l)) (next : f.labelled? l = some c)
    (inside : r.contains c.id = true) (other : c.id ≠ r.header.number)
    (enters : c.enter mid (some b.label) = .ok fr') (rest : Round f call m r c fr' path out) :
    Round f call m r b fr (b.ref :: path) out

/-- What only the header of a region defines keeps its value to the end of a round. -/
theorem Func.Round.lookup_eq {f : Func} {call : Caller} {m : Machine} {r : Region} {path : List BlockRef}
    (h : f.Round call m r b fr path out)
    (ht : ∀ c ∈ f.blocks, c.id ≠ r.header.number → t ∉ c.writes)
    (hb : t ∉ b.instrs.filterMap Instr.write) : out.lookup t = fr.lookup t := by
  induction h with
  | back runs _ => exact Instr.lookup_of_gives_foldlM runs hb
  | on runs _ next _ other enters _ ih =>
    have hc := ht _ (Func.labelled?_mem next).1 other
    rw [ih fun hmem => hc (List.mem_append_right _ hmem),
      Block.lookup_of_enter enters fun hmem => hc (List.mem_append_left _ hmem),
      Instr.lookup_of_gives_foldlM runs hb]

/-- How a round goes on from its first block. -/
theorem Func.Round.first {f : Func} {call : Caller} {m : Machine} {r : Region} {path : List BlockRef}
    (h : f.Round call m r b fr path out) :
    ∃ mid l, Gives (b.instrs.foldlM (Instr.exec call) fr) m mid m ∧ b.leave mid = .ok (.jump l) ∧
      (∀ t, (∀ c ∈ f.blocks, c.id ≠ r.header.number → t ∉ c.writes) →
        out.lookup t = mid.lookup t) ∧
      (l = r.header.label ∧ path = [b.ref] ∧ out = mid ∨
        ∃ c fr' path', l ≠ r.header.label ∧ f.labelled? l = some c ∧
          c.enter mid (some b.label) = .ok fr' ∧ f.Round call m r c fr' path' out ∧
          path = b.ref :: path') := by
  cases h with
  | back runs leaves => exact ⟨out, _, runs, leaves, fun _ _ => rfl, .inl ⟨rfl, rfl, rfl⟩⟩
  | on runs leaves next inside other enters rest =>
    refine ⟨_, _, runs, leaves, fun t ht => ?_, .inr ⟨_, _, _, ?_, next, enters, rest, rfl⟩⟩
    · have hc := ht _ (Func.labelled?_mem next).1 other
      rw [rest.lookup_eq ht fun hmem => hc (List.mem_append_right _ hmem),
        Block.lookup_of_enter enters fun hmem => hc (List.mem_append_left _ hmem)]
    · rintro rfl
      exact other (Label.ofBlock_injective (Func.labelled?_mem next).2)

end LoopLanes
