/-
Natural loops of a graph with roots.

`G.Natural h v` says that `v` is the header `h`, or leads to a predecessor of `h` that `h` dominates
without passing `h` on the way.  A graph is sealed when nothing leads to a reached vertex but what is
reached itself.

* `Natural.dominates` — in a sealed graph the header dominates its loop;
* `Natural.trans` — the loop of a header inside another loop lies inside that loop;
* `Natural.header_of_dominates` — of two loops with a common vertex, one holds the header of the other.
-/
import LoopLanes.Proofs.Cfg.Flow

open Relation

namespace LoopLanes

namespace Flow

variable {V : Type} {G : Flow V} {h k u v w : V}

/-- The natural loop of a header. -/
inductive Natural (G : Flow V) (h : V) : V → Prop
  | header : Natural G h h
  | latch {p : V} (e : G.edge p h) (hdom : G.Dominates h p) : Natural G h p
  | back {u w : V} (e : G.edge u w) (ne : w ≠ h) (hw : Natural G h w) : Natural G h u

/-- Only what is reached leads to what is reached. -/
def Sealed (G : Flow V) : Prop := ∀ u w, G.edge u w → G.Reaches w → G.Reaches u

namespace Natural

theorem dominates (hG : G.Sealed) (hh : G.Reaches h) (hv : G.Natural h v) : G.Dominates h v := by
  induction hv with
  | header => exact .refl hh
  | latch _ hdom => exact hdom
  | back e ne _ ih => exact ih.of_edge ne (hG _ _ e ih.reaches) e

/-- What leads to a vertex past the header belongs to the loop as well. -/
theorem of_way (hv : G.Natural h v) (p : ReflTransGen (G.without h).edge u v) : G.Natural h u := by
  induction p using ReflTransGen.head_induction_on with
  | refl => exact hv
  | head e _ ih => exact .back e.1 e.2 ih

/-- A loop whose header belongs to another loop lies inside that one. -/
theorem trans (hG : G.Sealed) (hh : G.Reaches h) (hk : G.Natural h k) (hv : G.Natural k v) :
    G.Natural h v := by
  by_cases e : k = h
  · exact e ▸ hv
  have hdom := hk.dominates hG hh
  induction hv with
  | header => exact hk
  | latch e' _ => exact .back e' e hk
  | back e' ne hw ih =>
    refine .back e' ?_ ih
    -- the inner loop does not come back to the outer header, which dominates its own
    rintro rfl
    exact e (hdom.antisymm (hw.dominates hG hdom.reaches)).symm

/-- A header between the header of a loop and a vertex of it belongs to the loop. -/
theorem header_of_dominates (hG : G.Sealed) (hv : G.Natural h v) (hdom : G.Dominates h k)
    (ne : h ≠ k) (hkv : G.Dominates k v) : G.Natural h k := by
  have hhv := hv.dominates hG hdom.reaches_left
  rcases hhv.reaches.last_of_two h k with p | p | p
  · exact absurd p.of_without hhv.2
  · -- a way that meets `h` last would get around `k`
    have hh : (G.without k).Reaches h := by
      by_contra hno
      exact ne (hdom.antisymm ⟨hdom.reaches_left, hno⟩)
    exact absurd (hh.trans p) hkv.2
  · exact hv.of_way p

end Natural

end Flow

end LoopLanes
