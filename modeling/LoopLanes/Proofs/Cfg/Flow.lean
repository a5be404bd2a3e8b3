/-
Dominance in a graph with roots.

`G.Reaches v` says that `v` can be reached from a root, and `G.without x` is the
graph in which nothing enters `x`.  A vertex dominates another one, `G.Dominates a b`, when the
latter is reached in `G` but no longer in `G.without a`.

* `Dominates.trans`, `Dominates.antisymm` — dominance is a partial order on
  what is reached;
* `Dominates.total` — the dominators of a vertex form a chain;
* `Dominates.of_edge` — a strict dominator of a vertex dominates its reached
  predecessors.
-/
import Mathlib.Logic.Relation
import Mathlib.Tactic.ByContra

open Relation

namespace LoopLanes

/-- A graph with roots. -/
structure Flow (V : Type) where
  edge : V → V → Prop
  root : V → Prop

namespace Flow

variable {V : Type} {G : Flow V} {a b c u v w x : V}

/-- A vertex that can be reached from a root. -/
def Reaches (G : Flow V) (v : V) : Prop := ∃ r, G.root r ∧ ReflTransGen G.edge r v

/-- The graph in which nothing enters `x`, and which does not start there either. -/
def without (G : Flow V) (x : V) : Flow V :=
  ⟨fun u w => G.edge u w ∧ w ≠ x, fun r => G.root r ∧ r ≠ x⟩

/-- The graph without a vertex, if one is given. -/
def cut (G : Flow V) : Option V → Flow V
  | none => G
  | some x => G.without x

/-- Every way from a root to `b` passes `a`, and there is one. -/
def Dominates (G : Flow V) (a b : V) : Prop := G.Reaches b ∧ ¬ (G.without a).Reaches b

/-! ### Reaching -/

theorem Reaches.of_root (h : G.root v) : G.Reaches v := ⟨v, h, .refl⟩

theorem Reaches.step (h : G.Reaches u) (e : G.edge u w) : G.Reaches w := by
  obtain ⟨r, hr, p⟩ := h
  exact ⟨r, hr, p.tail e⟩

theorem Reaches.trans (h : G.Reaches u) (p : ReflTransGen G.edge u w) : G.Reaches w := by
  obtain ⟨r, hr, q⟩ := h
  exact ⟨r, hr, q.trans p⟩

/-- What holds of the roots and is kept along edges holds of all that is reached. -/
theorem Reaches.induct {P : V → Prop} (h : G.Reaches v) (root : ∀ r, G.root r → P r)
    (step : ∀ u w, G.Reaches u → P u → G.edge u w → P w) : P v := by
  obtain ⟨r, hr, p⟩ := h
  induction p with
  | refl => exact root r hr
  | tail q e ih => exact step _ _ ⟨r, hr, q⟩ ih e

theorem Reaches.mono {H : Flow V} (h : G.Reaches v) (root : ∀ r, G.root r → H.root r)
    (edge : ∀ u w, G.edge u w → H.edge u w) : H.Reaches v :=
  h.induct (fun r hr => .of_root (root r hr)) fun u w _ ih e => ih.step (edge u w e)

theorem Reaches.of_without (h : (G.without x).Reaches v) : G.Reaches v :=
  h.mono (fun _ hr => hr.1) fun _ _ e => e.1

theorem not_reaches_without_self : ¬ (G.without x).Reaches x := by
  intro h
  have key : ∀ v, (G.without x).Reaches v → v ≠ x := fun v hv =>
    hv.induct (fun _ hr => hr.2) fun _ _ _ _ e => e.2
  exact key x h rfl

/-- A way to `v` either avoids `x` or shows that `x` is reached. -/
theorem Reaches.avoid_or (h : G.Reaches v) (x : V) : (G.without x).Reaches v ∨ G.Reaches x := by
  by_cases hx : G.Reaches x
  · exact .inr hx
  · refine .inl (h.induct ?_ ?_)
    · intro r hr
      refine .of_root ⟨hr, ?_⟩
      rintro rfl
      exact hx (.of_root hr)
    · intro u w hu ih e
      refine ih.step ⟨e, ?_⟩
      rintro rfl
      exact hx (hu.step e)

/-- Between two different vertices, a way to `v` either avoids both or has one
of them as the last of the two. -/
theorem Reaches.last_of_two (h : G.Reaches v) (a b : V) :
    ((G.without a).without b).Reaches v ∨ ReflTransGen (G.without b).edge a v ∨
      ReflTransGen (G.without a).edge b v := by
  refine h.induct (P := fun v => ((G.without a).without b).Reaches v ∨
    ReflTransGen (G.without b).edge a v ∨ ReflTransGen (G.without a).edge b v) ?_ ?_
  · intro r hr
    by_cases ha : r = a
    · exact .inr (.inl (ha ▸ .refl))
    by_cases hb : r = b
    · exact .inr (.inr (hb ▸ .refl))
    exact .inl (.of_root ⟨⟨hr, ha⟩, hb⟩)
  · intro u w _ ih e
    by_cases ha : w = a
    · exact .inr (.inl (ha ▸ .refl))
    by_cases hb : w = b
    · exact .inr (.inr (hb ▸ .refl))
    rcases ih with ih | ih | ih
    · exact .inl (ih.step ⟨⟨e, ha⟩, hb⟩)
    · exact .inr (.inl (ih.tail ⟨e, hb⟩))
    · exact .inr (.inr (ih.tail ⟨e, ha⟩))

/-! ### Dominance -/

namespace Dominates

theorem refl (h : G.Reaches a) : G.Dominates a a := ⟨h, not_reaches_without_self⟩

theorem reaches (h : G.Dominates a b) : G.Reaches b := h.1

theorem reaches_left (h : G.Dominates a b) : G.Reaches a :=
  (h.1.avoid_or a).resolve_left h.2

theorem trans (hab : G.Dominates a b) (hbc : G.Dominates b c) : G.Dominates a c := by
  refine ⟨hbc.1, fun hc => ?_⟩
  rcases hc.avoid_or b with h | h
  · exact hbc.2 (h.mono (fun _ hr => ⟨hr.1.1, hr.2⟩) fun _ _ e => ⟨e.1.1, e.2⟩)
  · exact hab.2 h

/-- A strict dominator of a vertex dominates its predecessors. -/
theorem of_edge (h : G.Dominates a w) (ne : w ≠ a) (hu : G.Reaches u) (e : G.edge u w) :
    G.Dominates a u :=
  ⟨hu, fun hu' => h.2 (hu'.step ⟨e, ne⟩)⟩

theorem antisymm (hab : G.Dominates a b) (hba : G.Dominates b a) : a = b := by
  by_contra ne
  have key : ∀ v, G.Reaches v → ((G.without a).without b).Reaches v := by
    intro v hv
    refine hv.induct ?_ ?_
    · intro r hr
      refine .of_root ⟨⟨hr, ?_⟩, ?_⟩
      · rintro rfl
        exact hba.2 (.of_root ⟨hr, ne⟩)
      · rintro rfl
        exact hab.2 (.of_root ⟨hr, fun e => ne e.symm⟩)
    · intro u w _ ih e
      have hu : (G.without a).Reaches u := ih.of_without
      refine ih.step ⟨⟨e, ?_⟩, ?_⟩
      · rintro rfl
        have hu' : (G.without b).Reaches u :=
          ih.mono (fun _ hr => ⟨hr.1.1, hr.2⟩) fun _ _ e => ⟨e.1.1, e.2⟩
        exact hba.2 (hu'.step ⟨e, ne⟩)
      · rintro rfl
        exact hab.2 (hu.step ⟨e, fun h => ne h.symm⟩)
  exact not_reaches_without_self (key b hab.1)

/-- Of two dominators of a vertex, one dominates the other. -/
theorem total (hac : G.Dominates a c) (hbc : G.Dominates b c) :
    G.Dominates a b ∨ G.Dominates b a := by
  by_cases ne : a = b
  · subst ne
    exact .inl (refl hbc.reaches_left)
  rcases hac.1.last_of_two a b with h | h | h
  · exact absurd h.of_without hac.2
  · right
    refine ⟨hac.reaches_left, fun ha => hbc.2 (ha.trans h)⟩
  · left
    refine ⟨hbc.reaches_left, fun hb => hac.2 (hb.trans h)⟩

/-- A strict dominator has an edge out of it. -/
theorem exists_edge (h : G.Dominates a b) (ne : a ≠ b) : ∃ w, G.edge a w := by
  by_contra hno
  have key : ∀ v, G.Reaches v → v ≠ a → (G.without a).Reaches v := by
    intro v hv
    refine hv.induct (P := fun v => v ≠ a → (G.without a).Reaches v) ?_ ?_
    · exact fun r hr hne => .of_root ⟨hr, hne⟩
    · intro u w _ ih e hne
      refine (ih ?_).step ⟨e, hne⟩
      rintro rfl
      exact hno ⟨w, e⟩
  exact h.2 (key b h.1 (Ne.symm ne))

end Dominates

end Flow

end LoopLanes
