/-
Ways through a graph, written out.

`G.Path v vs` says that `vs` are the vertices of a way from a root to `v`, the last one first.
Reaching and dominance, which are defined without such lists, are what they say of them.

* `reaches_iff_exists_path` — what is reached has a path;
* `dominates_iff_forall_path` — a dominator stands on every path, and there is one;
* `wellFounded_of_acyclic` — among finitely many vertices without cycle, ways end.
-/
import Mathlib.Data.Fintype.Card
import Mathlib.Data.Set.Finite.Basic
import LoopLanes.Proofs.Cfg.Flow

open Relation

namespace LoopLanes

namespace Flow

variable {V : Type} {G : Flow V} {a b v x : V} {vs : List V}

/-- The vertices of a way from a root to `v`, the last one first. -/
inductive Path (G : Flow V) : V → List V → Prop
  | root {r : V} (h : G.root r) : Path G r [r]
  | step {u w : V} {vs : List V} (p : Path G u vs) (e : G.edge u w) : Path G w (w :: vs)

namespace Path

theorem mem (p : G.Path v vs) : v ∈ vs := by
  cases p <;> simp

theorem reaches (p : G.Path v vs) : G.Reaches v := by
  induction p with
  | root h => exact .of_root h
  | step _ e ih => exact ih.step e

/-- A path that misses a vertex is a path of the graph without it. -/
theorem without (p : G.Path v vs) (hx : x ∉ vs) : (G.without x).Path v vs := by
  induction p with
  | root h =>
    rw [List.mem_singleton] at hx
    exact .root ⟨h, fun e => hx e.symm⟩
  | step _ e ih =>
    rw [List.mem_cons, not_or] at hx
    exact .step (ih hx.2) ⟨e, fun h => hx.1 h.symm⟩

theorem of_without (p : (G.without x).Path v vs) : G.Path v vs ∧ x ∉ vs := by
  induction p with
  | root h => exact ⟨.root h.1, by simpa using fun e => h.2 e.symm⟩
  | step _ e ih => exact ⟨.step ih.1 e.1, by simpa using ⟨fun h => e.2 h.symm, ih.2⟩⟩

end Path

/-- What is reached has a path. -/
theorem reaches_iff_exists_path : G.Reaches v ↔ ∃ vs, G.Path v vs := by
  constructor
  · intro h
    refine h.induct (P := fun v => ∃ vs, G.Path v vs) ?_ ?_
    · exact fun r hr => ⟨[r], .root hr⟩
    · rintro u w - ⟨vs, p⟩ e
      exact ⟨w :: vs, p.step e⟩
  · rintro ⟨vs, p⟩
    exact p.reaches

theorem reaches_without_iff : (G.without x).Reaches v ↔ ∃ vs, G.Path v vs ∧ x ∉ vs := by
  rw [reaches_iff_exists_path]
  exact exists_congr fun vs => ⟨fun p => p.of_without, fun p => p.1.without p.2⟩

/-- A dominator stands on every path. -/
theorem dominates_iff_forall_path :
    G.Dominates a b ↔ G.Reaches b ∧ ∀ vs, G.Path b vs → a ∈ vs := by
  rw [Dominates, reaches_without_iff]
  simp only [not_exists, not_and, not_not]

/-! ### Without cycles -/

/-- An edge between two listed vertices. -/
def EdgeWithin (G : Flow V) (vs : List V) (u w : V) : Prop := u ∈ vs ∧ w ∈ vs ∧ G.edge u w

/-- No way among the listed vertices leads back to where it started. -/
def Acyclic (G : Flow V) (vs : List V) : Prop := ∀ v, ¬ TransGen (G.EdgeWithin vs) v v

/-- A relation between finitely many vertices along which nothing comes back. -/
theorem wellFounded_of_irrefl {R : V → V → Prop} (hmem : ∀ u w, R u w → u ∈ vs ∧ w ∈ vs)
    (hirrefl : ∀ v, ¬ TransGen R v v) : WellFounded R := by
  let S : {v // v ∈ vs} → {v // v ∈ vs} → Prop := fun u w => TransGen R u.1 w.1
  have : Finite {v // v ∈ vs} := (List.finite_toSet vs).to_subtype
  have : IsTrans _ S := ⟨fun _ _ _ h h' => h.trans h'⟩
  have : Std.Irrefl S := ⟨fun v h => hirrefl v.1 h⟩
  have hwf : WellFounded S := Finite.wellFounded_of_trans_of_irrefl S
  have hacc : ∀ v : {v // v ∈ vs}, Acc R v.1 := by
    intro v
    induction v using hwf.induction with
    | _ v ih => exact ⟨_, fun u h => ih ⟨u, (hmem u v.1 h).1⟩ (.single h)⟩
  exact ⟨fun v => ⟨_, fun u h => hacc ⟨u, (hmem u v h).1⟩⟩⟩

/-- Going against the edges ends. -/
theorem wellFounded_of_acyclic (h : G.Acyclic vs) : WellFounded (G.EdgeWithin vs) :=
  wellFounded_of_irrefl (fun _ _ e => ⟨e.1, e.2.1⟩) h

/-- Going along the edges ends. -/
theorem wellFounded_swap_of_acyclic (h : G.Acyclic vs) :
    WellFounded (Function.swap (G.EdgeWithin vs)) :=
  wellFounded_of_irrefl (fun _ _ e => ⟨e.2.1, e.1⟩) fun v hv => h v (transGen_swap.mp hv)

/-- Where a rank grows along every edge, there is no cycle. -/
theorem acyclic_of_rank (rank : V → Nat) (h : ∀ u w, G.EdgeWithin vs u w → rank u < rank w) :
    G.Acyclic vs := by
  have key : ∀ u w, TransGen (G.EdgeWithin vs) u w → rank u < rank w := by
    intro u w p
    induction p with
    | single e => exact h _ _ e
    | tail _ e ih => exact ih.trans (h _ _ e)
  exact fun v hv => Nat.lt_irrefl _ (key v v hv)

end Flow

end LoopLanes
