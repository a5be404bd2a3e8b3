/-
The components that a search answers.

A search visits temporaries depth first.  While visits are under way, the stack holds what belongs to
no component yet: each temporary on it leads back to one whose visit is under way, and the closed
components read nothing but each other (`ComponentSearch.Sound`).  A visit answers the smallest number
on the stack that it leads back to (`ComponentSearch.Visited`).  Where that is its own number, what lies
above it on the stack depends on it and it on that, and nothing else does (`Scanned.coupled_close`).

* **`ComponentSearch.answers_runs`** — after any number of searches that share one state, the
  components are those of the dependencies among what the starts depend on, and later searches leave
  them as they are.
-/
import Mathlib.Data.List.Induction
import Mathlib.Logic.Relation
import LoopLanes.Recurrence.Analysis
import LoopLanes.Proofs.Cfg.Dominators

open Relation

namespace LoopLanes

namespace UseGraph

variable {g : UseGraph} {t u : Temp}

/-- A temporary is computed from another one, by any number of definitions. -/
def DependsOn (g : UseGraph) : Temp → Temp → Prop := ReflTransGen fun t u => u ∈ g.operands t

/-- Two temporaries are computed from each other. -/
def Coupled (g : UseGraph) (t u : Temp) : Prop := g.DependsOn t u ∧ g.DependsOn u t

theorem DependsOn.of_operand (h : u ∈ g.operands t) : g.DependsOn t u := .single h

/-- What is closed under operands holds whatever a member depends on. -/
theorem DependsOn.mem_of_closed {P : Temp → Prop} (h : g.DependsOn t u) (ht : P t)
    (hclosed : ∀ t, P t → ∀ u ∈ g.operands t, P u) : P u := by
  induction h with
  | refl => exact ht
  | tail _ hstep ih => exact hclosed _ ih _ hstep

/-- What depends on something defined is defined itself. -/
theorem DependsOn.isDefined (h : g.DependsOn t u) (hu : g.isDefined u = true) : g.isDefined t = true := by
  rcases h.cases_head with rfl | ⟨w, hw, -⟩
  · exact hu
  · cases hd : g.definition? t with
    | none => simp [operands, hd] at hw
    | some x => simp [UseGraph.isDefined, hd]

/-- What has operands is defined in the graph. -/
theorem mem_temps_of_operands (h : u ∈ g.operands t) : t ∈ g.temps := by
  unfold operands definition? at h
  cases hd : g.sites.reverse.find? fun s => s.2.write == some t with
  | none => simp [hd] at h
  | some site =>
    refine List.mem_filterMap.mpr ⟨site, List.mem_reverse.mp (List.mem_of_find?_eq_some hd), ?_⟩
    simpa using List.find?_some hd

end UseGraph

namespace ComponentSearch

variable {g : UseGraph} {path : List Temp} {t u w : Temp} {s s' r : ComponentSearch} {k : Nat}

/-! ### The parts of a visit -/

/-- Temporaries that are still to be visited; bounds the depth of a search. -/
def unvisited (g : UseGraph) (s : ComponentSearch) : Nat :=
  openWeight (fun t : Temp => t) (fun _ => 1) (fun t => (s.number? t).isSome) g.temps

/-- A temporary is visited for the first time. -/
def push (s : ComponentSearch) (t : Temp) : ComponentSearch :=
  ⟨(t, s.visited.length) :: s.visited, t :: s.stack, s.components⟩

/-- What a visit does for one operand. -/
def follow (g : UseGraph) (fuel : Nat) (p : Nat × ComponentSearch) (u : Temp) :
    Nat × ComponentSearch :=
  match p.2.number? u with
  | none => (min p.1 (visit g fuel u p.2).1, (visit g fuel u p.2).2)
  | some k => if p.2.stack.contains u then (min p.1 k, p.2) else p

/-- What a visit does once all operands are done. -/
def finish (t : Temp) (n : Nat) (p : Nat × ComponentSearch) : Nat × ComponentSearch :=
  if p.1 = n then (p.1, p.2.close t) else p

theorem visit_succ (g : UseGraph) (fuel : Nat) (t : Temp) (s : ComponentSearch) :
    visit g (fuel + 1) t s = finish t s.visited.length
      ((g.operands t).foldl (follow g fuel) (s.visited.length, s.push t)) := by
  rfl

@[simp] theorem push_number? (u : Temp) :
    (s.push t).number? u = if u = t then some s.visited.length else s.number? u := by
  simp only [number?, push, List.lookup_cons]
  by_cases h : u = t
  · simp [h]
  · simp [h, beq_false_of_ne h]

/-- No visit forgets another one. -/
def Keeps (s s' : ComponentSearch) : Prop :=
  ∀ u, (s.number? u).isSome = true → (s'.number? u).isSome = true

theorem keeps_push (s : ComponentSearch) (t : Temp) : Keeps s (s.push t) := by
  intro u hu
  rw [push_number?]
  split
  · rfl
  · exact hu

theorem unvisited_le {s' : ComponentSearch} (h : Keeps s s') : unvisited g s' ≤ unvisited g s :=
  openWeight_mono _ _ h _

theorem unvisited_push_lt (ht : t ∈ g.temps) (h : s.number? t = none) :
    unvisited g (s.push t) < unvisited g s :=
  openWeight_add_le _ (fun _ => 1) (keeps_push s t) ht (by simp [h]) (by simp)

theorem unvisited_le_sites (g : UseGraph) (s : ComponentSearch) : unvisited g s ≤ g.sites.length := by
  have := openWeight_le_sum (fun t : Temp => t) (fun _ => 1)
    (fun t => (s.number? t).isSome) g.temps
  have := List.length_filterMap_le (fun s : Int × Instr => s.2.write) g.sites
  simp only [unvisited, UseGraph.temps] at *
  simp at *
  omega

/-! ### What a search keeps -/

/-- A search goes on from `s` to `s'`, and comes only to what `t` depends on. -/
structure Grows (g : UseGraph) (t : Temp) (s s' : ComponentSearch) : Prop where
  keeps : ∀ u k, s.number? u = some k → s'.number? u = some k
  later : ∀ u k, s.number? u = none → s'.number? u = some k →
    s.visited.length ≤ k ∧ g.DependsOn t u
  length : s.visited.length ≤ s'.visited.length
  components : s.components <+: s'.components

/-- The state of a search in which the visits of `path` are under way. -/
structure Sound (g : UseGraph) (path : List Temp) (s : ComponentSearch) : Prop where
  number_lt : ∀ t k, s.number? t = some k → k < s.visited.length
  visited : ∀ t, (s.number? t).isSome ↔ t ∈ s.stack ∨ t ∈ s.components.flatten
  nodup : (s.stack ++ s.components.flatten).Nodup
  path_sub : path ⊆ s.stack
  /-- what is on the stack and done has had its operands visited -/
  done : ∀ t ∈ s.stack, t ∉ path → ∀ u ∈ g.operands t, (s.number? u).isSome
  leads : ∀ t ∈ s.stack, ∃ u ∈ path, g.DependsOn t u
  closed : ∀ t ∈ s.components.flatten, ∀ u ∈ g.operands t, u ∈ s.components.flatten
  coupled : ∀ c ∈ s.components, ∀ t ∈ c, ∀ u, u ∈ c ↔ g.Coupled t u

/-- A number is at most that of a temporary, if this is on the stack. -/
def Below (s : ComponentSearch) (low : Nat) (t : Temp) : Prop :=
  ∀ k, t ∈ s.stack → s.number? t = some k → low ≤ k

theorem Below.mono {low low' : Nat} (h : s.Below low t) (hle : low' ≤ low) : s.Below low' t :=
  fun k hmem hk => Nat.le_trans hle (h k hmem hk)

namespace Grows

theorem refl (g : UseGraph) (t : Temp) (s : ComponentSearch) : Grows g t s s :=
  ⟨fun _ _ h => h, fun _ _ h h' => by simp [h] at h', Nat.le_refl _, List.prefix_rfl⟩

theorem isSome (h : Grows g t s s') (hu : (s.number? u).isSome) : (s'.number? u).isSome := by
  obtain ⟨k, hk⟩ := Option.isSome_iff_exists.mp hu
  simp [h.keeps u k hk]

theorem trans (h : Grows g t s s') (htu : g.DependsOn t u) (h' : Grows g u s' r) :
    Grows g t s r := by
  refine ⟨fun w k hw => h'.keeps w k (h.keeps w k hw), fun w k hnew hk => ?_,
    Nat.le_trans h.length h'.length, h.components.trans h'.components⟩
  cases hw : s'.number? w with
  | some j =>
    obtain rfl : j = k := Option.some.inj ((h'.keeps w j hw).symm.trans hk)
    exact h.later w j hnew hw
  | none =>
    obtain ⟨hle, hdep⟩ := h'.later w k hw hk
    exact ⟨Nat.le_trans h.length hle, ReflTransGen.trans htu hdep⟩

theorem push (hnew : s.number? t = none) : Grows g t s (s.push t) := by
  refine ⟨fun u k hu => ?_, fun u k hu hk => ?_, by simp [ComponentSearch.push], List.prefix_rfl⟩
  · have hne : u ≠ t := by
      rintro rfl
      rw [hnew] at hu
      cases hu
    rw [push_number?, if_neg hne, hu]
  · rw [push_number?] at hk
    split at hk
    · rename_i e
      exact ⟨Nat.le_of_eq (Option.some.inj hk), e ▸ ReflTransGen.refl⟩
    · rw [hu] at hk
      cases hk

theorem close (s : ComponentSearch) (t : Temp) : Grows g t s (s.close t) :=
  ⟨fun _ _ h => h, fun _ _ h h' => absurd (h.symm.trans h') (by simp), Nat.le_refl _,
    List.prefix_append _ _⟩

/-- What is numbered lower than all that was visited since was on the stack before. -/
theorem mem_stack_of_lt (h : Grows g t s s') (hs : s.Sound g path) {path' : List Temp}
    (hs' : s'.Sound g path') (hw : w ∈ s'.stack) (hk : s'.number? w = some k)
    (hlt : k < s.visited.length) : w ∈ s.stack ∧ s.number? w = some k := by
  cases hold : s.number? w with
  | none => exact absurd (h.later w k hold hk).1 (Nat.not_le.mpr hlt)
  | some j =>
    obtain rfl : j = k := Option.some.inj ((h.keeps w j hold).symm.trans hk)
    refine ⟨((hs.visited w).mp (by simp [hold])).resolve_right fun hc => ?_, rfl⟩
    -- a component closed before is not on the stack
    have hc' : w ∈ s'.components.flatten := by
      obtain ⟨c, hc, hwc⟩ := List.mem_flatten.mp hc
      exact List.mem_flatten.mpr ⟨c, h.components.subset hc, hwc⟩
    exact (List.nodup_append.mp hs'.nodup).2.2 w hw w hc' rfl

end Grows

theorem Sound.push (hs : s.Sound g path) (hnew : s.number? t = none) :
    (s.push t).Sound g (t :: path) := by
  have hnone : t ∉ s.stack ++ s.components.flatten := fun hmem => by
    simpa [hnew] using (hs.visited t).mpr (List.mem_append.mp hmem)
  refine ⟨fun u k hu => ?_, fun u => ?_, List.nodup_cons.mpr ⟨hnone, hs.nodup⟩,
    List.cons_subset_cons t hs.path_sub, fun u hu hpath v hv => ?_, fun u hu => ?_, hs.closed,
    hs.coupled⟩
  · rw [push_number?] at hu
    split at hu
    · simp [ComponentSearch.push, ← Option.some.inj hu]
    · exact Nat.lt_succ_of_lt (hs.number_lt u k hu)
  · rw [push_number?]
    split
    · simp [ComponentSearch.push, ‹u = t›]
    · rw [hs.visited u]
      simp [ComponentSearch.push, ‹¬u = t›]
  · obtain ⟨hne, hpath⟩ := not_or.mp (mt List.mem_cons.mpr hpath)
    exact (Grows.push (g := g) hnew).isSome
      (hs.done u ((List.mem_cons.mp hu).resolve_left hne) hpath v hv)
  · rcases List.mem_cons.mp hu with rfl | hu
    · exact ⟨u, List.mem_cons_self, .refl⟩
    · obtain ⟨v, hv, hdep⟩ := hs.leads u hu
      exact ⟨v, List.mem_cons_of_mem t hv, hdep⟩

/-! ### One visit -/

/-- What the visit of `t` from `s` on comes to: a state, and the smallest number on the stack of `s`
that it leads back to. -/
structure Visited (g : UseGraph) (path : List Temp) (t : Temp) (s : ComponentSearch)
    (p : Nat × ComponentSearch) : Prop where
  sound : p.2.Sound g path
  grows : Grows g t s p.2
  visited : (p.2.number? t).isSome
  stack : ∃ above, p.2.stack = above ++ s.stack ∧
    ∀ u ∈ above, g.DependsOn t u ∧ ∀ w ∈ g.operands u, s.Below p.1 w
  low : p.1 = s.visited.length ∨ ∃ w ∈ s.stack, s.number? w = some p.1 ∧ g.DependsOn t w

/-- The visit of `t` from `s` on, with the operands `left` still to be followed. -/
structure Scanned (g : UseGraph) (path : List Temp) (t : Temp) (s : ComponentSearch)
    (left : List Temp) (p : Nat × ComponentSearch) : Prop where
  sound : p.2.Sound g (t :: path)
  grows : Grows g t s p.2
  stack : ∃ above, p.2.stack = above ++ t :: s.stack ∧
    ∀ u ∈ above, g.DependsOn t u ∧ ∀ w ∈ g.operands u, s.Below p.1 w
  operands : ∀ w ∈ g.operands t, w ∈ left ∨ (p.2.number? w).isSome ∧ s.Below p.1 w
  low : p.1 = s.visited.length ∨
    p.1 < s.visited.length ∧ ∃ w ∈ s.stack, s.number? w = some p.1 ∧ g.DependsOn t w

namespace Scanned

variable {left : List Temp} {p : Nat × ComponentSearch}

theorem start (hs : s.Sound g path) (hnew : s.number? t = none) :
    Scanned g path t s (g.operands t) (s.visited.length, s.push t) :=
  ⟨hs.push hnew, .push hnew, ⟨[], rfl, fun _ => nofun⟩, fun _ hw => .inl hw, .inl rfl⟩

theorem low_le (h : Scanned g path t s left p) : p.1 ≤ s.visited.length := by
  rcases h.low with h | h
  · exact Nat.le_of_eq h
  · exact Nat.le_of_lt h.1

/-- An operand that has been visited. -/
theorem step_visited (h : Scanned g path t s (u :: left) p) (hs : s.Sound g path)
    (hu : u ∈ g.operands t) (hk : p.2.number? u = some k) :
    Scanned g path t s left (if p.2.stack.contains u then (min p.1 k, p.2) else p) := by
  obtain ⟨above, hstack, habove⟩ := h.stack
  split
  · rename_i hmem
    have hmem : u ∈ p.2.stack := List.contains_iff_mem.mp hmem
    refine ⟨h.sound, h.grows, ⟨above, hstack, fun x hx => ?_⟩, fun w hw => ?_, ?_⟩
    · exact (habove x hx).imp_right fun hx w hw => (hx w hw).mono (Nat.min_le_left _ _)
    · rcases h.operands w hw with hw | ⟨hw, hbelow⟩
      · refine (List.mem_cons.mp hw).symm.imp_right ?_
        rintro rfl
        refine ⟨by simp [hk], fun j hj hnum => ?_⟩
        rw [Option.some.inj ((h.grows.keeps w j hnum).symm.trans hk)]
        exact Nat.min_le_right _ _
      · exact .inr ⟨hw, hbelow.mono (Nat.min_le_left _ _)⟩
    · rcases Nat.lt_or_ge k p.1 with hlt | hge
      · have hlt' := Nat.lt_of_lt_of_le hlt h.low_le
        obtain ⟨hold, hnum⟩ := h.grows.mem_stack_of_lt hs h.sound hmem hk hlt'
        rw [Nat.min_eq_right (Nat.le_of_lt hlt)]
        exact .inr ⟨hlt', u, hold, hnum, .single hu⟩
      · rw [Nat.min_eq_left hge]
        exact h.low
  · rename_i hmem
    refine ⟨h.sound, h.grows, ⟨above, hstack, habove⟩, fun w hw => ?_, h.low⟩
    rcases h.operands w hw with hw | hw
    · refine (List.mem_cons.mp hw).symm.imp_right ?_
      rintro rfl
      -- it belongs to a component already
      refine ⟨by simp [hk], fun j hj _ => absurd ?_ hmem⟩
      rw [List.contains_iff_mem, hstack]
      exact List.mem_append_right _ (List.mem_cons_of_mem t hj)
    · exact .inr hw

/-- An operand that is visited now. -/
theorem step_visit (h : Scanned g path t s (u :: left) p) (hs : s.Sound g path)
    (hu : u ∈ g.operands t) (hnew : p.2.number? u = none) {q : Nat × ComponentSearch}
    (hq : Visited g (t :: path) u p.2 q) : Scanned g path t s left (min p.1 q.1, q.2) := by
  obtain ⟨above, hstack, habove⟩ := h.stack
  obtain ⟨more, hmore, hbelow⟩ := hq.stack
  -- the stack of `s` is part of the one that `u` was visited from
  have hsub : ∀ w, s.Below (min p.1 q.1) w ∨ ¬ p.2.Below q.1 w := by
    intro w
    refine Classical.or_iff_not_imp_right.mpr fun hw k hmem hk => ?_
    have hmem' : w ∈ p.2.stack := hstack ▸ List.mem_append_right _ (List.mem_cons_of_mem t hmem)
    exact Nat.le_trans (Nat.min_le_right _ _)
      (Classical.not_not.mp hw k hmem' (h.grows.keeps w k hk))
  refine ⟨hq.sound, h.grows.trans (.of_operand hu) hq.grows, ⟨more ++ above, ?_, fun x hx => ?_⟩,
    fun w hw => ?_, ?_⟩
  · rw [hmore, hstack, List.append_assoc]
  · rcases List.mem_append.mp hx with hx | hx
    · obtain ⟨hdep, hx⟩ := hbelow x hx
      exact ⟨ReflTransGen.head hu hdep, fun w hw => (hsub w).resolve_right (not_not_intro (hx w hw))⟩
    · exact (habove x hx).imp_right fun hx w hw => (hx w hw).mono (Nat.min_le_left _ _)
  · rcases h.operands w hw with hw | ⟨hw, hbelow⟩
    · refine (List.mem_cons.mp hw).symm.imp_right ?_
      rintro rfl
      refine ⟨hq.visited, fun k _ hk => ?_⟩
      rw [h.grows.keeps w k hk] at hnew
      cases hnew
    · exact .inr ⟨hq.grows.isSome hw, hbelow.mono (Nat.min_le_left _ _)⟩
  · rcases Nat.lt_or_ge q.1 p.1 with hlt | hge
    · -- the operand leads back further than anything before it
      have hlt' := Nat.lt_of_lt_of_le hlt h.low_le
      rw [Nat.min_eq_right (Nat.le_of_lt hlt)]
      rcases hq.low with hlow | ⟨w, hw, hnum, hdep⟩
      · exact absurd h.grows.length (Nat.not_le.mpr (hlow ▸ hlt'))
      · obtain ⟨hold, hnum⟩ := h.grows.mem_stack_of_lt hs h.sound hw hnum hlt'
        exact .inr ⟨hlt', w, hold, hnum, ReflTransGen.head hu hdep⟩
    · rw [Nat.min_eq_left hge]
      exact h.low

/-! ### Closing a component -/

section Close

variable {low : Nat} {above : List Temp}

/-- What lies above `t` on the stack is not what was there before. -/
theorem notMem_above (h : Scanned g path t s left (low, r)) (hstack : r.stack = above ++ t :: s.stack) :
    (∀ x ∈ above, x ≠ t ∧ x ∉ s.stack ∧ x ∉ r.components.flatten) ∧
      t ∉ s.stack ∧ t ∉ r.components.flatten ∧
      ∀ x ∈ s.stack, x ∉ r.components.flatten := by
  have hnodup := h.sound.nodup
  rw [hstack] at hnodup
  simp only [List.nodup_append, List.nodup_cons, List.mem_append, List.mem_cons] at hnodup
  grind

/-- Where a visit leads back to nothing before it, what it left on the stack reads nothing else but
closed components. -/
theorem operands_close (h : Scanned g path t s [] (s.visited.length, r)) (hs : s.Sound g path)
    (hstack : r.stack = above ++ t :: s.stack)
    (habove : ∀ u ∈ above, g.DependsOn t u ∧ ∀ w ∈ g.operands u, s.Below s.visited.length w)
    {x : Temp} (hx : x ∈ above ++ [t]) (hw : w ∈ g.operands x) :
    w ∈ above ++ [t] ∨ w ∈ r.components.flatten := by
  obtain ⟨hnot, -, -, -⟩ := h.notMem_above hstack
  have hvisited : (r.number? w).isSome ∧ s.Below s.visited.length w := by
    rcases List.mem_append.mp hx with hx | hx
    · obtain ⟨hne, hold, -⟩ := hnot x hx
      have hpath : x ∉ t :: path := fun hmem =>
        hold (hs.path_sub ((List.mem_cons.mp hmem).resolve_left hne))
      have hmem : x ∈ r.stack := hstack ▸ List.mem_append_left _ hx
      exact ⟨h.sound.done x hmem hpath w hw, (habove x hx).2 w hw⟩
    · obtain rfl := List.mem_singleton.mp hx
      exact (h.operands w hw).resolve_left List.not_mem_nil
  refine ((h.sound.visited w).mp hvisited.1).imp_left fun hmem => ?_
  rw [hstack] at hmem
  rcases List.mem_append.mp hmem with hmem | hmem
  · exact List.mem_append_left _ hmem
  rcases List.mem_cons.mp hmem with rfl | hmem
  · exact List.mem_append_right _ (List.mem_singleton_self _)
  · -- all that was on the stack before has a smaller number
    obtain ⟨k, hk⟩ := Option.isSome_iff_exists.mp ((hs.visited w).mpr (.inl hmem))
    exact absurd (hvisited.2 k hmem hk) (Nat.not_le.mpr (hs.number_lt w k hk))

/-- Then it makes up a component. -/
theorem coupled_close (h : Scanned g path t s [] (s.visited.length, r)) (hs : s.Sound g path)
    (hstack : r.stack = above ++ t :: s.stack)
    (habove : ∀ u ∈ above, g.DependsOn t u ∧ ∀ w ∈ g.operands u, s.Below s.visited.length w)
    {x : Temp} (hx : x ∈ above ++ [t]) : u ∈ above ++ [t] ↔ g.Coupled x u := by
  obtain ⟨hnot, ht, htclosed, hold⟩ := h.notMem_above hstack
  have hmem : ∀ y ∈ above ++ [t], y ∈ r.stack ∧ y ∉ r.components.flatten := by
    intro y hy
    rw [hstack]
    rcases List.mem_append.mp hy with hy | hy
    · exact ⟨List.mem_append_left _ hy, (hnot y hy).2.2⟩
    · obtain rfl := List.mem_singleton.mp hy
      exact ⟨List.mem_append_right _ List.mem_cons_self, htclosed⟩
  -- its members lead to nothing but each other and closed components
  have hreach : ∀ y ∈ above ++ [t], ∀ z, g.DependsOn y z →
      z ∈ above ++ [t] ∨ z ∈ r.components.flatten := fun y hy z hdep =>
    hdep.mem_of_closed (P := fun z => z ∈ above ++ [t] ∨ z ∈ r.components.flatten) (.inl hy)
      fun z hz w hw => hz.elim (fun hz => h.operands_close hs hstack habove hz hw)
        fun hz => .inr (h.sound.closed z hz w hw)
  have hfrom : ∀ y ∈ above ++ [t], g.DependsOn t y := by
    intro y hy
    rcases List.mem_append.mp hy with hy | hy
    · exact (habove y hy).1
    · obtain rfl := List.mem_singleton.mp hy
      exact .refl
  have hto : ∀ y ∈ above ++ [t], g.DependsOn y t := by
    intro y hy
    obtain ⟨v, hv, hdep⟩ := h.sound.leads y (hmem y hy).1
    rcases List.mem_cons.mp hv with rfl | hv
    · exact hdep
    · -- no other visit under way is led back to
      have hv := hs.path_sub hv
      rcases hreach y hy v hdep with hv' | hv'
      · rcases List.mem_append.mp hv' with hv' | hv'
        · exact absurd hv (hnot v hv').2.1
        · exact absurd (List.mem_singleton.mp hv' ▸ hv) ht
      · exact absurd hv' (hold v hv)
  constructor
  · exact fun hu => ⟨(hto x hx).trans (hfrom u hu), (hto u hu).trans (hfrom x hx)⟩
  · rintro ⟨hxu, hux⟩
    refine (hreach x hx u hxu).resolve_right fun hu => (hmem x hx).2 ?_
    exact hux.mem_of_closed hu fun z hz w hw => h.sound.closed z hz w hw

theorem close_eq (h : Scanned g path t s left (low, r)) (hstack : r.stack = above ++ t :: s.stack) :
    r.close t = ⟨r.visited, s.stack, r.components ++ [above ++ [t]]⟩ := by
  have htake : r.stack.takeWhile (· != t) = above := by
    rw [hstack, List.takeWhile_append_of_pos fun x hx => by simpa using ((h.notMem_above hstack).1 x hx).1]
    simp
  rw [close, htake, hstack]
  simp

theorem sound_close (h : Scanned g path t s [] (s.visited.length, r)) (hs : s.Sound g path)
    (hstack : r.stack = above ++ t :: s.stack)
    (habove : ∀ u ∈ above, g.DependsOn t u ∧ ∀ w ∈ g.operands u, s.Below s.visited.length w) :
    (r.close t).Sound g path := by
  have hsound := h.sound
  rw [h.close_eq hstack]
  have hflat : (r.components ++ [above ++ [t]]).flatten = r.components.flatten ++ (above ++ [t]) := by
    simp
  refine ⟨hsound.number_lt, fun u => ?_, ?_, hs.path_sub, fun u hu hpath v hv => ?_, hs.leads,
    fun u hu v hv => ?_, fun c hc u hu v => ?_⟩
  · rw [show number? ⟨r.visited, s.stack, r.components ++ [above ++ [t]]⟩ u = r.number? u from rfl,
      hsound.visited u, hstack]
    simp only [hflat, List.mem_append, List.mem_cons, List.not_mem_nil, or_false]
    tauto
  · have hperm : List.Perm (s.stack ++ (r.components ++ [above ++ [t]]).flatten)
        (r.stack ++ r.components.flatten) := by
      rw [hflat, hstack, List.perm_iff_count]
      intro a
      simp only [List.count_append, List.count_cons, List.count_nil]
      omega
    exact hperm.nodup_iff.mpr hsound.nodup
  · exact h.grows.isSome (hs.done u hu hpath v hv)
  · simp only [hflat, List.mem_append (s := r.components.flatten)] at hu ⊢
    rcases hu with hu | hu
    · exact .inl (hsound.closed u hu v hv)
    · exact (h.operands_close hs hstack habove hu hv).symm
  · rcases List.mem_append.mp hc with hc | hc
    · exact hsound.coupled c hc u hu v
    · obtain rfl := List.mem_singleton.mp hc
      exact h.coupled_close hs hstack habove hu

end Close

/-- With all operands followed, the visit is done. -/
theorem finish (h : Scanned g path t s [] p) (hs : s.Sound g path) :
    Visited g path t s (finish t s.visited.length p) := by
  obtain ⟨above, hstack, habove⟩ := h.stack
  obtain ⟨low, r⟩ := p
  unfold ComponentSearch.finish
  dsimp only at *
  have hmem : t ∈ r.stack := hstack ▸ List.mem_append_right _ List.mem_cons_self
  have hvisited : (r.number? t).isSome := (h.sound.visited t).mpr (.inl hmem)
  split
  · rename_i hlow
    subst hlow
    refine ⟨h.sound_close hs hstack habove, h.grows.trans .refl (.close r t), hvisited,
      ⟨[], ?_, fun _ => nofun⟩, .inl rfl⟩
    rw [h.close_eq hstack]
    rfl
  · rename_i hlow
    obtain ⟨-, w, hw, hnum, hdep⟩ := h.low.resolve_left hlow
    have hsound := h.sound
    refine ⟨⟨hsound.number_lt, hsound.visited, hsound.nodup,
      fun u hu => hsound.path_sub (List.mem_cons_of_mem t hu), fun u hu hpath v hv => ?_, fun u hu => ?_,
      hsound.closed, hsound.coupled⟩, h.grows, hvisited, ⟨above ++ [t], by simp [hstack], fun u hu => ?_⟩,
      .inr ⟨w, hw, hnum, hdep⟩⟩
    · by_cases e : u = t
      · subst e
        exact ((h.operands v hv).resolve_left List.not_mem_nil).1
      · exact hsound.done u hu (mt List.mem_cons.mp (not_or.mpr ⟨e, hpath⟩)) v hv
    · -- what led to `t` leads on to a visit that is still under way
      obtain ⟨v, hv, huv⟩ := hsound.leads u hu
      rcases List.mem_cons.mp hv with rfl | hv
      · obtain ⟨v', hv', hwv⟩ := hs.leads w hw
        exact ⟨v', hv', (huv.trans hdep).trans hwv⟩
      · exact ⟨v, hv, huv⟩
    · rcases List.mem_append.mp hu with hu | hu
      · exact habove u hu
      · obtain rfl := List.mem_singleton.mp hu
        exact ⟨.refl, fun v hv => ((h.operands v hv).resolve_left List.not_mem_nil).2⟩

end Scanned

/-- A visit with enough fuel for all that is unvisited. -/
theorem visited_visit : ∀ {fuel : Nat} {path : List Temp} {t : Temp} {s : ComponentSearch},
    s.Sound g path → s.number? t = none → unvisited g s < fuel →
      Visited g path t s (visit g fuel t s) := by
  intro fuel
  -- deeper visits have more visits under way and less fuel
  induction fuel with
  | zero =>
    intro path t s _ _ hfuel
    omega
  | succ fuel ih =>
    intro path t s hs hnew hfuel
    have hfold : ∀ (us : List Temp) (p : Nat × ComponentSearch), us ⊆ g.operands t →
        Scanned g path t s us p → Scanned g path t s [] (us.foldl (follow g fuel) p) := by
      intro us
      induction us with
      | nil => exact fun p _ hp => hp
      | cons u us ihus =>
        intro p hus hp
        obtain ⟨hu, hus⟩ := List.cons_subset.mp hus
        refine ihus _ hus ?_
        unfold follow
        cases hnum : p.2.number? u with
        | none =>
          have hkeeps : Keeps (s.push t) p.2 := by
            intro w hw
            rw [push_number?] at hw
            split at hw
            · rename_i e
              exact e ▸ (hp.sound.visited t).mpr (.inl (hp.sound.path_sub List.mem_cons_self))
            · exact hp.grows.isSome hw
          have hlt := unvisited_push_lt (UseGraph.mem_temps_of_operands hu) hnew
          have hle := unvisited_le (g := g) hkeeps
          exact hp.step_visit hs hu hnum (ih hp.sound hnum (by omega))
        | some k => exact hp.step_visited hs hu hnum
    rw [visit_succ]
    exact (hfold _ _ (List.Subset.refl _) (.start hs hnew)).finish hs

/-! ### Searches -/

/-- Between searches, no visit is under way. -/
theorem Sound.stack_eq_nil (hs : s.Sound g []) : s.stack = [] := by
  refine List.eq_nil_iff_forall_not_mem.mpr fun t ht => ?_
  obtain ⟨u, hu, -⟩ := hs.leads t ht
  cases hu

theorem sound_empty (g : UseGraph) : ComponentSearch.empty.Sound g [] := by
  refine ⟨?_, ?_, ?_, ?_, ?_, ?_, ?_, ?_⟩ <;> simp [empty, number?]

theorem sound_run (hs : s.Sound g []) (t : Temp) :
    (run g t s).Sound g [] ∧ Grows g t s (run g t s) ∧ ((run g t s).number? t).isSome := by
  unfold run
  split
  · exact ⟨hs, .refl g t s, ‹_›⟩
  · rename_i hnew
    have hfuel := unvisited_le_sites g s
    have h := visited_visit hs (by simpa using hnew) (Nat.lt_succ_of_le hfuel)
    exact ⟨h.sound, h.grows, h.visited⟩

/-- Searches from some starts, one after the other. -/
def runs (g : UseGraph) (starts : List Temp) : ComponentSearch :=
  starts.foldl (fun s t => run g t s) empty

theorem runs_concat (g : UseGraph) (starts : List Temp) (t : Temp) :
    runs g (starts ++ [t]) = run g t (runs g starts) := by
  rw [runs, List.foldl_append, List.foldl_cons, List.foldl_nil, ← runs]

/-- What the components of a search are to be: those of the dependencies among what the starts depend
on. -/
structure Answers (g : UseGraph) (starts : List Temp) (s : ComponentSearch) : Prop where
  stack : s.stack = []
  visited : ∀ t, (s.number? t).isSome ↔ ∃ u ∈ starts, g.DependsOn u t
  once : ∀ t, (s.number? t).isSome →
    ∃ c, s.components.filter (·.contains t) = [c] ∧ s.component? t = some c
  component : ∀ t c, s.component? t = some c → ∀ u, u ∈ c ↔ g.Coupled t u

theorem sound_runs (g : UseGraph) (starts : List Temp) : (runs g starts).Sound g [] ∧
    ∀ t, ((runs g starts).number? t).isSome ↔ ∃ u ∈ starts, g.DependsOn u t := by
  induction starts using List.reverseRecOn with
  | nil => exact ⟨sound_empty g, fun t => by simp [runs, empty, number?]⟩
  | append_singleton starts t ih =>
    obtain ⟨hs, hvisited⟩ := ih
    obtain ⟨hsound, hgrows, ht⟩ := sound_run hs t
    rw [runs_concat]
    refine ⟨hsound, fun w => ⟨fun hw => ?_, ?_⟩⟩
    · cases hold : (runs g starts).number? w with
      | some k =>
        obtain ⟨u, hu, hdep⟩ := (hvisited w).mp (by simp [hold])
        exact ⟨u, List.mem_append_left _ hu, hdep⟩
      | none =>
        obtain ⟨k, hk⟩ := Option.isSome_iff_exists.mp hw
        exact ⟨t, List.mem_append_right _ (List.mem_singleton_self t), (hgrows.later w k hold hk).2⟩
    · rintro ⟨u, hu, hdep⟩
      -- all that is visited is closed, and with it what it depends on
      have hclosed : ∀ v, ((run g t (runs g starts)).number? v).isSome →
          v ∈ (run g t (runs g starts)).components.flatten := fun v hv =>
        ((hsound.visited v).mp hv).resolve_left (by simp [hsound.stack_eq_nil])
      refine (hsound.visited w).mpr (.inr (hdep.mem_of_closed (hclosed u ?_) hsound.closed))
      rcases List.mem_append.mp hu with hu | hu
      · exact hgrows.isSome ((hvisited u).mpr ⟨u, hu, .refl⟩)
      · obtain rfl := List.mem_singleton.mp hu
        exact ht

/-- A member of one of some lists without common members is in no other. -/
theorem filter_contains_of_nodup : ∀ {cs : List (List Temp)}, cs.flatten.Nodup → t ∈ cs.flatten →
    ∃ c ∈ cs, cs.filter (·.contains t) = [c] ∧ cs.find? (·.contains t) = some c := by
  intro cs
  induction cs with
  | nil => exact fun _ h => absurd h List.not_mem_nil
  | cons c cs ih =>
    intro hnodup ht
    rw [List.flatten_cons] at hnodup ht
    obtain ⟨-, hcs, hdisj⟩ := List.nodup_append.mp hnodup
    by_cases htc : t ∈ c
    · have hc : c.contains t = true := List.contains_iff_mem.mpr htc
      have hrest : cs.filter (·.contains t) = [] := by
        refine List.filter_eq_nil_iff.mpr fun d hd hmem => ?_
        exact hdisj t htc t (List.mem_flatten.mpr ⟨d, hd, List.contains_iff_mem.mp hmem⟩) rfl
      exact ⟨c, List.mem_cons_self, by rw [List.filter_cons, if_pos hc, hrest], List.find?_cons_of_pos hc⟩
    · have hc : ¬ c.contains t = true := mt List.contains_iff_mem.mp htc
      obtain ⟨d, hd, hfilter, hfind⟩ := ih hcs ((List.mem_append.mp ht).resolve_left htc)
      exact ⟨d, List.mem_cons_of_mem c hd, by rw [List.filter_cons, if_neg hc, hfilter],
        (List.find?_cons_of_neg (p := fun c : List Temp => c.contains t) hc).trans hfind⟩

theorem mem_component? {c : List Temp} (h : s.component? t = some c) : c ∈ s.components ∧ t ∈ c :=
  ⟨List.mem_of_find?_eq_some h, by simpa using List.find?_some h⟩

/-- A component lists what depends on each other once. -/
theorem coupled_of_component? {c ts : List Temp} (h : (runs g ts).component? t = some c) :
    c.Nodup ∧ ∀ t ∈ c, ∀ u, u ∈ c ↔ g.Coupled t u := by
  have hsound := (sound_runs g ts).1
  have hmem := (mem_component? h).1
  exact ⟨(List.nodup_flatten.mp (List.nodup_append.mp hsound.nodup).2.1).1 c hmem, hsound.coupled c hmem⟩

/-- The members of a component that is found are those coupled with what it is found for, each once. -/
theorem members_of_component? {c ts : List Temp} (h : (runs g ts).component? t = some c) :
    c.Nodup ∧ ∀ u, u ∈ c ↔ g.Coupled t u := by
  obtain ⟨hnodup, hcoupled⟩ := coupled_of_component? h
  exact ⟨hnodup, hcoupled t (mem_component? h).2⟩

/-- After each of any number of searches the components are those of the dependencies among what the
starts depend on, and searches from more starts leave them as they are. -/
theorem answers_runs (g : UseGraph) (starts : List Temp) : Answers g starts (runs g starts) ∧
    ∀ more, (runs g starts).components <+: (runs g (starts ++ more)).components ∧
      ∀ t c, (runs g starts).component? t = some c → (runs g (starts ++ more)).component? t = some c := by
  obtain ⟨hs, hvisited⟩ := sound_runs g starts
  refine ⟨⟨hs.stack_eq_nil, hvisited, fun t ht => ?_, fun t c h u => ?_⟩, fun more => ?_⟩
  · have hmem := ((hs.visited t).mp ht).resolve_left (by simp [hs.stack_eq_nil])
    obtain ⟨c, -, hfilter, hfind⟩ := filter_contains_of_nodup (List.nodup_append.mp hs.nodup).2.1 hmem
    exact ⟨c, hfilter, hfind⟩
  · obtain ⟨hc, ht⟩ := mem_component? h
    exact hs.coupled c hc t ht u
  · have hkept : (runs g starts).components <+: (runs g (starts ++ more)).components := by
      induction more using List.reverseRecOn with
      | nil => simp
      | append_singleton more t ih =>
        have hsound := (sound_runs g (starts ++ more)).1
        rw [← List.append_assoc, runs_concat]
        exact ih.trans (sound_run hsound t).2.1.components
    refine ⟨hkept, fun t c h => ?_⟩
    obtain ⟨rest, hrest⟩ := hkept
    rw [component?, ← hrest, List.find?_append]
    simp only [component?] at h
    rw [h]
    rfl

end ComponentSearch

end LoopLanes
