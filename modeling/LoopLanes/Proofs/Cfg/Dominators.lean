/-
The dominator tree of a function, read as dominance in its graph.

`Func.flow` is the graph that a search runs through, forwards or backwards.

* `mem_reachableWithout` — a search with the fuel it is given finds what can
  be reached, and nothing else;
* `dominates_iff` — the tree answers dominance in this graph;
* `dominates_idom` — the immediate dominator of a block is the closest one.
-/
import LoopLanes.Proofs.Cfg.Flow
import LoopLanes.Proofs.Cfg.Links
import Mathlib.Algebra.Order.Ring.Nat
import Mathlib.Data.List.Perm.Subperm

namespace LoopLanes

/-! ### The potential of a search -/

/-- The weight of all that is not done yet. -/
def openWeight {α κ : Type} (key : α → κ) (weight : α → Nat) (done : κ → Bool) (l : List α) :
    Nat :=
  ((l.filter fun a => !done (key a)).map weight).sum

theorem openWeight_mono {α κ : Type} (key : α → κ) (weight : α → Nat) {done done' : κ → Bool}
    (more : ∀ k, done k = true → done' k = true) (l : List α) :
    openWeight key weight done' l ≤ openWeight key weight done l := by
  unfold openWeight
  induction l with
  | nil => simp
  | cons a l ih =>
    have := more (key a)
    by_cases h : done (key a) = true <;> by_cases h' : done' (key a) = true <;>
      simp_all
    omega

/-- Work that gets done is taken off the weight. -/
theorem openWeight_add_le {α κ : Type} (key : α → κ) (weight : α → Nat) {done done' : κ → Bool}
    (more : ∀ k, done k = true → done' k = true) {b : α} {l : List α} (hb : b ∈ l)
    (open_b : done (key b) = false) (done_b : done' (key b) = true) :
    openWeight key weight done' l + weight b ≤ openWeight key weight done l := by
  induction l with
  | nil => simp at hb
  | cons a l ih =>
    rcases List.mem_cons.mp hb with rfl | hb
    · have := openWeight_mono key weight more l
      simp only [openWeight] at this ⊢
      simp [open_b, done_b]
      omega
    · have := ih hb
      have := more (key a)
      simp only [openWeight] at *
      by_cases h : done (key a) = true <;> by_cases h' : done' (key a) = true <;>
        simp_all <;> omega

theorem openWeight_le_sum {α κ : Type} (key : α → κ) (weight : α → Nat) (done : κ → Bool)
    (l : List α) : openWeight key weight done l ≤ (l.map weight).sum := by
  have more : ∀ k, (fun _ => false) k = true → done k = true := by simp
  have := openWeight_mono key weight more l
  simpa [openWeight] using this

theorem openWeight_le_mul {α κ : Type} (key : α → κ) (weight : α → Nat) (done : κ → Bool)
    {c : Nat} : ∀ {l : List α}, (∀ a ∈ l, weight a ≤ c) →
      openWeight key weight done l ≤ l.length * c := by
  intro l
  induction l with
  | nil => simp [openWeight]
  | cons a l ih =>
    intro h
    obtain ⟨ha, hl⟩ := List.forall_mem_cons.mp h
    have := ih hl
    rw [List.length_cons, Nat.add_mul, Nat.one_mul]
    simp only [openWeight] at this ⊢
    by_cases hd : done (key a) = true <;> simp [hd] <;> omega

/-- A single weight is at most the sum of all. -/
theorem weight_le_sum {α : Type} (weight : α → Nat) {b : α} {l : List α} (hb : b ∈ l) :
    weight b ≤ (l.map weight).sum := by
  induction l with
  | nil => simp at hb
  | cons a l ih =>
    rw [List.map_cons, List.sum_cons]
    rcases List.mem_cons.mp hb with rfl | hb
    · omega
    · have := ih hb
      omega

namespace Func

variable {f : Func} {reverse : Bool} {removed : Option Int}

/-- The graph that a search runs through. -/
def flow (f : Func) (reverse : Bool) : Flow Int where
  edge u w := ∃ b ∈ f.blocks, b.id = u ∧ ∃ r ∈ next reverse b, r.number = w
  root v := ∃ b ∈ f.roots reverse, b.id = v

theorem mem_roots {b : Block} (h : b ∈ f.roots reverse) : b ∈ f.blocks := by
  unfold roots at h
  split at h
  · exact List.mem_of_mem_filter h
  · exact List.mem_of_mem_take h

/-- A link in either direction leads to a block. -/
theorem Linked.next_linked (hf : f.Linked) {b : Block} (hb : b ∈ f.blocks)
    {r : BlockRef} (hr : r ∈ next reverse b) : ∃ c ∈ f.blocks, c.ref = r ∧ f.linked? r = some c := by
  have key : ∃ c ∈ f.blocks, c.ref = r := by
    cases reverse with
    | true => obtain ⟨c, hc, e, -⟩ := hf.prev b hb r hr; exact ⟨c, hc, e⟩
    | false => obtain ⟨c, hc, e, -⟩ := hf.succ b hb r hr; exact ⟨c, hc, e⟩
  obtain ⟨c, hc, rfl⟩ := key
  exact ⟨c, hc, rfl, hf.linked? hc⟩

theorem Linked.flow_edge (hf : f.Linked) {b : Block} (hb : b ∈ f.blocks) {w : Int} :
    (f.flow reverse).edge b.id w ↔ ∃ r ∈ next reverse b, r.number = w := by
  constructor
  · rintro ⟨c, hc, e, h⟩
    rwa [eq_of_id_eq hf.nodup hc hb e] at h
  · exact fun h => ⟨b, hb, rfl, h⟩

/-- What is reached is a block. -/
theorem Linked.exists_block (hf : f.Linked) {v : Int} (h : (f.flow reverse).Reaches v) :
    ∃ b ∈ f.blocks, b.id = v := by
  refine h.induct (P := fun v => ∃ b ∈ f.blocks, b.id = v) ?_ ?_
  · rintro _ ⟨b, hb, rfl⟩
    exact ⟨b, mem_roots hb, rfl⟩
  · rintro _ _ - - ⟨b, hb, rfl, r, hr, rfl⟩
    obtain ⟨c, hc, rfl, -⟩ := hf.next_linked hb hr
    exact ⟨c, hc, rfl⟩

/-! ### Searching -/

theorem cut_edge {u w : Int} :
    ((f.flow reverse).cut removed).edge u w ↔ (f.flow reverse).edge u w ∧ some w ≠ removed := by
  cases removed <;> simp [Flow.cut, Flow.without]

theorem cut_root {v : Int} :
    ((f.flow reverse).cut removed).root v ↔ (f.flow reverse).root v ∧ some v ≠ removed := by
  cases removed <;> simp [Flow.cut, Flow.without]

/-- A search only finds what can be reached. -/
theorem search_sound (hf : f.Linked) : ∀ {fuel : Nat} {work : List Block} {seen : List Int},
    (∀ b ∈ work, b ∈ f.blocks ∧ ((f.flow reverse).cut removed).Reaches b.id) →
    (∀ i ∈ seen, ((f.flow reverse).cut removed).Reaches i) →
      ∀ i ∈ f.search reverse removed fuel work seen, ((f.flow reverse).cut removed).Reaches i := by
  intro fuel
  induction fuel with
  | zero =>
    intro work seen _ hseen
    simpa [search] using hseen
  | succ fuel ih =>
    intro work seen hwork hseen
    cases work with
    | nil => simpa [search] using hseen
    | cons b work =>
      obtain ⟨⟨hb, hreach⟩, hrest⟩ := List.forall_mem_cons.mp hwork
      simp only [search]
      split
      · exact ih hrest hseen
      · refine ih ?_ (List.forall_mem_cons.mpr ⟨hreach, hseen⟩)
        intro c hc
        rcases List.mem_append.mp hc with hc | hc
        · exact hrest c hc
        · obtain ⟨r, hr, hlink⟩ := List.mem_filterMap.mp hc
          obtain ⟨hr, hne⟩ := List.mem_filter.mp hr
          obtain ⟨hmem, rfl⟩ := linked?_mem hlink
          refine ⟨hmem, hreach.step (cut_edge.mpr ⟨?_, by simpa [Block.id] using hne⟩)⟩
          exact (hf.flow_edge hb).mpr ⟨c.ref, hr, rfl⟩

/-- With fuel for all links, a search finds the work list and whatever can be
reached from what it finds. -/
theorem search_complete (hf : f.Linked) : ∀ {fuel : Nat} {work : List Block} {seen : List Int},
    (∀ b ∈ work, b ∈ f.blocks) →
    (∀ i ∈ seen, ∀ w, ((f.flow reverse).cut removed).edge i w →
      w ∈ seen ∨ ∃ b ∈ work, b.id = w) →
    work.length + openWeight Block.id (fun b => (next reverse b).length) seen.contains f.blocks
      < fuel →
      (∀ i ∈ seen, i ∈ f.search reverse removed fuel work seen) ∧
      (∀ b ∈ work, b.id ∈ f.search reverse removed fuel work seen) ∧
      ∀ i ∈ f.search reverse removed fuel work seen, ∀ w,
        ((f.flow reverse).cut removed).edge i w → w ∈ f.search reverse removed fuel work seen := by
  intro fuel
  induction fuel with
  | zero =>
    intro work seen _ _ hfuel
    omega
  | succ fuel ih =>
    intro work seen hwork hclosed hfuel
    cases work with
    | nil =>
      simp only [search]
      exact ⟨fun _ h => h, by simp, fun i hi w e => (hclosed i hi w e).resolve_right (by simp)⟩
    | cons b work =>
      obtain ⟨hb, hrest⟩ := List.forall_mem_cons.mp hwork
      simp only [search]
      simp only [List.length_cons] at hfuel
      split
      · rename_i hseen
        have hseen : b.id ∈ seen := by simpa using hseen
        obtain ⟨h1, h2, h3⟩ := ih hrest (fun i hi w e => by
          rcases hclosed i hi w e with h | ⟨c, hc, rfl⟩
          · exact .inl h
          · rcases List.mem_cons.mp hc with rfl | hc
            · exact .inl hseen
            · exact .inr ⟨c, hc, rfl⟩) (by omega)
        exact ⟨h1, List.forall_mem_cons.mpr ⟨h1 _ hseen, h2⟩, h3⟩
      · rename_i hseen
        have hopen : seen.contains b.id = false := by simpa using hseen
        have more : ∀ k, seen.contains k = true → (b.id :: seen).contains k = true :=
          fun k hk => by simp_all
        have hweight := openWeight_add_le Block.id (fun b => (next reverse b).length) more hb hopen
          (by simp)
        have hlen : (((next reverse b).filter fun r => some r.number != removed).filterMap
            f.linked?).length ≤ (next reverse b).length :=
          Nat.le_trans (List.length_filterMap_le ..) (List.length_filter_le ..)
        have hmore := @ih (work ++ ((next reverse b).filter fun r => some r.number != removed).filterMap
            f.linked?) (b.id :: seen) (fun c hc => ?_) (fun i hi w e => ?_) ?_
        · obtain ⟨h1, h2, h3⟩ := hmore
          obtain ⟨hself, h1⟩ := List.forall_mem_cons.mp h1
          refine ⟨h1, List.forall_mem_cons.mpr ⟨hself, fun c hc => ?_⟩, h3⟩
          exact h2 c (List.mem_append_left _ hc)
        · rcases List.mem_append.mp hc with hc | hc
          · exact hrest c hc
          · obtain ⟨r, -, hlink⟩ := List.mem_filterMap.mp hc
            exact (linked?_mem hlink).1
        · rcases List.mem_cons.mp hi with rfl | hi
          · obtain ⟨e, hne⟩ := cut_edge.mp e
            obtain ⟨r, hr, rfl⟩ := (hf.flow_edge hb).mp e
            obtain ⟨c, -, rfl, hlink⟩ := hf.next_linked hb hr
            refine .inr ⟨c, List.mem_append_right _ (List.mem_filterMap.mpr ⟨c.ref, ?_, hlink⟩), rfl⟩
            exact List.mem_filter.mpr ⟨hr, by simpa using hne⟩
          · rcases hclosed i hi w e with h | ⟨c, hc, rfl⟩
            · exact .inl (List.mem_cons_of_mem _ h)
            · rcases List.mem_cons.mp hc with rfl | hc
              · exact .inl (by simp)
              · exact .inr ⟨c, List.mem_append_left _ hc, rfl⟩
        · rw [List.length_append]
          omega

theorem sum_next_le (f : Func) (reverse : Bool) :
    (f.blocks.map fun b => (next reverse b).length).sum ≤ f.edgeCount := by
  unfold edgeCount
  induction f.blocks with
  | nil => simp
  | cons b bs ih =>
    simp only [List.map_cons, List.sum_cons, List.foldr_cons]
    cases reverse <;> simp only [next] at * <;> simp at * <;> omega

/-- What a search from the roots finds is what can be reached. -/
theorem mem_reachableWithout (hf : f.Linked) {v : Int} :
    v ∈ f.reachableWithout reverse removed ↔ ((f.flow reverse).cut removed).Reaches v := by
  have hroots : ∀ b ∈ (f.roots reverse).filter fun b => some b.id != removed,
      b ∈ f.blocks ∧ ((f.flow reverse).cut removed).root b.id := by
    intro b hb
    obtain ⟨hb, hne⟩ := List.mem_filter.mp hb
    exact ⟨mem_roots hb, cut_root.mpr ⟨⟨b, hb, rfl⟩, by simpa using hne⟩⟩
  unfold reachableWithout
  constructor
  · refine search_sound hf (fun b hb => ?_) (by simp) v
    exact ⟨(hroots b hb).1, .of_root (hroots b hb).2⟩
  · intro h
    have hfuel : openWeight Block.id (fun b => (next reverse b).length) [].contains f.blocks
        ≤ f.edgeCount := by
      simpa [openWeight] using sum_next_le f reverse
    obtain ⟨-, hwork, hclosed⟩ := @search_complete f reverse removed hf _ _ []
      (fun b hb => (hroots b hb).1) (by simp)
      (show _ < f.edgeCount + ((f.roots reverse).filter fun b => some b.id != removed).length + 1
        by omega)
    refine h.induct (fun r hr => ?_) fun u w _ hu e => hclosed u hu w e
    obtain ⟨⟨b, hb, rfl⟩, hne⟩ := cut_root.mp hr
    exact hwork b (List.mem_filter.mpr ⟨hb, by simpa using hne⟩)

end Func

/-- The smallest key is that of a member, and no other member has a smaller one. -/
theorem firstMin?_eq_some {α : Type} {key : α → Nat} {b : α} : ∀ {l : List α},
    firstMin? key l = some b → b ∈ l ∧ ∀ a ∈ l, key b ≤ key a := by
  intro l
  induction l generalizing b with
  | nil => simp [firstMin?]
  | cons a l ih =>
    intro h
    simp only [firstMin?] at h
    cases hl : firstMin? key l with
    | none =>
      cases l with
      | nil => simp_all
      | cons c l =>
        simp only [firstMin?] at hl
        split at hl
        · cases hl
        · split at hl <;> cases hl
    | some c =>
      obtain ⟨hc, hmin⟩ := ih hl
      simp only [hl] at h
      split at h
      · rename_i hle
        cases h
        refine ⟨by simp, ?_⟩
        rintro d (_ | ⟨_, hd⟩)
        · exact Nat.le_refl _
        · exact Nat.le_trans hle (hmin d hd)
      · rename_i hlt
        cases h
        refine ⟨List.mem_cons_of_mem _ hc, ?_⟩
        rintro d (_ | ⟨_, hd⟩)
        · omega
        · exact hmin d hd

namespace DomTree

open Func

variable {f : Func} {reverse : Bool} {a v : Int}

theorem lookup_getD (regions : List (Int × List Int)) (id : Int) :
    (lookup regions id).getD [] = (regions.filter (·.1 == id)).flatMap (·.2) := by
  unfold lookup
  split
  · rename_i h
    simp [h]
  · rfl

/-- The region of a block is what it dominates. -/
theorem mem_region (hf : f.Linked) :
    v ∈ (lookup (regionsOf f reverse) a).getD [] ↔ (f.flow reverse).Dominates a v := by
  have hall : ∀ v, v ∈ f.reachableWithout reverse none ↔ (f.flow reverse).Reaches v :=
    fun v => mem_reachableWithout hf
  have hrest : ∀ v a, v ∈ f.reachableWithout reverse (some a) ↔
      ((f.flow reverse).without a).Reaches v := fun v a => mem_reachableWithout hf
  rw [lookup_getD, List.mem_flatMap]
  constructor
  · rintro ⟨e, hr, hv⟩
    obtain ⟨hr, hid⟩ := List.mem_filter.mp hr
    obtain ⟨b, -, rfl⟩ := List.mem_map.mp hr
    obtain rfl : b.id = a := by simpa using hid
    obtain ⟨-, hv⟩ := List.mem_filter.mp hv
    rw [Bool.and_eq_true, List.contains_iff_mem, hall] at hv
    exact ⟨hv.1, fun h => by simp [(hrest _ _).mpr h] at hv⟩
  · intro h
    obtain ⟨b, hb, rfl⟩ := hf.exists_block h.reaches_left
    obtain ⟨c, hc, rfl⟩ := hf.exists_block h.reaches
    refine ⟨_, List.mem_filter.mpr ⟨List.mem_map_of_mem (List.mem_filter.mpr ⟨hb, ?_⟩), ?_⟩, ?_⟩
    · exact List.contains_iff_mem.mpr ((hall _).mpr h.reaches_left)
    · simp
    · refine List.mem_filter.mpr ⟨List.mem_map_of_mem hc, ?_⟩
      have hno : c.id ∉ f.reachableWithout reverse (some b.id) := fun hm => h.2 ((hrest _ _).mp hm)
      simp [(hall _).mpr h.reaches, hno]

/-- The dominator tree answers dominance. -/
theorem dominates_iff (hf : f.Linked) {b : Int} :
    (ofFunc f reverse).dominates a b = true ↔ (f.flow reverse).Dominates a b := by
  unfold dominates region? ofFunc
  rw [List.contains_iff_mem]
  exact mem_region hf

/-- Of distinct keys, at most one is the one looked for. -/
theorem nodup_flatMap_filter {κ β : Type} [BEq κ] [LawfulBEq κ] {k : κ} :
    ∀ {l : List (κ × List β)}, (l.map (·.1)).Nodup → (∀ e ∈ l, e.2.Nodup) →
      ((l.filter (·.1 == k)).flatMap (·.2)).Nodup := by
  intro l
  induction l with
  | nil => simp
  | cons e l ih =>
    intro hkeys hvals
    obtain ⟨hnew, hkeys⟩ := List.nodup_cons.mp hkeys
    obtain ⟨he, hvals⟩ := List.forall_mem_cons.mp hvals
    by_cases hk : e.1 = k
    · have hnone : l.filter (·.1 == k) = [] := by
        rw [List.filter_eq_nil_iff]
        intro d hd hdk
        have he : d.1 = e.1 := by rw [hk]; simpa using hdk
        exact hnew (List.mem_map.mpr ⟨d, hd, he⟩)
      simp [hk, hnone, he]
    · simpa [hk] using ih hkeys hvals

theorem region_nodup (hf : f.Linked) (a : Int) :
    ((lookup (regionsOf f reverse) a).getD []).Nodup := by
  rw [lookup_getD]
  refine nodup_flatMap_filter ?_ ?_
  · have : (regionsOf f reverse).map (·.1) =
        (f.blocks.filter fun b => (f.reachableWithout reverse none).contains b.id).map Block.id := by
      simp [regionsOf]
    rw [this]
    exact hf.nodup.sublist (List.filter_sublist.map _)
  · intro e he
    obtain ⟨b, -, rfl⟩ := List.mem_map.mp he
    exact hf.nodup.filter _

/-- A block dominates more than any other block that it dominates. -/
theorem region_length_lt (hf : f.Linked) {b : Int} (h : (f.flow reverse).Dominates a b)
    (ne : a ≠ b) :
    ((lookup (regionsOf f reverse) b).getD []).length <
      ((lookup (regionsOf f reverse) a).getD []).length := by
  have hnew : a ∉ (lookup (regionsOf f reverse) b).getD [] :=
    fun hm => ne (h.antisymm ((mem_region hf).mp hm))
  have hsub : a :: (lookup (regionsOf f reverse) b).getD [] ⊆
      (lookup (regionsOf f reverse) a).getD [] := by
    intro v hv
    rcases List.mem_cons.mp hv with rfl | hv
    · exact (mem_region hf).mpr (.refl h.reaches_left)
    · exact (mem_region hf).mpr (h.trans ((mem_region hf).mp hv))
  exact (List.subperm_of_subset (List.nodup_cons.mpr ⟨hnew, region_nodup hf b⟩) hsub).length_le

/-- A block in the tree, with the closest of its strict dominators. -/
structure IsParent (f : Func) (reverse : Bool) (d v : Int) : Prop where
  dominates : (f.flow reverse).Dominates d v
  ne : d ≠ v
  closest : ∀ a, (f.flow reverse).Dominates a v → a ≠ v → (f.flow reverse).Dominates a d

theorem isParent_of_mem (hf : f.Linked) {r : BlockRef} {d : Int}
    (h : (r, d) ∈ (ofFunc f reverse).parents) :
    ∃ b ∈ f.blocks, b.ref = r ∧ IsParent f reverse d b.id := by
  simp only [ofFunc, List.mem_filterMap] at h
  obtain ⟨b, hb, he⟩ := h
  obtain ⟨d', hp, he⟩ := Option.map_eq_some_iff.mp he
  obtain ⟨rfl, rfl⟩ := Prod.mk.inj he
  have hstrict : ∀ a, a ∈ ((f.blocks.map (·.id)).filter fun d =>
      d != b.id && ((lookup (regionsOf f reverse) d).getD []).contains b.id) ↔
      (f.flow reverse).Dominates a b.id ∧ a ≠ b.id := by
    intro a
    rw [List.mem_filter, Bool.and_eq_true, List.contains_iff_mem, mem_region hf]
    constructor
    · rintro ⟨-, hne, hdom⟩
      exact ⟨hdom, by simpa using hne⟩
    · rintro ⟨hdom, hne⟩
      obtain ⟨c, hc, rfl⟩ := hf.exists_block hdom.reaches_left
      exact ⟨List.mem_map_of_mem hc, by simpa using hne, hdom⟩
  obtain ⟨hmem, hmin⟩ := firstMin?_eq_some hp
  obtain ⟨hdom, hne⟩ := (hstrict d').mp hmem
  refine ⟨b, hb, rfl, hdom, hne, fun a ha hane => ?_⟩
  rcases hdom.total ha with h | h
  · by_cases e : d' = a
    · exact e ▸ .refl hdom.reaches_left
    · have := hmin a ((hstrict a).mpr ⟨ha, hane⟩)
      have := region_length_lt hf h e
      omega
  · exact h

theorem mem_children (hf : f.Linked) {r : BlockRef} {d : Int}
    (h : r ∈ (ofFunc f reverse).children d) :
    ∃ b ∈ f.blocks, b.ref = r ∧ IsParent f reverse d b.id := by
  obtain ⟨⟨r', d'⟩, hmem, rfl⟩ := List.mem_map.mp h
  obtain ⟨hparent, he⟩ := List.mem_filter.mp hmem
  have he : d' = d := by simpa using he
  subst he
  exact isParent_of_mem hf hparent

/-- No block is twice a child. -/
theorem children_nodup (hf : f.Linked) (d : Int) :
    (((ofFunc f reverse).children d).map (·.number)).Nodup := by
  have hkeys : ((ofFunc f reverse).parents.map (·.1.number)).Nodup := by
    rw [List.nodup_iff_pairwise_ne, List.pairwise_map, ofFunc, List.pairwise_filterMap]
    refine (List.pairwise_map.mp hf.nodup).imp fun {b c} hbc e he e' he' => ?_
    obtain ⟨_, -, rfl⟩ := Option.map_eq_some_iff.mp he
    obtain ⟨_, -, rfl⟩ := Option.map_eq_some_iff.mp he'
    exact hbc
  rw [children, List.map_map]
  exact hkeys.sublist (List.filter_sublist.map _)

end DomTree

namespace Func

variable {f : Func} {v : Int}

theorem entry_eq_of_mem_roots {b : Block} (h : b ∈ f.roots false) : f.entry = b := by
  cases hbs : f.blocks <;> simp_all [roots, entry]

/-- The entry dominates all that is reached. -/
theorem dominates_entry (hv : (f.flow false).Reaches v) : (f.flow false).Dominates f.entry.id v := by
  refine ⟨hv, ?_⟩
  rintro ⟨_, ⟨⟨b, hb, rfl⟩, ne⟩, -⟩
  exact ne (congrArg Block.id (entry_eq_of_mem_roots hb).symm)

/-- A block dominates no more blocks than there are. -/
theorem region_length_le (hf : f.Linked) (v : Int) :
    ((DomTree.lookup (DomTree.regionsOf f false) v).getD []).length ≤ f.blocks.length := by
  rw [← List.length_map Block.id]
  refine (List.subperm_of_subset (DomTree.region_nodup hf v) fun u hu => ?_).length_le
  obtain ⟨b, hb, rfl⟩ := hf.exists_block ((DomTree.mem_region hf).mp hu).reaches
  exact List.mem_map_of_mem hb

/-- The blocks that verification takes for reachable are those that are reached. -/
theorem mem_reachable (hf : f.Linked) :
    (((DomTree.ofFunc f false).region? f.entry.id).getD []).contains v = true ↔
      (f.flow false).Reaches v := by
  rw [List.contains_iff_mem]
  exact (DomTree.mem_region hf).trans ⟨fun h => h.reaches, dominates_entry⟩

end Func

end LoopLanes
