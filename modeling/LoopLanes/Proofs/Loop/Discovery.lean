/-
What the search for loops finds.

A loop search keeps the innermost loop of every block, and for every loop the one around it.
`LoopSearch.Holds s a b` says that loop `a`, or a loop inside it, has block `b`.

* `collect_spec` — collecting has fuel for all of its stack, and what stands on
  it ends up in the new loop;
* `visit_sound` — a visit keeps what is known of the loops found before,
  as long as no block is visited after one that dominates it;
* `pairwise_postorder` — the dominator tree is walked in such an order;
* `contains_latch`, `exists_latch` — every loop of the forest has a predecessor of its
  header that the header dominates, and contains all of them.
-/
import LoopLanes.Loop.Forest
import LoopLanes.Proofs.Cfg.Dominators

namespace LoopLanes

namespace LoopSearch

variable {f : Func} {s s' : LoopSearch} {a b id new o : Nat} {v : Int}

/-! ### Loops around loops -/

/-- Loop `a` is loop `id` or lies around it. -/
inductive Around (s : LoopSearch) (a : Nat) : Nat → Prop
  | refl : Around s a a
  | step {id o : Nat} (h : s.outer? id = some o) (rest : Around s a o) : Around s a id

/-- Block `v` belongs to loop `a` or to a loop inside it. -/
def Holds (s : LoopSearch) (a : Nat) (v : Int) : Prop :=
  ∃ l, s.owner? v = some l ∧ Around s a l

theorem Around.trans (h : Around s a b) (h' : Around s b id) : Around s a id := by
  induction h' with
  | refl => exact h
  | step e _ ih => exact .step e ih

/-- The second search knows all that the first one does. -/
structure Extends (s s' : LoopSearch) : Prop where
  length : s'.found.length = s.found.length
  header : ∀ id, s'.header? id = s.header? id
  outer : ∀ id o, s.outer? id = some o → s'.outer? id = some o
  owner : ∀ v l, s.owner? v = some l → s'.owner? v = some l

namespace Extends

theorem refl : Extends s s := ⟨rfl, fun _ => rfl, fun _ _ h => h, fun _ _ h => h⟩

theorem trans {s'' : LoopSearch} (h : Extends s s') (h' : Extends s' s'') : Extends s s'' :=
  ⟨h'.length.trans h.length, fun id => (h'.header id).trans (h.header id),
    fun id o e => h'.outer id o (h.outer id o e), fun v l e => h'.owner v l (h.owner v l e)⟩

theorem around (h : Extends s s') (ha : Around s a id) : Around s' a id := by
  induction ha with
  | refl => exact .refl
  | step e _ ih => exact .step (h.outer _ _ e) ih

theorem holds (h : Extends s s') (hv : Holds s a v) : Holds s' a v := by
  obtain ⟨l, hl, ha⟩ := hv
  exact ⟨l, h.owner v l hl, h.around ha⟩

end Extends

/-- Loops are numbered from 1, and a loop around another one has the larger number. -/
structure Ranged (s : LoopSearch) : Prop where
  owner : ∀ v l, s.owner? v = some l → 1 ≤ l ∧ l ≤ s.found.length
  outer : ∀ id o, s.outer? id = some o → id < o ∧ o ≤ s.found.length

theorem outermost_spec (hs : s.Ranged) : ∀ {fuel : Nat} {id : Nat},
    1 ≤ id → id ≤ s.found.length → s.found.length ≤ id + fuel →
      s.outer? (s.outermost fuel id) = none ∧ Around s (s.outermost fuel id) id ∧
        1 ≤ s.outermost fuel id ∧ s.outermost fuel id ≤ s.found.length := by
  intro fuel
  induction fuel with
  | zero =>
    intro id h1 hn hfuel
    refine ⟨?_, .refl, h1, hn⟩
    cases ho : s.outer? id with
    | none => exact ho
    | some o =>
      obtain ⟨hlt, hle⟩ := hs.outer _ _ ho
      omega
  | succ fuel ih =>
    intro id h1 hn hfuel
    rw [outermost]
    cases ho : s.outer? id with
    | none => exact ⟨ho, .refl, h1, hn⟩
    | some o =>
      obtain ⟨hlt, hle⟩ := hs.outer _ _ ho
      obtain ⟨hnone, haround, hlow, hhigh⟩ := ih (by omega) hle (by omega)
      exact ⟨hnone, haround.trans (.step ho .refl), hlow, hhigh⟩

/-! ### Single steps of collecting -/

/-- A block joins a loop. -/
def own (s : LoopSearch) (v : Int) (l : Nat) : LoopSearch :=
  { s with owner := setEntry v l s.owner }

/-- A loop becomes a part of another one. -/
def absorb (s : LoopSearch) (part new : Nat) : LoopSearch :=
  { s with found := s.found.modify (part - 1) fun e => (e.1, some new) }

@[simp] theorem own_owner? (w : Int) (l : Nat) :
    (s.own v l).owner? w = if w = v then some l else s.owner? w :=
  lookup_setEntry ..

@[simp] theorem own_outer? (l : Nat) : (s.own v l).outer? id = s.outer? id := rfl

@[simp] theorem own_header? (l : Nat) : (s.own v l).header? id = s.header? id := rfl

@[simp] theorem own_length (l : Nat) : (s.own v l).found.length = s.found.length := rfl

@[simp] theorem absorb_owner? : (s.absorb a new).owner? v = s.owner? v := rfl

@[simp] theorem absorb_length : (s.absorb a new).found.length = s.found.length := by
  simp [absorb]

@[simp] theorem absorb_header? : (s.absorb a new).header? id = s.header? id := by
  simp only [header?, absorb, List.getElem?_modify]
  cases s.found[id - 1]? <;> simp
  split <;> rfl

theorem absorb_outer? (h1 : 1 ≤ a) (hn : a ≤ s.found.length) :
    (s.absorb a new).outer? id = if id - 1 = a - 1 then some new else s.outer? id := by
  simp only [outer?, absorb, List.getElem?_modify]
  by_cases h : a - 1 = id - 1
  · have : s.found[id - 1]? = some s.found[id - 1] := List.getElem?_eq_getElem (by omega)
    simp [h, this]
  · have h' : ¬ id - 1 = a - 1 := fun e => h e.symm
    simp only [if_neg h, if_neg h']
    cases s.found[id - 1]? <;> rfl

theorem Extends.own (h : s.owner? v = none) (l : Nat) : Extends s (s.own v l) := by
  refine ⟨rfl, fun _ => rfl, fun _ _ h => h, fun w k hk => ?_⟩
  rw [own_owner?, if_neg]
  · exact hk
  · rintro rfl
    rw [h] at hk
    cases hk

theorem Extends.absorb (h1 : 1 ≤ a) (hn : a ≤ s.found.length) (h : s.outer? a = none)
    (new : Nat) : Extends s (s.absorb a new) := by
  refine ⟨absorb_length, fun _ => absorb_header?, fun id o ho => ?_, fun _ _ h => h⟩
  rw [absorb_outer? h1 hn, if_neg]
  · exact ho
  · intro e
    rw [outer?, e] at ho
    rw [outer?, ho] at h
    cases h

theorem Ranged.own (hs : s.Ranged) {l : Nat} (h1 : 1 ≤ l) (hn : l ≤ s.found.length) :
    (s.own v l).Ranged := by
  refine ⟨fun w k hk => ?_, hs.outer⟩
  rw [own_owner?] at hk
  split at hk
  · cases hk
    exact ⟨h1, hn⟩
  · exact hs.owner w k hk

theorem Ranged.absorb (hs : s.Ranged) (h1 : 1 ≤ a) (hlt : a < new) (hn : new ≤ s.found.length) :
    (s.absorb a new).Ranged := by
  refine ⟨fun v l hl => ?_, fun id o ho => ?_⟩
  · rw [absorb_length]
    exact hs.owner v l hl
  · rw [absorb_outer? h1 (by omega)] at ho
    rw [absorb_length]
    split at ho
    · cases ho
      exact ⟨by omega, hn⟩
    · exact hs.outer id o ho

/-! ### Collecting -/

/-- Bounds the number of rounds of collecting: the blocks on the stack, and the
predecessors that blocks without a loop and headers of outermost loops may still push. -/
def potential (f : Func) (new : Nat) (s : LoopSearch) (stack : List BlockRef) : Nat :=
  stack.length + openWeight Block.id (fun b => b.prev.length) (fun v => (s.owner? v).isSome) f.blocks
    + openWeight (fun id : Nat => id) (fun id => (((s.header? id).map (prevs f)).getD []).length)
      (fun id => (s.outer? id).isSome || id == new) (List.range' 1 s.found.length)

theorem prevs_ref (hf : f.Linked) {b : Block} (hb : b ∈ f.blocks) : prevs f b.ref = b.prev := by
  simp [prevs, hf.linked? hb]

theorem potential_own (hf : f.Linked) {r : BlockRef} (h : s.owner? r.number = none)
    (stack : List BlockRef) :
    potential f new (s.own r.number new) ((prevs f r).reverse ++ stack) ≤ potential f new s stack := by
  have more : ∀ v, (s.owner? v).isSome = true → ((s.own r.number new).owner? v).isSome = true := by
    intro v hv
    rw [own_owner?]
    split
    · rfl
    · exact hv
  simp only [potential, own_outer?, own_header?, own_length, List.length_append,
    List.length_reverse]
  cases hb : f.linked? r with
  | none =>
    have := openWeight_mono Block.id (fun b => b.prev.length) more f.blocks
    simp only [prevs, hb, Option.map_none, Option.getD_none, List.length_nil]
    omega
  | some b =>
    obtain ⟨hmem, rfl⟩ := Func.linked?_mem hb
    have := openWeight_add_le Block.id (fun b => b.prev.length) more hmem
      (by simp [Block.id, h]) (by simp [Block.id])
    rw [prevs_ref hf hmem]
    omega

theorem potential_absorb (h1 : 1 ≤ a) (hn : a ≤ s.found.length) (h : s.outer? a = none)
    (ne : a ≠ new) (stack : List BlockRef) :
    potential f new (s.absorb a new)
        ((((s.header? a).map (prevs f)).getD []).reverse ++ stack) ≤ potential f new s stack := by
  have more : ∀ id, ((s.outer? id).isSome || id == new) = true →
      (((s.absorb a new).outer? id).isSome || id == new) = true := by
    intro id hid
    rw [absorb_outer? h1 hn]
    split
    · rfl
    · exact hid
  have hweight := openWeight_add_le (fun id : Nat => id)
    (fun id => (((s.header? id).map (prevs f)).getD []).length) more
    (b := a) (l := List.range' 1 s.found.length) (by simp; omega) (by simp [h, ne])
    (by simp [absorb_outer? h1 hn])
  simp only [potential, absorb_owner?, absorb_header?, absorb_length, List.length_append,
    List.length_reverse]
  omega

/-- The number of a block that goes on to another one. -/
def HasSucc (f : Func) (v : Int) : Prop := ∃ b ∈ f.blocks, b.id = v ∧ b.succ ≠ []

theorem hasSucc_of_mem_prevs (hf : f.Linked) {p r : BlockRef} (h : p ∈ prevs f r) :
    HasSucc f p.number := by
  unfold prevs at h
  cases hb : f.linked? r with
  | none => simp [hb] at h
  | some b =>
    obtain ⟨c, hc, rfl, hsucc⟩ := hf.prev b (Func.linked?_mem hb).1 p (by simpa [hb] using h)
    exact ⟨c, hc, rfl, List.ne_nil_of_mem hsucc⟩

/-- Collecting, with fuel for all it may push, gives the new loop every block that
stands on the stack. -/
theorem collect_spec (hf : f.Linked) : ∀ {fuel : Nat} {stack : List BlockRef} {s : LoopSearch},
    s.Ranged → new = s.found.length → 1 ≤ new → potential f new s stack < fuel →
      Extends s (collect f new fuel stack s) ∧ (collect f new fuel stack s).Ranged ∧
        ∀ r ∈ stack, (collect f new fuel stack s).Holds new r.number := by
  intro fuel
  induction fuel with
  | zero =>
    intro stack s _ _ _ hfuel
    omega
  | succ fuel ih =>
    intro stack s hs hnew h1 hfuel
    cases stack with
    | nil => exact ⟨.refl, hs, by simp⟩
    | cons r stack =>
      have hpot : potential f new s (r :: stack) = potential f new s stack + 1 := by
        simp [potential]; omega
      simp only [collect]
      cases ho : s.owner? r.number with
      | none =>
        -- the block joins, and its predecessors are pushed
        have hext : Extends s (s.own r.number new) := .own ho new
        have hlt : potential f new (s.own r.number new) ((prevs f r).reverse ++ stack) < fuel := by
          have := @potential_own f s new hf r ho stack
          omega
        obtain ⟨hext', hs', hstack⟩ := ih (hs.own h1 (by omega)) hnew h1 hlt
        refine ⟨hext.trans hext', hs', List.forall_mem_cons.mpr ⟨?_, fun p hp => ?_⟩⟩
        · exact hext'.holds ⟨new, by simp, .refl⟩
        · exact hstack p (List.mem_append_right _ hp)
      | some l =>
        obtain ⟨hl1, hln⟩ := hs.owner _ _ ho
        obtain ⟨hnone, haround, hp1, hpn⟩ :=
          @outermost_spec s hs s.found.length _ hl1 hln (by omega)
        by_cases hpart : s.outermost s.found.length l = new
        · -- it belongs to the new loop already
          simp only [hpart, if_true]
          obtain ⟨hext, hs', hstack⟩ := @ih stack s hs hnew h1 (by omega)
          refine ⟨hext, hs', List.forall_mem_cons.mpr ⟨hext.holds ⟨l, ho, ?_⟩, hstack⟩⟩
          exact hpart ▸ haround
        · -- the loops around it become parts of the new one
          simp only [if_neg hpart]
          generalize s.outermost s.found.length l = part at *
          have hext : Extends s (s.absorb part new) := .absorb hp1 hpn hnone new
          have hlt : potential f new (s.absorb part new)
              ((((s.header? part).map (prevs f)).getD []).reverse ++ stack) < fuel := by
            have := potential_absorb (f := f) hp1 hpn hnone hpart stack
            omega
          obtain ⟨hext', hs', hstack⟩ :=
            ih (hs.absorb hp1 (by omega) (by omega)) (by simpa using hnew) h1 hlt
          refine ⟨hext.trans hext', hs', List.forall_mem_cons.mpr ⟨?_, fun p hp => ?_⟩⟩
          · refine hext'.holds ⟨l, ho, .trans (.step ?_ .refl) (hext.around haround)⟩
            rw [absorb_outer? hp1 hpn, if_pos rfl]
          · exact hstack p (List.mem_append_right _ hp)

@[simp] theorem collect_header? : ∀ {fuel : Nat} {stack : List BlockRef} {s : LoopSearch},
    (collect f new fuel stack s).header? id = s.header? id := by
  intro fuel
  induction fuel with
  | zero => intro stack s; rfl
  | succ fuel ih =>
    intro stack s
    cases stack with
    | nil => rfl
    | cons r stack =>
      simp only [collect]
      split
      · exact ih
      · split
        · exact ih
        · exact ih.trans absorb_header?

/-- What holds of a header and of its latches, and of all predecessors of what it holds of. -/
structure Backward (f : Func) (dom : DomTree) (P : Int → Prop) : Prop where
  latch : ∀ h : BlockRef, ∀ p ∈ prevs f h, dom.dominates h.number p.number = true → P h.number ∧ P p.number
  prev : ∀ r : BlockRef, P r.number → ∀ p ∈ prevs f r, P p.number

/-- The headers of the loops and their blocks are as `P` says. -/
structure Owned (P : Int → Prop) (s : LoopSearch) : Prop where
  header : ∀ id r, s.header? id = some r → P r.number
  owner : ∀ v l, s.owner? v = some l → P v

theorem collect_owned {dom : DomTree} {P : Int → Prop} (hP : Backward f dom P) : ∀ {fuel : Nat}
    {stack : List BlockRef} {s : LoopSearch}, (∀ r ∈ stack, P r.number) → Owned P s →
      Owned P (collect f new fuel stack s) := by
  intro fuel
  induction fuel with
  | zero => exact fun _ hs => hs
  | succ fuel ih =>
    intro stack s hstack hs
    cases stack with
    | nil => exact hs
    | cons r stack =>
      obtain ⟨hr, hrest⟩ := List.forall_mem_cons.mp hstack
      have hpush : ∀ b : BlockRef, P b.number → ∀ p ∈ (prevs f b).reverse ++ stack, P p.number := by
        intro b hb p hp
        rcases List.mem_append.mp hp with hp | hp
        · exact hP.prev b hb p (List.mem_reverse.mp hp)
        · exact hrest p hp
      simp only [collect]
      split
      · refine ih (s := s.own r.number new) (hpush r hr) ⟨hs.header, fun v l hl => ?_⟩
        rw [own_owner?] at hl
        split at hl
        · exact ‹v = r.number› ▸ hr
        · exact hs.owner v l hl
      · split
        · exact ih hrest hs
        · refine ih (s := s.absorb _ new) ?_ ⟨fun id q hq => hs.header id q (absorb_header?.symm.trans hq), hs.owner⟩
          cases hq : s.header? (s.outermost s.found.length _) with
          | none => simpa using hrest
          | some b => exact hpush b (hs.header _ b hq)

/-! ### Visits -/

/-- What is known once the loops of some headers were collected. -/
structure Sound (f : Func) (dom : DomTree) (visited : List Int) (s : LoopSearch) : Prop extends
    Ranged s where
  header : ∀ id h, 1 ≤ id → s.header? id = some h → h.number ∈ visited ∧ s.owner? h.number = some id
  latch : ∀ id h, 1 ≤ id → s.header? id = some h →
    ∃ p ∈ prevs f h, dom.dominates h.number p.number = true
  holds : ∀ id h, 1 ≤ id → s.header? id = some h → ∀ p ∈ prevs f h,
    dom.dominates h.number p.number = true → s.Holds id p.number

/-- A new loop, which has its header alone. -/
def opened (s : LoopSearch) (header : BlockRef) : LoopSearch :=
  ⟨s.found ++ [(header, none)], setEntry header.number (s.found.length + 1) s.owner⟩

variable {h : BlockRef}

@[simp] theorem opened_length : (s.opened h).found.length = s.found.length + 1 := by simp [LoopSearch.opened]

@[simp] theorem opened_owner? :
    (s.opened h).owner? v = if v = h.number then some (s.found.length + 1) else s.owner? v :=
  lookup_setEntry ..

@[simp] theorem opened_outer? : (s.opened h).outer? id = s.outer? id := by
  simp only [outer?, LoopSearch.opened, List.getElem?_append]
  split
  · rfl
  · rename_i hle
    rw [List.getElem?_eq_none (l := s.found) (by omega)]
    cases hi : id - 1 - s.found.length <;> simp

theorem opened_header?_last : (s.opened h).header? (s.found.length + 1) = some h := by
  simp [header?, LoopSearch.opened]

theorem opened_header?_of_le (h1 : 1 ≤ id) (hn : id ≤ s.found.length) :
    (s.opened h).header? id = s.header? id := by
  simp only [header?, LoopSearch.opened]
  rw [List.getElem?_append_left (by omega)]

theorem header?_of_opened {q : BlockRef} (hq : (s.opened h).header? id = some q) :
    id - 1 = s.found.length ∧ q = h ∨ s.header? id = some q := by
  simp only [header?, LoopSearch.opened, List.getElem?_append] at hq ⊢
  split at hq
  · exact .inr hq
  · rename_i hle
    cases hi : id - 1 - s.found.length with
    | zero =>
      rw [hi] at hq
      exact .inl ⟨by omega, by simpa using hq.symm⟩
    | succ i => simp [hi] at hq

theorem header?_range {r : BlockRef} (h1 : 1 ≤ id) (hr : s.header? id = some r) :
    id ≤ s.found.length := by
  by_contra hlt
  rw [header?, List.getElem?_eq_none (by omega)] at hr
  cases hr

theorem Around.opened (ha : Around s a id) : Around (s.opened h) a id := by
  induction ha with
  | refl => exact .refl
  | step e _ ih => exact .step (opened_outer?.trans e) ih

theorem Holds.opened (hv : s.Holds a v) (ne : v ≠ h.number) : (s.opened h).Holds a v := by
  obtain ⟨l, hl, ha⟩ := hv
  exact ⟨l, by rw [opened_owner?, if_neg ne, hl], ha.opened⟩

theorem Ranged.opened (hs : s.Ranged) : (s.opened h).Ranged := by
  refine ⟨fun v l hl => ?_, fun id o ho => ?_⟩
  · rw [opened_owner?] at hl
    rw [opened_length]
    split at hl
    · cases hl
      omega
    · have := hs.owner v l hl
      omega
  · rw [opened_outer?] at ho
    rw [opened_length]
    have := hs.outer id o ho
    omega

theorem prevs_length_le (f : Func) (r : BlockRef) : (prevs f r).length ≤ f.edgeCount := by
  unfold prevs
  cases hb : f.linked? r with
  | none => simp
  | some b =>
    have := weight_le_sum (fun b => b.prev.length) (Func.linked?_mem hb).1
    exact Nat.le_trans this (Func.sum_next_le f true)

/-- The fuel of a visit is enough. -/
theorem potential_opened_lt {stack : List BlockRef} (hstack : stack.length ≤ f.edgeCount) :
    potential f (s.found.length + 1) (s.opened h) stack < (s.found.length + 2) * f.edgeCount + 1 := by
  have hblocks := openWeight_le_sum Block.id (fun b => b.prev.length)
    (fun v => ((s.opened h).owner? v).isSome) f.blocks
  have hsum : (f.blocks.map fun b => b.prev.length).sum ≤ f.edgeCount := Func.sum_next_le f true
  -- the new loop itself is never absorbed
  have hloops : openWeight (fun id : Nat => id)
      (fun id => ((((s.opened h).header? id).map (prevs f)).getD []).length)
      (fun id => ((s.opened h).outer? id).isSome || id == s.found.length + 1)
      (List.range' 1 (s.found.length + 1)) ≤ s.found.length * f.edgeCount := by
    rw [List.range'_1_concat, openWeight, List.filter_append, List.map_append, List.sum_append]
    have := openWeight_le_mul (fun id : Nat => id)
      (fun id => ((((s.opened h).header? id).map (prevs f)).getD []).length)
      (fun id => ((s.opened h).outer? id).isSome || id == s.found.length + 1)
      (c := f.edgeCount) (l := List.range' 1 s.found.length) (by
        intro id _
        cases (s.opened h).header? id with
        | none => simp
        | some r => exact prevs_length_le f r)
    simp only [openWeight, List.length_range'] at this
    simpa [Nat.add_comm 1] using this
  simp only [potential, opened_length]
  rw [Nat.add_mul]
  omega

/-- A header that dominates one of its predecessors goes on to another block. -/
theorem hasSucc_header (hf : f.Linked) {p : BlockRef} (hp : p ∈ prevs f h)
    (hdom : (f.flow false).Dominates h.number p.number) : HasSucc f h.number := by
  by_cases e : h.number = p.number
  · exact e ▸ hasSucc_of_mem_prevs hf hp
  · obtain ⟨w, b, hb, hid, r, hr, -⟩ := hdom.exists_edge e
    exact ⟨b, hb, hid, List.ne_nil_of_mem hr⟩

theorem visit_sound (hf : f.Linked) {visited : List Int}
    (hs : Sound f (DomTree.ofFunc f false) visited s)
    (fresh : ∀ x ∈ visited, x ≠ h.number ∧ (DomTree.ofFunc f false).dominates x h.number = false) :
    Sound f (DomTree.ofFunc f false) (visited ++ [h.number])
      (visit f (DomTree.ofFunc f false) h s) := by
  unfold visit
  set dom := DomTree.ofFunc f false with hdomtree
  set latches := (prevs f h).filter fun p => dom.dominates h.number p.number with hlatches
  dsimp only
  split
  · refine ⟨hs.toRanged, fun id r h1 hr => ?_, hs.latch, hs.holds⟩
    exact ⟨List.mem_append_left _ (hs.header id r h1 hr).1, (hs.header id r h1 hr).2⟩
  · rename_i hne
    have hlen : latches.reverse.length ≤ f.edgeCount := by
      rw [List.length_reverse]
      exact Nat.le_trans (List.length_filter_le ..) (prevs_length_le f h)
    obtain ⟨hext, hranged, hstack⟩ := collect_spec hf (hs.toRanged.opened (h := h)) (by simp)
      (by omega) (potential_opened_lt hlen)
    show Sound f dom _ (collect f (s.found.length + 1) _ latches.reverse (s.opened h))
    have hcases : ∀ id r, 1 ≤ id → (collect f (s.found.length + 1)
        ((s.found.length + 2) * f.edgeCount + 1) latches.reverse (s.opened h)).header? id = some r →
        (id = s.found.length + 1 ∧ r = h) ∨ s.header? id = some r := by
      intro id r h1 hr
      rw [collect_header?] at hr
      exact (header?_of_opened hr).imp_left fun ⟨hid, e⟩ => ⟨by omega, e⟩
    refine ⟨hranged, fun id r h1 hr => ?_, fun id r h1 hr => ?_, fun id r h1 hr p hp hdom => ?_⟩
    · rcases hcases id r h1 hr with ⟨rfl, rfl⟩ | hr
      · exact ⟨by simp, hext.owner _ _ (by simp)⟩
      · obtain ⟨hmem, howner⟩ := hs.header id r h1 hr
        exact ⟨List.mem_append_left _ hmem, hext.owner _ _ (by rw [opened_owner?, if_neg (fresh _ hmem).1, howner])⟩
    · rcases hcases id r h1 hr with ⟨rfl, rfl⟩ | hr
      · obtain ⟨p, hp⟩ := List.exists_mem_of_ne_nil latches (by simpa using hne)
        rw [hlatches] at hp
        exact ⟨p, (List.mem_filter.mp hp).1, (List.mem_filter.mp hp).2⟩
      · exact hs.latch id r h1 hr
    · rcases hcases id r h1 hr with ⟨rfl, rfl⟩ | hr
      · exact hstack p (List.mem_reverse.mpr (List.mem_filter.mpr ⟨hp, hdom⟩))
      · refine hext.holds ((hs.holds id r h1 hr p hp hdom).opened ?_)
        rintro e
        have := (fresh _ (hs.header id r h1 hr).1).2
        rw [← e, hdom] at this
        cases this

theorem Owned.visit {dom : DomTree} {P : Int → Prop} (hP : Backward f dom P) (hs : Owned P s) (h : BlockRef) :
    Owned P (visit f dom h s) := by
  unfold LoopSearch.visit
  dsimp only
  split
  · exact hs
  · rename_i hne
    have hlatches : ∀ p ∈ (prevs f h).filter fun p => dom.dominates h.number p.number,
        P h.number ∧ P p.number := fun p hp =>
      hP.latch h p (List.mem_filter.mp hp).1 (List.mem_filter.mp hp).2
    obtain ⟨p, hp⟩ := List.exists_mem_of_ne_nil _ fun e => hne (List.isEmpty_iff.mpr e)
    refine collect_owned (s := s.opened h) hP (fun q hq => (hlatches q (List.mem_reverse.mp hq)).2)
      ⟨fun id r hr => ?_, fun v l hl => ?_⟩
    · rcases header?_of_opened hr with ⟨-, rfl⟩ | hr
      · exact (hlatches p hp).1
      · exact hs.header id r hr
    · rw [opened_owner?] at hl
      split at hl
      · exact ‹v = h.number› ▸ (hlatches p hp).1
      · exact hs.owner v l hl

/-! ### The walk through the dominator tree -/

/-- The order in which the dominator tree below a block is visited. -/
def postorder (dom : DomTree) : Nat → BlockRef → List BlockRef
  | 0, _ => []
  | fuel + 1, b => (dom.children b.number).flatMap (postorder dom fuel) ++ [b]

theorem walk_eq_foldl (f : Func) (dom : DomTree) : ∀ (fuel : Nat) (b : BlockRef) (s : LoopSearch),
    walk f dom fuel b s = (postorder dom fuel b).foldl (fun s r => visit f dom r s) s := by
  intro fuel
  induction fuel with
  | zero => intro b s; rfl
  | succ fuel ih =>
    intro b s
    rw [walk, postorder, List.foldl_append, List.foldl_flatMap]
    simp only [ih, List.foldl_cons, List.foldl_nil]

/-- Below a block of the tree stands only what the block dominates. -/
theorem dominates_of_mem_postorder (hf : f.Linked) : ∀ {fuel : Nat} {b r : BlockRef},
    (f.flow false).Reaches b.number → r ∈ postorder (DomTree.ofFunc f false) fuel b →
      (f.flow false).Dominates b.number r.number := by
  intro fuel
  induction fuel with
  | zero => simp [postorder]
  | succ fuel ih =>
    intro b r hb hr
    rw [postorder] at hr
    rcases List.mem_append.mp hr with hr | hr
    · obtain ⟨c, hc, hr⟩ := List.mem_flatMap.mp hr
      obtain ⟨d, -, rfl, hparent⟩ := DomTree.mem_children hf hc
      exact hparent.dominates.trans (ih hparent.dominates.reaches hr)
    · obtain rfl := List.mem_singleton.mp hr
      exact .refl hb

/-- Nothing is visited after a block that dominates it. -/
theorem pairwise_postorder (hf : f.Linked) : ∀ {fuel : Nat} {b : BlockRef},
    (f.flow false).Reaches b.number →
      (postorder (DomTree.ofFunc f false) fuel b).Pairwise
        fun x y => ¬ (f.flow false).Dominates x.number y.number := by
  intro fuel
  induction fuel with
  | zero => intro b _; exact .nil
  | succ fuel ih =>
    intro b hb
    rw [postorder, List.pairwise_append, List.pairwise_flatMap]
    refine ⟨⟨fun c hc => ?_, ?_⟩, List.pairwise_singleton .., fun x hx y hy hdom => ?_⟩
    · obtain ⟨d, -, rfl, hparent⟩ := DomTree.mem_children hf hc
      exact ih hparent.dominates.reaches
    · -- of two children, neither dominates the other, for the parent is the closest dominator
      have hnodup := List.pairwise_map.mp (@DomTree.children_nodup f false hf b.number)
      refine hnodup.imp_of_mem fun {c c'} hc hc' hne x hx y hy hdom => ?_
      obtain ⟨d, -, rfl, hd⟩ := DomTree.mem_children hf hc
      obtain ⟨d', -, rfl, hd'⟩ := DomTree.mem_children hf hc'
      have hx := dominates_of_mem_postorder hf hd.dominates.reaches hx
      have hy := dominates_of_mem_postorder hf hd'.dominates.reaches hy
      rcases (hx.trans hdom).total hy with h | h
      · exact hd.ne (hd.dominates.antisymm (hd'.closest _ h hne))
      · exact hd'.ne (hd'.dominates.antisymm (hd.closest _ h (Ne.symm hne)))
    · obtain rfl := List.mem_singleton.mp hy
      obtain ⟨c, hc, hx⟩ := List.mem_flatMap.mp hx
      obtain ⟨d, -, rfl, hd⟩ := DomTree.mem_children hf hc
      have hx := dominates_of_mem_postorder hf hd.dominates.reaches hx
      exact hd.ne (hd.dominates.antisymm (hx.trans hdom))

theorem foldl_visit_sound (hf : f.Linked) : ∀ {order : List BlockRef} {visited : List Int}
    {s : LoopSearch}, Sound f (DomTree.ofFunc f false) visited s →
    (∀ r ∈ order, (f.flow false).Reaches r.number) →
    (∀ x ∈ visited, ∀ r ∈ order, ¬ (f.flow false).Dominates x r.number) →
    (order.Pairwise fun x y => ¬ (f.flow false).Dominates x.number y.number) →
      Sound f (DomTree.ofFunc f false) (visited ++ order.map (·.number))
        (order.foldl (fun s r => visit f (DomTree.ofFunc f false) r s) s) := by
  intro order
  induction order with
  | nil =>
    intro visited s hs _ _ _
    simpa using hs
  | cons r order ih =>
    intro visited s hs hreach hfresh hpair
    obtain ⟨hr, hreach⟩ := List.forall_mem_cons.mp hreach
    obtain ⟨hlater, hpair⟩ := List.pairwise_cons.mp hpair
    have hvisit := visit_sound (h := r) hf hs fun x hx => by
      have hno := hfresh x hx r (by simp)
      refine ⟨?_, ?_⟩
      · rintro rfl
        exact hno (.refl hr)
      · rw [← Bool.not_eq_true, DomTree.dominates_iff hf]
        exact hno
    have := ih hvisit hreach (fun x hx y hy => by
      rcases List.mem_append.mp hx with hx | hx
      · exact hfresh x hx y (List.mem_cons_of_mem _ hy)
      · obtain rfl := List.mem_singleton.mp hx
        exact hlater y hy) hpair
    simpa using this

theorem sound_empty (f : Func) (dom : DomTree) : Sound f dom [] ⟨[], []⟩ := by
  refine ⟨⟨?_, ?_⟩, ?_, ?_, ?_⟩ <;> simp [owner?, outer?, header?]

/-- What belongs to a loop is as all headers and latches and what leads to them are. -/
theorem walk_owned {dom : DomTree} {P : Int → Prop} (hP : Backward f dom P) (fuel : Nat) (b : BlockRef) :
    Owned P (walk f dom fuel b ⟨[], []⟩) := by
  have hfold : ∀ (order : List BlockRef) (s : LoopSearch), Owned P s →
      Owned P (order.foldl (fun s r => visit f dom r s) s) := by
    intro order
    induction order with
    | nil => exact fun _ hs => hs
    | cons r order ih => exact fun s hs => ih _ (hs.visit hP r)
  rw [walk_eq_foldl]
  exact hfold _ _ ⟨by simp [header?], by simp [owner?]⟩

/-- Headers and blocks of loops go on to other blocks. -/
theorem backward_hasSucc (hf : f.Linked) : Backward f (DomTree.ofFunc f false) (HasSucc f) where
  latch _ _ hp hdom := ⟨hasSucc_header hf hp ((DomTree.dominates_iff hf).mp hdom), hasSucc_of_mem_prevs hf hp⟩
  prev _ _ _ hp := hasSucc_of_mem_prevs hf hp

end LoopSearch

/-- The entry of a function that has blocks is reached. -/
theorem Func.reaches_entry (f : Func) (h : f.blocks ≠ []) : (f.flow false).Reaches f.entry.id := by
  refine .of_root ⟨f.entry, ?_, rfl⟩
  unfold entry roots
  cases hb : f.blocks with
  | nil => exact absurd hb h
  | cons b bs => simp

namespace LoopSearch

variable {f : Func}

/-- Without blocks there is nothing to find. -/
theorem foldl_visit_of_blocks (hb : f.blocks = []) (dom : DomTree) : ∀ (rs : List BlockRef) (s : LoopSearch),
    rs.foldl (fun s r => visit f dom r s) s = s := by
  intro rs
  induction rs with
  | nil => intro s; rfl
  | cons r rs _ => intro s; simp [visit, prevs, Func.linked?, hb]

theorem walk_sound (hf : f.Linked) : ∃ visited : List Int,
    Sound f (DomTree.ofFunc f false) visited
      (walk f (DomTree.ofFunc f false) (f.blocks.length + 1) f.entry.ref ⟨[], []⟩) := by
  rw [walk_eq_foldl]
  by_cases hb : f.blocks = []
  · rw [foldl_visit_of_blocks hb]
    exact ⟨[], sound_empty f _⟩
  · have hentry := f.reaches_entry hb
    exact ⟨_, foldl_visit_sound hf (sound_empty f _)
      (fun r hr => (dominates_of_mem_postorder hf hentry hr).reaches) (by simp)
      (pairwise_postorder hf hentry)⟩

end LoopSearch

/-! ### Loops of the forest -/

namespace LoopForest

variable {f : Func} {l : Loop} {p : BlockRef}

/-- The search whose result the forest keeps. -/
def searchOf (f : Func) (dom : DomTree) : LoopSearch :=
  LoopSearch.walk f dom (f.blocks.length + 1) f.entry.ref ⟨[], []⟩

theorem length_loops (f : Func) (dom : DomTree) :
    (ofFunc f dom).loops.length = (searchOf f dom).found.length + 1 := by
  simp [ofFunc, searchOf]

theorem loop?_ofFunc (f : Func) (dom : DomTree) {id : Nat} (h1 : 1 ≤ id)
    (hn : id ≤ (searchOf f dom).found.length) :
    ∃ l, (ofFunc f dom).loop? id = some l ∧ l.id = id ∧
      (searchOf f dom).header? id = some l.header ∧
      l.outer = some (((searchOf f dom).outer? id).getD 0) := by
  obtain ⟨i, rfl⟩ : ∃ i, id = i + 1 := ⟨id - 1, by omega⟩
  have hi : i < (searchOf f dom).found.length := by omega
  simp only [loop?, ofFunc, List.getElem?_cons_succ, List.getElem?_map, List.getElem?_zipIdx]
  rw [show (LoopSearch.walk f dom (f.blocks.length + 1) f.entry.ref ⟨[], []⟩) = searchOf f dom from
    rfl, List.getElem?_eq_getElem hi]
  refine ⟨_, rfl, by simp, ?_, by simp⟩
  simp [LoopSearch.header?, hi]

theorem mem_loops {dom : DomTree} (h : l ∈ (ofFunc f dom).loops) :
    l.outer = none ∨ 1 ≤ l.id ∧ (searchOf f dom).header? l.id = some l.header := by
  simp only [ofFunc] at h
  rcases List.mem_cons.mp h with rfl | h
  · exact .inl rfl
  · obtain ⟨⟨e, i⟩, he, rfl⟩ := List.mem_map.mp h
    refine .inr ⟨by simp, ?_⟩
    have := List.mem_zipIdx_iff_getElem?.mp he
    simp only [LoopSearch.header?, searchOf, Nat.add_sub_cancel]
    rw [this]
    rfl

theorem isInside_of_around {dom : DomTree} (hs : (searchOf f dom).Ranged) {a id : Nat}
    (h : (searchOf f dom).Around a id) : ∀ {fuel : Nat}, 1 ≤ id →
      id ≤ (searchOf f dom).found.length → (searchOf f dom).found.length ≤ id + fuel →
        (ofFunc f dom).isInside a fuel id = true := by
  induction h with
  | refl =>
    intro fuel _ _ _
    cases fuel <;> simp [isInside]
  | @step id o ho _ ih =>
    intro fuel h1 hn hfuel
    obtain ⟨hlt, hle⟩ := hs.outer _ _ ho
    cases fuel with
    | zero => omega
    | succ fuel =>
      obtain ⟨l, hl, -, -, hout⟩ := loop?_ofFunc f dom h1 hn
      have := @ih fuel (by omega) hle (by omega)
      simp [isInside, hl, hout, ho, this]

theorem contains_of_holds {dom : DomTree} (hs : (searchOf f dom).Ranged) {v : Int}
    (h : (searchOf f dom).Holds l.id v) : (ofFunc f dom).contains l v = true := by
  obtain ⟨o, ho, haround⟩ := h
  obtain ⟨h1, hn⟩ := hs.owner _ _ ho
  obtain ⟨m, hm, hid, -, -⟩ := loop?_ofFunc f dom h1 hn
  have howner : (ofFunc f dom).owner? v = some m := by
    have : (ofFunc f dom).owner.lookup v = some o := ho
    rw [owner?, this, Option.bind_some, hm]
  have := @isInside_of_around _ _ hs _ _ haround (ofFunc f dom).loops.length h1 hn
    (by rw [length_loops]; omega)
  simp [contains, howner, hid, this]

/-- A loop contains its header. -/
theorem contains_header (hf : f.Linked) (hl : l ∈ (ofFunc f (DomTree.ofFunc f false)).loops) :
    (ofFunc f (DomTree.ofFunc f false)).contains l l.header.number = true := by
  obtain ⟨_, hs⟩ := LoopSearch.walk_sound hf
  rcases mem_loops hl with h | ⟨h1, hh⟩
  · simp [contains, h]
  · exact contains_of_holds hs.toRanged ⟨_, (hs.header _ _ h1 hh).2, .refl⟩

/-- A loop contains every predecessor of its header that the header dominates. -/
theorem contains_latch (hf : f.Linked) (hl : l ∈ (ofFunc f (DomTree.ofFunc f false)).loops)
    (hp : p ∈ LoopSearch.prevs f l.header)
    (hdom : (f.flow false).Dominates l.header.number p.number) :
    (ofFunc f (DomTree.ofFunc f false)).contains l p.number = true := by
  obtain ⟨_, hs⟩ := LoopSearch.walk_sound hf
  rcases mem_loops hl with h | ⟨h1, hh⟩
  · simp [contains, h]
  · exact contains_of_holds hs.toRanged
      (hs.holds _ _ h1 hh p hp ((DomTree.dominates_iff hf).mpr hdom))

/-- What a loop contains is as all headers and latches and what leads to them are. -/
theorem of_contains {P : Int → Prop} (hP : LoopSearch.Backward f (DomTree.ofFunc f false) P) {v : Int}
    (hroot : l.isRoot = false) (h : (ofFunc f (DomTree.ofFunc f false)).contains l v = true) : P v := by
  have hs : LoopSearch.Owned P (searchOf f (DomTree.ofFunc f false)) := LoopSearch.walk_owned hP _ _
  have hsome : l.outer.isNone = false := hroot
  simp only [contains, hsome, Bool.false_or] at h
  cases ho : (searchOf f (DomTree.ofFunc f false)).owner? v with
  | some o => exact hs.owner v o ho
  | none =>
    have : (ofFunc f (DomTree.ofFunc f false)).owner.lookup v = none := ho
    simp [owner?, this] at h

/-- Every block of a loop goes on to another block. -/
theorem hasSucc_of_contains (hf : f.Linked) {v : Int} (hroot : l.isRoot = false)
    (h : (ofFunc f (DomTree.ofFunc f false)).contains l v = true) : LoopSearch.HasSucc f v :=
  of_contains (LoopSearch.backward_hasSucc hf) hroot h

/-- The header of a loop dominates one of its predecessors. -/
theorem exists_latch (hf : f.Linked) (hl : l ∈ (ofFunc f (DomTree.ofFunc f false)).loops)
    (hroot : l.isRoot = false) :
    ∃ p ∈ LoopSearch.prevs f l.header, (f.flow false).Dominates l.header.number p.number := by
  obtain ⟨_, hs⟩ := LoopSearch.walk_sound hf
  rcases mem_loops hl with h | ⟨h1, hh⟩
  · simp [Loop.isRoot, h] at hroot
  · obtain ⟨p, hp, hdom⟩ := hs.latch _ _ h1 hh
    exact ⟨p, hp, (DomTree.dominates_iff hf).mp hdom⟩

end LoopForest

end LoopLanes
