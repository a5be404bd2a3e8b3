/-
The loop forest against the natural loops of the graph.

The search visits the dominator tree children first, and a loop that is met while a new one is
collected becomes a part of it.  This is right where the graph is sealed, so that no block that is
not reached leads into a loop.

* `headers_walk` — one loop is found for each block that dominates one of its predecessors;
* `Collecting.collect` — collecting a loop finds its blocks and its parts, and nothing else;
* `walk_tracks` — in the end every loop holds the natural loop of its header.
-/
import LoopLanes.Proofs.Cfg.NaturalLoops
import LoopLanes.Proofs.Cfg.Tree
import LoopLanes.Proofs.Loop.Discovery

namespace LoopLanes

namespace LoopSearch

variable {f : Func} {s s' : LoopSearch} {a b id new bound part : Nat} {u v : Int} {h q r : BlockRef}

/-! ### Which loops are found -/

/-- A block that dominates one of its predecessors. -/
def isHeader (f : Func) (dom : DomTree) (h : BlockRef) : Bool :=
  (prevs f h).any fun p => dom.dominates h.number p.number

/-- The stack of a visit is short enough for its fuel. -/
theorem potential_latches_lt (f : Func) (dom : DomTree) (h : BlockRef) (s : LoopSearch) :
    potential f (s.found.length + 1) (s.opened h)
        ((prevs f h).filter fun p => dom.dominates h.number p.number).reverse <
      (s.found.length + 2) * f.edgeCount + 1 := by
  refine potential_opened_lt ?_
  rw [List.length_reverse]
  exact Nat.le_trans (List.length_filter_le ..) (prevs_length_le f h)

/-- A visit finds a loop where the block dominates one of its predecessors. -/
theorem headers_visit (hf : f.Linked) (dom : DomTree) (hs : s.Ranged) :
    (visit f dom h s).found.map (·.1) = s.found.map (·.1) ++ [h].filter (isHeader f dom) ∧
      (visit f dom h s).Ranged := by
  unfold visit
  dsimp only
  have hany : isHeader f dom h =
      !((prevs f h).filter fun p => dom.dominates h.number p.number).isEmpty := by
    rw [isHeader, Bool.eq_iff_iff, List.any_eq_true]
    simp
  split
  · rename_i hempty
    rw [hempty] at hany
    exact ⟨by simp [hany], hs⟩
  · rename_i hne
    obtain ⟨hext, hranged, -⟩ := collect_spec hf (hs.opened (h := h)) (by simp) (by omega)
      (potential_latches_lt f dom h s)
    refine ⟨?_, hranged⟩
    have hkept : ∀ {s s' : LoopSearch}, Extends s s' → s'.found.map (·.1) = s.found.map (·.1) := by
      intro s s' hext
      refine List.ext_getElem? fun i => ?_
      rw [List.getElem?_map, List.getElem?_map]
      exact hext.header (i + 1)
    refine (hkept hext).trans ?_
    have htrue : isHeader f dom h = true := by
      rw [hany, Bool.not_eq_true']
      exact eq_false_of_ne_true hne
    simp [LoopSearch.opened, htrue]

theorem headers_foldl_visit (hf : f.Linked) (dom : DomTree) : ∀ {order : List BlockRef}
    {s : LoopSearch}, s.Ranged → (order.foldl (fun s r => visit f dom r s) s).found.map (·.1) =
      s.found.map (·.1) ++ order.filter (isHeader f dom) := by
  intro order
  induction order with
  | nil => intro s _; simp
  | cons r order ih =>
    intro s hs
    obtain ⟨hfound, hranged⟩ := headers_visit (h := r) hf dom hs
    rw [List.foldl_cons, ih hranged, hfound, List.append_assoc, ← List.filter_append]
    rfl

/-- The loops of a function are found in the order of the dominator tree. -/
theorem headers_walk (hf : f.Linked) (dom : DomTree) (fuel : Nat) (b : BlockRef) :
    (walk f dom fuel b ⟨[], []⟩).found.map (·.1) = (postorder dom fuel b).filter (isHeader f dom) := by
  rw [walk_eq_foldl, headers_foldl_visit hf dom (sound_empty f dom).toRanged]
  rfl

/-- With fuel for its region, the order has all that a block dominates. -/
theorem mem_postorder_of_dominates (hf : f.Linked) : ∀ {fuel : Nat} {b : BlockRef},
    ((DomTree.lookup (DomTree.regionsOf f false) b.number).getD []).length ≤ fuel →
    (f.flow false).Dominates b.number v →
      ∃ r ∈ postorder (DomTree.ofFunc f false) fuel b, r.number = v := by
  intro fuel
  induction fuel with
  | zero =>
    intro b hlen hdom
    have hmem := (DomTree.mem_region hf).mpr hdom
    rw [List.length_eq_zero_iff.mp (Nat.le_zero.mp hlen)] at hmem
    cases hmem
  | succ fuel ih =>
    intro b hlen hdom
    rw [postorder]
    by_cases ne : b.number = v
    · exact ⟨b, by simp, ne⟩
    · obtain ⟨c, hc, hcv⟩ := DomTree.exists_child hf hdom ne
      obtain ⟨d, -, rfl, hparent⟩ := DomTree.mem_children hf hc
      have hlt := DomTree.region_length_lt hf hparent.dominates hparent.ne
      obtain ⟨r, hr, hrv⟩ := ih (b := d.ref) (by have := hlt; simp only [Block.id] at this; omega) hcv
      exact ⟨r, List.mem_append_left _ (List.mem_flatMap.mpr ⟨d.ref, hc, hr⟩), hrv⟩

/-! ### Loops that are natural -/

/-- The loops found so far lie within the natural loops of their headers, and those below `bound` hold
all of them. -/
structure Tracks (f : Func) (bound : Nat) (s : LoopSearch) : Prop extends Ranged s where
  block : ∀ id r, s.header? id = some r → ∃ b ∈ f.blocks, b.ref = r
  reached : ∀ id r, s.header? id = some r → (f.flow false).Reaches r.number
  owner_natural : ∀ v l r, s.owner? v = some l → s.header? l = some r →
    (f.flow false).Natural r.number v
  outer_natural : ∀ id o r q, s.outer? id = some o → s.header? id = some r → s.header? o = some q →
    (f.flow false).Natural q.number r.number
  complete : ∀ id r v, 1 ≤ id → id < bound → s.header? id = some r →
    (f.flow false).Natural r.number v → s.Holds id v

theorem exists_header (h1 : 1 ≤ id) (hn : id ≤ s.found.length) : ∃ r, s.header? id = some r := by
  have hlt : id - 1 < s.found.length := by omega
  exact ⟨_, by rw [header?, List.getElem?_eq_getElem hlt]; rfl⟩

namespace Tracks

theorem natural_of_around (ht : Tracks f bound s) (hG : (f.flow false).Sealed) (ha : Around s a id)
    (h1 : 1 ≤ id) (hn : id ≤ s.found.length) (hr : s.header? id = some r) (hq : s.header? a = some q) :
    (f.flow false).Natural q.number r.number := by
  induction ha generalizing r with
  | refl =>
    rw [hr] at hq
    cases hq
    exact .header
  | @step id o ho _ ih =>
    obtain ⟨hlt, hle⟩ := ht.outer _ _ ho
    obtain ⟨p, hp⟩ := exists_header (by omega) hle
    exact (ih (by omega) hle hp).trans hG (ht.reached _ _ hq) (ht.outer_natural _ _ _ _ ho hr hp)

theorem natural_of_holds (ht : Tracks f bound s) (hG : (f.flow false).Sealed) (hv : s.Holds a v)
    (hq : s.header? a = some q) : (f.flow false).Natural q.number v := by
  obtain ⟨l, hl, ha⟩ := hv
  obtain ⟨h1, hn⟩ := ht.owner _ _ hl
  obtain ⟨r, hr⟩ := exists_header h1 hn
  exact (ht.natural_of_around hG ha h1 hn hr hq).trans hG (ht.reached _ _ hq) (ht.owner_natural _ _ _ hl hr)

end Tracks

/-! ### What belongs to a loop after a step -/

theorem Around.congr (houter : ∀ id, s'.outer? id = s.outer? id) (ha : Around s a id) : Around s' a id := by
  induction ha with
  | refl => exact .refl
  | step e _ ih => exact .step ((houter _).trans e) ih

theorem holds_of_own {l : Nat} (hv : (s.own u l).Holds a v) : v = u ∨ s.Holds a v := by
  obtain ⟨k, hk, ha⟩ := hv
  rw [own_owner?] at hk
  split at hk
  · exact .inl ‹v = u›
  · exact .inr ⟨k, hk, Around.congr (s := s.own u l) (fun _ => rfl) ha⟩

theorem around_of_absorb (h1 : 1 ≤ part) (hn : part ≤ s.found.length) (hid : 1 ≤ id) (hs : s.Ranged)
    (ha : Around (s.absorb part new) new id) : Around s new id ∨ Around s part id := by
  induction ha with
  | refl => exact .inl .refl
  | @step id o ho _ ih =>
    rw [absorb_outer? h1 hn] at ho
    split at ho
    · obtain rfl : id = part := by omega
      exact .inr .refl
    · have := hs.outer _ _ ho
      exact (ih (by omega)).imp (.step ho) (.step ho)

theorem holds_of_absorb (h1 : 1 ≤ part) (hn : part ≤ s.found.length) (hs : s.Ranged)
    (hv : (s.absorb part new).Holds new v) : s.Holds new v ∨ s.Holds part v := by
  obtain ⟨l, hl, ha⟩ := hv
  rw [absorb_owner?] at hl
  exact (around_of_absorb h1 hn (hs.owner _ _ hl).1 hs ha).imp (⟨l, hl, ·⟩) (⟨l, hl, ·⟩)

/-! ### Collecting -/

/-- The predecessors of a block, by number. -/
theorem mem_prevs_iff (hf : f.Linked) {b : Block} (hb : b ∈ f.blocks) :
    (∃ p ∈ prevs f b.ref, p.number = u) ↔ (f.flow false).edge u b.id := by
  rw [prevs_ref hf hb]
  constructor
  · rintro ⟨p, hp, rfl⟩
    obtain ⟨c, hc, rfl, hback⟩ := hf.prev b hb p hp
    exact ⟨c, hc, rfl, b.ref, hback, rfl⟩
  · rintro ⟨c, hc, rfl, r, hr, he⟩
    obtain ⟨d, hd, rfl, hback⟩ := hf.succ c hc r hr
    rw [Func.eq_of_id_eq hf.nodup hd hb he] at hback
    exact ⟨c.ref, hback, rfl⟩

/-- Predecessors are blocks. -/
theorem block_of_mem_prevs (hf : f.Linked) {p : BlockRef} (hp : p ∈ prevs f r) :
    ∃ b ∈ f.blocks, b.ref = p := by
  unfold prevs at hp
  cases hb : f.linked? r with
  | none => simp [hb] at hp
  | some b =>
    obtain ⟨c, hc, e, -⟩ := hf.prev b (Func.linked?_mem hb).1 p (by simpa [hb] using hp)
    exact ⟨c, hc, e⟩

/-- A loop while it is collected: what stands on the stack belongs to it, and what leads to the blocks
it has so far is part of it or on the stack. -/
structure Collecting (f : Func) (h : BlockRef) (new : Nat) (s : LoopSearch) (stack : List BlockRef) :
    Prop extends Tracks f new s where
  new_eq : new = s.found.length
  new_pos : 1 ≤ new
  header_new : s.header? new = some h
  owner_new : s.owner? h.number = some new
  apart : ∀ id r, 1 ≤ id → id < new → s.header? id = some r →
    ¬ (f.flow false).Dominates r.number h.number
  stack_block : ∀ p ∈ stack, ∃ b ∈ f.blocks, b.ref = p
  stack_natural : ∀ p ∈ stack, (f.flow false).Natural h.number p.number
  closed : ∀ v, s.Holds new v → v ≠ h.number → ∀ u, (f.flow false).edge u v →
    s.Holds new u ∨ ∃ p ∈ stack, p.number = u

namespace Collecting

variable {stack : List BlockRef}

theorem header_reached (hc : Collecting f h new s stack) : (f.flow false).Reaches h.number :=
  hc.reached _ _ hc.header_new

/-- A block without a loop joins. -/
theorem own (hf : f.Linked) (hc : Collecting f h new s (r :: stack)) (ho : s.owner? r.number = none) :
    Collecting f h new (s.own r.number new) ((prevs f r).reverse ++ stack) := by
  have hext : Extends s (s.own r.number new) := .own ho new
  obtain ⟨⟨b, hb, rfl⟩, -⟩ := List.forall_mem_cons.mp hc.stack_block
  obtain ⟨hnatural, hrest⟩ := List.forall_mem_cons.mp hc.stack_natural
  have hne : b.id ≠ h.number := by
    intro e
    have := hc.owner_new
    rw [← e, show s.owner? b.id = none from ho] at this
    cases this
  refine { toTracks := ⟨hc.toRanged.own hc.new_pos (Nat.le_of_eq hc.new_eq), hc.block, hc.reached,
             fun v l q hl hq => ?_,
             hc.outer_natural, fun id q v h1 hlt hq hv => hext.holds (hc.complete id q v h1 hlt hq hv)⟩,
           new_eq := hc.new_eq, new_pos := hc.new_pos, header_new := hc.header_new,
           owner_new := hext.owner _ _ hc.owner_new, apart := hc.apart,
           stack_block := fun p hp => ?_, stack_natural := fun p hp => ?_,
           closed := fun v hv hvh u e => ?_ }
  · rw [own_owner?] at hl
    split at hl
    · cases hl
      rw [own_header?, hc.header_new] at hq
      cases hq
      exact ‹v = _› ▸ hnatural
    · exact hc.owner_natural v l q hl hq
  · rcases List.mem_append.mp hp with hp | hp
    · exact block_of_mem_prevs hf (List.mem_reverse.mp hp)
    · exact hc.stack_block p (List.mem_cons_of_mem _ hp)
  · rcases List.mem_append.mp hp with hp | hp
    · exact .back ((mem_prevs_iff hf hb).mp ⟨p, List.mem_reverse.mp hp, rfl⟩) hne hnatural
    · exact hrest p hp
  · have pushed : (f.flow false).edge u b.id → ∃ p ∈ (prevs f b.ref).reverse ++ stack, p.number = u := by
      intro e
      obtain ⟨p, hp, hpu⟩ := (mem_prevs_iff hf hb).mpr e
      exact ⟨p, List.mem_append_left _ (List.mem_reverse.mpr hp), hpu⟩
    rcases holds_of_own hv with rfl | hv
    · exact .inr (pushed e)
    · rcases hc.closed v hv hvh u e with hu | ⟨p, hp, rfl⟩
      · exact .inl (hext.holds hu)
      · rcases List.mem_cons.mp hp with rfl | hp
        · exact .inl ⟨new, by simp, .refl⟩
        · exact .inr ⟨p, List.mem_append_right _ hp, rfl⟩

/-- A block that the loop has already is passed over. -/
theorem skip (hc : Collecting f h new s (r :: stack)) (hr : s.Holds new r.number) :
    Collecting f h new s stack where
  toTracks := hc.toTracks
  new_eq := hc.new_eq
  new_pos := hc.new_pos
  header_new := hc.header_new
  owner_new := hc.owner_new
  apart := hc.apart
  stack_block p hp := hc.stack_block p (List.mem_cons_of_mem _ hp)
  stack_natural p hp := hc.stack_natural p (List.mem_cons_of_mem _ hp)
  closed v hv hvh u e := by
    rcases hc.closed v hv hvh u e with hu | ⟨p, hp, rfl⟩
    · exact .inl hu
    · rcases List.mem_cons.mp hp with rfl | hp
      · exact .inl hr
      · exact .inr ⟨p, hp, rfl⟩

/-- An outermost loop that has a block in common with the new one lies inside it. -/
theorem natural_part (hG : (f.flow false).Sealed) (hc : Collecting f h new s (r :: stack))
    (h1 : 1 ≤ part) (hlt : part < new) (hq : s.header? part = some q) (hr : s.Holds part r.number) :
    (f.flow false).Natural h.number q.number := by
  have hnatural := hc.stack_natural r List.mem_cons_self
  have hdom := hnatural.dominates hG hc.header_reached
  have hdom' := (hc.toTracks.natural_of_holds hG hr hq).dominates hG (hc.reached _ _ hq)
  have hno := hc.apart part q h1 hlt hq
  have hhq := (hdom.total hdom').resolve_right hno
  refine hnatural.header_of_dominates hG hhq ?_ hdom'
  intro e
  exact hno (e ▸ hhq)

/-- A loop that is met becomes a part, and the predecessors of its header are looked at. -/
theorem absorb (hf : f.Linked) (hG : (f.flow false).Sealed) (hc : Collecting f h new s (r :: stack))
    (h1 : 1 ≤ part) (hlt : part < new) (hnone : s.outer? part = none) (hq : s.header? part = some q)
    (hr : s.Holds part r.number) :
    Collecting f h new (s.absorb part new) ((prevs f q).reverse ++ stack) := by
  have hle : part ≤ s.found.length := by have := hc.new_eq; omega
  have hext : Extends s (s.absorb part new) := .absorb h1 hle hnone new
  have hpart := hc.natural_part hG h1 hlt hq hr
  have hne : q.number ≠ h.number := fun e =>
    hc.apart part q h1 hlt hq (e ▸ .refl (hc.reached part q hq))
  obtain ⟨b, hb, rfl⟩ := hc.block part q hq
  -- what the part had is had by the new loop
  have raised : ∀ {v}, s.Holds part v → (s.absorb part new).Holds new v := by
    rintro v ⟨l, hl, ha⟩
    exact ⟨l, hext.owner v l hl, .trans (.step (by rw [absorb_outer? h1 hle, if_pos rfl]) .refl)
      (hext.around ha)⟩
  refine { toTracks := ⟨hc.toRanged.absorb h1 hlt (Nat.le_of_eq hc.new_eq), fun id p hp => ?_, fun id p hp => ?_,
             fun v l p hl hp => ?_, fun id o p p' ho hp hp' => ?_,
             fun id p v hid hlt hp hv => ?_⟩,
           new_eq := by rw [absorb_length, hc.new_eq], new_pos := hc.new_pos,
           header_new := absorb_header?.trans hc.header_new,
           owner_new := hext.owner _ _ hc.owner_new, apart := fun id p hid hlt hp => ?_,
           stack_block := fun p hp => ?_, stack_natural := fun p hp => ?_,
           closed := fun v hv hvh u e => ?_ }
  · exact hc.block id p (absorb_header?.symm.trans hp)
  · exact hc.reached id p (absorb_header?.symm.trans hp)
  · exact hc.owner_natural v l p hl (absorb_header?.symm.trans hp)
  · rw [absorb_header?] at hp hp'
    rw [absorb_outer? h1 hle] at ho
    split at ho
    · rename_i hid
      cases ho
      have hpq : s.header? id = s.header? part := by rw [header?, header?, hid]
      rw [hc.header_new] at hp'
      rw [hpq, hq] at hp
      cases hp
      cases hp'
      exact hpart
    · exact hc.outer_natural id o p p' ho hp hp'
  · exact hext.holds (hc.complete id p v hid hlt (absorb_header?.symm.trans hp) hv)
  · exact hc.apart id p hid hlt (absorb_header?.symm.trans hp)
  · rcases List.mem_append.mp hp with hp | hp
    · exact block_of_mem_prevs hf (List.mem_reverse.mp hp)
    · exact hc.stack_block p (List.mem_cons_of_mem _ hp)
  · rcases List.mem_append.mp hp with hp | hp
    · exact .back ((mem_prevs_iff hf hb).mp ⟨p, List.mem_reverse.mp hp, rfl⟩) hne hpart
    · exact hc.stack_natural p (List.mem_cons_of_mem _ hp)
  · rcases holds_of_absorb h1 hle hc.toRanged hv with hv | hv
    · rcases hc.closed v hv hvh u e with hu | ⟨p, hp, rfl⟩
      · exact .inl (hext.holds hu)
      · rcases List.mem_cons.mp hp with rfl | hp
        · exact .inl (raised hr)
        · exact .inr ⟨p, List.mem_append_right _ hp, rfl⟩
    · by_cases hvq : v = b.id
      · subst hvq
        obtain ⟨p, hp, hpu⟩ := (mem_prevs_iff hf hb).mpr e
        exact .inr ⟨p, List.mem_append_left _ (List.mem_reverse.mpr hp), hpu⟩
      · -- the part is complete, so it had the predecessor already
        have hv' := hc.toTracks.natural_of_holds hG hv hq
        exact .inl (raised (hc.complete part _ u h1 hlt hq (.back e hvq hv')))

/-- Collecting ends with nothing left to look at. -/
theorem collect (hf : f.Linked) (hG : (f.flow false).Sealed) : ∀ {fuel : Nat} {stack : List BlockRef}
    {s : LoopSearch}, Collecting f h new s stack → potential f new s stack < fuel →
      Collecting f h new (LoopSearch.collect f new fuel stack s) [] := by
  intro fuel
  induction fuel with
  | zero =>
    intro stack s _ hfuel
    omega
  | succ fuel ih =>
    intro stack s hc hfuel
    cases stack with
    | nil => exact hc
    | cons r stack =>
      have hpot : potential f new s (r :: stack) = potential f new s stack + 1 := by
        simp [potential]; omega
      simp only [LoopSearch.collect]
      cases ho : s.owner? r.number with
      | none =>
        refine ih (s := s.own r.number new) (hc.own hf ho) ?_
        have hown : potential f new (s.own r.number new) ((prevs f r).reverse ++ stack) ≤ potential f new s stack :=
          potential_own hf ho stack
        omega
      | some l =>
        obtain ⟨hl1, hln⟩ := hc.owner _ _ ho
        obtain ⟨hnone, haround, hp1, hpn⟩ := outermost_spec hc.toRanged hl1 hln (Nat.le_add_left s.found.length l)
        by_cases hpart : s.outermost s.found.length l = new
        · simp only [hpart, if_true]
          exact ih (hc.skip ⟨l, ho, hpart ▸ haround⟩) (by omega)
        · simp only [if_neg hpart]
          generalize s.outermost s.found.length l = part at *
          obtain ⟨q, hq⟩ := exists_header hp1 hpn
          have hlt : part < new := by have := hc.new_eq; omega
          rw [hq, Option.map_some, Option.getD_some]
          refine ih (hc.absorb hf hG hp1 hlt hnone hq ⟨l, ho, haround⟩) ?_
          have := potential_absorb (f := f) hp1 hpn hnone hpart stack
          rw [hq, Option.map_some, Option.getD_some] at this
          exact Nat.lt_of_le_of_lt this (by omega)

end Collecting

/-! ### Visits -/

/-- No loop found before lies in one that was just opened. -/
theorem not_around_opened (hs : s.Ranged) (hn : id ≤ s.found.length) :
    ¬ Around (s.opened h) (s.found.length + 1) id := by
  intro ha
  induction ha with
  | refl => omega
  | step e _ ih =>
    rw [opened_outer?] at e
    exact ih (hs.outer _ _ e).2

/-- A loop is collected from the latches of its header, if nothing found before dominates the header. -/
theorem Tracks.collecting (hf : f.Linked) (hG : (f.flow false).Sealed)
    (ht : Tracks f (s.found.length + 1) s) (hh : (f.flow false).Reaches h.number)
    (hblock : ∃ b ∈ f.blocks, b.ref = h)
    (fresh : ∀ id r, s.header? id = some r → ¬ (f.flow false).Dominates r.number h.number)
    {stack : List BlockRef}
    (hstack : ∀ p ∈ stack, p ∈ prevs f h ∧ (f.flow false).Dominates h.number p.number) :
    Collecting f h (s.found.length + 1) (s.opened h) stack := by
  have hold : ∀ {id r}, id < s.found.length + 1 → (s.opened h).header? id = some r → 1 ≤ id →
      s.header? id = some r := by
    intro id r hlt hr h1
    rwa [opened_header?_of_le h1 (by omega)] at hr
  refine { toTracks := ⟨ht.toRanged.opened, fun id r hr => ?_, fun id r hr => ?_, fun v l r hl hr => ?_,
             fun id o r q ho hr hq => ?_, fun id r v h1 hlt hr hv => ?_⟩,
           new_eq := opened_length.symm, new_pos := by omega, header_new := opened_header?_last,
           owner_new := by simp,
           apart := fun id r h1 hlt hr => fresh id r (hold hlt hr h1),
           stack_block := fun p hp => block_of_mem_prevs hf (hstack p hp).1,
           stack_natural := fun p hp => ?_, closed := fun v hv hvh u _ => ?_ }
  · rcases header?_of_opened hr with ⟨-, rfl⟩ | hr
    · exact hblock
    · exact ht.block id r hr
  · rcases header?_of_opened hr with ⟨-, rfl⟩ | hr
    · exact hh
    · exact ht.reached id r hr
  · rw [opened_owner?] at hl
    split at hl
    · cases hl
      rw [opened_header?_last] at hr
      cases hr
      exact ‹v = _› ▸ .header
    · obtain ⟨h1, hn⟩ := ht.owner v l hl
      exact ht.owner_natural v l r hl (hold (by omega) hr h1)
  · rw [opened_outer?] at ho
    obtain ⟨hlt, hle⟩ := ht.outer id o ho
    rcases header?_of_opened hr with ⟨hid, -⟩ | hr
    · omega
    · exact ht.outer_natural id o r q ho hr (hold (by omega) hq (by omega))
  · have hr := hold hlt hr h1
    refine (ht.complete id r v h1 hlt hr hv).opened fun e => fresh id r hr ?_
    exact e ▸ hv.dominates hG (ht.reached id r hr)
  · obtain ⟨hmem, hdom⟩ := hstack p hp
    obtain ⟨b, hb, rfl⟩ := hblock
    exact .latch ((mem_prevs_iff hf hb).mp ⟨p, hmem, rfl⟩) hdom
  · -- a new loop has its header alone
    obtain ⟨l, hl, ha⟩ := hv
    rw [opened_owner?, if_neg hvh] at hl
    exact absurd ha (not_around_opened ht.toRanged (ht.owner v l hl).2)

/-- A loop that is collected has its whole natural loop. -/
theorem Collecting.holds_of_natural (hf : f.Linked) (hc : Collecting f h new s [])
    (hlatch : ∀ p ∈ prevs f h, (f.flow false).Dominates h.number p.number → s.Holds new p.number)
    (hv : (f.flow false).Natural h.number v) : s.Holds new v := by
  induction hv with
  | header => exact ⟨new, hc.owner_new, .refl⟩
  | latch e hdom =>
    obtain ⟨b, hb, rfl⟩ := hc.block _ _ hc.header_new
    obtain ⟨p, hp, rfl⟩ := (mem_prevs_iff hf hb).mpr e
    exact hlatch p hp hdom
  | back e ne _ ih => exact (hc.closed _ ih ne _ e).resolve_right (by simp)

/-- A visit finds the natural loop of its block, if there is one. -/
theorem Tracks.visit (hf : f.Linked) (hG : (f.flow false).Sealed)
    (ht : Tracks f (s.found.length + 1) s) (hh : (f.flow false).Reaches h.number)
    (hblock : ∃ b ∈ f.blocks, b.ref = h)
    (fresh : ∀ id r, s.header? id = some r → ¬ (f.flow false).Dominates r.number h.number) :
    Tracks f ((LoopSearch.visit f (DomTree.ofFunc f false) h s).found.length + 1)
      (LoopSearch.visit f (DomTree.ofFunc f false) h s) := by
  have hfuel := potential_latches_lt f (DomTree.ofFunc f false) h s
  unfold LoopSearch.visit
  dsimp only
  split
  · exact ht
  · have hlatches : ∀ p ∈ ((prevs f h).filter fun p => (DomTree.ofFunc f false).dominates h.number p.number).reverse,
        p ∈ prevs f h ∧ (f.flow false).Dominates h.number p.number := fun p hp => by
      obtain ⟨hp, hdom⟩ := List.mem_filter.mp (List.mem_reverse.mp hp)
      exact ⟨hp, (DomTree.dominates_iff hf).mp hdom⟩
    have hstart := ht.collecting hf hG hh hblock fresh hlatches
    have hdone := hstart.collect hf hG hfuel
    obtain ⟨-, -, hstack⟩ := collect_spec hf (ht.toRanged.opened (h := h)) (by simp) (by omega) hfuel
    have hnew : s.found.length + 1 = _ := hdone.new_eq
    refine ⟨hdone.toRanged, hdone.block, hdone.reached, hdone.owner_natural, hdone.outer_natural,
      fun id r v h1 hlt hr hv => ?_⟩
    change id < (collect f (s.found.length + 1) _ _ (s.opened h)).found.length + 1 at hlt
    rw [← hnew] at hlt
    by_cases hid : id = s.found.length + 1
    · subst hid
      obtain rfl : r = h := Option.some.inj (hr.symm.trans hdone.header_new)
      refine hdone.holds_of_natural hf (fun p hp hdom => ?_) hv
      exact hstack p (List.mem_reverse.mpr (List.mem_filter.mpr
        ⟨hp, (DomTree.dominates_iff hf).mpr hdom⟩))
    · exact hdone.complete id r v h1 (by omega) hr hv

/-- What is kept by visits in an order that has nothing after what dominates it. -/
theorem foldl_visit_induct {P : LoopSearch → Prop} (hf : f.Linked)
    (step : ∀ (s : LoopSearch) (h : BlockRef), s.Ranged → P s → (f.flow false).Reaches h.number →
      (∃ b ∈ f.blocks, b.ref = h) → (∀ id r, s.header? id = some r → ¬ (f.flow false).Dominates r.number h.number) →
        P (LoopSearch.visit f (DomTree.ofFunc f false) h s)) : ∀ {order : List BlockRef} {s : LoopSearch},
    s.Ranged → P s → (∀ r ∈ order, (f.flow false).Reaches r.number ∧ ∃ b ∈ f.blocks, b.ref = r) →
    (∀ q ∈ s.found.map (·.1), ∀ r ∈ order, ¬ (f.flow false).Dominates q.number r.number) →
    (order.Pairwise fun x y => ¬ (f.flow false).Dominates x.number y.number) →
      P (order.foldl (fun s r => LoopSearch.visit f (DomTree.ofFunc f false) r s) s) := by
  intro order
  induction order with
  | nil => exact fun _ hP _ _ _ => hP
  | cons r order ih =>
    intro s hs hP hblocks hfresh hpair
    obtain ⟨⟨hreach, hblock⟩, hblocks⟩ := List.forall_mem_cons.mp hblocks
    obtain ⟨hlater, hpair⟩ := List.pairwise_cons.mp hpair
    obtain ⟨hfound, hranged⟩ := headers_visit (h := r) hf (DomTree.ofFunc f false) hs
    refine ih hranged (step s r hs hP hreach hblock fun id q hq => hfresh q ?_ r List.mem_cons_self) hblocks
      (fun q hq r' hr' => ?_) hpair
    · obtain ⟨e, he, rfl⟩ := Option.map_eq_some_iff.mp hq
      exact List.mem_map_of_mem (List.mem_of_getElem? he)
    · rw [hfound] at hq
      rcases List.mem_append.mp hq with hq | hq
      · exact hfresh q hq r' (List.mem_cons_of_mem _ hr')
      · obtain rfl := List.mem_singleton.mp (List.mem_filter.mp hq).1
        exact hlater r' hr'

/-- What stands in the order is a block. -/
theorem block_of_mem_postorder (hf : f.Linked) : ∀ {fuel : Nat} {b r : BlockRef},
    (∃ c ∈ f.blocks, c.ref = b) → r ∈ postorder (DomTree.ofFunc f false) fuel b →
      ∃ c ∈ f.blocks, c.ref = r := by
  intro fuel
  induction fuel with
  | zero => simp [postorder]
  | succ fuel ih =>
    intro b r hb hr
    rw [postorder] at hr
    rcases List.mem_append.mp hr with hr | hr
    · obtain ⟨c, hc, hr⟩ := List.mem_flatMap.mp hr
      obtain ⟨d, hd, rfl, -⟩ := DomTree.mem_children hf hc
      exact ih ⟨d, hd, rfl⟩ hr
    · exact List.mem_singleton.mp hr ▸ hb

/-- What is kept by visits of blocks that no header found before dominates. -/
theorem walk_induct {P : LoopSearch → Prop} (hf : f.Linked) (start : P ⟨[], []⟩)
    (step : ∀ (s : LoopSearch) (h : BlockRef), s.Ranged → P s → (f.flow false).Reaches h.number →
      (∃ b ∈ f.blocks, b.ref = h) → (∀ id r, s.header? id = some r → ¬ (f.flow false).Dominates r.number h.number) →
        P (LoopSearch.visit f (DomTree.ofFunc f false) h s)) (fuel : Nat) :
    P (walk f (DomTree.ofFunc f false) fuel f.entry.ref ⟨[], []⟩) := by
  rw [walk_eq_foldl]
  by_cases hb : f.blocks = []
  · rw [foldl_visit_of_blocks hb]
    exact start
  · have hentry := f.reaches_entry hb
    refine foldl_visit_induct hf step (sound_empty f (DomTree.ofFunc f false)).toRanged start (fun r hr => ⟨?_, ?_⟩)
      (by simp) (pairwise_postorder hf hentry)
    · exact (dominates_of_mem_postorder hf hentry hr).reaches
    · exact block_of_mem_postorder hf ⟨f.entry, Func.entry_mem hb, rfl⟩ hr

/-- Where only what is reached leads to what is reached, the search finds natural loops. -/
theorem walk_tracks (hf : f.Linked) (hG : (f.flow false).Sealed) (fuel : Nat) :
    Tracks f ((walk f (DomTree.ofFunc f false) fuel f.entry.ref ⟨[], []⟩).found.length + 1)
      (walk f (DomTree.ofFunc f false) fuel f.entry.ref ⟨[], []⟩) := by
  refine walk_induct (P := fun s => Tracks f (s.found.length + 1) s) hf ?_
    (fun s h _ ht hh hblock fresh => ht.visit hf hG hh hblock fresh) fuel
  exact ⟨(sound_empty f (DomTree.ofFunc f false)).toRanged, by simp [header?], by simp [header?],
    by simp [owner?], by simp [outer?], by simp [header?]⟩

end LoopSearch

end LoopLanes
