/-
The loops of a function are its natural loops, and they nest.

A block heads a loop when it stands on every way to one of its predecessors.

* `Nested` — the innermost loop of a block is the smallest one that contains it, and the loops around a
  loop are the others that contain its header;
* `mem_naturalLoop_iff` — natural loops are told by walks;
* `naturalLoops_of_verify` — a verified function has one loop for each block that heads one, the loops
  nest, and a loop contains the natural loop of its header and nothing else that is reached, as long as
  no block that is not reached leads to one that is.
-/
import LoopLanes.Proofs.Loop.Natural
import LoopLanes.Vectorize.Pass

namespace LoopLanes

/-- Loops around loops were found later. -/
theorem LoopSearch.Around.le {s : LoopSearch} {a id : Nat} (hs : s.Ranged) (h : s.Around a id) : id ≤ a := by
  induction h with
  | refl => exact Nat.le_refl _
  | step e _ ih =>
    have := hs.outer _ _ e
    omega

namespace LoopForest

/-- Loop `a` lies around a loop, at any distance. -/
inductive Ancestor (t : LoopForest) (a : Loop) : Loop → Prop
  | outer {l : Loop} (h : l.outer.bind t.loop? = some a) : Ancestor t a l
  | step {l m : Loop} (h : l.outer.bind t.loop? = some m) (rest : Ancestor t a m) : Ancestor t a l

/-- Innermost loops are smallest, and loops around loops contain their headers. -/
structure Nested (t : LoopForest) : Prop where
  owner : ∀ b l, t.owner? b = some l ↔ l ∈ t.loops ∧ l.isRoot = false ∧ t.contains l b = true ∧
    ∀ m ∈ t.loops, t.contains m b = true → ∀ v, t.contains l v = true → t.contains m v = true
  outside : ∀ b, t.owner? b = none ↔ ∀ l ∈ t.loops, l.isRoot = false → t.contains l b = false
  ancestor : ∀ a ∈ t.loops, ∀ l ∈ t.loops, l.isRoot = false →
    (t.Ancestor a l ↔ t.contains a l.header.number = true ∧ a ≠ l)

variable {f : Func} {dom : DomTree} {l m : Loop} {a id : Nat} {v : Int}

/-! ### Loops by their numbers -/

theorem loop?_of_mem (h : l ∈ (ofFunc f dom).loops) : (ofFunc f dom).loop? l.id = some l := by
  simp only [ofFunc, loop?] at h ⊢
  rcases List.mem_cons.mp h with rfl | h
  · rfl
  · obtain ⟨⟨e, i⟩, he, rfl⟩ := List.mem_map.mp h
    have := List.mem_zipIdx_iff_getElem?.mp he
    simp [this]

/-- Loops of one number are one loop. -/
theorem eq_of_id (hl : l ∈ (ofFunc f dom).loops) (hm : m ∈ (ofFunc f dom).loops) (h : l.id = m.id) : l = m := by
  have := loop?_of_mem hl
  rw [h, loop?_of_mem hm] at this
  exact (Option.some.inj this).symm

/-- What the search knows of a loop of the forest, the root aside. -/
theorem found_of_mem (h : l ∈ (ofFunc f dom).loops) (hroot : l.isRoot = false) :
    1 ≤ l.id ∧ l.id ≤ (searchOf f dom).found.length ∧ (searchOf f dom).header? l.id = some l.header ∧
      l.outer = some (((searchOf f dom).outer? l.id).getD 0) := by
  rcases mem_loops h with hnone | ⟨h1, hheader⟩
  · simp [Loop.isRoot, hnone] at hroot
  · have hn := LoopSearch.header?_range h1 hheader
    obtain ⟨m, hm, -, -, houter⟩ := loop?_ofFunc f dom h1 hn
    rw [loop?_of_mem h] at hm
    cases hm
    exact ⟨h1, hn, hheader, houter⟩

/-- A loop that the search found stands in the forest. -/
theorem exists_mem (h1 : 1 ≤ id) (hn : id ≤ (searchOf f dom).found.length) :
    ∃ l ∈ (ofFunc f dom).loops, l.isRoot = false ∧ l.id = id ∧
      (ofFunc f dom).loop? id = some l := by
  obtain ⟨l, hl, hid, -, houter⟩ := loop?_ofFunc f dom h1 hn
  exact ⟨l, List.mem_of_getElem? hl, by simp [Loop.isRoot, houter], hid, hl⟩

/-- Only the root has no loop around it. -/
theorem id_of_isRoot (h : l ∈ (ofFunc f dom).loops) (hroot : l.isRoot = true) : l.id = 0 := by
  simp only [ofFunc] at h
  rcases List.mem_cons.mp h with rfl | h
  · rfl
  · obtain ⟨e, -, rfl⟩ := List.mem_map.mp h
    simp [Loop.isRoot] at hroot

theorem loop?_zero (f : Func) (dom : DomTree) : ∃ l ∈ (ofFunc f dom).loops, l.isRoot = true ∧
    (ofFunc f dom).loop? 0 = some l :=
  ⟨_, List.mem_cons_self, rfl, rfl⟩

/-! ### Containment -/

theorem around_of_isInside (hs : (searchOf f dom).Ranged) (ha : 1 ≤ a) : ∀ {fuel id : Nat}, 1 ≤ id →
    id ≤ (searchOf f dom).found.length → (ofFunc f dom).isInside a fuel id = true →
      (searchOf f dom).Around a id := by
  intro fuel
  induction fuel with
  | zero =>
    intro id _ _ h
    obtain rfl : id = a := by simpa [isInside] using h
    exact .refl
  | succ fuel ih =>
    intro id h1 hn h
    obtain ⟨l, hl, -, -, houter⟩ := loop?_ofFunc f dom h1 hn
    rw [isInside, Bool.or_eq_true, beq_iff_eq, hl, Option.bind_some, houter] at h
    rcases h with rfl | h
    · exact .refl
    · cases ho : (searchOf f dom).outer? id with
      | some o =>
        rw [ho] at h
        obtain ⟨hlt, hle⟩ := hs.outer _ _ ho
        exact .step ho (ih (by omega) hle h)
      | none =>
        -- nothing lies around the root
        rw [ho] at h
        obtain ⟨r, -, hr, h0⟩ := loop?_zero f dom
        have hr : r.outer = none := by simpa [Loop.isRoot] using hr
        cases fuel <;> simp [isInside, h0, hr] at h <;> omega

theorem contains_iff (hs : (searchOf f dom).Ranged) (hl : l ∈ (ofFunc f dom).loops) (hroot : l.isRoot = false) :
    (ofFunc f dom).contains l v = true ↔ (searchOf f dom).Holds l.id v := by
  refine ⟨fun h => ?_, contains_of_holds hs⟩
  have hsome : l.outer.isNone = false := hroot
  simp only [contains, hsome, Bool.false_or] at h
  cases ho : (searchOf f dom).owner? v with
  | none =>
    have : (ofFunc f dom).owner.lookup v = none := ho
    simp [owner?, this] at h
  | some o =>
    obtain ⟨h1, hn⟩ := hs.owner _ _ ho
    obtain ⟨m, -, -, hid, hm⟩ := exists_mem h1 hn
    have howner : (ofFunc f dom).owner? v = some m := by
      have : (ofFunc f dom).owner.lookup v = some o := ho
      rw [owner?, this, Option.bind_some, hm]
    rw [howner] at h
    exact ⟨o, ho, hid ▸ around_of_isInside hs (found_of_mem hl hroot).1 (by omega) (by omega) h⟩

theorem contains_of_isRoot (hroot : l.isRoot = true) : (ofFunc f dom).contains l v = true := by
  have hnone : l.outer.isNone = true := hroot
  rw [contains, hnone, Bool.true_or]

/-- The innermost loop of a block, as the search knows it. -/
theorem owner?_eq_some_iff (hs : (searchOf f dom).Ranged) :
    (ofFunc f dom).owner? v = some l ↔
      l ∈ (ofFunc f dom).loops ∧ l.isRoot = false ∧ (searchOf f dom).owner? v = some l.id := by
  have hlookup : (ofFunc f dom).owner? v = ((searchOf f dom).owner? v).bind (ofFunc f dom).loop? := rfl
  rw [hlookup]
  constructor
  · intro h
    obtain ⟨o, ho, hl⟩ := Option.bind_eq_some_iff.mp h
    obtain ⟨h1, hn⟩ := hs.owner _ _ ho
    obtain ⟨m, hm, hroot, hid, hm'⟩ := exists_mem h1 hn
    rw [hm'] at hl
    cases hl
    exact ⟨hm, hroot, hid.symm ▸ ho⟩
  · rintro ⟨hl, -, ho⟩
    rw [ho, Option.bind_some, loop?_of_mem hl]

/-! ### Loops around loops -/

/-- The next loop around a loop: one that the search knows, or the root. -/
theorem outer_cases (hs : (searchOf f dom).Ranged) (hl : l ∈ (ofFunc f dom).loops) (hroot : l.isRoot = false) :
    ∃ m ∈ (ofFunc f dom).loops, l.outer.bind (ofFunc f dom).loop? = some m ∧
      (m.isRoot = true ∧ (searchOf f dom).outer? l.id = none ∨
        m.isRoot = false ∧ (searchOf f dom).outer? l.id = some m.id ∧ l.id < m.id) := by
  obtain ⟨-, -, -, houter⟩ := found_of_mem hl hroot
  rw [houter, Option.bind_some]
  cases ho : (searchOf f dom).outer? l.id with
  | none =>
    obtain ⟨r, hr, hrr, h0⟩ := loop?_zero f dom
    exact ⟨r, hr, h0, .inl ⟨hrr, rfl⟩⟩
  | some o =>
    obtain ⟨hlt, hle⟩ := hs.outer _ _ ho
    obtain ⟨m, hm, hmr, rfl, hm'⟩ := exists_mem (by omega) hle
    exact ⟨m, hm, hm', .inr ⟨hmr, rfl, hlt⟩⟩

theorem ancestor_of_around (hs : (searchOf f dom).Ranged) {b : Loop} (hb : b ∈ (ofFunc f dom).loops)
    (h : (searchOf f dom).Around b.id id) : ∀ {l : Loop},
      l ∈ (ofFunc f dom).loops → l.isRoot = false → l.id = id → b ≠ l → (ofFunc f dom).Ancestor b l := by
  induction h with
  | refl => exact fun hl _ hid ne => absurd (eq_of_id hb hl hid.symm) ne
  | @step id o ho _ ih =>
    rintro l hl hroot rfl ne
    obtain ⟨m, hm, hbind, ⟨-, hnone⟩ | ⟨hmr, hmo, -⟩⟩ := outer_cases hs hl hroot
    · rw [ho] at hnone
      cases hnone
    · obtain rfl : o = m.id := Option.some.inj (ho.symm.trans hmo)
      by_cases e : b = m
      · exact .outer (e ▸ hbind)
      · exact .step hbind (ih hm hmr rfl e)

theorem around_of_ancestor (hs : (searchOf f dom).Ranged) {b : Loop} (hbr : b.isRoot = false)
    (h : (ofFunc f dom).Ancestor b l) (hl : l ∈ (ofFunc f dom).loops) (hroot : l.isRoot = false) :
    (searchOf f dom).Around b.id l.id ∧ l.id < b.id := by
  induction h with
  | outer h =>
    obtain ⟨m, hm, hbind, ⟨hmr, -⟩ | ⟨-, ho, hlt⟩⟩ := outer_cases hs hl hroot
    all_goals obtain rfl := Option.some.inj (h.symm.trans hbind)
    · rw [hmr] at hbr
      cases hbr
    · exact ⟨.step ho .refl, hlt⟩
  | step h rest ih =>
    obtain ⟨m, hm, hbind, ⟨hmr, -⟩ | ⟨hmr, ho, hlt⟩⟩ := outer_cases hs hl hroot
    all_goals obtain rfl := Option.some.inj (h.symm.trans hbind)
    · -- nothing lies around the root
      have hnone : Loop.outer _ = none := Option.isNone_iff_eq_none.mp hmr
      cases rest with
      | outer h' => rw [hnone] at h'; cases h'
      | step h' _ => rw [hnone] at h'; cases h'
    · obtain ⟨ha, hlt'⟩ := ih hm hmr
      exact ⟨.step ho ha, by omega⟩

/-- The root lies around every other loop. -/
theorem ancestor_of_isRoot (hs : (searchOf f dom).Ranged) {b : Loop} (hb : b ∈ (ofFunc f dom).loops)
    (hbr : b.isRoot = true) (hl : l ∈ (ofFunc f dom).loops) (hroot : l.isRoot = false) :
    (ofFunc f dom).Ancestor b l := by
  -- the loops around a loop have larger and larger numbers, up to the root
  induction hn : (searchOf f dom).found.length - l.id using Nat.strongRecOn generalizing l with
  | ind n ih =>
    obtain ⟨m, hm, hbind, ⟨hmr, -⟩ | ⟨hmr, -, hlt⟩⟩ := outer_cases hs hl hroot
    · rw [eq_of_id hb hm ((id_of_isRoot hb hbr).trans (id_of_isRoot hm hmr).symm)]
      exact .outer hbind
    · have := (found_of_mem hm hmr).2.1
      exact .step hbind (ih _ (by omega) hm hmr rfl)

/-- The loops of a function nest. -/
theorem nested_ofFunc (hf : f.Linked) : (ofFunc f (DomTree.ofFunc f false)).Nested := by
  obtain ⟨_, hsound⟩ := LoopSearch.walk_sound hf
  have hs : (searchOf f (DomTree.ofFunc f false)).Ranged := hsound.toRanged
  have hheader : ∀ {l : Loop}, l ∈ (ofFunc f (DomTree.ofFunc f false)).loops → l.isRoot = false →
      (searchOf f (DomTree.ofFunc f false)).owner? l.header.number = some l.id := by
    intro l hl hroot
    obtain ⟨h1, -, hh, -⟩ := found_of_mem hl hroot
    exact (hsound.header _ _ h1 hh).2
  have hinside : ∀ {a l : Loop}, a ∈ (ofFunc f (DomTree.ofFunc f false)).loops → a.isRoot = false →
      l ∈ (ofFunc f (DomTree.ofFunc f false)).loops → l.isRoot = false →
      ((ofFunc f (DomTree.ofFunc f false)).contains a l.header.number = true ↔
        (searchOf f (DomTree.ofFunc f false)).Around a.id l.id) := by
    intro a l ha har hl hroot
    rw [contains_iff hs ha har]
    refine ⟨fun ⟨k, hk, h⟩ => ?_, fun h => ⟨_, hheader hl hroot, h⟩⟩
    rwa [Option.some.inj ((hheader hl hroot).symm.trans hk)]
  have howner : ∀ {b : Int} {l : Loop}, (ofFunc f (DomTree.ofFunc f false)).owner? b = some l →
      (ofFunc f (DomTree.ofFunc f false)).contains l b = true := by
    intro b l h
    obtain ⟨hl, hroot, ho⟩ := (owner?_eq_some_iff hs).mp h
    exact (contains_iff hs hl hroot).mpr ⟨_, ho, .refl⟩
  refine ⟨fun b l => ⟨fun h => ?_, fun ⟨hl, hroot, hb, hleast⟩ => ?_⟩, fun b => ⟨fun h l hl hroot => ?_, fun h => ?_⟩,
    fun a ha l hl hroot => ?_⟩
  · obtain ⟨hl, hroot, ho⟩ := (owner?_eq_some_iff hs).mp h
    refine ⟨hl, hroot, howner h, fun m hm hmb v hv => ?_⟩
    cases hmr : m.isRoot with
    | true => exact contains_of_isRoot hmr
    | false =>
      obtain ⟨k, hk, hmk⟩ := (contains_iff hs hm hmr).mp hmb
      obtain ⟨k', hk', hlk⟩ := (contains_iff hs hl hroot).mp hv
      obtain rfl := Option.some.inj (ho.symm.trans hk)
      exact (contains_iff hs hm hmr).mpr ⟨k', hk', hmk.trans hlk⟩
  · -- the innermost loop and the smallest one contain each other's headers
    obtain ⟨k, hk, hlk⟩ := (contains_iff hs hl hroot).mp hb
    obtain ⟨h1, hn⟩ := hs.owner _ _ hk
    obtain ⟨m, hm, hmr, rfl, -⟩ := exists_mem h1 hn
    have ho := (owner?_eq_some_iff hs).mpr ⟨hm, hmr, hk⟩
    have hself := (hinside hl hroot hl hroot).mpr .refl
    have hml := (hinside hm hmr hl hroot).mp (hleast m hm (howner ho) _ hself)
    rw [ho, eq_of_id hm hl (Nat.le_antisymm (hlk.le hs) (hml.le hs))]
  · refine Bool.eq_false_iff.mpr fun hb => ?_
    obtain ⟨k, hk, -⟩ := (contains_iff hs hl hroot).mp hb
    obtain ⟨h1, hn⟩ := hs.owner _ _ hk
    obtain ⟨m, hm, hmr, rfl, -⟩ := exists_mem h1 hn
    rw [(owner?_eq_some_iff hs).mpr ⟨hm, hmr, hk⟩] at h
    cases h
  · cases ho : (ofFunc f (DomTree.ofFunc f false)).owner? b with
    | none => rfl
    | some l =>
      obtain ⟨hl, hroot, -⟩ := (owner?_eq_some_iff hs).mp ho
      have := howner ho
      rw [h l hl hroot] at this
      cases this
  · cases har : a.isRoot with
    | true =>
      refine ⟨fun _ => ⟨contains_of_isRoot har, ?_⟩, fun _ => ancestor_of_isRoot hs ha har hl hroot⟩
      rintro rfl
      rw [har] at hroot
      cases hroot
    | false =>
      rw [hinside ha har hl hroot]
      refine ⟨fun h => ?_, fun ⟨h, ne⟩ => ancestor_of_around hs ha h hl hroot rfl ne⟩
      obtain ⟨haround, hlt⟩ := around_of_ancestor hs har h hl hroot
      refine ⟨haround, ?_⟩
      rintro rfl
      omega

end LoopForest

namespace Func

variable {f : Func} {h u v w : Int} {vs : List Int}

/-- A walk leads from the entry to a block. -/
def WalkedTo (f : Func) (v : Int) : Prop := ∃ vs, f.Walk f.entry.id vs v

/-- A block heads a loop when it stands on every way to one of its predecessors. -/
def HeadsLoop (f : Func) (h : Int) : Prop := ∃ p, f.Follows p h ∧ f.OnEveryWayIn h p

/-- A block belongs to the natural loop of `h` when it is `h`, or a walk leads past `h` to a predecessor
of `h` that `h` stands on every way to. -/
def InNaturalLoop (f : Func) (h v : Int) : Prop :=
  v = h ∨ ∃ p vs, f.Follows p h ∧ f.OnEveryWayIn h p ∧ f.Walk v vs p ∧ h ∉ vs

/-- Nothing that is not reached leads to what is reached. -/
def Enclosed (f : Func) : Prop := ∀ u w, f.Follows u w → f.WalkedTo w → f.WalkedTo u

theorem reaches_iff_walkedTo (hf : f.Linked) : (f.flow false).Reaches v ↔ f.WalkedTo v := by
  rw [Flow.reaches_iff_exists_path]
  simp only [path_iff_walk hf]
  exact ⟨fun ⟨_, h⟩ => ⟨_, h⟩, fun ⟨vs, h⟩ => ⟨vs.reverse, by rwa [List.reverse_reverse]⟩⟩

theorem Enclosed.sealed (hf : f.Linked) (h : f.Enclosed) : (f.flow false).Sealed := fun u w e hw =>
  (reaches_iff_walkedTo hf).mpr (h u w e ((reaches_iff_walkedTo hf).mp hw))

theorem Walk.head_mem (p : f.Walk u vs v) : u ∈ vs := by
  cases p <;> exact List.mem_cons_self

/-- Natural loops are told by walks. -/
theorem natural_iff_inNaturalLoop (hf : f.Linked) : (f.flow false).Natural h v ↔ f.InNaturalLoop h v := by
  constructor
  · intro hv
    induction hv with
    | header => exact .inl rfl
    | @latch p e hdom =>
      by_cases ne : p = h
      · exact .inl ne
      · obtain ⟨b, hb, rfl⟩ := hf.exists_block hdom.reaches
        exact .inr ⟨_, _, e, (dominates_iff_onEveryWayIn hf).mp hdom, .stay hb, by simpa using Ne.symm ne⟩
    | @back u w e hw _ ih =>
      by_cases hu : u = h
      · exact .inl hu
      · obtain ⟨p, vs, hp, hdom, hwalk, hvs⟩ := ih.resolve_left hw
        refine .inr ⟨p, _, hp, hdom, .go e hwalk, ?_⟩
        rw [List.mem_cons, not_or]
        exact ⟨Ne.symm hu, hvs⟩
  · rintro (rfl | ⟨p, vs, hp, hdom, hwalk, hvs⟩)
    · exact .header
    · induction hwalk with
      | stay _ => exact .latch hp ((dominates_iff_onEveryWayIn hf).mpr hdom)
      | go e rest ih =>
        have hrest := fun hm => hvs (List.mem_cons_of_mem _ hm)
        refine .back e ?_ (ih hp hdom hrest)
        rintro rfl
        exact hrest rest.head_mem

/-- The blocks that head loops are those that a loop is found for. -/
theorem isHeader_iff_headsLoop (hf : f.Linked) {b : Block} (hb : b ∈ f.blocks) :
    LoopSearch.isHeader f (DomTree.ofFunc f false) b.ref = true ↔ f.HeadsLoop b.id := by
  rw [LoopSearch.isHeader, List.any_eq_true]
  constructor
  · rintro ⟨p, hp, hdom⟩
    exact ⟨p.number, (LoopSearch.mem_prevs_iff hf hb).mp ⟨p, hp, rfl⟩,
      (dominates_iff_onEveryWayIn hf).mp ((DomTree.dominates_iff hf).mp hdom)⟩
  · rintro ⟨_, hp, hdom⟩
    obtain ⟨p, hmem, rfl⟩ := (LoopSearch.mem_prevs_iff hf hb).mpr hp
    exact ⟨p, hmem, (DomTree.dominates_iff hf).mpr ((dominates_iff_onEveryWayIn hf).mpr hdom)⟩

/-- The headers of the forest are the blocks that head loops. -/
theorem exists_loop_iff_headsLoop (hf : f.Linked) :
    (∃ l ∈ f.forest.loops, l.isRoot = false ∧ l.header.number = v) ↔ f.HeadsLoop v := by
  have hfound := LoopSearch.headers_walk hf (DomTree.ofFunc f false) (f.blocks.length + 1) f.entry.ref
  constructor
  · rintro ⟨l, hl, hroot, rfl⟩
    obtain ⟨-, -, hheader, -⟩ := LoopForest.found_of_mem hl hroot
    obtain ⟨e, he, hl⟩ := Option.map_eq_some_iff.mp hheader
    have hmem := List.mem_map_of_mem (f := (·.1)) (List.mem_of_getElem? he)
    obtain ⟨horder, hhead⟩ := List.mem_filter.mp (hfound ▸ hmem)
    rw [hl] at horder hhead
    have hne : f.blocks ≠ [] := by
      intro hb
      simp [LoopSearch.isHeader, LoopSearch.prevs, linked?, hb] at hhead
    obtain ⟨b, hb, hbl⟩ := LoopSearch.block_of_mem_postorder hf ⟨f.entry, entry_mem hne, rfl⟩ horder
    rw [← hbl] at hhead ⊢
    exact (isHeader_iff_headsLoop hf hb).mp hhead
  · intro h
    obtain ⟨p, hp, hdom⟩ := id h
    have hreach := ((dominates_iff_onEveryWayIn hf).mpr hdom).reaches_left
    obtain ⟨b, hb, rfl⟩ := hf.exists_block hreach
    obtain ⟨r, horder, hr⟩ := LoopSearch.mem_postorder_of_dominates (b := f.entry.ref) hf
      (Nat.le_succ_of_le (region_length_le hf f.entry.id)) (dominates_entry hreach)
    obtain ⟨c, hc, rfl⟩ := LoopSearch.block_of_mem_postorder hf
      ⟨f.entry, entry_mem (List.ne_nil_of_mem hb), rfl⟩ horder
    obtain rfl := eq_of_id_eq hf.nodup hc hb hr
    have hmem := List.mem_filter.mpr ⟨horder, (isHeader_iff_headsLoop hf hc).mpr h⟩
    rw [← hfound] at hmem
    obtain ⟨e, he, hec⟩ := List.mem_map.mp hmem
    obtain ⟨i, hi⟩ := List.mem_iff_getElem?.mp he
    have hlt : i + 1 ≤ (LoopForest.searchOf f (DomTree.ofFunc f false)).found.length :=
      (List.getElem?_eq_some_iff.mp hi).1
    obtain ⟨l, hl, hroot, hid, -⟩ := LoopForest.exists_mem (Nat.succ_pos i) hlt
    obtain ⟨-, -, hheader, -⟩ := LoopForest.found_of_mem hl hroot
    refine ⟨l, hl, hroot, ?_⟩
    have hheader' : (LoopForest.searchOf f (DomTree.ofFunc f false)).header? l.id = some c.ref := by
      rw [hid]
      exact (congrArg (Option.map (·.1)) hi).trans (congrArg some hec)
    exact congrArg BlockRef.number (Option.some.inj (hheader.symm.trans hheader'))

/-- What a verified function's loops are.  The last part asks that nothing that is not reached leads to
what is reached. -/
structure NaturalLoops (f : Func) : Prop where
  unique : ∀ h, f.HeadsLoop h → ∃! l, l ∈ f.forest.loops ∧ l.isRoot = false ∧ l.header.number = h
  heads : ∀ l ∈ f.forest.loops, l.isRoot = false → f.HeadsLoop l.header.number
  nested : f.forest.Nested
  contains : f.Enclosed → ∀ l ∈ f.forest.loops, l.isRoot = false → ∀ v,
    (f.forest.contains l v = true ↔ f.InNaturalLoop l.header.number v)

/-- The loops of a verified function. -/
theorem naturalLoops_of_verify (h : f.verify = .ok ()) : f.NaturalLoops := by
  have hf := (wellLinked_of_verify h).toLinked
  obtain ⟨_, hsound⟩ := LoopSearch.walk_sound hf
  have hs : (LoopForest.searchOf f (DomTree.ofFunc f false)).Ranged := hsound.toRanged
  refine ⟨fun v hv => ?_, fun l hl hroot => (exists_loop_iff_headsLoop hf).mp ⟨l, hl, hroot, rfl⟩,
    LoopForest.nested_ofFunc hf, fun henclosed l hl hroot v => ?_⟩
  · obtain ⟨l, hl, hroot, rfl⟩ := (exists_loop_iff_headsLoop hf).mpr hv
    refine ⟨l, ⟨hl, hroot, rfl⟩, fun m ⟨hm, hmr, e⟩ => LoopForest.eq_of_id hm hl ?_⟩
    -- a header has one innermost loop, its own
    obtain ⟨h1, -, hh, -⟩ := LoopForest.found_of_mem hl hroot
    obtain ⟨h1', -, hh', -⟩ := LoopForest.found_of_mem hm hmr
    have hown := (hsound.header _ _ h1 hh).2
    have hown' := (hsound.header _ _ h1' hh').2
    rw [e, hown] at hown'
    exact (Option.some.inj hown').symm
  · have hG := henclosed.sealed hf
    have ht := LoopSearch.walk_tracks hf hG (f.blocks.length + 1)
    obtain ⟨h1, hn, hh, -⟩ := LoopForest.found_of_mem hl hroot
    rw [← natural_iff_inNaturalLoop hf]
    refine (LoopForest.contains_iff hs hl hroot).trans ⟨fun hv => ?_, fun hv => ?_⟩
    · exact ht.natural_of_holds hG hv hh
    · exact ht.complete _ _ _ h1 (Nat.lt_succ_of_le hn) hh hv

/-- What is reached, as verification knows it. -/
def isReached (f : Func) (v : Int) : Bool := (((DomTree.ofFunc f false).region? f.entry.id).getD []).contains v

theorem isReached_iff (hf : f.Linked) : f.isReached v = true ↔ f.WalkedTo v :=
  (mem_reachable hf).trans (reaches_iff_walkedTo hf)

theorem enclosed_iff (hf : f.Linked) : f.Enclosed ↔
    ∀ b ∈ f.blocks, ∀ r ∈ b.succ, f.isReached r.number = true → f.isReached b.id = true := by
  simp only [isReached_iff hf]
  constructor
  · exact fun h b hb r hr => h b.id r.number ⟨b, hb, rfl, r, hr, rfl⟩
  · rintro h u w ⟨b, hb, rfl, r, hr, rfl⟩
    exact h b hb r hr

/-- A loop inside a loop, and two blocks that are not reached and go on to each other. -/
def nesting : Func where
  total := 7
  blocks := [
    { Block.ofId 0 with jump := some (.jump (.ofBlock 1)) },
    { Block.ofId 1 with jump := some (.branch .i32 (.int 1) (.ofBlock 2) (.ofBlock 5)) },
    { Block.ofId 2 with jump := some (.branch .i32 (.int 1) (.ofBlock 3) (.ofBlock 4)) },
    { Block.ofId 3 with jump := some (.jump (.ofBlock 2)) },
    { Block.ofId 4 with jump := some (.jump (.ofBlock 1)) },
    { Block.ofId 5 with jump := some (.ret none) },
    { Block.ofId 6 with jump := some (.jump (.ofBlock 7)) },
    { Block.ofId 7 with jump := some (.jump (.ofBlock 6)) }]
  name := "f"
  retTy := .void
  params := []

/-- The inner loop's body belongs to the outer loop, the block behind the nest does not. -/
theorem naturalLoops_of_nesting : nesting.resolveLinks.1.verify = .ok () ∧
    nesting.resolveLinks.1.NaturalLoops ∧ nesting.resolveLinks.1.Enclosed ∧
    ∃ l ∈ nesting.resolveLinks.1.forest.loops, l.header.number = 1 ∧
      nesting.resolveLinks.1.InNaturalLoop 1 3 ∧ ¬ nesting.resolveLinks.1.InNaturalLoop 1 5 := by
  have h : nesting.resolveLinks.1.verify = .ok () := by decide +kernel
  have hnatural := naturalLoops_of_verify h
  have henclosed : nesting.resolveLinks.1.Enclosed :=
    (enclosed_iff (wellLinked_of_verify h).toLinked).mpr (by decide +kernel)
  have hl : ∃ l ∈ nesting.resolveLinks.1.forest.loops, l.isRoot = false ∧ l.header.number = 1 ∧
      nesting.resolveLinks.1.forest.contains l 3 = true ∧
      nesting.resolveLinks.1.forest.contains l 5 = false := by decide +kernel
  obtain ⟨l, hl, hroot, hheader, h3, h5⟩ := hl
  have hiff := hnatural.contains henclosed l hl hroot
  rw [hheader] at hiff
  refine ⟨h, hnatural, henclosed, l, hl, hheader, (hiff 3).mp h3, fun hno => ?_⟩
  rw [(hiff 5).mpr hno] at h5
  cases h5

/-! ### Blocks that are not reached -/

theorem Walk.mem_of_closed {S : List Int} (hS : ∀ b ∈ f.blocks, b.id ∈ S → ∀ r ∈ b.succ, r.number ∈ S)
    (p : f.Walk u vs v) (hu : u ∈ S) : v ∈ S := by
  induction p with
  | stay _ => exact hu
  | go e _ ih =>
    obtain ⟨b, hb, rfl, r, hr, rfl⟩ := e
    exact ih (hS b hb hu r hr)

/-- Two loops one after the other, and a block that is not reached and leads into both. -/
def siblings : Func where
  total := 6
  blocks := [
    { Block.ofId 0 with jump := some (.jump (.ofBlock 1)) },
    { Block.ofId 1 with jump := some (.branch .i32 (.int 1) (.ofBlock 2) (.ofBlock 3)) },
    { Block.ofId 2 with jump := some (.jump (.ofBlock 1)) },
    { Block.ofId 3 with jump := some (.branch .i32 (.int 1) (.ofBlock 4) (.ofBlock 5)) },
    { Block.ofId 4 with jump := some (.jump (.ofBlock 3)) },
    { Block.ofId 5 with jump := some (.ret none) },
    { Block.ofId 6 with jump := some (.branch .i32 (.int 1) (.ofBlock 2) (.ofBlock 4)) }]
  name := "f"
  retTy := .void
  params := []

/-- The block that is not reached takes the second loop into the first one, though no way leads back. -/
theorem contains_siblings : siblings.resolveLinks.1.verify = .ok () ∧
    ∃ l ∈ siblings.resolveLinks.1.forest.loops, l.isRoot = false ∧ l.header.number = 1 ∧
      siblings.resolveLinks.1.WalkedTo 3 ∧ siblings.resolveLinks.1.forest.contains l 3 = true ∧
      ¬ siblings.resolveLinks.1.InNaturalLoop 1 3 := by
  have h : siblings.resolveLinks.1.verify = .ok () := by decide +kernel
  have hlinked := (wellLinked_of_verify h).toLinked
  have hl : ∃ l ∈ siblings.resolveLinks.1.forest.loops, l.isRoot = false ∧ l.header.number = 1 ∧
      siblings.resolveLinks.1.forest.contains l 3 = true := by decide +kernel
  obtain ⟨l, hl, hroot, hheader, hcontains⟩ := hl
  refine ⟨h, l, hl, hroot, hheader, ?_, hcontains, ?_⟩
  · exact (isReached_iff hlinked).mp (by decide +kernel)
  · rintro (h | ⟨p, vs, ⟨b, hb, rfl, r, hr, hr1⟩, -, hwalk, -⟩)
    · cases h
    · have hclosed : ∀ b ∈ siblings.resolveLinks.1.blocks, b.id ∈ [3, 4, 5] → ∀ r ∈ b.succ,
          r.number ∈ [3, 4, 5] := by decide +kernel
      have := hclosed b hb (hwalk.mem_of_closed hclosed (by decide)) r hr
      rw [hr1] at this
      exact absurd this (by decide)

end Func

end LoopLanes
