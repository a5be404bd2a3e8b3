/-
Lanes in code that is lined up.

A lane with values for the conditions of a body goes one way through it.  `Known` is what holds in between, while
the lines of the body are executed in their order: the mask of every edge so far tells whether the lane takes it.
A line keeps this true of the edges out of its block (`Known.line`), and so it holds after all lines.

* `Known.lines` — in the end every block has a mask that tells whether the lane comes to it;
* `Lined.selects` — and selections set its phis as if it were entered along the edge that the lane takes.
-/
import LoopLanes.Proofs.Lanes.Rounds
import LoopLanes.Proofs.Loop.Body
import LoopLanes.Proofs.Widen.Lines

namespace LoopLanes

variable {f : Func} {body path done : List Block} {header entry latch b c q : Block} {n₀ k : TempCounter}
  {fr g g' : Frame} {s s' : MaskState} {width : Nat} {t : Temp} {v : Value}

/-- A lane with the values of a frame goes through the body of a loop. -/
structure Passage (f : Func) (body : List Block) (header entry latch : Block) (n₀ : TempCounter) (fr : Frame)
    (path : List Block) : Prop where
  inside : LoopBody f body header entry latch
  verified : f.verify = .ok ()
  named : f.Named n₀
  words : ∀ b ∈ f.blocks, i32Min ≤ b.id ∧ b.id ≤ i32Max
  decides : fr.Decides body
  way : f.Way header fr entry path

/-- A lane takes the edge from one block to another one. -/
def Frame.Takes (fr : Frame) (path : List Block) (q b : Block) : Prop :=
  q ∈ path ∧ q.leave fr = .ok (.jump b.label)

namespace Passage

theorem blockId? (h : Passage f body header entry latch n₀ fr path) (hb : b ∈ f.blocks) :
    b.label.blockId? = some b.id :=
  Label.blockId?_ofBlock (h.words b hb).1 (h.words b hb).2

/-- A block of the body is on the way if the lane takes an edge to it, or if it is the entry. -/
theorem mem_path_iff (h : Passage f body header entry latch n₀ fr path) (hb : b ∈ body) (hne : b ≠ entry) :
    b ∈ path ↔ ∃ q ∈ body, q.ref ∈ b.prev ∧ fr.Takes path q b := by
  constructor
  · intro hmem
    obtain ⟨q, hq, hleave⟩ := (LoopBody.exists_leave_of_mem h.way hmem).resolve_left hne
    have hqb := h.inside.way_subset h.way h.decides h.inside.entry_mem hq
    exact ⟨q, hqb, h.inside.mem_prev (h.inside.sub hqb) (h.inside.sub hb)
      (h.inside.edge_of_leave h.decides hqb hb hleave), hq, hleave⟩
  · rintro ⟨q, -, -, hq, hleave⟩
    exact h.inside.mem_way_of_leave h.way hb hq hleave

theorem entry_mem_path (h : Passage f body header entry latch n₀ fr path) : entry ∈ path := by
  obtain ⟨rest, rfl⟩ := h.way.eq_cons
  exact List.mem_cons_self

/-- Every lane comes to a block that gets no mask. -/
theorem mem_path_of_all (h : Passage f body header entry latch n₀ fr path) (hb : b ∈ body)
    (hall : (b.id = entry.id || (DomTree.ofFunc f true).dominates b.id entry.id) = true) : b ∈ path := by
  rcases (Bool.or_eq_true _ _).mp hall with hid | hdom
  · exact h.inside.eq_of_ref hb h.inside.entry_mem (by simpa using hid) ▸ h.entry_mem_path
  · exact h.inside.mem_way_of_postDominates h.decides h.way hb ((DomTree.dominates_iff h.inside.linked.toLinked).mp hdom)

/-- What an instruction mentions is no name that is handed out. -/
theorem not_fresh (h : Passage f body header entry latch n₀ fr path) (hb : b ∈ f.blocks) {x : Instr}
    (hx : x ∈ b.phis.map Instr.phi ++ b.instrs ++ b.jump.toList) (ht : t ∈ x.mentions)
    (hmax : (k : Int) ≤ u32Max) : ¬ t.Fresh n₀ k := by
  have hmem : t ∈ f.mentions :=
    List.mem_append_right _ (List.mem_flatMap.mpr ⟨b, hb, List.mem_flatMap.mpr ⟨x, hx, ht⟩⟩)
  exact fun hfresh => hfresh.ne_of_reserved hmax (h.named.reserved t hmem) rfl

theorem not_fresh_of_reads (h : Passage f body header entry latch n₀ fr path) (hb : b ∈ f.blocks) {x : Instr}
    (hx : x ∈ b.phis.map Instr.phi ++ b.instrs ++ b.jump.toList) (ht : .temp t ∈ x.reads)
    (hmax : (k : Int) ≤ u32Max) : ¬ t.Fresh n₀ k :=
  h.not_fresh hb hx (List.mem_append_right _ (List.mem_filterMap.mpr ⟨.temp t, ht, rfl⟩)) hmax

end Passage

/-- What is known of the masks after some blocks were lined up and executed: each edge out of them has the
mask of the lanes that take it. -/
structure Known (body path : List Block) (header : Block) (n₀ : TempCounter) (fr : Frame) (done : List Block)
    (s : MaskState) (g : Frame) : Prop where
  sub : done ⊆ body
  temps : n₀ ≤ s.temps
  keeps : Frame.Keeps n₀ s.temps fr g
  unset : ∀ c, s.edge header.id c = none
  edges : ∀ q ∈ done, ∀ c ∈ body, c.ref ∈ q.succ → g.Masks n₀ s.temps (s.edge q.id c.id) (fr.Takes path q c)

/-- What is known of a line once it was executed: its mask, and those of the edges on which its phis select. -/
structure Lined (body path : List Block) (header : Block) (n₀ : TempCounter) (fr : Frame) (s : MaskState) (g : Frame)
    (e : Line) : Prop where
  mem : e.block ∈ body
  mask : g.Masks n₀ s.temps e.mask (e.block ∈ path)
  selections : ∃ s₁ : MaskState, n₀ ≤ s₁.temps ∧
    ((e.block.phis.forM (Masking.phi e.block.id)).run s₁).2.temps ≤ s.temps ∧
    e.selections = ((e.block.phis.forM (Masking.phi e.block.id)).run s₁).2.out.drop s₁.out.length ∧
    (∀ c, s₁.edge header.id c = none) ∧
    ∀ q ∈ body, q.ref ∈ e.block.prev → g.Masks n₀ s₁.temps (s₁.edge q.id e.block.id) (fr.Takes path q e.block)

theorem Lined.keep {e : Line} (h : Lined body path header n₀ fr s g e) (hle : s.temps ≤ s'.temps)
    (hk : Frame.Keeps s.temps s'.temps g g') : Lined body path header n₀ fr s' g' e where
  mem := h.mem
  mask := h.mask.keep hk hle
  selections := by
    obtain ⟨s₁, hn, htemps, hselect, hunset, hedges⟩ := h.selections
    have hle₁ : s₁.temps ≤ s.temps := Nat.le_trans (BodyPlan.grows_phis e.block s₁).1 htemps
    exact ⟨s₁, hn, Nat.le_trans htemps hle, hselect, hunset, fun q hq hprev =>
      (hedges q hq hprev).later (hk.mono_left hle₁)⟩

namespace Known

open Masking BodyPlan

theorem quiet (h : Known body path header n₀ fr done s g) (hquiet : Quiet s s' g g') :
    Known body path header n₀ fr done s' g' where
  sub := h.sub
  temps := Nat.le_trans h.temps hquiet.temps
  keeps := h.keeps.trans hquiet.keeps h.temps hquiet.temps
  unset c := by rw [MaskState.edge_of_edges hquiet.edges, h.unset]
  edges q hq c hc hsucc := by
    rw [MaskState.edge_of_edges hquiet.edges]
    exact (h.edges q hq c hc hsucc).keep hquiet.keeps hquiet.temps

variable (call : Caller) (m : Machine)

/-- The mask of a block is found. -/
theorem maskOf (hk : Known body path header n₀ fr done s g) (h : Passage f body header entry latch n₀ fr path)
    (hb : b ∈ body) (hdone : ∀ q ∈ body, q.ref ∈ b.prev → q ∈ done) :
    ∃ mask s' g', Emits call m (BodyPlan.maskOf ⟨header.id, entry.id, .ofFunc f true, width⟩ b) s g mask s' g' ∧
      Quiet s s' g g' ∧ g'.Masks n₀ s'.temps mask (b ∈ path) := by
  by_cases hall : (b.id = entry.id || (DomTree.ofFunc f true).dominates b.id entry.id) = true
  · have hrun := run_maskOf ⟨header.id, entry.id, .ofFunc f true, width⟩ b s
    rw [if_pos hall] at hrun
    exact ⟨none, s, g, emits_of_run hrun rfl, .refl s g, h.mem_path_of_all hb hall⟩
  · have hne : b ≠ entry := by
      rintro rfl
      simp at hall
    -- the predecessors are blocks of the body
    have hpreds : ∀ v, v ∈ (b.prev.map (·.number)).filter (· != header.id) ↔
        ∃ q ∈ body, q.ref ∈ b.prev ∧ q.id = v := by
      intro v
      simp only [List.mem_filter, List.mem_map, bne_iff_ne]
      constructor
      · rintro ⟨⟨r, hr, rfl⟩, hv⟩
        rcases h.inside.prev b hb r hr with ⟨q, hq, rfl⟩ | ⟨rfl, -⟩
        · exact ⟨q, hq, hr, rfl⟩
        · exact absurd rfl hv
      · rintro ⟨q, hq, hprev, rfl⟩
        exact ⟨⟨q.ref, hprev, rfl⟩, h.inside.id_ne_header hq⟩
    obtain ⟨q₀, hq₀, hprev₀⟩ := h.inside.exists_prev hb hne
    obtain ⟨mask, s', g', hemits, hquiet, hmask⟩ := emits_maskOf call m
      (p := ⟨header.id, entry.id, .ofFunc f true, width⟩) (b := b)
      (T := fun v => ∃ q ∈ body, q.id = v ∧ fr.Takes path q b) hall
      (List.ne_nil_of_mem ((hpreds q₀.id).mpr ⟨q₀, hq₀, hprev₀, rfl⟩)) hk.temps fun v hv => by
        obtain ⟨q, hq, hprev, rfl⟩ := (hpreds v).mp hv
        refine (hk.edges q (hdone q hq hprev) b hb
          (h.inside.mem_succ (h.inside.sub hb) (h.inside.sub hq) hprev)).congr ⟨fun ht => ⟨q, hq, rfl, ht⟩, ?_⟩
        rintro ⟨q', hq', hid, ht⟩
        exact h.inside.eq_of_ref hq' hq hid ▸ ht
    refine ⟨mask, s', g', hemits, hquiet, hmask.congr ?_⟩
    rw [h.mem_path_iff hb hne]
    constructor
    · rintro ⟨v, hv, q, hq, rfl, ht⟩
      obtain ⟨q', hq', hprev, hid⟩ := (hpreds q.id).mp hv
      exact ⟨q, hq, h.inside.eq_of_ref hq' hq hid ▸ hprev, ht⟩
    · rintro ⟨q, hq, hprev, ht⟩
      exact ⟨q.id, (hpreds q.id).mpr ⟨q, hq, hprev, rfl⟩, q, hq, rfl, ht⟩

/-- The masks of the edges out of a block are found. -/
theorem leave {mask : Option Value} (hk : Known body path header n₀ fr done s g)
    (h : Passage f body header entry latch n₀ fr path) (hb : b ∈ body) (hmask : g.Masks n₀ s.temps mask (b ∈ path))
    (hmax : (((b.jump.forM (BodyPlan.leave mask b.id)).run s).2.temps : Int) ≤ u32Max) :
    ∃ s' g', Emits call m (b.jump.forM (BodyPlan.leave mask b.id)) s g () s' g' ∧ s.temps ≤ s'.temps ∧
      Frame.Keeps s.temps s'.temps g g' ∧ Known body path header n₀ fr (done ++ [b]) s' g' := by
  have hbf := h.inside.sub hb
  obtain ⟨j, hj, htargets⟩ := h.inside.linked.jump b hbf
  have hold : ∀ t, .temp t ∈ j.reads → ∀ {k : TempCounter}, (k : Int) ≤ u32Max → ¬ t.Fresh n₀ k := fun t ht _ hk =>
    h.not_fresh_of_reads hbf (x := j) (by simp [hj]) ht hk
  have htemps : (s.temps : Int) ≤ u32Max :=
    Int.le_trans (Int.ofNat_le.mpr (BodyPlan.grows_go mask b s).1) hmax
  have hread : ∀ v ∈ j.reads, g.read v = fr.read v := fun v hv =>
    hk.keeps.read_eq fun t ht => hold t (ht ▸ hv) htemps
  rw [hj] at hmax ⊢
  have hlabels : ∀ l ∈ j.targets, ∃ id, l.blockId? = some id ∧ Label.ofBlock id = l := by
    intro l hl
    obtain ⟨r, hr, rfl⟩ := List.mem_map.mp (htargets ▸ hl)
    obtain ⟨c, hc, rfl, -⟩ := h.inside.linked.succ b hbf r hr
    exact ⟨c.id, h.blockId? hc, rfl⟩
  have hgoes : j.targets ≠ [] := by
    rw [← htargets]
    simpa using h.inside.goesOn b hb
  obtain ⟨s', g', hemits, hleaves⟩ := emits_leave call m hj hlabels hk.temps hmask
    (fun ty cond l l' e => by
      subst e
      obtain ⟨y, hy⟩ := h.decides b hb ty cond l l' hj
      refine ⟨⟨y, by rw [hread cond (List.mem_singleton_self cond), hy]⟩, fun t ht hfresh => ?_⟩
      exact hold t (ht ▸ List.mem_singleton_self cond) hmax (hfresh.mono_left hk.temps)) hgoes
  have hid : ∀ q ∈ body, q.id = b.id → q = b := fun q hq e => h.inside.eq_of_ref hq hb e
  refine ⟨s', g', hemits, hleaves.temps, hleaves.keeps, ?_, ?_, ?_, ?_, ?_⟩
  · exact List.append_subset.mpr ⟨hk.sub, fun q hq => List.mem_singleton.mp hq ▸ hb⟩
  · exact Nat.le_trans hk.temps hleaves.temps
  · exact hk.keeps.trans hleaves.keeps hk.temps hleaves.temps
  · intro c
    rw [hleaves.other _ _ (h.inside.id_ne_header hb).symm, hk.unset]
  · intro q hq c hc hsucc
    by_cases hqb : q = b
    · subst hqb
      have hl : c.label ∈ j.targets := htargets ▸ List.mem_map_of_mem hsucc
      have hedge := hleaves.edge c.label hl c.id (h.blockId? (h.inside.sub hc))
      rwa [Block.leave_congr hj hread] at hedge
    · have hdone : q ∈ done := (List.mem_append.mp hq).resolve_right fun hmem => hqb (List.mem_singleton.mp hmem)
      rw [hleaves.other _ _ fun e => hqb (hid q (hk.sub hdone) e)]
      exact (hk.edges q hdone c hc hsucc).keep hleaves.keeps hleaves.temps

/-- Executing what a line adds for its masks keeps the masks of all edges so far true. -/
theorem line {e : Line} (hk : Known body path header n₀ fr done s g)
    (h : Passage f body header entry latch n₀ fr path) (hb : b ∈ body) (hdone : ∀ q ∈ body, q.ref ∈ b.prev → q ∈ done)
    (hline : (BodyPlan.line ⟨header.id, entry.id, .ofFunc f true, width⟩ b).run s = (e, s'))
    (hmax : (s'.temps : Int) ≤ u32Max) :
    ∃ g', Gives ((e.gathered ++ e.tests).foldlM (Instr.exec call) g) m g' m ∧
      Frame.Keeps s.temps s'.temps g g' ∧ Known body path header n₀ fr (done ++ [b]) s' g' ∧
      Lined body path header n₀ fr s' g' e := by
  obtain ⟨mask, s₁, s₂, s'', hstages, hline', -⟩ :=
    exists_stages ⟨header.id, entry.id, .ofFunc f true, width⟩ b s
  obtain ⟨rfl, rfl⟩ := Prod.mk.inj (hline.symm.trans hline')
  -- the mask
  have hk₀ : Known body path header n₀ fr done { s with out := [] } g := hk.quiet ⟨Nat.le_refl _, rfl, .refl _ _ _⟩
  obtain ⟨mask', s₁', g₁, hemits, hquiet, hmask⟩ := hk₀.maskOf call m h hb hdone
  obtain ⟨rfl, rfl⟩ := Prod.mk.inj (hemits.1.symm.trans hstages.gather)
  have hk₁ := hk₀.quiet hquiet
  -- the phis, which only take names
  have hphis := (grows_phis b s₁').1
  have hedges := edges_phis b.id b.phis s₁'
  rw [hstages.select] at hphis hedges
  let s₃ : MaskState := { s₂ with out := s₂.out ++ b.instrs.map (·.under width mask') }
  have hquiet₃ : Quiet s₁' s₃ g₁ g₁ := ⟨hphis, hedges, .refl _ _ _⟩
  -- the edges
  obtain ⟨s₄, g', hemits', htemps, hkeeps, hk'⟩ := (hk₁.quiet hquiet₃).leave call m h hb
    (hmask.keep hquiet₃.keeps hquiet₃.temps) (by rw [hstages.go]; exact hmax)
  obtain ⟨-, rfl⟩ := Prod.mk.inj (hemits'.1.symm.trans hstages.go)
  obtain ⟨-, is, hout, hexec⟩ := hemits
  obtain ⟨-, is', hout', hexec'⟩ := hemits'
  have hle := Nat.le_trans hquiet.temps hphis
  refine ⟨g', ?_, (hquiet.keeps.mono hphis).trans hkeeps hle htemps, hk', hb,
    (hmask.mono hphis).keep hkeeps htemps, s₁', hk₁.temps, ?_, ?_, hk₁.unset, ?_⟩
  · have hgathered : s₁'.out = is := hout
    have htests : s₄.out.drop s₃.out.length = is' := by rw [hout', List.drop_left]
    rw [hgathered]
    exact gives_foldlM_append.mpr ⟨g₁, m, hexec, htests ▸ hexec'⟩
  · rw [hstages.select]
    exact htemps
  · rw [hstages.select]
  · intro q hq hprev
    have hsucc := h.inside.mem_succ (h.inside.sub hb) (h.inside.sub hq) hprev
    exact (hk₁.edges q (hdone q hq hprev) b hb hsucc).later (hkeeps.mono_left hphis)

/-- Executing what all lines add for their masks gives every block its mask. -/
theorem lines (h : Passage f body header entry latch n₀ fr path) : ∀ {bs done : List Block} {es : List Line}
    {s s' : MaskState} {g : Frame}, Known body path header n₀ fr done s g → bs ⊆ body →
    (∀ pre b post, bs = pre ++ b :: post → ∀ q ∈ body, q.ref ∈ b.prev → q ∈ done ++ pre) →
    (BodyPlan.lines ⟨header.id, entry.id, .ofFunc f true, width⟩ bs).run s = (es, s') → (s'.temps : Int) ≤ u32Max →
      ∃ g', Gives ((es.flatMap fun e => e.gathered ++ e.tests).foldlM (Instr.exec call) g) m g' m ∧
        Frame.Keeps s.temps s'.temps g g' ∧ ∀ e ∈ es, Lined body path header n₀ fr s' g' e := by
  intro bs
  induction bs with
  | nil =>
    intro done es s s' g _ _ _ hrun _
    obtain ⟨rfl, rfl⟩ := Prod.mk.inj hrun
    exact ⟨g, gives_pure.mpr ⟨rfl, rfl⟩, .refl _ _ _, by simp⟩
  | cons b bs ih =>
    intro done es s s' g hk hsub hordered hrun hmax
    obtain ⟨hb, hbs⟩ := List.cons_subset.mp hsub
    rcases hline : (BodyPlan.line ⟨header.id, entry.id, .ofFunc f true, width⟩ b).run s with ⟨e, s₁⟩
    rcases hlines : (BodyPlan.lines ⟨header.id, entry.id, .ofFunc f true, width⟩ bs).run s₁ with ⟨es', s''⟩
    obtain ⟨rfl, rfl⟩ := Prod.mk.inj (hrun.symm.trans (run_lines_cons hline hlines))
    have hle := le_temps_line hline
    have hle' := le_temps_lines hlines
    obtain ⟨g₁, hexec, hkeeps, hk₁, hlined⟩ := hk.line call m h hb
      (fun q hq hprev => by simpa using hordered [] b bs rfl q hq hprev) hline
      (Int.le_trans (Int.ofNat_le.mpr hle') hmax)
    obtain ⟨g', hexec', hkeeps', hrest⟩ := ih hk₁ hbs (fun pre c post hbs q hq hprev => by
      simpa using hordered (b :: pre) c post (by rw [hbs, List.cons_append]) q hq hprev) hlines hmax
    refine ⟨g', ?_, hkeeps.trans hkeeps' hle hle', List.forall_mem_cons.mpr ⟨hlined.keep hle' hkeeps', hrest⟩⟩
    rw [List.flatMap_cons]
    exact gives_foldlM_append.mpr ⟨g₁, m, hexec, hexec'⟩

end Known

/-! ### Phis -/

namespace Passage

/-- Where a block on the way is entered from: of its predecessors, the lane takes the edge of this one alone. -/
theorem source (h : Passage f body header entry latch n₀ fr path) (hb : b ∈ body)
    (hnext : [q, b] <:+: header :: path) : q ∈ f.blocks ∧ q.ref ∈ b.prev ∧ (header.ref ∈ b.prev → header = q) ∧
      ∀ c ∈ body, c.ref ∈ b.prev → (fr.Takes path c b ↔ c = q) := by
  obtain ⟨rest, hpath⟩ := h.way.eq_cons
  rcases List.infix_cons_iff.mp hnext with hprefix | hinside
  · -- the first block of the way is the entry, which comes after the header alone
    obtain ⟨rfl, hrest⟩ := List.cons_prefix_cons.mp hprefix
    obtain ⟨rfl, -⟩ := List.cons_prefix_cons.mp (hpath ▸ hrest)
    refine ⟨h.inside.header_mem, h.inside.mem_prev h.inside.header_mem (h.inside.sub hb) h.inside.entered,
      fun _ => rfl, fun c hc hprev => ?_⟩
    exact absurd (congrArg BlockRef.number (h.inside.prev_entry hprev)) (h.inside.id_ne_header hc)
  · obtain ⟨hq, -, hleave⟩ := h.way.leave_of_infix hinside
    have hqb := h.inside.way_subset h.way h.decides h.inside.entry_mem hq
    have hprev := h.inside.mem_prev (h.inside.sub hqb) (h.inside.sub hb)
      (h.inside.edge_of_leave h.decides hqb hb hleave)
    refine ⟨h.inside.sub hqb, hprev, fun hheader => ?_, fun c hc hcprev => ⟨fun ht => ?_, ?_⟩⟩
    · obtain rfl := h.inside.eq_entry hb hheader
      exact absurd (congrArg BlockRef.number (h.inside.prev_entry hprev)) (h.inside.id_ne_header hqb)
    · exact h.inside.leave_unique h.way h.decides h.inside.entry_mem hb ht.1 ht.2 hq hleave
    · rintro rfl
      exact ⟨hq, hleave⟩

end Passage

/-- Every phi has a value in a frame, for the edge from a predecessor. -/
theorem Passage.exists_values (h : Passage f body header entry latch n₀ fr path) (hb : b ∈ f.blocks)
    (hprev : q.ref ∈ b.prev) (hreads : ∀ p ∈ b.phis, ∀ o ∈ p.incoming, ∃ c, fr.Reads o.1 c) :
    ∃ value : Phi → Cell, ∀ p ∈ b.phis, ∃ v, p.incoming? q.label = some v ∧ fr.Reads v (value p) := by
  have key : ∀ p : Phi, ∃ c, p ∈ b.phis → ∃ v, p.incoming? q.label = some v ∧ fr.Reads v c := by
    intro p
    by_cases hp : p ∈ b.phis
    · obtain ⟨hnodup, hlabels⟩ := Func.labels_of_phi h.inside.linked hb hp
      obtain ⟨⟨v, l⟩, ho, rfl⟩ := List.mem_map.mp ((hlabels q.label).mpr (List.mem_map_of_mem hprev))
      obtain ⟨c, hc⟩ := hreads p hp _ ho
      exact ⟨c, fun _ => ⟨v, Phi.incoming?_of_mem hnodup ho, hc⟩⟩
    · exact ⟨default, fun hp' => absurd hp' hp⟩
  choose value hvalue using key
  exact ⟨value, hvalue⟩

/-- Selections give the phis of a block the values that they take where the block is entered. -/
theorem Lined.selects (call : Caller) (m : Machine) {e : Line} (hl : Lined body path header n₀ fr s g e)
    (h : Passage f body header entry latch n₀ fr path) (hkeeps : Frame.Keeps n₀ s.temps fr g)
    (hmax : (s.temps : Int) ≤ u32Max) (hnext : [q, e.block] <:+: header :: path)
    (hreads : ∀ p ∈ e.block.phis, ∀ o ∈ p.incoming, ∃ c, fr.Reads o.1 c) :
    ∃ out entered, Gives (e.selections.foldlM (Instr.exec call) g) m out m ∧
      e.block.enter fr (some q.label) = .ok entered ∧
      ∀ p ∈ e.block.phis, out.lookup p.target = entered.lookup p.target := by
  have hbf := h.inside.sub hl.mem
  obtain ⟨hq, hprev, hheader, htakes⟩ := h.source hl.mem hnext
  obtain ⟨value, hvalue⟩ := h.exists_values hbf hprev hreads
  obtain ⟨s₁, hn, htemps, hselect, hunset, hedges⟩ := hl.selections
  have hnew : ∀ p ∈ e.block.phis, ∀ t ∈ (Instr.phi p).mentions, ∀ {k : TempCounter}, (k : Int) ≤ u32Max →
      ¬ t.Fresh n₀ k :=
    fun p hp t ht _ hk => h.not_fresh hbf (x := .phi p) (by simp [hp]) ht hk
  have hread : ∀ p ∈ e.block.phis, ∀ o ∈ p.incoming, ∀ t, o.1 = .temp t → t ∈ (Instr.phi p).mentions := by
    intro p hp o ho t ht
    exact List.mem_append_right _ (List.mem_filterMap.mpr ⟨o.1, List.mem_map_of_mem ho, by rw [ht]; rfl⟩)
  -- each phi is fed the value that comes along the edge that is taken
  have hfeeds : ∀ p ∈ e.block.phis, Masking.Feeds n₀ e.block.id (· = q.label) s₁ g p (value p) := by
    intro p hp
    obtain ⟨v, hv, hval⟩ := hvalue p hp
    obtain ⟨hnodup, hlabels⟩ := Func.labels_of_phi h.inside.linked hbf hp
    refine ⟨fun o ho => ?_, fun o ho => ?_, ⟨_, Phi.mem_of_incoming? hv, rfl⟩⟩
    · obtain ⟨r, hr, hlabel⟩ := List.mem_map.mp ((hlabels o.2).mp (List.mem_map_of_mem ho))
      have hmask : (s₁.entry e.block.id o).2 = s₁.edge (r.label.blockId?.getD (-1)) e.block.id := by
        rw [hlabel]
        rfl
      rw [hmask, ← hlabel]
      rcases h.inside.prev _ hl.mem r hr with ⟨c, hc, rfl⟩ | ⟨rfl, -⟩
      · rw [show c.ref.label.blockId? = some c.id from h.blockId? (h.inside.sub hc)]
        refine (hedges c hc hr).congr ((htakes c hc hr).trans ⟨fun e => e ▸ rfl, fun e => ?_⟩)
        exact Func.eq_of_id_eq h.inside.linked.nodup (h.inside.sub hc) hq (Label.ofBlock_injective e)
      · rw [show header.ref.label.blockId? = some header.id from h.blockId? h.inside.header_mem]
        rw [Option.getD_some, hunset]
        exact hheader hr ▸ rfl
    · obtain ⟨c, hc⟩ := hreads p hp o ho
      refine ⟨c, hc.congr fun t ht => hkeeps t (hnew p hp t (hread p hp o ho t ht) hmax), ?_⟩
      rintro hlabel
      have hsame := Phi.incoming?_of_mem hnodup (show (o.1, q.label) ∈ p.incoming from hlabel ▸ ho)
      obtain rfl := Option.some.inj (hsame.symm.trans hv)
      simpa using hc.1.symm.trans hval.1
  obtain ⟨s₂, out, hemits, -, hout, -⟩ := Masking.emits_phis call m hn hfeeds
    (Func.phi_targets_nodup h.verified hbf)
    (fun p hp o ho t ht => h.inside.notMem_targets h.verified h.named.locals hl.mem hp
      (show (.temp t, o.2) ∈ p.incoming from ht ▸ ho))
    fun p hp t ht => by
      refine hnew p hp t ?_ (Int.le_trans (Int.ofNat_le.mpr htemps) hmax)
      rcases ht with rfl | ⟨o, ho, ht⟩
      · exact List.mem_append_left _ (List.mem_singleton_self _)
      · exact hread p hp o ho t ht
  obtain ⟨hrun, is, his, hexec⟩ := hemits
  have hselections : e.selections = is := by rw [hselect, hrun, his, List.drop_left]
  refine ⟨out, (e.block.phis.map fun p => (p.target, [value p])).foldl (fun fr e => setEntry e.1 e.2 fr) fr,
    hselections ▸ hexec, Block.enter_eq_ok.mpr ⟨_, Block.phiValues_eq_ok.mpr ?_, rfl⟩, fun p hp => ?_⟩
  · rw [List.forall₂_map_right_iff, List.forall₂_same]
    exact fun p hp => ⟨rfl, (hvalue p hp).imp fun v hv => ⟨hv.1, hv.2.1⟩⟩
  · rw [hout p hp, List.foldl_map]
    exact (lookup_foldl_of_mem (·.target) (fun p => [value p]) (Func.phi_targets_nodup h.verified hbf) hp).symm

end LoopLanes
