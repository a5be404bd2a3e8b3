/-
What one turn of a loop adds to a reduction.

The kind of a reduction stands for an operator: what flows back into the phi is to be its old value
combined with something that does not depend on the old value.

* `Reduction.found_of_ofPhis` — what a reduction of a supported kind is known for;
* `Reduction.Closed` — its steps take up values of the recurrence, and its phis and selects hand on
  nothing else;
* **`Reduction.exists_contribution`** — then every turn has a contribution that is the same for every
  value the phi starts from;
* **`Reduction.no_contribution_of_selecting`** — the kind alone does not promise one: where a select
  brings in a value from outside, what flows back need not depend on the old value at all.
-/
import LoopLanes.Proofs.Cfg.WellFormed
import LoopLanes.Proofs.Lanes.Soundness
import LoopLanes.Proofs.Recurrence.Gains
import LoopLanes.Proofs.Recurrence.Step
import LoopLanes.Vectorize.Pass

namespace LoopLanes

/-! ### What a reduction is known for -/

namespace Reduction

variable {g : UseGraph} {elements : List Temp} {phi : Temp} {t : Temp} {x : Instr}

/-- Every step of a recurrence of a supported kind is of that kind, or passes a value on. -/
theorem stepKind_of_kindOf (h : (kindOf g elements phi).isSupported = true) (ht : t ∈ elements)
    (ne : t ≠ phi) : stepKind elements (g.definition? t) = none ∨
      stepKind elements (g.definition? t) = some (kindOf g elements phi) := by
  refine Option.eq_none_or_eq_some _ |>.imp_right fun ⟨j, hj⟩ => ?_
  have hmem : j ∈ (elements.filter (· != phi)).filterMap
      fun t => stepKind elements (g.definition? t) :=
    List.mem_filterMap.mpr ⟨t, List.mem_filter.mpr ⟨ht, by simpa using ne⟩, hj⟩
  rw [hj]
  unfold kindOf at h ⊢
  dsimp only at h ⊢
  split at h
  · rename_i hnil
    rw [hnil] at hmem
    cases hmem
  · rename_i k ks hcons
    rw [hcons] at hmem
    obtain ⟨hk, hks⟩ := RedKind.eq_of_foldl_join h
    rcases List.mem_cons.mp hmem with rfl | hmem
    · exact congrArg some hk
    · exact congrArg some (hks j hmem)

/-- What is known of a reduction of a supported kind, found among the phis of a header. -/
structure Found (g : UseGraph) (targets : List Temp) (r : Reduction) : Prop where
  target : r.phi ∈ targets
  mem : r.phi ∈ r.elements
  kind : r.kind = kindOf g r.elements r.phi
  alone : ∀ t ∈ r.elements, t ≠ r.phi → t ∉ targets
  foreign : r.hasForeignUser = foreignUse g r.elements

theorem found_of_ofPhis {phis : List Phi} {r : Reduction} (h : r ∈ (Recurrences.ofPhis g phis).reductions)
    (hkind : r.kind.isSupported = true) : r.Found g (phis.map (·.target)) := by
  -- a reduction is added for one phi at a time, with the component that holds it
  obtain ⟨-, hall⟩ := Recurrences.ofPhis_induction (g := g) phis
    (fun _ rs => ∀ r ∈ rs.reductions, r.kind.isSupported = true → Found g (phis.map Phi.target) r)
    (fun _ hr => absurd hr List.not_mem_nil) (fun _ _ _ _ hrs => hrs)
    fun p hp s rs elements hrs hcomponent r hr hsupported => by
      unfold Recurrences.classify at hr
      split at hr
      · exact hrs r hr hsupported
      split at hr
      · exact hrs r hr hsupported
      dsimp only at hr
      rcases List.mem_cons.mp hr with rfl | hr
      · have hmem : p.target ∈ elements := by simpa using List.find?_some hcomponent
        dsimp only at hsupported ⊢
        split at hsupported
        · cases hsupported
        · rename_i halone
          refine ⟨List.mem_map_of_mem hp, hmem, if_neg halone, fun t ht ne hmem => halone ?_, rfl⟩
          exact List.any_eq_true.mpr ⟨t, ht, by simpa using ⟨ne, List.mem_map.mp hmem⟩⟩
      · exact hrs r hr hsupported
  exact hall r h hkind

/-- What reads a value of a recurrence that has no user outside writes one, too. -/
theorem write_of_read (h : foreignUse g elements = false) {id : Int} (hx : (id, x) ∈ g.sites)
    (ht : t ∈ elements) (hread : t ∈ x.readTemps) : ∃ u ∈ elements, x.write = some u := by
  have huse : (id, x) ∈ g.users t := by
    refine List.mem_flatMap.mpr ⟨_, hx, List.mem_replicate.mpr ⟨?_, rfl⟩⟩
    exact Nat.ne_of_gt (List.count_pos_iff.mpr hread)
  have hinside : ∀ e ∈ elements, ∀ s ∈ g.users e, s.2.write.any elements.contains = true := by
    simpa [foreignUse] using h
  obtain ⟨u, hw, hu⟩ := (Option.any_eq_true _ _).mp (hinside t ht _ huse)
  exact ⟨u, by simpa using hu, hw⟩

end Reduction

/-! ### The recurrence of a loop -/

/-- The values that an instruction may hand on as they are. -/
def Instr.passed : Instr → List Value
  | .phi p => p.reads
  | .select _ _ _ lhs rhs => [lhs, rhs]
  | _ => []

/-- A recurrence that takes nothing in but by its arithmetic: each of its steps takes up a value of
it, and what its phis and selects hand on, that of the header from within the loop, belongs to it. -/
structure Reduction.Closed (f : Func) (t : LoopForest) (l : Loop) (r : Reduction) : Prop where
  reads : ∀ e ∈ r.elements, e ≠ r.phi → ∀ x ∈ (UseGraph.ofBlocks (l.blocks f t)).definition? e,
    ∃ u ∈ x.readTemps, u ∈ r.elements
  passes : ∀ e ∈ r.elements, e ≠ r.phi → ∀ x ∈ (UseGraph.ofBlocks (l.blocks f t)).definition? e,
    ∀ v ∈ x.passed, StridePattern.among r.elements v = true
  back : ∀ h ∈ f.linked? l.header, ∀ p ∈ h.phis, p.target = r.phi → ∀ b ∈ l.blocks f t,
    ∀ v ∈ p.incoming? b.label, StridePattern.among r.elements v = true

instance {f : Func} {t : LoopForest} {l : Loop} {r : Reduction} : Decidable (r.Closed f t l) :=
  decidable_of_iff (_ ∧ _ ∧ _) ⟨fun ⟨h, h', h''⟩ => ⟨h, h', h''⟩, fun ⟨h, h', h''⟩ => ⟨h, h', h''⟩⟩

/-- A loop of a verified function with a reduction that is closed and has no user outside.  The
header dominates whatever of the loop is reached. -/
structure Reduction.Accumulates (f : Func) (l : Loop) (r : Reduction) : Prop where
  verified : f.verify = .ok ()
  locals : ∀ t ∈ writesOf f.blocks, t.isGlobal = false
  placed : ∀ b ∈ f.blocks, ∀ x ∈ b.instrs, x.isPhi = false
  loop : l ∈ f.forest.loops
  notRoot : l.isRoot = false
  dominated : ∀ b ∈ l.blocks f f.forest, (f.flow false).Reaches b.id →
    (f.flow false).Dominates l.header.number b.id
  found : r ∈ (Recurrences.ofLoop f f.forest l).reductions
  supported : r.kind.isSupported = true
  unshared : r.hasForeignUser = false
  closed : r.Closed f f.forest l

namespace Reduction.Accumulates

variable {f : Func} {l : Loop} {r : Reduction} {b c header : Block} {x j : Instr} {t : Temp} {p : Phi}
  {v : Value} {pos : Nat}

theorem linked (h : r.Accumulates f l) : f.WellLinked := Func.wellLinked_of_verify h.verified

theorem formed (h : r.Accumulates f l) : f.WellFormed := Func.wellFormed_of_verify h.verified

theorem plainJumps (h : r.Accumulates f l) : UseGraph.PlainJumps (l.blocks f f.forest) :=
  plainJumps_of_wellLinked h.linked h.notRoot

theorem mem_func (hb : b ∈ l.blocks f f.forest) : b ∈ f.blocks := (Loop.mem_blocks.mp hb).1

theorem header_mem (h : r.Accumulates f l) (hh : f.linked? l.header = some header) :
    header ∈ l.blocks f f.forest := by
  obtain ⟨hm, href⟩ := Func.linked?_mem hh
  refine Loop.mem_blocks.mpr ⟨hm, ?_⟩
  rw [show header.id = l.header.number from congrArg BlockRef.number href]
  exact LoopForest.contains_header h.linked.toLinked h.loop

theorem header_reached (h : r.Accumulates f l) : (f.flow false).Reaches l.header.number := by
  obtain ⟨p, -, hdom⟩ := LoopForest.exists_latch h.linked.toLinked h.loop h.notRoot
  exact hdom.reaches_left

theorem facts (h : r.Accumulates f l) (hh : f.linked? l.header = some header) :
    r.Found (.ofBlocks (l.blocks f f.forest)) (header.phis.map (·.target)) := by
  have hfound := h.found
  rw [Recurrences.ofLoop, hh] at hfound
  exact found_of_ofPhis hfound h.supported

/-- Only the header defines the phi. -/
theorem eq_header (h : r.Accumulates f l) (hh : f.linked? l.header = some header)
    (hb : b ∈ f.blocks) (ht : r.phi ∈ b.writes) : b = header := by
  obtain ⟨hm, -⟩ := Func.linked?_mem hh
  exact Func.eq_of_mem_writes h.verified hb hm ht (List.mem_append_left _ (h.facts hh).target)

/-- A step of a supported kind that takes up values of the recurrence, and hands on nothing else. -/
theorem steps_of_stepKind {E : List Temp} {k : RedKind} (hk : k.isSupported = true)
    (hphi : x.isPhi = false) (hkind : stepKind E (some x) = none ∨ stepKind E (some x) = some k)
    (hreads : ∃ u ∈ x.readTemps, u ∈ E) (hpasses : ∀ v ∈ x.passed, StridePattern.among E v = true) :
    Steps E k x := by
  have hbot : stepKind E (some x) ≠ some .bot := by
    intro e
    rw [e] at hkind
    rcases hkind with hkind | hkind
    · cases hkind
    · rw [← Option.some.inj hkind] at hk
      cases hk
  cases x with
  | phi p => cases hphi
  | select t ty cond lhs rhs =>
    cases hcond : StridePattern.among E cond with
    | true => exact absurd (by simp [stepKind, hcond]) hbot
    | false =>
      obtain ⟨e, he, rfl⟩ := StridePattern.among_iff.mp (hpasses lhs (by simp [Instr.passed]))
      obtain ⟨e', he', rfl⟩ := StridePattern.among_iff.mp (hpasses rhs (by simp [Instr.passed]))
      exact .select hcond he he'
  | arith t op ty lhs rhs =>
    have hsome : stepKind E (some (.arith t op ty lhs rhs)) = some k :=
      hkind.resolve_left (by simp only [stepKind]; split <;> [skip; split] <;> simp)
    cases hl : StridePattern.among E lhs <;> cases hr : StridePattern.among E rhs
    · -- an operand belongs to the recurrence
      obtain ⟨u, hu, he⟩ := hreads
      obtain ⟨v, hv, hvu⟩ := Instr.mem_readTemps.mp hu
      have hv : v = lhs ∨ v = rhs := by simpa [Instr.reads] using hv
      have hamong : StridePattern.among E v = true :=
        StridePattern.among_iff.mpr ⟨u, he, by cases v <;> simp_all [Value.temp?]⟩
      rcases hv with rfl | rfl <;> simp_all
    · obtain ⟨e, he, rfl⟩ := StridePattern.among_iff.mp hr
      simp only [stepKind, hl, hr, Bool.false_and, Bool.false_eq_true, if_false] at hsome hbot
      split at hsome
      · rename_i hop
        exact absurd (by rw [if_pos hop]) hbot
      · exact .right he hl (Option.some.inj hsome)
    · obtain ⟨e, he, rfl⟩ := StridePattern.among_iff.mp hl
      simp only [stepKind, hl, hr, Bool.and_false, Bool.false_eq_true, if_false, if_true] at hsome
      split at hsome
      · rename_i hop
        exact .left he hr (.inl ⟨hop, (Option.some.inj hsome).symm⟩)
      · exact .left he hr (.inr (Option.some.inj hsome))
    · exact absurd (by simp [stepKind, hl, hr]) hbot
  | _ => exact absurd rfl hbot

/-- What defines another value of the recurrence is a step of it. -/
theorem steps_of_write (h : r.Accumulates f l) (hh : f.linked? l.header = some header)
    (hb : b ∈ l.blocks f f.forest) (hx : x ∈ b.instrs) (hw : x.write = some t) (ht : t ∈ r.elements) :
    Steps r.elements r.kind x := by
  have hfacts := h.facts hh
  have hdef := UseGraph.definition?_instr h.verified (fun _ => mem_func) h.plainJumps hb hx hw
  have hwrites : t ∈ b.instrs.filterMap Instr.write := List.mem_filterMap.mpr ⟨x, hx, hw⟩
  -- the phi is not defined by an instruction
  have hne : t ≠ r.phi := by
    rintro rfl
    obtain rfl := h.eq_header hh (mem_func hb) (List.mem_append_right _ hwrites)
    have hnodup := Func.writes_nodup h.verified (mem_func hb)
    exact (List.nodup_append.mp hnodup).2.2 _ hfacts.target _ hwrites rfl
  have hsupported := h.supported
  rw [hfacts.kind] at hsupported
  have hkind := stepKind_of_kindOf hsupported ht hne
  rw [← hfacts.kind, hdef] at hkind
  exact steps_of_stepKind h.supported (h.placed b (mem_func hb) x hx) hkind
    (h.closed.reads t ht hne x hdef) (h.closed.passes t ht hne x hdef)

/-- What reads a value of the recurrence writes one. -/
theorem write_of_read_at (h : r.Accumulates f l) (hh : f.linked? l.header = some header) {id : Int}
    (hx : (id, x) ∈ (UseGraph.ofBlocks (l.blocks f f.forest)).sites) (hread : t ∈ x.readTemps)
    (ht : t ∈ r.elements) : ∃ u ∈ r.elements, x.write = some u :=
  write_of_read ((h.facts hh).foreign ▸ h.unshared) hx ht hread

/-- Nothing of the recurrence decides where a block goes. -/
theorem notMem_of_jump (h : r.Accumulates f l) (hh : f.linked? l.header = some header)
    (hb : b ∈ l.blocks f f.forest) (hj : b.jump = some j) (ht : t ∈ j.readTemps) :
    t ∉ r.elements := by
  intro he
  have hsite := UseGraph.mem_sites.mpr ⟨b, hb, rfl, .inr (.inr hj)⟩
  obtain ⟨u, -, hw⟩ := h.write_of_read_at hh hsite ht he
  rw [h.plainJumps b hb j hj] at hw
  cases hw

/-- A phi of another value takes nothing from the recurrence. -/
theorem not_among_of_phi (h : r.Accumulates f l) (hh : f.linked? l.header = some header)
    (hb : b ∈ l.blocks f f.forest) (hp : p ∈ b.phis) (ht : p.target ∉ r.elements) {k : Label}
    (hv : p.incoming? k = some v) : StridePattern.among r.elements v = false := by
  by_contra hamong
  obtain ⟨e, he, rfl⟩ := StridePattern.among_iff.mp (by simpa using hamong)
  have hsite := UseGraph.mem_sites.mpr ⟨b, hb, rfl, .inl ⟨p, hp, rfl⟩⟩
  have hread : e ∈ (Instr.phi p).readTemps :=
    Instr.mem_readTemps.mpr ⟨_, List.mem_map_of_mem (Phi.mem_of_incoming? hv), rfl⟩
  obtain ⟨u, hu, hw⟩ := h.write_of_read_at hh hsite hread he
  exact ht (Option.some.inj hw ▸ hu)

/-- Behind the header, a phi of the recurrence takes from the recurrence. -/
theorem among_of_phi (h : r.Accumulates f l) (hh : f.linked? l.header = some header)
    (hb : b ∈ l.blocks f f.forest) (hother : b.id ≠ l.header.number) (hp : p ∈ b.phis)
    (ht : p.target ∈ r.elements) {k : Label} (hv : p.incoming? k = some v) :
    StridePattern.among r.elements v = true := by
  have hne : p.target ≠ r.phi := by
    intro e
    have hwrite : r.phi ∈ b.writes := e ▸ List.mem_append_left _ (List.mem_map_of_mem hp)
    obtain rfl := h.eq_header hh (mem_func hb) hwrite
    exact hother (congrArg BlockRef.number (Func.linked?_mem hh).2)
  have hdef := UseGraph.definition?_phi h.verified (fun _ => mem_func) h.plainJumps hb hp
  exact h.closed.passes _ ht hne _ hdef v (List.mem_map_of_mem (Phi.mem_of_incoming? hv))

/-- The values of the recurrence are defined in the loop. -/
theorem exists_mem_writes (h : r.Accumulates f l) (hh : f.linked? l.header = some header)
    (ht : t ∈ r.elements) : ∃ d ∈ l.blocks f f.forest, t ∈ d.writes := by
  have hfacts := h.facts hh
  by_cases hne : t = r.phi
  · subst hne
    exact ⟨header, h.header_mem hh, List.mem_append_left _ hfacts.target⟩
  -- the others are, since nothing else has a kind
  refine UseGraph.mem_writes_of_isDefined h.plainJumps ?_
  have hsupported := h.supported
  rw [hfacts.kind] at hsupported
  have hkind := stepKind_of_kindOf hsupported ht hne
  cases hd : (UseGraph.ofBlocks (l.blocks f f.forest)).definition? t with
  | some _ => simp [UseGraph.isDefined, hd]
  | none =>
    rw [hd] at hkind
    rcases hkind with hkind | hkind
    · cases hkind
    · rw [← Option.some.inj hkind] at hsupported
      cases hsupported

theorem isGlobal_eq_false (h : r.Accumulates f l) (hh : f.linked? l.header = some header)
    (ht : t ∈ r.elements) : t.isGlobal = false := by
  obtain ⟨d, hd, htd⟩ := h.exists_mem_writes hh ht
  exact h.locals t (List.mem_flatMap.mpr ⟨d, mem_func hd, htd⟩)

/-- At the start of the header, nothing of the recurrence but the phi has been defined. -/
theorem eq_phi_of_definedAt (h : r.Accumulates f l) (hh : f.linked? l.header = some header)
    (ht : t ∈ r.elements) (hdef : f.DefinedAt t header 0) : t = r.phi := by
  have hfacts := h.facts hh
  obtain ⟨hm, href⟩ := Func.linked?_mem hh
  have hid : header.id = l.header.number := congrArg BlockRef.number href
  by_contra hne
  obtain ⟨d, hd, htd⟩ := h.exists_mem_writes hh ht
  rcases hdef with hparam | hwrite | ⟨c, hc, hcid, htc, hpath⟩
  · have hnodup := Func.definitions_nodup h.verified
    exact (List.nodup_append.mp hnodup).2.2 t hparam t
      (List.mem_flatMap.mpr ⟨d, mem_func hd, htd⟩) rfl
  · refine hfacts.alone t ht hne ?_
    simpa [Block.writesBefore] using hwrite
  · -- on every path to the header, while the header is on every path to it
    obtain rfl := Func.eq_of_mem_writes h.verified hc (mem_func hd) htc htd
    have hreached : f.Reached header := Func.reached_iff.mpr (hid ▸ h.header_reached)
    have hdom := (Func.dominates_iff_onEveryPath hreached).mpr hpath
    have hback := h.dominated c hd hdom.reaches_left
    exact hcid (hdom.antisymm (hid ▸ hback))

end Reduction.Accumulates

/-! ### A turn -/

/-- The gains of what the recurrence has defined at a place are known. -/
def Reduction.Tracks (r : Reduction) (f : Func) (δ : Gains) (b : Block) (pos : Nat) : Prop :=
  ∀ t ∈ r.elements, f.DefinedAt t b pos → (δ.lookup t).isSome

namespace Reduction.Accumulates

variable {f : Func} {l : Loop} {r : Reduction} {b c header : Block} {call : Caller} {m m' : Machine}
  {δ : Gains} {fr mid out : Frame} {x₀ : Int32} {path : List BlockRef}

/-- The instructions of a block. -/
theorem carried_foldlM (h : r.Accumulates f l) (hh : f.linked? l.header = some header)
    (hb : b ∈ l.blocks f f.forest) (hreached : f.Reached b) :
    ∀ (xs : List Instr) {pos : Nat} {δ : Gains} {fr : Frame} {m : Machine}, b.instrs.drop pos = xs →
      r.Tracks f δ b pos → Frame.Moved r.elements r.kind δ fr x₀ fr →
      Gives (xs.foldlM (Instr.exec call) fr) m out m' →
      ∃ δ', r.Tracks f δ' b b.instrs.length ∧ Carried r.elements r.kind x₀ δ fr δ' out
        fun fr out => Gives (xs.foldlM (Instr.exec call) fr) m out m' := by
  intro xs
  induction xs with
  | nil =>
    intro pos δ fr m hdrop htracks hself hrun
    obtain ⟨rfl, rfl⟩ := gives_pure.mp hrun
    have hlen : b.instrs.length ≤ pos := List.drop_eq_nil_iff.mp hdrop
    refine ⟨δ, fun t ht hdef => htracks t ht (hdef.mono fun k hk _ => by omega), fun _ h => h, hself,
      fun y fr' hfr' => ⟨fr', gives_pure.mpr ⟨rfl, rfl⟩, hfr'⟩⟩
  | cons x xs ih =>
    intro pos δ fr m hdrop htracks hself hrun
    obtain ⟨hget, hrest⟩ := getElem?_of_drop_eq_cons hdrop
    have hx := List.mem_of_getElem? hget
    have hknown : ∀ u ∈ x.readTemps, u ∈ r.elements → (δ.lookup u).isSome := by
      intro u hu he
      refine htracks u he (h.formed.reads b (mem_func hb) hreached pos x ?_ u hu
        (h.isGlobal_eq_false hh he))
      rw [List.getElem?_append_left (List.getElem?_eq_some_iff.mp hget).1]
      exact hget
    rw [List.foldlM_cons] at hrun
    obtain ⟨mid, m₁, hstep, hrun⟩ := gives_bind.mp hrun
    -- the instruction is a step of the recurrence, or has nothing to do with it
    obtain ⟨δ₁, hcarried, htracks₁⟩ : ∃ δ₁, Carried r.elements r.kind x₀ δ fr δ₁ mid
        (fun fr out => Gives (x.exec call fr) m out m₁) ∧ r.Tracks f δ₁ b (pos + 1) := by
      by_cases hwrites : ∃ t ∈ r.elements, x.write = some t
      · obtain ⟨t, ht, hw⟩ := hwrites
        obtain ⟨rfl, ds, hcarried⟩ := carried_steps (h.steps_of_write hh hb hx hw ht) h.supported ht
          hw hself hknown hstep
        refine ⟨_, hcarried, fun u hu hdef => ?_⟩
        rcases hdef.step hget with hdef | hu'
        · exact hcarried.keeps u (htracks u hu hdef)
        · obtain rfl := Option.some.inj (hw.symm.trans hu')
          rw [lookup_setEntry_self]
          rfl
      · have hwrite : ∀ u, x.write = some u → u ∉ r.elements := fun u hw hu => hwrites ⟨u, hu, hw⟩
        have hsite := UseGraph.mem_sites.mpr ⟨b, hb, rfl, .inr (.inl hx)⟩
        have hreads : ∀ u ∈ x.readTemps, u ∉ r.elements := fun u hu he =>
          hwrites (h.write_of_read_at hh hsite hu he)
        refine ⟨δ, carried_other hreads hwrite hself hstep, fun u hu hdef => ?_⟩
        exact htracks u hu ((hdef.step hget).resolve_right fun hw => hwrite u hw hu)
    obtain ⟨δ', htracks', hcarried'⟩ := ih hrest htracks₁ hcarried.self hrun
    refine ⟨δ', htracks', hcarried.trans hcarried' fun fr mid out hmid hout => ?_⟩
    rw [List.foldlM_cons]
    exact gives_bind.mpr ⟨mid, m₁, hmid, hout⟩

/-- Entering a block of the loop along an edge. -/
theorem carried_enter (h : r.Accumulates f l) (hh : f.linked? l.header = some header)
    (hb : b ∈ l.blocks f f.forest) (hreached : f.Reached b) (hc : c ∈ l.blocks f f.forest)
    (hsucc : c.ref ∈ b.succ) (htracks : r.Tracks f δ b b.instrs.length)
    (hself : Frame.Moved r.elements r.kind δ mid x₀ mid)
    (henter : c.enter mid (some b.label) = .ok out) :
    f.Reached c ∧ ∃ δ', r.Tracks f δ' c 0 ∧ Carried r.elements r.kind x₀ δ mid δ' out
      fun mid out => c.enter mid (some b.label) = .ok out := by
  have hedge := edge_of_mem_succ hsucc (mem_func hb)
  have hreached' : f.Reached c := by
    obtain ⟨vs, hvs⟩ := hreached
    exact ⟨_, hvs.step hedge⟩
  have hprev : b.ref ∈ c.prev := (h.formed.mutual_links b (mem_func hb) c (mem_func hc)).mp hsucc
  -- the phis of the recurrence take in values of it, the others none
  have hphis : ∀ p ∈ c.phis, ∀ v, p.incoming? b.label = some v →
      (p.target ∈ r.elements → ∃ e ∈ r.elements, v = .temp e ∧ (δ.lookup e).isSome) ∧
      (p.target ∉ r.elements → StridePattern.among r.elements v = false) := by
    intro p hp v hv
    refine ⟨fun ht => ?_, fun ht => h.not_among_of_phi hh hc hp ht hv⟩
    have hamong : StridePattern.among r.elements v = true := by
      by_cases hid : c.id = l.header.number
      · obtain ⟨hm, href⟩ := Func.linked?_mem hh
        obtain rfl : c = header := Func.eq_of_id_eq h.linked.nodup (mem_func hc) hm
          (hid.trans (congrArg BlockRef.number href).symm)
        have htarget : p.target = r.phi := by
          by_contra hne
          exact (h.facts hh).alone _ ht hne (List.mem_map_of_mem hp)
        exact h.closed.back c hh p hp htarget b hb v hv
      · exact h.among_of_phi hh hc hid hp ht hv
    obtain ⟨e, he, rfl⟩ := StridePattern.among_iff.mp hamong
    exact ⟨e, he, rfl, htracks e he (h.formed.incoming c (mem_func hc) hreached' p hp b (mem_func hb)
      hprev hreached e (Phi.mem_of_incoming? hv) (h.isGlobal_eq_false hh he))⟩
  obtain ⟨vs, hvs, rfl⟩ := Block.enter_eq_ok.mp henter
  obtain ⟨δ', htargets, hkeeps, hmoved, hothers⟩ :=
    carried_phis hself (Block.phiValues_eq_ok.mp hvs) hphis hself
  refine ⟨hreached', δ', fun t ht hdef => ?_, hkeeps, hmoved, fun y fr' hfr' => ?_⟩
  · rcases hdef.of_edge h.linked.nodup (mem_func hb) hedge with hphi | hdef
    · obtain ⟨p, hp, rfl⟩ := List.mem_map.mp hphi
      exact htargets p hp ht
    · exact hkeeps t (htracks t ht hdef)
  · obtain ⟨vs', hvs', hmoved'⟩ := hothers y fr' fr' hfr' hfr'
    exact ⟨_, Block.enter_eq_ok.mpr ⟨vs', Block.phiValues_eq_ok.mpr hvs', rfl⟩, hmoved'⟩

/-- Where a block goes depends on nothing of the recurrence. -/
theorem leave_moved (h : r.Accumulates f l) (hh : f.linked? l.header = some header)
    (hb : b ∈ l.blocks f f.forest) {e : Leaving} (hleave : b.leave mid = .ok e) {y : Int32}
    {mid' : Frame} (hmoved : Frame.Moved r.elements r.kind δ mid y mid') : b.leave mid' = .ok e := by
  obtain ⟨j, hj, -⟩ := h.linked.jump b (mem_func hb)
  rw [Block.leave_congr hj fun v hv => Frame.read_congr fun t ht => ?_]
  · exact hleave
  · exact hmoved.other t (h.notMem_of_jump hh hb hj (Instr.mem_readTemps.mpr ⟨v, hv, ht⟩))

/-- A turn from a block of the loop on. -/
theorem carried_turn (h : r.Accumulates f l) (hh : f.linked? l.header = some header)
    (hturn : f.Turn call f.forest l b fr m path out m') :
    ∀ {δ}, b ∈ l.blocks f f.forest → f.Reached b → r.Tracks f δ b 0 →
      Frame.Moved r.elements r.kind δ fr x₀ fr →
      ∃ δ', (δ'.lookup r.phi).isSome ∧ Carried r.elements r.kind x₀ δ fr δ' out
        fun fr out => f.Turn call f.forest l b fr m path out m' := by
  induction hturn with
  | @back b c fr mid out m m' runs leaves next enters =>
    intro δ hb hreached htracks hself
    obtain rfl : header = c := Option.some.inj (hh.symm.trans next)
    obtain ⟨δ₁, htracks₁, hruns⟩ := h.carried_foldlM hh hb hreached b.instrs rfl htracks hself runs
    obtain ⟨hm, href⟩ := Func.linked?_mem next
    have hsucc := h.linked.mem_succ_of_leave (mem_func hb) leaves hm (congrArg BlockRef.label href)
    obtain ⟨-, δ', htracks', henters⟩ := h.carried_enter hh hb hreached (h.header_mem hh) hsucc
      htracks₁ hruns.self enters
    have hphi : f.DefinedAt r.phi header 0 :=
      .inr (.inl (Block.mem_writesBefore.mpr (.inl (h.facts hh).target)))
    refine ⟨δ', htracks' r.phi (h.facts hh).mem hphi, ?_⟩
    refine ⟨fun t ht => henters.keeps t (hruns.keeps t ht), henters.self, fun y fr' hfr' => ?_⟩
    obtain ⟨mid', hmid', hmoved⟩ := hruns.others y fr' hfr'
    obtain ⟨out', hout', hmoved'⟩ := henters.others y mid' hmoved
    exact ⟨out', .back hmid' (h.leave_moved hh hb leaves hmoved) next hout', hmoved'⟩
  | @on b c fr mid fr₁ out m m₁ m' k path runs leaves next inside other enters rest ih =>
    intro δ hb hreached htracks hself
    obtain ⟨δ₁, htracks₁, hruns⟩ := h.carried_foldlM hh hb hreached b.instrs rfl htracks hself runs
    obtain ⟨hm, hlabel⟩ := Func.labelled?_mem next
    have hc : c ∈ l.blocks f f.forest := Loop.mem_blocks.mpr ⟨hm, inside⟩
    have hsucc := h.linked.mem_succ_of_leave (mem_func hb) leaves hm hlabel
    obtain ⟨hreached', δ₂, htracks₂, henters⟩ := h.carried_enter hh hb hreached hc hsucc
      htracks₁ hruns.self enters
    obtain ⟨δ', hphi, hrest⟩ := ih hc hreached' htracks₂ henters.self
    refine ⟨δ', hphi, fun t ht => hrest.keeps t (henters.keeps t (hruns.keeps t ht)), hrest.self,
      fun y fr' hfr' => ?_⟩
    obtain ⟨mid', hmid', hmoved⟩ := hruns.others y fr' hfr'
    obtain ⟨fr₁', hfr₁', hmoved₁⟩ := henters.others y mid' hmoved
    obtain ⟨out', hout', hmoved'⟩ := hrest.others y fr₁' hmoved₁
    exact ⟨out', .on hmid' (h.leave_moved hh hb leaves hmoved) next inside other hfr₁' hout', hmoved'⟩

end Reduction.Accumulates

/-- What flows back into the phi: its start combined with a contribution for each lane. -/
def Reduction.FlowsBack (r : Reduction) (op : ArithOp) (x : Int32) (ds : List Int32) (out : Frame) :
    Prop :=
  ∃ zs, out.lookup r.phi = some zs ∧
    List.Forall₂ (fun d z => Cell.arith op (.int x) (.int d) = .ok z) ds zs

/-- A turn that starts from some value of the phi of a closed reduction has a contribution, the same
for every value that it might have started from: the other turns go the same way, and leave the same
memory and output. -/
theorem Reduction.exists_contribution {f : Func} {l : Loop} {r : Reduction} {header : Block}
    {call : Caller} {fr out : Frame} {m m' : Machine} {x : Int32} {path : List BlockRef}
    (h : r.Accumulates f l) (hh : f.linked? l.header = some header)
    (hx : fr.lookup r.phi = some [.int x])
    (hturn : f.Turn call f.forest l header fr m path out m') :
    ∃ op, r.kind.arithOp? .i32 = some op ∧ ∃ ds : List Int32, r.FlowsBack op x ds out ∧
      ∀ y, ∃ out', f.Turn call f.forest l header (setEntry r.phi [.int y] fr) m path out' m' ∧
        r.FlowsBack op y ds out' := by
  obtain ⟨op, hop⟩ := RedKind.arithOp?_of_isSupported h.supported
  obtain ⟨hm, href⟩ := Func.linked?_mem hh
  have hfacts := h.facts hh
  -- at first, the phi has gained nothing
  let δ : Gains := [(r.phi, [r.kind.neutral])]
  have hδ : ∀ y fr', (∀ t ∉ r.elements, fr'.lookup t = fr.lookup t) →
      fr'.lookup r.phi = some [.int y] → Frame.Moved r.elements r.kind δ fr y fr' := by
    refine fun y fr' hother hphi => ⟨hother, fun t _ ds hds => ?_⟩
    have hds : t = r.phi ∧ ds = [r.kind.neutral] := by simpa [δ] using mem_of_lookup hds
    obtain ⟨rfl, rfl⟩ := hds
    simp [hphi, RedKind.combine_neutral]
  have htracks : r.Tracks f δ header 0 := by
    intro t ht hdef
    obtain rfl := h.eq_phi_of_definedAt hh ht hdef
    simp [δ]
  have hreached : f.Reached header := by
    refine Func.reached_iff.mpr ?_
    rw [show header.id = l.header.number from congrArg BlockRef.number href]
    exact h.header_reached
  obtain ⟨δ', hphi, hcarried⟩ := h.carried_turn hh hturn (h.header_mem hh) hreached htracks
    (hδ x fr (fun _ _ => rfl) hx)
  obtain ⟨ds, hds⟩ := Option.isSome_iff_exists.mp hphi
  have hflows : ∀ y out', Frame.Moved r.elements r.kind δ' out y out' → r.FlowsBack op y ds out' := by
    intro y out' hmoved
    refine ⟨_, hmoved.element _ hfacts.mem ds hds, ?_⟩
    rw [List.forall₂_map_right_iff, List.forall₂_same]
    exact fun d _ => RedKind.arith_combine hop y d
  refine ⟨op, hop, ds, hflows x out hcarried.self, fun y => ?_⟩
  have hset : Frame.Moved r.elements r.kind δ fr y (setEntry r.phi [.int y] fr) :=
    hδ y _ (fun t ht => lookup_setEntry_of_ne _ _ fun e => ht (e ▸ hfacts.mem))
      (lookup_setEntry_self ..)
  obtain ⟨out', hturn', hmoved⟩ := hcarried.others y _ hset
  exact ⟨out', hturn', hflows y out' hmoved⟩

/-! ### A select in a sum -/

/-- A loop that sums up, and selects between a value and the sum. -/
def selecting (kept : Value) : Func :=
  let i : Temp := .ofLocal "i" .i32
  let s : Temp := .ofLocal "s" .i32
  let c : Temp := .ofLocal "c" .i32
  let t : Temp := .ofLocal "t" .i32
  let u : Temp := .ofLocal "u" .i32
  let j : Temp := .ofLocal "j" .i32
  { total := 3
    name := "f"
    retTy := .i32
    params := [.ofLocal "a" .i32]
    blocks := [
      { Block.ofId 0 with succ := [.last 1], jump := some (.jump (.ofBlock 1)) },
      { Block.ofId 1 with
        prev := [.last 0, .last 2]
        succ := [.last 2, .last 3]
        phis := [.ofTarget i [(.int 0, .ofBlock 0), (.temp j, .ofBlock 2)],
          .ofTarget s [(.temp (.ofLocal "a" .i32), .ofBlock 0), (.temp u, .ofBlock 2)]]
        instrs := [.comp c .icmp .slt .i32 (.temp i) (.int 1)]
        jump := some (.branch .i32 (.temp c) (.ofBlock 2) (.ofBlock 3)) },
      { Block.ofId 2 with
        prev := [.last 1]
        succ := [.last 1]
        instrs := [.arith t .add .i32 (.temp s) (.int 1), .select u .i32 (.temp c) kept (.temp t),
          .arith j .add .i32 (.temp i) (.int 1)]
        jump := some (.jump (.ofBlock 1)) },
      { Block.ofId 3 with prev := [.last 1], jump := some (.ret (some (.temp s))) }] }

namespace Selecting

/-- The loop. -/
def loop (kept : Value) : Loop := ((selecting kept).forest.withHeader? 1).getD default

/-- The reduction of the loop. -/
def sum (kept : Value) : Reduction :=
  ((Recurrences.ofLoop (selecting kept) (selecting kept).forest (loop kept)).reductions.head?).getD
    ⟨.ofLocal "s" .i32, [], .bot, .i32, false⟩

/-- The header. -/
def header (kept : Value) : Block := ((selecting kept).linked? (.last 1)).getD default

/-- The frame of a turn that starts from some sum. -/
def start (x : Int32) : Frame := [(.ofLocal "i" .i32, [.int 0]), (.ofLocal "s" .i32, [.int x])]

/-- Nothing is called. -/
def noCall : Caller := fun name _ => throw (.unknownFunction name)

/-- What is kept is a constant or the sum of before. -/
def itself : Value := .temp (.ofLocal "s" .i32)

theorem loop_spec : ∀ kept ∈ [.int 0, itself], (selecting kept).verify.toBool = true ∧
    loop kept ∈ (selecting kept).forest.loops ∧ (loop kept).isRoot = false ∧
    (loop kept).header = .last 1 ∧ (selecting kept).forest.contains (loop kept) 2 = true ∧
    (loop kept).singleLatch? (selecting kept) (selecting kept).forest = some (.last 2) ∧
    (loop kept).outsidePreds (selecting kept) (selecting kept).forest = [.last 0] := by
  decide +kernel

theorem sum_spec : ∀ kept ∈ [.int 0, itself],
    (Recurrences.ofLoop (selecting kept) (selecting kept).forest (loop kept)).reductions.isEmpty =
      false ∧ (sum kept).phi = .ofLocal "s" .i32 ∧ (sum kept).kind = .add ∧
    (sum kept).hasForeignUser = false := by
  decide +kernel

theorem sum_mem {kept : Value} (hmem : kept ∈ [.int 0, itself]) : sum kept ∈
    (Recurrences.ofLoop (selecting kept) (selecting kept).forest (loop kept)).reductions := by
  obtain ⟨hne, -, -, -⟩ := sum_spec kept hmem
  obtain ⟨r, hr⟩ : ∃ r, (Recurrences.ofLoop (selecting kept) (selecting kept).forest
      (loop kept)).reductions.head? = some r := by
    refine Option.isSome_iff_exists.mp (List.isSome_head?.mpr fun hnil => ?_)
    rw [hnil] at hne
    cases hne
  rw [sum, hr]
  exact List.mem_of_mem_head? hr

/-- What flows back is what is kept. -/
theorem exists_turn {kept : Value} (hmem : kept ∈ [.int 0, itself]) {x z : Int32}
    (hread : ∀ fr : Frame, fr.lookup (.ofLocal "s" .i32) = some [.int x] →
      fr.read kept = .ok [.int z]) :
    ∃ out, (selecting kept).Turn noCall (selecting kept).forest (loop kept) (header kept) (start x)
        .start [.last 1, .last 2] out .start ∧
      out.lookup (.ofLocal "s" .i32) = some [.int z] := by
  obtain ⟨-, -, -, hheader, hinside, -, -⟩ := loop_spec kept hmem
  let tested := setEntry (.ofLocal "c" .i32) [.int 1] (start x)
  let added := setEntry (.ofLocal "t" .i32) [.int (x + 1)] tested
  let chosen := setEntry (.ofLocal "u" .i32) [.int z] added
  let counted := setEntry (.ofLocal "j" .i32) [.int 1] chosen
  have htest : Gives ((header kept).instrs.foldlM (Instr.exec noCall) (start x)) .start tested .start :=
    gives_bind.mpr ⟨_, _, Instr.gives_exec_comp rfl rfl rfl, gives_pure.mpr ⟨rfl, rfl⟩⟩
  have hadd : Gives ((Instr.arith (.ofLocal "t" .i32) .add .i32 itself (.int 1)).exec noCall tested)
      .start added .start := Instr.gives_exec_arith rfl rfl rfl
  have hselect : Gives ((Instr.select (.ofLocal "u" .i32) .i32 (.temp (.ofLocal "c" .i32)) kept
      (.temp (.ofLocal "t" .i32))).exec noCall added) .start chosen .start :=
    Instr.gives_exec_select (w := 1) (z := x + 1) rfl (hread added rfl) rfl
  have hcount : Gives ((Instr.arith (.ofLocal "j" .i32) .add .i32 (.temp (.ofLocal "i" .i32))
      (.int 1)).exec noCall chosen) .start counted .start := Instr.gives_exec_arith rfl rfl rfl
  have henter : (header kept).enter counted (some (.ofBlock 2)) =
      .ok (setEntry (.ofLocal "s" .i32) [.int z] (setEntry (.ofLocal "i" .i32) [.int 1] counted)) := by
    refine Block.enter_eq_ok.mpr ⟨[(.ofLocal "i" .i32, [.int 1]), (.ofLocal "s" .i32, [.int z])],
      Block.phiValues_eq_ok.mpr (.cons ?_ (.cons ?_ .nil)), rfl⟩
    · exact ⟨rfl, .temp (.ofLocal "j" .i32), rfl, rfl⟩
    · exact ⟨rfl, .temp (.ofLocal "u" .i32), rfl, rfl⟩
  have hother : (2 : Int) ≠ (loop kept).header.number := by
    rw [hheader]
    decide
  refine ⟨_, .on htest (k := .ofBlock 2) rfl rfl hinside hother rfl
    (.back (gives_foldlM_three hadd hselect hcount) ?_ ?_ henter), lookup_setEntry_self ..⟩
  · rw [hheader]
    rfl
  · rw [hheader]
    rfl

/-- The recurrence of a sum that may stay as it is takes nothing in but by its arithmetic. -/
theorem accumulates_itself : (sum itself).Accumulates (selecting itself) (loop itself) := by
  have hmem : itself ∈ [.int 0, itself] := by simp
  obtain ⟨htrue, hloop, hroot, -, -, -, -⟩ := loop_spec itself hmem
  obtain ⟨-, -, hkind, hforeign⟩ := sum_spec itself hmem
  have hverify := toBool_eq_true.mp htrue
  refine ⟨hverify, by decide, by decide, hloop, hroot, ?_, sum_mem hmem, by rw [hkind]; rfl, hforeign,
    by decide +kernel⟩
  have hdom : ∀ b ∈ (loop itself).blocks (selecting itself) (selecting itself).forest,
      (DomTree.ofFunc (selecting itself) false).dominates (loop itself).header.number b.id = true := by
    decide +kernel
  exact fun b hb _ => (DomTree.dominates_iff (Func.wellLinked_of_verify hverify).toLinked).mp (hdom b hb)

end Selecting

open Selecting in
/-- Where the sum itself is kept, the contribution is nothing, whatever the sum is. -/
theorem Reduction.contribution_of_selecting : ∃ out m' op, (selecting itself).Turn noCall
    (selecting itself).forest (loop itself) (header itself) (start 5) .start [.last 1, .last 2] out m' ∧
    (sum itself).kind.arithOp? .i32 = some op ∧ ∃ ds : List Int32, (sum itself).FlowsBack op 5 ds out ∧
      ∀ y, ∃ out', (selecting itself).Turn noCall (selecting itself).forest (loop itself)
          (header itself) (setEntry (sum itself).phi [.int y] (start 5)) .start [.last 1, .last 2] out'
          m' ∧ (sum itself).FlowsBack op y ds out' := by
  have hmem : itself ∈ [.int 0, itself] := by simp
  obtain ⟨-, -, -, hheader, -, -, -⟩ := loop_spec itself hmem
  obtain ⟨-, hphi, -, -⟩ := sum_spec itself hmem
  obtain ⟨out, hturn, -⟩ := exists_turn hmem (x := 5) (z := 5) fun fr hs => by
    simp only [Frame.read, itself, hs]
  have hh : (selecting itself).linked? (loop itself).header = some (header itself) := by
    rw [hheader]
    decide +kernel
  have hx : (start 5).lookup (sum itself).phi = some [.int 5] := by
    rw [hphi]
    rfl
  obtain ⟨op, hop, hrest⟩ := Reduction.exists_contribution accumulates_itself hh hx hturn
  exact ⟨out, _, op, hturn, hop, hrest⟩

open Selecting in
/-- Where a constant is kept, it flows back from every sum: the phi is taken for a sum of the same
kind, and no contribution takes every sum to the same value. -/
theorem Reduction.no_contribution_of_selecting : (selecting (.int 0)).verify = .ok () ∧
    loop (.int 0) ∈ (selecting (.int 0)).forest.loops ∧
    (loop (.int 0)).singleLatch? (selecting (.int 0)) (selecting (.int 0)).forest = some (.last 2) ∧
    (loop (.int 0)).outsidePreds (selecting (.int 0)) (selecting (.int 0)).forest = [.last 0] ∧
    sum (.int 0) ∈ (Recurrences.ofLoop (selecting (.int 0)) (selecting (.int 0)).forest
      (loop (.int 0))).reductions ∧
    (sum (.int 0)).kind = .add ∧ (sum (.int 0)).hasForeignUser = false ∧
    ¬ ∃ ds, ∀ y out, (selecting (.int 0)).Turn noCall (selecting (.int 0)).forest (loop (.int 0))
        (header (.int 0)) (setEntry (sum (.int 0)).phi [.int y] (start 0)) .start
        [.last 1, .last 2] out .start →
      (sum (.int 0)).FlowsBack .add y ds out := by
  have hmem : .int 0 ∈ [.int 0, itself] := List.mem_cons_self
  obtain ⟨htrue, hloop, -, -, -, hlatch, hpred⟩ := loop_spec (.int 0) hmem
  obtain ⟨-, hphi, hkind, hforeign⟩ := sum_spec (.int 0) hmem
  refine ⟨toBool_eq_true.mp htrue, hloop, hlatch, hpred, sum_mem hmem, hkind, hforeign, ?_⟩
  rintro ⟨ds, hds⟩
  -- every sum and the contribution are to make zero
  have hzero : ∀ y, ∃ d, ds = [d] ∧ y + d = 0 := by
    intro y
    obtain ⟨out, hturn, hout⟩ := exists_turn hmem (x := y) (z := 0) fun _ _ => rfl
    obtain ⟨zs, hzs, hall⟩ := hds y out (by rw [hphi]; exact hturn)
    rw [hphi, hout] at hzs
    obtain rfl := Option.some.inj hzs
    obtain ⟨d, _, hd, hnil, rfl⟩ := List.forall₂_cons_right_iff.mp hall
    cases hnil
    have hd : Except.ok (Cell.int (y + d)) = (.ok (.int 0) : Except RunError Cell) := hd
    exact ⟨d, rfl, Cell.int.inj (Except.ok.inj hd)⟩
  obtain ⟨d, rfl, h₀⟩ := hzero 0
  obtain ⟨d', hd, h₁⟩ := hzero 1
  obtain rfl := List.singleton_inj.mp hd
  rw [Int32.zero_add] at h₀
  subst h₀
  cases h₁

end LoopLanes
