/-
What leaves a widened region.

Partial results are seeded in front of a loop and folded behind it, in a block of their own, and what is folded
is read in their place.  So of all blocks that are left, the one that folds does nothing else, and the others
stem from blocks of the function (`Ready.left`): outside of the region they read single values, and maybe partial
results that no phi of the header holds.
-/
import LoopLanes.Proofs.Widen.CutOff
import LoopLanes.Proofs.Widen.Stems

namespace LoopLanes

/-- Constants stand for what leaves a result as it is. -/
theorem RedKind.temp?_identity {k : RedKind} {ty : Ty} {v : Value} (h : k.identity? ty = some v) : v.temp? = none := by
  cases k <;> cases ty <;> simp only [identity?, Option.some.injEq, reduceCtorEq] at h <;> (subst h; rfl)

/-- Replacing an entry of one phi leaves the others. -/
theorem Phi.find?_setIn_of_ne {t u : Temp} (hne : u ≠ t) (l : Label) (v : Value) : ∀ ps : List Phi,
    (setIn t l v ps).find? (·.target == u) = ps.find? (·.target == u) := by
  intro ps
  induction ps with
  | nil => rfl
  | cons q ps ih =>
    rw [setIn]
    split
    · rename_i e
      have hq : (q.target == u) = false := by
        rw [beq_iff_eq.mp e]
        exact beq_false_of_ne (Ne.symm hne)
      rw [List.find?_cons_of_neg (by simp [setIncoming, hq]), List.find?_cons_of_neg (by simp [hq])]
    · rw [List.find?_cons, List.find?_cons, ih]

/-- Behind something, or behind everything where there is something. -/
theorem getD_succ_ne_zero (o : Option Nat) {k : Nat} (hk : k ≠ 0) : (o.map (· + 1)).getD k ≠ 0 := by
  cases o with
  | none => exact hk
  | some j => exact Nat.succ_ne_zero j

theorem getD_succ_le {o : Option Nat} {k : Nat} (h : ∀ j, o = some j → j < k) : (o.map (· + 1)).getD k ≤ k := by
  cases o with
  | none => exact Nat.le_refl k
  | some j => exact h j rfl

theorem exists_lookup_reverse {α β : Type} [BEq α] [LawfulBEq α] {es : List (α × β)} {k : α}
    (h : k ∈ es.map (·.1)) : ∃ v, es.reverse.lookup k = some v := by
  refine exists_lookup ?_
  rw [List.map_reverse]
  exact List.mem_reverse.mpr h

/-- What seeding the lanes of a header phi does. -/
theorem FoldSite.exists_of_add {site : FoldSite} {s s' : FoldState} {t : Temp} {kind : RedKind}
    (h : site.add s t kind = .ok s') : ∃ identity op init, kind.identity? t.ty = some identity ∧
      kind.arithOp? t.ty = some op ∧ (init = identity ∨ ∃ c p, s.func.linked? site.header = some c ∧ c.phis.find? (·.target == t) = some p ∧
        p.incoming? site.entering.label = some init) ∧
      s' = ⟨(s.func.modify site.entering fun b =>
          { b with
            instrs := b.instrs ++ [.buildVec ⟨toString (s.temps + 1), false, t.ty⟩ t.ty
              (FoldSite.seed site.width init identity)] }).modify site.header fun b =>
          { b with
            phis := Phi.setIn t site.entering.label (.temp ⟨toString (s.temps + 1), false, t.ty⟩) b.phis },
        s.temps + 2, s.folds ++ [.reduce ⟨toString (s.temps + 2), false, t.ty⟩ op t.ty (.temp t) site.width],
        s.results ++ [(t, .temp ⟨toString (s.temps + 2), false, t.ty⟩)]⟩ := by
  unfold FoldSite.add at h
  cases hid : kind.identity? t.ty with
  | none => simp [hid] at h
  | some identity =>
    cases hop : kind.arithOp? t.ty with
    | none => simp [hid, hop] at h
    | some op =>
      simp only [hid, hop] at h
      refine ⟨identity, op, _, rfl, rfl, ?_, (pure_eq_ok.mp h).symm⟩
      cases hold : ((s.func.linked? site.header).bind fun b => b.phis.find? (·.target == t)).bind
          (·.incoming? site.entering.label) with
      | none => exact .inl rfl
      | some init =>
        obtain ⟨p, hp, hinit⟩ := Option.bind_eq_some_iff.mp hold
        obtain ⟨c, hc, hp⟩ := Option.bind_eq_some_iff.mp hp
        exact .inr ⟨c, p, hc, hp, hinit⟩

namespace LaneInfo

variable {i : LaneInfo} {f g : Func} {n m n' : TempCounter} {laid passed passed' : Temp → Prop} {fold : Label} {b c : Block}
  {x : Instr} {t : Temp} {r : BlockRef}

/-- Partial results under way: lanes are laid out under every other name that is handed out, and what is folded
gets the names between. -/
structure Folding (i : LaneInfo) (laid : Temp → Prop) (fold entering : Label) (f : Func) (m : TempCounter)
    (rest : List Temp) (s : FoldState) : Prop where
  refs : s.func.blocks.map Block.ref = f.blocks.map Block.ref
  total : s.func.total = f.total + 1
  stems : i.Stems laid i.Partial fold f s.func
  start : ∀ c, s.func.linked? i.region.header = some c → ∀ t ∈ rest, ∀ p,
    c.phis.find? (·.target == t) = some p → ∀ v, p.incoming? entering = some v →
      ∀ u, v.temp? = some u → ¬ i.Wide laid u
  folds : ∀ x ∈ s.folds, x.isReduce = true
  results : ∀ e ∈ s.results, ∀ u, e.2.temp? = some u → ¬ i.Wide laid u
  even : ∃ j, s.temps = m + 2 * j

namespace Folding

variable {s s' : FoldState} {entering : BlockRef} {kind : RedKind} {rest : List Temp}

/-- One more phi is seeded and folded. -/
theorem add (h : Ready f n i) (hs : i.Folding laid fold entering.label f m (t :: rest) s) (ht : i.Partial t)
    (hnew : t ∉ rest) (hentering : i.region.contains entering.number = false)
    (hadd : FoldSite.add ⟨i.region.header, entering, i.width⟩ s t kind = .ok s')
    (hodd : ∀ j, m + 2 * j < s'.temps → laid ⟨toString (m + 2 * j + 1), false, t.ty⟩)
    (heven : ∀ j, m + 2 * j + 2 ≤ s'.temps → ¬ i.Wide laid ⟨toString (m + 2 * j + 2), false, t.ty⟩) :
    i.Folding laid fold entering.label f m rest s' ∧ s'.results.map (·.1) = s.results.map (·.1) ++ [t] := by
  obtain ⟨j, hj⟩ := hs.even
  obtain ⟨identity, op, init, hidentity, -, hinit, rfl⟩ := FoldSite.exists_of_add hadd
  have hseed : laid ⟨toString (s.temps + 1), false, t.ty⟩ := by
    rw [hj]
    refine hodd j ?_
    rw [← hj]
    exact Nat.lt_add_of_pos_right (Nat.succ_pos 1)
  have hresult : ¬ i.Wide laid ⟨toString (s.temps + 2), false, t.ty⟩ := by
    rw [hj]
    refine heven j ?_
    rw [← hj]
  have hheader : i.region.contains i.region.header.number = true := i.region.contains_of_mem h.header
  have hne : i.region.header ≠ entering := by
    rintro e
    rw [← e, hheader] at hentering
    cases hentering
  -- the seed is gathered from the start value and a constant
  have hreads : ∀ u ∈ (Instr.buildVec ⟨toString (s.temps + 1), false, t.ty⟩ t.ty
      (FoldSite.seed i.width init identity)).readTemps, ¬ i.Wide laid u := by
    intro u hu
    obtain ⟨v, hv, hvt⟩ := Instr.mem_readTemps.mp hu
    have hconstant : v ≠ identity := by
      rintro rfl
      rw [RedKind.temp?_identity hidentity] at hvt
      cases hvt
    rcases List.mem_cons.mp (List.mem_of_mem_take hv) with rfl | hv
    · obtain ⟨c, p, hc, hp, hv⟩ := hinit.resolve_left hconstant
      exact hs.start c hc t List.mem_cons_self p hp v hv u hvt
    · exact absurd (List.mem_replicate.mp hv).2 hconstant
  refine ⟨⟨?_, hs.total, ?_, ?_, ?_, ?_, ⟨j + 1, ?_⟩⟩, by simp⟩
  · refine (Func.map_ref_modify ?_).trans ((Func.map_ref_modify ?_).trans hs.refs)
    · exact fun _ => rfl
    · exact fun _ => rfl
  · -- the seed stands outside, and flows into the phi of the header
    refine Stems.modify (hs.stems.modify fun b hb c hc hbc => ?_) fun b hb c hc hbc => ?_
    · refine hbc.append ?_ rfl hseed hreads
      rw [show b.id = entering.number by rw [Block.id, ← hbc.ref, hc]]
      exact hentering
    · refine hbc.setIn ?_ ht _ _
      rw [show b.id = i.region.header.number by rw [Block.id, ← hbc.ref, hc]]
      exact hheader
  · -- the phis that are left have their start values still
    intro c hc u hu p hp
    dsimp only at hc
    rw [Func.linked?_modify (by exact fun _ => rfl), if_pos rfl, Func.linked?_modify (by exact fun _ => rfl),
      if_neg hne] at hc
    obtain ⟨d, hd, rfl⟩ := Option.map_eq_some_iff.mp hc
    have hut : u ≠ t := fun e => hnew (e ▸ hu)
    dsimp only at hp
    rw [Phi.find?_setIn_of_ne hut] at hp
    exact hs.start d hd u (List.mem_cons_of_mem _ hu) p hp
  · intro x hx
    rcases List.mem_append.mp hx with hx | hx
    · exact hs.folds x hx
    · rw [List.mem_singleton.mp hx]
      rfl
  · intro e he u hu
    rcases List.mem_append.mp he with he | he
    · exact hs.results e he u hu
    · rw [List.mem_singleton.mp he] at hu
      exact Option.some.inj hu ▸ hresult
  · rw [Nat.mul_succ, ← Nat.add_assoc, ← hj]

theorem foldlM (h : Ready f n i) (hentering : i.region.contains entering.number = false) :
    ∀ {phis : List (Temp × RedKind)} {s s' : FoldState},
    i.Folding laid fold entering.label f m (phis.map (·.1)) s → (∀ e ∈ phis, i.Partial e.1) →
    (phis.map (·.1)).Nodup →
    phis.foldlM (fun s (t, k) => FoldSite.add ⟨i.region.header, entering, i.width⟩ s t k) s = .ok s' →
    (∀ j ty, m + 2 * j < s'.temps → laid ⟨toString (m + 2 * j + 1), false, ty⟩) →
    (∀ j ty, m + 2 * j + 2 ≤ s'.temps → ¬ i.Wide laid ⟨toString (m + 2 * j + 2), false, ty⟩) →
    i.Folding laid fold entering.label f m [] s' ∧
      s'.results.map (·.1) = s.results.map (·.1) ++ phis.map (·.1) := by
  intro phis
  induction phis with
  | nil =>
    intro s s' hs _ _ hrun _ _
    obtain rfl := pure_eq_ok.mp hrun
    exact ⟨hs, by simp⟩
  | cons e phis ih =>
    intro s s' hs hpartial hnodup hrun hodd heven
    obtain ⟨s₁, hadd, hrun⟩ := bind_eq_ok.mp hrun
    obtain ⟨he, hpartial⟩ := List.forall_mem_cons.mp hpartial
    obtain ⟨hnew, hnodup⟩ := List.nodup_cons.mp hnodup
    -- two names for each phi: the first one for its seed, the second one for what is folded
    have hle := (foldlM_add_region (i := i) rfl hentering hrun).2
    obtain ⟨hs₁, hkeys₁⟩ := add h hs he hnew hentering hadd
      (fun j hj => hodd j e.1.ty (Nat.lt_of_lt_of_le hj hle)) fun j hj => heven j e.1.ty (Nat.le_trans hj hle)
    obtain ⟨hs', hkeys⟩ := ih hs₁ hpartial hnodup hrun hodd heven
    refine ⟨hs', ?_⟩
    rw [hkeys, hkeys₁]
    simp

end Folding

/-! ### The function that is left -/

/-- Partial results that are passed on, but by no phi of the header. -/
def PassedOn (i : LaneInfo) (f : Func) (t : Temp) : Prop :=
  i.Partial t ∧ ∀ b ∈ f.blocks, b.ref = i.region.header → t ∉ b.phis.map (·.target)

/-- The block in which partial results are folded: it does nothing else, and goes on where the header went. -/
structure FoldBlock (i : LaneInfo) (f : Func) (c : Block) : Prop where
  id : c.id = f.total + 1
  phis : c.phis = []
  instrs : ∀ x ∈ c.instrs, x.isReduce = true
  jump : ∃ l, c.jump = some (.jump l) ∧ ∃ b ∈ f.blocks, b.ref = i.region.header ∧ l ∈ b.targets

/-- What widening leaves: blocks that stem from those of the function, and maybe one that folds. -/
structure Left (i : LaneInfo) (laid : Temp → Prop) (f g : Func) : Prop where
  block : ∀ c ∈ g.blocks, i.FoldBlock f c ∨
    ∃ b ∈ f.blocks, i.Stem laid (i.PassedOn f) (.ofBlock (f.total + 1)) b c
  entry : (g.blocks.map Block.ref).head? = (f.blocks.map Block.ref).head?

theorem FoldBlock.congr {d : Block} (h : i.FoldBlock f c) (href : d.ref = c.ref) (hphis : d.phis = c.phis)
    (hinstrs : d.instrs = c.instrs) (hjump : d.jump = c.jump) : i.FoldBlock f d := by
  obtain ⟨h₁, h₂, h₃, h₄⟩ := h
  exact ⟨(congrArg BlockRef.number href).trans h₁, hphis.trans h₂, hinstrs ▸ h₃, hjump ▸ h₄⟩

/-- A function with partial results seeded: its header goes on to the block that folds, and outside what is folded
is read in place of partial results. -/
def redirected (i : LaneInfo) (s : FoldState) (exit : BlockRef) (fold : Label) (outside : List BlockRef) : Func :=
  outside.foldl (fun f r => f.modify r (substBlock fun t => s.results.reverse.lookup t))
    ((s.func.modify i.region.header (·.renameTargets (Func.renameOne exit.label fold))).modify exit
      (·.renameIncoming (Func.renameOne i.region.header.label fold)))

theorem exists_of_foldPartials {phis : List (Temp × RedKind)} {outside : List BlockRef} {g' : Func} {m' : TempCounter}
    (h : i.foldPartials g m phis outside = .ok (g', m')) :
    ∃ entering exit s place, i.region.contains entering.number = false ∧ i.region.contains exit.number = false ∧
      (∀ b, g.linked? i.region.header = some b → entering ∈ b.prev ∧ exit ∈ b.succ) ∧
      phis.foldlM (fun s (t, k) => FoldSite.add ⟨i.region.header, entering, i.width⟩ s t k)
        ⟨{ g with total := g.total + 1 }, m, [], []⟩ = .ok s ∧ s.temps = m' ∧
      ((i.redirected s exit (.ofBlock (g.total + 1)) outside).blocks ≠ [] → place ≠ 0) ∧
      place ≤ (i.redirected s exit (.ofBlock (g.total + 1)) outside).blocks.length ∧
      Func.resolveLinks { i.redirected s exit (.ofBlock (g.total + 1)) outside with
        blocks := (i.redirected s exit (.ofBlock (g.total + 1)) outside).blocks.insertIdx place
          { Block.ofId (g.total + 1) with instrs := s.folds, jump := some (.jump exit.label) } } = (g', none) := by
  unfold foldPartials at h
  simp only [Func.newBlockId] at h
  split at h
  swap
  · cases h
  rename_i entering hentering
  split at h
  swap
  · cases h
  rename_i exit hexit
  obtain ⟨s, hs, h⟩ := bind_eq_ok.mp h
  split at h
  · cases h
  rename_i resolved hresolved
  obtain ⟨rfl, rfl⟩ := Prod.mk.inj (pure_eq_ok.mp h)
  refine ⟨entering, exit, s, _, by simpa using List.find?_some hentering, by simpa using List.find?_some hexit,
    fun b hb => ⟨?_, ?_⟩, hs, rfl, fun hne => ?_, ?_, hresolved⟩
  · have hmem := List.mem_of_find?_eq_some hentering
    simpa [hb] using hmem
  · have hmem := List.mem_of_find?_eq_some hexit
    simpa [hb] using hmem
  · exact getD_succ_ne_zero _ fun e => hne (List.length_eq_zero_iff.mp e)
  · refine getD_succ_le fun q hq => ?_
    obtain ⟨r, -, hr⟩ := List.mem_filterMap.mp (List.max?_mem hq)
    exact (List.findIdx?_eq_some_iff_findIdx_eq.mp hr).1

theorem refs_redirected (s : FoldState) (exit : BlockRef) (fold : Label) {outside : List BlockRef}
    (hout : ∀ r ∈ outside, i.region.contains r.number = false) :
    (i.redirected s exit fold outside).blocks.map Block.ref = s.func.blocks.map Block.ref := by
  refine (RegionKept.foldl_modify (i := i) _ ?_ hout).refs.trans ((Func.map_ref_modify ?_).trans
    (Func.map_ref_modify ?_))
  · exact fun _ => rfl
  · exact fun _ => rfl
  · exact fun _ => rfl

/-- Replacing values outside, block by block. -/
theorem Stems.foldl_substBlock {σ : Temp → Option Value}
    (hσ : ∀ u v, σ u = some v → ∀ t, v.temp? = some t → ¬ i.Wide laid t)
    (hpassed : ∀ u, passed u → σ u = none → passed' u) : ∀ {rs done : List BlockRef} {g : Func},
    (∀ r ∈ rs, i.region.contains r.number = false) →
    (∀ c ∈ g.blocks, ∃ b ∈ f.blocks, i.Stem laid passed fold b c ∧
      (b.ref ∈ done → i.Stem laid passed' fold b c)) →
    ∀ c ∈ (rs.foldl (fun g r => g.modify r (substBlock σ)) g).blocks, ∃ b ∈ f.blocks,
      i.Stem laid passed fold b c ∧ (b.ref ∈ done ++ rs → i.Stem laid passed' fold b c) := by
  intro rs
  induction rs with
  | nil =>
    intro done g _ hg
    simpa using hg
  | cons r rs ih =>
    intro done g hout hg
    obtain ⟨hr, hout⟩ := List.forall_mem_cons.mp hout
    rw [List.foldl_cons, show done ++ r :: rs = (done ++ [r]) ++ rs by simp]
    refine ih hout fun c hc => ?_
    obtain ⟨d, hd, rfl⟩ := List.mem_map.mp hc
    obtain ⟨b, hb, hbd, hdone⟩ := hg d hd
    by_cases e : d.ref = r
    · -- the block whose turn it is: from here on it reads what is passed on and nothing else
      have hb' : i.region.contains b.id = false := by
        rw [show b.id = r.number by rw [Block.id, ← hbd.ref, e]]
        exact hr
      rw [if_pos (by simpa using e)]
      exact ⟨b, hb, hbd.substBlock hb' hσ fun _ hu _ => hu, fun _ => hbd.substBlock hb' hσ hpassed⟩
    · rw [if_neg (by simpa using e)]
      refine ⟨b, hb, hbd, fun hmem => hdone ?_⟩
      rcases List.mem_append.mp hmem with hmem | hmem
      · exact hmem
      · exact absurd (hbd.ref.trans (List.mem_singleton.mp hmem)) e

/-- With what is folded in their place, no partial results of the header are read outside. -/
theorem Folding.stems_redirected {entering : Label} {s : FoldState} {header : Block} (h : Ready f n i)
    (hheader : header ∈ f.blocks) (href : header.ref = i.region.header) (exit : BlockRef)
    (hs : i.Folding laid fold entering f m [] s)
    (hkeys : s.results.map (·.1) = (i.partials header).map (·.1)) :
    ∀ c ∈ (i.redirected s exit fold ((f.blocks.filter fun b => !i.region.contains b.id).map Block.ref)).blocks,
      ∃ b ∈ f.blocks, i.Stem laid (i.PassedOn f) fold b c := by
  have hin : i.region.contains i.region.header.number = true := i.region.contains_of_mem h.header
  have hrenamed := (hs.stems.modify (u := (·.renameTargets (Func.renameOne exit.label fold)))
    fun b hb c hc hbc => hbc.renameTargets (hbc.ref.symm.trans hc) ((h.contains_iff hb).mpr
      (hbc.ref.symm.trans hc ▸ h.header)) exit.label).modify (r := exit)
    (u := (·.renameIncoming (Func.renameOne i.region.header.label fold))) fun b _ c _ hbc => hbc.renameIncoming _
  -- what is passed on besides is no partial result of the header
  have hpassed : ∀ u, i.Partial u → s.results.reverse.lookup u = none → i.PassedOn f u := by
    refine fun u hu hnone => ⟨hu, fun b hb hbref hmemu => ?_⟩
    obtain rfl := Func.eq_of_id_eq h.distinct hb hheader (congrArg BlockRef.number (hbref.trans href.symm))
    obtain ⟨p, hp, rfl⟩ := List.mem_map.mp hmemu
    obtain ⟨k, hk⟩ := hu
    obtain ⟨v, hv⟩ := exists_lookup_reverse (k := p.target) (hkeys ▸
      List.mem_map.mpr ⟨(p.target, k), List.mem_filterMap.mpr ⟨p, hp, by simp [hk]⟩, rfl⟩)
    rw [hv] at hnone
    cases hnone
  intro c hc
  obtain ⟨b, hb, hbc, hdone⟩ := Stems.foldl_substBlock
    (fun u v huv => hs.results (u, v) (List.mem_reverse.mp (mem_of_lookup huv))) hpassed i.not_contains_outside
    (fun c hc => (hrenamed c hc).imp fun b ⟨hb, hbc⟩ => ⟨hb, hbc, fun hnil : b.ref ∈ [] => absurd hnil List.not_mem_nil⟩)
    c hc
  refine ⟨b, hb, ?_⟩
  cases hin : i.region.contains b.id with
  | true => exact hbc.inside hin
  | false =>
    refine hdone (List.mem_append_right _ (List.mem_map_of_mem (List.mem_filter.mpr ⟨hb, ?_⟩)))
    rw [hin]
    rfl

/-- A block that folds is put in, and links are rebuilt. -/
theorem Left.of_insertIdx {placed : Func} {k : Nat} {stuck : Option Label} (hc : i.FoldBlock f c)
    (hblocks : ∀ d ∈ placed.blocks, ∃ b ∈ f.blocks, i.Stem laid (i.PassedOn f) (.ofBlock (f.total + 1)) b d)
    (hrefs : placed.blocks.map Block.ref = f.blocks.map Block.ref) (hne : f.blocks ≠ [])
    (hresolved : Func.resolveLinks { placed with blocks := placed.blocks.insertIdx (k + 1) c } = (g, stuck)) :
    i.Left laid f g := by
  have hcode := Func.sameCode_resolveLinks { placed with blocks := placed.blocks.insertIdx (k + 1) c }
  rw [hresolved] at hcode
  refine ⟨fun d hd => ?_, ?_⟩
  · obtain ⟨e, he, href, hphis, hinstrs, hjump⟩ := hcode.exists_block hd
    rcases List.eq_or_mem_of_mem_insertIdx he with rfl | he
    · exact .inl (hc.congr href.symm hphis.symm hinstrs.symm hjump.symm)
    · obtain ⟨b, hb, hbe⟩ := hblocks e he
      exact .inr ⟨b, hb, hbe.congr href.symm hphis.symm hinstrs.symm hjump.symm⟩
  · rw [← hcode.map_eq fun _ => rfl, List.map_insertIdx, hrefs]
    cases hf : f.blocks with
    | nil => exact absurd hf hne
    | cons b bs => rfl

/-- Phis that hold partial results are among those of the header, in their order. -/
theorem sublist_partials (i : LaneInfo) (b : Block) :
    ((i.partials b).map (·.1)).Sublist (b.phis.map (·.target)) := by
  unfold partials
  induction b.phis with
  | nil => exact .slnil
  | cons p ps ih =>
    rw [List.filterMap_cons, List.map_cons]
    split
    · exact ih.cons _
    · rename_i e he
      split at he
      · obtain rfl := Option.some.inj he
        exact ih.cons_cons _
      · cases he

theorem not_wide_of_incoming (h : Ready f n i) (hlaid : ∀ t : Temp, t.Reserved n → ¬ laid t) {header : Block}
    (hmem : header ∈ f.blocks) (href : header.ref = i.region.header) {p : Phi} (hp : p ∈ header.phis) {l : Label}
    (hl : ∀ r ∈ i.region.blocks, r.label ≠ l) {v : Value} (hv : p.incoming? l = some v) (hu : v.temp? = some t) :
    ¬ i.Wide laid t := by
  have hundefined : t ∉ i.defs := h.defs ▸ h.start header hmem href p hp v l hv hl t hu
  refine Ready.not_wide hlaid (by rw [shapeOf_of_outside hundefined]; rfl) (h.reserved_of_read hmem ?_)
  obtain ⟨o, ho, rfl⟩ := Option.map_eq_some_iff.mp hv
  exact Block.mem_readTemps.mpr (.inl ⟨p, hp, Instr.mem_readTemps.mpr
    ⟨o.1, List.mem_map_of_mem (List.mem_of_find?_eq_some ho), hu⟩⟩)

/-- Partial results are folded. -/
theorem Ready.left_of_foldPartials (h : Ready f n i) (hlaid : ∀ t : Temp, t.Reserved n → ¬ laid t) {header : Block}
    (hmem : header ∈ f.blocks) (href : header.ref = i.region.header) {m' : TempCounter} {g' : Func}
    (hrefs : g.blocks.map Block.ref = f.blocks.map Block.ref) (htotal : g.total = f.total)
    (hstems : i.Stems laid i.Partial (.ofBlock (f.total + 1)) f g)
    (hsame : ∀ c, g.linked? i.region.header = some c → c.phis = header.phis ∧ c.succ = header.succ)
    (hfold : i.foldPartials g m (i.partials header)
      ((f.blocks.filter fun b => !i.region.contains b.id).map Block.ref) = .ok (g', m'))
    (hodd : ∀ j ty, m + 2 * j < m' → laid ⟨toString (m + 2 * j + 1), false, ty⟩)
    (heven : ∀ j ty, m + 2 * j + 2 ≤ m' → ¬ i.Wide laid ⟨toString (m + 2 * j + 2), false, ty⟩) :
    i.Left laid f g' := by
  obtain ⟨entering, exit, s, place, hentering, -, hlinks, hs, rfl, hplace, -, hresolved⟩ := exists_of_foldPartials hfold
  rw [htotal] at hs hplace hresolved
  have hpartial : ∀ e ∈ i.partials header, i.Partial e.1 := by
    intro e he
    obtain ⟨p, -, hp⟩ := List.mem_filterMap.mp he
    split at hp
    · exact Option.some.inj hp ▸ ⟨_, ‹_›⟩
    · cases hp
  -- the loop is entered from outside, with values that are defined there
  have hstart : i.Folding laid (.ofBlock (f.total + 1)) entering.label f m ((i.partials header).map (·.1))
      ⟨{ g with total := f.total + 1 }, m, [], []⟩ := by
    refine ⟨hrefs, rfl, hstems, fun c hc t _ p hp v hv u hu => ?_, by simp, by simp, ⟨0, rfl⟩⟩
    refine not_wide_of_incoming h hlaid hmem href ((hsame c hc).1 ▸ List.mem_of_find?_eq_some hp)
      (fun r hr e => ?_) hv hu
    rw [← Label.ofBlock_injective e, i.region.contains_of_mem hr] at hentering
    cases hentering
  obtain ⟨hs', hkeys⟩ := Folding.foldlM h hentering hstart hpartial
    ((i.sublist_partials header).nodup (h.targets header hmem href)) hs hodd heven
  have hstems := hs'.stems_redirected h hmem href exit (by simpa using hkeys)
  have hplaced := (i.refs_redirected s exit (.ofBlock (f.total + 1)) (i.not_contains_outside (f := f))).trans
    hs'.refs
  obtain ⟨k, rfl⟩ := Nat.exists_eq_succ_of_ne_zero (hplace fun hnil => by
    rw [hnil] at hplaced
    exact List.ne_nil_of_mem hmem (List.map_eq_nil_iff.mp hplaced.symm))
  refine Left.of_insertIdx ⟨rfl, rfl, hs'.folds, _, rfl, header, hmem, href, ?_⟩ hstems hplaced
    (List.ne_nil_of_mem hmem) hresolved
  -- the way out of the header
  obtain ⟨c, hc, hcref⟩ : ∃ c ∈ g.blocks, c.ref = i.region.header := by
    obtain ⟨c, hc, e⟩ := List.mem_map.mp (hrefs ▸ List.mem_map_of_mem (f := Block.ref) hmem)
    exact ⟨c, hc, e.trans href⟩
  have hlink : g.linked? i.region.header = some c :=
    hcref ▸ Func.linked?_of_mem (Func.nodup_ids_of_refs hrefs h.distinct) hc
  rw [← h.links.succ header hmem, ← (hsame c hlink).2]
  exact List.mem_map_of_mem (hlinks c hlink).2

/-- Numbers of seeds. -/
theorem odd_of_le {n m : Nat} (h : n ≤ m) (j : Nat) : n < m + 2 * j + 1 ∧ (m + 2 * j + 1 - m) % 2 = 1 := by
  omega

/-- Numbers of what is folded. -/
theorem even_of_eq {m j k : Nat} (h : m + 2 * j + 2 = k) : ¬ (k ≤ m ∨ (k - m) % 2 = 1) := by
  omega

/-- What widening leaves of a function that is ready for it. -/
theorem Ready.left {f' : Func} (h : Ready f n i) (hwiden : i.widen f n = .ok (f', n')) (hmax : (n' : Int) ≤ u32Max) :
    ∃ laid, (∀ t : Temp, t.Reserved n → ¬ laid t) ∧ i.Left laid f f' := by
  obtain ⟨header, hmem, href⟩ := h.blocks _ h.header
  have hheader : f.linked? i.region.header = some header := href ▸ h.linked.linked? hmem
  obtain ⟨p, ⟨g, m⟩, hp, hq, hescape, hend⟩ := widen_eq_ok hwiden
  rw [hheader, Option.map_some, Option.getD_some] at hend
  have houtline : f.SameOutline g := sameOutline_widened hp hq
  have hle : m ≤ n' := by
    rcases hend with ⟨-, e⟩ | hfold
    · exact Nat.le_of_eq (congrArg Prod.snd e)
    · exact (foldPartials_region hfold (houtline.map_id ▸ h.distinct) i.not_contains_outside).1
  -- what is handed out holds lanes, but for every other name from the first seed on
  let laid : Temp → Prop := fun t => ∃ k, t.name = toString k ∧ n < k ∧ k ≤ n' ∧ (k ≤ m ∨ (k - m) % 2 = 1)
  have hlaid : ∀ t : Temp, t.Reserved n → ¬ laid t := by
    rintro t ht ⟨k, hname, hk, hk', -⟩
    exact ht.name_ne hk (Int.le_trans (Int.ofNat_le.mpr hk') hmax) hname
  have hfresh : ∀ t : Temp, t.Fresh n m → laid t := by
    rintro t ⟨k, hk, hk', hname⟩
    exact ⟨k, hname, hk, Nat.le_trans hk' hle, .inl hk'⟩
  obtain ⟨hrefs, hnm, hstems, hsame⟩ := h.stems_widened hlaid hescape hp hq hfresh (.ofBlock (f.total + 1))
  refine ⟨laid, hlaid, ?_⟩
  rcases hend with ⟨hempty, e⟩ | hfold
  · obtain ⟨rfl, rfl⟩ := Prod.mk.inj e
    -- no phi of the header holds partial results
    have hnone : ∀ p ∈ header.phis, ¬ i.Partial p.target := by
      rintro p hp ⟨k, hk⟩
      have : (p.target, k) ∈ i.partials header := List.mem_filterMap.mpr ⟨p, hp, by simp [hk]⟩
      rw [hempty] at this
      cases this
    refine ⟨fun c hc => .inr ?_, by rw [hrefs]⟩
    refine hstems.imp (fun b _ c hbc => hbc.passed_mono fun t ht => ⟨ht, fun d hd hdref hmemt => ?_⟩) c hc
    obtain rfl := Func.eq_of_id_eq h.distinct hd hmem (congrArg BlockRef.number (hdref.trans href.symm))
    obtain ⟨p, hp, rfl⟩ := List.mem_map.mp hmemt
    exact hnone p hp ht
  · refine h.left_of_foldPartials hlaid hmem href hrefs houtline.total hstems (fun c hc => hsame header c hheader hc)
      hfold (fun j ty hj => ⟨m + 2 * j + 1, rfl, (odd_of_le hnm j).1, hj, .inr (odd_of_le hnm j).2⟩)
      fun j ty hj => ?_
    -- a result has a shape only if its name was in use before, and its number is no seed's
    rintro (hwide | ⟨k, hname, -, -, hk⟩)
    · refine absurd (h.reserved_of_mem_defs (t := ⟨toString (m + 2 * j + 2), false, ty⟩) ?_) fun hr => ?_
      · by_contra hundefined
        rw [shapeOf_of_outside hundefined] at hwide
        cases hwide
      · exact hr.name_ne (k := m + 2 * j + 2) (Nat.lt_succ_of_lt (odd_of_le hnm j).1)
          (Int.le_trans (Int.ofNat_le.mpr hj) hmax) rfl
    · exact even_of_eq (toString_nat_injective hname) hk

end LaneInfo

end LoopLanes
