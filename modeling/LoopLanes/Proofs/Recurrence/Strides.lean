/-
Strides of header phis.

A stride is the sum of the constants that the members of a component add, in no order.  Each member but
the phi adds to one other member, so from any member on there is one way along the operands to the phi
(`UseGraph.Way`).  The phi leads to every member, and takes in none but what the latch brings; so the way
from there comes past each of them once (`StridePattern.Found.sum_way`), and what the latch brings is ahead
of the phi by the stride.

* `Recurrences.found_of_ofPhis` — a stride pattern is made up of a component and its sum;
* `StridePattern.Governs.lookup_eq_none` — a phi that starts from its own recurrence never gets a value;
* `StridePattern.Governs.ahead_of_way` — on the way from what the latch brings, all is ahead of the phi;
* **`StridePattern.advances_throughout`** — every jump back moves the phi on by its stride;
* **`StridePattern.lags`** — but where the recurrence has a global temporary, the phi may stand still;
* `StridePattern.drifts` — and where a run starts in the header, the latch may bring what is no member of it.
-/
import Mathlib.Algebra.BigOperators.Group.List.Basic
import LoopLanes.Proofs.Loop.Inductions
import LoopLanes.Proofs.Recurrence.Components

open Relation

namespace LoopLanes

/-! ### Ways along operands -/

/-- A way along operands to a phi, where each temporary that it comes past reads but one other: these
temporaries, in their order. -/
inductive UseGraph.Way (g : UseGraph) (phi : Temp) : Temp → List Temp → Prop
  | here : Way g phi phi []
  | step {x : Instr} {t u : Temp} {ts : List Temp} (ne : t ≠ phi) (definition : g.definition? t = some x)
    (reads : x.readTemps = [u]) (rest : Way g phi u ts) : Way g phi t (t :: ts)

namespace UseGraph

variable {g : UseGraph} {phi s t u : Temp} {x : Instr} {ts ts' : List Temp} {E : List Temp}

/-- What reads one temporary has no other operand. -/
theorem eq_of_mem_operands (hx : g.definition? t = some x) (hreads : x.readTemps = [u]) (h : s ∈ g.operands t) :
    s = u := by
  simp only [operands, hx, Option.map_some, Option.getD_some, hreads] at h
  exact List.mem_singleton.mp (List.mem_of_mem_filter h)

namespace Way

theorem unique (h : g.Way phi t ts) (h' : g.Way phi t ts') : ts = ts' := by
  induction h generalizing ts' with
  | here =>
    cases h' with
    | here => rfl
    | step ne => exact absurd rfl ne
  | step ne definition reads _ ih =>
    cases h' with
    | here => exact absurd rfl ne
    | step _ definition' reads' rest' =>
      obtain rfl := Option.some.inj (definition.symm.trans definition')
      obtain rfl := List.singleton_inj.mp (reads.symm.trans reads')
      rw [ih rest']

/-- From what is come past, the rest of the way leads on. -/
theorem of_mem (h : g.Way phi t ts) (hs : s ∈ ts) : ∃ ss, g.Way phi s ss ∧ ss <:+ ts := by
  induction h with
  | here => cases hs
  | @step x t u ts ne definition reads rest ih =>
    rcases List.mem_cons.mp hs with rfl | hs
    · exact ⟨_, .step ne definition reads rest, List.suffix_refl _⟩
    · obtain ⟨ss, hss, hsuffix⟩ := ih hs
      exact ⟨ss, hss, hsuffix.trans (List.suffix_cons t ts)⟩

/-- Nothing is come past twice, as the way from there is the same each time. -/
theorem nodup (h : g.Way phi t ts) : ts.Nodup := by
  induction h with
  | here => exact List.nodup_nil
  | @step x t u ts ne definition reads rest ih =>
    refine List.nodup_cons.mpr ⟨fun hmem => ?_, ih⟩
    obtain ⟨ss, hss, hsuffix⟩ := rest.of_mem hmem
    obtain rfl := hss.unique (.step ne definition reads rest)
    have := hsuffix.length_le
    simp at this

theorem ne_of_mem (h : g.Way phi t ts) (hs : s ∈ ts) : s ≠ phi := by
  rintro rfl
  induction h with
  | here => cases hs
  | step ne _ _ _ ih => exact (List.mem_cons.mp hs).elim (fun e => ne e.symm) ih

theorem mem_start (h : g.Way phi t ts) : t = phi ∨ t ∈ ts := by
  cases h with
  | here => exact .inl rfl
  | step => exact .inr List.mem_cons_self

/-- The operands of what is come past are come past, too. -/
theorem mem_operands (h : g.Way phi t ts) (hs : s ∈ ts) (hu : u ∈ g.operands s) : u = phi ∨ u ∈ ts := by
  induction h with
  | here => cases hs
  | step _ definition reads rest ih =>
    rcases List.mem_cons.mp hs with rfl | hs
    · obtain rfl := eq_of_mem_operands definition reads hu
      exact rest.mem_start.imp_right (List.mem_cons_of_mem _)
    · exact (ih hs).imp_right (List.mem_cons_of_mem _)

end Way

/-- A member of a component has an operand in it, if it is not the only member and none of its own operands. -/
theorem exists_operand (hnodup : E.Nodup) (hcoupled : ∀ u, u ∈ E ↔ g.Coupled t u)
    (hcyclic : ¬ (E.length = 1 ∧ !(g.operands t).contains t)) : ∃ u ∈ E, u ∈ g.operands t := by
  have ht : t ∈ E := (hcoupled t).mpr ⟨.refl, .refl⟩
  by_cases hself : t ∈ g.operands t
  · exact ⟨t, ht, hself⟩
  obtain ⟨u, hu, ne⟩ : ∃ u ∈ E, u ≠ t := by
    by_contra hnone
    have hsub : E ⊆ [t] := fun u hu => List.mem_singleton.mpr (by_contra fun ne => hnone ⟨u, hu, ne⟩)
    have hle := (hnodup.subperm hsub).length_le
    exact hcyclic ⟨Nat.le_antisymm hle (List.length_pos_of_mem ht), by simpa using hself⟩
  -- the member leads to the other one, and this leads back
  obtain ⟨hto, hback⟩ := (hcoupled u).mp hu
  rcases hto.cases_head with e | ⟨w, hw, hwu⟩
  · exact absurd e.symm ne
  · exact ⟨w, (hcoupled w).mpr ⟨.single hw, ReflTransGen.trans hwu hback⟩, hw⟩

/-- From a member of a set whose other members read one of it each, a way leads to the phi. -/
theorem exists_way (hreads : ∀ s ∈ E, s ≠ phi → ∃ x, ∃ u ∈ E, g.definition? s = some x ∧ x.readTemps = [u])
    (h : g.DependsOn t phi) (ht : t ∈ E) : ∃ ts, g.Way phi t ts ∧ ts ⊆ E := by
  induction h using ReflTransGen.head_induction_on with
  | refl => exact ⟨[], .here, List.nil_subset E⟩
  | @head t s hs _ ih =>
    by_cases ne : t = phi
    · exact ⟨[], ne ▸ .here, List.nil_subset E⟩
    · obtain ⟨x, u, hu, hx, hread⟩ := hreads t ht ne
      obtain rfl := eq_of_mem_operands hx hread hs
      obtain ⟨ts, hway, hsub⟩ := ih hu
      exact ⟨t :: ts, .step ne hx hread hway, List.cons_subset.mpr ⟨ht, hsub⟩⟩

end UseGraph

/-! ### What is known of a stride pattern -/

namespace StridePattern

variable {g : UseGraph} {elements ts : List Temp} {t phi : Temp} {ty : Ty} {x : Instr} {c : Int}

/-- What the definition of a temporary adds. -/
def gain (g : UseGraph) (elements : List Temp) (t : Temp) : Int :=
  ((g.definition? t).bind (addend? elements)).getD 0

theorem adds_of_addend? (h : addend? elements x = some c) : ∃ u ∈ elements, x.AddsTo u c := by
  unfold addend? at h
  split at h
  · obtain ⟨hamong, hc⟩ := Option.ite_none_right_eq_some.mp h
    obtain ⟨u, hu, rfl⟩ := among_iff.mp hamong
    exact ⟨u, hu, Option.some.inj hc ▸ .right⟩
  · obtain ⟨hamong, hc⟩ := Option.ite_none_right_eq_some.mp h
    obtain ⟨u, hu, rfl⟩ := among_iff.mp hamong
    exact ⟨u, hu, Option.some.inj hc ▸ .left⟩
  · obtain ⟨hamong, hfit⟩ := Option.ite_none_right_eq_some.mp h
    obtain ⟨u, hu, rfl⟩ := among_iff.mp hamong
    obtain ⟨rfl, -⟩ := fitI32?_eq_some hfit
    exact ⟨u, hu, .sub⟩
  · cases h

/-- A sum that is found is that of all gains, and each summand is one. -/
theorem foldlM_eq_some : ∀ {ts : List Temp} {n : Int},
    ts.foldlM (fun sum t => do fitI32? (sum + (← addend? elements (← g.definition? t)))) n = some c →
      (∀ t ∈ ts, ∃ x, g.definition? t = some x ∧ addend? elements x = some (gain g elements t)) ∧
        c = n + (ts.map (gain g elements)).sum := by
  intro ts
  induction ts with
  | nil =>
    intro n h
    obtain rfl := Option.some.inj h
    simp
  | cons t ts ih =>
    intro n h
    rw [List.foldlM_cons] at h
    obtain ⟨m, hm, h⟩ := Option.bind_eq_some_iff.mp h
    obtain ⟨x, hx, hm⟩ := Option.bind_eq_some_iff.mp hm
    obtain ⟨a, ha, hm⟩ := Option.bind_eq_some_iff.mp hm
    obtain ⟨rfl, -⟩ := fitI32?_eq_some hm
    obtain ⟨hall, rfl⟩ := ih h
    have hgain : gain g elements t = a := by simp [gain, hx, ha]
    exact ⟨List.forall_mem_cons.mpr ⟨⟨x, hx, hgain ▸ ha⟩, hall⟩, by simp [hgain, Int.add_assoc]⟩

/-- A stride pattern is a component that the phi leads back to, each other member of which adds to a member,
and the sum of what they add. -/
structure Found (g : UseGraph) (e : StridePattern) : Prop where
  nodup : e.elements.Nodup
  mem : e.phi ∈ e.elements
  coupled : ∀ t ∈ e.elements, ∀ u, u ∈ e.elements ↔ g.Coupled t u
  steps : ∀ t ∈ e.elements, t ≠ e.phi → ∃ x, ∃ u ∈ e.elements, g.definition? t = some x ∧
    x.AddsTo u (gain g e.elements t)
  sum : e.stride = ((e.elements.filter (· != e.phi)).map (gain g e.elements)).sum
  returns : ∃ u ∈ e.elements, u ∈ g.operands e.phi

theorem found_of_sum? (hs : (ComponentSearch.runs g ts).component? phi = some elements)
    (hcyclic : ¬ (elements.length = 1 ∧ !(g.operands phi).contains phi))
    (hsum : sum? g elements phi ty = some c) : Found g ⟨phi, elements, c⟩ := by
  have hphi := (ComponentSearch.mem_component? hs).2
  obtain ⟨hnodup, hcoupled⟩ := ComponentSearch.coupled_of_component? hs
  unfold sum? at hsum
  split at hsum
  · obtain ⟨hall, hc⟩ := foldlM_eq_some hsum
    refine ⟨hnodup, hphi, hcoupled, fun t ht ne => ?_, by simpa using hc,
      UseGraph.exists_operand hnodup (hcoupled phi hphi) hcyclic⟩
    obtain ⟨x, hx, hadd⟩ := hall t (List.mem_filter.mpr ⟨ht, by simpa using ne⟩)
    obtain ⟨u, hu, adds⟩ := adds_of_addend? hadd
    exact ⟨x, u, hu, hx, adds⟩
  · cases hsum

end StridePattern

/-- The stride patterns of some phis. -/
theorem Recurrences.found_of_ofPhis {g : UseGraph} {phis : List Phi} {e : StridePattern}
    (h : e ∈ (ofPhis g phis).strides) : e.Found g ∧ ∃ p ∈ phis, p.target = e.phi := by
  obtain ⟨⟨ts, hcomponent⟩, hcyclic, p, hp, hphi, hsum⟩ := summed_of_ofPhis h
  exact ⟨StridePattern.found_of_sum? hcomponent hcyclic hsum, p, hp, hphi⟩

namespace StridePattern.Found

variable {g : UseGraph} {e : StridePattern} {s t : Temp} {ts : List Temp}

/-- From every member, a way leads to the phi. -/
theorem exists_way (h : e.Found g) (ht : t ∈ e.elements) : ∃ ts, g.Way e.phi t ts ∧ ts ⊆ e.elements :=
  UseGraph.exists_way (fun s hs ne => by
    obtain ⟨x, u, hu, hx, adds⟩ := h.steps s hs ne
    exact ⟨x, u, hu, hx, adds.readTemps⟩) ((h.coupled t ht e.phi).mp h.mem).1 ht

/-- Where the phi takes in but one member, the way from there comes past all others. -/
theorem mem_way (h : e.Found g) (honly : ∀ u ∈ g.operands e.phi, u ∈ e.elements → u = s)
    (hway : g.Way e.phi s ts) (ht : t ∈ e.elements) : t = e.phi ∨ t ∈ ts := by
  have hdep := ((h.coupled e.phi h.mem t).mp ht).1
  -- what the phi leads to is come past, or it is no member
  have hclosed : g.DependsOn e.phi t ∧ (t ∈ e.elements → t = e.phi ∨ t ∈ ts) := by
    refine hdep.mem_of_closed (P := fun t => g.DependsOn e.phi t ∧ (t ∈ e.elements → t = e.phi ∨ t ∈ ts))
      ⟨.refl, fun _ => .inl rfl⟩ fun t ⟨hto, hpast⟩ u hu => ⟨ReflTransGen.tail hto hu, fun hmem => ?_⟩
    have hback := ((h.coupled u hmem e.phi).mp h.mem).1
    have ht : t ∈ e.elements := (h.coupled e.phi h.mem t).mpr ⟨hto, ReflTransGen.head hu hback⟩
    rcases hpast ht with rfl | hpast
    · rw [honly u hu hmem]
      exact hway.mem_start
    · exact hway.mem_operands hpast hu
  exact hclosed.2 ht

/-- The stride is what the members on that way add. -/
theorem sum_way (h : e.Found g) (honly : ∀ u ∈ g.operands e.phi, u ∈ e.elements → u = s)
    (hway : g.Way e.phi s ts) (hsub : ts ⊆ e.elements) : e.stride = (ts.map (gain g e.elements)).sum := by
  have hperm : (e.elements.filter (· != e.phi)).Perm ts := by
    refine (List.perm_ext_iff_of_nodup (h.nodup.filter _) hway.nodup).mpr fun t => ?_
    rw [List.mem_filter, bne_iff_ne]
    exact ⟨fun ⟨ht, ne⟩ => (h.mem_way honly hway ht).resolve_left ne, fun ht => ⟨hsub ht, hway.ne_of_mem ht⟩⟩
  rw [h.sum, (hperm.map _).sum_eq]

end StridePattern.Found

/-! ### The phi of a loop -/

namespace StridePattern

variable {e : StridePattern} {f : Func} {l : Loop} {header b c : Block} {p : Phi} {q r : BlockRef}
  {start top top' fr : Frame} {xs : List Instr} {t u : Temp} {k : Nat}

/-- A stride pattern of a phi of the header of a loop that has one block in front and one latch; its other
members are local. -/
structure Governs (e : StridePattern) (f : Func) (l : Loop) (header : Block) (p : Phi) (r q : BlockRef) :
    Prop where
  headed : l.Headed f header
  found : e.Found (.ofBlocks (l.blocks f f.forest))
  locals : ∀ t ∈ e.elements, t ≠ e.phi → t.isGlobal = false
  outside : l.outsidePreds f f.forest = [r]
  latch : l.singleLatch? f f.forest = some q
  phi : p ∈ header.phis
  target : p.target = e.phi

/-- The pattern that is found governs the phi. -/
theorem governs_of_ofLoop (hf : f.verify = .ok ()) (hl : l ∈ f.forest.loops)
    (he : e ∈ (Recurrences.ofLoop f f.forest l).strides)
    (hlocal : ∀ t ∈ e.elements, t ≠ e.phi → t.isGlobal = false) (hh : f.linked? l.header = some header)
    (hr : l.outsidePreds f f.forest = [r]) (hq : l.singleLatch? f f.forest = some q) :
    ∃ p, e.Governs f l header p r q := by
  unfold Recurrences.ofLoop at he
  rw [hh] at he
  obtain ⟨hfound, p, hp, htarget⟩ := Recurrences.found_of_ofPhis he
  have hroot := Loop.isRoot_eq_false (Loop.outsidePreds_eq_singleton hr).1.2
  exact ⟨p, ⟨hf, hl, hroot, hh⟩, hfound, hlocal, hr, hq, hp, htarget⟩

namespace Governs

/-- Each other member is what an instruction adds to a member. -/
theorem exists_adds (h : e.Governs f l header p r q) (ht : t ∈ e.elements) (ne : t ≠ e.phi) :
    ∃ d ∈ f.blocks, ∃ x ∈ d.instrs, ∃ u ∈ e.elements, x.write = some t ∧
      (UseGraph.ofBlocks (l.blocks f f.forest)).definition? t = some x ∧
      x.AddsTo u (gain (.ofBlocks (l.blocks f f.forest)) e.elements t) := by
  obtain ⟨x, u, hu, hx, adds⟩ := h.found.steps t ht ne
  obtain ⟨⟨id, y⟩, hsite, rfl⟩ := Option.map_eq_some_iff.mp hx
  have hw : y.write = some t := by simpa using List.find?_some hsite
  have hplain := plainJumps_of_wellLinked h.headed.linked h.headed.notRoot
  obtain ⟨d, hd, -, ⟨o, -, rfl, -⟩ | hy⟩ := UseGraph.mem_writes_of_site hplain
    (List.mem_reverse.mp (List.mem_of_find?_eq_some hsite)) hw
  · cases adds
  · exact ⟨d, (Loop.mem_blocks.mp hd).1, y, hy, u, hu, hw, hx, adds⟩

theorem mem_writes (h : e.Governs f l header p r q) (ht : t ∈ e.elements) : t ∈ writesOf f.blocks := by
  by_cases ne : t = e.phi
  · exact List.mem_flatMap.mpr
      ⟨header, h.headed.mem_func, List.mem_append_left _ (ne ▸ h.target ▸ List.mem_map_of_mem h.phi)⟩
  · obtain ⟨d, hd, x, hx, -, -, hw, -⟩ := h.exists_adds ht ne
    exact List.mem_flatMap.mpr ⟨d, hd, List.mem_append_right _ (List.mem_filterMap.mpr ⟨x, hx, hw⟩)⟩

/-- No other phi is a member. -/
theorem notMem_phis (h : e.Governs f l header p r q) (hc : c ∈ f.blocks) (hne : c ≠ header)
    (ht : t ∈ e.elements) : t ∉ c.phis.map (·.target) := by
  intro hmem
  have hf := h.headed.verified
  by_cases ne : t = e.phi
  · exact hne (Func.eq_of_mem_writes hf hc h.headed.mem_func (List.mem_append_left _ hmem)
      (List.mem_append_left _ (ne ▸ h.target ▸ List.mem_map_of_mem h.phi)))
  · obtain ⟨o, ho, rfl⟩ := List.mem_map.mp hmem
    obtain ⟨d, hd, x, hx, -, -, hw, -⟩ := h.exists_adds ht ne
    exact Func.phi_notMem_instrs hf hc ho hd (List.mem_filterMap.mpr ⟨x, hx, hw⟩)

/-- Where the phi starts from its own recurrence, no run comes to the header: nothing has given a member a
value, and each of them is computed from another one. -/
theorem lookup_eq_none (h : e.Governs f l header p r q) (hu : u ∈ e.elements)
    (hstart : p.incoming? r.label = some (.temp u)) (hentry : f.entry ≠ header) (hs : f.Stands b xs fr) :
    ¬ (f.flow false).Dominates header.id b.id ∧ ∀ t ∈ e.elements, fr.lookup t = none := by
  have hl := h.headed
  have hf := hl.verified
  have hblocks := List.ne_nil_of_mem hl.mem_func
  have hsame : ∀ {c : Block}, c ∈ f.blocks → header.id = c.id → c = header :=
    fun hc e => Func.eq_of_id_eq hl.linked.nodup hc hl.mem_func e.symm
  induction hs with
  | start args =>
    refine ⟨fun hdom => hentry ?_, fun t ht => Func.lookup_frameOf_eq_none hf args (h.mem_writes ht)⟩
    exact hsame (Func.entry_mem hblocks) (hdom.antisymm (Func.dominates_entry hdom.reaches_left))
  | @exec b x xs fr fr' call m m' before runs ih =>
    obtain ⟨hdom, hnone⟩ := ih
    obtain ⟨⟨hb, -⟩, hsuffix⟩ := before.reached hf hblocks
    refine ⟨hdom, fun t ht => ?_⟩
    by_cases hw : x.write = some t
    · have hx : x ∈ b.instrs := hsuffix.subset List.mem_cons_self
      have ne : t ≠ e.phi := by
        rintro rfl
        exact Func.phi_notMem_instrs hf hl.mem_func h.phi hb (h.target ▸ List.mem_filterMap.mpr ⟨x, hx, hw⟩)
      obtain ⟨d, hd, y, hy, v, hv, hyw, -, adds⟩ := h.exists_adds ht ne
      obtain rfl := Func.eq_of_writes hf hb hd hx hy hw hyw
      rw [adds.gives_exec hw runs, hnone v hv, Option.map_none]
    · rw [Instr.lookup_of_gives_exec runs hw, hnone t ht]
  | @jump b c fr fr' j before leaves next enters ih =>
    obtain ⟨hdom, hnone⟩ := ih
    obtain ⟨⟨hb, hreached⟩, -⟩ := before.reached hf hblocks
    obtain ⟨hc, hlabel⟩ := Func.labelled?_mem next
    have hsucc := hl.linked.mem_succ_of_leave hb leaves hc hlabel
    have hne : c ≠ header := by
      rintro rfl
      obtain ⟨v, ls, hv, hread, -⟩ := Block.read_of_enter (Func.phi_targets_nodup hf hc) h.phi enters
      rcases hl.label_of_prev h.outside h.latch hb ((hl.formed.mutual_links b hb c hc).mp hsucc) with e | ⟨-, hdom'⟩
      · -- from the block outside, the phi has nothing to take in
        rw [e, hstart] at hv
        obtain rfl := Option.some.inj hv
        simp [Frame.read, hnone u hu] at hread
      · exact hdom hdom'
    refine ⟨fun hdom' => hdom ?_, fun t ht => ?_⟩
    · exact hdom'.of_edge (fun e => hne (hsame hc e.symm)) (Func.reached_iff.mp hreached)
        (edge_of_mem_succ hsucc hb)
    · rw [Block.lookup_of_enter enters (h.notMem_phis hc hne ht), hnone t ht]

/-- In a loop that is executed, the phi does not start from its own recurrence. -/
theorem notMem_start (h : e.Governs f l header p r q) (hexec : f.Execution f.forest l header r start k top)
    (hstart : p.incoming? r.label = some (.temp u)) : u ∉ e.elements := by
  intro hu
  have hl := h.headed
  obtain ⟨⟨hr, hout⟩, -⟩ := Loop.outsidePreds_eq_singleton h.outside
  obtain ⟨b, fr, hs, -, hreached, rfl, -, enters⟩ := hexec.exists_stands hl
  -- the run does not start in the header, which would make the block in front part of the loop
  have hentry : f.entry ≠ header := by
    intro he
    have hdom := Func.dominates_entry (Func.reached_iff.mp hreached)
    rw [hl.contains_of_dominates hr (he ▸ hdom)] at hout
    cases hout
  obtain ⟨v, ls, hv, hread, -⟩ :=
    Block.read_of_enter (Func.phi_targets_nodup hl.verified hl.mem_func) h.phi enters
  obtain rfl := Option.some.inj (hv.symm.trans hstart)
  simp [Frame.read, (h.lookup_eq_none hu hstart hentry hs).2 u hu] at hread

/-- What the latch brings is the only member that the phi takes in. -/
theorem exists_next (h : e.Governs f l header p r q) (hexec : f.Execution f.forest l header r start k top) :
    ∃ u ∈ e.elements, p.incoming? q.label = some (.temp u) ∧
      ∀ w ∈ (UseGraph.ofBlocks (l.blocks f f.forest)).operands e.phi, w ∈ e.elements → w = u := by
  have hl := h.headed
  have hdef : (UseGraph.ofBlocks (l.blocks f f.forest)).definition? p.target = some (.phi p) :=
    UseGraph.definition?_phi hl.verified (fun b hb => (Loop.mem_blocks.mp hb).1)
      (plainJumps_of_wellLinked hl.linked hl.notRoot) hl.header_mem h.phi
  obtain ⟨hnodup, hlabels⟩ := hl.formed.phis header hl.mem_func p h.phi
  have hlatch : ∀ w ∈ (UseGraph.ofBlocks (l.blocks f f.forest)).operands e.phi, w ∈ e.elements →
      p.incoming? q.label = some (.temp w) := by
    intro w hw hmem
    rw [UseGraph.operands, ← h.target, hdef] at hw
    obtain ⟨v, hv, hvw⟩ := List.mem_filterMap.mp (List.mem_of_mem_filter hw)
    obtain rfl : v = .temp w := by cases v <;> simp_all [Value.temp?]
    obtain ⟨⟨v, j⟩, hin, rfl⟩ := List.mem_map.mp hv
    have hincoming := Phi.incoming?_of_mem hnodup hin
    obtain ⟨s, hs, rfl⟩ := List.mem_map.mp ((hlabels j).mp (List.mem_map.mpr ⟨_, hin, rfl⟩))
    obtain ⟨b, hb, rfl, -⟩ := hl.linked.prev header hl.mem_func s hs
    rcases hl.label_of_prev h.outside h.latch hb hs with e | ⟨e, -⟩
    · exact absurd hmem (h.notMem_start hexec (e ▸ hincoming))
    · exact e ▸ hincoming
  obtain ⟨u, hu, hop⟩ := h.found.returns
  refine ⟨u, hu, hlatch u hop hu, fun w hw hmem => ?_⟩
  simpa [hlatch u hop hu] using (hlatch w hw hmem).symm

/-- On the way from a member that is defined where the latch ends, everything is ahead of the phi. -/
theorem ahead_of_way (h : e.Governs f l header p r q) (hexec : f.Execution f.forest l header r start k top)
    (hdom : (f.flow false).Dominates header.id b.id) {ts : List Temp}
    (hway : (UseGraph.ofBlocks (l.blocks f f.forest)).Way e.phi t ts) (hsub : ts ⊆ e.elements)
    (ht : t = e.phi ∨ ∀ d ∈ f.blocks, t ∈ d.writes → (f.flow false).Dominates d.id b.id) :
    f.Ahead header e.phi t (ts.map (gain (.ofBlocks (l.blocks f f.forest)) e.elements)).sum := by
  have hl := h.headed
  induction hway with
  | here => exact .self
  | @step y t u ts ne definition reads rest ih =>
    obtain ⟨hmem, hsub⟩ := List.cons_subset.mp hsub
    obtain ⟨d, hd, x, hx, v, hv, hw, hdef, adds⟩ := h.exists_adds hmem ne
    obtain rfl := Option.some.inj (hdef.symm.trans definition)
    obtain rfl := List.singleton_inj.mp (adds.readTemps.symm.trans reads)
    -- the block of the addition is on every path to the latch
    have hdb := ht.resolve_left ne d hd (List.mem_append_right _ (List.mem_filterMap.mpr ⟨x, hx, hw⟩))
    have hdreached : f.Reached d := Func.reached_iff.mpr hdb.reaches_left
    rw [List.map_cons, List.sum_cons, Int.add_comm]
    by_cases hv' : v = e.phi
    · subst hv'
      refine .step hd hx hw adds (.inr ⟨rfl, ?_⟩) (ih hsub (.inl rfl))
      exact hexec.onEveryPath hl hd h.phi hx hw (h.target ▸ adds) hdom hdb
    · have hlocal := h.locals v hv hv'
      obtain ⟨pos, hpos⟩ := List.getElem?_of_mem hx
      refine .step hd hx hw adds (.inl hlocal) (ih hsub (.inr fun c hc hvc => ?_))
      exact ((Func.definedAt_of_reads hl.formed hd hdreached hpos (by simp [adds.readTemps]) hlocal).dominates
        hl.verified hd hdreached hc hvc).trans hdb

/-- Where the latch ends, what it brings to the phi is ahead of it by the stride. -/
theorem lookup_next (h : e.Governs f l header p r q) (hexec : f.Execution f.forest l header r start k top)
    (hiter : f.Iteration f.forest l header top b [] fr) (leaves : b.leave fr = .ok (.jump l.header.label)) :
    ∃ u, p.incoming? b.label = some (.temp u) ∧ fr.lookup u = (top.lookup e.phi).map (Lanes.plus e.stride) := by
  have hl := h.headed
  have hb := hiter.mem_func hl
  have hreached := hiter.reached hl
  have href := hiter.ref_eq_latch hl leaves h.latch
  obtain ⟨d, hd, hdref, hprev, hdom⟩ := hl.exists_latch h.latch
  obtain rfl := Func.eq_of_id_eq hl.linked.nodup hd hb (congrArg BlockRef.number (hdref.trans href.symm))
  obtain ⟨u, hu, hincoming, honly⟩ := h.exists_next hexec
  rw [← hdref] at hincoming
  obtain ⟨ts, hway, hsub⟩ := h.found.exists_way hu
  have hahead := h.ahead_of_way hexec hdom hway hsub (or_iff_not_imp_left.mpr fun ne c hc huc =>
    (hl.definedAt_incoming h.phi hd hprev hreached hincoming (h.locals u hu ne)).dominates
      hl.verified hd hreached hc huc)
  rw [← h.found.sum_way honly hway hsub, ← h.target] at hahead
  refine ⟨u, hincoming, ?_⟩
  rw [← h.target]
  exact hiter.lookup_incoming hl h.phi hprev hincoming (fun ne => h.locals u hu (h.target ▸ ne)) hahead

end Governs

/-- In every execution of a loop, each jump back brings to the phi the value that it had in the round, moved on
by the stride. -/
theorem advances_throughout (hf : f.verify = .ok ()) (hl : l ∈ f.forest.loops)
    (he : e ∈ (Recurrences.ofLoop f f.forest l).strides)
    (hlocal : ∀ t ∈ e.elements, t ≠ e.phi → t.isGlobal = false) (hh : f.linked? l.header = some header)
    (hr : l.outsidePreds f f.forest = [r]) (hq : l.singleLatch? f f.forest = some q)
    (hexec : f.Execution f.forest l header r start k top) (hiter : f.Iteration f.forest l header top b [] fr)
    (leaves : b.leave fr = .ok (.jump l.header.label)) (enters : header.enter fr (some b.label) = .ok top') :
    ∃ ls, top.lookup e.phi = some ls ∧ top'.lookup e.phi = some (Lanes.plus e.stride ls) := by
  obtain ⟨p, h⟩ := governs_of_ofLoop hf hl he hlocal hh hr hq
  obtain ⟨u, hincoming, hnext⟩ := h.lookup_next hexec hiter leaves
  obtain ⟨v, ls, hv, hread, hback⟩ :=
    Block.read_of_enter (Func.phi_targets_nodup hf h.headed.mem_func) h.phi enters
  obtain rfl := Option.some.inj (hv.symm.trans hincoming)
  rw [h.target] at hback
  cases htop : top.lookup e.phi with
  | none => simp [Frame.read, hnext, htop] at hread
  | some ls' =>
    simp only [Frame.read, hnext, htop, Option.map_some, Except.ok.injEq] at hread
    exact ⟨ls', rfl, hread ▸ hback⟩

/-- Counts up by five and down by two. -/
def zigzag : Func :=
  let i : Temp := .ofLocal "i" .i32
  let up : Temp := .ofLocal "up" .i32
  let next : Temp := .ofLocal "next" .i32
  let cond : Temp := .ofLocal "cond" .i32
  { total := 5
    name := "zigzag"
    retTy := .i32
    params := []
    blocks := [
      { Block.ofId 0 with succ := [.last 1], jump := some (.jump (.ofBlock 1)) },
      { Block.ofId 1 with
        prev := [.last 0, .last 3]
        succ := [.last 2, .last 4]
        phis := [.ofTarget i [(.int 0, .ofBlock 0), (.temp next, .ofBlock 3)]]
        instrs := [.comp cond .icmp .slt .i32 (.temp i) (.int 9)]
        jump := some (.branch .i32 (.temp cond) (.ofBlock 2) (.ofBlock 4)) },
      { Block.ofId 2 with
        prev := [.last 1]
        succ := [.last 3]
        instrs := [.arith up .add .i32 (.int 5) (.temp i)]
        jump := some (.jump (.ofBlock 3)) },
      { Block.ofId 3 with
        prev := [.last 2]
        succ := [.last 1]
        instrs := [.arith next .sub .i32 (.temp up) (.int 2)]
        jump := some (.jump (.ofBlock 1)) },
      { Block.ofId 4 with prev := [.last 1], jump := some (.ret (some (.temp i))) }] }

/-- Its second jump back, with a recurrence of three temporaries. -/
theorem advances_zigzag : ∃ l ∈ zigzag.forest.loops, ∃ e ∈ (Recurrences.ofLoop zigzag zigzag.forest l).strides,
    e.elements.length = 3 ∧ e.stride = 3 ∧ ∃ top top' : Frame, top.lookup e.phi = some [.int 3] ∧
      ∃ ls, top.lookup e.phi = some ls ∧ top'.lookup e.phi = some (Lanes.plus e.stride ls) := by
  let f := zigzag
  have h : (f.forest.loops.any fun l => l.outsidePreds f f.forest == [f.entry.ref] &&
      (l.singleLatch? f f.forest).isSome && (Recurrences.ofLoop f f.forest l).strides.any fun e =>
        e.elements.length == 3 && e.stride == 3 && (e.elements.all fun t => t == e.phi || !t.isGlobal) &&
        (f.linked? l.header).any fun header => (Func.Execution.momentAfter f l header [] 11).any fun s =>
          s.top.lookup e.phi == some [.int 3] &&
          (Func.Execution.advance f l header s).any fun s' => s'.visit != s.visit) = true := by decide +kernel
  simp only [List.any_eq_true, List.all_eq_true, Option.any_eq_true, Bool.and_eq_true, Bool.or_eq_true,
    beq_iff_eq, bne_iff_ne, Bool.not_eq_true'] at h
  obtain ⟨l, hl, ⟨hr, hlatch⟩, e, he, ⟨⟨hlength, hstride⟩, hlocal⟩, header, hh, s, hs, htop, s', hs', hvisit⟩ := h
  obtain ⟨q, hq⟩ := Option.isSome_iff_exists.mp hlatch
  obtain ⟨hrest, leaves, enters⟩ := Func.Execution.back_of_advance hs' hvisit
  obtain ⟨hexec, hiter⟩ := Func.Execution.comesTo_momentAfter hs
  exact ⟨l, hl, e, he, hlength, hstride, s.top, s'.top, htop,
    advances_throughout (by decide +kernel) hl he (fun t ht => (hlocal t ht).resolve_left) hh hr hq hexec
      (hrest ▸ hiter) leaves enters⟩

/-! ### Members that stand still -/

/-- Where a member of the recurrence is global, not every round has to come past it: the second jump back brings
the value that the phi has already. -/
theorem lags : Induction.stalling.verify = .ok () ∧ ∃ l ∈ Induction.stalling.forest.loops, ∃ header q,
    Induction.stalling.linked? l.header = some header ∧
    l.singleLatch? Induction.stalling Induction.stalling.forest = some q ∧
    l.outsidePreds Induction.stalling Induction.stalling.forest = [Induction.stalling.entry.ref] ∧
    ∃ e ∈ (Recurrences.ofLoop Induction.stalling Induction.stalling.forest l).strides, ∃ start k top b fr top',
      Induction.stalling.Execution Induction.stalling.forest l header Induction.stalling.entry.ref start k top ∧
      Induction.stalling.Iteration Induction.stalling.forest l header top b [] fr ∧
      b.leave fr = .ok (.jump l.header.label) ∧ header.enter fr (some b.label) = .ok top' ∧
      ¬ ∃ ls, top.lookup e.phi = some ls ∧ top'.lookup e.phi = some (Lanes.plus e.stride ls) := by
  let f := Induction.stalling
  have h : (f.forest.loops.any fun l => l.outsidePreds f f.forest == [f.entry.ref] &&
      (l.singleLatch? f f.forest).isSome && (Recurrences.ofLoop f f.forest l).strides.any fun e =>
        e.stride == 1 && (f.linked? l.header).any fun header =>
          (Func.Execution.momentAfter f l header [] 15).any fun s => s.top.lookup e.phi == some [.int 1] &&
            (Func.Execution.advance f l header s).any fun s' => s'.visit != s.visit &&
              s'.top.lookup e.phi == some [.int 1]) = true := by decide +kernel
  simp only [List.any_eq_true, Option.any_eq_true, Bool.and_eq_true, beq_iff_eq, bne_iff_ne] at h
  obtain ⟨l, hl, ⟨hr, hlatch⟩, e, he, hstride, header, hh, s, hs, htop, s', hs', hvisit, htop'⟩ := h
  obtain ⟨q, hq⟩ := Option.isSome_iff_exists.mp hlatch
  obtain ⟨hrest, leaves, enters⟩ := Func.Execution.back_of_advance hs' hvisit
  obtain ⟨hexec, hiter⟩ := Func.Execution.comesTo_momentAfter hs
  refine ⟨by decide +kernel, l, hl, header, q, hh, hq, hr, e, he, _, s.visit, s.top, s.block, s.frame, s'.top,
    hexec, hrest ▸ hiter, leaves, enters, ?_⟩
  rintro ⟨ls, hls, hback⟩
  obtain rfl := Option.some.inj (htop.symm.trans hls)
  rw [htop', hstride] at hback
  exact absurd hback (by decide)

/-! ### A loop that a run starts in -/

/-- The block that enters this loop is not reached, and brings the phi to itself. -/
def drifting : Func :=
  let s : Temp := .ofLocal "s" .i32
  let y : Temp := .ofLocal "y" .i32
  { total := 3
    name := "drifting"
    retTy := .void
    params := []
    blocks := [
      { Block.ofId 0 with
        prev := [.last 1, .last 2]
        succ := [.last 1]
        phis := [.ofTarget s [(.temp y, .ofBlock 1), (.temp s, .ofBlock 2)]]
        instrs := [.call y .i32 "next" []]
        jump := some (.jump (.ofBlock 1)) },
      { Block.ofId 1 with prev := [.last 0], succ := [.last 0], jump := some (.jump (.ofBlock 0)) },
      { Block.ofId 2 with succ := [.last 0], jump := some (.jump (.ofBlock 0)) }] }

/-- The phi is a recurrence of its own, of stride 0, while the latch brings whatever was called for. -/
theorem drifts : drifting.verify = .ok () ∧ ∃ l ∈ drifting.forest.loops, ∃ q r,
    l.singleLatch? drifting drifting.forest = some q ∧ l.outsidePreds drifting drifting.forest = [r] ∧
    ∃ e ∈ (Recurrences.ofLoop drifting drifting.forest l).strides, (∀ t ∈ e.elements, t.isGlobal = false) ∧
    ∃ header b top fr top', drifting.linked? l.header = some header ∧ drifting.Stands header header.instrs top ∧
      drifting.Iteration drifting.forest l header top b [] fr ∧ b.leave fr = .ok (.jump l.header.label) ∧
      header.enter fr (some b.label) = .ok top' ∧
      ¬ ∃ ls, top.lookup e.phi = some ls ∧ top'.lookup e.phi = some (Lanes.plus e.stride ls) := by
  let f := drifting
  let s : Temp := .ofLocal "s" .i32
  let y : Temp := .ofLocal "y" .i32
  let back : Block := { Block.ofId 1 with prev := [.last 0], succ := [.last 0], jump := some (.jump (.ofBlock 0)) }
  have h : (f.forest.loops.any fun l => l.singleLatch? f f.forest == some (.last 1) &&
      l.outsidePreds f f.forest == [.last 2] && l.header == .last 0 && f.forest.contains l 1 &&
      (Recurrences.ofLoop f f.forest l).strides.any fun e => e.phi == s && e.stride == 0 &&
        e.elements.all fun t => !t.isGlobal) = true := by decide +kernel
  simp only [List.any_eq_true, List.all_eq_true, Bool.and_eq_true, beq_iff_eq, Bool.not_eq_true'] at h
  obtain ⟨l, hl, ⟨⟨⟨hq, hr⟩, hheader⟩, hin⟩, e, he, ⟨hphi, hstride⟩, hlocal⟩ := h
  have hnext : f.labelled? (.ofBlock 1) = some back := by decide +kernel
  have hnext' : f.labelled? (.ofBlock 0) = some f.entry := by decide +kernel
  have hother : back.id ≠ l.header.number := by
    rw [hheader]
    decide
  -- one round, with an answer of the call
  have calls : ∀ (v : Int32) (top : Frame), Gives ((Instr.call y .i32 "next" []).exec
      (fun _ _ => pure (some (.int v))) top) default (setEntry y [.int v] top) default := fun _ _ => rfl
  have enters : ∀ (v : Int32) (top : Frame), f.entry.enter (setEntry y [.int v] top) (some back.label) =
      .ok (setEntry s [.int v] (setEntry y [.int v] top)) := by
    intro v top
    have hread : Frame.read (setEntry y [.int v] top) (.temp y) = .ok [.int v] := Frame.read_setEntry_self ..
    have hin : (Phi.ofTarget s [(.temp y, .ofBlock 1), (.temp s, .ofBlock 2)]).incoming? back.label =
        some (.temp y) := by decide +kernel
    have hphis : f.entry.phiValues (setEntry y [.int v] top) back.label = .ok [(s, [.int v])] :=
      Block.phiValues_eq_ok.mpr (.cons ⟨rfl, _, hin, hread⟩ .nil)
    rw [Block.enter, hphis]
    rfl
  have round : ∀ (v : Int32) (top : Frame),
      f.Iteration f.forest l f.entry top back [] (setEntry y [.int v] top) :=
    fun v top => .jump (.exec .start (calls v top)) rfl hnext hin hother rfl
  have first : f.Stands back [] (setEntry y [.int 0] []) := .jump (.exec (.start []) (calls 0 [])) rfl hnext rfl
  refine ⟨by decide +kernel, l, hl, _, _, hq, hr, e, he, hlocal, f.entry, back, _, _, _, hheader ▸ rfl,
    .jump first rfl hnext' (enters 0 []), round 1 _, by rw [hheader]; rfl, enters 1 _, ?_⟩
  rintro ⟨ls, hls, hback⟩
  rw [hphi, lookup_setEntry_self] at hls hback
  obtain rfl := Option.some.inj hls
  rw [hstride] at hback
  exact absurd hback (by decide)

end StridePattern

end LoopLanes
