/-
Widening block by block.

The blocks of a region keep their places and their jumps.  Their instructions are widened one after the
other (`foldl_widenBlock`); lanes that phis of other blocks take in are laid out at their ends
(`Spreading`); and folding partial results touches nothing of them but the way out of the header
(`foldPartials_region`).  `Widened` puts the three together.
-/
import Mathlib.Logic.Function.Basic
import LoopLanes.Proofs.Cfg.Edits
import LoopLanes.Proofs.Widen.Steps

namespace LoopLanes

namespace LaneInfo

variable {i : LaneInfo} {f g : Func} {n m n' : TempCounter} {b : Block} {r s : BlockRef}

/-! ### Instructions -/

/-- What is emitted for the instructions of a block, with the counter as it is left. -/
def emitted (i : LaneInfo) (m : TempCounter) (b : Block) : WidenState :=
  ((b.instrs.forM (Widening.instr i)).run ⟨m, [], []⟩).2

theorem widenBlock_of_linked? (h : f.linked? r = some b) :
    i.widenBlock f n r =
      (f.modify r fun c => { c with instrs := (i.emitted n b).out }, (i.emitted n b).temps) := by
  unfold widenBlock
  rw [h]
  rfl

theorem widenBlock_of_none (h : f.linked? r = none) : i.widenBlock f n r = (f, n) := by
  unfold widenBlock
  rw [h]

/-- Instructions only compute. -/
def Plain (f : Func) (r : BlockRef) : Prop := ∀ b, f.linked? r = some b → ∀ x ∈ b.instrs, x.isPlain = true

theorem le_emitted (b : Block) (m : TempCounter) : m ≤ (i.emitted m b).temps :=
  Widening.le_temps_forM b.instrs ⟨m, [], []⟩

/-- The blocks after widening the instructions of some of them. -/
theorem foldl_widenBlock : ∀ {rs : List BlockRef} {f : Func} {n : TempCounter}, rs.Nodup →
    n ≤ (rs.foldl (fun (f, n) r => i.widenBlock f n r) (f, n)).2 ∧
      (rs.foldl (fun (f, n) r => i.widenBlock f n r) (f, n)).1.blocks.map Block.ref =
        f.blocks.map Block.ref ∧
      ∀ r b, f.linked? r = some b →
        (r ∉ rs → (rs.foldl (fun (f, n) r => i.widenBlock f n r) (f, n)).1.linked? r = some b) ∧
        (r ∈ rs → ∃ m, n ≤ m ∧
          (i.emitted m b).temps ≤ (rs.foldl (fun (f, n) r => i.widenBlock f n r) (f, n)).2 ∧
          (rs.foldl (fun (f, n) r => i.widenBlock f n r) (f, n)).1.linked? r =
            some { b with instrs := (i.emitted m b).out }) := by
  intro rs
  induction rs with
  | nil => exact fun _ => ⟨Nat.le_refl _, rfl, fun r b hb => ⟨fun _ => hb, by simp⟩⟩
  | cons s rs ih =>
    intro f n hnodup
    obtain ⟨hs, hnodup⟩ := List.nodup_cons.mp hnodup
    simp only [List.foldl_cons]
    cases hc : f.linked? s with
    | none =>
      rw [widenBlock_of_none hc]
      obtain ⟨hle, hrefs, hblocks⟩ := ih (n := n) hnodup
      refine ⟨hle, hrefs, fun r b hb => ⟨fun hr => (hblocks r b hb).1 ?_, fun hr => ?_⟩⟩
      · exact fun h => hr (List.mem_cons_of_mem _ h)
      · refine (hblocks r b hb).2 ((List.mem_cons.mp hr).resolve_left ?_)
        rintro rfl
        rw [hc] at hb
        cases hb
    | some c =>
      rw [widenBlock_of_linked? hc]
      have hlinked : ∀ r, (f.modify s fun b => { b with instrs := (i.emitted n c).out }).linked? r =
          if r = s then (f.linked? r).map fun b => { b with instrs := (i.emitted n c).out }
          else f.linked? r := fun r => Func.linked?_modify fun _ => rfl
      obtain ⟨hle, hrefs, hblocks⟩ := ih (n := (i.emitted n c).temps)
        (f := f.modify s fun b => { b with instrs := (i.emitted n c).out }) hnodup
      have hstep := le_emitted (i := i) c n
      refine ⟨Nat.le_trans hstep hle, hrefs.trans (Func.map_ref_modify fun _ => rfl),
        fun r b hb => ?_⟩
      by_cases e : r = s
      · subst e
        obtain rfl : c = b := Option.some.inj (hc.symm.trans hb)
        have hb' : (f.modify r fun b => { b with instrs := (i.emitted n c).out }).linked? r =
            some { c with instrs := (i.emitted n c).out } := by
          rw [hlinked, if_pos rfl, hc]
          rfl
        exact ⟨fun hr => absurd List.mem_cons_self hr,
          fun _ => ⟨n, Nat.le_refl _, hle, (hblocks r _ hb').1 hs⟩⟩
      · have hb' : (f.modify s fun b => { b with instrs := (i.emitted n c).out }).linked? r =
            some b := by
          rw [hlinked, if_neg e, hb]
        obtain ⟨hout, hin⟩ := hblocks r b hb'
        refine ⟨fun hr => hout fun h => hr (List.mem_cons_of_mem _ h), fun hr => ?_⟩
        obtain ⟨m, hm, hm', hr⟩ := hin ((List.mem_cons.mp hr).resolve_left e)
        exact ⟨m, Nat.le_trans hstep hm, hm', hr⟩

end LaneInfo

/-! ### Phis -/

/-- Lanes laid out at the end of a block: the name they are stored under, and what is laid out. -/
structure Spread where
  name : Temp
  source : Temp
  stride : Int

/-- The instruction that lays out lanes. -/
def Spread.instr (width : Nat) (s : Spread) : Instr :=
  .ladder s.name s.source.ty (.temp s.source) s.stride width

namespace LaneInfo

variable {i : LaneInfo} {f g : Func} {n m n' : TempCounter} {b : Block} {r s : BlockRef}
  {tails tails' : Label → List Spread} {phis : BlockRef → List Phi} {e e' : Value × Label}
  {p p' : Phi}

/-- A phi of the region, the header apart, takes in a temporary from a label. -/
def TakenIn (i : LaneInfo) (f : Func) (t : Temp) (l : Label) : Prop :=
  ∃ r ∈ i.region.blocks, r.number ≠ i.region.header.number ∧
    ∃ b, f.linked? r = some b ∧ ∃ p ∈ b.phis, (Value.temp t, l) ∈ p.incoming

/-- A function with lanes laid out at the ends of its blocks, and with other phis. -/
structure Spreading (i : LaneInfo) (f : Func) (n : TempCounter) (tails : Label → List Spread)
    (phis : BlockRef → List Phi) (g : Func) (m : TempCounter) : Prop where
  refs : g.blocks.map Block.ref = f.blocks.map Block.ref
  block : ∀ r b, f.linked? r = some b → g.linked? r = some { b with
    phis := phis r, instrs := b.instrs ++ (tails r.label).map (Spread.instr i.width) }
  nodup : ∀ l, ((tails l).map Spread.name).Nodup
  fresh : ∀ l, ∀ s ∈ tails l, s.name.Fresh n m
  strided : ∀ l, ∀ s ∈ tails l, i.shapeOf s.source = .strided s.stride
  taken : ∀ l, ∀ s ∈ tails l, i.TakenIn f s.source l
  le : n ≤ m
  apart : ∀ k, ∀ s ∈ tails k, ∀ l, ∀ u ∈ tails l, s.name = u.name → k = l
  locals : ∀ l, ∀ s ∈ tails l, s.name.isGlobal = false

/-- An entry of a phi that varies, widened: what is strided is replaced by its lanes. -/
def EntryWidened (i : LaneInfo) (f : Func) (tails : Label → List Spread) (e e' : Value × Label) : Prop :=
  e'.2 = e.2 ∧
    ((∃ s ∈ tails e.2, e.1 = .temp s.source ∧ e'.1 = .temp s.name) ∨
      e'.1 = e.1 ∧ ((∃ b ∈ f.blocks, b.label = e.2) →
        ∀ t stride, e.1 = .temp t → i.shapeOf t ≠ .strided stride))

/-- A phi, widened if it varies. -/
def PhiWidened (i : LaneInfo) (f : Func) (tails : Label → List Spread) (p p' : Phi) : Prop :=
  if (i.shapeOf p.target).isVector then
    p'.target = p.target ∧ p'.ty = p.ty ∧ List.Forall₂ (i.EntryWidened f tails) p.incoming p'.incoming
  else p' = p

theorem EntryWidened.mono (h : i.EntryWidened f tails e e') (hsub : ∀ l, tails l ⊆ tails' l) :
    i.EntryWidened f tails' e e' := by
  obtain ⟨hlabel, ⟨s, hs, hv⟩ | h⟩ := h
  · exact ⟨hlabel, .inl ⟨s, hsub _ hs, hv⟩⟩
  · exact ⟨hlabel, .inr h⟩

theorem PhiWidened.mono (h : i.PhiWidened f tails p p') (hsub : ∀ l, tails l ⊆ tails' l) :
    i.PhiWidened f tails' p p' := by
  unfold PhiWidened at h ⊢
  split at h
  · rw [if_pos ‹_›]
    exact ⟨h.1, h.2.1, h.2.2.imp fun _ _ he => he.mono hsub⟩
  · rw [if_neg ‹_›]
    exact h

namespace Spreading

theorem refl (f : Func) (n : TempCounter) :
    Spreading i f n (fun _ => []) (fun r => ((f.linked? r).map Block.phis).getD []) f n := by
  refine ⟨rfl, fun r b hb => ?_, by simp, by simp, by simp, by simp, Nat.le_refl n, by simp, by simp⟩
  simp [hb]

/-- A block is found under its label as it is in the function at hand. -/
theorem ref_eq (hf : (f.blocks.map Block.id).Nodup) (h : Spreading i f n tails phis g m) {c : Block}
    (hc : g.labelled? r.label = some c) (hb : f.linked? r = some b) : c.ref = r := by
  obtain ⟨hmem, rfl⟩ := Func.linked?_mem hb
  have hcref : c.ref ∈ f.blocks.map Block.ref := by
    rw [← h.refs]
    exact List.mem_map_of_mem (List.mem_of_find?_eq_some hc)
  obtain ⟨d, hd, hdref⟩ := List.mem_map.mp hcref
  have hlabel : c.ref.label = b.ref.label := by simpa [Block.label] using List.find?_some hc
  rw [← hdref, Func.eq_of_id_eq hf hd hmem ?_]
  rw [Block.id, hdref]
  exact Label.ofBlock_injective hlabel

/-- Lanes are laid out at the end of one more block. -/
theorem spread (hf : (f.blocks.map Block.id).Nodup) (h : Spreading i f n tails phis g m) {l : Label} {c : Block} {t : Temp}
    {stride : Int} (hc : g.labelled? l = some c) (hshape : i.shapeOf t = .strided stride)
    (htaken : i.TakenIn f t l) :
    let s : Spread := ⟨⟨toString (m + 1), false, t.ty⟩, t, stride⟩
    Spreading i f n (Function.update tails l (tails l ++ [s])) phis
      (g.modify c.ref fun b => { b with instrs := b.instrs ++ [s.instr i.width] }) (m + 1) := by
  intro s
  have hfresh : s.name.Fresh m (m + 1) := ⟨m + 1, Nat.lt_succ_self m, Nat.le_refl _, rfl⟩
  have hlabel : c.ref.label = l := by simpa [Block.label] using List.find?_some hc
  -- what holds of all lanes laid out so far, and of the new ones, holds of all
  have hall : ∀ P : Label → Spread → Prop, (∀ k, ∀ u ∈ tails k, P k u) → P l s →
      ∀ k, ∀ u ∈ Function.update tails l (tails l ++ [s]) k, P k u := by
    intro P hP hs k u hu
    by_cases e : k = l
    · subst e
      rw [Function.update_self] at hu
      rcases List.mem_append.mp hu with hu | hu
      · exact hP k u hu
      · rw [List.mem_singleton.mp hu]
        exact hs
    · rw [Function.update_of_ne e] at hu
      exact hP k u hu
  refine ⟨h.refs ▸ Func.map_ref_modify fun _ => rfl, fun r b hb => ?_, fun k => ?_,
    hall _ (fun k u hu => (h.fresh k u hu).mono (Nat.le_succ m)) ?_, hall _ h.strided hshape,
    hall _ h.taken htaken, Nat.le_trans h.le (Nat.le_succ m), ?_, hall _ h.locals rfl⟩
  · refine Eq.trans (Func.linked?_modify ?_) ?_
    · exact fun _ => rfl
    rw [h.block r b hb]
    by_cases e : r = c.ref
    · rw [if_pos e, e, hlabel, Function.update_self]
      simp
    · have hne : r.label ≠ l := by
        rintro rfl
        exact e (h.ref_eq hf hc hb).symm
      rw [if_neg e, Function.update_of_ne hne]
  · by_cases e : k = l
    · subst e
      rw [Function.update_self, List.map_append, List.nodup_append]
      refine ⟨h.nodup k, by simp, ?_⟩
      intro u hu v hv
      obtain ⟨w, hw, rfl⟩ := List.mem_map.mp hu
      rw [List.mem_singleton.mp hv]
      exact (h.fresh k w hw).ne_of_fresh hfresh
    · rw [Function.update_of_ne e]
      exact h.nodup k
  · exact ⟨m + 1, Nat.lt_succ_of_le h.le, Nat.le_refl _, rfl⟩
  · -- the new name is none of those before
    have hold : ∀ k, ∀ u ∈ tails k, s.name ≠ u.name := fun k u hu => ((h.fresh k u hu).ne_of_fresh hfresh).symm
    refine hall _ (fun k u hu => hall _ (fun k' v hv e => h.apart k u hu k' v hv e) fun e => absurd e.symm (hold k u hu))
      (hall _ (fun k v hv e => absurd e (hold k v hv)) fun _ => rfl)

theorem entry (hf : (f.blocks.map Block.id).Nodup) (h : Spreading i f n tails phis g m)
    (htaken : ∀ t, e.1 = .temp t → i.TakenIn f t e.2) :
    ∃ tails', (∀ l, tails l ⊆ tails' l) ∧
      Spreading i f n tails' phis (i.widenEntry g m e).2.1 (i.widenEntry g m e).2.2 ∧
      i.EntryWidened f tails' e (i.widenEntry g m e).1 := by
  obtain ⟨v, l⟩ := e
  cases v with
  | temp t =>
    cases hc : g.labelled? l with
    | none =>
      refine ⟨tails, fun l => List.Subset.refl _, ?_, ?_⟩
      · simpa only [widenEntry, hc] using h
      · simp only [widenEntry, hc]
        refine ⟨rfl, .inr ⟨rfl, ?_⟩⟩
        rintro ⟨b, hb, rfl⟩
        have : b.ref ∈ g.blocks.map Block.ref := h.refs ▸ List.mem_map_of_mem hb
        obtain ⟨d, hd, hdref⟩ := List.mem_map.mp this
        have := List.find?_eq_none.mp hc d hd
        simp [Block.label, hdref] at this
    | some c =>
      by_cases hstrided : ∃ stride, i.shapeOf t = .strided stride
      · obtain ⟨stride, hshape⟩ := hstrided
        refine ⟨Function.update tails l (tails l ++ [⟨⟨toString (m + 1), false, t.ty⟩, t, stride⟩]),
          fun k => ?_, ?_, ?_⟩
        · by_cases e : k = l
          · subst e
            rw [Function.update_self]
            exact List.subset_append_left _ _
          · rw [Function.update_of_ne e]
            exact List.Subset.refl _
        · simp only [widenEntry, hc, hshape]
          exact h.spread hf hc hshape (htaken t rfl)
        · simp only [widenEntry, hc, hshape]
          refine ⟨rfl, .inl ⟨⟨⟨toString (m + 1), false, t.ty⟩, t, stride⟩, ?_, rfl, rfl⟩⟩
          rw [Function.update_self]
          exact List.mem_append_right _ List.mem_cons_self
      · have hsame : i.widenEntry g m (.temp t, l) = ((.temp t, l), g, m) := by
          simp only [widenEntry, hc]
          split
          · exact absurd ⟨_, ‹_›⟩ hstrided
          · rfl
        rw [hsame]
        refine ⟨tails, fun l => List.Subset.refl _, h, rfl, .inr ⟨rfl, fun _ u stride hu => ?_⟩⟩
        cases hu
        exact fun e => hstrided ⟨stride, e⟩
  | _ =>
    exact ⟨tails, fun l => List.Subset.refl _, h, rfl, .inr ⟨rfl, fun _ t _ ht => by cases ht⟩⟩

theorem entries (hf : (f.blocks.map Block.id).Nodup) : ∀ {es : List (Value × Label)} {tails : Label → List Spread}
    {g : Func} {m : TempCounter}, Spreading i f n tails phis g m →
    (∀ e ∈ es, ∀ t, e.1 = .temp t → i.TakenIn f t e.2) →
    ∃ tails', (∀ l, tails l ⊆ tails' l) ∧
      Spreading i f n tails' phis (i.widenEntries es g m).2.1 (i.widenEntries es g m).2.2 ∧
      List.Forall₂ (i.EntryWidened f tails') es (i.widenEntries es g m).1 := by
  intro es
  induction es with
  | nil => exact fun h _ => ⟨_, fun l => List.Subset.refl _, h, .nil⟩
  | cons e es ih =>
    intro tails g m h htaken
    obtain ⟨he, htaken⟩ := List.forall_mem_cons.mp htaken
    obtain ⟨tails₁, hsub₁, h₁, hentry⟩ := h.entry hf he
    obtain ⟨tails₂, hsub₂, h₂, hentries⟩ := ih h₁ htaken
    exact ⟨tails₂, fun l => List.Subset.trans (hsub₁ l) (hsub₂ l), h₂,
      .cons (hentry.mono hsub₂) hentries⟩

theorem phiList (hf : (f.blocks.map Block.id).Nodup) : ∀ {ps : List Phi} {tails : Label → List Spread}
    {g : Func} {m : TempCounter}, Spreading i f n tails phis g m →
    (∀ p ∈ ps, ∀ e ∈ p.incoming, ∀ t, e.1 = .temp t → i.TakenIn f t e.2) →
    ∃ tails', (∀ l, tails l ⊆ tails' l) ∧
      Spreading i f n tails' phis (i.widenPhis ps g m).2.1 (i.widenPhis ps g m).2.2 ∧
      List.Forall₂ (i.PhiWidened f tails') ps (i.widenPhis ps g m).1 := by
  intro ps
  induction ps with
  | nil => exact fun h _ => ⟨_, fun l => List.Subset.refl _, h, .nil⟩
  | cons p ps ih =>
    intro tails g m h htaken
    obtain ⟨hp, htaken⟩ := List.forall_mem_cons.mp htaken
    simp only [widenPhis]
    by_cases hvec : (i.shapeOf p.target).isVector = true
    · rw [if_pos hvec]
      obtain ⟨tails₁, hsub₁, h₁, hentries⟩ := h.entries hf hp
      obtain ⟨tails₂, hsub₂, h₂, hphis⟩ := ih h₁ htaken
      refine ⟨tails₂, fun l => List.Subset.trans (hsub₁ l) (hsub₂ l), h₂, .cons ?_ hphis⟩
      rw [PhiWidened, if_pos hvec]
      exact ⟨rfl, rfl, hentries.imp fun _ _ he => he.mono hsub₂⟩
    · rw [if_neg hvec]
      obtain ⟨tails₁, hsub₁, h₁, hphis⟩ := ih h htaken
      refine ⟨tails₁, hsub₁, h₁, .cons ?_ hphis⟩
      rw [PhiWidened, if_neg hvec]

theorem blockPhis (hf : (f.blocks.map Block.id).Nodup) (h : Spreading i f n tails phis g m)
    (hr : r ∈ i.region.blocks) (hphis : ∀ b, f.linked? r = some b → phis r = b.phis) :
    ∃ tails' ps, (∀ l, tails l ⊆ tails' l) ∧
      Spreading i f n tails' (Function.update phis r ps) (i.widenBlockPhis g m r).1
        (i.widenBlockPhis g m r).2 ∧
      ∀ b, f.linked? r = some b →
        if r.number = i.region.header.number then ps = b.phis
        else List.Forall₂ (i.PhiWidened f tails') b.phis ps := by
  unfold widenBlockPhis
  by_cases hheader : r.number = i.region.header.number
  · rw [if_pos hheader]
    refine ⟨tails, phis r, fun l => List.Subset.refl _, ?_, fun b hb => ?_⟩
    · rwa [Function.update_eq_self]
    · rw [if_pos hheader]
      exact hphis b hb
  rw [if_neg hheader]
  cases hb : f.linked? r with
  | none =>
    have hnone : g.linked? r = none := by
      rw [← Option.not_isSome_iff_eq_none, Func.linked?_isSome_iff, h.refs,
        ← Func.linked?_isSome_iff, hb]
      simp
    rw [hnone]
    refine ⟨tails, phis r, fun l => List.Subset.refl _, ?_, by simp⟩
    rwa [Function.update_eq_self]
  | some b =>
    have hphis := hphis b hb
    rw [h.block r b hb]
    simp only
    have htaken : ∀ p ∈ phis r, ∀ e ∈ p.incoming, ∀ t, e.1 = .temp t → i.TakenIn f t e.2 := by
      rintro p hp ⟨v, l⟩ he t rfl
      exact ⟨r, hr, hheader, b, hb, p, hphis ▸ hp, he⟩
    obtain ⟨tails', hsub, h', hwidened⟩ := h.phiList hf htaken
    refine ⟨tails', (i.widenPhis (phis r) g m).1, hsub, ⟨?_, fun s c hc => ?_, h'.nodup, h'.fresh, h'.strided, h'.taken, h'.le,
      h'.apart, h'.locals⟩,
      fun c hc => ?_⟩
    · rw [← h'.refs]
      exact Func.map_ref_modify fun _ => rfl
    · refine Eq.trans (Func.linked?_modify ?_) ?_
      · exact fun _ => rfl
      rw [h'.block s c hc]
      by_cases e : s = r
      · subst e
        rw [if_pos rfl, Function.update_self]
        rfl
      · rw [if_neg e, Function.update_of_ne e]
    · obtain rfl := Option.some.inj hc
      rw [if_neg hheader, ← hphis]
      exact hwidened

/-- The phis after widening them block by block. -/
theorem foldl (hf : (f.blocks.map Block.id).Nodup) : ∀ {rs : List BlockRef} {tails : Label → List Spread}
    {phis : BlockRef → List Phi} {g : Func} {m : TempCounter}, rs.Nodup →
    rs ⊆ i.region.blocks → Spreading i f n tails phis g m →
    (∀ r ∈ rs, ∀ b, f.linked? r = some b → phis r = b.phis) →
    ∃ tails' phis', (∀ l, tails l ⊆ tails' l) ∧
      Spreading i f n tails' phis' (rs.foldl (fun (g, m) r => i.widenBlockPhis g m r) (g, m)).1
        (rs.foldl (fun (g, m) r => i.widenBlockPhis g m r) (g, m)).2 ∧
      (∀ r, r ∉ rs → phis' r = phis r) ∧
      ∀ r ∈ rs, ∀ b, f.linked? r = some b →
        if r.number = i.region.header.number then phis' r = b.phis
        else List.Forall₂ (i.PhiWidened f tails') b.phis (phis' r) := by
  intro rs
  induction rs with
  | nil => exact fun _ _ h _ => ⟨_, _, fun l => List.Subset.refl _, h, fun _ _ => rfl, by simp⟩
  | cons s rs ih =>
    intro tails phis g m hnodup hregion h hphis
    obtain ⟨hs, hnodup⟩ := List.nodup_cons.mp hnodup
    obtain ⟨hsr, hregion⟩ := List.cons_subset.mp hregion
    obtain ⟨hphiss, hphis⟩ := List.forall_mem_cons.mp hphis
    obtain ⟨tails₁, ps, hsub₁, h₁, hwidened⟩ := h.blockPhis hf hsr hphiss
    have hne : ∀ r ∈ rs, r ≠ s := by
      rintro r hr rfl
      exact hs hr
    obtain ⟨tails₂, phis₂, hsub₂, h₂, hsame, hall⟩ := ih hnodup hregion h₁ fun r hr b hb => by
      rw [Function.update_of_ne (hne r hr)]
      exact hphis r hr b hb
    refine ⟨tails₂, phis₂, fun l => List.Subset.trans (hsub₁ l) (hsub₂ l), h₂, fun r hr => ?_, ?_⟩
    · obtain ⟨hrs, hr⟩ := not_or.mp (List.mem_cons.not.mp hr)
      rw [hsame r hr, Function.update_of_ne hrs]
    · refine List.forall_mem_cons.mpr ⟨fun b hb => ?_, hall⟩
      have := hwidened b hb
      rw [hsame s hs, Function.update_self]
      split
      · rwa [if_pos ‹_›] at this
      · rw [if_neg ‹_›] at this
        exact this.imp fun _ _ hp => hp.mono hsub₂

end Spreading

end LaneInfo

/-! ### Partial results -/

theorem Phi.renameLabels_id (p : Phi) : p.renameLabels id = p := by
  simp [Phi.renameLabels]

theorem Instr.renameLabels_id (x : Instr) : x.renameLabels id = x := by
  induction x with
  | phi p => exact congrArg Instr.phi p.renameLabels_id
  | vec width mask inner ih => exact congrArg (Instr.vec width mask) ih
  | _ => rfl

theorem Instr.renameLabels_renameLabels (ρ ρ' : Label → Label) (x : Instr) :
    (x.renameLabels ρ).renameLabels ρ' = x.renameLabels (ρ' ∘ ρ) := by
  induction x with
  | phi p => simp [Instr.renameLabels, Phi.renameLabels]
  | vec width mask inner ih => exact congrArg (Instr.vec width mask) ih
  | _ => rfl

namespace LaneInfo

variable {i : LaneInfo} {f g g' g'' : Func} {n m n' m' : TempCounter} {b b' b'' : Block} {r : BlockRef}
  {u : Block → Block}

/-- A block of the region keeps its instructions and its ways within the region, and unless it is the
header, also its phis. -/
structure BlockKept (i : LaneInfo) (b b' : Block) : Prop where
  ref : b'.ref = b.ref
  instrs : b'.instrs = b.instrs
  phis : b.id ≠ i.region.header.number → b'.phis = b.phis
  jump : ∃ ρ : Label → Label, b'.jump = b.jump.map (·.renameLabels ρ) ∧
    ∀ r ∈ i.region.blocks, ρ r.label = r.label

theorem BlockKept.refl (i : LaneInfo) (b : Block) : i.BlockKept b b :=
  ⟨rfl, rfl, fun _ => rfl, id, by cases b.jump <;> simp [Instr.renameLabels_id], fun _ _ => rfl⟩

theorem BlockKept.trans (h : i.BlockKept b b') (h' : i.BlockKept b' b'') : i.BlockKept b b'' := by
  obtain ⟨ρ, hjump, hρ⟩ := h.jump
  obtain ⟨ρ', hjump', hρ'⟩ := h'.jump
  have hid : b'.id = b.id := congrArg BlockRef.number h.ref
  refine ⟨h'.ref.trans h.ref, h'.instrs.trans h.instrs,
    fun hb => (h'.phis (hid ▸ hb)).trans (h.phis hb), ρ' ∘ ρ, ?_, fun r hr => ?_⟩
  · rw [hjump', hjump, Option.map_map]
    congr 1
    funext x
    exact x.renameLabels_renameLabels ρ ρ'
  · rw [Function.comp, hρ r hr, hρ' r hr]

/-- The blocks of the region are kept, and all blocks keep their places. -/
structure RegionKept (i : LaneInfo) (g g' : Func) : Prop where
  refs : g'.blocks.map Block.ref = g.blocks.map Block.ref
  block : ∀ r ∈ i.region.blocks, ∀ b, g.linked? r = some b →
    ∃ b', g'.linked? r = some b' ∧ i.BlockKept b b'

namespace RegionKept

theorem refl (i : LaneInfo) (g : Func) : i.RegionKept g g :=
  ⟨rfl, fun _ _ b hb => ⟨b, hb, .refl i b⟩⟩

theorem trans (h : i.RegionKept g g') (h' : i.RegionKept g' g'') : i.RegionKept g g'' := by
  refine ⟨h'.refs.trans h.refs, fun r hr b hb => ?_⟩
  obtain ⟨b', hb', hkept⟩ := h.block r hr b hb
  obtain ⟨b'', hb'', hkept'⟩ := h'.block r hr b' hb'
  exact ⟨b'', hb'', hkept.trans hkept'⟩

theorem modify (g : Func) (href : ∀ b, (u b).ref = b.ref)
    (h : r ∈ i.region.blocks → ∀ b, b.ref = r → i.BlockKept b (u b)) :
    i.RegionKept g (g.modify r u) := by
  refine ⟨Func.map_ref_modify href, fun s hs b hb => ?_⟩
  rw [Func.linked?_modify href]
  by_cases e : s = r
  · subst e
    rw [if_pos rfl, hb]
    exact ⟨u b, rfl, h hs b (Func.linked?_mem hb).2⟩
  · rw [if_neg e]
    exact ⟨b, hb, .refl i b⟩

/-- What stands outside the region may change. -/
theorem modify_outside (g : Func) (href : ∀ b, (u b).ref = b.ref)
    (h : i.region.contains r.number = false) : i.RegionKept g (g.modify r u) := by
  refine modify g href fun hr => ?_
  simp only [Region.contains, List.any_eq_false, beq_iff_eq] at h
  exact absurd rfl (h r hr)

theorem foldl_modify : ∀ {rs : List BlockRef} (g : Func), (∀ b, (u b).ref = b.ref) →
    (∀ r ∈ rs, i.region.contains r.number = false) →
    i.RegionKept g (rs.foldl (fun g r => g.modify r u) g) := by
  intro rs
  induction rs with
  | nil => exact fun g _ _ => refl i g
  | cons r rs ih =>
    intro g href h
    obtain ⟨hr, h⟩ := List.forall_mem_cons.mp h
    exact (modify_outside g href hr).trans (ih _ href h)

end RegionKept

/-- Seeding the lanes of a header phi. -/
theorem add_region {site : FoldSite} {s s' : FoldState} {t : Temp} {kind : RedKind}
    (h : site.add s t kind = .ok s') (hheader : site.header = i.region.header)
    (hentering : i.region.contains site.entering.number = false) :
    i.RegionKept s.func s'.func ∧ s.temps ≤ s'.temps := by
  unfold FoldSite.add at h
  cases hid : kind.identity? t.ty with
  | none => simp [hid] at h
  | some identity =>
    cases hop : kind.arithOp? t.ty with
    | none => simp [hid, hop] at h
    | some op =>
      simp only [hid, hop] at h
      obtain rfl := pure_eq_ok.mp h
      refine ⟨RegionKept.trans (RegionKept.modify_outside _ ?_ hentering)
        (RegionKept.modify _ ?_ fun _ b hb => ?_), ?_⟩
      · exact fun _ => rfl
      · exact fun _ => rfl
      · refine ⟨rfl, rfl, fun hne => absurd ?_ hne, (BlockKept.refl i b).jump⟩
        rw [Block.id, hb, hheader]
      · exact Nat.le_trans (Nat.le_succ _) (Nat.le_succ _)

theorem foldlM_add_region {header entering : BlockRef} {width : Nat}
    (hheader : header = i.region.header) (hentering : i.region.contains entering.number = false) :
    ∀ {phis : List (Temp × RedKind)} {s s' : FoldState},
    phis.foldlM (fun s (t, k) => FoldSite.add ⟨header, entering, width⟩ s t k) s = .ok s' →
    i.RegionKept s.func s'.func ∧ s.temps ≤ s'.temps := by
  intro phis
  induction phis with
  | nil =>
    intro s s' h
    obtain rfl := pure_eq_ok.mp h
    exact ⟨.refl i _, Nat.le_refl _⟩
  | cons p phis ih =>
    intro s s' h
    obtain ⟨s₁, h₁, h⟩ := bind_eq_ok.mp h
    obtain ⟨hkept₁, hle₁⟩ := add_region h₁ hheader hentering
    obtain ⟨hkept, hle⟩ := ih h
    exact ⟨hkept₁.trans hkept, Nat.le_trans hle₁ hle⟩

/-- A block put behind the region does not hide its blocks. -/
theorem labelled?_behind (hnodup : (g.blocks.map Block.id).Nodup) (hr : r ∈ i.region.blocks)
    (hb : g.linked? r = some b) (fold : Block) :
    let last := (i.region.blocks.filterMap fun r => g.position? r.number).max?
    let place := (last.map (· + 1)).getD g.blocks.length
    ∃ b', (Func.resolveLinks { g with blocks := g.blocks.insertIdx place fold }).1.labelled?
        r.label = some b' ∧ b'.clearLinks = b.clearLinks := by
  intro last place
  obtain ⟨hmem, rfl⟩ := Func.linked?_mem hb
  obtain ⟨j, hj⟩ : ∃ j, g.position? b.ref.number = some j := by
    refine Option.isSome_iff_exists.mp ?_
    rw [Func.position?, List.findIdx?_isSome, List.any_eq_true]
    exact ⟨b, hmem, by simp [Block.id]⟩
  obtain ⟨q, hq⟩ : ∃ q, (i.region.blocks.filterMap fun r => g.position? r.number).max? = some q := by
    refine Option.ne_none_iff_exists'.mp fun hnone => ?_
    have := List.max?_eq_none_iff.mp hnone
    have hjmem : j ∈ i.region.blocks.filterMap fun r => g.position? r.number :=
      List.mem_filterMap.mpr ⟨_, hr, hj⟩
    rw [this] at hjmem
    cases hjmem
  have hle : j ≤ q := (List.max?_eq_some_iff.mp hq).2 j (List.mem_filterMap.mpr ⟨_, hr, hj⟩)
  have hplace : place = q + 1 := by simp [place, last, hq]
  rw [hplace]
  refine Option.map_eq_some_iff.mp ?_
  rw [Func.labelled?_resolveLinks, Func.labelled?_insertIdx hj (Nat.lt_succ_of_le hle),
    Func.labelled?_of_linked? hnodup hb]
  rfl

theorem BlockKept.of_clearLinks (h : i.BlockKept b b') (he : b''.clearLinks = b'.clearLinks) :
    i.BlockKept b b'' := by
  obtain ⟨href, hphis, hinstrs, hjump, -⟩ : b''.ref = b'.ref ∧ b''.phis = b'.phis ∧
      b''.instrs = b'.instrs ∧ b''.jump = b'.jump ∧ b''.hints = b'.hints := by
    simpa [Block.clearLinks] using he
  exact ⟨href.trans h.ref, hinstrs.trans h.instrs, fun hb => hphis.trans (h.phis hb), hjump ▸ h.jump⟩

/-- Folding partial results leaves the region as it is, but for the phis of the header and the way
out of it. -/
theorem foldPartials_region {phis : List (Temp × RedKind)} {outside : List BlockRef}
    (h : i.foldPartials g m phis outside = .ok (g', m'))
    (hnodup : (g.blocks.map Block.id).Nodup)
    (hout : ∀ r ∈ outside, i.region.contains r.number = false) :
    m ≤ m' ∧ ∀ r ∈ i.region.blocks, ∀ b, g.linked? r = some b →
      ∃ b', g'.labelled? r.label = some b' ∧ i.BlockKept b b' := by
  unfold foldPartials at h
  simp only [Func.newBlockId] at h
  split at h
  rotate_left
  · cases h
  rename_i entering hentering
  split at h
  rotate_left
  · cases h
  rename_i exit hexit
  have hentering : i.region.contains entering.number = false := by
    simpa using List.find?_some hentering
  have hexit : i.region.contains exit.number = false := by simpa using List.find?_some hexit
  obtain ⟨s, hs, h⟩ := bind_eq_ok.mp h
  obtain ⟨hkept, hle⟩ := foldlM_add_region rfl hentering hs
  -- the way out of the header is renamed, and blocks outside are changed
  have hheader : i.RegionKept s.func (s.func.modify i.region.header
      (·.renameTargets (Func.renameOne exit.label (Label.ofBlock (g.total + 1))))) := by
    refine .modify _ ?_ fun _ b _ => ⟨rfl, rfl, fun _ => rfl, _, rfl, fun r hr => if_neg ?_⟩
    · exact fun _ => rfl
    · simp only [beq_iff_eq]
      intro e
      have hr : i.region.contains r.number = true :=
        List.any_eq_true.mpr ⟨r, hr, by simp⟩
      rw [Label.ofBlock_injective e, hexit] at hr
      cases hr
  have hexits := RegionKept.modify_outside (i := i)
    (u := (·.renameIncoming (Func.renameOne i.region.header.label (Label.ofBlock (g.total + 1)))))
    (s.func.modify i.region.header
      (·.renameTargets (Func.renameOne exit.label (Label.ofBlock (g.total + 1)))))
    (fun _ => rfl) hexit
  have hreads := RegionKept.foldl_modify (i := i)
    (u := substBlock fun t => List.lookup t s.results.reverse)
    ((s.func.modify i.region.header
      (·.renameTargets (Func.renameOne exit.label (Label.ofBlock (g.total + 1))))).modify exit
      (·.renameIncoming (Func.renameOne i.region.header.label (Label.ofBlock (g.total + 1)))))
    (fun _ => rfl) hout
  have hkept := hkept.trans (hheader.trans (hexits.trans hreads))
  generalize List.foldl _ _ outside = placed at h hkept
  split at h
  · cases h
  rename_i resolved hresolved
  obtain ⟨rfl, rfl⟩ := Prod.mk.inj (pure_eq_ok.mp h)
  refine ⟨hle, fun r hr b hb => ?_⟩
  obtain ⟨c, hc, hbc⟩ := hkept.block r hr b hb
  obtain ⟨c', hc', hcc⟩ := labelled?_behind (i := i)
    (Func.nodup_ids_of_refs hkept.refs hnodup) hr hc
    { Block.ofId (g.total + 1) with instrs := s.folds, jump := some (.jump exit.label) }
  exact ⟨c', congrArg (fun q => q.1.labelled? r.label) hresolved ▸ hc', hbc.of_clearLinks hcc⟩

/-! ### Regions -/

/-- What becomes of the blocks of a region. -/
structure Widened (i : LaneInfo) (f f' : Func) (n n' : TempCounter) (tails : Label → List Spread) :
    Prop where
  block : ∀ r ∈ i.region.blocks, ∀ b, f.linked? r = some b → ∃ b', f'.labelled? r.label = some b' ∧
    b'.ref = r ∧
    (∃ m, n ≤ m ∧ (i.emitted m b).temps ≤ n' ∧
      b'.instrs = (i.emitted m b).out ++ (tails r.label).map (Spread.instr i.width)) ∧
    (r.number ≠ i.region.header.number → List.Forall₂ (i.PhiWidened f tails) b.phis b'.phis) ∧
    ∃ ρ : Label → Label, b'.jump = b.jump.map (·.renameLabels ρ) ∧
      ∀ s ∈ i.region.blocks, ρ s.label = s.label
  nodup : ∀ l, ((tails l).map Spread.name).Nodup
  fresh : ∀ l, ∀ s ∈ tails l, s.name.Fresh n n'
  strided : ∀ l, ∀ s ∈ tails l, i.shapeOf s.source = .strided s.stride
  taken : ∀ l, ∀ s ∈ tails l, i.TakenIn f s.source l
  le : n ≤ n'

variable {tails : Label → List Spread}

/-- Phis are widened alike in functions with the same blocks. -/
theorem PhiWidened.congr {p p' : Phi} (h : i.PhiWidened g tails p p')
    (hrefs : g.blocks.map Block.ref = f.blocks.map Block.ref) : i.PhiWidened f tails p p' := by
  unfold PhiWidened at h ⊢
  split at h
  · rw [if_pos ‹_›]
    refine ⟨h.1, h.2.1, h.2.2.imp fun e e' he => ⟨he.1, he.2.imp_right fun he => ⟨he.1, fun hl => he.2 ?_⟩⟩⟩
    obtain ⟨b, hb, hl⟩ := hl
    have : b.ref ∈ g.blocks.map Block.ref := hrefs ▸ List.mem_map_of_mem hb
    obtain ⟨c, hc, hcref⟩ := List.mem_map.mp this
    exact ⟨c, hc, by rw [Block.label, hcref]; exact hl⟩
  · rw [if_neg ‹_›]
    exact h

theorem TakenIn.congr {t : Temp} {l : Label} (h : i.TakenIn g t l)
    (hphis : ∀ r b', g.linked? r = some b' → ∃ b, f.linked? r = some b ∧ b'.phis = b.phis) :
    i.TakenIn f t l := by
  obtain ⟨r, hr, hne, b', hb', p, hp, he⟩ := h
  obtain ⟨b, hb, hsame⟩ := hphis r b' hb'
  exact ⟨r, hr, hne, b, hb, p, hsame ▸ hp, he⟩

theorem not_contains_outside (i : LaneInfo) : ∀ r ∈ (f.blocks.filter fun b => !i.region.contains b.id).map Block.ref,
    i.region.contains r.number = false := by
  intro r hr
  obtain ⟨b, hb, rfl⟩ := List.mem_map.mp hr
  simpa [Block.id] using (List.mem_filter.mp hb).2

/-- Widening succeeds where nothing that varies escapes.  It ends with the blocks as they are after their phis were
widened, or with partial results folded in addition. -/
theorem widen_eq_ok {f' : Func} (h : i.widen f n = .ok (f', n')) : ∃ p q : Func × TempCounter,
    i.region.blocks.foldl (fun (f, n) r => i.widenBlock f n r) (f, n) = p ∧
      i.region.blocks.foldl (fun (f, n) r => i.widenBlockPhis f n r) (p.1, p.2) = q ∧
      i.escaping? (f.blocks.filter fun b => !i.region.contains b.id) = none ∧
      (((f.linked? i.region.header).map i.partials).getD [] = [] ∧ q = (f', n') ∨
        i.foldPartials q.1 q.2 (((f.linked? i.region.header).map i.partials).getD [])
          ((f.blocks.filter fun b => !i.region.contains b.id).map Block.ref) = .ok (f', n')) := by
  refine ⟨_, _, rfl, rfl, ?_⟩
  unfold widen at h
  simp only [bind, Except.bind] at h
  split at h
  · cases h
  rename_i hescape
  refine ⟨Option.eq_none_iff_forall_ne_some.mpr hescape, ?_⟩
  split at h
  · exact .inl ⟨List.isEmpty_iff.mp ‹_›, pure_eq_ok.mp h⟩
  · exact .inr h

/-- What widening makes of the blocks of a region. -/
theorem exists_widened (hf : (f.blocks.map Block.id).Nodup) (hnodup : i.region.blocks.Nodup) {f' : Func}
    (h : i.widen f n = .ok (f', n')) :
    ∃ tails, Widened i f f' n n' tails := by
  obtain ⟨p, q, hp, hq, -, hend⟩ := widen_eq_ok h
  obtain ⟨hle, hrefs, hblocks⟩ := foldl_widenBlock (i := i) (f := f) (n := n) hnodup
  rw [hp] at hle hrefs hblocks
  have hids : (p.1.blocks.map Block.id).Nodup := Func.nodup_ids_of_refs hrefs hf
  -- phis stay as they are while instructions are widened
  have hphis : ∀ r b', p.1.linked? r = some b' → ∃ b, f.linked? r = some b ∧ b'.phis = b.phis := by
    intro r b' hb'
    obtain ⟨b, hb⟩ : ∃ b, f.linked? r = some b := by
      refine Option.isSome_iff_exists.mp (Func.linked?_isSome_iff.mpr ?_)
      rw [← hrefs, ← Func.linked?_isSome_iff, hb']
      rfl
    refine ⟨b, hb, ?_⟩
    by_cases hr : r ∈ i.region.blocks
    · obtain ⟨m, -, -, hm⟩ := (hblocks r b hb).2 hr
      rw [Option.some.inj (hb'.symm.trans hm)]
    · rw [Option.some.inj (hb'.symm.trans ((hblocks r b hb).1 hr))]
  obtain ⟨tails, phis, -, hspread, -, hwidened⟩ := Spreading.foldl hids hnodup
    (List.Subset.refl _) (Spreading.refl (i := i) p.1 p.2) fun r _ b hb => by simp [hb]
  rw [hq] at hspread
  -- the blocks before partial results are folded
  have hregion : ∀ r ∈ i.region.blocks, ∀ b, f.linked? r = some b → ∃ c, q.1.linked? r = some c ∧
      c.ref = r ∧
      (∃ m, n ≤ m ∧ (i.emitted m b).temps ≤ q.2 ∧
        c.instrs = (i.emitted m b).out ++ (tails r.label).map (Spread.instr i.width)) ∧
      (r.number ≠ i.region.header.number → List.Forall₂ (i.PhiWidened f tails) b.phis c.phis) ∧
      c.jump = b.jump := by
    intro r hr b hb
    obtain ⟨m, hm, hm', hp⟩ := (hblocks r b hb).2 hr
    have hc := hspread.block r _ hp
    refine ⟨_, hc, (Func.linked?_mem hc).2, ⟨m, hm, Nat.le_trans hm' hspread.le, rfl⟩, fun hne => ?_,
      rfl⟩
    have := hwidened r hr _ hp
    rw [if_neg hne] at this
    exact this.imp fun _ _ hw => hw.congr hrefs
  have hfresh : ∀ l, ∀ s ∈ tails l, s.name.Fresh n q.2 := fun l s hs => by
    obtain ⟨k, hk, hk', hname⟩ := hspread.fresh l s hs
    exact ⟨k, Nat.lt_of_le_of_lt hle hk, hk', hname⟩
  have htaken : ∀ l, ∀ s ∈ tails l, i.TakenIn f s.source l := fun l s hs =>
    (hspread.taken l s hs).congr hphis
  have hle' : n ≤ q.2 := Nat.le_trans hle hspread.le
  have hidsq : (q.1.blocks.map Block.id).Nodup := Func.nodup_ids_of_refs hspread.refs hids
  rcases hend with ⟨-, rfl⟩ | hfold
  · refine ⟨tails, ⟨fun r hr b hb => ?_, hspread.nodup, hfresh, hspread.strided, htaken, hle'⟩⟩
    obtain ⟨c, hc, href, hinstrs, hphis, hjump⟩ := hregion r hr b hb
    refine ⟨c, Func.labelled?_of_linked? hidsq hc, href, hinstrs, hphis, id, ?_, fun _ _ => rfl⟩
    rw [hjump]
    cases b.jump <;> simp [Instr.renameLabels_id]
  · obtain ⟨hle'', hkept⟩ := foldPartials_region hfold hidsq i.not_contains_outside
    refine ⟨tails, ⟨fun r hr b hb => ?_, hspread.nodup,
      fun l s hs => (hfresh l s hs).mono hle'', hspread.strided, htaken, Nat.le_trans hle' hle''⟩⟩
    obtain ⟨c, hc, href, ⟨m, hm, hm', hinstrs⟩, hphis, hjump⟩ := hregion r hr b hb
    obtain ⟨b', hb', hk⟩ := hkept r hr c hc
    obtain ⟨ρ, hρ, hfix⟩ := hk.jump
    refine ⟨b', hb', hk.ref.trans href, ⟨m, hm, Nat.le_trans hm' hle'', hk.instrs.trans hinstrs⟩,
      fun hne => ?_, ρ, by rw [hρ, hjump], hfix⟩
    rw [hk.phis (by rw [Block.id, href]; exact hne)]
    exact hphis hne

end LaneInfo

end LoopLanes
