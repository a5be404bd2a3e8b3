/-
Bodies that are lined up.

Lining up a body puts instructions around those of its blocks: in front some that find the mask of a
block and some that select the values of its phis, and behind some that find the masks of its edges.
`Line` keeps these apart.

* `exists_stages` — the states that a block goes through;
* `run_block` — in the end it is its line;
* `run_blocks` — and so is every block of the body, each jumping to the next one.
-/
import Mathlib.Data.List.Infix
import LoopLanes.Proofs.Cfg.Edits
import LoopLanes.Proofs.Widen.Selections

namespace LoopLanes

/-- What becomes of a block that is lined up. -/
structure Line where
  block : Block
  /-- holds in the lanes that come to the block; none if all do -/
  mask : Option Value
  /-- finds the mask -/
  gathered : List Instr
  /-- selects the values of the phis -/
  selections : List Instr
  /-- finds the masks of the edges out of the block -/
  tests : List Instr

namespace Line

/-- The instructions of a line. -/
def instrs (width : Nat) (e : Line) : List Instr :=
  e.gathered ++ e.selections ++ e.block.instrs.map (·.under width e.mask) ++ e.tests

/-- The block that a line stands for, going on to another one if there is one. -/
def toBlock (width : Nat) (next : Option BlockRef) (e : Line) : Block :=
  { e.block with
    phis := []
    instrs := e.instrs width
    jump :=
      match next with
      | some n => some (.jump n.label)
      | none => e.block.jump }

end Line

namespace BodyPlan

/-- Lines up one block, and keeps apart what is added to it. -/
def line (p : BodyPlan) (b : Block) : Masking Line := do
  modify fun s => { s with out := [] }
  let mask ← p.maskOf b
  let gathered := (← get).out
  b.phis.forM (Masking.phi b.id)
  let selected := (← get).out
  b.instrs.forM fun i => Masking.emit (i.under p.width mask)
  let entered := (← get).out
  b.jump.forM (leave mask b.id)
  let out := (← get).out
  return ⟨b, mask, gathered, selected.drop gathered.length, out.drop entered.length⟩

variable {p : BodyPlan} {b : Block} {e : Line} {s s' : MaskState}

/-- The stages in which a block is lined up. -/
structure Stages (p : BodyPlan) (b : Block) (s : MaskState) (mask : Option Value) (s₁ s₂ s' : MaskState) : Prop where
  gather : (p.maskOf b).run { s with out := [] } = (mask, s₁)
  select : (b.phis.forM (Masking.phi b.id)).run s₁ = ((), s₂)
  go : (b.jump.forM (leave mask b.id)).run
    { s₂ with out := s₂.out ++ b.instrs.map (·.under p.width mask) } = ((), s')

theorem run_emits (g : Instr → Instr) : ∀ (is : List Instr) (s : MaskState),
    (is.forM fun i => Masking.emit (g i)).run s = ((), { s with out := s.out ++ is.map g }) := by
  intro is
  induction is with
  | nil =>
    intro s
    rw [List.map_nil, List.append_nil]
    rfl
  | cons i is ih =>
    intro s
    refine (Masking.run_bind (x := Masking.emit (g i)) (s := s) rfl).trans ?_
    rw [ih]
    simp

/-- A block that is lined up goes through its stages. -/
theorem exists_stages (p : BodyPlan) (b : Block) (s : MaskState) : ∃ mask s₁ s₂ s', Stages p b s mask s₁ s₂ s' ∧
    (p.line b).run s = (⟨b, mask, s₁.out, s₂.out.drop s₁.out.length,
      s'.out.drop (s₂.out ++ b.instrs.map (·.under p.width mask)).length⟩, s') ∧
    ∀ next, (p.block b next).run s = ({ b with
      phis := [], instrs := s'.out
      jump := match next with
        | some n => some (.jump n.label)
        | none => b.jump }, s') := by
  rcases hmask : (p.maskOf b).run { s with out := [] } with ⟨mask, s₁⟩
  rcases hphis : (b.phis.forM (Masking.phi b.id)).run s₁ with ⟨⟨⟩, s₂⟩
  have hinstrs := run_emits (·.under p.width mask) b.instrs s₂
  rcases hleave : (b.jump.forM (leave mask b.id)).run
    { s₂ with out := s₂.out ++ b.instrs.map (·.under p.width mask) } with ⟨⟨⟩, s'⟩
  refine ⟨mask, s₁, s₂, s', ⟨hmask, hphis, hleave⟩, ?_, fun next => ?_⟩
  · refine (Masking.run_bind (x := modify fun s => { s with out := [] }) rfl).trans ?_
    refine (Masking.run_bind hmask).trans ((Masking.run_bind (x := get) rfl).trans ?_)
    refine (Masking.run_bind hphis).trans ((Masking.run_bind (x := get) rfl).trans ?_)
    refine (Masking.run_bind hinstrs).trans ((Masking.run_bind (x := get) rfl).trans ?_)
    exact (Masking.run_bind hleave).trans rfl
  · refine (Masking.run_bind (x := modify fun s => { s with out := [] }) rfl).trans ?_
    refine (Masking.run_bind hmask).trans ?_
    refine (Masking.run_bind hphis).trans ?_
    refine (Masking.run_bind hinstrs).trans ?_
    exact (Masking.run_bind hleave).trans rfl

theorem grows_phis (b : Block) : Masking.Grows (b.phis.forM (Masking.phi b.id)) :=
  Masking.grows_forM (Masking.grows_phi b.id) b.phis

theorem grows_go (mask : Option Value) (b : Block) : Masking.Grows (b.jump.forM (leave mask b.id)) := by
  cases b.jump with
  | none => exact Masking.grows_pure ()
  | some j => exact Masking.grows_leave mask b.id j

theorem le_temps_line (h : (p.line b).run s = (e, s')) : s.temps ≤ s'.temps := by
  obtain ⟨mask, s₁, s₂, s'', hstages, hline, -⟩ := exists_stages p b s
  obtain ⟨-, rfl⟩ := Prod.mk.inj (h.symm.trans hline)
  have hgather := (Masking.grows_maskOf p b { s with out := [] }).1
  have hselect := (grows_phis b s₁).1
  have hgo := (grows_go mask b { s₂ with out := s₂.out ++ b.instrs.map (·.under p.width mask) }).1
  rw [hstages.gather] at hgather
  rw [hstages.select] at hselect
  rw [hstages.go] at hgo
  exact Nat.le_trans (Nat.le_trans hgather hselect) hgo

/-- A block becomes its line. -/
theorem run_block (next : Option BlockRef) (h : (p.line b).run s = (e, s')) :
    e.block = b ∧ (p.block b next).run s = (e.toBlock p.width next, s') := by
  obtain ⟨mask, s₁, s₂, s'', hstages, hline, hblock⟩ := exists_stages p b s
  obtain ⟨rfl, rfl⟩ := Prod.mk.inj (h.symm.trans hline)
  refine ⟨rfl, (hblock next).trans ?_⟩
  have hselect := (grows_phis b s₁).2
  rw [hstages.select] at hselect
  have hgo := (grows_go mask b { s₂ with out := s₂.out ++ b.instrs.map (·.under p.width mask) }).2
  rw [hstages.go] at hgo
  have hout : s'.out = s₁.out ++ s₂.out.drop s₁.out.length ++ b.instrs.map (·.under p.width mask) ++
      s'.out.drop (s₂.out ++ b.instrs.map (·.under p.width mask)).length := by
    rw [← List.prefix_append_drop hselect]
    exact List.prefix_append_drop hgo
  rw [Line.toBlock.eq_def, Line.instrs, ← hout]

/-- The body of a function, block by block. -/
def lines (p : BodyPlan) (bs : List Block) : Masking (List Line) := bs.mapM p.line

theorem run_lines_cons {bs : List Block} {es : List Line} {s s₁ s' : MaskState}
    (h : (p.line b).run s = (e, s₁)) (hs : (p.lines bs).run s₁ = (es, s')) :
    (p.lines (b :: bs)).run s = (e :: es, s') := by
  rw [lines, List.mapM_cons]
  refine (Masking.run_bind h).trans ?_
  exact (Masking.run_bind hs).trans rfl

theorem le_temps_lines : ∀ {bs : List Block} {es : List Line} {s s' : MaskState},
    (p.lines bs).run s = (es, s') → s.temps ≤ s'.temps := by
  intro bs
  induction bs with
  | nil =>
    intro es s s' h
    obtain ⟨-, rfl⟩ := Prod.mk.inj h
    exact Nat.le_refl _
  | cons b bs ih =>
    intro es s s' h
    rcases hline : (p.line b).run s with ⟨e, s₁⟩
    rcases hlines : (p.lines bs).run s₁ with ⟨es', s''⟩
    obtain ⟨-, rfl⟩ := Prod.mk.inj (h.symm.trans (run_lines_cons hline hlines))
    exact Nat.le_trans (le_temps_line hline) (ih hlines)

theorem ref_toBlock (width : Nat) (next : Option BlockRef) (e : Line) : (e.toBlock width next).ref = e.block.ref := by
  rw [Line.toBlock.eq_def]

/-- A body becomes its lines, each going on to the next one. -/
theorem run_blocks : ∀ {bs : List Block} {f : Func} {s s' : MaskState} {es : List Line},
    (∀ b ∈ bs, f.linked? b.ref = some b) → (bs.map Block.ref).Nodup → (p.lines bs).run s = (es, s') →
      es.map (·.block) = bs ∧ ∃ f', (p.blocks (bs.map Block.ref) f).run s = (f', s') ∧
        f'.blocks.map Block.ref = f.blocks.map Block.ref ∧
        (∀ r ∉ bs.map Block.ref, f'.linked? r = f.linked? r) ∧
        ∀ pre e post, es = pre ++ e :: post →
          f'.linked? e.block.ref = some (e.toBlock p.width (post.head?.map (·.block.ref))) := by
  intro bs
  induction bs with
  | nil =>
    intro f s s' es _ _ h
    obtain ⟨rfl, rfl⟩ := Prod.mk.inj h
    exact ⟨rfl, f, rfl, rfl, fun _ _ => rfl, by simp⟩
  | cons b bs ih =>
    intro f s s' es hlinked hnodup h
    obtain ⟨hb, hbs⟩ := List.forall_mem_cons.mp hlinked
    rw [List.map_cons] at hnodup ⊢
    obtain ⟨hnew, hdistinct⟩ := List.nodup_cons.mp hnodup
    rcases hline : (p.line b).run s with ⟨e, s₁⟩
    rcases hlines : (p.lines bs).run s₁ with ⟨es', s''⟩
    obtain ⟨rfl, rfl⟩ := Prod.mk.inj (h.symm.trans (run_lines_cons hline hlines))
    obtain ⟨rfl, hblock⟩ := run_block (bs.map Block.ref).head? hline
    -- the other blocks are as before
    generalize hc : e.toBlock p.width (bs.map Block.ref).head? = c at hblock
    have hcref : c.ref = e.block.ref := hc ▸ ref_toBlock _ _ e
    have hlook (r : BlockRef) := Func.linked?_modify_const (f := f) (s := r) hcref hb
    obtain ⟨hmap, f', hrun, hrefs, hrest, hplaced⟩ := ih (f := f.modify e.block.ref fun _ => c)
      (fun d hd => by
        have hne : d.ref ≠ e.block.ref := fun hr => hnew (hr ▸ List.mem_map_of_mem hd)
        rw [hlook, if_neg hne]
        exact hbs d hd) hdistinct hlines
    have hhead : (bs.map Block.ref).head? = es'.head?.map (·.block.ref) := by
      rw [← hmap, List.map_map, List.head?_map]
      rfl
    refine ⟨by rw [List.map_cons, hmap], f', ?_, ?_, fun r hr => ?_, fun pre e' post hes => ?_⟩
    · rw [blocks, hb]
      exact (Masking.run_bind hblock).trans hrun
    · rw [hrefs, Func.map_ref_modify_const hcref]
    · obtain ⟨hne, hr⟩ := not_or.mp (List.mem_cons.not.mp hr)
      rw [hrest r hr, hlook, if_neg hne]
    · rcases pre with _ | ⟨d, pre⟩
      · obtain ⟨rfl, rfl⟩ := List.cons_eq_cons.mp hes
        rw [hrest _ hnew, hlook, if_pos rfl, ← hc, hhead]
      · exact hplaced pre e' post (List.cons_eq_cons.mp hes).2

end BodyPlan

end LoopLanes
