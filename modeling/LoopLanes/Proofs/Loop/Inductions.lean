/-
Inductions as they are executed.

The induction of a loop names a phi of the header, what it starts from and gains on every round, and the
comparison on which the loop is left.  All of it holds throughout every execution of the loop, however the
body branches and whatever the loops inside it do.

* `Induction.ahead` — the next value is computed behind the header, one step ahead of the variable;
* `Func.Execution.lookup_indvar` — on the `k`-th visit of the header the variable has made `k` steps;
* `Induction.answers_of_leave` — the exiting block goes the way that the comparison says;
* **`Induction.holds_throughout`** — all three, and that the bound stays;
* **`Induction.stalls`** — but where a global temporary is the next value, the variable may stand still;
* `Induction.leaves_evading` — and an exiting block need not have a way that stays in the loop.
-/
import LoopLanes.Proofs.Recurrence.Ahead
import LoopLanes.Proofs.Split.Iterations

namespace LoopLanes

/-! ### Comparisons -/

section Comparisons

variable {op : CompOp} {a b c : Cell} {v : Bool} {i : Induction} {lhs rhs : Value} {onTrue : Bool}

/-- A test of integers is one of words. -/
theorem CompOp.exists_words (hop : op.operandTy = .i32) (h : Cell.test op a b = .ok v) :
    ∃ x y, a = .int x ∧ b = .int y ∧ op.onWords x y = v := by
  have hints : ∀ g : Int32 → Int32 → Bool, Cell.testInts g a b = .ok v → ∃ x y, a = .int x ∧ b = .int y := by
    intro g h
    cases a <;> cases b <;> first | exact ⟨_, _, rfl, rfl⟩ | cases h
  obtain ⟨x, y, rfl, rfl⟩ : ∃ x y, a = .int x ∧ b = .int y := by
    cases op <;> first | exact hints _ h | cases hop
  exact ⟨x, y, rfl, rfl, Except.ok.inj ((test_words hop).symm.trans h)⟩

/-- The exit test turned around: the loop goes on where the comparison answers what the loop goes on for. -/
theorem Induction.TurnedFrom.test (h : i.TurnedFrom op lhs rhs onTrue) (hop : op.operandTy = .i32)
    (value : Value → Except RunError Cell) (ha : value lhs = .ok a) (hb : value rhs = .ok b)
    (hv : Cell.test op a b = .ok v) :
    ∃ a e, value (.temp i.tested) = .ok a ∧ value i.bound = .ok e ∧ Cell.test i.op a e = .ok (v == onTrue) := by
  obtain ⟨x, y, rfl, rfl, rfl⟩ := CompOp.exists_words hop hv
  have hturned : (if onTrue then op else op.inverse).operandTy = .i32 := by
    cases onTrue <;> cases op <;> first | rfl | cases hop
  have hwords : (if onTrue then op else op.inverse).onWords x y = (op.onWords x y == onTrue) := by
    cases onTrue
    · simp [CompOp.onWords_inverse hop]
    · simp
  rcases h with ⟨rfl, rfl, h⟩ | ⟨rfl, rfl, h⟩
  · exact ⟨_, _, ha, hb, by rw [h, CompOp.test_words hturned, hwords]⟩
  · have hswapped : (if onTrue then op else op.inverse).swap.operandTy = .i32 := by
      cases onTrue <;> cases op <;> first | rfl | cases hop
    exact ⟨_, _, hb, ha, by rw [h, CompOp.test_words hswapped, CompOp.onWords_swap hturned, hwords]⟩

theorem Lanes.uniform_eq_ok {ls : Lanes} (h : ls.uniform = .ok c) : c ∈ ls ∧ ∀ d ∈ ls, d.same c = true := by
  unfold uniform at h
  split at h
  · cases h
  · split at h
    · rename_i hall
      obtain rfl := Except.ok.inj h
      exact ⟨List.mem_cons_self, List.all_eq_true.mp hall⟩
    · cases h

variable {x : Instr} {t : Temp} {kind : CompKind} {ty : Ty} {fr fr' : Frame} {call : Caller} {m m' : Machine}

/-- Where a comparison has one result for all lanes, it answers the same in every lane. -/
theorem Instr.test_of_gives_comp (hx : Gives ((Instr.comp t kind op ty lhs rhs).exec call fr) m fr' m')
    (hc : fr'.readUniform (.temp t) = .ok c) : 0 < widest fr (.comp t kind op ty lhs rhs) ∧
      ∀ k < widest fr (.comp t kind op ty lhs rhs), ∃ a b, fr.lane lhs k = .ok a ∧ fr.lane rhs k = .ok b ∧
        Cell.test op a b = .ok c.isTrue := by
  obtain ⟨ls, hls, rfl, -⟩ := (gives_exec_lanes_iff rfl rfl).mp hx
  have hlength : ls.length = widest fr (.comp t kind op ty lhs rhs) := by rw [← hls.length_eq, List.length_range]
  obtain ⟨hmem, hsame⟩ : c ∈ ls ∧ ∀ d ∈ ls, d.same c = true :=
    Lanes.uniform_eq_ok (by simpa [Frame.readUniform, Frame.read_setEntry_self, bind, Except.bind] using hc)
  -- each lane is one or zero, as the test of that lane answers
  have hlane : ∀ k < ls.length, ∃ a b v, fr.lane lhs k = .ok a ∧ fr.lane rhs k = .ok b ∧
      Cell.test op a b = .ok v ∧ ls[k]? = some (.int (if v then 1 else 0)) := by
    intro k hk
    have hr := List.forall₂_iff_get.mp hls |>.2 k (by simpa [hlength] using hk) hk
    simp only [List.get_eq_getElem, List.getElem_range] at hr
    obtain ⟨a, ha, hr⟩ := bind_eq_ok.mp hr
    obtain ⟨b, hb, hr⟩ := bind_eq_ok.mp hr
    obtain ⟨v, hv, hr⟩ := map_eq_ok.mp hr
    exact ⟨a, b, v, ha, hb, hv, by rw [List.getElem?_eq_getElem hk, hr]⟩
  obtain ⟨j, hj⟩ := List.getElem?_of_mem hmem
  obtain ⟨-, -, w, -, -, -, hw⟩ := hlane j (List.getElem?_eq_some_iff.mp hj).1
  obtain rfl := Option.some.inj (hj.symm.trans hw)
  refine ⟨hlength ▸ List.length_pos_of_mem hmem, fun k hk => ?_⟩
  obtain ⟨a, b, v, ha, hb, hv, hk⟩ := hlane k (hlength ▸ hk)
  have hvw := hsame _ (List.mem_of_getElem? hk)
  refine ⟨a, b, ha, hb, hv.trans (congrArg Except.ok ?_)⟩
  cases v <;> cases w <;> first | rfl | exact absurd hvw (by decide)

end Comparisons

/-- What gives the step of an induction adds it. -/
theorem Instr.AddsTo.of_addend? {t u : Temp} {op : ArithOp} {ty : Ty} {lhs rhs : Value} {c : Int}
    (h : Induction.addend? u op lhs rhs = some c) : (Instr.arith t op ty lhs rhs).AddsTo u c := by
  obtain ⟨k, ⟨rfl, ⟨rfl, rfl⟩ | ⟨rfl, rfl⟩, rfl⟩ | ⟨rfl, rfl, rfl, hfit⟩⟩ := Induction.addend?_eq_some h
  · exact .right
  · exact .left
  · rw [(fitI32?_eq_some hfit).1]
    exact .sub

/-! ### What a block reads -/

section Reads

variable {f : Func} {b c d header : Block} {t u : Temp} {p : Phi} {x : Instr} {xs : List Instr} {fr fr' : Frame}
  {k : Label} {step : Int}

/-- What is defined at a place is not written from there on in the block. -/
theorem Func.DefinedAt.notMem_drop {pos : Nat} (hf : f.verify = .ok ()) (hb : b ∈ f.blocks)
    (h : f.DefinedAt t b pos) : t ∉ (b.instrs.drop pos).filterMap Instr.write := by
  intro hmem
  have hinstrs : b.instrs.filterMap Instr.write =
      (b.instrs.take pos).filterMap Instr.write ++ (b.instrs.drop pos).filterMap Instr.write := by
    rw [← List.filterMap_append, List.take_append_drop]
  have ht : t ∈ b.writes := List.mem_append_right _ (hinstrs ▸ List.mem_append_right _ hmem)
  rcases h with hparam | hbefore | ⟨c, hc, hne, htc, -⟩
  · exact absurd rfl ((List.nodup_append.mp (definitions_nodup hf)).2.2 t hparam t
      (List.mem_flatMap.mpr ⟨b, hb, ht⟩))
  · have hnodup : (b.writesBefore pos ++ (b.instrs.drop pos).filterMap Instr.write).Nodup := by
      rw [Block.writesBefore, List.append_assoc, ← hinstrs]
      exact writes_nodup hf hb
    exact absurd rfl ((List.nodup_append.mp hnodup).2.2 t hbefore t hmem)
  · exact hne (congrArg Block.id (eq_of_mem_writes hf hc hb htc ht))

/-- Where a block ends, a comparison in it answers for the operands as they are there, if they are not
written behind it. -/
theorem Instr.Runs.test_of_comp {op : CompOp} {kind : CompKind} {ty : Ty} {lhs rhs : Value} {z : Cell}
    (hf : f.verify = .ok ()) (hb : b ∈ f.blocks) (h : Instr.Runs b.instrs fr fr')
    (hx : .comp t kind op ty lhs rhs ∈ b.instrs)
    (hkept : ∀ pos, b.instrs[pos]? = some (.comp t kind op ty lhs rhs) → ∀ v ∈ [lhs, rhs], ∀ u ∈ v.temp?,
      u ∉ (b.instrs.drop pos).filterMap Instr.write)
    (hz : fr'.readUniform (.temp t) = .ok z) : 0 < widest fr' (.comp t kind op ty lhs rhs) ∧
      ∀ k < widest fr' (.comp t kind op ty lhs rhs), ∃ a b, fr'.lane lhs k = .ok a ∧ fr'.lane rhs k = .ok b ∧
        Cell.test op a b = .ok z.isTrue := by
  obtain ⟨xs, ys, hsplit⟩ := List.append_of_mem hx
  have hkept := hkept xs.length (by simp [hsplit])
  have hnodup : ((xs ++ .comp t kind op ty lhs rhs :: ys).filterMap Instr.write).Nodup :=
    hsplit ▸ (List.nodup_append.mp (Func.writes_nodup hf hb)).2.1
  rw [hsplit] at h hkept
  rw [List.drop_left] at hkept
  obtain ⟨before, after, call, m, m', -, hcomp, hrest⟩ := h.split
  -- neither the result nor an operand changes behind the comparison
  have hresult : fr'.lookup t = after.lookup t := hrest.lookup_eq fun hmem => by
    rw [List.filterMap_append] at hnodup
    exact (List.nodup_cons.mp (List.nodup_append.mp hnodup).2.1).1 hmem
  have hagree : before.AgreeOn fr' [lhs, rhs] := by
    intro v hv u hu
    have hnot := hkept v hv u hu
    rw [hrest.lookup_eq fun hmem => hnot ?_, Instr.lookup_of_gives_exec hcomp fun e => hnot ?_]
    · exact List.mem_filterMap.mpr ⟨_, List.mem_cons_self, e⟩
    · exact (List.sublist_cons_self _ _).filterMap _ |>.subset hmem
  rw [widest_congr (x := .comp t kind op ty lhs rhs) hagree]
  obtain ⟨hpos, hlanes⟩ := test_of_gives_comp hcomp
    ((Frame.readUniform_congr fun u hu => by cases hu; exact hresult.symm).trans hz)
  refine ⟨hpos, fun k hk => ?_⟩
  obtain ⟨a, b, ha, hb, hv⟩ := hlanes k hk
  exact ⟨a, b, (Frame.lane_congr (hagree _ (by simp)) k).trans ha,
    (Frame.lane_congr (hagree _ (by simp)) k).trans hb, hv⟩

/-- A phi holds what it takes in along the edge. -/
theorem Block.read_of_enter (hnodup : (b.phis.map (·.target)).Nodup) (hp : p ∈ b.phis)
    (h : b.enter fr (some k) = .ok fr') : ∃ v ls, p.incoming? k = some v ∧ fr.read v = .ok ls ∧
      fr'.lookup p.target = some ls := by
  obtain ⟨vs, hvs, rfl⟩ := enter_eq_ok.mp h
  obtain ⟨e, he, htarget, v, hv, hread⟩ :=
    exists_of_forall₂ (phiValues_eq_ok.mp hvs).flip p hp
  exact ⟨v, e.2, hv, hread,
    htarget ▸ lookup_foldl_of_mem Prod.fst Prod.snd (map_fst_of_phiValues hvs ▸ hnodup) he⟩

/-- A block in front of a header does not add to its phi: whoever comes to the header has executed the block
before, when the phi had no value. -/
theorem Func.Stands.undefined (hf : f.verify = .ok ()) (hheader : header ∈ f.blocks) (hd : d ∈ f.blocks)
    (hdom : (f.flow false).Dominates d.id header.id) (hne : d ≠ header) (hp : p ∈ header.phis)
    (hx : x ∈ d.instrs) (hw : x.write = some t) (adds : x.AddsTo p.target step) (h : f.Stands b xs fr) :
    fr.lookup p.target = none ∧ ((f.flow false).Dominates d.id b.id → b = d ∧ x ∈ xs) := by
  have hlinked := wellLinked_of_verify hf
  have hblocks := List.ne_nil_of_mem hheader
  have hwrites : p.target ∈ header.writes := List.mem_append_left _ (List.mem_map_of_mem hp)
  have hsame : ∀ {c : Block}, c ∈ f.blocks → d.id = c.id → d = c := fun hc => eq_of_id_eq hlinked.nodup hd hc
  induction h with
  | start args =>
    refine ⟨lookup_frameOf_eq_none hf args (List.mem_flatMap.mpr ⟨header, hheader, hwrites⟩), fun hback => ?_⟩
    obtain rfl := hsame (entry_mem hblocks) (hback.antisymm (dominates_entry hdom.reaches_left))
    exact ⟨rfl, hx⟩
  | @exec b y ys fr fr' call m m' before runs ih =>
    obtain ⟨hnone, hat⟩ := ih
    obtain ⟨⟨hb, -⟩, hsuffix⟩ := before.reached hf hblocks
    have hy : y ∈ b.instrs := hsuffix.subset List.mem_cons_self
    refine ⟨?_, fun hdom' => ?_⟩
    · rw [Instr.lookup_of_gives_exec runs fun e => phi_notMem_instrs hf hheader hp hb
        (List.mem_filterMap.mpr ⟨y, hy, e⟩), hnone]
    · obtain ⟨rfl, hmem⟩ := hat hdom'
      refine ⟨rfl, (List.mem_cons.mp hmem).resolve_left ?_⟩
      -- the addition would have found a value
      rintro rfl
      obtain ⟨ls, -, rfl, -⟩ := (Instr.gives_exec_lanes_iff adds.isPlain hw).mp runs
      have := adds.gives_exec hw runs
      rw [lookup_setEntry_self, hnone] at this
      cases this
  | @jump b c fr fr' k before leaves next enters ih =>
    obtain ⟨hnone, hat⟩ := ih
    obtain ⟨⟨hb, hreached⟩, -⟩ := before.reached hf hblocks
    have hc := (labelled?_mem next).1
    have hedge := edge_of_mem_succ (hlinked.mem_succ_of_leave hb leaves hc (labelled?_mem next).2) hb
    -- the block that was left is not behind the addition, so neither is one that differs from it
    have hbehind : (f.flow false).Dominates d.id c.id → d = c := fun hdom' => by
      by_contra hne'
      have := (hat (hdom'.of_edge (fun e => hne' (hsame hc e.symm)) (reached_iff.mp hreached) hedge)).2
      cases this
    refine ⟨?_, fun hdom' => ?_⟩
    · rw [Block.lookup_of_enter enters fun hmem => ?_, hnone]
      obtain rfl := eq_of_mem_writes hf hc hheader (List.mem_append_left _ hmem) hwrites
      exact hne (hbehind hdom)
    · obtain rfl := hbehind hdom'
      exact ⟨rfl, hx⟩

/-- What adds to a phi is behind the header, if both are on the way to one block of a loop that is executed. -/
theorem Func.Execution.onEveryPath {l : Loop} {r : BlockRef} {start top : Frame} {n : Nat} {v : Int}
    (hexec : f.Execution f.forest l header r start n top) (hl : l.Headed f header) (hd : d ∈ f.blocks)
    (hp : p ∈ header.phis) (hx : x ∈ d.instrs) (hw : x.write = some t) (adds : x.AddsTo p.target step)
    (hdom : (f.flow false).Dominates header.id v) (hdom' : (f.flow false).Dominates d.id v) :
    f.OnEveryPath header d := by
  have hreached : f.Reached d := reached_iff.mpr hdom'.reaches_left
  refine (dominates_iff_onEveryPath hreached).mp ((hdom.total hdom').elim id fun hfront => ?_)
  by_cases hne : d = header
  · exact hne ▸ .refl (reached_iff.mp hreached)
  · -- no execution comes past the addition to a header behind it
    obtain ⟨b, -, hs, hb, hreached, -, hsucc, -⟩ := hexec.exists_stands hl
    obtain ⟨-, hat⟩ := hs.undefined hl.verified hl.mem_func hd hfront hne hp hx hw adds
    have := (hat (hfront.of_edge (fun e => hne (eq_of_id_eq hl.linked.nodup hd hl.mem_func e.symm))
      (reached_iff.mp hreached) (edge_of_mem_succ hsucc hb))).2
    cases this

end Reads

/-! ### The induction of a loop -/

/-- An induction that governs a loop: the loop has one block in front and one latch, between which a phi of
the header goes from the start to the next value, which is local. -/
structure Induction.Governs (i : Induction) (f : Func) (l : Loop) (header : Block) (p : Phi) (r q : BlockRef) :
    Prop where
  headed : l.Headed f header
  found : i.Found f f.forest l
  isLocal : i.next.isGlobal = false
  outside : l.outsidePreds f f.forest = [r]
  latch : l.singleLatch? f f.forest = some q
  phi : p ∈ header.phis
  target : p.target = i.indvar
  start : p.incoming? r.label = some i.start
  next : p.incoming? q.label = some (.temp i.next)

namespace Induction

/-- The number of lanes in which the exit is tested. -/
def testWidth (i : Induction) (fr : Frame) : Nat :=
  ((i.tested :: i.bound.temp?.toList).map fr.width).max?.getD 1

/-- `tested OP bound` has one answer for all lanes. -/
def Answers (i : Induction) (fr : Frame) (v : Bool) : Prop :=
  0 < i.testWidth fr ∧ ∀ k < i.testWidth fr, ∃ a e, fr.lane (.temp i.tested) k = .ok a ∧
    fr.lane i.bound k = .ok e ∧ Cell.test i.op a e = .ok v

/-- The comparison that gives the test has as many lanes. -/
theorem testWidth_of_turnedFrom {i : Induction} {op : CompOp} {ty : Ty} {lhs rhs : Value} {onTrue : Bool}
    {fr : Frame} (h : i.TurnedFrom op lhs rhs onTrue) :
    i.testWidth fr = Instr.widest fr (.comp i.cond .icmp op ty lhs rhs) := by
  have hmax : ∀ v : Value, ((i.tested :: v.temp?.toList).map fr.width).max? =
      ((v.temp?.toList ++ [i.tested]).map fr.width).max? := by
    intro v
    cases v.temp? with
    | none => rfl
    | some u => exact congrArg some (max_comm _ _)
  rcases h with ⟨rfl, rfl, -⟩ | ⟨rfl, rfl, -⟩
  · rw [testWidth, Instr.widest]
    congr 3
  · rw [testWidth, Instr.widest, hmax]
    congr 3
    cases i.bound <;> rfl

/-- What an induction says of a loop that was entered with the frame `start`, in the round that follows the
`k`-th jump back: where control stands in a block, with a frame. -/
structure Holds (i : Induction) (f : Func) (l : Loop) (start : Frame) (k : Nat) (b : Block) (xs : List Instr)
    (fr : Frame) : Prop where
  value : ∃ ls, start.read i.start = .ok ls ∧ fr.lookup i.indvar = some (Lanes.plus (k * i.step) ls)
  bound : fr.read i.bound = start.read i.bound
  test : b.id = i.exiting → xs = [] → ∀ w, b.leave fr = .ok w → ∃ j c v, w = .jump j ∧
    f.labelled? j = some c ∧ i.Answers fr v ∧ (f.forest.contains l c.id = true ↔ v = true)

variable {i : Induction} {f : Func} {l : Loop} {header b : Block} {p : Phi} {r q : BlockRef} {start top fr : Frame}
  {xs : List Instr} {k : Nat}

/-- The induction that is found governs the loop. -/
theorem governs_of_ofLoop? (hf : f.verify = .ok ()) (hl : l ∈ f.forest.loops)
    (hi : ofLoop? f f.forest l = some i) (hnext : i.next.isGlobal = false)
    (hh : f.linked? l.header = some header) (hr : l.outsidePreds f f.forest = [r]) :
    ∃ p q, i.Governs f l header p r q := by
  have hfound := found_of_ofLoop? hi
  obtain ⟨q, hq, hlatch⟩ := hfound.latch
  obtain ⟨r', hr', header', p, hh', hp, htarget, -, hstart, hnext'⟩ := hfound.entering
  obtain rfl := Option.some.inj (hh.symm.trans hh')
  obtain rfl : r = r' := List.singleton_inj.mp (hr.symm.trans hr')
  have hroot := Loop.isRoot_eq_false hfound.exit
  exact ⟨p, q, ⟨hf, hl, hroot, hh⟩, hfound, hnext, hr, hq, hp, htarget, hstart,
    by rw [BlockRef.label, hlatch]; exact hnext'⟩

namespace Governs

/-- The latch brings the next value. -/
theorem incoming_next (h : i.Governs f l header p r q) (hq : b.ref = q) :
    p.incoming? b.label = some (.temp i.next) := by
  rw [Block.label, hq]
  exact h.next

/-- Some instruction of the loop adds the step to the variable. -/
theorem exists_adds (h : i.Governs f l header p r q) :
    ∃ d ∈ f.blocks, ∃ x ∈ d.instrs, x.write = some i.next ∧ x.AddsTo p.target i.step := by
  obtain ⟨d, hd, op, ty, lhs, rhs, hx, hadd, -⟩ := step?_eq_some h.found.step
  refine ⟨d, (Loop.mem_blocks.mp hd).1, _, hx, rfl, ?_⟩
  rw [h.target]
  exact .of_addend? hadd

/-- In a loop that is executed, the next value is the variable moved on by the step. -/
theorem ahead (h : i.Governs f l header p r q) (hexec : f.Execution f.forest l header r start k top) :
    f.Ahead header p.target i.next i.step := by
  have hl := h.headed
  obtain ⟨d, hd, x, hx, hw, adds⟩ := h.exists_adds
  obtain ⟨e, he, href, hprev, hdom⟩ := hl.exists_latch h.latch
  have hreached : f.Reached e := Func.reached_iff.mpr hdom.reaches
  have hwrite : i.next ∈ d.writes := List.mem_append_right _ (List.mem_filterMap.mpr ⟨x, hx, hw⟩)
  have hdom' := (hl.definedAt_incoming h.phi he hprev hreached (h.incoming_next href) h.isLocal).dominates
    hl.verified he hreached hd hwrite
  have hstep := Func.Ahead.step hd hx hw adds (.inr ⟨rfl, hexec.onEveryPath hl hd h.phi hx hw adds hdom hdom'⟩) .self
  rwa [Int.zero_add] at hstep

/-- Where the latch ends, the next value is one step ahead. -/
theorem lookup_next (h : i.Governs f l header p r q) (hexec : f.Execution f.forest l header r start k top)
    (hiter : f.Iteration f.forest l header top b [] fr) (hq : b.ref = q) :
    fr.lookup i.next = (top.lookup i.indvar).map (Lanes.plus i.step) := by
  have hl := h.headed
  obtain ⟨e, -, href, hprev, -⟩ := hl.exists_latch h.latch
  rw [← h.target]
  exact hiter.lookup_incoming hl h.phi (hq ▸ href ▸ hprev) (h.incoming_next hq) (fun _ => h.isLocal)
    (h.ahead hexec)

/-- Each visit of the header finds the variable one step further. -/
theorem lookup_indvar (h : i.Governs f l header p r q) (hexec : f.Execution f.forest l header r start k top) :
    ∃ ls, start.read i.start = .ok ls ∧ top.lookup i.indvar = some (Lanes.plus (k * i.step) ls) := by
  have hl := h.headed
  have hnodup := Func.phi_targets_nodup hl.verified hl.mem_func
  induction hexec with
  | @enter b top _ source _ enters =>
    obtain ⟨v, ls, hv, hread, hlookup⟩ := Block.read_of_enter hnodup h.phi enters
    rw [Block.label, source, h.start] at hv
    obtain rfl := Option.some.inj hv
    exact ⟨ls, hread, by rw [← h.target, hlookup]; simp⟩
  | @back k b top mid top' before round leaves enters ih =>
    obtain ⟨ls, hread, hlookup⟩ := ih
    obtain ⟨v, ls', hv, hread', hlookup'⟩ := Block.read_of_enter hnodup h.phi enters
    obtain rfl := Option.some.inj (hv.symm.trans (h.incoming_next (round.ref_eq_latch hl leaves h.latch)))
    refine ⟨ls, hread, ?_⟩
    have hnext := h.lookup_next before round (round.ref_eq_latch hl leaves h.latch)
    simp only [Frame.read, hnext, hlookup, Option.map_some, Except.ok.injEq] at hread'
    rw [← h.target, hlookup', ← hread', Lanes.plus_plus]
    congr 2
    push_cast
    ring

/-- The bound keeps its value. -/
theorem read_bound (h : i.Governs f l header p r q) (hexec : f.Execution f.forest l header r start k top)
    (hiter : f.Iteration f.forest l header top b xs fr) : fr.read i.bound = start.read i.bound := by
  refine Frame.read_congr fun u hu => ?_
  have hu : i.bound = .temp u := by
    cases hbound : i.bound <;> simp_all [Value.temp?]
  have hnot := h.found.invariant u hu
  rw [hiter.lookup_outside h.headed hnot, hexec.lookup_eq h.headed hnot]

/-- The operands of the exit test are not written behind it. -/
theorem kept (h : i.Governs f l header p r q) (hb : b ∈ l.blocks f f.forest) (hreached : f.Reached b) {x : Instr}
    {pos : Nat} (hx : b.instrs[pos]? = some x) (hreads : .temp i.tested ∈ x.reads) {v : Value}
    (hv : v = .temp i.tested ∨ v = i.bound) :
    ∀ u ∈ v.temp?, u ∉ (b.instrs.drop pos).filterMap Instr.write := by
  have hl := h.headed
  have hbf := (Loop.mem_blocks.mp hb).1
  have hsub : (b.instrs.drop pos).filterMap Instr.write ⊆ b.instrs.filterMap Instr.write :=
    ((List.drop_sublist pos b.instrs).filterMap _).subset
  intro u hu hmem
  rcases hv with rfl | rfl
  · obtain rfl : i.tested = u := Option.some.inj hu
    by_cases hnext : i.onNext = true
    · have htested : i.tested = i.next := by simp [tested, hnext]
      rw [htested] at hmem hreads
      exact (Func.definedAt_of_reads hl.formed hbf hreached hx (Instr.mem_readTemps.mpr ⟨_, hreads, rfl⟩)
        h.isLocal).notMem_drop hl.verified hbf hmem
    · have htested : i.tested = p.target := by simp [tested, hnext, h.target]
      exact Func.phi_notMem_instrs hl.verified hl.mem_func h.phi hbf (hsub (htested ▸ hmem))
  · have hbound : i.bound = .temp u := by
      cases hbound : i.bound <;> simp_all [Value.temp?]
    exact h.found.invariant u hbound
      (List.mem_flatMap.mpr ⟨b, hb, List.mem_append_right _ (hsub hmem)⟩)

/-- Where the block of the test ends, the comparison that it was turned from has one answer, as the test has. -/
theorem answers_of_comp (h : i.Governs f l header p r q) (hiter : f.Iteration f.forest l header top b [] fr)
    {op : CompOp} {ty : Ty} {lhs rhs : Value} {onTrue : Bool} {z : Cell}
    (hx : .comp i.cond .icmp op ty lhs rhs ∈ b.instrs) (hturned : i.TurnedFrom op lhs rhs onTrue)
    (hz : fr.readUniform (.temp i.cond) = .ok z) : i.Answers fr (z.isTrue == onTrue) := by
  have hl := h.headed
  have hbl := (hiter.mem hl).1
  have hb := hiter.mem_func hl
  have hreached := hiter.reached hl
  obtain ⟨before, entered, hsplit, -, hruns⟩ := hiter.exists_runs
  rw [List.append_nil] at hsplit
  have hreads : .temp i.tested ∈ (Instr.comp i.cond .icmp op ty lhs rhs).reads := by
    rcases hturned with ⟨rfl, -, -⟩ | ⟨rfl, -, -⟩ <;> simp [Instr.reads]
  obtain ⟨hpos, hlanes⟩ := (hsplit ▸ hruns).test_of_comp hl.verified hb hx (fun pos hpos v hv u hu => by
    refine h.kept hbl hreached hpos hreads ?_ u hu
    rcases hturned with ⟨rfl, rfl, -⟩ | ⟨rfl, rfl, -⟩ <;> simpa [or_comm] using hv) hz
  have hop : op.operandTy = .i32 := by
    have htyped := hl.formed.typed b hb hreached _ (List.mem_append_left _ hx)
    simp only [Instr.wellTyped, Bool.and_eq_true, beq_iff_eq] at htyped
    rw [htyped.1.1.2, ← htyped.1.1.1.2]
    rfl
  have hwidth : i.testWidth fr = Instr.widest fr (.comp i.cond .icmp op ty lhs rhs) :=
    testWidth_of_turnedFrom hturned
  refine ⟨hwidth ▸ hpos, fun k hk => ?_⟩
  obtain ⟨a, e, ha, he, hv⟩ := hlanes k (hwidth ▸ hk)
  exact hturned.test hop (fr.lane · k) ha he hv

/-- Of the two ways of a branch, one to the exit, the other stays in the loop if any does. -/
theorem contains_target_iff (h : i.Governs f l header p r q) (hb : b ∈ f.blocks) {ty : Ty} {cond : Value}
    {ifTrue ifFalse : Label} {onTrue : Bool} (hjump : b.jump = some (.branch ty cond ifTrue ifFalse))
    (hexit : (if onTrue then ifFalse else ifTrue) = Label.ofBlock i.exit)
    (hstays : ∃ s ∈ b.succ, f.forest.contains l s.number = true) (v : Bool) :
    ∃ c, f.labelled? (if v then ifTrue else ifFalse) = some c ∧
      (f.forest.contains l c.id = true ↔ (v == onTrue) = true) := by
  have hlinked := h.headed.linked
  obtain ⟨s, hs, hin⟩ := hstays
  have hsucc : b.succ.map (·.label) = [ifTrue, ifFalse] := by
    obtain ⟨j, hj, hlinks⟩ := hlinked.jump b hb
    rw [hlinks, Option.some.inj (hj.symm.trans hjump)]
    rfl
  have hslabel : s.label = ifTrue ∨ s.label = ifFalse := by
    simpa [hsucc] using List.mem_map_of_mem (f := (·.label)) hs
  -- the exit has its label, and so the other way is the one that stays
  have hsexit : s.label ≠ Label.ofBlock i.exit := fun hlabel => by
    rw [Label.ofBlock_injective (show Label.ofBlock s.number = _ from hlabel), h.found.exit] at hin
    cases hin
  have hlabel : (if v then ifTrue else ifFalse) = if v == onTrue then s.label else Label.ofBlock i.exit := by
    rw [← hexit] at hsexit ⊢
    cases onTrue <;> cases v <;> simp_all
  obtain ⟨c, hc, hnext, -⟩ := exists_target hlinked hb (l := if v then ifTrue else ifFalse) (by
    rw [Block.targets, hjump]
    cases v <;> simp [Instr.targets])
  refine ⟨c, hnext, ?_⟩
  have hclabel := (Func.labelled?_mem hnext).2
  rw [hlabel] at hclabel
  cases hv : v == onTrue with
  | true =>
    rw [hv, if_pos rfl] at hclabel
    rw [Label.ofBlock_injective (show Label.ofBlock c.id = Label.ofBlock s.number from hclabel), hin]
  | false =>
    rw [hv, if_neg Bool.false_ne_true] at hclabel
    rw [Label.ofBlock_injective (show Label.ofBlock c.id = _ from hclabel), h.found.exit]

/-- The exiting block goes to a block of the loop where the test holds, and leaves it where it fails. -/
theorem answers_of_leave (h : i.Governs f l header p r q) (hiter : f.Iteration f.forest l header top b [] fr)
    (hid : b.id = i.exiting) (hstays : ∃ s ∈ b.succ, f.forest.contains l s.number = true) {w : Leaving}
    (hleave : b.leave fr = .ok w) : ∃ j c v, w = .jump j ∧ f.labelled? j = some c ∧ i.Answers fr v ∧
      (f.forest.contains l c.id = true ↔ v = true) := by
  have hb := hiter.mem_func h.headed
  obtain ⟨e, he, heid, op, ty, lhs, rhs, onTrue, branchTy, ifTrue, ifFalse, hx, hjump, hexit, hturned⟩ :=
    h.found.test
  obtain rfl := Func.eq_of_id_eq h.headed.linked.nodup (Loop.mem_blocks.mp (List.mem_of_mem_filter he)).1 hb
    (heid.trans hid.symm)
  simp only [Block.leave, hjump] at hleave
  obtain ⟨z, hz, rfl⟩ := map_eq_ok.mp hleave
  obtain ⟨c, hnext, hiff⟩ := h.contains_target_iff hb hjump hexit hstays z.isTrue
  exact ⟨_, c, _, rfl, hnext, h.answers_of_comp hiter hx hturned hz, hiff⟩

/-- What the induction says holds throughout. -/
theorem holds (h : i.Governs f l header p r q) (hexec : f.Execution f.forest l header r start k top)
    (hiter : f.Iteration f.forest l header top b xs fr)
    (hstays : b.id = i.exiting → ∃ s ∈ b.succ, f.forest.contains l s.number = true) :
    i.Holds f l start k b xs fr where
  value := by
    obtain ⟨ls, hread, hlookup⟩ := h.lookup_indvar hexec
    refine ⟨ls, hread, ?_⟩
    rw [← h.target, hiter.lookup_phi h.headed h.phi, h.target, hlookup]
  bound := h.read_bound hexec hiter
  test hid hxs w hleave := by
    subst hxs
    exact h.answers_of_leave hiter hid (hstays hid) hleave

end Governs

/-- Throughout every execution of a loop, the variable is `k` steps away from the start, the bound keeps its
value, and the exiting block goes the way that `tested OP bound` says. -/
theorem holds_throughout (hf : f.verify = .ok ()) (hl : l ∈ f.forest.loops)
    (hi : ofLoop? f f.forest l = some i) (hnext : i.next.isGlobal = false)
    (hstays : ∀ b ∈ l.exitingBlocks f f.forest, ∃ s ∈ b.succ, f.forest.contains l s.number = true)
    (hh : f.linked? l.header = some header) (hr : l.outsidePreds f f.forest = [r])
    (hexec : f.Execution f.forest l header r start k top)
    (hiter : f.Iteration f.forest l header top b xs fr) : i.Holds f l start k b xs fr := by
  obtain ⟨p, q, h⟩ := governs_of_ofLoop? hf hl hi hnext hh hr
  refine h.holds hexec hiter fun hid => ?_
  obtain ⟨e, he, heid, -⟩ := h.found.test
  obtain rfl := Func.eq_of_id_eq h.headed.linked.nodup (Loop.mem_blocks.mp (List.mem_of_mem_filter he)).1
    (hiter.mem_func h.headed) (heid.trans hid.symm)
  exact hstays e he

/-- Two rounds of a loop that counts to its argument. -/
theorem holds_countUp : ∃ l ∈ SplitPlan.countUp.forest.loops, ∃ i header fr,
    ofLoop? SplitPlan.countUp SplitPlan.countUp.forest l = some i ∧
      i.Holds SplitPlan.countUp l (Program.frameOf SplitPlan.countUp [.int 2]) 2 header [] fr := by
  let f := SplitPlan.countUp
  have h : (f.forest.loops.any fun l => l.outsidePreds f f.forest == [f.entry.ref] &&
      ((l.exitingBlocks f f.forest).all fun b => b.succ.any fun s => f.forest.contains l s.number) &&
      (ofLoop? f f.forest l).any fun i => !i.next.isGlobal && (f.linked? l.header).any fun header =>
        (Func.Execution.momentAfter f l header [.int 2] 9).any fun s =>
          s.visit == 2 && s.block == header && s.rest == []) = true := by decide +kernel
  simp only [List.any_eq_true, List.all_eq_true, Option.any_eq_true, Bool.and_eq_true, beq_iff_eq,
    Bool.not_eq_true'] at h
  obtain ⟨l, hl, ⟨hr, hstays⟩, i, hi, hnext, header, hh, ⟨k, top, b, xs, fr⟩, hs, ⟨rfl, rfl⟩, rfl⟩ := h
  obtain ⟨hexec, hiter⟩ := Func.Execution.comesTo_momentAfter hs
  exact ⟨l, hl, i, b, fr, hi, holds_throughout (by decide +kernel) hl hi hnext hstays hh hr hexec hiter⟩

/-! ### A next value that stands still -/

/-- Counts rounds with `k`, and every second one with `i`, whose next value is a global temporary. -/
def stalling : Func :=
  let i : Temp := .ofLocal "i" .i32
  let next : Temp := ⟨"next", true, .i32⟩
  let k : Temp := .ofLocal "k" .i32
  let more : Temp := .ofLocal "more" .i32
  let cond : Temp := .ofLocal "cond" .i32
  let bit : Temp := .ofLocal "bit" .i32
  let even : Temp := .ofLocal "even" .i32
  { total := 5
    name := "stalling"
    retTy := .i32
    params := []
    blocks := [
      { Block.ofId 0 with succ := [.last 1], jump := some (.jump (.ofBlock 1)) },
      { Block.ofId 1 with
        prev := [.last 0, .last 4]
        succ := [.last 2, .last 5]
        phis := [.ofTarget i [(.int 0, .ofBlock 0), (.temp next, .ofBlock 4)],
          .ofTarget k [(.int 0, .ofBlock 0), (.temp more, .ofBlock 4)]]
        instrs := [.comp cond .icmp .slt .i32 (.temp i) (.int 2)]
        jump := some (.branch .i32 (.temp cond) (.ofBlock 2) (.ofBlock 5)) },
      { Block.ofId 2 with
        prev := [.last 1]
        succ := [.last 3, .last 4]
        instrs := [.arith bit .and .i32 (.temp k) (.int 1), .comp even .icmp .eq .i32 (.temp bit) (.int 0)]
        jump := some (.branch .i32 (.temp even) (.ofBlock 3) (.ofBlock 4)) },
      { Block.ofId 3 with
        prev := [.last 2]
        succ := [.last 4]
        instrs := [.arith next .add .i32 (.temp i) (.int 1)]
        jump := some (.jump (.ofBlock 4)) },
      { Block.ofId 4 with
        prev := [.last 2, .last 3]
        succ := [.last 1]
        instrs := [.arith more .add .i32 (.temp k) (.int 1)]
        jump := some (.jump (.ofBlock 1)) },
      { Block.ofId 5 with prev := [.last 1], jump := some (.ret (some (.temp k))) }] }

/-- The second jump back brings the value that the first one brought, as no path to the end of the round
has to come past the addition. -/
theorem stalls : stalling.verify = .ok () ∧ ∃ l ∈ stalling.forest.loops, ∃ i header,
    stalling.linked? l.header = some header ∧ l.outsidePreds stalling stalling.forest = [stalling.entry.ref] ∧
    ofLoop? stalling stalling.forest l = some i ∧ ∃ start k top,
      stalling.Execution stalling.forest l header stalling.entry.ref start k top ∧
      ¬ ∃ ls, start.read i.start = .ok ls ∧ top.lookup i.indvar = some (Lanes.plus (k * i.step) ls) := by
  let f := stalling
  have h : (f.forest.loops.any fun l => l.outsidePreds f f.forest == [f.entry.ref] &&
      (ofLoop? f f.forest l).any fun i => i.start == .int 0 && i.step == 1 && (f.linked? l.header).any fun header =>
        (Func.Execution.momentAfter f l header [] 16).any fun s =>
          s.visit == 2 && s.top.lookup i.indvar == some [.int 1]) = true := by decide +kernel
  simp only [List.any_eq_true, Option.any_eq_true, Bool.and_eq_true, beq_iff_eq] at h
  obtain ⟨l, hl, hr, i, hi, ⟨hstart, hstep⟩, header, hh, s, hs, hvisit, hlookup⟩ := h
  refine ⟨by decide +kernel, l, hl, i, header, hh, hr, hi, _, s.visit, s.top,
    (Func.Execution.comesTo_momentAfter hs).1, ?_⟩
  rintro ⟨ls, hread, hvalue⟩
  rw [hstart] at hread
  obtain rfl := Except.ok.inj hread
  rw [hlookup, hvisit, hstep] at hvalue
  exact absurd hvalue (by decide)

/-! ### An exit test that stays nowhere -/

/-- A loop from block 3 to block 4, left by a test in its header; the test in block 5 is behind it.  Block 6 is
not reached and leads into this loop and another one. -/
def evading : Func :=
  let i : Temp := .ofLocal "i" .i32
  let next : Temp := .ofLocal "next" .i32
  let inner : Temp := .ofLocal "inner" .i32
  let outer : Temp := .ofLocal "outer" .i32
  let n : Temp := .ofLocal "n" .i32
  { total := 7
    name := "evading"
    retTy := .void
    params := [n]
    blocks := [
      { Block.ofId 0 with jump := some (.branch .i32 (.temp n) (.ofBlock 3) (.ofBlock 1)) },
      { Block.ofId 1 with jump := some (.jump (.ofBlock 2)) },
      { Block.ofId 2 with jump := some (.jump (.ofBlock 1)) },
      { Block.ofId 3 with
        phis := [.ofTarget i [(.int 0, .ofBlock 0), (.temp next, .ofBlock 4)]]
        instrs := [.comp inner .icmp .slt .i32 (.temp i) (.int 1)]
        jump := some (.branch .i32 (.temp inner) (.ofBlock 4) (.ofBlock 5)) },
      { Block.ofId 4 with
        instrs := [.arith next .add .i32 (.temp i) (.int 1)]
        jump := some (.jump (.ofBlock 3)) },
      { Block.ofId 5 with
        instrs := [.comp outer .icmp .slt .i32 (.temp i) (.int 1)]
        jump := some (.branch .i32 (.temp outer) (.ofBlock 0) (.ofBlock 7)) },
      { Block.ofId 6 with jump := some (.branch .i32 (.temp n) (.ofBlock 2) (.ofBlock 4)) },
      { Block.ofId 7 with jump := some (.ret none) }] }

/-- The block that is not reached takes block 5 into the loop, though not the block that leads back from it.
Both ways from block 5 lead out: one is taken for the exit, and on the other one the loop is left as well. -/
theorem leaves_evading : let f := evading.resolveLinks.1
    f.verify = .ok () ∧ ∃ l ∈ f.forest.loops, ∃ i header, ofLoop? f f.forest l = some i ∧
      i.next.isGlobal = false ∧ l.outsidePreds f f.forest = [f.entry.ref] ∧ f.linked? l.header = some header ∧
      ∃ start k top b fr j c, f.Execution f.forest l header f.entry.ref start k top ∧
        f.Iteration f.forest l header top b [] fr ∧ b.id = i.exiting ∧ b.leave fr = .ok (.jump j) ∧
        f.labelled? j = some c ∧ i.Answers fr true ∧ f.forest.contains l c.id = false := by
  intro f
  have h : (f.forest.loops.any fun l => l.outsidePreds f f.forest == [f.entry.ref] &&
      (ofLoop? f f.forest l).any fun i => !i.next.isGlobal && (i.bound == .int 1 && i.op == .sge) &&
        (f.linked? l.header).any fun header => (Func.Execution.momentAfter f l header [.int 1] 7).any fun s =>
          s.block.id == i.exiting && s.frame.lookup i.tested == some [.int 1] &&
            (s.target? f).any fun c => !f.forest.contains l c.id) = true := by decide +kernel
  simp only [List.any_eq_true, Option.any_eq_true, Bool.and_eq_true, beq_iff_eq, Bool.not_eq_true'] at h
  obtain ⟨l, hl, hr, i, hi, ⟨hnext, hbound, hop⟩, header, hh, ⟨k, top, b, xs, fr⟩, hs, ⟨hid, htested⟩, c, hc,
    hout⟩ := h
  obtain ⟨rfl, j, hleave, hc⟩ := Func.Execution.Moment.target?_eq_some hc
  obtain ⟨hexec, hiter⟩ := Func.Execution.comesTo_momentAfter hs
  refine ⟨by decide +kernel, l, hl, i, header, hi, hnext, hr, hh, _, k, top, b, fr, j, c, hexec, hiter, hid,
    hleave, hc, ?_, hout⟩
  have hwidth : i.testWidth fr = 1 := by
    simp [testWidth, hbound, Value.temp?, Frame.width, htested]
  refine ⟨by simp [hwidth], fun k _ => ⟨.int 1, .int 1, ?_, ?_, ?_⟩⟩
  · simp [Frame.lane, htested]
  · rw [hbound]
    exact Frame.lane_of_read rfl k
  · rw [hop]
    rfl

end Induction

end LoopLanes
