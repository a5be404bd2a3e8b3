/-
Temporaries that are ahead of a phi by a constant.

Some instructions add a constant to a temporary (`Instr.AddsTo`), and what is computed from a header phi by
such instructions alone is ahead of the phi by the sum of the constants (`Func.Ahead`).  It may be computed
anywhere: the header dominates the place (`Func.Ahead.onEveryPath`), so what is read there was computed in
the same iteration.

* `Instr.AddsTo.gives_exec` — an instruction that adds a constant moves every lane on;
* **`Func.Iteration.inStep`** — throughout an iteration, what is ahead of a phi holds the lanes with
  which the phi was entered, moved on;
* `Func.Iteration.lookup_incoming` — so does what flows into the phi from where the round ends.
-/
import LoopLanes.Proofs.Loop.Executions
import LoopLanes.Proofs.Recurrence.Gains
import LoopLanes.Proofs.Recurrence.Graph

namespace LoopLanes

/-! ### Adding constants -/

/-- An integer moved on by a constant; other values stay as they are. -/
def Cell.plus (d : Int) : Cell → Cell
  | .int v => .int (v + .ofInt d)
  | c => c

@[simp] theorem Cell.plus_zero (c : Cell) : c.plus 0 = c := by
  cases c <;> simp [plus]

theorem Cell.plus_plus (c : Cell) (d e : Int) : (c.plus d).plus e = c.plus (d + e) := by
  cases c <;> simp [plus, Int32.ofInt_add, Int32.add_assoc]

/-- All lanes moved on. -/
def Lanes.plus (d : Int) (ls : Lanes) : Lanes := ls.map (Cell.plus d)

@[simp] theorem Lanes.plus_zero (ls : Lanes) : ls.plus 0 = ls := by
  simp [plus, show Cell.plus 0 = id from funext Cell.plus_zero]

theorem Lanes.plus_plus (ls : Lanes) (d e : Int) : Lanes.plus e (ls.plus d) = ls.plus (d + e) := by
  simp [plus, Cell.plus_plus]

/-- An instruction that adds a constant to a temporary. -/
inductive Instr.AddsTo (u : Temp) : Instr → Int → Prop
  | right {t : Temp} {ty : Ty} {c : Int32} : AddsTo u (.arith t .add ty (.temp u) (.int c)) c.toInt
  | left {t : Temp} {ty : Ty} {c : Int32} : AddsTo u (.arith t .add ty (.int c) (.temp u)) c.toInt
  | sub {t : Temp} {ty : Ty} {c : Int32} : AddsTo u (.arith t .sub ty (.temp u) (.int c)) (-c.toInt)

namespace Instr.AddsTo

variable {x : Instr} {t u : Temp} {c : Int} {fr fr' : Frame} {ls : Lanes} {a r : Cell} {k : Nat}
  {call : Caller} {m m' : Machine}

theorem isPlain (h : x.AddsTo u c) : x.isPlain = true := by
  cases h <;> rfl

theorem readTemps (h : x.AddsTo u c) : x.readTemps = [u] := by
  cases h <;> rfl

theorem lane_int (fr : Frame) (v : Int32) (k : Nat) : fr.lane (.int v) k = .ok (.int v) :=
  Frame.lane_of_read rfl k

/-- The sum in one lane. -/
theorem resultOf (h : x.AddsTo u c) (ha : fr.lane (.temp u) k = .ok a)
    (hr : x.resultOf (fr.lane · k) = .ok r) : r = a.plus c := by
  cases h with
  | @right t ty v =>
    simp only [Instr.resultOf, ha, lane_int, bind, Except.bind] at hr
    obtain ⟨x, y, rfl, hy⟩ := Cell.exists_int_of_arith hr ⟨v, .inr rfl⟩
    obtain rfl := Except.ok.inj hr
    simp [Cell.plus]
  | @left t ty v =>
    simp only [Instr.resultOf, ha, lane_int, bind, Except.bind] at hr
    obtain ⟨x, y, hx, rfl⟩ := Cell.exists_int_of_arith hr ⟨v, .inl rfl⟩
    obtain rfl := Except.ok.inj hr
    simp [Cell.plus, Int32.add_comm]
  | @sub t ty v =>
    simp only [Instr.resultOf, ha, lane_int, bind, Except.bind] at hr
    obtain ⟨x, y, rfl, hy⟩ := Cell.exists_int_of_arith hr ⟨v, .inr rfl⟩
    obtain rfl := Except.ok.inj hr
    simp [Cell.plus, Int32.ofInt_neg, Int32.sub_eq_add_neg]

theorem lane_of_getElem? (h : fr.lookup u = some ls) (hk : ls[k]? = some a) :
    fr.lane (.temp u) k = .ok a := by
  match ls, hk with
  | [b], hk =>
    obtain ⟨hlt, rfl⟩ := List.getElem?_eq_some_iff.mp hk
    simp [Frame.lane, h]
  | b :: b' :: ls, hk => simp [Frame.lane, h, hk]

/-- All lanes are moved on by the constant. -/
theorem gives_exec (h : x.AddsTo u c) (hw : x.write = some t) (hx : Gives (x.exec call fr) m fr' m') :
    fr'.lookup t = (fr.lookup u).map (Lanes.plus c) := by
  obtain ⟨rs, hrs, rfl, -⟩ := (Instr.gives_exec_lanes_iff h.isPlain hw).mp hx
  have hwidest : Instr.widest fr x = fr.width u := by simp [Instr.widest, h.readTemps]
  rw [lookup_setEntry_self]
  cases hls : fr.lookup u with
  | none =>
    -- the operand has no value, so no lane has a result
    rw [hwidest, Frame.width, hls, Option.map_none, Option.getD_none, List.range_one] at hrs
    obtain ⟨r, -, hr, -, -⟩ := List.forall₂_cons_left_iff.mp hrs
    have hlane : fr.lane (.temp u) 0 = .error (.undefinedTemp u.text) := by simp [Frame.lane, hls]
    cases h <;> simp [Instr.resultOf, hlane, lane_int, bind, Except.bind] at hr
  | some ls =>
    rw [hwidest, Frame.width, hls, Option.map_some, Option.getD_some] at hrs
    have hlength : rs.length = ls.length := by rw [← hrs.length_eq, List.length_range]
    refine congrArg some (List.ext_getElem (by simp [Lanes.plus, hlength]) fun k hk hk' => ?_)
    have hk' : k < ls.length := hlength ▸ hk
    have hlane := lane_of_getElem? hls (List.getElem?_eq_getElem hk')
    have hr := List.forall₂_iff_get.mp hrs |>.2 k (by simpa using hk') hk
    simp only [List.get_eq_getElem, List.getElem_range] at hr
    simp [h.resultOf hlane hr, Lanes.plus]

end Instr.AddsTo

/-! ### What is ahead of a phi -/

/-- A temporary is ahead of a phi of a block: it is computed from it by adding constants, with the given
sum.  What is read on the way is local, or it is the phi and is read behind the block. -/
inductive Func.Ahead (f : Func) (header : Block) (phi : Temp) : Temp → Int → Prop
  | self : Ahead f header phi phi 0
  | step {b : Block} {x : Instr} {t u : Temp} {c d : Int} (hb : b ∈ f.blocks) (hx : x ∈ b.instrs)
    (hw : x.write = some t) (adds : x.AddsTo u c)
    (current : u.isGlobal = false ∨ u = phi ∧ f.OnEveryPath header b) (before : Ahead f header phi u d) :
    Ahead f header phi t (d + c)

namespace Func

variable {f : Func} {l : Loop} {header b : Block} {p : Phi} {t u : Temp} {d : Int} {top fr : Frame}
  {xs : List Instr}

/-- What an instruction of a reached block reads was defined before. -/
theorem definedAt_of_reads (hf : f.WellFormed) (hb : b ∈ f.blocks) (hreached : f.Reached b) {pos : Nat}
    {x : Instr} (hx : b.instrs[pos]? = some x) (ht : t ∈ x.readTemps) (hlocal : t.isGlobal = false) :
    f.DefinedAt t b pos := by
  refine hf.reads b hb hreached pos x ?_ t ht hlocal
  rw [List.getElem?_append_left (List.getElem?_eq_some_iff.mp hx).1, hx]

/-- Two instructions that write the same are the same. -/
theorem eq_of_writes {c : Block} {x y : Instr} (hf : f.verify = .ok ()) (hb : b ∈ f.blocks) (hc : c ∈ f.blocks)
    (hx : x ∈ b.instrs) (hy : y ∈ c.instrs) (hxw : x.write = some t) (hyw : y.write = some t) : x = y := by
  obtain rfl := eq_of_mem_writes hf hb hc
    (List.mem_append_right _ (List.mem_filterMap.mpr ⟨x, hx, hxw⟩))
    (List.mem_append_right _ (List.mem_filterMap.mpr ⟨y, hy, hyw⟩))
  exact UseGraph.eq_of_filterMap_nodup (List.nodup_append.mp (writes_nodup hf hb)).2.1 hx hy hxw hyw

/-- A phi is ahead of itself by nothing, and by nothing else. -/
theorem Ahead.eq_zero (h : f.Ahead header p.target p.target d) (hl : l.Headed f header) (hp : p ∈ header.phis) :
    d = 0 := by
  cases h with
  | self => rfl
  | step hb hx hw _ _ _ =>
    exact absurd (List.mem_filterMap.mpr ⟨_, hx, hw⟩) (hl.not_written hp hb).1

/-- What is defined at a place is written in a block that dominates it. -/
theorem DefinedAt.dominates {c : Block} {pos : Nat} (h : f.DefinedAt t b pos) (hf : f.verify = .ok ())
    (hb : b ∈ f.blocks) (hreached : f.Reached b) (hc : c ∈ f.blocks) (ht : t ∈ c.writes) :
    (f.flow false).Dominates c.id b.id := by
  rcases h with hparam | hmem | ⟨d, hd, -, hmem, hpath⟩
  · exact absurd rfl ((List.nodup_append.mp (definitions_nodup hf)).2.2 t hparam t
      (List.mem_flatMap.mpr ⟨c, hc, ht⟩))
  · obtain rfl := eq_of_mem_writes hf hb hc (Block.mem_writes_of_writesBefore hmem) ht
    exact .refl (reached_iff.mp hreached)
  · obtain rfl := eq_of_mem_writes hf hd hc hmem ht
    exact (dominates_iff_onEveryPath hreached).mpr hpath

/-- What is defined at a place lies behind all that its definitions lie behind. -/
theorem OnEveryPath.of_definedAt {a : Block} {pos : Nat} (hf : f.verify = .ok ())
    (hall : ∀ b ∈ f.blocks, t ∈ b.writes → f.Reached b → f.OnEveryPath a b)
    (hwritten : t ∈ writesOf f.blocks) (hb : b ∈ f.blocks) (hreached : f.Reached b)
    (hdef : f.DefinedAt t b pos) : f.OnEveryPath a b := by
  obtain ⟨c, hc, ht⟩ := List.mem_flatMap.mp hwritten
  have hdom := hdef.dominates hf hb hreached hc ht
  have hc' : f.Reached c := reached_iff.mpr hdom.reaches_left
  exact (dominates_iff_onEveryPath hreached).mp
    (((dominates_iff_onEveryPath hc').mpr (hall c hc ht hc')).trans hdom)

namespace Ahead

theorem mem_writes (h : f.Ahead header p.target t d) (hl : l.Headed f header) (hp : p ∈ header.phis) :
    t ∈ writesOf f.blocks := by
  cases h with
  | self => exact List.mem_flatMap.mpr ⟨header, hl.mem_func, List.mem_append_left _ (List.mem_map_of_mem hp)⟩
  | step hb hx hw _ _ _ =>
    exact List.mem_flatMap.mpr ⟨_, hb, List.mem_append_right _ (List.mem_filterMap.mpr ⟨_, hx, hw⟩)⟩

/-- What is ahead of a phi of a header is computed where the header has been passed. -/
theorem onEveryPath (h : f.Ahead header p.target t d) (hl : l.Headed f header) (hp : p ∈ header.phis) :
    ∀ b ∈ f.blocks, t ∈ b.writes → f.Reached b → f.OnEveryPath header b := by
  -- an instruction that adds to the phi, or to what is ahead of it, reads it behind the header
  induction h with
  | self =>
    intro b hb ht _
    obtain rfl := Func.eq_of_mem_writes hl.verified hb hl.mem_func ht
      (List.mem_append_left _ (List.mem_map_of_mem hp))
    exact fun _ hvs => hvs.mem
  | @step c x t u _ _ hc hx hw adds current before ih =>
    intro b hb ht hreached
    have htc : t ∈ c.writes := List.mem_append_right _ (List.mem_filterMap.mpr ⟨x, hx, hw⟩)
    obtain rfl := Func.eq_of_mem_writes hl.verified hb hc ht htc
    rcases current with isLocal | ⟨-, hpath⟩
    · obtain ⟨pos, hpos⟩ := List.getElem?_of_mem hx
      exact .of_definedAt hl.verified ih (before.mem_writes hl hp) hb hreached
        (definedAt_of_reads hl.formed hb hreached hpos (by simp [adds.readTemps]) isLocal)
    · exact hpath

/-- When the header is entered, nothing but the phi has been computed. -/
theorem eq_of_definedAt (h : f.Ahead header p.target t d) (hl : l.Headed f header) (hp : p ∈ header.phis)
    (hdef : f.DefinedAt t header 0) : t = p.target := by
  have hwritten := h.mem_writes hl hp
  have hpath := h.onEveryPath hl hp
  cases h with
  | self => rfl
  | @step c x _ u _ _ hc hx hw adds _ before =>
    have hmem : t ∈ c.instrs.filterMap Instr.write := List.mem_filterMap.mpr ⟨x, hx, hw⟩
    have htc : t ∈ c.writes := List.mem_append_right _ hmem
    rcases hdef with hparam | hwrite | ⟨e, he, hne, hte, hevery⟩
    · exact absurd rfl ((List.nodup_append.mp (definitions_nodup hl.verified)).2.2 t hparam t hwritten)
    · obtain rfl := Func.eq_of_mem_writes hl.verified hl.mem_func hc
        (Block.mem_writes_of_writesBefore hwrite) htc
      have hphi : t ∈ header.phis.map (·.target) := by simpa [Block.writesBefore] using hwrite
      exact absurd rfl ((List.nodup_append.mp (writes_nodup hl.verified hc)).2.2 t hphi t hmem)
    · -- its block would dominate the header that dominates it
      have hdom := (dominates_iff_onEveryPath hl.header_reached).mpr hevery
      have hreached : f.Reached e := reached_iff.mpr hdom.reaches_left
      have hback := (dominates_iff_onEveryPath hreached).mpr (hpath e he hte hreached)
      exact absurd (hdom.antisymm hback) hne

end Ahead

/-- At a place, all that is ahead of a phi and has been computed holds the lanes of the phi, moved on. -/
def InStep (f : Func) (header : Block) (phi : Temp) (ls : Option Lanes) (b : Block) (pos : Nat) (fr : Frame) :
    Prop :=
  ∀ t d, f.Ahead header phi t d → t = phi ∨ f.DefinedAt t b pos → fr.lookup t = ls.map (Lanes.plus d)

namespace InStep

variable {ls : Option Lanes} {c : Block} {pos : Nat} {fr' : Frame}

/-- So it is where the header is entered, with nothing computed but the phi. -/
theorem start (hl : l.Headed f header) (hp : p ∈ header.phis) :
    f.InStep header p.target (top.lookup p.target) header 0 top := by
  intro t d ht hdef
  obtain rfl : t = p.target := hdef.elim id (ht.eq_of_definedAt hl hp)
  obtain rfl := ht.eq_zero hl hp
  rw [show Lanes.plus 0 = id from funext Lanes.plus_zero, Option.map_id, id]

/-- An instruction computes one temporary more, or nothing that is ahead of the phi. -/
theorem exec (h : f.InStep header p.target ls b pos fr) (hl : l.Headed f header) (hp : p ∈ header.phis)
    (hb : b ∈ f.blocks) (hreached : f.Reached b) {x : Instr} (hget : b.instrs[pos]? = some x) {call : Caller}
    {m m' : Machine} (runs : Gives (x.exec call fr) m fr' m') : f.InStep header p.target ls b (pos + 1) fr' := by
  intro t d ht hdef
  have hx := List.mem_of_getElem? hget
  by_cases hw : x.write = some t
  · cases ht with
    | self => exact absurd (List.mem_filterMap.mpr ⟨x, hx, hw⟩) (hl.not_written hp hb).1
    | @step c y _ u e d hc hy hyw adds current ahead =>
      -- the instruction is the one that computes it
      obtain rfl := eq_of_writes hl.verified hb hc hx hy hw hyw
      have hu : u = p.target ∨ f.DefinedAt u b pos := current.symm.imp And.left
        (definedAt_of_reads hl.formed hb hreached hget (by simp [adds.readTemps]))
      rw [adds.gives_exec hw runs, h u d ahead hu, Option.map_map]
      congr 1
      funext ls
      exact ls.plus_plus d e
  · rw [Instr.lookup_of_gives_exec runs hw]
    exact h t d ht (hdef.imp_right fun hdef => (hdef.step hget).resolve_right hw)

/-- A jump within the loop computes nothing that is ahead of the phi. -/
theorem jump (h : f.InStep header p.target ls b pos fr) (hl : l.Headed f header) (hp : p ∈ header.phis)
    (hb : b ∈ f.blocks) (hpos : b.instrs.length ≤ pos) (hc : c ∈ f.blocks) (hsucc : c.ref ∈ b.succ)
    (other : c.id ≠ l.header.number) {k : Label} (enters : c.enter fr (some k) = .ok fr') :
    f.InStep header p.target ls c 0 fr' := by
  intro t d ht hdef
  have hnot : t ∉ c.phis.map (·.target) := by
    cases ht with
    | self => exact (hl.not_written hp hc).2 other
    | step he hy hyw _ _ _ =>
      intro hmem
      obtain ⟨o, ho, rfl⟩ := List.mem_map.mp hmem
      exact phi_notMem_instrs hl.verified hc ho he (List.mem_filterMap.mpr ⟨_, hy, hyw⟩)
  rw [Block.lookup_of_enter enters hnot]
  refine h t d ht (hdef.imp_right fun hdef => ?_)
  have hdef := hdef.of_edge hl.linked.nodup hb (edge_of_mem_succ hsucc hb)
  exact (hdef.resolve_left hnot).mono fun j hj _ => by omega

end InStep

/-- Throughout an iteration, what is ahead of a phi of the header holds the lanes of the phi, moved on. -/
theorem Iteration.inStep (h : f.Iteration f.forest l header top b xs fr) (hl : l.Headed f header)
    (hp : p ∈ header.phis) :
    ∃ pos, b.instrs.drop pos = xs ∧ f.InStep header p.target (top.lookup p.target) b pos fr := by
  induction h with
  | start => exact ⟨0, List.drop_zero, .start hl hp⟩
  | exec before runs ih =>
    obtain ⟨pos, hdrop, hstep⟩ := ih
    obtain ⟨hget, hrest⟩ := getElem?_of_drop_eq_cons hdrop
    exact ⟨pos + 1, hrest, hstep.exec hl hp (before.mem_func hl) (before.reached hl) hget runs⟩
  | jump before leaves next _ other enters ih =>
    obtain ⟨pos, hdrop, hstep⟩ := ih
    exact ⟨0, List.drop_zero, hstep.jump hl hp (before.mem_func hl) (List.drop_eq_nil_iff.mp hdrop)
      (labelled?_mem next).1 (before.mem_succ hl leaves next) other enters⟩

/-- Where a round ends, what flows from there into the phi is ahead of it, if it is computed so. -/
theorem Iteration.lookup_incoming (h : f.Iteration f.forest l header top b [] fr) (hl : l.Headed f header)
    (hp : p ∈ header.phis) (hprev : b.ref ∈ header.prev) (hu : p.incoming? b.label = some (.temp u))
    (hlocal : u ≠ p.target → u.isGlobal = false) (hahead : f.Ahead header p.target u d) :
    fr.lookup u = (top.lookup p.target).map (Lanes.plus d) := by
  obtain ⟨pos, hdrop, hlookup⟩ := h.inStep hl hp
  refine hlookup u d hahead (or_iff_not_imp_left.mpr fun ne => ?_)
  refine (hl.definedAt_incoming hp (h.mem_func hl) hprev (h.reached hl) hu (hlocal ne)).mono fun j hj _ => ?_
  have := List.drop_eq_nil_iff.mp hdrop
  omega

end Func

end LoopLanes
