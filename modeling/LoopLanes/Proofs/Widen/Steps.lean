/-
Widening instruction by instruction.

What widening emits for an instruction computes, from a frame that stands for the lanes, a frame that
stands for them after the instruction (`simulates_instr`); strided operands of an instruction that is
run lane by lane are laid out before it, once in a block (`Laid`).
-/
import LoopLanes.Proofs.Widen.Represent
import LoopLanes.Widen.Lanes

namespace LoopLanes

namespace LaneShape

variable {shape : Value → LaneShape} {x : Instr} {a b : LaneShape}

theorem isVector_of_stride? {s : Int} (h : a.stride? = some s) : a.isVector = false := by
  cases a <;> simp_all [stride?, isVector]

theorem combine_ne_unknown {shapes : List LaneShape} (h : ∀ a ∈ shapes, a ≠ unknown) :
    combine shapes ≠ unknown := by
  have hdefined : (shapes.any fun s => !s.isDefined) = false := by
    simpa [isDefined] using h
  rw [combine, hdefined, if_neg Bool.false_ne_true]
  split <;> simp

theorem uniform_of_combine {shapes : List LaneShape} (h : ∀ a ∈ shapes, a ≠ unknown)
    (hflat : (combine shapes).isVector = false) : ∀ a ∈ shapes, a = uniform := by
  have hdefined : (shapes.any fun s => !s.isDefined) = false := by
    simpa [isDefined] using h
  rw [combine, hdefined, if_neg Bool.false_ne_true] at hflat
  split at hflat
  · rename_i hall
    exact fun a ha => isUniform_iff.mp (List.all_eq_true.mp hall a ha)
  · cases hflat

theorem ofStride?_ne_unknown (o : Option Int) : ofStride? a b o ≠ unknown := by
  cases o with
  | some s => simp only [ofStride?, ofStride]; split <;> simp
  | none => simp only [ofStride?]; split <;> simp

theorem arith_ne_unknown {op : ArithOp} {lhs rhs : Value} (ha : a ≠ unknown) (hb : b ≠ unknown) :
    arith op lhs rhs a b ≠ unknown := by
  have hcombine : combine [a, b] ≠ unknown := combine_ne_unknown (by simp [ha, hb])
  unfold arith
  rw [if_neg (by simp [isDefined, ha, hb])]
  split
  · exact ofStride?_ne_unknown _
  · exact ofStride?_ne_unknown _
  · split
    · exact ofStride?_ne_unknown _
    · split
      · exact ofStride?_ne_unknown _
      · simp
  · split
    · exact ofStride?_ne_unknown _
    · simp
  · exact hcombine

/-- Known operands give a known result. -/
theorem transfer_ne_unknown (hx : x.isPlain = true) (h : ∀ v, shape v ≠ unknown) :
    transfer shape x ≠ unknown := by
  cases x <;> try cases hx
  · exact arith_ne_unknown (h _) (h _)
  · exact combine_ne_unknown (by simp [h])
  · exact combine_ne_unknown (by simp [h])

theorem flat_of_arith {op : ArithOp} {lhs rhs : Value} (ha : a ≠ unknown) (hb : b ≠ unknown)
    (hflat : (arith op lhs rhs a b).isVector = false) : a.isVector = false ∧ b.isVector = false := by
  unfold arith at hflat
  rw [if_neg (by simp [isDefined, ha, hb])] at hflat
  have hstrides : ∀ p, strides? a b = some p → a.isVector = false ∧ b.isVector = false := by
    rintro ⟨s, r⟩ hs
    obtain ⟨ha, hb⟩ : a.stride? = some s ∧ b.stride? = some r := by
      simpa [strides?, Option.bind_eq_some_iff] using hs
    exact ⟨isVector_of_stride? ha, isVector_of_stride? hb⟩
  split at hflat <;> try exact hstrides _ ‹_›
  have huniform := uniform_of_combine (by simp [ha, hb]) hflat
  rw [huniform a (by simp), huniform b (by simp)]
  exact ⟨rfl, rfl⟩

/-- What does not vary was computed from what does not vary. -/
theorem flat_of_transfer (hx : x.isPlain = true) (h : ∀ v, shape v ≠ unknown)
    (hflat : (transfer shape x).isVector = false) : ∀ v ∈ x.reads, (shape v).isVector = false := by
  cases x <;> try cases hx
  case arith t op ty lhs rhs =>
    have := flat_of_arith (h lhs) (h rhs) hflat
    simpa [Instr.reads] using this
  all_goals
    have huniform := uniform_of_combine (by simp [h]) hflat
    intro v hv
    rw [huniform (shape v) (by
      simp only [Instr.reads, List.mem_cons, List.not_mem_nil, or_false] at hv
      rcases hv with rfl | rfl | rfl <;> simp)]
    rfl

end LaneShape

namespace Instr

variable {call : Caller} {fr : Frame} {m : Machine} {x : Instr} {t u : Temp} {width : Nat}
  {c : Nat → Cell}

theorem forall₂_range {α : Type} {P : Nat → α → Prop} {g : Nat → α} (h : ∀ k < width, P k (g k)) :
    List.Forall₂ P (List.range width) ((List.range width).map g) :=
  List.forall₂_map_right_iff.mpr (List.forall₂_same.mpr fun k hk => h k (List.mem_range.mp hk))

/-- Running a plain instruction lane by lane. -/
theorem gives_exec_vec (hx : x.isPlain = true) (hw : x.write = some t)
    (h : ∀ k < width, x.resultOf (fr.lane · k) = .ok (c k)) :
    Gives (exec call fr (.vec width none x)) m (setEntry t ((List.range width).map c) fr) m := by
  have hwrite : (Instr.vec width none x).write = some t := hw
  unfold exec
  rw [hwrite]
  exact gives_bind.mpr ⟨_, m, (gives_execLanes_iff hx).mpr ⟨forall₂_range h, rfl⟩,
    gives_pure.mpr ⟨rfl, rfl⟩⟩

/-- Laying out lanes that are a stride apart. -/
theorem gives_exec_ladder {ty : Ty} {s : Int} (hw : 0 < width) (ht : fr.lookup t = some [c 0])
    (h : (LaneShape.strided s).Conforms width c) :
    Gives (exec call fr (.ladder u ty (.temp t) s width)) m
      (setEntry u ((List.range width).map c) fr) m := by
  have hsame : (c 0).same (c 0) = true := by
    have h0 := h 0 hw
    cases hc : c 0 with
    | float x => rw [hc] at h0; cases h0
    | _ => simp [Cell.same]
  have hbase : fr.readUniform (.temp t) = .ok (c 0) := by
    simp [Frame.readUniform, Frame.read, ht, Lanes.uniform, hsame, bind, Except.bind]
  have hlanes : ((List.range width).mapM fun k : Nat => (c 0).offset (k * s)) =
      .ok ((List.range width).map c) := by
    have key : ∀ ks : List Nat, (∀ k ∈ ks, k < width) →
        (ks.mapM fun k : Nat => (c 0).offset (k * s)) = .ok (ks.map c) := by
      intro ks
      induction ks with
      | nil => exact fun _ => rfl
      | cons k ks ih =>
        intro hks
        obtain ⟨hk, hks⟩ := List.forall_mem_cons.mp hks
        rw [List.mapM_cons, h k hk, ih hks]
        rfl
    exact key _ fun k hk => List.mem_range.mp hk
  unfold exec
  refine gives_bind.mpr ⟨_, m, ?_, gives_pure.mpr ⟨rfl, rfl⟩⟩
  exact gives_bind.mpr ⟨c 0, m, gives_mk_pure.mpr ⟨hbase, rfl⟩, gives_mk_pure.mpr ⟨hlanes, rfl⟩⟩

end Instr

/-! ### Laying out lanes -/

namespace Widening

variable {i : LaneInfo} {n : TempCounter} {known known' later later' : List Temp}
  {lanes lanes' : Nat → Frame} {fr fr' fr'' : Frame} {s s' s'' : WidenState} {call : Caller}
  {m : Machine} {t u : Temp} {x : Instr}

/-- The lanes laid out so far in a block, for temporaries that are not written `later` in it. -/
structure Laid (i : LaneInfo) (n : TempCounter) (later : List Temp) (lanes : Nat → Frame)
    (s : WidenState) (fr : Frame) : Prop where
  fresh : ∀ t u, s.ladders.lookup t = some u → u.Fresh n s.temps
  stored : ∀ t u, s.ladders.lookup t = some u → t ∉ later ∧ ∃ c : Nat → Cell,
    (∀ k < i.width, (lanes k).lookup t = some [c k]) ∧
      fr.lookup u = some ((List.range i.width).map c)

/-- What is emitted from one state to another leads from one frame to another, which stands for the
lanes then. -/
structure Emits (call : Caller) (m : Machine) (i : LaneInfo) (n : TempCounter) (known later : List Temp)
    (lanes : Nat → Frame) (s s' : WidenState) (fr fr' : Frame) : Prop where
  runs : ∃ new, s'.out = s.out ++ new ∧ Gives (new.foldlM (Instr.exec call) fr) m fr' m
  simulates : i.Simulates n known lanes fr'
  laid : Laid i n later lanes s' fr'
  keeps : ∀ t u, s.ladders.lookup t = some u → s'.ladders.lookup t = some u
  le : s.temps ≤ s'.temps

theorem Emits.refl (h : i.Simulates n known lanes fr) (hl : Laid i n later lanes s fr) :
    Emits call m i n known later lanes s s fr fr :=
  ⟨⟨[], by simp, gives_pure.mpr ⟨rfl, rfl⟩⟩, h, hl, fun _ _ h => h, Nat.le_refl _⟩

theorem Emits.trans (h : Emits call m i n known later lanes s s' fr fr')
    (h' : Emits call m i n known' later' lanes' s' s'' fr' fr'') :
    Emits call m i n known' later' lanes' s s'' fr fr'' := by
  obtain ⟨new, hout, hrun⟩ := h.runs
  obtain ⟨new', hout', hrun'⟩ := h'.runs
  refine ⟨⟨new ++ new', by rw [hout', hout, List.append_assoc], ?_⟩, h'.simulates, h'.laid,
    fun t u ht => h'.keeps t u (h.keeps t u ht), Nat.le_trans h.le h'.le⟩
  exact gives_foldlM_append.mpr ⟨_, _, hrun, hrun'⟩

theorem run_ladder (width : Nat) (t : Temp) (stride : Int) (s : WidenState) :
    (ladder width t stride).run s =
      match s.ladders.lookup t with
      | some u => (u, s)
      | none =>
        (⟨toString (s.temps + 1), false, t.ty⟩,
          ⟨s.temps + 1, (t, ⟨toString (s.temps + 1), false, t.ty⟩) :: s.ladders,
            s.out ++ [.ladder ⟨toString (s.temps + 1), false, t.ty⟩ t.ty (.temp t) stride width]⟩) := by
  show (match s.ladders.lookup t with
    | some lanes => (pure lanes : Widening Temp)
    | none => _).run s = _
  cases s.ladders.lookup t <;> rfl

variable (call m) in
/-- The lanes of a strided temporary are laid out, or were before. -/
theorem emits_ladder {stride : Int} (hw : 0 < i.width) (h : i.Simulates n known lanes fr)
    (hl : Laid i n later lanes s fr) (ht : t ∈ known) (hlater : t ∉ later)
    (hshape : i.shapeOf t = .strided stride) (hn : n ≤ s.temps)
    (hmax : (((ladder i.width t stride).run s).2.temps : Int) ≤ u32Max) :
    ∃ fr', Emits call m i n known later lanes s ((ladder i.width t stride).run s).2 fr fr' ∧
      ((ladder i.width t stride).run s).2.ladders.lookup t =
        some ((ladder i.width t stride).run s).1 := by
  rw [run_ladder] at hmax ⊢
  cases hlookup : s.ladders.lookup t with
  | some u => exact ⟨fr, .refl h hl, hlookup⟩
  | none =>
    simp only [hlookup] at hmax ⊢
    have hfresh : (⟨toString (s.temps + 1), false, t.ty⟩ : Temp).Fresh s.temps (s.temps + 1) :=
      .of_fresh s.temps t.ty false
    have hfresh' : (⟨toString (s.temps + 1), false, t.ty⟩ : Temp).Fresh n (s.temps + 1) :=
      ⟨s.temps + 1, Nat.lt_succ_of_le hn, Nat.le_refl _, rfl⟩
    obtain ⟨c, hc, l, hfr, hrep⟩ := h.inside t ht
    obtain ⟨rfl, hconf⟩ := (LaneShape.represents_flat (by rw [hshape]; rfl)).mp hrep
    rw [hshape] at hconf
    refine ⟨_, ⟨⟨_, rfl, gives_bind.mpr ⟨_, _, Instr.gives_exec_ladder hw hfr hconf,
      gives_pure.mpr ⟨rfl, rfl⟩⟩⟩, h.setEntry_fresh hfresh' hmax _, ?_, ?_, Nat.le_succ _⟩, by simp⟩
    · refine ⟨fun t' u hu => ?_, fun t' u hu => ?_⟩
      · rw [List.lookup_cons] at hu
        split at hu
        · cases hu
          exact hfresh'
        · exact (hl.fresh t' u hu).mono (Nat.le_succ _)
      · rw [List.lookup_cons] at hu
        split at hu
        · rename_i e
          cases hu
          rw [beq_iff_eq] at e
          subst e
          exact ⟨hlater, c, hc, lookup_setEntry_self ..⟩
        · have hne : u ≠ ⟨toString (s.temps + 1), false, t.ty⟩ :=
            (hl.fresh t' u hu).ne_of_fresh hfresh
          rw [lookup_setEntry_of_ne _ _ hne]
          exact hl.stored t' u hu
    · intro t' u hu
      have hne : t' ≠ t := by
        rintro rfl
        rw [hlookup] at hu
        cases hu
      rw [List.lookup_cons, beq_false_of_ne hne]
      exact hu

theorem run_mapM_cons {α β : Type} (g : α → Widening β) (a : α) (as : List α) (s : WidenState) :
    ((a :: as).mapM g).run s =
      (((g a).run s).1 :: ((as.mapM g).run ((g a).run s).2).1,
        ((as.mapM g).run ((g a).run s).2).2) := by
  rw [List.mapM_cons]
  rfl

theorem run_lanesOf_of_strided {stride : Int} (h : i.shapeOf t = .strided stride) (s : WidenState) :
    (lanesOf i t).run s =
      (some (t, .temp ((ladder i.width t stride).run s).1), ((ladder i.width t stride).run s).2) := by
  unfold lanesOf
  rw [h]
  rfl

theorem run_lanesOf_of_not_strided (h : ∀ stride, i.shapeOf t ≠ .strided stride) (s : WidenState) :
    (lanesOf i t).run s = (none, s) := by
  unfold lanesOf
  split
  · exact absurd ‹_› (h _)
  · rfl

theorem le_temps_ladder (width : Nat) (t : Temp) (stride : Int) (s : WidenState) :
    s.temps ≤ ((ladder width t stride).run s).2.temps := by
  rw [run_ladder]
  split
  · exact Nat.le_refl _
  · exact Nat.le_succ _

theorem le_temps_lanesOf (i : LaneInfo) (t : Temp) (s : WidenState) :
    s.temps ≤ ((lanesOf i t).run s).2.temps := by
  by_cases h : ∃ stride, i.shapeOf t = .strided stride
  · obtain ⟨stride, h⟩ := h
    rw [run_lanesOf_of_strided h]
    exact le_temps_ladder ..
  · rw [run_lanesOf_of_not_strided (fun stride e => h ⟨stride, e⟩)]

theorem le_temps_mapM_lanesOf (i : LaneInfo) : ∀ (ts : List Temp) (s : WidenState),
    s.temps ≤ ((ts.mapM (lanesOf i)).run s).2.temps := by
  intro ts
  induction ts with
  | nil => exact fun s => Nat.le_refl _
  | cons t ts ih =>
    intro s
    rw [run_mapM_cons]
    exact Nat.le_trans (le_temps_lanesOf i t s) (ih _)

variable (call m) in
/-- The lanes of all strided temporaries of a list are laid out, and those of no other one. -/
theorem emits_lanesOf (hw : 0 < i.width) : ∀ {ts : List Temp} {s : WidenState} {fr : Frame},
    i.Simulates n known lanes fr → Laid i n later lanes s fr →
    (∀ t ∈ ts, i.Readable n known t ∧ (t ∈ i.defs → t ∉ later)) → n ≤ s.temps →
    (((ts.mapM (lanesOf i)).run s).2.temps : Int) ≤ u32Max →
    ∃ fr', Emits call m i n known later lanes s ((ts.mapM (lanesOf i)).run s).2 fr fr' ∧
      (∀ t v, (((ts.mapM (lanesOf i)).run s).1.filterMap id).lookup t = some v →
        ∃ u stride, v = .temp u ∧ i.shapeOf t = .strided stride ∧
          ((ts.mapM (lanesOf i)).run s).2.ladders.lookup t = some u) ∧
      ∀ t ∈ ts, ∀ stride, i.shapeOf t = .strided stride →
        ∃ v, (((ts.mapM (lanesOf i)).run s).1.filterMap id).lookup t = some v := by
  intro ts
  induction ts with
  | nil =>
    intro s fr h hl _ _ _
    refine ⟨fr, .refl h hl, fun t v hv => ?_, by simp⟩
    cases hv
  | cons t ts ih =>
    intro s fr h hl hts hn hmax
    obtain ⟨⟨hread, hlater⟩, hts⟩ := List.forall_mem_cons.mp hts
    rw [run_mapM_cons] at hmax ⊢
    by_cases hstrided : ∃ stride, i.shapeOf t = .strided stride
    · obtain ⟨stride, hshape⟩ := hstrided
      rw [run_lanesOf_of_strided hshape] at hmax ⊢
      simp only [List.filterMap_cons_some (f := id) rfl] at hmax ⊢
      have hdef : t ∈ i.defs := by
        by_contra hdef
        rw [LaneInfo.shapeOf_of_outside hdef] at hshape
        cases hshape
      have hmax' := Int.le_trans (Int.ofNat_le.mpr (le_temps_mapM_lanesOf i ts _)) hmax
      obtain ⟨fr₁, h₁, hlookup⟩ :=
        emits_ladder call m hw h hl (hread.2 hdef) (hlater hdef) hshape hn hmax'
      obtain ⟨fr₂, h₂, honly, hall⟩ :=
        ih h₁.simulates h₁.laid hts (Nat.le_trans hn h₁.le) hmax
      refine ⟨fr₂, h₁.trans h₂, fun t' v hv => ?_, ?_⟩
      · rw [List.lookup_cons] at hv
        split at hv
        · rename_i e
          rw [beq_iff_eq] at e
          subst e
          exact ⟨_, stride, (Option.some.inj hv).symm, hshape, h₂.keeps _ _ hlookup⟩
        · exact honly t' v hv
      · intro t' ht' stride' hshape'
        rw [List.lookup_cons]
        split
        · exact ⟨_, rfl⟩
        · rename_i e
          refine hall t' ((List.mem_cons.mp ht').resolve_left ?_) stride' hshape'
          rintro rfl
          simp at e
    · have hnot : ∀ stride, i.shapeOf t ≠ .strided stride := fun stride e => hstrided ⟨stride, e⟩
      rw [run_lanesOf_of_not_strided hnot] at hmax ⊢
      simp only [List.filterMap_cons_none (f := id) rfl] at hmax ⊢
      obtain ⟨fr', h', honly, hall⟩ := ih h hl hts hn hmax
      refine ⟨fr', h', honly, List.forall_mem_cons.mpr ⟨fun stride e => absurd e (hnot stride), hall⟩⟩

/-! ### Instructions -/

theorem run_instr_flat (hx : x.isPlain = true) (hw : x.write = some t)
    (hflat : (i.shapeOf t).isVector = false) (s : WidenState) :
    ((instr i x).run s).2 = { s with out := s.out ++ [x] } := by
  have hvector : i.isVectorInstr x = false := by
    unfold LaneInfo.isVectorInstr
    rw [if_neg (by cases x <;> simp_all [Instr.isPlain, Instr.isVector, Instr.isCall]), hw]
    exact hflat
  unfold instr
  rw [hvector]
  rfl

theorem run_instr_vector (hx : x.isPlain = true) (hw : x.write = some t)
    (hvec : (i.shapeOf t).isVector = true) (s : WidenState) :
    ((instr i x).run s).2 =
      { ((x.readTemps.mapM (lanesOf i)).run s).2 with
        out := ((x.readTemps.mapM (lanesOf i)).run s).2.out ++
          [.vec i.width none (x.subst fun u =>
            (((x.readTemps.mapM (lanesOf i)).run s).1.filterMap id).lookup u)] } := by
  have hvector : i.isVectorInstr x = true := by
    unfold LaneInfo.isVectorInstr
    rw [hw]
    split
    · rfl
    · exact hvec
  have hreads : (Instr.vec i.width none x).readTemps = x.readTemps := by
    simp [Instr.readTemps, Instr.reads]
  unfold instr
  rw [hvector, if_neg (by simp), if_neg (by cases x <;> simp_all [Instr.isPlain, Instr.isVector])]
  simp only [hreads]
  rfl

theorem Laid.setEntry (h : Laid i n (t :: later) lanes s fr) (hr : t.Reserved n)
    (hmax : (s.temps : Int) ≤ u32Max) {c : Nat → Cell} {l : Lanes}
    (hlanes : ∀ k < i.width, lanes' k = setEntry t [c k] (lanes k)) {out : List Instr} :
    Laid i n later lanes' { s with out := out } (setEntry t l fr) := by
  refine ⟨h.fresh, fun t' u hu => ?_⟩
  obtain ⟨hlater, d, hd, hl⟩ := h.stored t' u hu
  obtain ⟨hne, hlater⟩ := not_or.mp (List.mem_cons.not.mp hlater)
  refine ⟨hlater, d, fun k hk => ?_, ?_⟩
  · rw [hlanes k hk, lookup_setEntry_of_ne _ _ hne]
    exact hd k hk
  · rw [lookup_setEntry_of_ne _ _ ((h.fresh t' u hu).ne_of_reserved hmax hr)]
    exact hl

/-- What an operand stands for once its lanes are laid out. -/
theorem lane_subst (h : i.Simulates n known lanes fr) (hl : Laid i n later lanes s fr)
    {σ : Temp → Option Value} {v : Value} (hv : ∀ t, v = .temp t → i.Readable n known t)
    (hdef : i.shape v ≠ .unknown)
    (honly : ∀ t v, σ t = some v → ∃ u stride, v = .temp u ∧ i.shapeOf t = .strided stride ∧
      s.ladders.lookup t = some u)
    (hall : ∀ t, v = .temp t → ∀ stride, i.shapeOf t = .strided stride → ∃ v, σ t = some v)
    {k : Nat} (hk : k < i.width) : fr.lane (v.subst σ) k = (lanes k).lane v 0 := by
  by_cases hstrided : ∃ t stride, v = .temp t ∧ i.shapeOf t = .strided stride
  · obtain ⟨t, stride, rfl, hshape⟩ := hstrided
    obtain ⟨w, hw⟩ := hall t rfl stride hshape
    obtain ⟨u, -, rfl, -, hu⟩ := honly t w hw
    obtain ⟨-, c, hc, hlookup⟩ := hl.stored t u hu
    have hrep : LaneShape.varying.Represents i.width ((List.range i.width).map c) c :=
      (LaneShape.represents_vector rfl).mpr (.inr rfl)
    rw [Value.subst, hw, Option.getD_some, hrep.lane rfl hlookup hk,
      Frame.lane_of_lookup (hc k hk)]
  · have hsame : v.subst σ = v := by
      cases v with
      | temp t =>
        cases hσ : σ t with
        | none => simp [Value.subst, hσ]
        | some w =>
          obtain ⟨u, stride, -, hshape, -⟩ := honly t w hσ
          exact absurd ⟨t, stride, rfl, hshape⟩ hstrided
      | _ => rfl
    rw [hsame]
    refine h.lane_eq hv ?_ hk
    cases v with
    | temp t =>
      have hnot : ∀ stride, i.shapeOf t ≠ .strided stride := fun stride e =>
        hstrided ⟨t, stride, rfl, e⟩
      change (i.shapeOf t).isVector = true ∨ i.shapeOf t = .uniform
      change i.shapeOf t ≠ .unknown at hdef
      cases hs : i.shapeOf t with
      | strided stride => exact absurd hs (hnot stride)
      | unknown => exact absurd hs hdef
      | uniform => exact .inr rfl
      | varying | partials => exact .inl rfl
    | _ => exact .inr rfl

/-- The shape of what an instruction defines tells the truth about the lanes: where it does not
vary, neither do the operands, and what the lanes compute conforms to it. -/
structure Fits (i : LaneInfo) (lanes : Nat → Frame) (x : Instr) (t : Temp) : Prop where
  flat : (i.shapeOf t).isVector = false → ∀ v ∈ x.reads, (i.shape v).isVector = false
  conforms : ∀ c : Nat → Cell, (∀ k < i.width, x.resultOf ((lanes k).lane · 0) = .ok (c k)) →
    (i.shapeOf t).Conforms i.width c

/-- What is emitted for an instruction computes what the lanes compute. -/
theorem emits_instr (hw : 0 < i.width) (h : i.Simulates n known lanes fr)
    (hl : Laid i n (t :: later) lanes s fr) (hx : x.isPlain = true) (hwrite : x.write = some t)
    (ht : t ∈ i.defs) (hr : t.Reserved n)
    (hreads : ∀ u ∈ x.readTemps, i.Readable n known u ∧ (u ∈ i.defs → u ∉ t :: later))
    (hdef : ∀ v, i.shape v ≠ .unknown) (hfits : Fits i lanes x t)
    (hlanes : ∀ k < i.width, Gives (x.exec call (lanes k)) m (lanes' k) m)
    (hn : n ≤ s.temps) (hmax : (((instr i x).run s).2.temps : Int) ≤ u32Max) :
    ∃ fr', Emits call m i n (t :: known) later lanes' s ((instr i x).run s).2 fr fr' := by
  have hv : ∀ v ∈ x.reads, ∀ u, v = .temp u → u ∈ x.readTemps := fun v hv u e =>
    List.mem_filterMap.mpr ⟨v, hv, by rw [e]; rfl⟩
  have hresult : ∀ k, ∃ c, k < i.width → x.resultOf ((lanes k).lane · 0) = .ok c ∧
      lanes' k = setEntry t [c] (lanes k) := by
    intro k
    by_cases hk : k < i.width
    · obtain ⟨c, hc, he, -⟩ := (Instr.gives_exec_iff hx hwrite fun u hu =>
        h.width_eq_one (hreads u hu).1 hk).mp (hlanes k hk)
      exact ⟨c, fun _ => ⟨hc, he⟩⟩
    · exact ⟨default, fun hk' => absurd hk' hk⟩
  choose c hc using hresult
  have hcompute : ∀ k < i.width, x.resultOf ((lanes k).lane · 0) = .ok (c k) := fun k hk =>
    (hc k hk).1
  have hset : ∀ k < i.width, lanes' k = setEntry t [c k] (lanes k) := fun k hk => (hc k hk).2
  by_cases hvec : (i.shapeOf t).isVector = true
  · rw [run_instr_vector hx hwrite hvec] at hmax ⊢
    obtain ⟨fr₁, h₁, honly, hall⟩ :=
      emits_lanesOf call m hw h hl hreads hn hmax
    have hexec : Gives (Instr.exec call fr₁ (.vec i.width none (x.subst fun u =>
        (((x.readTemps.mapM (lanesOf i)).run s).1.filterMap id).lookup u))) m
        (setEntry t ((List.range i.width).map c) fr₁) m := by
      refine Instr.gives_exec_vec ?_ ?_ fun k hk => ?_
      · cases x <;> first | rfl | cases hx
      · cases x <;> first | exact hwrite | cases hx
      · rw [Instr.resultOf_subst hx, ← hcompute k hk]
        refine Instr.resultOf_congr fun v hmem => ?_
        exact lane_subst h₁.simulates h₁.laid (fun u e => (hreads u (hv v hmem u e)).1) (hdef v)
          honly (fun u e => hall u (hv v hmem u e)) hk
    refine ⟨_, h₁.trans ⟨⟨_, rfl, gives_bind.mpr ⟨_, _, hexec, gives_pure.mpr ⟨rfl, rfl⟩⟩⟩,
      h₁.simulates.setEntry_inside ht hr hset ?_, h₁.laid.setEntry hr hmax hset, fun _ _ h => h,
      Nat.le_refl _⟩⟩
    exact (LaneShape.represents_vector hvec).mpr (.inr rfl)
  · have hflat : (i.shapeOf t).isVector = false := by simpa using hvec
    rw [run_instr_flat hx hwrite hflat] at hmax ⊢
    have hshape := hfits.flat hflat
    have hexec : Gives (x.exec call fr) m (setEntry t [c 0] fr) m := by
      refine (Instr.gives_exec_iff hx hwrite fun u hu => ?_).mpr ⟨c 0, ?_, rfl, rfl⟩
      · obtain ⟨v, hmem, e⟩ := List.mem_filterMap.mp hu
        refine h.width_flat (hreads u hu).1 ?_ hw
        have := hshape v hmem
        rwa [LaneInfo.shape, e] at this
      · rw [← hcompute 0 hw]
        refine Instr.resultOf_congr fun v hmem => ?_
        exact h.lane_flat (fun u e => (hreads u (hv v hmem u e)).1) (hshape v hmem) hw 0
    refine ⟨_, ⟨⟨_, rfl, gives_bind.mpr ⟨_, _, hexec, gives_pure.mpr ⟨rfl, rfl⟩⟩⟩,
      h.setEntry_inside ht hr hset ?_, hl.setEntry hr hmax hset, fun _ _ h => h, Nat.le_refl _⟩⟩
    exact (LaneShape.represents_flat hflat).mpr ⟨rfl, hfits.conforms c hcompute⟩

/-! ### The instructions of a block -/

/-- The shape of what an instruction defines absorbs what the instruction makes of the shapes of its
operands, or else was fixed from outside, which holds of the lanes in the end. -/
def Backed (i : LaneInfo) (finals : Nat → Frame) (x : Instr) (t : Temp) : Prop :=
  (i.shapeOf t).Absorbs (LaneShape.transfer i.shape x) ∨
    (∀ v ∈ x.reads, (i.shape v).isVector = false) ∧
      ∀ c : Nat → Cell, (∀ k < i.width, (finals k).lookup t = some [c k]) →
        (i.shapeOf t).Conforms i.width c

theorem Backed.fits {finals : Nat → Frame} (h : Backed i finals x t)
    (hs : i.Simulates n known lanes fr) (hx : x.isPlain = true)
    (hreads : ∀ u ∈ x.readTemps, i.Readable n known u) (hdef : ∀ v, i.shape v ≠ .unknown)
    (hfinals : ∀ c : Nat → Cell, (∀ k < i.width, x.resultOf ((lanes k).lane · 0) = .ok (c k)) →
      ∀ k < i.width, (finals k).lookup t = some [c k]) : Fits i lanes x t := by
  rcases h with h | ⟨hflat, hconf⟩
  · have hknown : LaneShape.transfer i.shape x ≠ .unknown := LaneShape.transfer_ne_unknown hx hdef
    refine ⟨fun hflat => ?_, fun c hc => (hs.conforms_transfer hx hreads hc).of_absorbs h hknown⟩
    refine LaneShape.flat_of_transfer hx hdef ?_
    rcases LaneShape.absorbs_iff.mp h with e | e | ⟨e, -⟩
    · exact absurd e hknown
    · rwa [← e]
    · rw [e] at hflat
      cases hflat
  · exact ⟨fun _ => hflat, fun c hc => hconf c (hfinals c hc)⟩

/-- Instructions that read what is known by then, and is not written afterwards. -/
def Ordered (i : LaneInfo) (n : TempCounter) : List Temp → List Instr → Prop
  | _, [] => True
  | known, x :: xs =>
    (∀ u ∈ x.readTemps, i.Readable n known u ∧
      (u ∈ i.defs → u ∉ (x :: xs).filterMap Instr.write)) ∧
      Ordered i n (x.write.toList ++ known) xs

theorem run_forM_cons (xs : List Instr) (s : WidenState) :
    ((x :: xs).forM (instr i)).run s = (xs.forM (instr i)).run ((instr i x).run s).2 :=
  rfl

/-- What is not to be run lane by lane stays as it is. -/
theorem run_instr_of_not (h : i.isVectorInstr x = false) (s : WidenState) :
    ((instr i x).run s).2 = { s with out := s.out ++ [x] } := by
  unfold instr
  rw [h]
  rfl

/-- What is to be run lane by lane is emitted in vector form, behind the lanes that it reads. -/
theorem run_instr_of_vector (h : i.isVectorInstr x = true) (s : WidenState) : ∃ y : Instr,
    y.isVector = true ∧ y.write = x.write ∧ y.reads = x.reads ∧ y.wellTyped = x.wellTyped ∧ ((instr i x).run s).2 =
      { ((y.readTemps.mapM (lanesOf i)).run s).2 with
        out := ((y.readTemps.mapM (lanesOf i)).run s).2.out ++
          [y.subst fun u => (((y.readTemps.mapM (lanesOf i)).run s).1.filterMap id).lookup u] } := by
  refine ⟨if x.isVector then x else .vec i.width none x, ?_, ?_, ?_, ?_, ?_⟩
  · split
    · assumption
    · rfl
  · split <;> rfl
  · split <;> simp [Instr.reads]
  · split <;> rfl
  · unfold instr
    rw [h]
    rfl

theorem le_temps_instr (x : Instr) (s : WidenState) : s.temps ≤ ((instr i x).run s).2.temps := by
  cases h : i.isVectorInstr x with
  | false =>
    rw [run_instr_of_not h]
  | true =>
    obtain ⟨y, -, -, -, -, hrun⟩ := run_instr_of_vector h s
    rw [hrun]
    exact le_temps_mapM_lanesOf i _ s

theorem le_temps_forM : ∀ (xs : List Instr) (s : WidenState),
    s.temps ≤ ((xs.forM (instr i)).run s).2.temps := by
  intro xs
  induction xs with
  | nil => exact fun s => Nat.le_refl _
  | cons x xs ih =>
    intro s
    rw [run_forM_cons]
    exact Nat.le_trans (le_temps_instr x s) (ih _)

/-- What is emitted for the instructions of a block computes what the lanes compute. -/
theorem emits_instrs (hw : 0 < i.width) (hdef : ∀ v, i.shape v ≠ .unknown) {finals : Nat → Frame} :
    ∀ {xs : List Instr} {known : List Temp} {lanes : Nat → Frame} {s : WidenState} {fr : Frame},
    i.Simulates n known lanes fr → Laid i n (xs.filterMap Instr.write) lanes s fr →
    (∀ x ∈ xs, x.isPlain = true) →
    (∀ x ∈ xs, ∀ t, x.write = some t → t ∈ i.defs ∧ t.Reserved n ∧ Backed i finals x t) →
    Ordered i n known xs → (xs.filterMap Instr.write).Nodup →
    (∀ k < i.width, Gives (xs.foldlM (Instr.exec call) (lanes k)) m (finals k) m) →
    n ≤ s.temps → (((xs.forM (instr i)).run s).2.temps : Int) ≤ u32Max →
    ∃ fr', Emits call m i n (xs.filterMap Instr.write ++ known) [] finals s
      ((xs.forM (instr i)).run s).2 fr fr' := by
  intro xs
  induction xs with
  | nil =>
    intro known lanes s fr h hl _ _ _ _ hlanes _ _
    have hsame : ∀ k < i.width, finals k = lanes k := fun k hk => ((gives_pure.mp (hlanes k hk)).1).symm
    refine ⟨fr, .refl (h.congr_lanes hsame) ⟨hl.fresh, fun t u hu => ?_⟩⟩
    obtain ⟨hlater, c, hc, hu⟩ := hl.stored t u hu
    exact ⟨hlater, c, fun k hk => by rw [hsame k hk]; exact hc k hk, hu⟩
  | cons x xs ih =>
    intro known lanes s fr h hl hplain hbacked hordered hnodup hlanes hn hmax
    obtain ⟨hx, hplain⟩ := List.forall_mem_cons.mp hplain
    obtain ⟨hback, hbacked⟩ := List.forall_mem_cons.mp hbacked
    obtain ⟨hreads, hordered⟩ := hordered
    obtain ⟨t, hwrite⟩ := Instr.write_of_isPlain hx
    obtain ⟨ht, hr, hback⟩ := hback t hwrite
    rw [List.filterMap_cons_some hwrite] at hl hnodup hreads ⊢
    rw [hwrite] at hordered
    obtain ⟨hnot, hnodup⟩ := List.nodup_cons.mp hnodup
    -- the frames of the lanes after the instruction
    have hstep : ∀ k, ∃ fr', k < i.width → Gives (x.exec call (lanes k)) m fr' m ∧
        Gives (xs.foldlM (Instr.exec call) fr') m (finals k) m := by
      intro k
      by_cases hk : k < i.width
      · obtain ⟨fr', m', h₁, h₂⟩ := gives_bind.mp (hlanes k hk)
        obtain ⟨-, -, -, rfl⟩ := (Instr.gives_exec_iff hx hwrite fun u hu =>
          h.width_eq_one (hreads u hu).1 hk).mp h₁
        exact ⟨fr', fun _ => ⟨h₁, h₂⟩⟩
      · exact ⟨[], fun hk' => absurd hk' hk⟩
    choose lanes' hlanes' using hstep
    have hfits : Fits i lanes x t := by
      refine hback.fits h hx (fun u hu => (hreads u hu).1) hdef fun c hc k hk => ?_
      obtain ⟨h₁, h₂⟩ := hlanes' k hk
      obtain ⟨d, hd, he, -⟩ := (Instr.gives_exec_iff hx hwrite fun u hu =>
        h.width_eq_one (hreads u hu).1 hk).mp h₁
      obtain rfl : c k = d := Except.ok.inj ((hc k hk).symm.trans hd)
      rw [Instr.lookup_of_gives_foldlM h₂ hnot, he]
      exact lookup_setEntry_self ..
    rw [run_forM_cons] at hmax ⊢
    have hmax' := Int.le_trans (Int.ofNat_le.mpr (le_temps_forM xs _)) hmax
    obtain ⟨fr₁, h₁⟩ := emits_instr hw h hl hx hwrite ht hr hreads hdef hfits
      (fun k hk => (hlanes' k hk).1) hn hmax'
    obtain ⟨fr₂, h₂⟩ := ih h₁.simulates h₁.laid hplain hbacked hordered hnodup
      (fun k hk => (hlanes' k hk).2) (Nat.le_trans hn h₁.le) hmax
    have h₃ := h₁.trans h₂
    refine ⟨fr₂, h₃.runs, h₃.simulates.subset fun u hu => ?_, h₃.laid, h₃.keeps, h₃.le⟩
    simp only [List.mem_append, List.mem_cons] at hu ⊢
    tauto

end Widening

end LoopLanes
