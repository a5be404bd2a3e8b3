/-
Masks, as they are executed.

Building masks adds instructions; `Emits` says which frame they lead to.  Every name that is handed
out on the way is new, so a frame keeps what it had (`Frame.Keeps`), and a mask stays what it was:
`Frame.Masks` says that it holds, as one or zero, exactly in a lane of which something is true.

* `emits_any` — the mask of a block holds where the mask of one of its edges does;
* `emits_leave` — the masks of the edges out of a block tell where its terminator goes.
-/
import LoopLanes.Proofs.Cfg.Names
import LoopLanes.Proofs.Lanes.Scalar
import LoopLanes.Widen.Linearize

namespace LoopLanes

variable {n n₀ k k' : TempCounter} {fr fr' fr'' : Frame} {t : Temp} {v : Value} {c : Cell} {P Q : Prop}

/-! ### Frames that keep what they had -/

namespace Temp.Fresh

theorem mono_left (h : t.Fresh n k) (hle : n₀ ≤ n) : t.Fresh n₀ k := by
  obtain ⟨j, hj, hj', e⟩ := h
  exact ⟨j, Nat.lt_of_le_of_lt hle hj, hj', e⟩

/-- A name is not handed out again. -/
theorem not_later (h : t.Fresh n₀ n) : ¬ t.Fresh n k := fun h' => h.ne_of_fresh h' rfl

end Temp.Fresh

namespace Frame

/-- Only names handed out between two stages of a counter were set. -/
def Keeps (n k : TempCounter) (fr fr' : Frame) : Prop := ∀ t : Temp, ¬ t.Fresh n k → fr'.lookup t = fr.lookup t

namespace Keeps

theorem refl (n k : TempCounter) (fr : Frame) : Keeps n k fr fr := fun _ _ => rfl

theorem mono (h : Keeps n k fr fr') (hle : k ≤ k') : Keeps n k' fr fr' :=
  fun t ht => h t fun hf => ht (hf.mono hle)

theorem mono_left (h : Keeps n k fr fr') (hle : n₀ ≤ n) : Keeps n₀ k fr fr' :=
  fun t ht => h t fun hf => ht (hf.mono_left hle)

theorem trans (h : Keeps n k fr fr') (h' : Keeps k k' fr' fr'') (hle : n ≤ k) (hle' : k ≤ k') :
    Keeps n k' fr fr'' :=
  fun t ht => (h' t fun hf => ht (hf.mono_left hle)).trans (h t fun hf => ht (hf.mono hle'))

theorem setEntry (n : TempCounter) (ty : Ty) (ls : Lanes) (fr : Frame) :
    Keeps n (n + 1) fr (setEntry (n.fresh ty false).1 ls fr) := by
  intro t ht
  refine lookup_setEntry_of_ne ls fr ?_
  rintro rfl
  exact ht (.of_fresh n ty false)

/-- What an operand reads, if it is not a name handed out in between. -/
theorem read_eq (h : Keeps n k fr fr') (hv : ∀ t, v = .temp t → ¬ t.Fresh n k) : fr'.read v = fr.read v := by
  cases v with
  | temp t => simp only [Frame.read, h t (hv t rfl)]
  | _ => rfl

end Keeps

/-- An operand has a value in a single lane. -/
def Reads (fr : Frame) (v : Value) (c : Cell) : Prop := fr.read v = .ok [c] ∧ fr.lane v 0 = .ok c

theorem reads_temp : fr.Reads (.temp t) c ↔ fr.lookup t = some [c] :=
  ⟨fun h => lookup_of_read h.1, fun h => ⟨by simp [Frame.read, h], lane_of_lookup h 0⟩⟩

theorem reads_int {x : Int32} (h : fr.read v = .ok [.int x]) : fr.Reads v (.int x) := ⟨h, lane_of_read h 0⟩

theorem Reads.congr (h : fr.Reads v c) (hv : ∀ t, v = .temp t → fr'.lookup t = fr.lookup t) : fr'.Reads v c := by
  cases v with
  | temp t => exact reads_temp.mpr ((hv t rfl).trans (reads_temp.mp h))
  | _ => exact h

/-- A mask says, as one or zero, whether something is true; no mask says that it is. -/
def Masks (fr : Frame) (n₀ n : TempCounter) (mask : Option Value) (P : Prop) : Prop :=
  match mask with
  | none => P
  | some v => ∃ t : Temp, v = .temp t ∧ t.Fresh n₀ n ∧
      (P ∧ fr.lookup t = some [.int 1] ∨ ¬ P ∧ fr.lookup t = some [.int 0])

namespace Masks

variable {mask : Option Value}

theorem mono (h : fr.Masks n₀ n mask P) (hle : n ≤ k) : fr.Masks n₀ k mask P := by
  cases mask with
  | none => exact h
  | some v =>
    obtain ⟨t, rfl, ht, hlook⟩ := h
    exact ⟨t, rfl, ht.mono hle, hlook⟩

/-- A mask stays what it is while other names are handed out. -/
theorem later (h : fr.Masks n₀ n mask P) (hk : Keeps n k fr fr') : fr'.Masks n₀ n mask P := by
  cases mask with
  | none => exact h
  | some v =>
    obtain ⟨t, rfl, ht, hlook⟩ := h
    exact ⟨t, rfl, ht, by rwa [hk t ht.not_later]⟩

theorem keep (h : fr.Masks n₀ n mask P) (hk : Keeps n k fr fr') (hle : n ≤ k) : fr'.Masks n₀ k mask P :=
  (h.later hk).mono hle

theorem congr (h : fr.Masks n₀ n mask P) (hiff : P ↔ Q) : fr.Masks n₀ n mask Q := propext hiff ▸ h

/-- A fresh name that was set to a truth value. -/
theorem of_setEntry (hle : n₀ ≤ n) {x : Int32} (hx : P ∧ x = 1 ∨ ¬ P ∧ x = 0) (ty : Ty) :
    Frame.Masks (LoopLanes.setEntry (n.fresh ty false).1 [.int x] fr) n₀ (n + 1)
      (some (.temp (n.fresh ty false).1)) P := by
  refine ⟨_, rfl, (Temp.Fresh.of_fresh n ty false).mono_left hle, ?_⟩
  rw [lookup_setEntry_self]
  rcases hx with ⟨hp, rfl⟩ | ⟨hp, rfl⟩
  · exact .inl ⟨hp, rfl⟩
  · exact .inr ⟨hp, rfl⟩

/-- A mask is read as an integer. -/
theorem read (h : fr.Masks n₀ n (some v) P) :
    ∃ x : Int32, fr.read v = .ok [.int x] ∧ (P ∧ x = 1 ∨ ¬ P ∧ x = 0) := by
  obtain ⟨t, rfl, -, ⟨hp, hlook⟩ | ⟨hp, hlook⟩⟩ := h
  · exact ⟨1, (reads_temp.mpr hlook).1, .inl ⟨hp, rfl⟩⟩
  · exact ⟨0, (reads_temp.mpr hlook).1, .inr ⟨hp, rfl⟩⟩

end Masks

end Frame

/-- The mask of an edge; none as long as it is not set. -/
def MaskState.edge (s : MaskState) (source target : Int) : Option Value :=
  (s.edges.lookup (source, target)).join

theorem MaskState.edge_of_edges {s s' : MaskState} (h : s'.edges = s.edges) (q c : Int) :
    s'.edge q c = s.edge q c := by rw [edge, h, edge]

namespace Masking

variable {α β : Type} {call : Caller} {m : Machine} {x : Masking α} {s s' s'' : MaskState} {a : α} {b : β}

/-! ### Computations that add instructions -/

/-- A computation neither gives names back nor takes instructions away. -/
def Grows (x : Masking α) : Prop := ∀ s, s.temps ≤ (x.run s).2.temps ∧ s.out <+: (x.run s).2.out

theorem grows_pure (a : α) : Grows (pure a) := fun _ => ⟨Nat.le_refl _, List.prefix_refl _⟩

theorem Grows.bind {g : α → Masking β} (hx : Grows x) (hg : ∀ a, Grows (g a)) : Grows (x >>= g) := fun s =>
  have h := hx s
  have h' := hg (x.run s).1 (x.run s).2
  ⟨Nat.le_trans h.1 h'.1, h.2.trans h'.2⟩

theorem grows_fresh (ty : Ty) : Grows (fresh ty) := fun s => ⟨Nat.le_succ s.temps, List.prefix_refl _⟩

theorem grows_emit (i : Instr) : Grows (emit i) := fun _ => ⟨Nat.le_refl _, List.prefix_append _ _⟩

theorem grows_edge (q b : Int) : Grows (edge q b) := fun _ => ⟨Nat.le_refl _, List.prefix_refl _⟩

theorem grows_setEdge (q : Int) (l : Label) (mask : Option Value) : Grows (setEdge q l mask) := by
  intro s
  unfold setEdge
  split <;> exact ⟨Nat.le_refl _, List.prefix_refl _⟩

theorem grows_test (cond : Value) (op : CompOp) : Grows (test cond op) :=
  (grows_fresh _).bind fun _ => (grows_emit _).bind fun _ => grows_pure _

theorem grows_combine (op : ArithOp) (v w : Value) : Grows (combine op v w) :=
  (grows_fresh _).bind fun _ => (grows_emit _).bind fun _ => grows_pure _

theorem grows_both (mask : Option Value) (cond : Value) : Grows (both mask cond) := by
  cases mask with
  | none => exact grows_pure _
  | some v => exact (grows_combine _ _ _).bind fun _ => grows_pure _

theorem grows_any : ∀ (ms : List (Option Value)) (acc : Option Value), Grows (any acc ms) := by
  intro ms
  induction ms with
  | nil => exact fun acc => grows_pure acc
  | cons mask ms ih =>
    intro acc
    cases mask with
    | none => exact grows_pure _
    | some v =>
      cases acc with
      | none => exact ih _
      | some w => exact (grows_combine _ _ _).bind fun _ => ih _

theorem grows_forM {γ : Type} {g : γ → Masking PUnit} (hg : ∀ c, Grows (g c)) : ∀ cs : List γ, Grows (cs.forM g) := by
  intro cs
  induction cs with
  | nil => exact grows_pure _
  | cons c cs ih => exact (hg c).bind fun _ => ih

theorem grows_mapM {γ δ : Type} {g : γ → Masking δ} (hg : ∀ c, Grows (g c)) :
    ∀ cs : List γ, Grows (cs.mapM g) := by
  intro cs
  induction cs with
  | nil => exact grows_pure _
  | cons c cs ih =>
    rw [List.mapM_cons]
    exact (hg c).bind fun _ => ih.bind fun _ => grows_pure _

theorem grows_selections (target : Temp) (ty : Ty) : ∀ (picks : List (Value × Value)) (base : Value),
    Grows (selections target ty base picks) := by
  intro picks
  induction picks with
  | nil => exact fun base => grows_pure _
  | cons pick picks ih =>
    intro base
    cases picks with
    | nil => exact grows_emit _
    | cons next picks => exact (grows_fresh _).bind fun _ => (grows_emit _).bind fun _ => ih _

theorem grows_phi (block : Int) (p : Phi) : Grows (phi block p) := by
  refine (grows_mapM (fun e => (grows_edge _ _).bind fun _ => grows_pure _) _).bind fun entries => ?_
  split
  · exact grows_pure _
  · split <;> exact grows_selections _ _ _ _

theorem grows_maskOf (p : BodyPlan) (b : Block) : Grows (p.maskOf b) := by
  refine (grows_mapM (fun q => grows_edge q b.id) _).bind fun incoming => ?_
  split
  · exact grows_pure _
  · exact grows_any _ _

theorem grows_leave (mask : Option Value) (block : Int) (j : Instr) : Grows (BodyPlan.leave mask block j) := by
  unfold BodyPlan.leave
  split
  · split
    · exact (grows_setEdge _ _ _).bind fun _ => grows_setEdge _ _ _
    · exact (grows_test _ _).bind fun _ => (grows_test _ _).bind fun _ => (grows_both _ _).bind fun _ =>
        (grows_both _ _).bind fun _ => (grows_setEdge _ _ _).bind fun _ => grows_setEdge _ _ _
  · exact grows_forM (fun l => grows_setEdge _ _ _) _

/-! ### What the instructions do -/

/-- A computation adds instructions that lead from one frame to another one. -/
def Emits (call : Caller) (m : Machine) (x : Masking α) (s : MaskState) (fr : Frame) (a : α) (s' : MaskState)
    (fr' : Frame) : Prop :=
  x.run s = (a, s') ∧ ∃ is, s'.out = s.out ++ is ∧ Gives (is.foldlM (Instr.exec call) fr) m fr' m

theorem emits_pure (a : α) (s : MaskState) (fr : Frame) : Emits call m (pure a) s fr a s fr :=
  ⟨rfl, [], by simp, gives_pure.mpr ⟨rfl, rfl⟩⟩

/-- A computation that adds no instruction. -/
theorem emits_of_run (h : x.run s = (a, s')) (hout : s'.out = s.out) : Emits call m x s fr a s' fr :=
  ⟨h, [], by simp [hout], gives_pure.mpr ⟨rfl, rfl⟩⟩

/-- Going on after a computation whose result is known. -/
theorem run_bind {g : α → Masking β} (h : x.run s = (a, s')) : (x >>= g).run s = (g a).run s' := by
  show (g (x.run s).1).run (x.run s).2 = _
  rw [h]

theorem Emits.bind {g : α → Masking β} (h : Emits call m x s fr a s' fr')
    (h' : Emits call m (g a) s' fr' b s'' fr'') : Emits call m (x >>= g) s fr b s'' fr'' := by
  obtain ⟨hrun, is, hout, hexec⟩ := h
  obtain ⟨hrun', is', hout', hexec'⟩ := h'
  exact ⟨(run_bind hrun).trans hrun', is ++ is', by rw [hout', hout, List.append_assoc],
    gives_foldlM_append.mpr ⟨fr', m, hexec, hexec'⟩⟩

theorem Emits.temps_le (h : Emits call m x s fr a s' fr') (hx : Grows x) : s.temps ≤ s'.temps := by
  have := (hx s).1
  rwa [h.1] at this

/-- A name is handed out, and an instruction that sets it is added. -/
theorem emits_fresh {ty : Ty} {i : Temp → Instr} {t : Temp} (ht : t = (s.temps.fresh ty false).1)
    (h : Gives ((i t).exec call fr) m fr' m) {g : Temp → Masking α}
    (hg : Emits call m (g t) { s with temps := s.temps + 1, out := s.out ++ [i t] } fr' a s' fr'') :
    Emits call m (do let t ← fresh ty; emit (i t); g t) s fr a s' fr'' := by
  subst ht
  obtain ⟨hrun, is, hout, hexec⟩ := hg
  refine ⟨hrun, i (s.temps.fresh ty false).1 :: is, by simpa using hout, ?_⟩
  exact gives_bind.mpr ⟨fr', m, h, hexec⟩

/-- What a computation leaves alone, apart from the names that it takes. -/
structure Quiet (s s' : MaskState) (fr fr' : Frame) : Prop where
  temps : s.temps ≤ s'.temps
  edges : s'.edges = s.edges
  keeps : Frame.Keeps s.temps s'.temps fr fr'

theorem Quiet.refl (s : MaskState) (fr : Frame) : Quiet s s fr fr := ⟨Nat.le_refl _, rfl, .refl _ _ _⟩

theorem Quiet.trans (h : Quiet s s' fr fr') (h' : Quiet s' s'' fr' fr'') : Quiet s s'' fr fr'' :=
  ⟨Nat.le_trans h.temps h'.temps, h'.edges.trans h.edges, h.keeps.trans h'.keeps h.temps h'.temps⟩

section Rules

variable (call m)

/-- A condition is compared with zero. -/
theorem emits_test {cond : Value} {y : Int32} (op : CompOp) (hle : n₀ ≤ s.temps)
    (hread : fr.read cond = .ok [.int y]) {x : Int32} (hcompare : Cell.compare op (.int y) (.int 0) = .ok (.int x))
    (hx : P ∧ x = 1 ∨ ¬ P ∧ x = 0) :
    ∃ v s' fr', Emits call m (test cond op) s fr v s' fr' ∧ Quiet s s' fr fr' ∧
      fr'.Masks n₀ s'.temps (some v) P :=
  ⟨_, _, _, emits_fresh rfl (Instr.gives_exec_comp hread rfl hcompare) (emits_pure _ _ _),
    ⟨Nat.le_succ _, rfl, .setEntry _ _ _ _⟩, .of_setEntry hle hx _⟩

/-- Two masks are combined. -/
theorem emits_combine {v w : Value} (hle : n₀ ≤ s.temps) (hv : fr.Masks n₀ s.temps (some v) P)
    (hw : fr.Masks n₀ s.temps (some w) Q) {op : ArithOp} {R : Prop}
    (hop : ∀ y z : Int32, (P ∧ y = 1 ∨ ¬ P ∧ y = 0) → (Q ∧ z = 1 ∨ ¬ Q ∧ z = 0) →
      ∃ x : Int32, Cell.arith op (.int y) (.int z) = .ok (.int x) ∧ (R ∧ x = 1 ∨ ¬ R ∧ x = 0)) :
    ∃ u s' fr', Emits call m (combine op v w) s fr u s' fr' ∧ Quiet s s' fr fr' ∧
      fr'.Masks n₀ s'.temps (some u) R := by
  obtain ⟨y, hy, hyP⟩ := hv.read
  obtain ⟨z, hz, hzQ⟩ := hw.read
  obtain ⟨x, hx, hxR⟩ := hop y z hyP hzQ
  exact ⟨_, _, _, emits_fresh rfl (Instr.gives_exec_arith hy hz hx) (emits_pure _ _ _),
    ⟨Nat.le_succ _, rfl, .setEntry _ _ _ _⟩, .of_setEntry hle hxR _⟩

theorem arith_and {y z : Int32} (hy : P ∧ y = 1 ∨ ¬ P ∧ y = 0) (hz : Q ∧ z = 1 ∨ ¬ Q ∧ z = 0) :
    ∃ x : Int32, Cell.arith .and (.int y) (.int z) = .ok (.int x) ∧
      ((P ∧ Q) ∧ x = 1 ∨ ¬ (P ∧ Q) ∧ x = 0) := by
  rcases hy with ⟨hp, rfl⟩ | ⟨hp, rfl⟩ <;> rcases hz with ⟨hq, rfl⟩ | ⟨hq, rfl⟩
  · exact ⟨1, rfl, .inl ⟨⟨hp, hq⟩, rfl⟩⟩
  · exact ⟨0, rfl, .inr ⟨fun h => hq h.2, rfl⟩⟩
  · exact ⟨0, rfl, .inr ⟨fun h => hp h.1, rfl⟩⟩
  · exact ⟨0, rfl, .inr ⟨fun h => hp h.1, rfl⟩⟩

theorem arith_or {y z : Int32} (hy : P ∧ y = 1 ∨ ¬ P ∧ y = 0) (hz : Q ∧ z = 1 ∨ ¬ Q ∧ z = 0) :
    ∃ x : Int32, Cell.arith .or (.int y) (.int z) = .ok (.int x) ∧
      ((P ∨ Q) ∧ x = 1 ∨ ¬ (P ∨ Q) ∧ x = 0) := by
  rcases hy with ⟨hp, rfl⟩ | ⟨hp, rfl⟩ <;> rcases hz with ⟨hq, rfl⟩ | ⟨hq, rfl⟩
  · exact ⟨1, rfl, .inl ⟨.inl hp, rfl⟩⟩
  · exact ⟨1, rfl, .inl ⟨.inl hp, rfl⟩⟩
  · exact ⟨1, rfl, .inl ⟨.inr hq, rfl⟩⟩
  · exact ⟨0, rfl, .inr ⟨not_or.mpr ⟨hp, hq⟩, rfl⟩⟩

/-- The lanes of a mask in which a condition holds. -/
theorem emits_both {mask : Option Value} {cond : Value} (hle : n₀ ≤ s.temps)
    (hmask : fr.Masks n₀ s.temps mask P) (hcond : fr.Masks n₀ s.temps (some cond) Q) :
    ∃ r s' fr', Emits call m (both mask cond) s fr r s' fr' ∧ Quiet s s' fr fr' ∧
      fr'.Masks n₀ s'.temps r (P ∧ Q) := by
  cases mask with
  | none =>
    have hP : P := hmask
    exact ⟨_, s, fr, emits_pure _ _ _, .refl s fr, hcond.congr ⟨fun h => ⟨hP, h⟩, fun h => h.2⟩⟩
  | some v =>
    obtain ⟨u, s', fr', hemits, hquiet, hmasks⟩ := emits_combine call m hle hmask hcond
      fun _ _ => arith_and
    exact ⟨some u, s', fr', hemits.bind (emits_pure _ _ _), hquiet, hmasks⟩

/-- The lanes of any of some masks, those of a first one included. -/
theorem emits_any_some : ∀ {ms : List (Option Value)} {Ps : List Prop} {v : Value} {s : MaskState} {fr : Frame}
    {P : Prop}, n₀ ≤ s.temps → fr.Masks n₀ s.temps (some v) P →
    List.Forall₂ (fr.Masks n₀ s.temps) ms Ps →
      ∃ r s' fr', Emits call m (any (some v) ms) s fr r s' fr' ∧ Quiet s s' fr fr' ∧
        fr'.Masks n₀ s'.temps r (P ∨ ∃ Q ∈ Ps, Q) := by
  intro ms
  induction ms with
  | nil =>
    intro Ps v s fr P hle hv hms
    obtain rfl := List.forall₂_nil_left_iff.mp hms
    exact ⟨_, s, fr, emits_pure _ _ _, .refl s fr, hv.congr (by simp)⟩
  | cons mask ms ih =>
    intro Ps v s fr P hle hv hms
    obtain ⟨Q, Qs, hmask, hrest, rfl⟩ := List.forall₂_cons_left_iff.mp hms
    cases mask with
    | none => exact ⟨none, s, fr, emits_pure _ _ _, .refl s fr, .inr ⟨Q, List.mem_cons_self, hmask⟩⟩
    | some w =>
      obtain ⟨u, s₁, fr₁, hemits, hquiet, hu⟩ := emits_combine call m hle hv hmask
        fun _ _ => arith_or
      obtain ⟨r, s₂, fr₂, hemits', hquiet', hr⟩ := ih (Nat.le_trans hle hquiet.temps) hu
        (hrest.imp fun _ _ h => h.keep hquiet.keeps hquiet.temps)
      refine ⟨r, s₂, fr₂, hemits.bind hemits', hquiet.trans hquiet', hr.congr ?_⟩
      simp only [List.mem_cons, exists_eq_or_imp, or_assoc]

/-- The lanes of any of some masks. -/
theorem emits_any {ms : List (Option Value)} {Ps : List Prop} (hne : ms ≠ []) (hle : n₀ ≤ s.temps)
    (hms : List.Forall₂ (fr.Masks n₀ s.temps) ms Ps) :
    ∃ r s' fr', Emits call m (any none ms) s fr r s' fr' ∧ Quiet s s' fr fr' ∧
      fr'.Masks n₀ s'.temps r (∃ Q ∈ Ps, Q) := by
  cases ms with
  | nil => exact absurd rfl hne
  | cons mask ms =>
    obtain ⟨Q, Qs, hmask, hrest, rfl⟩ := List.forall₂_cons_left_iff.mp hms
    cases mask with
    | none => exact ⟨none, s, fr, emits_pure _ _ _, .refl s fr, Q, List.mem_cons_self, hmask⟩
    | some v =>
      obtain ⟨r, s', fr', hemits, hquiet, hr⟩ := emits_any_some call m hle hmask hrest
      exact ⟨r, s', fr', hemits, hquiet, hr.congr (by simp only [List.mem_cons, exists_eq_or_imp])⟩

/-! ### Edges and blocks -/

/-- Looking up the masks of some edges. -/
theorem run_mapM {γ δ : Type} {g : γ → Masking δ} {h : γ → δ} (hg : ∀ c, (g c).run s = (h c, s)) :
    ∀ cs : List γ, (cs.mapM g).run s = (cs.map h, s) := by
  intro cs
  induction cs with
  | nil => rfl
  | cons c cs ih =>
    rw [List.mapM_cons]
    show (let (d, s₁) := (g c).run s; (let (ds, s₂) := (cs.mapM g).run s₁; (d :: ds, s₂))) = _
    rw [hg c]
    dsimp only
    rw [ih]
    rfl

/-- The mask of a block is made of those of the edges into it, if not every lane comes to it. -/
theorem run_maskOf (p : BodyPlan) (b : Block) (s : MaskState) : (p.maskOf b).run s =
    ((if b.id = p.entry || p.postDom.dominates b.id p.entry then return none
      else any none (((b.prev.map (·.number)).filter (· != p.header)).map fun q => s.edge q b.id) :
        Masking (Option Value))).run s :=
  run_bind (run_mapM (g := fun q => edge q b.id) (h := fun q => s.edge q b.id) (fun _ => rfl) _)

/-- The mask of a block that not every lane comes to. -/
theorem emits_maskOf {p : BodyPlan} {b : Block} {T : Int → Prop}
    (hentry : ¬ (b.id = p.entry || p.postDom.dominates b.id p.entry) = true)
    (hne : (b.prev.map (·.number)).filter (· != p.header) ≠ []) (hle : n₀ ≤ s.temps)
    (hedges : ∀ q ∈ (b.prev.map (·.number)).filter (· != p.header),
      fr.Masks n₀ s.temps (s.edge q b.id) (T q)) :
    ∃ r s' fr', Emits call m (p.maskOf b) s fr r s' fr' ∧ Quiet s s' fr fr' ∧
      fr'.Masks n₀ s'.temps r (∃ q ∈ (b.prev.map (·.number)).filter (· != p.header), T q) := by
  have hrun := run_maskOf p b s
  rw [if_neg hentry] at hrun
  generalize (b.prev.map (·.number)).filter (· != p.header) = preds at hne hedges hrun
  have hms : List.Forall₂ (fr.Masks n₀ s.temps) (preds.map fun q => s.edge q b.id) (preds.map T) := by
    rw [List.forall₂_map_left_iff, List.forall₂_map_right_iff, List.forall₂_same]
    exact hedges
  obtain ⟨r, s', fr', hemits, hquiet, hr⟩ := emits_any call m (by simpa using hne) hle hms
  refine ⟨r, s', fr', ⟨hrun.trans hemits.1, hemits.2⟩, hquiet, hr.congr ?_⟩
  simp only [List.mem_map, exists_exists_and_eq_and]

/-- Setting the mask of one edge. -/
theorem emits_setEdge {l : Label} {id : Int} (hl : l.blockId? = some id) (q : Int) (mask : Option Value)
    (s : MaskState) (fr : Frame) :
    ∃ s', Emits call m (setEdge q l mask) s fr () s' fr ∧ s'.temps = s.temps ∧
      ∀ p c, s'.edge p c = if p = q ∧ c = id then mask else s.edge p c := by
  refine ⟨{ s with edges := ((q, id), mask) :: s.edges }, emits_of_run ?_ rfl, rfl, fun p c => ?_⟩
  · unfold setEdge
    rw [hl]
    rfl
  · by_cases h : p = q ∧ c = id
    · simp [MaskState.edge, h]
    · have hne : ((p, c) == (q, id)) = false := by simpa using h
      simp only [MaskState.edge, List.lookup_cons, hne, if_neg h]

/-- The masks of the edges out of a block are set: each says where its terminator goes. -/
structure Leaves (n₀ : TempCounter) (block : Int) (targets : List Label) (T : Label → Prop) (s s' : MaskState)
    (fr fr' : Frame) : Prop where
  temps : s.temps ≤ s'.temps
  keeps : Frame.Keeps s.temps s'.temps fr fr'
  other : ∀ q c, q ≠ block → s'.edge q c = s.edge q c
  edge : ∀ l ∈ targets, ∀ c, l.blockId? = some c → fr'.Masks n₀ s'.temps (s'.edge block c) (T l)

/-- The last step of leaving along two edges: their masks are set. -/
theorem emits_setEdges {l l' : Label} {id id' : Int} (hl : l.blockId? = some id) (hl' : l'.blockId? = some id')
    {q : Int} {mask mask' : Option Value} {T : Label → Prop} (hne : id = id' → mask = mask' ∧ (T l ↔ T l'))
    (hmask : fr.Masks n₀ s.temps mask (T l)) (hmask' : fr.Masks n₀ s.temps mask' (T l')) :
    ∃ s', Emits call m (do setEdge q l mask; setEdge q l' mask') s fr () s' fr ∧
      Leaves n₀ q [l, l'] T s s' fr fr := by
  obtain ⟨s₁, hemits, htemps, hedge⟩ := emits_setEdge call m hl q mask s fr
  obtain ⟨s₂, hemits', htemps', hedge'⟩ := emits_setEdge call m hl' q mask' s₁ fr
  have htemps₂ : s₂.temps = s.temps := htemps'.trans htemps
  refine ⟨s₂, hemits.bind hemits', Nat.le_of_eq htemps₂.symm, .refl _ _ _, ?_, ?_⟩
  · intro p c hp
    rw [hedge', hedge, if_neg fun h => hp h.1, if_neg fun h => hp h.1]
  · intro k hk c hc
    rw [hedge', hedge, htemps₂]
    rcases List.mem_cons.mp hk with rfl | hk
    · obtain rfl : id = c := Option.some.inj (hl.symm.trans hc)
      by_cases e : id = id'
      · obtain ⟨rfl, -⟩ := hne e
        simpa [e] using hmask
      · simpa [e] using hmask
    · obtain rfl := List.mem_singleton.mp hk
      obtain rfl : id' = c := Option.some.inj (hl'.symm.trans hc)
      simpa using hmask'

/-- The lanes in which a condition holds, and those in which it does not. -/
theorem emits_sides {mask : Option Value} {cond : Value} {y : Int32} (hle : n₀ ≤ s.temps)
    (hmask : fr.Masks n₀ s.temps mask P) (hread : fr.read cond = .ok [.int y])
    (hold : ∀ t, cond = .temp t → ¬ t.Fresh s.temps (s.temps + 1)) :
    ∃ yes no s₁ fr₁, Quiet s s₁ fr fr₁ ∧ fr₁.Masks n₀ s₁.temps yes (P ∧ y ≠ 0) ∧
      fr₁.Masks n₀ s₁.temps no (P ∧ ¬ y ≠ 0) ∧
      ∀ {g : Option Value → Option Value → Masking α} {a s' fr'}, Emits call m (g yes no) s₁ fr₁ a s' fr' →
        Emits call m (do
          let yes ← test cond .ne
          let no ← test cond .eq
          let yes ← both mask yes
          let no ← both mask no
          g yes no) s fr a s' fr' := by
  obtain ⟨ne, s₁, fr₁, h₁, hquiet₁, hne⟩ := emits_test call m (P := y ≠ 0) .ne
    (x := if y != 0 then 1 else 0) hle hread rfl (by by_cases hy : y = 0 <;> simp [hy])
  have htemps₁ : s₁.temps = s.temps + 1 := congrArg (fun r => r.2.temps) h₁.1.symm
  have hread₁ : fr₁.read cond = .ok [.int y] := by
    rw [hquiet₁.keeps.read_eq fun t ht hfresh => hold t ht (htemps₁ ▸ hfresh)]
    exact hread
  have hle₁ := Nat.le_trans hle hquiet₁.temps
  obtain ⟨eq, s₂, fr₂, h₂, hquiet₂, heq⟩ := emits_test call m (P := ¬ y ≠ 0) .eq
    (x := if y == 0 then 1 else 0) hle₁ hread₁ rfl (by by_cases hy : y = 0 <;> simp [hy])
  have hle₂ := Nat.le_trans hle₁ hquiet₂.temps
  have hmask₂ := (hmask.keep hquiet₁.keeps hquiet₁.temps).keep hquiet₂.keeps hquiet₂.temps
  obtain ⟨yes, s₃, fr₃, h₃, hquiet₃, hyes⟩ := emits_both call m hle₂ hmask₂
    (hne.keep hquiet₂.keeps hquiet₂.temps)
  have hle₃ := Nat.le_trans hle₂ hquiet₃.temps
  obtain ⟨no, s₄, fr₄, h₄, hquiet₄, hno⟩ := emits_both call m hle₃
    (hmask₂.keep hquiet₃.keeps hquiet₃.temps) (heq.keep hquiet₃.keeps hquiet₃.temps)
  refine ⟨yes, no, s₄, fr₄, ((hquiet₁.trans hquiet₂).trans hquiet₃).trans hquiet₄,
    hyes.keep hquiet₄.keeps hquiet₄.temps, hno, fun hg => ?_⟩
  exact h₁.bind (h₂.bind (h₃.bind (h₄.bind hg)))

/-- The masks of the edges out of a block hold where its mask does and its terminator goes there. -/
theorem emits_leave {b : Block} {j : Instr} {mask : Option Value} (hj : b.jump = some j)
    (hlabels : ∀ l ∈ j.targets, ∃ id, l.blockId? = some id ∧ Label.ofBlock id = l) (hle : n₀ ≤ s.temps)
    (hmask : fr.Masks n₀ s.temps mask P)
    (hcond : ∀ ty cond l l', j = .branch ty cond l l' → (∃ y : Int32, fr.read cond = .ok [.int y]) ∧
      ∀ t, cond = .temp t → ¬ t.Fresh s.temps ((BodyPlan.leave mask b.id j).run s).2.temps)
    (hgoes : j.targets ≠ []) :
    ∃ s' fr', Emits call m (BodyPlan.leave mask b.id j) s fr () s' fr' ∧
      Leaves n₀ b.id j.targets (fun l => P ∧ b.leave fr = .ok (.jump l)) s s' fr fr' := by
  cases j with
  | jump l =>
    obtain ⟨id, hl, -⟩ := hlabels l (by simp [Instr.targets])
    obtain ⟨s', hemits, htemps, hedge⟩ := emits_setEdge call m hl b.id mask s fr
    refine ⟨s', fr, hemits.bind (emits_pure () s' fr), Nat.le_of_eq htemps.symm, .refl _ _ _, ?_, ?_⟩
    · intro q c hq
      rw [hedge, if_neg fun h => hq h.1]
    · intro k hk c hc
      obtain rfl : k = l := by simpa [Instr.targets] using hk
      obtain rfl : id = c := Option.some.inj (hl.symm.trans hc)
      have hleave : b.leave fr = .ok (.jump k) := by rw [Block.leave, hj]
      rw [hedge, if_pos ⟨rfl, rfl⟩, htemps]
      exact hmask.congr ⟨fun h => ⟨h, hleave⟩, fun h => h.1⟩
  | branch ty cond l l' =>
    obtain ⟨⟨y, hread⟩, hold⟩ := hcond _ _ _ _ rfl
    obtain ⟨id, hl, hid⟩ := hlabels l (by simp [Instr.targets])
    obtain ⟨id', hl', hid'⟩ := hlabels l' (by simp [Instr.targets])
    have hleave : b.leave fr = .ok (.jump (if (Cell.int y).isTrue then l else l')) := by
      rw [Block.leave, hj]
      dsimp only
      rw [Frame.readUniform_of_read hread]
      rfl
    by_cases e : l = l'
    · subst e
      have hboth : b.leave fr = .ok (.jump l) := by simpa using hleave
      have hmask' := hmask.congr (Q := P ∧ b.leave fr = .ok (.jump l)) ⟨fun h => ⟨h, hboth⟩, fun h => h.1⟩
      obtain ⟨s', hemits, hleaves⟩ := emits_setEdges call m (q := b.id)
        (T := fun l => P ∧ b.leave fr = .ok (.jump l)) hl hl (fun _ => ⟨rfl, Iff.rfl⟩) hmask' hmask'
      refine ⟨s', fr, ?_, hleaves⟩
      rw [BodyPlan.leave, if_pos rfl]
      exact hemits
    · have hfirst : s.temps + 1 ≤ ((BodyPlan.leave mask b.id (.branch ty cond l l')).run s).2.temps := by
        rw [BodyPlan.leave, if_neg e]
        exact (((grows_test cond .eq).bind fun no => (grows_both mask _).bind fun yes => (grows_both mask no).bind
          fun no => (grows_setEdge b.id l yes).bind fun _ => grows_setEdge b.id l' no)
            ((test cond .ne).run s).2).1
      obtain ⟨yes, no, s₁, fr₁, hquiet, hyes, hno, hbind⟩ := emits_sides call m hle hmask hread
        fun t ht hfresh => hold t ht (hfresh.mono hfirst)
      have hgo : P ∧ b.leave fr = .ok (.jump l) ↔ P ∧ y ≠ 0 := by
        refine and_congr_right fun _ => ?_
        rw [hleave]
        by_cases hy : y = 0
        · simp [Cell.isTrue, hy, Ne.symm e]
        · simp [Cell.isTrue, hy]
      have hgo' : P ∧ b.leave fr = .ok (.jump l') ↔ P ∧ ¬ y ≠ 0 := by
        refine and_congr_right fun _ => ?_
        rw [hleave]
        by_cases hy : y = 0
        · simp [Cell.isTrue, hy]
        · simp [Cell.isTrue, hy, e]
      obtain ⟨s', hemits, hleaves⟩ := emits_setEdges call m (q := b.id)
        (T := fun l => P ∧ b.leave fr = .ok (.jump l)) hl hl'
        (fun h => absurd (hid.symm.trans ((congrArg _ h).trans hid')) e) (hyes.congr hgo.symm) (hno.congr hgo'.symm)
      refine ⟨s', fr₁, ?_, Nat.le_trans hquiet.temps hleaves.temps,
        hquiet.keeps.trans hleaves.keeps hquiet.temps hleaves.temps, ?_, hleaves.edge⟩
      · rw [BodyPlan.leave, if_neg e]
        exact hbind hemits
      · intro q c hq
        rw [hleaves.other q c hq, MaskState.edge_of_edges hquiet.edges]
  | _ => exact absurd rfl hgoes

end Rules

end Masking

end LoopLanes
