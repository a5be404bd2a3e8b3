/-
The code of a body that is lined up.

Lining up a body adds code to its blocks.  What is added reads names in use, and defines new names or phis of the
block that it is added to (`Instr.Added`).  As far as the block is reached, all of its code is well typed and reads
what is known in front of it (`LineContext`).  The state in which masks are built keeps to that
(`MaskState.Tracked`), block after block.

* `Masking.Tracks` — computations that keep it, and how they are put together;
* `BodyPlan.tracked_line` — the code of a line: that of its block, under a mask, and what is added;
* `BodyPlan.tracked_lines` — so are all lines, of which each may read what those in front of it define.
-/
import LoopLanes.Proofs.Basic.Tables
import LoopLanes.Proofs.Cfg.Recasts
import LoopLanes.Proofs.Widen.Lines

namespace LoopLanes

variable {n k j : TempCounter} {t : Temp} {v : Value} {x : Instr} {b : Block} {width : Nat}

/-! ### Names in use -/

/-- A name that was in use at one stage of a counter, or was handed out since. -/
def Temp.Since (n k : TempCounter) (t : Temp) : Prop := t.Reserved n ∨ t.Fresh n k

/-- An operand with a name in use. -/
def Value.Since (n k : TempCounter) (v : Value) : Prop := ∀ t, v = .temp t → t.Since n k

namespace Temp.Since

theorem mono (h : t.Since n k) (hle : k ≤ j) : t.Since n j := h.imp_right (·.mono hle)

theorem reserved (h : t.Since n k) (hle : n ≤ k) (hmax : (k : Int) ≤ u32Max) : t.Reserved k :=
  h.elim (·.mono hle) (·.reserved hmax)

end Temp.Since

namespace Value.Since

theorem mono (h : v.Since n k) (hle : k ≤ j) : v.Since n j := fun t ht => (h t ht).mono hle

theorem of_fresh (h : t.Fresh n k) : (Value.temp t).Since n k := by
  rintro _ ⟨⟩
  exact .inr h

theorem of_int (m : Int32) : (Value.int m).Since n k := nofun

end Value.Since

/-! ### Code of a line -/

/-- Code that lining up a block adds. -/
structure Instr.Added (n k : TempCounter) (b : Block) (x : Instr) : Prop where
  reads : ∀ v ∈ x.reads, v.Since n k
  write : ∃ t, x.write = some t ∧ (t.Fresh n k ∨ t ∈ b.phis.map (·.target))

/-- Code of a line: an instruction of its block under a mask, or what is added. -/
def Instr.OfLine (n k : TempCounter) (width : Nat) (b : Block) (x : Instr) : Prop :=
  (∃ y ∈ b.instrs, ∃ mask : Option Value, (∀ v ∈ mask, v.Since n k) ∧ x = y.under width mask) ∨ x.Added n k b

theorem Instr.Added.mono (h : x.Added n k b) (hle : k ≤ j) : x.Added n j b := by
  obtain ⟨t, hw, ht⟩ := h.write
  exact ⟨fun v hv => (h.reads v hv).mono hle, t, hw, ht.imp_left (·.mono hle)⟩

theorem Instr.OfLine.mono (h : x.OfLine n k width b) (hle : k ≤ j) : x.OfLine n j width b := by
  refine h.imp ?_ (·.mono hle)
  rintro ⟨y, hy, mask, hmask, rfl⟩
  exact ⟨y, hy, mask, fun v hv => (hmask v hv).mono hle, rfl⟩

namespace Instr

variable {y : Instr} {mask : Option Value}

theorem write_under (width : Nat) (mask : Option Value) (y : Instr) : (y.under width mask).write = y.write := by
  unfold under
  split
  · split <;> rfl
  · rfl

theorem mem_reads_under (h : v ∈ (y.under width mask).reads) : v ∈ y.reads ∨ v ∈ mask := by
  unfold under at h
  split at h
  · split at h
    · exact (List.mem_append.mp h).imp_right fun h => by simpa [eq_comm] using h
    · exact .inl h
  · exact .inl h

namespace OfLine

/-- What a line defines is new, or was defined by its block. -/
theorem write (h : x.OfLine n k width b) (hw : x.write = some t) : t.Fresh n k ∨ t ∈ b.writes := by
  rcases h with ⟨y, hy, mask, -, rfl⟩ | h
  · rw [write_under] at hw
    exact .inr (List.mem_append_right _ (List.mem_filterMap.mpr ⟨y, hy, hw⟩))
  · obtain ⟨u, hu, hnew⟩ := h.write
    obtain rfl : u = t := Option.some.inj (hu.symm.trans hw)
    exact hnew.imp_right fun hphi => List.mem_append_left _ hphi

/-- What a line reads has a name in use, or was read by its block. -/
theorem read (h : x.OfLine n k width b) (ht : t ∈ x.readTemps) : t.Since n k ∨ t ∈ b.readTemps := by
  obtain ⟨v, hv, htemp⟩ := List.mem_filterMap.mp ht
  obtain rfl : v = .temp t := by
    cases v <;> cases htemp
    rfl
  rcases h with ⟨y, hy, mask, hmask, rfl⟩ | h
  · rcases mem_reads_under hv with hv | hv
    · exact .inr (Block.mem_readTemps.mpr (.inr (.inl ⟨y, hy, List.mem_filterMap.mpr ⟨_, hv, rfl⟩⟩)))
    · exact .inl (hmask _ hv t rfl)
  · exact .inl (h.reads _ hv t rfl)

end OfLine

end Instr

/-! ### What a line may read -/

/-- A block that is lined up.  As far as it is reached, it reads what is known in front of it, and the masks that are
defined by lines in front. -/
structure LineContext where
  reached : Prop
  known : Temp → Prop
  masks : List Temp
  names : TempCounter
  width : Nat
  block : Block

/-- What happened between two states in which a block is lined up: code was added, which defines new names and some
names that are given. -/
structure MaskState.Adds (ts : List Temp) (s s' : MaskState) : Prop where
  out : s.out <+: s'.out
  writes : ∃ us, Temp.AllFresh s.temps s'.temps us ∧ (∀ t ∈ us, t.isGlobal = false) ∧
    (s'.out.filterMap Instr.write).Perm (s.out.filterMap Instr.write ++ (us ++ ts))

namespace MaskState.Adds

variable {ts ts' : List Temp} {s s' s'' : MaskState}

theorem refl (s : MaskState) : s.Adds [] s := ⟨List.prefix_refl _, [], .nil _, nofun, by simp⟩

theorem trans (h : MaskState.Adds ts s s') (h' : MaskState.Adds ts' s' s'') : MaskState.Adds (ts ++ ts') s s'' := by
  obtain ⟨us, hus, hlocals, hperm⟩ := h.writes
  obtain ⟨us', hus', hlocals', hperm'⟩ := h'.writes
  refine ⟨h.out.trans h'.out, us ++ us', hus.append hus', List.forall_mem_append.mpr ⟨hlocals, hlocals'⟩, ?_⟩
  refine hperm'.trans ((hperm.append_right _).trans ?_)
  rw [List.append_assoc, List.append_assoc, List.append_assoc]
  refine (List.Perm.append_left _ ?_).append_left _
  rw [← List.append_assoc, ← List.append_assoc]
  exact List.perm_append_comm.append_right _

theorem le (h : MaskState.Adds ts s s') : s.temps ≤ s'.temps := by
  obtain ⟨us, hus, -⟩ := h.writes
  exact hus.le

theorem subset (h : MaskState.Adds ts s s') : s.out.filterMap Instr.write ⊆ s'.out.filterMap Instr.write :=
  (h.out.filterMap Instr.write).subset

theorem mem (h : MaskState.Adds ts s s') (ht : t ∈ ts) : t ∈ s'.out.filterMap Instr.write := by
  obtain ⟨us, -, -, hperm⟩ := h.writes
  exact hperm.symm.subset (List.mem_append_right _ (List.mem_append_right _ ht))

end MaskState.Adds

variable {L L' : LineContext} {s s' : MaskState} {ts ts' : List Temp}

/-- An operand that may be read. -/
structure Value.Usable (L : LineContext) (s : MaskState) (v : Value) : Prop where
  since : v.Since L.names s.temps
  known : L.reached → ∀ t, v = .temp t → t.isGlobal = false →
    (L.known t ∨ t ∈ L.masks) ∨ t ∈ s.out.filterMap Instr.write

/-- A mask: a word that a line defines. -/
def Value.IsMask (L : LineContext) (s : MaskState) (v : Value) : Prop :=
  ∃ t : Temp, v = .temp t ∧ t.ty = .i32 ∧ t.Since L.names s.temps ∧
    (t ∈ L.masks ∨ t ∈ s.out.filterMap Instr.write)

namespace Value

theorem Usable.mono (h : v.Usable L s) (hs : MaskState.Adds ts s s') : v.Usable L s' :=
  ⟨h.since.mono hs.le, fun hr t ht hlocal => (h.known hr t ht hlocal).imp_right fun ht => hs.subset ht⟩

theorem Usable.of_int (m : Int32) : (Value.int m).Usable L s := ⟨.of_int m, nofun⟩

theorem IsMask.mono (h : v.IsMask L s) (hs : MaskState.Adds ts s s') : v.IsMask L s' := by
  obtain ⟨t, rfl, hty, hsince, hmem⟩ := h
  exact ⟨t, rfl, hty, hsince.mono hs.le, hmem.imp_right fun ht => hs.subset ht⟩

theorem IsMask.ty (h : v.IsMask L s) : v.ty = .i32 := by
  obtain ⟨t, rfl, hty, -⟩ := h
  exact hty

theorem IsMask.usable (h : v.IsMask L s) : v.Usable L s := by
  obtain ⟨t, rfl, -, hsince, hmem⟩ := h
  refine ⟨?_, ?_⟩
  · rintro _ ⟨⟩
    exact hsince
  · rintro - _ ⟨⟩ -
    exact hmem.imp_left .inr

end Value

theorem Instr.closed_of_usable (hreads : ∀ v ∈ x.reads, v.Usable L s) (hr : L.reached) :
    Instr.Closed (fun t => (L.known t ∨ t ∈ L.masks) ∨ t ∈ s.out.filterMap Instr.write) [x] := by
  refine closed_singleton.mpr fun t ht hlocal => ?_
  obtain ⟨v, hv, htemp⟩ := List.mem_filterMap.mp ht
  cases v <;> cases htemp
  exact (hreads _ hv).known hr t rfl hlocal

/-- The state in which a block is lined up: the code so far is that of a line, and as far as the block is reached, it
is well typed and closed. -/
structure MaskState.Tracked (L : LineContext) (s : MaskState) : Prop where
  le : L.names ≤ s.temps
  edges : ∀ e ∈ s.edges, ∀ v ∈ e.2, v.IsMask L s
  out : ∀ x ∈ s.out, x.OfLine L.names s.temps L.width L.block
  typed : L.reached → ∀ x ∈ s.out, x.wellTyped = true
  closed : L.reached → Instr.Closed (fun t => L.known t ∨ t ∈ L.masks) s.out

namespace MaskState.Tracked

/-- The masks of edges may be read. -/
theorem edge (h : s.Tracked L) (q c : Int) : ∀ v ∈ s.edge q c, v.IsMask L s := fun v hv =>
  h.edges _ (mem_of_lookup (Option.join_eq_some_iff.mp hv)) v rfl

/-- Code is added. -/
theorem emits (h : s.Tracked L) {xs : List Instr} {n : TempCounter} (hadds : MaskState.Adds ts s ⟨n, s.out ++ xs, s.edges⟩)
    (hxs : ∀ x ∈ xs, x.OfLine L.names n L.width L.block) (htyped : L.reached → ∀ x ∈ xs, x.wellTyped = true)
    (hclosed : L.reached → Instr.Closed (fun t => (L.known t ∨ t ∈ L.masks) ∨ t ∈ s.out.filterMap Instr.write) xs) :
    MaskState.Tracked L ⟨n, s.out ++ xs, s.edges⟩ where
  le := Nat.le_trans h.le hadds.le
  edges e he v hv := (h.edges e he v hv).mono hadds
  out := List.forall_mem_append.mpr ⟨fun x hx => (h.out x hx).mono hadds.le, hxs⟩
  typed hr := List.forall_mem_append.mpr ⟨h.typed hr, htyped hr⟩
  closed hr := Instr.closed_append.mpr ⟨h.closed hr, hclosed hr⟩

/-- Another block is begun: masks may be read that the last one defined. -/
theorem restart (h : s.Tracked L) (hnames : L'.names = L.names)
    (hmasks : ∀ t, t ∈ L.masks ∨ t ∈ s.out.filterMap Instr.write → t ∈ L'.masks) :
    MaskState.Tracked L' { s with out := [] } := by
  refine ⟨hnames ▸ h.le, fun e he v hv => ?_, nofun, fun _ => nofun, fun _ => trivial⟩
  obtain ⟨t, rfl, hty, hsince, hmem⟩ := h.edges e he v hv
  exact ⟨t, rfl, hty, hnames ▸ hsince, .inl (hmasks t hmem)⟩

end MaskState.Tracked

/-- What the selections that a phi becomes define: its target, if anything comes to it. -/
def Phi.selected (p : Phi) : List Temp := if p.incoming = [] then [] else [p.target]

namespace Masking

variable {α β : Type} {x : Masking α} {Q : α → MaskState → Prop} {R : β → MaskState → Prop} {w : Value}
  {mask : Option Value}

/-- In a state, a computation adds code of a line, which defines `ts` besides new names; its result is as `Q` says. -/
def Tracks (L : LineContext) (s : MaskState) (x : Masking α) (ts : List Temp) (Q : α → MaskState → Prop) : Prop :=
  s.Tracked L → (x.run s).2.Tracked L ∧ MaskState.Adds ts s (x.run s).2 ∧ Q (x.run s).1 (x.run s).2

/-- A computation that answers with a mask, or maybe with one. -/
abbrev TracksValue (L : LineContext) (s : MaskState) (x : Masking Value) : Prop :=
  Tracks L s x [] fun v s' => v.IsMask L s'

abbrev TracksMask (L : LineContext) (s : MaskState) (x : Masking (Option Value)) : Prop :=
  Tracks L s x [] fun mask s' => ∀ v ∈ mask, v.IsMask L s'

theorem tracks_pure {a : α} (h : Q a s) : Tracks L s (pure a) [] Q := fun hs => ⟨hs, .refl s, h⟩

theorem Tracks.bind {g : α → Masking β} (hx : Tracks L s x ts Q)
    (hg : ∀ a s', MaskState.Adds ts s s' → Q a s' → Tracks L s' (g a) ts' R) : Tracks L s (x >>= g) (ts ++ ts') R := by
  intro hs
  obtain ⟨hs', hadds, hq⟩ := hx hs
  obtain ⟨hs'', hadds', hr⟩ := hg _ _ hadds hq hs'
  exact ⟨hs'', hadds.trans hadds', hr⟩

theorem tracks_emit {x : Instr} (hwrite : x.write = some t) (ht : t ∈ L.block.phis.map (·.target))
    (htyped : L.reached → x.wellTyped = true) (hreads : ∀ v ∈ x.reads, v.Usable L s) :
    Tracks L s (emit x) [t] fun _ _ => True := by
  intro hs
  have hadds : MaskState.Adds [t] s { s with out := s.out ++ [x] } := by
    refine ⟨List.prefix_append _ _, [], .nil _, nofun, ?_⟩
    rw [List.filterMap_append, List.filterMap_cons, hwrite]
    exact .refl _
  refine ⟨hs.emits hadds (List.forall_mem_singleton.mpr (.inr ⟨fun v hv => (hreads v hv).since, t, hwrite, .inr ht⟩))
    (fun hr => List.forall_mem_singleton.mpr (htyped hr)) (Instr.closed_of_usable hreads), hadds, trivial⟩

/-- A name is handed out, and code that defines it is added. -/
theorem tracks_define {ty : Ty} {i : Temp → Instr} {g : Temp → Masking β} (hwrite : ∀ t, (i t).write = some t)
    (htyped : L.reached → ∀ t, t.ty = ty → (i t).wellTyped = true) (hreads : ∀ t, ∀ v ∈ (i t).reads, v.Usable L s)
    (hg : ∀ t s', MaskState.Adds [] s s' → t.ty = ty → t.Fresh L.names s'.temps → t ∈ s'.out.filterMap Instr.write →
      Tracks L s' (g t) ts R) : Tracks L s (do let t ← fresh ty; emit (i t); g t) ts R := by
  intro hs
  let t : Temp := ⟨toString (s.temps + 1), false, ty⟩
  have hnew := Temp.AllFresh.singleton s.temps false ty
  have hadds : MaskState.Adds [] s ⟨s.temps + 1, s.out ++ [i t], s.edges⟩ := by
    refine ⟨List.prefix_append _ _, [t], hnew, List.forall_mem_singleton.mpr rfl, ?_⟩
    rw [List.filterMap_append, List.filterMap_cons, hwrite]
    exact .refl _
  have hfresh : t.Fresh L.names (s.temps + 1) := (hnew.fresh t (List.mem_singleton_self t)).weaken hs.le
  have hs' : MaskState.Tracked L ⟨s.temps + 1, s.out ++ [i t], s.edges⟩ := by
    exact hs.emits hadds (List.forall_mem_singleton.mpr (.inr ⟨fun v hv => ((hreads t v hv).mono hadds).since, t, hwrite t,
      .inl hfresh⟩)) (fun hr => List.forall_mem_singleton.mpr (htyped hr t rfl)) (Instr.closed_of_usable (hreads t))
  obtain ⟨hs'', hadds', hr⟩ := hg t _ hadds rfl hfresh (by simp [hwrite]) hs'
  exact ⟨hs'', hadds.trans hadds', hr⟩

theorem tracks_test (hv : v.Usable L s) (hty : L.reached → v.ty = .i32) {op : CompOp} (hop : op.operandTy = .i32) :
    TracksValue L s (test v op) := by
  refine tracks_define (fun _ => rfl) (fun hr t ht => ?_) (fun t => ?_) fun t s' _ ht hfresh hmem =>
    tracks_pure ⟨t, rfl, ht, .inr hfresh, .inr hmem⟩
  · simp [Instr.wellTyped, ht, hty hr, hop, CompKind.operandTy, show (Value.int 0).ty = .i32 from rfl]
  · exact List.forall_mem_cons.mpr ⟨hv, List.forall_mem_singleton.mpr (.of_int 0)⟩

theorem tracks_combine (hv : v.IsMask L s) (hw : w.IsMask L s) {op : ArithOp} (hop : op.operandTy = .i32) :
    TracksValue L s (combine op v w) := by
  refine tracks_define (fun _ => rfl) (fun hr t ht => ?_) (fun t => ?_) fun t s' _ ht hfresh hmem =>
    tracks_pure ⟨t, rfl, ht, .inr hfresh, .inr hmem⟩
  · simp [Instr.wellTyped, hv.ty, hw.ty, hop]
  · exact List.forall_mem_cons.mpr ⟨hv.usable, List.forall_mem_singleton.mpr hw.usable⟩

theorem tracks_both (hmask : ∀ v ∈ mask, v.IsMask L s) (hv : v.IsMask L s) : TracksMask L s (both mask v) := by
  cases mask with
  | none =>
    refine tracks_pure ?_
    rintro _ ⟨⟩
    exact hv
  | some w =>
    refine (tracks_combine (hmask w rfl) hv rfl).bind fun u s' _ hu => tracks_pure ?_
    rintro _ ⟨⟩
    exact hu

theorem tracks_any : ∀ {masks : List (Option Value)} {acc : Option Value} {s : MaskState},
    (∀ v ∈ acc, v.IsMask L s) → (∀ mask ∈ masks, ∀ v ∈ mask, v.IsMask L s) → TracksMask L s (any acc masks) := by
  intro masks
  induction masks with
  | nil => exact fun hacc _ => tracks_pure hacc
  | cons mask masks ih =>
    intro acc s hacc hmasks
    obtain ⟨hmask, hrest⟩ := List.forall_mem_cons.mp hmasks
    cases mask with
    | none => exact tracks_pure nofun
    | some w =>
      cases acc with
      | none => exact ih hmask hrest
      | some a =>
        refine (tracks_combine (hacc a rfl) (hmask w rfl) rfl).bind fun u s' hs' hu => ih ?_ ?_
        · rintro _ ⟨⟩
          exact hu
        · exact fun mask h v hv => (hrest mask h v hv).mono hs'

theorem tracks_forM {γ : Type} {g : γ → Masking PUnit} {d : γ → List Temp} : ∀ {cs : List γ} {s : MaskState},
    (∀ c ∈ cs, ∀ ts s', MaskState.Adds ts s s' → Tracks L s' (g c) (d c) fun _ _ => True) →
      Tracks L s (cs.forM g) (cs.flatMap d) fun _ _ => True := by
  intro cs
  induction cs with
  | nil => exact fun _ => tracks_pure trivial
  | cons c cs ih =>
    intro s h
    obtain ⟨hc, hcs⟩ := List.forall_mem_cons.mp h
    exact (hc [] s (.refl s)).bind fun _ s' hs' _ => ih fun c hc ts s'' hs'' => hcs c hc _ s'' (hs'.trans hs'')

theorem tracks_setEdge {q : Int} {l : Label} (hmask : ∀ v ∈ mask, v.IsMask L s) :
    Tracks L s (setEdge q l mask) [] fun _ _ => True := by
  intro hs
  unfold setEdge
  split
  · refine ⟨⟨hs.le, List.forall_mem_cons.mpr ⟨hmask, hs.edges⟩, hs.out, hs.typed, hs.closed⟩, ?_, trivial⟩
    exact ⟨List.prefix_refl _, [], .nil _, nofun, List.Perm.of_eq (List.append_nil _).symm⟩
  · exact ⟨hs, .refl s, trivial⟩

theorem tracks_selections {target : Temp} {ty : Ty} (htarget : target ∈ L.block.phis.map (·.target)) :
    ∀ {picks : List (Value × Value)} {base : Value} {s : MaskState}, picks ≠ [] →
      base.Usable L s ∧ (L.reached → base.ty = ty) →
      (∀ p ∈ picks, (p.1.Usable L s ∧ p.1.ty = .i32) ∧ p.2.Usable L s ∧ (L.reached → p.2.ty = ty)) →
        Tracks L s (selections target ty base picks) [target] fun _ _ => True := by
  intro picks
  induction picks with
  | nil => exact fun h => absurd rfl h
  | cons pick picks ih =>
    intro base s _ hbase hpicks
    obtain ⟨⟨⟨hcond, hcondTy⟩, hvalue, hvalueTy⟩, hrest⟩ := List.forall_mem_cons.mp hpicks
    have hreads : ∀ v ∈ [pick.1, pick.2, base], v.Usable L s :=
      List.forall_mem_cons.mpr ⟨hcond, List.forall_mem_cons.mpr ⟨hvalue, List.forall_mem_singleton.mpr hbase.1⟩⟩
    have htyped : ∀ t, L.reached → (Instr.select t ty pick.1 pick.2 base).wellTyped = true := fun t hr => by
      simp [Instr.wellTyped, hcondTy, hvalueTy hr, hbase.2 hr]
    cases picks with
    | nil => exact tracks_emit rfl htarget (htyped target) hreads
    | cons next picks =>
      refine tracks_define (fun _ => rfl) (fun hr t _ => htyped t hr) (fun _ => hreads) fun t s' hs' ht hfresh hmem =>
        ih (List.cons_ne_nil _ _) ⟨⟨.of_fresh hfresh, ?_⟩, fun _ => ht⟩ fun p hp => ?_
      · rintro - _ ⟨⟩ -
        exact .inr hmem
      · obtain ⟨⟨hc, hcty⟩, hv, hvty⟩ := hrest p hp
        exact ⟨⟨hc.mono hs', hcty⟩, hv.mono hs', hvty⟩

/-- What a phi becomes defines the target of the phi, if anything comes to it. -/
theorem tracks_phi {p : Phi} {block : Int} (hp : p ∈ L.block.phis) (hreads : ∀ v ∈ p.reads, v.Usable L s)
    (htyped : L.reached → p.wellTyped = true) : Tracks L s (phi block p) p.selected fun _ _ => True := by
  intro hs
  cases hincoming : p.incoming with
  | nil =>
    have hrun : (phi block p).run s = ((), s) := by
      unfold phi
      rw [hincoming]
      rfl
    rw [hrun, Phi.selected, hincoming]
    exact ⟨hs, .refl s, trivial⟩
  | cons first rest =>
    have hvalue : ∀ e ∈ p.incoming, e.1.Usable L s ∧ (L.reached → e.1.ty = p.ty) := fun e he =>
      ⟨hreads _ (List.mem_map_of_mem he), fun hr => by simpa using List.all_eq_true.mp (htyped hr) e he⟩
    rw [hincoming] at hvalue
    obtain ⟨hfirst, hrest⟩ := List.forall_mem_cons.mp hvalue
    -- what is left of the entries was read by the phi, or is a mask
    obtain ⟨hbase, hpicks⟩ := Frame.choices_all (M := fun v => v.Usable L s ∧ v.ty = .i32)
      (V := fun v => v.Usable L s ∧ (L.reached → v.ty = p.ty)) hfirst (List.forall_mem_nil _)
      (show ∀ e ∈ rest.map (s.entry block), (e.1.Usable L s ∧ (L.reached → e.1.ty = p.ty)) ∧
          ∀ m, e.2 = some m → m.Usable L s ∧ m.ty = .i32 by
        intro e he
        obtain ⟨e', he', rfl⟩ := List.mem_map.mp he
        exact ⟨hrest e' he', fun m hm => ⟨(hs.edge _ _ m hm).usable, (hs.edge _ _ m hm).ty⟩⟩)
    have hall := Frame.picksOf_all (M := fun v => v.Usable L s ∧ v.ty = .i32)
      (V := fun v => v.Usable L s ∧ (L.reached → v.ty = p.ty)) hbase ⟨.of_int 1, rfl⟩ hpicks
    rw [run_phi s block hincoming, Phi.selected, hincoming]
    exact tracks_selections (List.mem_map_of_mem hp) (picksOf_ne_nil _) hbase hall hs

theorem tracks_maskOf (p : BodyPlan) (c : Block) : TracksMask L s (p.maskOf c) := by
  intro hs
  rw [run_maskOf]
  split
  · exact ⟨hs, .refl s, nofun⟩
  · have hnone : ∀ v ∈ (none : Option Value), v.IsMask L s := nofun
    refine tracks_any hnone (fun mask hmask => ?_) hs
    obtain ⟨q, -, rfl⟩ := List.mem_map.mp hmask
    exact hs.edge q _

theorem tracks_leave (block : Int) {y : Instr} (hmask : ∀ v ∈ mask, v.IsMask L s) (hreads : ∀ v ∈ y.reads, v.Usable L s)
    (hcond : L.reached → ∀ ty cond l l', y = .branch ty cond l l' → cond.ty = .i32) :
    Tracks L s (BodyPlan.leave mask block y) [] fun _ _ => True := by
  unfold BodyPlan.leave
  split
  · rename_i ty cond l m
    have hc : cond.Usable L s := hreads cond List.mem_cons_self
    have hty : L.reached → cond.ty = .i32 := fun hr => hcond hr ty cond l m rfl
    split
    · exact (tracks_setEdge hmask).bind fun _ s' hs' _ => tracks_setEdge fun v hv => (hmask v hv).mono hs'
    refine (tracks_test hc hty rfl).bind fun yes s₁ h₁ hyes => ?_
    refine (tracks_test (hc.mono h₁) hty rfl).bind fun no s₂ h₂ hno => ?_
    have hmask₂ : ∀ v ∈ mask, v.IsMask L s₂ := fun v hv => (hmask v hv).mono (h₁.trans h₂)
    refine (tracks_both hmask₂ (hyes.mono h₂)).bind fun yes s₃ h₃ hyes => ?_
    refine (tracks_both (fun v hv => (hmask₂ v hv).mono h₃) (hno.mono h₃)).bind fun no s₄ h₄ hno => ?_
    refine (tracks_setEdge fun v hv => (hyes v hv).mono h₄).bind fun _ s₅ h₅ _ => ?_
    exact tracks_setEdge fun v hv => (hno v hv).mono h₅
  · have h : Tracks L s (y.targets.forM fun l => setEdge block l mask) _ _ := tracks_forM (d := fun _ => [])
      fun l _ ts s' hs' => tracks_setEdge fun v hv => (hmask v hv).mono hs'
    rwa [List.flatMap_eq_nil_iff.mpr fun _ _ => rfl] at h

end Masking

/-! ### Lines -/

/-- What the block of a line may be relied on for: its names are in use, and as far as it is reached, it is well
typed and reads what is known. -/
structure LineContext.Sound (L : LineContext) : Prop where
  named : ∀ t ∈ L.block.readTemps, t.Reserved L.names
  typed : L.reached → ∀ x ∈ L.block.code, x.wellTyped = true
  entries : L.reached → ∀ p ∈ L.block.phis, ∀ v ∈ p.reads, ∀ t, v = .temp t → t.isGlobal = false → L.known t
  closed : L.reached → Instr.Closed (fun t => L.known t ∨ t ∈ L.block.phis.flatMap Phi.selected)
    (L.block.instrs ++ L.block.jump.toList)
  tests : L.reached → ∀ ty cond l l', L.block.jump = some (.branch ty cond l l') → cond.ty = .i32

/-- The names that are defined in a line besides new ones. -/
def Block.lineWrites (b : Block) : List Temp := b.phis.flatMap Phi.selected ++ b.instrs.filterMap Instr.write

namespace Instr

theorem wellTyped_under (width : Nat) (mask : Option Value) (y : Instr) :
    (y.under width mask).wellTyped = y.wellTyped := by
  unfold under
  split
  · split <;> rfl
  · rfl

/-- Code under a mask is closed where the mask is known. -/
theorem Closed.under (width : Nat) {mask : Option Value} {K : Temp → Prop} (hmask : ∀ t, mask = some (.temp t) → K t) :
    ∀ {xs : List Instr}, Closed K xs → Closed K (xs.map (·.under width mask)) := by
  intro xs
  induction xs generalizing K with
  | nil => exact id
  | cons x xs ih =>
    rintro ⟨hx, hxs⟩
    refine ⟨fun t ht hlocal => ?_, ?_⟩
    · obtain ⟨v, hv, htemp⟩ := List.mem_filterMap.mp ht
      obtain rfl : v = .temp t := by
        cases v <;> cases htemp
        rfl
      rcases mem_reads_under hv with hv | hv
      · exact hx t (List.mem_filterMap.mpr ⟨_, hv, rfl⟩) hlocal
      · exact hmask t hv
    · rw [write_under]
      exact ih (fun t ht => .inl (hmask t ht)) hxs

end Instr

namespace BodyPlan

variable {p : BodyPlan} {s s' : MaskState} {e : Line} {es : List Line} {bs : List Block}

/-- A line is made of the code of its block, under a mask, and of what is added. -/
theorem tracked_line {L : LineContext} (hsound : L.Sound) (hwidth : L.width = p.width)
    (hs : MaskState.Tracked L { s with out := [] }) (h : (p.line L.block).run s = (e, s')) :
    s'.Tracked L ∧ e.instrs p.width = s'.out ∧ MaskState.Adds L.block.lineWrites { s with out := [] } s' := by
  have hvalue : ∀ x ∈ L.block.code, ∀ k, ∀ v ∈ x.reads, v.Since L.names k := by
    rintro x hx k _ hv t rfl
    exact .inl (hsound.named t (List.mem_flatMap.mpr ⟨x, hx, List.mem_filterMap.mpr ⟨_, hv, rfl⟩⟩))
  obtain ⟨mask, s₁, s₂, s'', hstages, hline, hblock⟩ := exists_stages p L.block s
  obtain rfl : s'' = s' := congrArg Prod.snd (hline.symm.trans h)
  have hout : e.instrs p.width = s''.out := by
    have hsame := (run_block none h).2.symm.trans (hblock none)
    have hinstrs := congrArg (fun r => r.1.instrs) hsame
    rwa [Line.toBlock.eq_def] at hinstrs
  -- the mask of the block
  obtain ⟨hs₁, hadds₁, hmask⟩ := Masking.tracks_maskOf p L.block hs
  rw [hstages.gather] at hs₁ hadds₁ hmask
  -- its phis
  obtain ⟨hs₂, hadds₂, -⟩ := Masking.tracks_forM (g := Masking.phi L.block.id) (d := Phi.selected)
    (fun q hq ts s' hs' => Masking.tracks_phi hq (fun v hv => ⟨hvalue (.phi q) (by simp [Block.code, hq]) _ v hv,
      fun hr t ht hlocal => .inl (.inl (hsound.entries hr q hq v hv t ht hlocal))⟩)
      fun hr => hsound.typed hr (.phi q) (by simp [Block.code, hq])) hs₁
  rw [hstages.select] at hs₂ hadds₂
  have hmask₂ : ∀ v ∈ mask, v.IsMask L s₂ := fun v hv => (hmask v hv).mono hadds₂
  -- its instructions
  have hclosed : L.reached → Instr.Closed (fun t => (L.known t ∨ t ∈ L.masks) ∨ t ∈ s₂.out.filterMap Instr.write)
      (L.block.instrs ++ L.block.jump.toList) := fun hr => (hsound.closed hr).mono fun t ht =>
    ht.imp .inl fun ht => hadds₂.mem ht
  have hadds₃ : MaskState.Adds (L.block.instrs.filterMap Instr.write) s₂
      { s₂ with out := s₂.out ++ L.block.instrs.map (·.under p.width mask) } := by
    refine ⟨List.prefix_append _ _, [], .nil _, List.forall_mem_nil _, ?_⟩
    rw [List.filterMap_append, List.filterMap_map, List.nil_append]
    exact .of_eq (congrArg _ (List.filterMap_congr fun y _ => Instr.write_under _ _ y))
  have hs₃ := hs₂.emits hadds₃ (fun x hx => by
      obtain ⟨y, hy, rfl⟩ := List.mem_map.mp hx
      exact .inl ⟨y, hy, mask, fun v hv => (hmask₂ v hv).usable.since, hwidth ▸ rfl⟩)
    (fun hr x hx => by
      obtain ⟨y, hy, rfl⟩ := List.mem_map.mp hx
      exact (Instr.wellTyped_under _ _ y).trans (hsound.typed hr y (by simp [Block.code, hy])))
    (fun hr => (Instr.closed_append.mp (hclosed hr)).1.under p.width fun t ht => by
      obtain ⟨u, hu, -, -, hmem⟩ := hmask₂ _ ht
      obtain rfl := Value.temp.inj hu
      exact hmem.imp_left .inr)
  -- the masks of its edges
  have hgo : s''.Tracked L ∧ MaskState.Adds [] { s₂ with out := s₂.out ++ L.block.instrs.map (·.under p.width mask) } s'' := by
    have hgo := hstages.go
    cases hjump : L.block.jump with
    | none =>
      rw [hjump] at hgo
      obtain rfl := congrArg Prod.snd hgo
      exact ⟨hs₃, .refl _⟩
    | some y =>
      rw [hjump] at hgo
      have hreads : ∀ v ∈ y.reads, v.Usable L { s₂ with out := s₂.out ++ L.block.instrs.map (·.under p.width mask) } := by
        refine fun v hv => ⟨hvalue y (by simp [Block.code, hjump]) _ v hv, ?_⟩
        rintro hr t rfl hlocal
        have hlast := (Instr.closed_append.mp (hclosed hr)).2
        rw [hjump] at hlast
        rcases Instr.closed_singleton.mp hlast t (List.mem_filterMap.mpr ⟨_, hv, rfl⟩) hlocal with (ht | ht) | ht
        · exact .inl ht
        · exact .inr (hadds₃.subset ht)
        · exact .inr (hadds₃.mem ht)
      obtain ⟨hs', hadds', -⟩ := Masking.tracks_leave L.block.id (fun v hv => (hmask₂ v hv).mono hadds₃) hreads
        (fun hr ty cond l l' hy => hsound.tests hr ty cond l l' (hjump.trans (congrArg some hy))) hs₃
      rw [show (leave mask L.block.id y).run _ = _ from hgo] at hs' hadds'
      exact ⟨hs', hadds'⟩
  refine ⟨hgo.1, hout, ?_⟩
  have hall := hadds₁.trans (hadds₂.trans (hadds₃.trans hgo.2))
  rwa [List.nil_append, List.append_nil] at hall

/-- The lines of a body, of which each may read what is known in front of its block, and what the lines in front
define. -/
structure LinesOf (n k m : TempCounter) (width : Nat) (reached : Prop) (known : Block → Temp → Prop) (masks : List Temp)
    (es : List Line) : Prop where
  ofLine : ∀ e ∈ es, ∀ x ∈ e.instrs width, x.OfLine n m width e.block
  typed : reached → ∀ e ∈ es, ∀ x ∈ e.instrs width, x.wellTyped = true
  closed : reached → ∀ pre e post, es = pre ++ e :: post → Instr.Closed (fun t =>
    known e.block t ∨ t ∈ masks ++ pre.flatMap fun d => (d.instrs width).filterMap Instr.write) (e.instrs width)
  kept : ∀ e ∈ es, e.block.lineWrites ⊆ (e.instrs width).filterMap Instr.write
  writes : ∃ us, Temp.AllFresh k m us ∧ (∀ t ∈ us, t.isGlobal = false) ∧
    (es.flatMap fun e => (e.instrs width).filterMap Instr.write).Perm (us ++ es.flatMap (·.block.lineWrites))

/-- So are all lines of a body. -/
theorem tracked_lines {P : Prop} {K : Block → Temp → Prop} : ∀ {bs : List Block} {es : List Line} {s : MaskState}
    {masks : List Temp} {L : LineContext}, s.Tracked L → L.names = n →
    (∀ t, t ∈ L.masks ∨ t ∈ s.out.filterMap Instr.write → t ∈ masks) →
    (∀ b ∈ bs, ∀ ts, LineContext.Sound ⟨P, K b, ts, n, p.width, b⟩) → (p.lines bs).run s = (es, s') →
      LinesOf n s.temps s'.temps p.width P K masks es := by
  intro bs
  induction bs with
  | nil =>
    intro es s masks L _ _ _ _ h
    obtain ⟨rfl, rfl⟩ := Prod.mk.inj h
    exact ⟨List.forall_mem_nil _, fun _ => List.forall_mem_nil _, fun _ pre e post h => by simp at h,
      List.forall_mem_nil _, [], .nil _, nofun, .refl _⟩
  | cons b bs ih =>
    intro es s masks L hs hn hmasks hsound h
    obtain ⟨hb, hbs⟩ := List.forall_mem_cons.mp hsound
    rcases hline : (p.line b).run s with ⟨e, s₁⟩
    rcases hlines : (p.lines bs).run s₁ with ⟨es', s''⟩
    obtain ⟨rfl, rfl⟩ := Prod.mk.inj (h.symm.trans (run_lines_cons hline hlines))
    have hbegun : MaskState.Tracked ⟨P, K b, masks, n, p.width, b⟩ { s with out := [] } :=
      hs.restart hn.symm hmasks
    obtain ⟨hs₁, hout, hadds⟩ := tracked_line (hb masks) rfl hbegun hline
    obtain ⟨rfl, -⟩ := run_block none hline
    have hnext : ∀ t, t ∈ masks ∨ t ∈ s₁.out.filterMap Instr.write →
        t ∈ masks ++ (e.instrs p.width).filterMap Instr.write := fun t ht => List.mem_append.mpr (hout ▸ ht)
    have hrest := ih hs₁ rfl hnext hbs hlines
    refine ⟨List.forall_mem_cons.mpr ⟨fun x hx => ?_, hrest.ofLine⟩, fun hr => List.forall_mem_cons.mpr ⟨fun x hx => ?_,
      hrest.typed hr⟩, fun hr pre d post hsplit => ?_, List.forall_mem_cons.mpr ⟨fun t ht => hout ▸ hadds.mem ht,
      hrest.kept⟩, ?_⟩
    · exact (hs₁.out x (hout ▸ hx)).mono (le_temps_lines hlines)
    · exact hs₁.typed hr x (hout ▸ hx)
    · rcases pre with _ | ⟨c, pre⟩
      · obtain ⟨rfl, rfl⟩ := List.cons_eq_cons.mp hsplit
        rw [List.flatMap_nil, List.append_nil, hout]
        exact hs₁.closed hr
      · obtain ⟨rfl, rfl⟩ := List.cons_eq_cons.mp hsplit
        rw [List.flatMap_cons, ← List.append_assoc]
        exact hrest.closed hr pre d post rfl
    · obtain ⟨us, hus, hlocals, hperm⟩ := hadds.writes
      obtain ⟨us', hus', hlocals', hperm'⟩ := hrest.writes
      refine ⟨us ++ us', hus.append hus', List.forall_mem_append.mpr ⟨hlocals, hlocals'⟩, ?_⟩
      rw [List.flatMap_cons, List.flatMap_cons, hout]
      refine (hperm.append hperm').trans ?_
      rw [List.filterMap_nil, List.nil_append, List.append_assoc, List.append_assoc]
      refine List.Perm.append_left _ ?_
      rw [← List.append_assoc, ← List.append_assoc]
      exact List.perm_append_comm.append_right _

end BodyPlan

end LoopLanes
