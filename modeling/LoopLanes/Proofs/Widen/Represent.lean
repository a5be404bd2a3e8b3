/-
Frames that stand for the lanes.

A run of vector code keeps one frame where `width` scalar runs keep one each.  `Simulates` says how
the two belong together: a value that varies is stored once per lane, or once for all lanes where
they agree; any other value is stored as the first lane has it, and its shape tells the rest.
Instructions then compute what the lanes compute (`conforms_transfer`).
-/
import LoopLanes.Proofs.Cfg.Names
import LoopLanes.Proofs.Shape.Fixpoint
import LoopLanes.Proofs.Shape.Results

namespace LoopLanes

namespace LaneShape

variable {width : Nat} {a b : LaneShape} {c d : Nat → Cell} {l : Lanes}

/-- Stored values of a shape stand for those of the lanes. -/
def Represents (width : Nat) (a : LaneShape) (l : Lanes) (c : Nat → Cell) : Prop :=
  if a.isVector then (∃ x, l = [x] ∧ ∀ k < width, c k = x) ∨ l = (List.range width).map c
  else l = [c 0] ∧ a.Conforms width c

theorem represents_vector (ha : a.isVector = true) : a.Represents width l c ↔
    (∃ x, l = [x] ∧ ∀ k < width, c k = x) ∨ l = (List.range width).map c := by
  simp [Represents, ha]

theorem represents_flat (ha : a.isVector = false) :
    a.Represents width l c ↔ l = [c 0] ∧ a.Conforms width c := by
  simp [Represents, ha]

theorem Represents.congr (h : a.Represents width l c) (hw : 0 < width) (hcd : ∀ k < width, c k = d k) :
    a.Represents width l d := by
  cases ha : a.isVector with
  | true =>
    rw [represents_vector ha] at h ⊢
    refine h.imp (fun ⟨x, hl, hx⟩ => ⟨x, hl, fun k hk => hcd k hk ▸ hx k hk⟩) fun hl => ?_
    rw [hl]
    exact List.map_congr_left fun k hk => hcd k (List.mem_range.mp hk)
  | false =>
    rw [represents_flat ha] at h ⊢
    exact ⟨hcd 0 hw ▸ h.1, h.2.congr hcd⟩

/-- Where a value does not vary, or varies itself, it also stands for the lanes of one that varies. -/
theorem Represents.of_vector (h : b.Represents width l c) (hb : b.isVector = true ∨ b = uniform)
    (ha : a.isVector = true) : a.Represents width l c := by
  rw [represents_vector ha]
  rcases hb with hb | rfl
  · exact (represents_vector hb).mp h
  · obtain ⟨hl, hc⟩ := (represents_flat rfl).mp h
    exact .inl ⟨c 0, hl, hc⟩

/-- The lanes of a stored value that stands for them. -/
theorem Represents.lane (h : a.Represents width l c) (ha : a.isVector = true) {fr : Frame} {t : Temp}
    (hl : fr.lookup t = some l) {k : Nat} (hk : k < width) : fr.lane (.temp t) k = .ok (c k) := by
  rcases (represents_vector ha).mp h with ⟨x, rfl, hx⟩ | rfl
  · rw [Frame.lane_of_lookup hl, hx k hk]
  · have hget : ((List.range width).map c)[k]? = some (c k) := by
      simp [hk]
    simp only [Frame.lane, hl]
    split
    · cases ‹_›
    · rename_i single hsingle
      have hsingle := Option.some.inj hsingle
      rw [hsingle] at hget
      cases k with
      | zero => exact congrArg Except.ok (Option.some.inj hget)
      | succ k => simp at hget
    · rename_i lanes _ hlanes
      obtain rfl := Option.some.inj hlanes
      rw [hget]

end LaneShape

namespace LaneInfo

/-- A frame of vector code stands for the frames of the lanes, as far as `known` temporaries of the
region and temporaries from outside of it go. -/
structure Simulates (i : LaneInfo) (n : TempCounter) (known : List Temp) (lanes : Nat → Frame)
    (fr : Frame) : Prop where
  reserved : ∀ t ∈ known, t.Reserved n
  inside : ∀ t ∈ known, ∃ c : Nat → Cell, (∀ k < i.width, (lanes k).lookup t = some [c k]) ∧
    ∃ l, fr.lookup t = some l ∧ (i.shapeOf t).Represents i.width l c
  outside : ∀ t, t ∉ i.defs → t.Reserved n → (∀ k < i.width, (lanes k).lookup t = fr.lookup t) ∧
    ∀ l, fr.lookup t = some l → ∃ x, l = [x]

/-- What is read is known, if it is of the region at all. -/
def Readable (i : LaneInfo) (n : TempCounter) (known : List Temp) (t : Temp) : Prop :=
  t.Reserved n ∧ (t ∈ i.defs → t ∈ known)

variable {i : LaneInfo} {n : TempCounter} {known : List Temp} {lanes : Nat → Frame} {fr : Frame}
  {t : Temp} {v : Value} {x : Instr} {k : Nat}

namespace Simulates

/-- In every lane, what is read has at most one value. -/
theorem width_eq_one (h : i.Simulates n known lanes fr) (ht : i.Readable n known t) (hk : k < i.width) :
    (lanes k).width t = 1 := by
  by_cases hdef : t ∈ i.defs
  · obtain ⟨c, hc, -⟩ := h.inside t (ht.2 hdef)
    exact Frame.width_of_lookup (hc k hk)
  · obtain ⟨hsame, hone⟩ := h.outside t hdef ht.1
    cases hl : (lanes k).lookup t with
    | none => simp [Frame.width, hl]
    | some l =>
      obtain ⟨x, rfl⟩ := hone l ((hsame k hk).symm.trans hl)
      exact Frame.width_of_lookup hl

/-- A temporary that does not vary is stored as the first lane has it. -/
theorem lookup_flat (h : i.Simulates n known lanes fr) (ht : i.Readable n known t)
    (hflat : (i.shapeOf t).isVector = false) (hw : 0 < i.width) :
    fr.lookup t = (lanes 0).lookup t := by
  by_cases hdef : t ∈ i.defs
  · obtain ⟨c, hc, l, hl, hrep⟩ := h.inside t (ht.2 hdef)
    rw [hl, hc 0 hw, ((LaneShape.represents_flat hflat).mp hrep).1]
  · exact ((h.outside t hdef ht.1).1 0 hw).symm

/-- Operands that do not vary are read as the first lane reads them. -/
theorem lane_flat (h : i.Simulates n known lanes fr) (hv : ∀ t, v = .temp t → i.Readable n known t)
    (hflat : (i.shape v).isVector = false) (hw : 0 < i.width) (k : Nat) :
    fr.lane v k = (lanes 0).lane v k := by
  cases v with
  | temp t => simp only [Frame.lane, h.lookup_flat (hv t rfl) hflat hw]
  | _ => rfl

theorem width_flat (h : i.Simulates n known lanes fr) (ht : i.Readable n known t)
    (hflat : (i.shapeOf t).isVector = false) (hw : 0 < i.width) : fr.width t = 1 := by
  rw [← h.width_eq_one ht hw, Frame.width, h.lookup_flat ht hflat hw]
  rfl

/-- The lanes of an operand that varies, or that all lanes agree on, are those that the lanes
read. -/
theorem lane_eq (h : i.Simulates n known lanes fr) (hv : ∀ t, v = .temp t → i.Readable n known t)
    (hshape : (i.shape v).isVector = true ∨ i.shape v = .uniform) (hk : k < i.width) :
    fr.lane v k = (lanes k).lane v 0 := by
  cases v with
  | temp t =>
    by_cases hdef : t ∈ i.defs
    · obtain ⟨c, hc, l, hl, hrep⟩ := h.inside t ((hv t rfl).2 hdef)
      rw [Frame.lane_of_lookup (hc k hk)]
      rcases hshape with hvec | huni
      · exact hrep.lane hvec hl hk
      · have huni : i.shapeOf t = .uniform := huni
        obtain ⟨rfl, hconf⟩ := (LaneShape.represents_flat (by rw [huni]; rfl)).mp hrep
        rw [Frame.lane_of_lookup hl]
        rw [huni] at hconf
        rw [hconf k hk]
    · obtain ⟨hsame, hone⟩ := h.outside t hdef (hv t rfl).1
      cases hl : fr.lookup t with
      | none => simp [Frame.lane, hl, hsame k hk]
      | some l =>
        obtain ⟨x, rfl⟩ := hone l hl
        rw [Frame.lane_of_lookup hl, Frame.lane_of_lookup ((hsame k hk).trans hl)]
  | _ => rfl

/-- Operands on which all lanes agree. -/
theorem lane_uniform (h : i.Simulates n known lanes fr)
    (hv : ∀ t, v = .temp t → i.Readable n known t) (hshape : i.shape v = .uniform) (hk : k < i.width) :
    (lanes k).lane v 0 = (lanes 0).lane v 0 := by
  have hflat : (i.shape v).isVector = false := by rw [hshape]; rfl
  rw [← h.lane_eq hv (.inr hshape) hk, h.lane_flat hv hflat (by omega)]
  cases v with
  | temp t =>
    have := h.width_eq_one (hv t rfl) (k := 0) (by omega)
    cases hl : (lanes 0).lookup t with
    | none => simp [Frame.lane, hl]
    | some l =>
      obtain ⟨x, rfl⟩ : ∃ x, l = [x] := by
        rw [Frame.width, hl] at this
        exact List.length_eq_one_iff.mp this
      rw [Frame.lane_of_lookup hl, Frame.lane_of_lookup hl]
  | _ => rfl

/-- What the lanes read conforms to the shape of the operand. -/
theorem conforms_operand (h : i.Simulates n known lanes fr)
    (hv : ∀ t, v = .temp t → i.Readable n known t) {c : Nat → Cell}
    (hc : ∀ k < i.width, (lanes k).lane v 0 = .ok (c k)) : (i.shape v).Conforms i.width c := by
  by_cases huni : i.shape v = .uniform
  · rw [huni]
    intro k hk
    have := h.lane_uniform hv huni hk
    rw [hc k hk, hc 0 (by omega)] at this
    exact Except.ok.inj this
  · cases v with
    | temp t =>
      have hdef : t ∈ i.defs := by
        by_contra hdef
        exact huni (shapeOf_of_outside hdef)
      obtain ⟨d, hd, l, hl, hrep⟩ := h.inside t ((hv t rfl).2 hdef)
      by_cases hvec : (i.shapeOf t).isVector = true
      · show (i.shapeOf t).Conforms i.width c
        cases hs : i.shapeOf t <;> simp_all [LaneShape.isVector, LaneShape.Conforms]
      · refine ((LaneShape.represents_flat (by simpa using hvec)).mp hrep).2.congr fun k hk => ?_
        have := hc k hk
        rw [Frame.lane_of_lookup (hd k hk)] at this
        exact Except.ok.inj this
    | _ => exact absurd rfl huni

/-- What the lanes compute conforms to the shape that the instruction gives its target. -/
theorem conforms_transfer (h : i.Simulates n known lanes fr) (hx : x.isPlain = true)
    (hreads : ∀ t ∈ x.readTemps, i.Readable n known t) {c : Nat → Cell}
    (hc : ∀ k < i.width, x.resultOf ((lanes k).lane · 0) = .ok (c k)) :
    (LaneShape.transfer i.shape x).Conforms i.width c := by
  have hv : ∀ v ∈ x.reads, ∀ t, v = .temp t → i.Readable n known t := fun v hv t ht =>
    hreads t (List.mem_filterMap.mpr ⟨v, hv, by rw [ht]; rfl⟩)
  exact LaneShape.conforms_resultOf (fun k v => (lanes k).lane v 0) hx
    (fun _ _ => Frame.lane_of_read rfl 0)
    (fun v hmem huni k hk => h.lane_uniform (hv v hmem) huni hk)
    (fun v hmem _ hd => h.conforms_operand (hv v hmem) hd) hc

/-- What is stored under a fresh name does not matter. -/
theorem setEntry_fresh (h : i.Simulates n known lanes fr) {m : TempCounter} {u : Temp}
    (hu : u.Fresh n m) (hmax : (m : Int) ≤ u32Max) (l : Lanes) :
    i.Simulates n known lanes (setEntry u l fr) := by
  have hne : ∀ t : Temp, t.Reserved n → (setEntry u l fr).lookup t = fr.lookup t := fun t ht =>
    lookup_setEntry_of_ne l fr (hu.ne_of_reserved hmax ht).symm
  refine ⟨h.reserved, fun t ht => ?_, fun t ht hr => ?_⟩
  · rw [hne t (h.reserved t ht)]
    exact h.inside t ht
  · rw [hne t hr]
    exact h.outside t ht hr

/-- A temporary of the region gets a value in every lane. -/
theorem setEntry_inside (h : i.Simulates n known lanes fr) (ht : t ∈ i.defs) (hr : t.Reserved n)
    {lanes' : Nat → Frame} {c : Nat → Cell} {l : Lanes}
    (hlanes : ∀ k < i.width, lanes' k = setEntry t [c k] (lanes k))
    (hrep : (i.shapeOf t).Represents i.width l c) :
    i.Simulates n (t :: known) lanes' (setEntry t l fr) := by
  refine ⟨List.forall_mem_cons.mpr ⟨hr, h.reserved⟩, fun u hu => ?_, fun u hu hur => ?_⟩
  · by_cases e : u = t
    · subst e
      refine ⟨c, fun k hk => ?_, l, lookup_setEntry_self .., hrep⟩
      rw [hlanes k hk]
      exact lookup_setEntry_self ..
    · obtain ⟨d, hd, l', hl', hrep'⟩ := h.inside u ((List.mem_cons.mp hu).resolve_left e)
      refine ⟨d, fun k hk => ?_, l', ?_, hrep'⟩
      · rw [hlanes k hk, lookup_setEntry_of_ne _ _ e]
        exact hd k hk
      · rw [lookup_setEntry_of_ne _ _ e]
        exact hl'
  · have e : u ≠ t := fun e => hu (e ▸ ht)
    obtain ⟨hsame, hone⟩ := h.outside u hu hur
    rw [lookup_setEntry_of_ne _ _ e]
    refine ⟨fun k hk => ?_, hone⟩
    rw [hlanes k hk, lookup_setEntry_of_ne _ _ e]
    exact hsame k hk

/-- Only the lanes there are matter. -/
theorem congr_lanes (h : i.Simulates n known lanes fr) {lanes' : Nat → Frame}
    (hsame : ∀ k < i.width, lanes' k = lanes k) : i.Simulates n known lanes' fr := by
  refine ⟨h.reserved, fun t ht => ?_, fun t ht hr => ?_⟩
  · obtain ⟨c, hc, hrep⟩ := h.inside t ht
    exact ⟨c, fun k hk => by rw [hsame k hk]; exact hc k hk, hrep⟩
  · obtain ⟨hlanes, hone⟩ := h.outside t ht hr
    exact ⟨fun k hk => by rw [hsame k hk]; exact hlanes k hk, hone⟩

theorem subset (h : i.Simulates n known lanes fr) {known' : List Temp} (hsub : known' ⊆ known) :
    i.Simulates n known' lanes fr :=
  ⟨fun t ht => h.reserved t (hsub ht), fun t ht => h.inside t (hsub ht), h.outside⟩

/-- An operand on which all lanes agree is read as every lane reads it. -/
theorem read_uniform (h : i.Simulates n known lanes fr)
    (hv : ∀ t, v = .temp t → i.Readable n known t) (hshape : i.shape v = .uniform) (hk : k < i.width) :
    fr.read v = (lanes k).read v := by
  cases v with
  | temp t =>
    have hlookup : fr.lookup t = (lanes k).lookup t := by
      by_cases hdef : t ∈ i.defs
      · obtain ⟨c, hc, l, hl, hrep⟩ := h.inside t ((hv t rfl).2 hdef)
        have huni : i.shapeOf t = .uniform := hshape
        obtain ⟨rfl, hconf⟩ := (LaneShape.represents_flat (by rw [huni]; rfl)).mp hrep
        rw [huni] at hconf
        rw [hl, hc k hk, hconf k hk]
      · exact ((h.outside t hdef (hv t rfl).1).1 k hk).symm
    simp only [Frame.read, hlookup]
  | _ => rfl

/-- What is read stands for what the lanes read. -/
theorem represents_operand (h : i.Simulates n known lanes fr)
    (hv : ∀ t, v = .temp t → i.Readable n known t) (hw : 0 < i.width) {d : Nat → Cell}
    (hd : ∀ k < i.width, (lanes k).read v = .ok [d k]) :
    ∃ l, fr.read v = .ok l ∧ (i.shape v).Represents i.width l d := by
  have huniform : ∀ x, fr.read v = .ok [x] → (∀ k < i.width, d k = x) → i.shape v = .uniform →
      ∃ l, fr.read v = .ok l ∧ (i.shape v).Represents i.width l d := fun x hx hall hshape => by
    refine ⟨[x], hx, ?_⟩
    rw [hshape, LaneShape.represents_flat rfl, hall 0 hw]
    exact ⟨rfl, fun k hk => (hall k hk).trans (hall 0 hw).symm⟩
  cases v with
  | temp t =>
    by_cases hdef : t ∈ i.defs
    · obtain ⟨c, hc, l, hl, hrep⟩ := h.inside t ((hv t rfl).2 hdef)
      refine ⟨l, by simp [Frame.read, hl], hrep.congr hw fun k hk => ?_⟩
      have := hd k hk
      simpa [Frame.read, hc k hk] using this
    · have hread : ∀ k < i.width, fr.read (.temp t) = (lanes k).read (.temp t) := fun k hk => by
        rw [Frame.read, Frame.read, (h.outside t hdef (hv t rfl).1).1 k hk]
      refine huniform (d 0) ((hread 0 hw).trans (hd 0 hw)) (fun k hk => ?_) (shapeOf_of_outside hdef)
      have := (hread k hk).symm.trans ((hread 0 hw).trans (hd 0 hw))
      simpa [hd k hk] using this
  | _ =>
    refine huniform _ rfl (fun k hk => ?_) rfl
    have := hd k hk
    simpa [Frame.read] using this.symm

/-- Several temporaries of the region get their values. -/
theorem setEntries {lanes' : Nat → Frame} : ∀ {es : List (Temp × (Nat → Cell) × Lanes)}
    {known : List Temp} {lanes : Nat → Frame} {fr : Frame}, i.Simulates n known lanes fr →
    (∀ e ∈ es, e.1 ∈ i.defs ∧ e.1.Reserved n ∧
      (i.shapeOf e.1).Represents i.width e.2.2 e.2.1) →
    (∀ k < i.width, lanes' k = es.foldl (fun fr e => setEntry e.1 [e.2.1 k] fr) (lanes k)) →
    i.Simulates n (es.map (·.1) ++ known) lanes'
      (es.foldl (fun fr e => setEntry e.1 e.2.2 fr) fr) := by
  intro es
  induction es with
  | nil => exact fun h _ hlanes => h.congr_lanes hlanes
  | cons e es ih =>
    intro known lanes fr h hes hlanes
    obtain ⟨⟨hdef, hr, hrep⟩, hes⟩ := List.forall_mem_cons.mp hes
    have hfirst : ∀ k < i.width, (fun k => setEntry e.1 [e.2.1 k] (lanes k)) k =
        setEntry e.1 [e.2.1 k] (lanes k) := fun _ _ => rfl
    refine (ih (h.setEntry_inside hdef hr hfirst hrep) hes hlanes).subset fun t ht => ?_
    simp only [List.map_cons, List.cons_append, List.mem_cons, List.mem_append] at ht ⊢
    tauto

/-- In every lane, what is read has a single value. -/
theorem read_single (h : i.Simulates n known lanes fr)
    (hv : ∀ t, v = .temp t → i.Readable n known t) (hk : k < i.width) {l : Lanes}
    (hl : (lanes k).read v = .ok l) : ∃ x, l = [x] := by
  cases v with
  | temp t =>
    have hlookup := Frame.lookup_of_read hl
    by_cases hdef : t ∈ i.defs
    · obtain ⟨c, hc, -⟩ := h.inside t ((hv t rfl).2 hdef)
      exact ⟨c k, Option.some.inj (hlookup.symm.trans (hc k hk))⟩
    · obtain ⟨hsame, hone⟩ := h.outside t hdef (hv t rfl).1
      exact hone l ((hsame k hk).symm.trans hlookup)
  | _ => exact ⟨_, (Except.ok.inj hl).symm⟩

end Simulates

end LaneInfo

end LoopLanes
