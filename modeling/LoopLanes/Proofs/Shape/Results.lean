/-
Results that conform to their shapes.

Lane `k` runs an instruction in a frame of its own, or in lane `k` of a frame that it shares with
the others; `LaneShape.transfer` tells from the shapes of the operands how the results of the lanes
are related.  For an instruction that only computes, the results conform to that shape
(`conforms_resultOf`), and so they do for loads while memory stays as it is (`conforms_load`).

Addresses are the exception.  The stride of an address is the sum of those of its operands, but an
offset is computed in a word of 32 bits, places are counted in a word of 64 bits, and an offset that
wraps around in the one does not in the other.  Addresses keep the stride exactly where the offsets
`Widen`: where they are a stride apart as wide words, too (`conforms_places_iff`).  `Steady` asks
this of an instruction, and nothing else has to be asked (`conforms_transfer_iff`).
-/
import LoopLanes.Proofs.Lanes.Scalar
import LoopLanes.Proofs.Shape.Conform

namespace LoopLanes

namespace Instr

variable {call : Caller} {fr : Frame} {m m' : Machine} {k : Nat} {t : Temp} {ty : Ty} {c : Cell}
  {addr offset : Value}

theorem gives_execLane_load (h : Gives (execLane call fr k (.load t ty addr)) m (some c) m') :
    ∃ a, fr.lane addr k = .ok a ∧ m.load a = .ok c := by
  obtain ⟨a, _, ha, h⟩ := gives_bind.mp h
  obtain ⟨hread, rfl⟩ := gives_operand.mp ha
  obtain ⟨_, _, hm, h⟩ := gives_bind.mp h
  obtain ⟨rfl, rfl⟩ := Prod.mk.inj (gives_modifyGet.mp hm)
  obtain ⟨c', _, hc, h⟩ := gives_bind.mp h
  obtain ⟨hload, rfl⟩ := gives_mk_pure.mp hc
  obtain ⟨hc, -⟩ := gives_pure.mp h
  exact ⟨a, hread, hload.trans (congrArg _ (Option.some.inj hc))⟩

theorem gives_execLane_gep (h : Gives (execLane call fr k (.gep t ty addr offset)) m (some c) m') :
    ∃ a w, fr.lane offset k = .ok (.int w) ∧ fr.lane addr k = .ok a ∧ a.offset w.toInt = .ok c := by
  obtain ⟨o, _, ho, h⟩ := gives_bind.mp h
  obtain ⟨hoffset, rfl⟩ := gives_operand.mp ho
  obtain ⟨w, _, hw, h⟩ := gives_bind.mp h
  obtain ⟨hword, rfl⟩ := gives_mk_pure.mp hw
  obtain ⟨a, _, ha, h⟩ := gives_bind.mp h
  obtain ⟨haddr, rfl⟩ := gives_operand.mp ha
  obtain ⟨c', _, hc, h⟩ := gives_bind.mp h
  obtain ⟨hmove, rfl⟩ := gives_mk_pure.mp hc
  obtain ⟨hc, -⟩ := gives_pure.mp h
  obtain rfl : o = .int w := by
    cases o <;> cases hword
    rfl
  exact ⟨a, w, hoffset, haddr, hmove.trans (congrArg _ (Option.some.inj hc))⟩

end Instr

namespace LaneShape

variable {width : Nat} {a b : LaneShape} {xs ys zs : Nat → Cell} {s r : Int}

/-! ### Places -/

/-- Where a pointer that moves ends up. -/
theorem offset_ptr_iff {p : Nat} {d : Int} {c : Cell} :
    (Cell.ptr p).offset d = .ok c ↔ ∃ q : Nat, c = .ptr q ∧ wrapI64 (p + d) = q := by
  simp only [Cell.offset]
  constructor
  · intro h
    split at h
    · cases h
    · cases h
      exact ⟨_, rfl, by omega⟩
  · rintro ⟨q, rfl, hq⟩
    rw [if_neg (by omega), hq, Int.toNat_natCast]

/-- Lanes that hold pointers, a stride apart. -/
theorem Conforms.places (h : a.Conforms width xs) (hs : a.stride? = some s) {p : Nat}
    (hp : xs 0 = .ptr p) (k : Nat) (hk : k < width) :
    ∃ q : Nat, xs k = .ptr q ∧ wrapI64 q = wrapI64 (p + k * s) := by
  cases a <;> simp only [stride?, reduceCtorEq, Option.some.injEq] at hs <;> subst hs
  case uniform => exact ⟨p, (h k hk).trans hp, by simp⟩
  case strided s =>
    have hk := h k hk
    rw [hp] at hk
    obtain ⟨q, hq, hwrap⟩ := offset_ptr_iff.mp hk
    exact ⟨q, hq, by rw [← hwrap, wrapI64_wrapI64]⟩

/-- Places that conform to a stride. -/
theorem conforms_ofStride_iff {q : Nat → Nat} (hz : ∀ k < width, zs k = .ptr (q k))
    (hq : ∀ k < width, wrapI64 (q k) = q k) :
    (ofStride s).Conforms width zs ↔ ∀ k < width, wrapI64 (q 0 + k * s) = q k := by
  unfold ofStride
  split
  · rename_i hs
    refine forall₂_congr fun k hk => ?_
    rw [hz k hk, hz 0 (by omega), hs, Int.mul_zero, Int.add_zero, hq 0 (by omega), Cell.ptr.injEq,
      Int.natCast_inj]
    exact eq_comm
  · refine forall₂_congr fun k hk => ?_
    rw [hz k hk, hz 0 (by omega), offset_ptr_iff]
    simp [eq_comm]

/-! ### Addresses -/

/-- As words of 64 bits, too, the lanes of an offset are a stride apart. -/
def Widens (width : Nat) (r : Int) (ys : Nat → Cell) : Prop :=
  ∀ k < width, ∀ v w, ys 0 = .int v → ys k = .int w → wrapI64 (v.toInt + k * r) = w.toInt

/-- Pointers that are moved keep the stride where the offsets do not wrap around, and only there. -/
theorem conforms_places_iff (hx : a.Conforms width xs) (ha : a.stride? = some s) {p : Nat}
    (hp : xs 0 = .ptr p)
    (h : ∀ k < width, ∃ w, ys k = .int w ∧ (xs k).offset w.toInt = .ok (zs k)) :
    (ofStride (s + r)).Conforms width zs ↔ Widens width r ys := by
  have hlane : ∀ k, ∃ (w : Int32) (q : Nat), k < width →
      ys k = .int w ∧ zs k = .ptr q ∧ wrapI64 (p + k * s + w.toInt) = q := by
    intro k
    by_cases hk : k < width
    · obtain ⟨w, hw, hz⟩ := h k hk
      obtain ⟨q', hx', hq'⟩ := hx.places ha hp k hk
      rw [hx'] at hz
      obtain ⟨q, hz, hq⟩ := offset_ptr_iff.mp hz
      refine ⟨w, q, fun _ => ⟨hw, hz, ?_⟩⟩
      rw [← hq, wrapI64_eq_iff]
      rw [wrapI64_eq_iff] at hq'
      omega
    · exact ⟨0, 0, fun hk' => absurd hk' hk⟩
  choose w q hwq using hlane
  have hq : ∀ k < width, wrapI64 (q k) = q k := fun k hk => by
    rw [← (hwq k hk).2.2, wrapI64_wrapI64]
  rw [conforms_ofStride_iff (fun k hk => (hwq k hk).2.1) hq]
  refine forall₂_congr fun k hk => ?_
  obtain ⟨hw, -, hqk⟩ := hwq k hk
  obtain ⟨hw0, -, hq0⟩ := hwq 0 (by omega)
  -- both sides say that the offset of lane `k` and that of lane 0, moved, are whole turns apart
  have hsum : wrapI64 (q 0 + k * (s + r)) = q k ↔ wrapI64 ((w 0).toInt + k * r) = (w k).toInt := by
    have h0 : (18446744073709551616 : Int) ∣ p + (w 0).toInt - q 0 := by
      rw [← wrapI64_eq_iff, hq 0 (by omega), ← hq0]
      simp
    rw [← hqk, wrapI64_eq_iff, Int.mul_add]
    conv_rhs => rw [← wrapI64_toInt (w k), wrapI64_eq_iff]
    generalize (k : Int) * s = ks, (k : Int) * r = kr
    omega
  rw [hsum, hw, hw0]
  constructor
  · intro h v w' hv hw'
    rwa [← Cell.int.inj hv, ← Cell.int.inj hw']
  · exact fun h => h _ _ rfl rfl

/-- What a stride leads to from something else than a pointer is none. -/
theorem Conforms.not_ptr (h : a.Conforms width xs) (hs : a.stride? = some s)
    (h0 : ∀ p, xs 0 ≠ .ptr p) {k : Nat} (hk : k < width) (p : Nat) : xs k ≠ .ptr p := by
  cases a <;> simp only [stride?, reduceCtorEq] at hs
  case uniform => exact h k hk ▸ h0 p
  case strided s =>
    intro e
    have hk := h k hk
    rw [e] at hk
    cases hx : xs 0 with
    | ptr q => exact h0 q hx
    | _ => simp [hx, Cell.offset] at hk

/-- Words that are moved keep the stride: they wrap around as the offsets do. -/
theorem conforms_moved (hx : a.Conforms width xs) (hy : b.Conforms width ys)
    (ha : a.stride? = some s) (hb : b.stride? = some r) (h0 : ∀ p, xs 0 ≠ .ptr p)
    (h : ∀ k < width, ∃ w, ys k = .int w ∧ (xs k).offset w.toInt = .ok (zs k)) :
    (ofStride (s + r)).Conforms width zs := by
  refine conforms_add hx hy ha hb fun k hk => ?_
  obtain ⟨w, hw, hz⟩ := h k hk
  cases hv : xs k with
  | int v =>
    rw [hv, offset_int, Int32.ofInt_toInt] at hz
    rw [hw, ← hz]
    rfl
  | float v => simp [hv, Cell.offset] at hz
  | ptr p => exact absurd hv (hx.not_ptr ha h0 hk p)

theorem isDefined_of_stride? (h : a.stride? = some s) : a.isDefined = true := by
  cases a <;> first | rfl | cases h

/-! ### Instructions -/

/-- Where an instruction moves pointers along strides whose sum fits, its offsets do not wrap
around. -/
def Steady (width : Nat) (shape : Value → LaneShape) (cells : Value → Nat → Cell) : Instr → Prop
  | .gep _ _ addr offset => ∀ p s r, cells addr 0 = .ptr p →
      strides? (shape addr) (shape offset) = some (s, r) → (fitI32? (s + r)).isSome →
      Widens width r (cells offset)
  | _ => True

variable {shape : Value → LaneShape} {x : Instr}

/-- The results of an instruction that only computes conform to their shape, where `read k` is what
lane `k` reads. -/
theorem conforms_resultOf (read : Nat → Value → Except RunError Cell) (hx : x.isPlain = true)
    (hconst : ∀ k w, read k (.int w) = .ok (.int w))
    (huniform : ∀ v ∈ x.reads, shape v = uniform → ∀ k < width, read k v = read 0 v)
    (hconforms : ∀ v ∈ x.reads, ∀ c : Nat → Cell, (∀ k < width, read k v = .ok (c k)) →
      (shape v).Conforms width c)
    (h : ∀ k < width, x.resultOf (read k) = .ok (zs k)) :
    (transfer shape x).Conforms width zs := by
  -- where all operands are uniform, all lanes compute the same
  have hsame : (∀ v ∈ x.reads, shape v = uniform) → ∀ k < width, zs k = zs 0 := by
    intro hall k hk
    have := Instr.resultOf_congr (x := x) fun v hv => huniform v hv (hall v hv) k hk
    rw [h k hk, h 0 (by omega)] at this
    exact Except.ok.inj this
  cases x <;> try cases hx
  case arith t op ty lhs rhs =>
    have hlane : ∀ k, ∃ a b, k < width → read k lhs = .ok a ∧ read k rhs = .ok b ∧
        Cell.arith op a b = .ok (zs k) := by
      intro k
      by_cases hk : k < width
      · obtain ⟨a, ha, h'⟩ := bind_eq_ok.mp (h k hk)
        obtain ⟨b, hb, h'⟩ := bind_eq_ok.mp h'
        exact ⟨a, b, fun _ => ⟨ha, hb, h'⟩⟩
      · exact ⟨default, default, fun h => absurd h hk⟩
    choose a b hab using hlane
    refine conforms_arith (hconforms lhs (by simp [Instr.reads]) a fun k hk => (hab k hk).1)
      (hconforms rhs (by simp [Instr.reads]) b fun k hk => (hab k hk).2.1)
      ?_ ?_ fun k hk => (hab k hk).2.2
    · rintro w rfl k hk
      exact (Except.ok.inj ((hconst k w).symm.trans (hab k hk).1)).symm
    · rintro w rfl k hk
      exact (Except.ok.inj ((hconst k w).symm.trans (hab k hk).2.1)).symm
  case comp t kind op ty lhs rhs =>
    refine conforms_combine fun hall => hsame fun v hv => ?_
    simp only [Instr.reads, List.mem_cons, List.not_mem_nil, or_false] at hv
    rcases hv with rfl | rfl <;> exact hall _ (by simp)
  case select t ty cond lhs rhs =>
    refine conforms_combine fun hall => hsame fun v hv => ?_
    simp only [Instr.reads, List.mem_cons, List.not_mem_nil, or_false] at hv
    rcases hv with rfl | rfl | rfl <;> exact hall _ (by simp)

/-- Loads from one place find the same value, as long as memory stays as it is. -/
theorem conforms_load {m : Machine} {t : Temp} {ty : Ty} {addr : Value}
    (hx : (shape addr).Conforms width xs) (h : ∀ k < width, m.load (xs k) = .ok (zs k)) :
    (transfer shape (.load t ty addr)).Conforms width zs := by
  simp only [transfer]
  split <;> rename_i haddr
  · trivial
  · intro k hk
    rw [haddr] at hx
    have hk' := h k hk
    rw [hx k hk, h 0 (by omega)] at hk'
    exact (Except.ok.inj hk').symm
  · trivial

/-- Addresses conform to their shape exactly where their offsets are steady. -/
theorem conforms_gep_iff {cells : Value → Nat → Cell} {t : Temp} {ty : Ty} {addr offset : Value}
    (hx : (shape addr).Conforms width (cells addr))
    (hy : (shape offset).Conforms width (cells offset))
    (h : ∀ k < width, ∃ w, cells offset k = .int w ∧ (cells addr k).offset w.toInt = .ok (zs k)) :
    (transfer shape (.gep t ty addr offset)).Conforms width zs ↔
      Steady width shape cells (.gep t ty addr offset) := by
  simp only [transfer, Steady]
  split
  · rename_i hundef
    refine iff_of_true trivial fun p s r _ hs => ?_
    obtain ⟨ha, hb⟩ := strides?_eq_some_iff.mp hs
    simp [isDefined_of_stride? ha, isDefined_of_stride? hb] at hundef
  split
  · rename_i n hn
    obtain ⟨⟨s, r⟩, hs, hfit⟩ := Option.bind_eq_some_iff.mp hn
    obtain ⟨ha, hb⟩ := strides?_eq_some_iff.mp hs
    rw [(fitI32?_eq_some hfit).1]
    by_cases hptr : ∃ p, cells addr 0 = .ptr p
    · obtain ⟨p, hp⟩ := hptr
      rw [conforms_places_iff hx ha hp h]
      constructor
      · rintro hw - s' r' - hs' -
        obtain ⟨-, rfl⟩ := Prod.mk.inj (Option.some.inj (hs.symm.trans hs'))
        exact hw
      · exact fun hw => hw p s r hp hs (by rw [hfit]; rfl)
    · exact iff_of_true (conforms_moved hx hy ha hb (fun p hp => hptr ⟨p, hp⟩) h)
        fun p _ _ hp => absurd ⟨p, hp⟩ hptr
  · rename_i hnone
    refine iff_of_true trivial fun p s r _ hs hfit => ?_
    rw [hs, Option.bind_some] at hnone
    simp [hnone] at hfit

variable {frames : Nat → Frame} {cells : Value → Nat → Cell} {call : Caller} {m : Machine}

/-- What the lanes compute conforms to the shape of the instruction exactly where its offsets are
steady.  `cells` has the values of the operands, lane by lane, and all lanes find the same
machine. -/
theorem conforms_transfer_iff
    (hreads : ∀ v ∈ x.reads, ∀ k < width, (frames k).lane v k = .ok (cells v k))
    (hshape : ∀ v ∈ x.reads, (shape v).Conforms width (cells v))
    (h : ∀ k < width, ∃ m', Gives (x.execLane call (frames k) k) m (some (zs k)) m') :
    (transfer shape x).Conforms width zs ↔ Steady width shape cells x := by
  have hplain : x.isPlain = true → (transfer shape x).Conforms width zs := by
    intro hx
    refine conforms_resultOf (fun k v => (frames k).lane v k) hx
      (fun k w => Frame.lane_of_read rfl k) (fun v hv huni k hk => ?_) (fun v hv c hc => ?_)
      fun k hk => ?_
    · have := hshape v hv
      rw [huni] at this
      rw [hreads v hv k hk, hreads v hv 0 (by omega), this k hk]
    · exact (hshape v hv).congr fun k hk => Except.ok.inj ((hreads v hv k hk).symm.trans (hc k hk))
    · obtain ⟨m', hk⟩ := h k hk
      obtain ⟨c, hc, hcz, -⟩ := (Instr.gives_execLane_iff hx).mp hk
      exact hc.trans (congrArg _ (Option.some.inj hcz).symm)
  cases x
  case arith | comp | select => exact iff_of_true (hplain rfl) trivial
  case load t ty addr =>
    refine iff_of_true (conforms_load (m := m) (hshape addr (by simp [Instr.reads])) fun k hk => ?_)
      trivial
    obtain ⟨m', hk'⟩ := h k hk
    obtain ⟨a, ha, hload⟩ := Instr.gives_execLane_load hk'
    rw [hreads addr (by simp [Instr.reads]) k hk] at ha
    exact Except.ok.inj ha ▸ hload
  case gep t ty addr offset =>
    refine conforms_gep_iff (hshape addr (by simp [Instr.reads]))
      (hshape offset (by simp [Instr.reads])) fun k hk => ?_
    obtain ⟨m', hk'⟩ := h k hk
    obtain ⟨a, w, hw, ha, hz⟩ := Instr.gives_execLane_gep hk'
    rw [hreads addr (by simp [Instr.reads]) k hk] at ha
    rw [hreads offset (by simp [Instr.reads]) k hk] at hw
    exact ⟨w, Except.ok.inj hw, Except.ok.inj ha ▸ hz⟩
  case reduce =>
    -- lanes do not fold vectors
    refine iff_of_true (fun k hk => ?_) trivial
    obtain ⟨m', hk'⟩ := h k hk
    exact absurd hk' not_gives_throw
  all_goals exact iff_of_true trivial trivial

/-! ### An address that is counted on by offsets one after the other -/

/-- The address `%q` of an element, counted on from `%p` by `%o`. -/
def countedOn : Instr :=
  .gep (.ofLocal "q" .i32Ptr) .i32Ptr (.temp (.ofLocal "p" .i32Ptr)) (.temp (.ofLocal "o" .i32))

/-- Its pointer is the same in all lanes, its offset grows by one from lane to lane. -/
def countingShape (v : Value) : LaneShape :=
  if v = .temp (.ofLocal "o" .i32) then strided 1 else uniform

/-- The values of its operands, where the offset of lane 0 is given. -/
def countingCells (start : Int32) (v : Value) (k : Nat) : Cell :=
  if v = .temp (.ofLocal "o" .i32) then .int (start + .ofInt k) else .ptr 2147483648

/-- A frame with these values in two lanes. -/
def countingFrame (start : Int32) : Frame :=
  [(.ofLocal "p" .i32Ptr, [.ptr 2147483648]),
    (.ofLocal "o" .i32, (List.range 2).map fun k => .int (start + .ofInt k))]

theorem lane_countingFrame (start : Int32) : ∀ v ∈ countedOn.reads, ∀ k < 2,
    (countingFrame start).lane v k = .ok (countingCells start v k) := by
  intro v hv k hk
  simp only [countedOn, Instr.reads, List.mem_cons, List.not_mem_nil, or_false] at hv
  obtain rfl | rfl : k = 0 ∨ k = 1 := by omega
  all_goals rcases hv with rfl | rfl <;> rfl

theorem conforms_countingCells (start : Int32) : ∀ v ∈ countedOn.reads,
    (countingShape v).Conforms 2 (countingCells start v) := by
  intro v hv
  simp only [countedOn, Instr.reads, List.mem_cons, List.not_mem_nil, or_false] at hv
  rcases hv with rfl | rfl
  · exact fun _ _ => rfl
  · intro k _
    change Except.ok (Cell.int (start + .ofInt 0 + .ofInt (k * 1))) = .ok (.int (start + .ofInt k))
    simp

/-- Small offsets do not wrap around, and the addresses are those of neighbouring elements. -/
theorem conforms_countedOn :
    (transfer countingShape countedOn).Conforms 2 fun k => .ptr (2147483651 + k) := by
  have hruns : ∀ k < 2, ∃ m', Gives (countedOn.execLane (fun _ _ => pure none) (countingFrame 3) k)
      .start (some (.ptr (2147483651 + k))) m' := by
    intro k hk
    refine ⟨.start, ?_⟩
    obtain rfl | rfl : k = 0 ∨ k = 1 := by omega
    all_goals rfl
  have hsteady : Steady 2 countingShape (countingCells 3) countedOn := by
    rintro p s r - ⟨⟩ - k hk v w ⟨⟩ ⟨⟩
    obtain rfl | rfl : k = 0 ∨ k = 1 := by omega
    all_goals rfl
  exact (conforms_transfer_iff (lane_countingFrame 3) (conforms_countingCells 3) hruns).mpr hsteady

/-- The last word that counts up is followed by the least one: lane 1 is not one element behind lane
0, which the shape promises. -/
theorem not_conforms_countedOn :
    (∀ v ∈ countedOn.reads, ∀ k < 2,
      (countingFrame 2147483647).lane v k = .ok (countingCells 2147483647 v k)) ∧
    (∀ v ∈ countedOn.reads, (countingShape v).Conforms 2 (countingCells 2147483647 v)) ∧
    Gives (countedOn.execLane (fun _ _ => pure none) (countingFrame 2147483647) 0) .start
      (some (.ptr 4294967295)) .start ∧
    Gives (countedOn.execLane (fun _ _ => pure none) (countingFrame 2147483647) 1) .start
      (some (.ptr 0)) .start ∧
    transfer countingShape countedOn = strided 1 ∧
    ¬ (strided 1).Conforms 2 fun k => if k = 0 then .ptr 4294967295 else .ptr 0 := by
  refine ⟨lane_countingFrame _, conforms_countingCells _, rfl, rfl, rfl, fun h => ?_⟩
  have := h 1 (by omega)
  cases this

end LaneShape

end LoopLanes
