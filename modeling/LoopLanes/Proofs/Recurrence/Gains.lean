/-
Gains of a recurrence.

Each kind of a reduction stands for an operator, and each step of such a recurrence combines a value
of it with something else.  So whatever the recurrence starts from, its values are the start combined
with the same gains: `Moved` compares the frames of two turns that start from different values, and
`Carried` says of a piece of a turn that it keeps frames so related.

* `carried_steps` — a step of the recurrence;
* `carried_other` — an instruction that has nothing to do with it;
* `carried_phis` — phis that take in values along an edge.
-/
import LoopLanes.Proofs.Lanes.Turns
import LoopLanes.Recurrence.Analysis

namespace LoopLanes

/-! ### Kinds as operators -/

namespace RedKind

/-- Combines two partial results; kinds without an operator keep the first. -/
def combine : RedKind → Int32 → Int32 → Int32
  | add, a, b => a + b
  | mul, a, b => a * b
  | and, a, b => a &&& b
  | or, a, b => a ||| b
  | xor, a, b => a ^^^ b
  | bot, a, _ => a
  | top, a, _ => a

/-- What leaves the other partial result as it is. -/
def neutral : RedKind → Int32
  | mul => 1
  | and => -1
  | _ => 0

variable {k a b : RedKind}

theorem combine_assoc (k : RedKind) (x y z : Int32) :
    k.combine (k.combine x y) z = k.combine x (k.combine y z) := by
  cases k with
  | add => exact Int32.add_assoc x y z
  | mul => exact Int32.mul_assoc x y z
  | and => exact Int32.and_assoc x y z
  | or => exact Int32.or_assoc x y z
  | xor => exact Int32.xor_assoc x y z
  | _ => rfl

theorem combine_neutral (k : RedKind) (x : Int32) : k.combine x k.neutral = x := by
  cases k with
  | add => exact Int32.add_zero x
  | mul => exact Int32.mul_one x
  | and => exact Int32.and_neg_one
  | or => exact Int32.or_zero
  | xor => exact Int32.xor_zero
  | _ => rfl

/-- A kind combines as its operator does. -/
theorem arith_combine {op : ArithOp} (h : k.arithOp? .i32 = some op) (x y : Int32) :
    Cell.arith op (.int x) (.int y) = .ok (.int (k.combine x y)) := by
  cases k <;> cases h <;> rfl

theorem arithOp?_of_isSupported (h : k.isSupported = true) :
    ∃ op, k.arithOp? .i32 = some op := by
  cases k <;> first | exact ⟨_, rfl⟩ | cases h

/-- Of different kinds, no supported one is made. -/
theorem eq_of_join (h : (a.join b).isSupported = true) : a = a.join b ∧ b = a.join b := by
  revert h
  cases a <;> cases b <;> decide

theorem eq_of_foldl_join : ∀ {ks : List RedKind} {k : RedKind},
    (ks.foldl join k).isSupported = true →
      k = ks.foldl join k ∧ ∀ j ∈ ks, j = ks.foldl join k := by
  intro ks
  induction ks with
  | nil => exact fun _ => ⟨rfl, fun _ => nofun⟩
  | cons j ks ih =>
    intro k h
    rw [List.foldl_cons] at h ⊢
    obtain ⟨hjoin, hks⟩ := ih h
    rw [← hjoin] at h hks ⊢
    obtain ⟨hk, hj⟩ := eq_of_join h
    exact ⟨hk, List.forall_mem_cons.mpr ⟨hj, hks⟩⟩

end RedKind

/-! ### One step -/

theorem Cell.exists_int_of_arith {op : ArithOp} {a b r : Cell} (h : Cell.arith op a b = .ok r)
    (hint : ∃ x, a = .int x ∨ b = .int x) : ∃ x y, a = .int x ∧ b = .int y := by
  obtain ⟨x, rfl | rfl⟩ := hint
  · cases b with
    | int y => exact ⟨x, y, rfl, rfl⟩
    | _ => cases op <;> cases h
  · cases a with
    | int y => exact ⟨y, x, rfl, rfl⟩
    | _ => cases op <;> first | cases h | (simp only [Cell.arith] at h; split at h <;> cases h)

/-- The operators of supported kinds do not mind the order, where they apply at all. -/
theorem Cell.arith_comm {op : ArithOp} (h : (RedKind.ofOp op).isSupported = true) {x y : Int32}
    {r : Cell} (hr : Cell.arith op (.int x) (.int y) = .ok r) (z : Int32) :
    Cell.arith op (.int x) (.int z) = Cell.arith op (.int z) (.int x) := by
  have hcell {a b : Int32} (e : a = b) : (.ok (.int a) : Except RunError Cell) = .ok (.int b) :=
    congrArg (fun v => Except.ok (Cell.int v)) e
  cases op
  case add => exact hcell (Int32.add_comm x z)
  case mul => exact hcell (Int32.mul_comm x z)
  case and => exact hcell (Int32.and_comm x z)
  case or => exact hcell (Int32.or_comm x z)
  case xor => exact hcell (Int32.xor_comm x z)
  case fadd | fmul => cases hr
  all_goals cases h

namespace RedKind

variable {k : RedKind} {op : ArithOp} {a : Int32} {c r : Cell}

/-- What an operator does to a value on its left is to add something, the same for every value. -/
theorem gain_of_arith_left (hop : (op = .sub ∨ op = .fsub) ∧ k = .add ∨ ofOp op = k)
    (hk : k.isSupported = true) (h : Cell.arith op (.int a) c = .ok r) :
    ∃ d, r = .int (k.combine a d) ∧ ∀ b, Cell.arith op (.int b) c = .ok (.int (k.combine b d)) := by
  obtain ⟨_, e, -, rfl⟩ := Cell.exists_int_of_arith h ⟨a, .inl rfl⟩
  rcases hop with ⟨rfl | rfl, rfl⟩ | rfl
  · obtain rfl := Except.ok.inj h
    refine ⟨-e, ?_, fun b => ?_⟩
    · exact congrArg Cell.int (Int32.sub_eq_add_neg a e)
    · exact congrArg (fun v => Except.ok (Cell.int v)) (Int32.sub_eq_add_neg b e)
  · cases h
  · cases op
    case add | mul | and | or | xor => exact ⟨e, (Except.ok.inj h).symm, fun _ => rfl⟩
    case fadd | fmul => cases h
    all_goals cases hk

theorem gain_of_arith_right (hop : ofOp op = k) (hk : k.isSupported = true)
    (h : Cell.arith op c (.int a) = .ok r) :
    ∃ d, r = .int (k.combine a d) ∧ ∀ b, Cell.arith op c (.int b) = .ok (.int (k.combine b d)) := by
  obtain ⟨e, _, rfl, -⟩ := Cell.exists_int_of_arith h ⟨a, .inr rfl⟩
  have hcomm := Cell.arith_comm (hop.symm ▸ hk) h
  simp only [hcomm] at h ⊢
  exact gain_of_arith_left (.inr hop) hk h

end RedKind

/-- What each value of a recurrence has gained since the header, per lane. -/
abbrev Gains := List (Temp × List Int32)

/-- The gain of one lane; a single one stands for all lanes. -/
def Gains.lane (ds : List Int32) (i : Nat) : Option Int32 :=
  match ds with
  | [d] => some d
  | ds => ds[i]?

/-- The frame `fr'` agrees with `fr` off a recurrence, and on it holds `y` combined with the gains. -/
structure Frame.Moved (E : List Temp) (k : RedKind) (δ : Gains) (fr : Frame) (y : Int32)
    (fr' : Frame) : Prop where
  other : ∀ t ∉ E, fr'.lookup t = fr.lookup t
  element : ∀ t ∈ E, ∀ ds, δ.lookup t = some ds →
    fr'.lookup t = some (ds.map fun d => .int (k.combine y d))

/-- An instruction that takes up one value of a recurrence and adds to it, or that selects between two
of them. -/
inductive Reduction.Steps (E : List Temp) (k : RedKind) : Instr → Prop
  | left {t e : Temp} {op : ArithOp} {ty : Ty} {v : Value} (he : e ∈ E)
    (hv : StridePattern.among E v = false)
    (hop : (op = .sub ∨ op = .fsub) ∧ k = .add ∨ RedKind.ofOp op = k) :
    Steps E k (.arith t op ty (.temp e) v)
  | right {t e : Temp} {op : ArithOp} {ty : Ty} {v : Value} (he : e ∈ E)
    (hv : StridePattern.among E v = false) (hop : RedKind.ofOp op = k) :
    Steps E k (.arith t op ty v (.temp e))
  | select {t e e' : Temp} {ty : Ty} {cond : Value} (hcond : StridePattern.among E cond = false)
    (he : e ∈ E) (he' : e' ∈ E) : Steps E k (.select t ty cond (.temp e) (.temp e'))

theorem StridePattern.among_iff {E : List Temp} {v : Value} :
    among E v = true ↔ ∃ e ∈ E, v = .temp e := by
  cases v <;> simp [among, Value.temp?]

namespace Frame.Moved

variable {E : List Temp} {k : RedKind} {δ : Gains} {fr fr' : Frame} {x₀ y : Int32} {t : Temp}
  {v : Value} {ds : List Int32} {c : Cell} {i : Nat}

theorem lookup_eq (h : Moved E k δ fr y fr') (hv : StridePattern.among E v = false) :
    ∀ t ∈ v.temp?, fr'.lookup t = fr.lookup t := by
  intro t ht
  refine h.other t fun hmem => ?_
  cases v <;> cases ht
  rw [StridePattern.among_iff.mpr ⟨t, hmem, rfl⟩] at hv
  cases hv

theorem lane_iff (h : Moved E k δ fr y fr') (ht : t ∈ E) (hδ : δ.lookup t = some ds) :
    fr'.lane (.temp t) i = .ok c ↔ ∃ d, Gains.lane ds i = some d ∧ c = .int (k.combine y d) := by
  have hlookup := h.element t ht ds hδ
  match ds with
  | [] => simp [Frame.lane, hlookup, Gains.lane]
  | [d] => simp [Frame.lane, hlookup, Gains.lane, eq_comm]
  | d :: d' :: ds =>
    have hmap : ((d :: d' :: ds).map fun d => Cell.int (k.combine y d))[i]? =
        (d :: d' :: ds)[i]?.map fun d => Cell.int (k.combine y d) := List.getElem?_map
    rw [List.map_cons, List.map_cons] at hlookup hmap
    simp only [Frame.lane, hlookup, hmap, Gains.lane]
    cases (d :: d' :: ds)[i]? <;> simp [eq_comm]

/-- Operands of a step have as many lanes in one frame as in the other. -/
theorem width_eq (hself : Moved E k δ fr x₀ fr) (h : Moved E k δ fr y fr')
    (hknown : t ∈ E → (δ.lookup t).isSome) : fr'.width t = fr.width t := by
  by_cases ht : t ∈ E
  · obtain ⟨ds, hds⟩ := Option.isSome_iff_exists.mp (hknown ht)
    rw [width, width, h.element t ht ds hds, hself.element t ht ds hds]
    simp
  · rw [width, width, h.other t ht]

/-- A lane of a step: what it adds is the same wherever the recurrence started. -/
theorem resultOf_steps {x : Instr} (hx : Reduction.Steps E k x) (hk : k.isSupported = true)
    (hself : Moved E k δ fr x₀ fr) (hknown : ∀ t ∈ x.readTemps, t ∈ E → (δ.lookup t).isSome)
    (h : x.resultOf (fr.lane · i) = .ok c) : ∃ d, c = .int (k.combine x₀ d) ∧
      ∀ y fr', Moved E k δ fr y fr' → x.resultOf (fr'.lane · i) = .ok (.int (k.combine y d)) := by
  have hgain : ∀ e, .temp e ∈ x.reads → e ∈ E → ∃ ds, δ.lookup e = some ds := fun e hmem he =>
    Option.isSome_iff_exists.mp (hknown e (Instr.mem_readTemps.mpr ⟨_, hmem, rfl⟩) he)
  cases hx with
  | @left t e op ty v he hv hop =>
    obtain ⟨ds, hds⟩ := hgain e (by simp [Instr.reads]) he
    obtain ⟨a, ha, h⟩ := bind_eq_ok.mp h
    obtain ⟨b, hb, h⟩ := bind_eq_ok.mp h
    obtain ⟨d₁, hd₁, rfl⟩ := (hself.lane_iff he hds).mp ha
    obtain ⟨d₂, rfl, hall⟩ := RedKind.gain_of_arith_left hop hk h
    refine ⟨k.combine d₁ d₂, by rw [RedKind.combine_assoc], fun y fr' hfr' => ?_⟩
    refine bind_eq_ok.mpr ⟨_, (hfr'.lane_iff he hds).mpr ⟨d₁, hd₁, rfl⟩, bind_eq_ok.mpr ⟨b, ?_, ?_⟩⟩
    · exact (Frame.lane_congr (hfr'.lookup_eq hv) i).trans hb
    · rw [hall, RedKind.combine_assoc]
  | @right t e op ty v he hv hop =>
    obtain ⟨ds, hds⟩ := hgain e (by simp [Instr.reads]) he
    obtain ⟨b, hb, h⟩ := bind_eq_ok.mp h
    obtain ⟨a, ha, h⟩ := bind_eq_ok.mp h
    obtain ⟨d₁, hd₁, rfl⟩ := (hself.lane_iff he hds).mp ha
    obtain ⟨d₂, rfl, hall⟩ := RedKind.gain_of_arith_right hop hk h
    refine ⟨k.combine d₁ d₂, by rw [RedKind.combine_assoc], fun y fr' hfr' => ?_⟩
    refine bind_eq_ok.mpr ⟨b, ?_, bind_eq_ok.mpr
      ⟨_, (hfr'.lane_iff he hds).mpr ⟨d₁, hd₁, rfl⟩, ?_⟩⟩
    · exact (Frame.lane_congr (hfr'.lookup_eq hv) i).trans hb
    · rw [hall, RedKind.combine_assoc]
  | @select t e e' ty cond hcond he he' =>
    obtain ⟨ds, hds⟩ := hgain e (by simp [Instr.reads]) he
    obtain ⟨ds', hds'⟩ := hgain e' (by simp [Instr.reads]) he'
    obtain ⟨z, hz, h⟩ := bind_eq_ok.mp h
    have hcond' : ∀ y fr', Moved E k δ fr y fr' → fr'.lane cond i = .ok z := fun y fr' hfr' =>
      (Frame.lane_congr (hfr'.lookup_eq hcond) i).trans hz
    split at h <;> rename_i htrue
    · obtain ⟨d, hd, rfl⟩ := (hself.lane_iff he hds).mp h
      refine ⟨d, rfl, fun y fr' hfr' => bind_eq_ok.mpr ⟨z, hcond' y fr' hfr', ?_⟩⟩
      rw [if_pos htrue]
      exact (hfr'.lane_iff he hds).mpr ⟨d, hd, rfl⟩
    · obtain ⟨d, hd, rfl⟩ := (hself.lane_iff he' hds').mp h
      refine ⟨d, rfl, fun y fr' hfr' => bind_eq_ok.mpr ⟨z, hcond' y fr' hfr', ?_⟩⟩
      rw [if_neg htrue]
      exact (hfr'.lane_iff he' hds').mpr ⟨d, hd, rfl⟩

end Frame.Moved

/-- A piece of a turn, for every value that the recurrence may start from: from a frame `fr` with
gains `δ` it leads to a frame `out` with gains `δ'`. -/
structure Carried (E : List Temp) (k : RedKind) (x₀ : Int32) (δ : Gains) (fr : Frame) (δ' : Gains)
    (out : Frame) (go : Frame → Frame → Prop) : Prop where
  keeps : ∀ t, (δ.lookup t).isSome → (δ'.lookup t).isSome
  self : Frame.Moved E k δ' out x₀ out
  others : ∀ y fr', Frame.Moved E k δ fr y fr' → ∃ out', go fr' out' ∧ Frame.Moved E k δ' out y out'

section Carried

variable {E : List Temp} {k : RedKind} {x₀ : Int32} {δ δ₁ δ' : Gains} {fr mid out : Frame}
  {go go' go'' : Frame → Frame → Prop} {t : Temp} {ds : List Int32}

theorem Carried.trans (h : Carried E k x₀ δ fr δ₁ mid go) (h' : Carried E k x₀ δ₁ mid δ' out go')
    (hgo : ∀ fr mid out, go fr mid → go' mid out → go'' fr out) :
    Carried E k x₀ δ fr δ' out go'' := by
  refine ⟨fun t ht => h'.keeps t (h.keeps t ht), h'.self, fun y fr' hfr' => ?_⟩
  obtain ⟨mid', hmid, hmoved⟩ := h.others y fr' hfr'
  obtain ⟨out', hout, hmoved'⟩ := h'.others y mid' hmoved
  exact ⟨out', hgo _ _ _ hmid hout, hmoved'⟩

theorem isSome_lookup_setEntry (h : (δ.lookup t).isSome) (u : Temp) (ds : List Int32) :
    ((setEntry u ds δ).lookup t).isSome := by
  rw [lookup_setEntry]
  split
  · rfl
  · exact h

/-- Setting a value of the recurrence in both frames. -/
theorem Frame.Moved.setEntry_element {y : Int32} {fr' : Frame} (h : Frame.Moved E k δ fr y fr')
    (ht : t ∈ E) (ls : Lanes) : Frame.Moved E k (setEntry t ds δ) (setEntry t ls fr) y
      (setEntry t (ds.map fun d => .int (k.combine y d)) fr') := by
  refine ⟨fun u hu => ?_, fun u hu ds' hds' => ?_⟩
  · have hne : u ≠ t := fun e => hu (e ▸ ht)
    rw [lookup_setEntry_of_ne _ _ hne, lookup_setEntry_of_ne _ _ hne]
    exact h.other u hu
  · rw [lookup_setEntry] at hds' ⊢
    split at hds'
    · rename_i e
      rw [if_pos e, Option.some.inj hds']
    · rename_i e
      rw [if_neg e]
      exact h.element u hu ds' hds'

/-- Setting anything else alike. -/
theorem Frame.Moved.setEntry_other {y : Int32} {fr' : Frame} (h : Frame.Moved E k δ fr y fr')
    (ht : t ∉ E) (ls : Lanes) : Frame.Moved E k δ (setEntry t ls fr) y (setEntry t ls fr') := by
  refine ⟨fun u hu => ?_, fun u hu ds' hds' => ?_⟩
  · rw [lookup_setEntry, lookup_setEntry, h.other u hu]
  · have hne : u ≠ t := fun e => ht (e ▸ hu)
    rw [lookup_setEntry_of_ne _ _ hne]
    exact h.element u hu ds' hds'

/-- Results that are the start combined with a gain each, as a list of gains. -/
theorem exists_gains {α : Type} {R : α → Cell → Prop} {S : α → Int32 → Prop} {as : List α}
    {cs : List Cell} (h : List.Forall₂ R as cs)
    (hR : ∀ a c, R a c → ∃ d, c = .int (k.combine x₀ d) ∧ S a d) :
    ∃ ds : List Int32, cs = ds.map (fun d => .int (k.combine x₀ d)) ∧ List.Forall₂ S as ds := by
  induction h with
  | nil => exact ⟨[], rfl, .nil⟩
  | cons ha _ ih =>
    obtain ⟨d, rfl, hd⟩ := hR _ _ ha
    obtain ⟨ds, rfl, hds⟩ := ih
    exact ⟨d :: ds, rfl, .cons hd hds⟩

variable {x : Instr} {call : Caller} {m m' : Machine}

/-- A step of the recurrence. -/
theorem carried_steps (hx : Reduction.Steps E k x) (hk : k.isSupported = true) (ht : t ∈ E)
    (hw : x.write = some t) (hself : Frame.Moved E k δ fr x₀ fr)
    (hknown : ∀ u ∈ x.readTemps, u ∈ E → (δ.lookup u).isSome)
    (h : Gives (x.exec call fr) m out m') : m = m' ∧ ∃ ds, Carried E k x₀ δ fr (setEntry t ds δ) out
      fun fr out => Gives (x.exec call fr) m out m := by
  have hplain : x.isPlain = true := by cases hx <;> rfl
  obtain ⟨ls, hls, rfl, rfl⟩ := (Instr.gives_exec_lanes_iff hplain hw).mp h
  obtain ⟨ds, rfl, hds⟩ := exists_gains hls fun i c hc => hself.resultOf_steps hx hk hknown hc
  refine ⟨rfl, ds, fun u hu => isSome_lookup_setEntry hu t ds, hself.setEntry_element ht _,
    fun y fr' hfr' => ⟨_, ?_, hfr'.setEntry_element ht _⟩⟩
  have hwidth : Instr.widest fr' x = Instr.widest fr x := by
    unfold Instr.widest
    rw [List.map_congr_left fun u hu => hself.width_eq hfr' (hknown u hu)]
  refine (Instr.gives_exec_lanes_iff hplain hw).mpr ⟨_, ?_, rfl, rfl⟩
  rw [hwidth, List.forall₂_map_right_iff]
  exact hds.imp fun i d hd => hd y fr' hfr'

/-- An instruction that has nothing to do with the recurrence. -/
theorem carried_other (hreads : ∀ u ∈ x.readTemps, u ∉ E) (hwrite : ∀ u, x.write = some u → u ∉ E)
    (hself : Frame.Moved E k δ fr x₀ fr) (h : Gives (x.exec call fr) m out m') :
    Carried E k x₀ δ fr δ out fun fr out => Gives (x.exec call fr) m out m' := by
  obtain ⟨set, hset, rfl, hexec⟩ := Instr.exists_set_of_gives_exec h
  have hmoved : ∀ y fr', Frame.Moved E k δ fr y fr' → Frame.Moved E k δ (set fr) y (set fr') := by
    intro y fr' hfr'
    rcases hset with rfl | ⟨t, ls, hw, rfl⟩
    · exact hfr'
    · exact hfr'.setEntry_other (hwrite t hw) ls
  refine ⟨fun _ h => h, ⟨fun _ _ => rfl, (hmoved x₀ fr hself).element⟩, fun y fr' hfr' =>
    ⟨set fr', hexec fr' fun v hv t ht => ?_, hmoved y fr' hfr'⟩⟩
  exact hfr'.other t (hreads t (Instr.mem_readTemps.mpr ⟨v, hv, ht⟩))

/-- What a phi takes in along an edge. -/
def Phi.Takes (l : Label) (fr : Frame) (p : Phi) (e : Temp × Lanes) : Prop :=
  e.1 = p.target ∧ ∃ v, p.incoming? l = some v ∧ fr.read v = .ok e.2

/-- Values that phis take in, set one after the other. -/
theorem carried_phis {l : Label} (hself : Frame.Moved E k δ mid x₀ mid) {ps : List Phi}
    {vs : List (Temp × Lanes)} (h : List.Forall₂ (Phi.Takes l mid) ps vs) :
    ∀ {δ₁ : Gains} {fr : Frame},
      (∀ p ∈ ps, ∀ v, p.incoming? l = some v →
        (p.target ∈ E → ∃ e ∈ E, v = .temp e ∧ (δ.lookup e).isSome) ∧
        (p.target ∉ E → StridePattern.among E v = false)) →
      Frame.Moved E k δ₁ fr x₀ fr →
      ∃ δ', (∀ p ∈ ps, p.target ∈ E → (δ'.lookup p.target).isSome) ∧
        (∀ t, (δ₁.lookup t).isSome → (δ'.lookup t).isSome) ∧
        let out := vs.foldl (fun fr e => setEntry e.1 e.2 fr) fr
        Frame.Moved E k δ' out x₀ out ∧
        ∀ y mid' fr', Frame.Moved E k δ mid y mid' → Frame.Moved E k δ₁ fr y fr' →
          ∃ vs', List.Forall₂ (Phi.Takes l mid') ps vs' ∧
            Frame.Moved E k δ' out y (vs'.foldl (fun fr e => setEntry e.1 e.2 fr) fr') := by
  induction h with
  | nil =>
    intro δ₁ fr _ hfr
    exact ⟨δ₁, fun _ => nofun, fun _ h => h, hfr, fun y mid' fr' _ hfr' => ⟨[], .nil, hfr'⟩⟩
  | @cons p e ps vs he _ ih =>
    intro δ₁ fr hps hfr
    obtain ⟨hp, hps⟩ := List.forall_mem_cons.mp hps
    obtain ⟨t, ls⟩ := e
    obtain ⟨rfl, v, hv, hread⟩ := he
    obtain ⟨hinside, houtside⟩ := hp v hv
    by_cases ht : p.target ∈ E
    · -- a phi of the recurrence has gained what it takes in has gained
      obtain ⟨u, hu, rfl, hknown⟩ := hinside ht
      obtain ⟨ds, hds⟩ := Option.isSome_iff_exists.mp hknown
      have hreads : ∀ y mid', Frame.Moved E k δ mid y mid' →
          mid'.read (.temp u) = .ok (ds.map fun d => .int (k.combine y d)) := by
        intro y mid' hmid'
        simp only [Frame.read, hmid'.element u hu ds hds]
      obtain rfl := Except.ok.inj ((hreads x₀ mid hself).symm.trans hread)
      have hset : Frame.Moved E k (setEntry p.target ds δ₁) (setEntry p.target _ fr) x₀ _ :=
        hfr.setEntry_element ht (ds.map fun d => .int (k.combine x₀ d))
      obtain ⟨δ', htargets, hkeeps, hmoved, hothers⟩ := ih hps hset
      refine ⟨δ', List.forall_mem_cons.mpr ⟨fun _ => hkeeps _ ?_, htargets⟩,
        fun t h => hkeeps t (isSome_lookup_setEntry h _ ds), hmoved,
        fun y mid' fr' hmid' hfr' => ?_⟩
      · rw [lookup_setEntry_self]
        rfl
      · obtain ⟨vs', hvs', hmoved'⟩ := hothers y mid' _ hmid' (hfr'.setEntry_element ht _)
        exact ⟨(p.target, _) :: vs', .cons ⟨rfl, _, hv, hreads y mid' hmid'⟩ hvs', hmoved'⟩
    · obtain ⟨δ', htargets, hkeeps, hmoved, hothers⟩ := ih hps (hfr.setEntry_other ht ls)
      refine ⟨δ', List.forall_mem_cons.mpr ⟨fun h => absurd h ht, htargets⟩, hkeeps, hmoved,
        fun y mid' fr' hmid' hfr' => ?_⟩
      obtain ⟨vs', hvs', hmoved'⟩ := hothers y mid' _ hmid' (hfr'.setEntry_other ht ls)
      have hread' : mid'.read v = .ok ls :=
        (Frame.read_congr (hmid'.lookup_eq (houtside ht))).trans hread
      exact ⟨(p.target, ls) :: vs', .cons ⟨rfl, v, hv, hread'⟩ hvs', hmoved'⟩

end Carried

end LoopLanes
