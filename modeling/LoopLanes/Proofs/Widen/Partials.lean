/-
Partial results of a reduction.

A reduction takes in one contribution per iteration.  Split over lanes, its header phi starts from
the initial value in the first lane and from the identity in the others, lane `i` takes in the
contributions `i`, `width + i`, `2 * width + i` and so on, and a fold behind the loop combines the
lanes.  Contributions and gains are the same thing seen from two sides: each contribution combines
the accumulator with a gain that does not depend on it (`Contribution.exists_gain`), so both ways of
taking them in come down to one total (`total_lanes`).

* `reduce_seeded` — seeding, taking in by lanes and folding give what one accumulator gives.
-/
import LoopLanes.Proofs.Recurrence.Gains
import LoopLanes.Widen.Lanes

namespace LoopLanes

/-! ### Totals -/

namespace RedKind

variable {k : RedKind}

theorem combine_comm (h : k.isSupported = true) (x y : Int32) : k.combine x y = k.combine y x := by
  cases k with
  | add => exact Int32.add_comm x y
  | mul => exact Int32.mul_comm x y
  | and => exact Int32.and_comm x y
  | or => exact Int32.or_comm x y
  | xor => exact Int32.xor_comm x y
  | bot | top => cases h

theorem neutral_combine (h : k.isSupported = true) (x : Int32) : k.combine k.neutral x = x := by
  rw [combine_comm h, combine_neutral]

theorem identity?_of_isSupported (h : k.isSupported = true) :
    k.identity? .i32 = some (.int k.neutral) := by
  cases k <;> first | rfl | cases h

/-- The first `n` gains, combined. -/
def total (k : RedKind) (d : Nat → Int32) (n : Nat) : Int32 :=
  (List.range n).foldl (fun x j => k.combine x (d j)) k.neutral

theorem total_succ (k : RedKind) (d : Nat → Int32) (n : Nat) :
    k.total d (n + 1) = k.combine (k.total d n) (d n) := by
  rw [total, List.range_succ, List.foldl_append]
  rfl

theorem total_one (h : k.isSupported = true) (d : Nat → Int32) : k.total d 1 = d 0 :=
  neutral_combine h (d 0)

theorem total_neutral (k : RedKind) : ∀ n, k.total (fun _ => k.neutral) n = k.neutral := by
  intro n
  induction n with
  | zero => rfl
  | succ n ih => rw [total_succ, ih, combine_neutral]

/-- Gains one behind the other. -/
theorem total_append (k : RedKind) (d : Nat → Int32) (m n : Nat) :
    k.total d (m + n) = k.combine (k.total d m) (k.total (fun j => d (m + j)) n) := by
  induction n with
  | zero => exact (combine_neutral k _).symm
  | succ n ih => rw [← Nat.add_assoc, total_succ, ih, total_succ, combine_assoc]

/-- Gains side by side. -/
theorem total_combine (h : k.isSupported = true) (d e : Nat → Int32) (n : Nat) :
    k.total (fun j => k.combine (d j) (e j)) n = k.combine (k.total d n) (k.total e n) := by
  induction n with
  | zero => exact (combine_neutral k k.neutral).symm
  | succ n ih =>
    rw [total_succ, total_succ, total_succ, ih]
    calc k.combine (k.combine (k.total d n) (k.total e n)) (k.combine (d n) (e n))
        = k.combine (k.total d n) (k.combine (k.combine (k.total e n) (d n)) (e n)) := by
          simp only [combine_assoc]
      _ = k.combine (k.total d n) (k.combine (k.combine (d n) (k.total e n)) (e n)) := by
          rw [combine_comm h (d n)]
      _ = k.combine (k.combine (k.total d n) (d n)) (k.combine (k.total e n) (e n)) := by
          simp only [combine_assoc]

/-- Gains dealt out to lanes in turn, totalled lane by lane. -/
theorem total_lanes (h : k.isSupported = true) (d : Nat → Int32) (width n : Nat) :
    k.total (fun i => k.total (fun j => d (j * width + i)) n) width = k.total d (n * width) := by
  induction n with
  | zero => exact (total_neutral k width).trans (by rw [Nat.zero_mul]; rfl)
  | succ n ih =>
    rw [Nat.succ_mul, total_append, ← ih, ← total_combine h]
    simp only [total_succ]

/-- The lanes that partial results start from are worth the initial value. -/
theorem total_seed (h : k.isSupported = true) (x : Int32) :
    ∀ n, k.total (fun i => if i = 0 then x else k.neutral) (n + 1) = x := by
  intro n
  induction n with
  | zero => exact total_one h _
  | succ n ih => rw [total_succ, ih, if_neg n.succ_ne_zero, combine_neutral]

end RedKind

/-! ### Contributions -/

/-- What an iteration does to the accumulator of a reduction. -/
inductive Contribution
  /-- an operator with the accumulator on its left -/
  | after (op : ArithOp) (v : Int32)
  /-- an operator with the accumulator on its right -/
  | before (op : ArithOp) (v : Int32)
  /-- nothing -/
  | skip
  deriving DecidableEq

namespace Contribution

/-- Takes a contribution in. -/
def absorb (acc : Cell) : Contribution → Except RunError Cell
  | after op v => Cell.arith op acc (.int v)
  | before op v => Cell.arith op (.int v) acc
  | skip => .ok acc

/-- Whether a reduction of a kind may have such a contribution: its operator, and for sums also a
difference of the accumulator. -/
def Feeds (k : RedKind) : Contribution → Prop
  | after op _ => k.arithOp? .i32 = some op ∨ k = .add ∧ op = .sub
  | before op _ => k.arithOp? .i32 = some op
  | skip => True

instance (k : RedKind) : DecidablePred (Feeds k)
  | after .. => inferInstanceAs (Decidable (_ ∨ _))
  | before .. => inferInstanceAs (Decidable (_ = _))
  | skip => isTrue trivial

/-- Takes the first `n` contributions in, one after the other. -/
def absorbAll (c : Nat → Contribution) (n : Nat) (acc : Cell) : Except RunError Cell :=
  (List.range n).foldlM (fun acc j => (c j).absorb acc) acc

/-- Takes `n` rounds of contributions in, in each round one per lane. -/
def absorbLanes (width : Nat) (c : Nat → Contribution) (n : Nat) (lanes : Lanes) :
    Except RunError Lanes :=
  lanes.zipIdx.mapM fun (acc, i) => absorbAll (fun j => c (j * width + i)) n acc

variable {k : RedKind} {c : Nat → Contribution} {d : Nat → Int32} {n : Nat}

/-- A contribution gains the same for every accumulator. -/
theorem exists_gain {a : Contribution} (hk : k.isSupported = true) (h : a.Feeds k) :
    ∃ d, ∀ x, a.absorb (.int x) = .ok (.int (k.combine x d)) := by
  match a with
  | after op v =>
    rcases h with h | ⟨rfl, rfl⟩
    · exact ⟨v, fun x => RedKind.arith_combine h x v⟩
    · refine ⟨-v, fun x => ?_⟩
      show Except.ok (Cell.int (x - v)) = Except.ok (Cell.int (x + -v))
      rw [Int32.sub_eq_add_neg]
  | before op v =>
    refine ⟨v, fun x => ?_⟩
    rw [RedKind.combine_comm hk]
    exact RedKind.arith_combine h v x
  | skip =>
    refine ⟨k.neutral, fun x => ?_⟩
    rw [RedKind.combine_neutral]
    rfl

/-- Gains of all contributions that are taken in. -/
theorem exists_gains (hk : k.isSupported = true) (h : ∀ j < n, (c j).Feeds k) :
    ∃ d : Nat → Int32, ∀ j < n, ∀ x, (c j).absorb (.int x) = .ok (.int (k.combine x (d j))) := by
  have hgain : ∀ j, ∃ d, j < n → ∀ x, (c j).absorb (.int x) = .ok (.int (k.combine x d)) := by
    intro j
    by_cases hj : j < n
    · obtain ⟨d, hd⟩ := exists_gain hk (h j hj)
      exact ⟨d, fun _ => hd⟩
    · exact ⟨0, fun hlt => absurd hlt hj⟩
  choose d hd using hgain
  exact ⟨d, hd⟩

/-- Contributions taken in one after the other gain their total. -/
theorem absorbAll_eq (h : ∀ j < n, ∀ x, (c j).absorb (.int x) = .ok (.int (k.combine x (d j))))
    (x : Int32) : absorbAll c n (.int x) = .ok (.int (k.combine x (k.total d n))) := by
  induction n with
  | zero =>
    show Except.ok (Cell.int x) = _
    rw [show k.total d 0 = k.neutral from rfl, RedKind.combine_neutral]
  | succ n ih =>
    have hfirst := ih fun j hj => h j (Nat.lt_succ_of_lt hj)
    rw [absorbAll, List.range_succ, List.foldlM_append, RedKind.total_succ, ← RedKind.combine_assoc]
    exact bind_eq_ok.mpr ⟨_, hfirst, bind_eq_ok.mpr ⟨_, h n (Nat.lt_succ_self n) _, rfl⟩⟩

/-- Contributions taken in by lanes. -/
theorem absorbLanes_eq {width : Nat}
    (h : ∀ j < n * width, ∀ x, (c j).absorb (.int x) = .ok (.int (k.combine x (d j))))
    (start : Nat → Int32) :
    absorbLanes width c n ((List.range width).map fun i => .int (start i)) =
      .ok ((List.range width).map fun i =>
        .int (k.combine (start i) (k.total (fun j => d (j * width + i)) n))) := by
  refine mapM_eq_ok.mpr (List.forall₂_iff_get.mpr ⟨by simp, fun i hi _ => ?_⟩)
  have hwidth : i < width := by simpa using hi
  simp only [List.get_eq_getElem, List.getElem_zipIdx, List.getElem_map, List.getElem_range,
    Nat.zero_add]
  refine absorbAll_eq (fun j hj => h (j * width + i) ?_) (start i)
  calc j * width + i < j * width + width := Nat.add_lt_add_left hwidth _
    _ = (j + 1) * width := (Nat.succ_mul j width).symm
    _ ≤ n * width := Nat.mul_le_mul_right width hj

end Contribution

/-! ### Seeding and folding -/

section Machine

variable {k : RedKind} {op : ArithOp} {fr : Frame} {t : Temp} {width : Nat} {s : Nat → Int32}

theorem Frame.lane_of_map (h : fr.lookup t = some ((List.range width).map fun i => .int (s i)))
    {i : Nat} (hi : i < width) : fr.lane (.temp t) i = .ok (.int (s i)) := by
  match width with
  | 1 =>
    obtain rfl : i = 0 := by omega
    exact lane_of_lookup h 0
  | width + 2 =>
    have hget : ((List.range (width + 2)).map fun i => Cell.int (s i))[i]? = some (.int (s i)) := by
      rw [List.getElem?_map, List.getElem?_range hi]
      rfl
    rw [List.range_succ_eq_map, List.range_succ_eq_map] at h hget
    simp only [List.map_cons] at h hget
    simp only [lane, h, hget]

/-- Folding combines all lanes. -/
theorem foldLanes_eq (hk : k.isSupported = true) (hop : k.arithOp? .i32 = some op)
    (h : fr.lookup t = some ((List.range width).map fun i => .int (s i))) (hpos : 1 ≤ width) :
    Instr.foldLanes fr op (.temp t) width = .ok (.int (k.total s width)) := by
  have hfold : ∀ n, n + 1 ≤ width → (List.range' 1 n).foldlM
      (fun acc lane => do Cell.arith op acc (← fr.lane (.temp t) lane)) (Cell.int (s 0)) =
        .ok (.int (k.total s (n + 1))) := by
    intro n
    induction n with
    | zero =>
      intro _
      rw [RedKind.total_one hk]
      rfl
    | succ n ih =>
      intro hn
      rw [List.range'_concat, List.foldlM_append, RedKind.total_succ]
      have hlane : fr.lane (.temp t) (1 + 1 * n) = .ok (.int (s (n + 1))) := by
        rw [Nat.one_mul, Nat.add_comm 1 n]
        exact Frame.lane_of_map h (by omega)
      exact bind_eq_ok.mpr ⟨_, ih (by omega),
        bind_eq_ok.mpr ⟨_, bind_eq_ok.mpr ⟨_, hlane, RedKind.arith_combine hop _ _⟩, rfl⟩⟩
  refine bind_eq_ok.mpr ⟨_, Frame.lane_of_map h hpos, ?_⟩
  have hlast := hfold (width - 1) (by omega)
  rwa [Nat.sub_add_cancel hpos] at hlast

/-- The lanes that partial results start from. -/
theorem mapM_seed {init : Value} {x e : Int32} (h : fr.readUniform init = .ok (.int x))
    (hpos : 1 ≤ width) : (FoldSite.seed width init (.int e)).mapM fr.readUniform =
      .ok ((List.range width).map fun i => .int (if i = 0 then x else e)) := by
  obtain ⟨n, rfl⟩ := Nat.exists_eq_add_of_le' hpos
  have hseed : FoldSite.seed (n + 1) init (.int e) = init :: List.replicate n (.int e) := by
    simp [FoldSite.seed]
  have hrest : (List.replicate n (Value.int e)).mapM fr.readUniform =
      .ok (List.replicate n (.int e)) := by
    refine mapM_eq_ok.mpr (List.forall₂_iff_get.mpr ⟨by simp, fun i hi _ => ?_⟩)
    simp [Frame.readUniform, Frame.read, Lanes.uniform, Cell.same, bind, Except.bind]
  have hlanes : ((List.range (n + 1)).map fun i => Cell.int (if i = 0 then x else e)) =
      .int x :: List.replicate n (.int e) := by
    rw [List.range_succ_eq_map, List.map_cons, List.map_map, if_pos rfl]
    exact congrArg _ (List.eq_replicate_iff.mpr ⟨by simp, by simp⟩)
  rw [hseed, hlanes, List.mapM_cons]
  exact bind_eq_ok.mpr ⟨_, h, bind_eq_ok.mpr ⟨_, hrest, rfl⟩⟩

end Machine

/-! ### Reductions split over lanes -/

namespace FoldSite

/-- What an accumulator makes of `n` rounds of contributions that it takes in one after the other,
an instruction that seeds lanes, these lanes and an instruction that folds them make of the same. -/
def Agrees (site : FoldSite) (phi : Temp) (init : Value) (seeding folding : Instr)
    (c : Nat → Contribution) (n : Nat) (x : Int32) : Prop :=
  ∃ r, Contribution.absorbAll c (n * site.width) (.int x) = .ok r ∧
    ∀ call m fr, fr.readUniform init = .ok (.int x) → ∃ start last,
      Gives (Instr.lanes call fr seeding) m start m ∧
      Contribution.absorbLanes site.width c n start = .ok last ∧
      ∀ m' fr', fr'.lookup phi = some last → Gives (Instr.lanes call fr' folding) m' [r] m'

variable {k : RedKind} {op : ArithOp} {site : FoldSite} {phi : Temp} {init : Value}
  {c : Nat → Contribution} {n : Nat}

theorem agrees (hk : k.isSupported = true) (hop : k.arithOp? .i32 = some op) (hpos : 1 ≤ site.width)
    (hc : ∀ j < n * site.width, (c j).Feeds k) (t result : Temp) (x : Int32) :
    site.Agrees phi init (.buildVec t .i32 (seed site.width init (.int k.neutral)))
      (.reduce result op .i32 (.temp phi) site.width) c n x := by
  obtain ⟨d, hd⟩ := Contribution.exists_gains hk hc
  let start : Nat → Int32 := fun i => if i = 0 then x else k.neutral
  let last : Nat → Int32 := fun i => k.combine (start i) (k.total (fun j => d (j * site.width + i)) n)
  refine ⟨_, Contribution.absorbAll_eq hd x, fun call m fr hx =>
    ⟨(List.range site.width).map fun i => .int (start i),
      (List.range site.width).map fun i => .int (last i), ?_, ?_, fun m' fr' hphi => ?_⟩⟩
  · exact gives_mk_pure.mpr ⟨mapM_seed hx hpos, rfl⟩
  · exact Contribution.absorbLanes_eq hd start
  · -- the initial value is in one lane, the gains are spread over all of them
    have htotal : k.total last site.width = k.combine x (k.total d (n * site.width)) := by
      rw [RedKind.total_combine hk, RedKind.total_lanes hk]
      obtain ⟨w, hw⟩ := Nat.exists_eq_add_of_le' hpos
      rw [hw, RedKind.total_seed hk]
    have hfold := foldLanes_eq hk hop hphi hpos
    rw [htotal] at hfold
    exact gives_bind.mpr ⟨_, _, gives_mk_pure.mpr ⟨hfold, rfl⟩, gives_pure.mpr ⟨rfl, rfl⟩⟩

/-- Keeping the partial results of a header phi in lanes changes nothing: the block in front of the
loop seeds the lanes, with the initial value in the first and the identity in the others, the phi
starts from them, and what is folded behind the loop is what the phi would have come to, however many
rounds there are. -/
theorem reduce_seeded (hk : k.isSupported = true) (hpos : 1 ≤ site.width) (s : FoldState)
    (hty : phi.ty = .i32) {b : Block} {p : Phi} (hb : s.func.linked? site.header = some b)
    (hp : b.phis.find? (·.target == phi) = some p)
    (hinit : p.incoming? site.entering.label = some init) :
    ∃ identity op t result s', k.identity? .i32 = some identity ∧ k.arithOp? .i32 = some op ∧
      site.add s phi k = .ok s' ∧
      let seeding : Instr := .buildVec t .i32 (seed site.width init identity)
      let folding : Instr := .reduce result op .i32 (.temp phi) site.width
      s'.func = (s.func.modify site.entering fun b => { b with instrs := b.instrs ++ [seeding] }).modify
        site.header (fun b => { b with phis := Phi.setIn phi site.entering.label (.temp t) b.phis }) ∧
      s'.folds = s.folds ++ [folding] ∧
      ∀ c n, (∀ j < n * site.width, (c j).Feeds k) →
        ∀ x, site.Agrees phi init seeding folding c n x := by
  obtain ⟨op, hop⟩ := RedKind.arithOp?_of_isSupported hk
  have hid := RedKind.identity?_of_isSupported hk
  unfold add
  simp only [hty, hid, hop, hb, hp, hinit, Option.bind_some, Option.getD_some]
  exact ⟨.int k.neutral, op, _, _, _, rfl, rfl, rfl, rfl, rfl,
    fun c n hc x => agrees hk hop hpos hc _ _ x⟩

/-- A loop head that sums up from a parameter, entered from one block. -/
def summing : Func :=
  let acc : Temp := .ofLocal "acc" .i32
  { total := 1
    name := "summing"
    retTy := .i32
    params := [.ofLocal "first" .i32]
    blocks := [
      { Block.ofId 0 with succ := [.last 1], jump := some (.jump (.ofBlock 1)) },
      { Block.ofId 1 with
        prev := [.last 0]
        phis := [.ofTarget acc [(.temp (.ofLocal "first" .i32), .ofBlock 0)]] }] }

/-- Contributions of every sort to a sum that wraps. -/
def mixed (j : Nat) : Contribution :=
  match j % 4 with
  | 0 => .after .add 2147483647
  | 1 => .after .sub 3
  | 2 => .before .add 5
  | _ => .skip

/-- Four rounds over three lanes. -/
theorem reduce_seeded_mixed : RedKind.add.isSupported = true ∧ (∀ j < 4 * 3, (mixed j).Feeds .add) ∧
    ∃ t result s', add ⟨.last 1, .last 0, 3⟩ ⟨summing, 0, [], []⟩ (.ofLocal "acc" .i32) .add = .ok s' ∧
      s'.folds = [.reduce result .add .i32 (.temp (.ofLocal "acc" .i32)) 3] ∧
      Agrees ⟨.last 1, .last 0, 3⟩ (.ofLocal "acc" .i32) (.temp (.ofLocal "first" .i32))
        (.buildVec t .i32 [.temp (.ofLocal "first" .i32), .int 0, .int 0])
        (.reduce result .add .i32 (.temp (.ofLocal "acc" .i32)) 3) mixed 4 7 := by
  have hc : ∀ j < 4 * 3, (mixed j).Feeds .add := by decide
  obtain ⟨_, _, t, result, s', hid, hop, hadd, -, hfolds, hagrees⟩ :=
    @reduce_seeded .add ⟨.last 1, .last 0, 3⟩ (.ofLocal "acc" .i32) (.temp (.ofLocal "first" .i32))
      rfl (by decide) ⟨summing, 0, [], []⟩ rfl _ _ rfl rfl rfl
  obtain rfl := Option.some.inj hid
  obtain rfl := Option.some.inj hop
  exact ⟨rfl, hc, t, result, s', hadd, hfolds, hagrees mixed 4 hc 7⟩

end FoldSite

end LoopLanes
