/-
How often a loop goes back.

Where start and bound of an induction are constants, the number of jumps back to the header is that of the
leading members of an integer sequence that pass the test.  It is the number of the jumps that an execution
makes, as long as the variable does not wrap around, if every round comes through the exiting block.

* `runLength_eq_of_words` — the length of a run is the place of the first word that fails the test;
* `Induction.TestsEveryRound.onWords_of_back` — a round that goes back has passed the test;
* **`Induction.backedges_eq`** — so an execution that leaves the loop went back as often as was counted;
* **`Induction.backedges_skipping`** — but rounds that come around the exiting block are not counted.
-/
import LoopLanes.Proofs.Loop.Inductions
import LoopLanes.Proofs.Split.InPlace

namespace LoopLanes

/-! ### Runs of words -/

section Words

variable {op : CompOp} {a b n step y : Int} {e : Int32} {k : Nat}

/-- A run has a length where the sequence goes towards the bound, or meets it, or fails the test from the
beginning. -/
theorem runLength_cases (h : runLength a b step op = some n) (ha : 2 * i32Min ≤ a ∧ a ≤ 2 * i32Max)
    (hb : i32Min ≤ b ∧ b ≤ i32Max) :
    op.Monotone step ∨ op = .ne ∧ b = a + n * step ∨ op ≠ .ne ∧ n = 0 ∧ ¬ op.OnInts a b := by
  cases op
  case ne =>
    have hwrap : wrapI64 (b - a) = b - a := by
      refine wrapI64_of_mem ?_ ?_ <;> simp only [i32Min, i32Max, i64Min, i64Max] at * <;> omega
    simp only [runLength, hwrap] at h
    split at h
    · cases h
    · rename_i hdist
      obtain rfl := Option.some.inj h
      have := Int.mul_tdiv_add_tmod (b - a) step
      have hmul : (b - a).tdiv step * step = step * (b - a).tdiv step := Int.mul_comm ..
      exact .inr (.inl ⟨rfl, by omega⟩)
  -- towards the other side, only a start behind the bound gives a length
  case slt | sle =>
    by_cases hstep : 0 < step
    · exact .inl hstep
    · simp only [runLength, if_neg hstep] at h
      split at h
      · cases h
      · exact .inr (.inr ⟨by decide, (Option.some.inj h).symm, ‹_›⟩)
  case sgt | sge =>
    by_cases hstep : step < 0
    · exact .inl hstep
    · simp only [runLength, if_neg hstep] at h
      split at h
      · cases h
      · exact .inr (.inr ⟨by decide, (Option.some.inj h).symm, ‹_›⟩)
  all_goals cases h

/-- The length of a run is the place of the first member of the sequence that fails the test. -/
theorem runLength_eq (h : runLength a b step op = some n) (hstep : i32Min ≤ step) (hne : step ≠ 0)
    (ha : 2 * i32Min ≤ a ∧ a ≤ 2 * i32Max) (hb : i32Min ≤ b ∧ b ≤ i32Max)
    (hall : ∀ j < k, op.HoldsOf (a + j * step) b) (hlast : ¬ op.HoldsOf (a + k * step) b) : (k : Int) = n := by
  have hnonneg := runLength_nonneg h
  rcases runLength_cases h ha hb with hop | ⟨rfl, hmeets⟩ | ⟨hop, rfl, hfails⟩
  · have hiff : ∀ j : Nat, op.HoldsOf (a + j * step) b ↔ (j : Int) < n := fun j => by
      rw [← runLength_iff_of_near hop ha hb (by simp only [i32Min] at hstep; omega) h (Int.natCast_nonneg j)]
      refine or_iff_left fun h => ?_
      obtain ⟨rfl, -⟩ := h
      exact hop.elim
    have hle := (hiff k).not.mp hlast
    cases k with
    | zero => omega
    | succ k =>
      have := (hiff k).mp (hall k (Nat.lt_succ_self k))
      omega
  · -- the sequence meets the bound once
    have hmet : a + k * step = b := by
      by_contra hno
      exact hlast (.inr ⟨rfl, hno⟩)
    have hzero : ((k : Int) - n) * step = 0 := by
      rw [Int.sub_mul]
      omega
    rcases Int.mul_eq_zero.mp hzero with hk | hk
    · omega
    · exact absurd hk hne
  · cases k with
    | zero => rfl
    | succ k =>
      have hfirst := hall 0 (Nat.succ_pos k)
      rw [Int.natCast_zero, Int.zero_mul, Int.add_zero] at hfirst
      exact absurd (hfirst.resolve_right fun h => hop h.1) hfails

theorem CompOp.onWords_iff_holdsOf {x : Int32} (h : runLength a b step op = some n) :
    op.onWords x e = true ↔ op.HoldsOf x.toInt e.toInt := by
  cases op
  case ne => simp [HoldsOf, OnInts, Int32.toInt_inj]
  case slt | sle | sgt | sge => simp [HoldsOf, OnInts, Int32.lt_iff_toInt_lt, Int32.le_iff_toInt_le]
  all_goals cases h

/-- A step that leaves the words leaves the bound behind. -/
theorem not_holdsOf_of_overflow (h : runLength a e.toInt step op = some n)
    (ha : 2 * i32Min ≤ a ∧ a ≤ 2 * i32Max) (hall : ∀ j < k, op.HoldsOf (a + j * step) e.toInt)
    (hbefore : i32Min ≤ a + k * step - step ∧ a + k * step - step ≤ i32Max)
    (hover : ¬ (i32Min ≤ a + k * step ∧ a + k * step ≤ i32Max)) : ¬ op.HoldsOf (a + k * step) e.toInt := by
  have he := toInt_mem e
  rcases runLength_cases h ha he with hop | ⟨rfl, hmeets⟩ | ⟨hop, rfl, hfails⟩
  · cases op <;> simp only [CompOp.Monotone] at hop <;> simp [CompOp.HoldsOf, CompOp.OnInts] <;> omega
  · -- the bound was met before
    have hnonneg := runLength_nonneg h
    have hlt : n < k := by
      by_contra hle
      rcases Int.lt_or_le step 0 with hneg | hpos
      · have : n * step ≤ k * step := by nlinarith
        omega
      · have : (k : Int) * step ≤ n * step := by nlinarith
        omega
    have hmet := hall n.toNat (by omega)
    rw [Int.toNat_of_nonneg hnonneg, ← hmeets] at hmet
    exact absurd hmet (by simp [CompOp.HoldsOf, CompOp.OnInts])
  · have hfirst : ¬ op.HoldsOf (a + (0 : Nat) * step) e.toInt := by
      simpa [CompOp.HoldsOf, hop] using hfails
    cases k with
    | zero => exact hfirst
    | succ k => exact absurd (hall 0 (Nat.succ_pos k)) hfirst

/-- The length of a run is the place of the first word that fails the test, where the words before are the
members of the sequence. -/
theorem runLength_eq_of_words (h : runLength a e.toInt step op = some n)
    (hstep : i32Min ≤ step ∧ step ≤ i32Max) (hne : step ≠ 0)
    (hfit : ∀ j < k, i32Min ≤ a + j * step ∧ a + j * step ≤ i32Max)
    (hend : (i32Min ≤ a + k * step ∧ a + k * step ≤ i32Max) ∨
      (i32Min ≤ a + k * step - step ∧ a + k * step - step ≤ i32Max))
    (hall : ∀ j < k, op.onWords (.ofInt (a + j * step)) e = true)
    (hlast : op.onWords (.ofInt (a + k * step)) e = false) : (k : Int) = n := by
  have hword : ∀ j : Nat, i32Min ≤ a + j * step ∧ a + j * step ≤ i32Max →
      (op.onWords (.ofInt (a + j * step)) e = true ↔ op.HoldsOf (a + j * step) e.toInt) := fun j hj => by
    rw [CompOp.onWords_iff_holdsOf h, toInt_ofInt hj.1 hj.2]
  have hall : ∀ j < k, op.HoldsOf (a + j * step) e.toInt := fun j hj => (hword j (hfit j hj)).mp (hall j hj)
  have ha : 2 * i32Min ≤ a ∧ a ≤ 2 * i32Max := by
    have hfirst : (i32Min ≤ a ∧ a ≤ i32Max) ∨ (i32Min ≤ a - step ∧ a - step ≤ i32Max) := by
      cases k with
      | zero => simpa using hend
      | succ k => exact .inl (by simpa using hfit 0 (Nat.succ_pos k))
    simp only [i32Min, i32Max] at *
    omega
  refine runLength_eq h hstep.1 hne ha (toInt_mem e) hall ?_
  by_cases hk : i32Min ≤ a + k * step ∧ a + k * step ≤ i32Max
  · exact fun hholds => Bool.false_ne_true (hlast.symm.trans ((hword k hk).mpr hholds))
  · exact not_holdsOf_of_overflow h ha hall (hend.resolve_left hk) hk

/-- Between two words the sequence stays in the words. -/
theorem mem_of_le {s : Int32} {m : Nat} (hm : m ≤ k)
    (hfit : i32Min ≤ s.toInt + k * step ∧ s.toInt + k * step ≤ i32Max) :
    i32Min ≤ s.toInt + m * step ∧ s.toInt + m * step ≤ i32Max := by
  have hs := toInt_mem s
  have hm : (m : Int) ≤ k := Int.ofNat_le.mpr hm
  rcases Int.le_total 0 step with hpos | hneg
  · have h₁ : (m : Int) * step ≤ k * step := by nlinarith
    have h₂ : 0 ≤ (m : Int) * step := by positivity
    omega
  · have h₁ : (k : Int) * step ≤ m * step := by nlinarith
    have h₂ : (m : Int) * step ≤ 0 := by nlinarith
    omega

end Words

/-! ### Rounds of an execution -/

namespace Induction

variable {i : Induction} {f : Func} {l : Loop} {header b e : Block} {p : Phi} {r q : BlockRef}
  {start top fr : Frame} {xs : List Instr} {k : Nat} {s bound : Int32} {n : Int}

theorem step_mem (h : i.Found f f.forest l) : (i32Min ≤ i.step ∧ i.step ≤ i32Max) ∧ i.step ≠ 0 := by
  obtain ⟨d, -, op, ty, lhs, rhs, -, hadd, hne⟩ := step?_eq_some h.step
  refine ⟨?_, hne⟩
  have hint : ∀ {v : Value} {c : Int}, v.int? = some c → i32Min ≤ c ∧ c ≤ i32Max := by
    intro v c hv
    obtain ⟨x, -, rfl⟩ := Value.eq_int_of_int? hv
    exact toInt_mem x
  unfold addend? at hadd
  split at hadd
  · split at hadd
    · exact hint hadd
    · split at hadd
      · exact hint hadd
      · cases hadd
  · split at hadd
    · obtain ⟨c, -, hfit⟩ := Option.bind_eq_some_iff.mp hadd
      obtain ⟨e, hlo, hhi⟩ := fitI32?_eq_some hfit
      exact e ▸ ⟨hlo, hhi⟩
    · cases hadd
  · cases hadd

/-- The first member of the sequence that is tested. -/
def firstTested (i : Induction) (s : Int32) : Int := if i.onNext then s.toInt + i.step else s.toInt

/-- The word that is tested after `k` jumps back. -/
def testedWord (i : Induction) (s : Int32) (k : Nat) : Int32 := .ofInt (i.firstTested s + k * i.step)

/-- The header dominates the exiting block: this is the latch, or it tests the variable. -/
theorem Found.dominates_exiting (h : i.Found f f.forest l) (hl : l.Headed f header)
    (hlocal : i.exiting = i.latch ∨ i.indvar.isGlobal = false) (he : e ∈ f.blocks) (hid : e.id = i.exiting)
    (hreached : f.Reached e) : (f.flow false).Dominates header.id e.id := by
  by_cases hexit : i.exiting = i.latch
  · obtain ⟨q, hq, hqn⟩ := h.latch
    obtain ⟨b, -, href, -, hdom⟩ := hl.exists_latch hq
    have hbe : b.id = e.id := by rw [Block.id, href, hqn, ← hexit, hid]
    exact hbe ▸ hdom
  · obtain ⟨c, hc, hcid, op, ty, lhs, rhs, _, _, _, _, hx, -, -, hturned⟩ := h.test
    obtain rfl := Func.eq_of_id_eq hl.linked.nodup (Loop.mem_blocks.mp (List.mem_of_mem_filter hc)).1 he
      (hcid.trans hid.symm)
    have hread : i.indvar ∈ (Instr.comp i.cond .icmp op ty lhs rhs).readTemps := by
      rw [← h.tested hexit]
      rcases hturned with ⟨rfl, -, -⟩ | ⟨rfl, -, -⟩ <;> simp [Instr.readTemps, Instr.reads, Value.temp?]
    obtain ⟨pos, hpos⟩ := List.getElem?_of_mem hx
    obtain ⟨-, -, header', p, hheader, hp, hpt, -⟩ := h.entering
    obtain rfl := Option.some.inj (hheader.symm.trans hl.header)
    exact (Func.definedAt_of_reads hl.formed he hreached hpos hread (hlocal.resolve_left hexit)).dominates hl.verified
      he hreached hl.mem_func (List.mem_append_left _ (hpt ▸ List.mem_map_of_mem hp))

namespace Governs

/-- The next value is tested in the latch only. -/
theorem exiting_eq_latch (h : i.Governs f l header p r q) (hnext : i.onNext = true) : i.exiting = i.latch := by
  by_contra hne
  have htested := h.found.tested hne
  obtain ⟨d, hd, x, hx, hw, -⟩ := h.exists_adds
  -- otherwise it would be the phi, which no instruction writes
  refine Func.phi_notMem_instrs h.headed.verified h.headed.mem_func h.phi hd (List.mem_filterMap.mpr ⟨x, hx, ?_⟩)
  rw [hw, h.target, ← htested, tested, if_pos hnext]

theorem ref_eq_of_latch (h : i.Governs f l header p r q) (hb : b ∈ f.blocks) (hid : b.id = i.latch) : b.ref = q := by
  obtain ⟨q', hq', hnumber⟩ := h.found.latch
  obtain rfl := Option.some.inj (hq'.symm.trans h.latch)
  obtain ⟨c, hc, rfl, -⟩ := h.headed.exists_latch h.latch
  rw [Func.eq_of_id_eq h.headed.linked.nodup hb hc (hid.trans hnumber.symm)]

/-- What is tested at the end of the exiting block, after `k` jumps back. -/
theorem lookup_tested (h : i.Governs f l header p r q) (hstart : i.start = .int s)
    (hexec : f.Execution f.forest l header r start k top) (hiter : f.Iteration f.forest l header top b [] fr)
    (hid : b.id = i.exiting) : fr.lookup i.tested = some [.int (i.testedWord s k)] := by
  have hl := h.headed
  obtain ⟨ls, hread, hvalue⟩ := h.lookup_indvar hexec
  rw [hstart] at hread
  obtain rfl := Except.ok.inj hread
  by_cases hnext : i.onNext = true
  · have htested : i.tested = i.next := by simp [tested, hnext]
    have hsum : i.firstTested s + k * i.step = s.toInt + (k * i.step + i.step) := by
      simp only [firstTested, hnext, if_true]
      ring
    rw [htested, h.lookup_next hexec hiter
      (h.ref_eq_of_latch (hiter.mem_func hl) (hid.trans (h.exiting_eq_latch hnext))), hvalue, Option.map_some,
      Lanes.plus_plus, testedWord, hsum, Int32.ofInt_add, Int32.ofInt_toInt]
    rfl
  · have htested : i.tested = p.target := by simp [tested, hnext, h.target]
    have hsum : i.firstTested s + k * i.step = s.toInt + k * i.step := by simp [firstTested, hnext]
    rw [htested, hiter.lookup_phi hl h.phi, h.target, hvalue, testedWord, hsum, Int32.ofInt_add, Int32.ofInt_toInt]
    rfl

/-- The exiting block stays in the loop while the word passes the test. -/
theorem contains_iff_onWords (h : i.Governs f l header p r q) (hstart : i.start = .int s)
    (hbound : i.bound = .int bound) (hexec : f.Execution f.forest l header r start k top)
    (hiter : f.Iteration f.forest l header top b [] fr) (hid : b.id = i.exiting)
    (hstays : ∃ s ∈ b.succ, f.forest.contains l s.number = true) {w : Leaving} (hleave : b.leave fr = .ok w) :
    ∃ j c, w = .jump j ∧ f.labelled? j = some c ∧
      (f.forest.contains l c.id = true ↔ i.op.onWords (i.testedWord s k) bound = true) := by
  obtain ⟨j, c, v, rfl, hc, ⟨hpos, hlanes⟩, hiff⟩ := h.answers_of_leave hiter hid hstays hleave
  refine ⟨j, c, rfl, hc, hiff.trans (Eq.congr_left ?_)⟩
  obtain ⟨a, e, ha, he, hv⟩ := hlanes 0 hpos
  have htested := h.lookup_tested hstart hexec hiter hid
  obtain rfl : .int (i.testedWord s k) = a := by simpa [Frame.lane, htested] using ha
  rw [hbound] at he
  obtain rfl := Except.ok.inj ((Frame.lane_of_read rfl 0).symm.trans he)
  rw [CompOp.onWords, hv]
  rfl

/-- A variable that is local is read behind the header, so the exiting block lies there. -/
theorem onEveryPath_exiting (h : i.Governs f l header p r q) (hlocal : i.indvar.isGlobal = false)
    (he : e ∈ f.blocks) (hid : e.id = i.exiting) (hreached : f.Reached e) : f.OnEveryPath header e :=
  (Func.dominates_iff_onEveryPath hreached).mp (h.found.dominates_exiting h.headed (.inr hlocal) he hid hreached)

end Governs

/-- A loop that counts between constants, and tests in every round: the exiting block is behind the header and
in front of the latch. -/
structure TestsEveryRound (i : Induction) (f : Func) (l : Loop) (header : Block) (p : Phi) (r q : BlockRef)
    (e : Block) (s bound : Int32) : Prop extends i.Governs f l header p r q where
  start_eq : i.start = .int s
  bound_eq : i.bound = .int bound
  mem : e ∈ f.blocks
  exiting : e.id = i.exiting
  stays : ∃ r ∈ e.succ, f.forest.contains l r.number = true
  behind : f.OnEveryPath header e
  inFront : ∀ c ∈ f.blocks, c.id = i.latch → f.OnEveryPath e c

namespace TestsEveryRound

/-- Until a round comes to the exiting block, it is where a path leads that goes around it; once it has left
the block, it has passed the test. -/
theorem passed_or (h : i.TestsEveryRound f l header p r q e s bound) (hreached : f.Reached e)
    (hexec : f.Execution f.forest l header r start k top) (hiter : f.Iteration f.forest l header top b xs fr) :
    i.op.onWords (i.testedWord s k) bound = true ∨ b = e ∨ ((f.flow false).without e.id).Reaches b.id := by
  have hl := h.headed
  induction hiter with
  | start =>
    refine or_iff_not_imp_left.mpr fun _ => or_iff_not_imp_left.mpr fun hne => ?_
    -- the exiting block does not dominate the header that dominates it
    by_contra hno
    have hback : (f.flow false).Dominates e.id header.id := ⟨Func.reached_iff.mp hl.header_reached, hno⟩
    have hdom := (Func.dominates_iff_onEveryPath hreached).mpr h.behind
    exact hne (Func.eq_of_id_eq hl.linked.nodup hl.mem_func h.mem (hdom.antisymm hback))
  | exec _ _ ih => exact ih
  | @jump b c fr fr' j before leaves next inside _ _ ih =>
    have hb := before.mem_func hl
    rcases ih with hpassed | rfl | hreaches
    · exact .inl hpassed
    · obtain ⟨j', c', hj, hc', hiff⟩ :=
        h.contains_iff_onWords h.start_eq h.bound_eq hexec before h.exiting h.stays leaves
      obtain rfl : j = j' := by simpa using hj
      obtain rfl := Option.some.inj (next.symm.trans hc')
      exact .inl (hiff.mp inside)
    · by_cases hc : c = e
      · exact .inr (.inl hc)
      · have hedge := edge_of_mem_succ (before.mem_succ hl leaves next) hb
        exact .inr (.inr (hreaches.step ⟨hedge, fun e =>
          hc (Func.eq_of_id_eq hl.linked.nodup (Func.labelled?_mem next).1 h.mem e)⟩))

/-- A round that goes back has passed the test. -/
theorem onWords_of_back (h : i.TestsEveryRound f l header p r q e s bound)
    (hexec : f.Execution f.forest l header r start k top) (hiter : f.Iteration f.forest l header top b [] fr)
    (leaves : b.leave fr = .ok (.jump l.header.label)) : i.op.onWords (i.testedWord s k) bound = true := by
  have hl := h.headed
  have hb := hiter.mem_func hl
  have hnext := Func.labelled?_of_linked? hl.linked.nodup hl.header
  have hid : b.id = i.latch := by
    obtain ⟨q', hq', hnumber⟩ := h.found.latch
    obtain rfl := Option.some.inj (hq'.symm.trans h.latch)
    rw [← hnumber, ← hiter.ref_eq_latch hl leaves h.latch]
    rfl
  have hdom := (Func.dominates_iff_onEveryPath (hiter.reached hl)).mpr (h.inFront b hb hid)
  rcases h.passed_or (Func.reached_iff.mpr hdom.reaches_left) hexec hiter with hpassed | rfl | hreaches
  · exact hpassed
  · obtain ⟨j, c, hj, hc, hiff⟩ := h.contains_iff_onWords h.start_eq h.bound_eq hexec hiter h.exiting h.stays leaves
    obtain rfl : l.header.label = j := by simpa using hj
    obtain rfl := Option.some.inj (hnext.symm.trans hc)
    exact hiff.mp (Loop.mem_blocks.mp hl.header_mem).2
  · exact absurd hreaches hdom.2

/-- All rounds before passed the test. -/
theorem onWords_of_execution (h : i.TestsEveryRound f l header p r q e s bound)
    (hexec : f.Execution f.forest l header r start k top) :
    ∀ j < k, i.op.onWords (i.testedWord s j) bound = true := by
  induction hexec with
  | enter => exact fun _ => nofun
  | @back k b top mid top' before round leaves enters ih =>
    intro j hj
    rcases Nat.lt_succ_iff_lt_or_eq.mp hj with hlt | rfl
    · exact ih j hlt
    · exact h.onWords_of_back before round leaves

/-- Where the test comes before the body, or behind it, what was counted are the words that pass. -/
theorem runLength_of_backedgeCount (h : i.TestsEveryRound f l header p r q e s bound)
    (hn : i.backedgeCount? = some n) : runLength (i.firstTested s) bound.toInt i.step i.op = some n := by
  obtain ⟨m, hm, rfl⟩ := Option.map_eq_some_iff.mp hn
  simp only [tripCount?, h.start_eq, h.bound_eq, Value.int?, Option.bind_eq_bind, Option.bind_some] at hm
  by_cases hheader : i.exitsInHeader = true
  · have hnext : i.onNext = false := by
      by_contra hnext
      have := h.exiting_eq_latch (by simpa using hnext)
      simp [exitsInHeader, this] at hheader
    simpa [firstTested, hheader, hnext] using hm
  · simp only [hheader, Bool.false_eq_true, if_false] at hm ⊢
    by_cases hnext : i.onNext = true
    · rw [if_pos hnext] at hm
      obtain ⟨n, hrun, hm⟩ := Option.bind_eq_some_iff.mp hm
      obtain rfl := Option.some.inj hm
      rw [firstTested, if_pos hnext, hrun, add_sub_cancel_left]
    · rw [if_neg hnext] at hm
      obtain ⟨n, hrun, hm⟩ := Option.bind_eq_some_iff.mp hm
      obtain rfl := Option.some.inj hm
      rw [firstTested, if_neg hnext, hrun, add_sub_cancel_left]

/-- An execution that leaves the loop has gone back as often as was counted. -/
theorem eq_backedgeCount (h : i.TestsEveryRound f l header p r q e s bound) (hn : i.backedgeCount? = some n)
    (hexec : f.Execution f.forest l header r start k top) (hiter : f.Iteration f.forest l header top e [] fr)
    {j : Label} {c : Block} (leaves : e.leave fr = .ok (.jump j)) (next : f.labelled? j = some c)
    (outside : f.forest.contains l c.id = false)
    (hfit : i32Min ≤ s.toInt + k * i.step ∧ s.toInt + k * i.step ≤ i32Max) : (k : Int) = n := by
  have hall := h.onWords_of_execution hexec
  have hlast : i.op.onWords (i.testedWord s k) bound = false := by
    obtain ⟨j', c', hj, hc', hiff⟩ :=
      h.contains_iff_onWords h.start_eq h.bound_eq hexec hiter h.exiting h.stays leaves
    obtain rfl : j = j' := by simpa using hj
    obtain rfl := Option.some.inj (next.symm.trans hc')
    simpa [outside] using hiff
  have hrun := h.runLength_of_backedgeCount hn
  obtain ⟨hstep, hne⟩ := step_mem h.found
  have hfits : ∀ m : Nat, m ≤ k → i32Min ≤ s.toInt + m * i.step ∧ s.toInt + m * i.step ≤ i32Max :=
    fun m hm => mem_of_le hm hfit
  by_cases hnext : i.onNext = true
  · -- what is tested is a step ahead, and may be no word any more when the loop is left
    have hfirst : ∀ j : Nat, i.firstTested s + j * i.step = s.toInt + (j + 1 : Nat) * i.step := fun j => by
      simp only [firstTested, hnext, if_true]
      push_cast
      ring
    refine runLength_eq_of_words hrun hstep hne (fun j hj => hfirst j ▸ hfits _ hj) (.inr ?_) hall hlast
    have : i.firstTested s + k * i.step - i.step = s.toInt + k * i.step := by
      rw [hfirst]
      push_cast
      ring
    exact this ▸ hfits k (Nat.le_refl k)
  · have hfirst : i.firstTested s = s.toInt := by simp [firstTested, hnext]
    rw [hfirst] at hrun
    refine runLength_eq_of_words hrun hstep hne (fun j hj => hfits j (Nat.le_of_lt hj))
      (.inl (hfits k (Nat.le_refl k))) (fun j hj => ?_) ?_
    · exact hfirst ▸ hall j hj
    · exact hfirst ▸ hlast

end TestsEveryRound

/-- An execution that leaves the loop went back as often as was counted: if every round comes through the
exiting block, which has a way that stays in the loop, and the variable did not wrap around. -/
theorem backedges_eq (hf : f.verify = .ok ()) (hl : l ∈ f.forest.loops) (hi : ofLoop? f f.forest l = some i)
    (hindvar : i.indvar.isGlobal = false) (hnext : i.next.isGlobal = false) (hn : i.backedgeCount? = some n)
    (hstays : ∀ b ∈ l.exitingBlocks f f.forest, ∃ s ∈ b.succ, f.forest.contains l s.number = true)
    (hevery : ∀ b ∈ l.exitingBlocks f f.forest, ∀ c ∈ f.blocks, c.id = i.latch → f.OnEveryPath b c)
    (hh : f.linked? l.header = some header) (hr : l.outsidePreds f f.forest = [r])
    (hexec : f.Execution f.forest l header r start k top)
    (hfit : ∀ s, i.start.int? = some s → i32Min ≤ s + k * i.step ∧ s + k * i.step ≤ i32Max)
    (hiter : f.Iteration f.forest l header top b [] fr) {j : Label} {c : Block}
    (leaves : b.leave fr = .ok (.jump j)) (next : f.labelled? j = some c)
    (outside : f.forest.contains l c.id = false) : (k : Int) = n := by
  obtain ⟨p, q, h⟩ := governs_of_ofLoop? hf hl hi hnext hh hr
  obtain ⟨e, hexiting, hid⟩ := exitingBlocks_of_ofLoop? hi
  have hb := hiter.mem_func h.headed
  -- only the exiting block leaves the loop
  have hbe : b ∈ l.exitingBlocks f f.forest := List.mem_filter.mpr ⟨(hiter.mem h.headed).1,
    List.any_eq_true.mpr ⟨c.ref, hiter.mem_succ h.headed leaves next, by simpa [Block.id] using outside⟩⟩
  obtain rfl : b = e := by simpa [hexiting] using hbe
  obtain ⟨s, bound, hstart, hbound⟩ : ∃ s bound : Int32, i.start = .int s ∧ i.bound = .int bound := by
    obtain ⟨m, hm, -⟩ := Option.map_eq_some_iff.mp hn
    simp only [tripCount?, Option.bind_eq_bind, Option.bind_eq_some_iff] at hm
    obtain ⟨_, hs, _, hb, -⟩ := hm
    obtain ⟨s, hs, -⟩ := Value.eq_int_of_int? hs
    obtain ⟨bound, hb, -⟩ := Value.eq_int_of_int? hb
    exact ⟨s, bound, hs, hb⟩
  have hrounds : i.TestsEveryRound f l header p r q b s bound :=
    { toGoverns := h, start_eq := hstart, bound_eq := hbound, mem := hb, exiting := hid, stays := hstays b hbe,
      behind := h.onEveryPath_exiting hindvar hb hid (hiter.reached h.headed), inFront := hevery b hbe }
  exact hrounds.eq_backedgeCount hn hexec hiter leaves next outside (hfit _ (by rw [hstart]; rfl))

/-- Zero, three, six and nine are up to ten: four jumps back. -/
theorem backedges_counting : let f := SplitPlan.counting .sle 0 10 3
    ∃ l ∈ f.forest.loops, ∃ i header n, ofLoop? f f.forest l = some i ∧ i.backedgeCount? = some n ∧
      ∃ r start k top b fr j c, f.Execution f.forest l header r start k top ∧
        f.Iteration f.forest l header top b [] fr ∧ b.leave fr = .ok (.jump j) ∧ f.labelled? j = some c ∧
        f.forest.contains l c.id = false ∧ (k : Int) = n := by
  intro f
  have hf : f.verify = .ok () := by decide +kernel
  have h : (f.forest.loops.any fun l => l.outsidePreds f f.forest == [f.entry.ref] &&
      ((l.exitingBlocks f f.forest).all fun b => b.succ.any fun s => f.forest.contains l s.number) &&
      (ofLoop? f f.forest l).any fun i => (!i.indvar.isGlobal && !i.next.isGlobal) &&
        (i.backedgeCount? == some 4 && i.start == .int 0 && i.step == 3) &&
        ((l.exitingBlocks f f.forest).all fun b => f.blocks.all fun c => c.id != i.latch ||
          (DomTree.ofFunc f false).dominates b.id c.id) &&
        (f.linked? l.header).any fun header => (Func.Execution.momentAfter f l header [] 21).any fun s =>
          s.visit == 4 && (s.target? f).any fun c => !f.forest.contains l c.id) = true := by decide +kernel
  simp only [List.any_eq_true, List.all_eq_true, Option.any_eq_true, Bool.and_eq_true, Bool.or_eq_true, beq_iff_eq,
    bne_iff_ne, Bool.not_eq_true'] at h
  obtain ⟨l, hl, ⟨hr, hstays⟩, i, hi, ⟨⟨⟨hindvar, hnext⟩, ⟨hn, hstart⟩, hstep⟩, hevery⟩, header, hh, s, hs,
    hvisit, c, hc, hout⟩ := h
  obtain ⟨k, top, b, xs, fr⟩ := s
  obtain rfl : k = 4 := hvisit
  obtain ⟨rfl, j, hleave, hc⟩ := Func.Execution.Moment.target?_eq_some hc
  obtain ⟨hexec, hiter⟩ := Func.Execution.comesTo_momentAfter hs
  refine ⟨l, hl, i, header, 4, hi, hn, _, _, 4, top, b, fr, j, c, hexec, hiter, hleave, hc, hout, ?_⟩
  refine backedges_eq hf hl hi hindvar hnext hn hstays (fun b hb c hc hid => ?_) hh hr hexec (fun s hs => ?_)
    hiter hleave hc hout
  · have hdom := (DomTree.dominates_iff (Func.wellLinked_of_verify hf).toLinked).mp
      ((hevery b hb c hc).resolve_left fun hne => hne hid)
    exact (Func.dominates_iff_onEveryPath (Func.reached_iff.mpr hdom.reaches)).mp hdom
  · rw [hstart] at hs
    obtain rfl := Option.some.inj hs
    rw [hstep]
    decide

/-! ### Rounds around the exiting block -/

/-- Counts up to `bound`, and leaves the loop in odd rounds only. -/
def skipping (bound : Int32) : Func :=
  let i : Temp := .ofLocal "i" .i32
  let next : Temp := .ofLocal "next" .i32
  let odd : Temp := .ofLocal "odd" .i32
  let cond : Temp := .ofLocal "cond" .i32
  { total := 4
    name := "skipping"
    retTy := .i32
    params := []
    blocks := [
      { Block.ofId 0 with succ := [.last 1], jump := some (.jump (.ofBlock 1)) },
      { Block.ofId 1 with
        prev := [.last 0, .last 3]
        succ := [.last 2, .last 3]
        phis := [.ofTarget i [(.int 0, .ofBlock 0), (.temp next, .ofBlock 3)]]
        instrs := [.arith odd .and .i32 (.temp i) (.int 1)]
        jump := some (.branch .i32 (.temp odd) (.ofBlock 2) (.ofBlock 3)) },
      { Block.ofId 2 with
        prev := [.last 1]
        succ := [.last 3, .last 4]
        instrs := [.comp cond .icmp .slt .i32 (.temp i) (.int bound)]
        jump := some (.branch .i32 (.temp cond) (.ofBlock 3) (.ofBlock 4)) },
      { Block.ofId 3 with
        prev := [.last 1, .last 2]
        succ := [.last 1]
        instrs := [.arith next .add .i32 (.temp i) (.int 1)]
        jump := some (.jump (.ofBlock 1)) },
      { Block.ofId 4 with prev := [.last 2], jump := some (.ret (some (.temp i))) }] }

/-- Even rounds do not come to the test, and the loop is left one round later than was counted. -/
theorem backedges_skipping : let f := skipping 4
    f.verify = .ok () ∧ ∃ l ∈ f.forest.loops, ∃ i header, ofLoop? f f.forest l = some i ∧
      i.backedgeCount? = some 4 ∧ l.outsidePreds f f.forest = [f.entry.ref] ∧ f.linked? l.header = some header ∧
      ∃ start k top b fr j c, f.Execution f.forest l header f.entry.ref start k top ∧
        (∀ s, i.start.int? = some s → i32Min ≤ s + k * i.step ∧ s + k * i.step ≤ i32Max) ∧
        f.Iteration f.forest l header top b [] fr ∧ b.leave fr = .ok (.jump j) ∧ f.labelled? j = some c ∧
        f.forest.contains l c.id = false ∧ (k : Int) ≠ 4 := by
  intro f
  have h : (f.forest.loops.any fun l => l.outsidePreds f f.forest == [f.entry.ref] &&
      (ofLoop? f f.forest l).any fun i => (i.backedgeCount? == some 4 && i.start == .int 0 && i.step == 1) &&
        (f.linked? l.header).any fun header => (Func.Execution.momentAfter f l header [] 27).any fun s =>
          s.visit == 5 && (s.target? f).any fun c => !f.forest.contains l c.id) = true := by decide +kernel
  simp only [List.any_eq_true, Option.any_eq_true, Bool.and_eq_true, beq_iff_eq, Bool.not_eq_true'] at h
  obtain ⟨l, hl, hr, i, hi, ⟨⟨hn, hstart⟩, hstep⟩, header, hh, ⟨k, top, b, xs, fr⟩, hs, hvisit, c, hc, hout⟩ := h
  obtain rfl : k = 5 := hvisit
  obtain ⟨rfl, j, hleave, hc⟩ := Func.Execution.Moment.target?_eq_some hc
  obtain ⟨hexec, hiter⟩ := Func.Execution.comesTo_momentAfter hs
  refine ⟨by decide +kernel, l, hl, i, header, hi, hn, hr, hh, _, 5, top, b, fr, j, c, hexec, fun s hs => ?_,
    hiter, hleave, hc, hout, by decide⟩
  rw [hstart] at hs
  obtain rfl := Option.some.inj hs
  rw [hstep]
  decide

end Induction

end LoopLanes
