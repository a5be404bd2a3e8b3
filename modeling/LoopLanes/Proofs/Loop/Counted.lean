/-
What is known of a loop whose induction was found.

`Induction.Found` lists it: the phi of the header, the two values that flow into it, the
arithmetic that advances it, and the comparison that the loop exits on.
-/
import LoopLanes.Loop.Induction
import LoopLanes.Proofs.Loop.Parts

namespace LoopLanes

theorem Value.eq_temp_of_isTemp {v : Value} {t : Temp} (h : v.isTemp t = true) : v = .temp t := by
  cases v with
  | temp u => exact congrArg Value.temp (by simpa [isTemp, temp?] using h)
  | _ => cases h

theorem Value.eq_int_of_int? {v : Value} {n : Int} (h : v.int? = some n) :
    ∃ x : Int32, v = .int x ∧ x.toInt = n := by
  cases v <;> first | exact ⟨_, rfl, Option.some.inj h⟩ | cases h

namespace Induction

variable {f : Func} {t : LoopForest} {l : Loop} {i : Induction}

/-- What gives the step of an induction adds a constant to its variable, or subtracts one from it. -/
theorem addend?_eq_some {indvar : Temp} {op : ArithOp} {lhs rhs : Value} {c : Int}
    (h : addend? indvar op lhs rhs = some c) : ∃ k : Int32,
      (op = .add ∧ (lhs = .temp indvar ∧ rhs = .int k ∨ lhs = .int k ∧ rhs = .temp indvar) ∧ k.toInt = c) ∨
      (op = .sub ∧ lhs = .temp indvar ∧ rhs = .int k ∧ fitI32? (-k.toInt) = some c) := by
  unfold addend? at h
  split at h
  · split at h
    · rename_i hlhs
      obtain ⟨k, hk, hc⟩ := Value.eq_int_of_int? h
      exact ⟨k, .inl ⟨rfl, .inl ⟨Value.eq_temp_of_isTemp hlhs, hk⟩, hc⟩⟩
    · split at h
      · rename_i hrhs
        obtain ⟨k, hk, hc⟩ := Value.eq_int_of_int? h
        exact ⟨k, .inl ⟨rfl, .inr ⟨hk, Value.eq_temp_of_isTemp hrhs⟩, hc⟩⟩
      · cases h
  · split at h
    · rename_i hlhs
      obtain ⟨n, hn, hfit⟩ := Option.bind_eq_some_iff.mp h
      obtain ⟨k, hk, rfl⟩ := Value.eq_int_of_int? hn
      exact ⟨k, .inr ⟨rfl, Value.eq_temp_of_isTemp hlhs, hk, hfit⟩⟩
    · cases h
  · cases h

/-- A comparison and the truth value with which the loop goes on, turned to
`tested OP bound`. -/
def TurnedFrom (i : Induction) (op : CompOp) (lhs rhs : Value) (onTrue : Bool) : Prop :=
  (lhs = .temp i.tested ∧ rhs = i.bound ∧ i.op = if onTrue then op else op.inverse) ∨
    (rhs = .temp i.tested ∧ lhs = i.bound ∧ i.op = (if onTrue then op else op.inverse).swap)

/-- A block ends in the exit test of a loop. -/
structure TestedIn (i : Induction) (b : Block) : Prop where
  test : ∃ (op : CompOp) (ty : Ty) (lhs rhs : Value) (onTrue : Bool) (branchTy : Ty)
      (ifTrue ifFalse : Label),
    .comp i.cond .icmp op ty lhs rhs ∈ b.instrs ∧
    b.jump = some (.branch branchTy (.temp i.cond) ifTrue ifFalse) ∧
    (if onTrue then ifFalse else ifTrue) = Label.ofBlock i.exit ∧
    i.TurnedFrom op lhs rhs onTrue

/-- What is known of a loop and its induction. -/
structure Found (f : Func) (t : LoopForest) (l : Loop) (i : Induction) : Prop where
  header : i.header = l.header.number
  latch : ∃ r, l.singleLatch? f t = some r ∧ r.number = i.latch
  entering : ∃ r, l.outsidePreds f t = [r] ∧ ∃ header p, f.linked? l.header = some header ∧
    p ∈ header.phis ∧ p.target = i.indvar ∧ p.incoming.length = 2 ∧
    p.incoming? (Label.ofBlock r.number) = some i.start ∧
    p.incoming? (Label.ofBlock i.latch) = some (.temp i.next)
  step : step? (l.blocks f t) i.next i.indvar = some i.step
  test : ∃ b ∈ l.exitingBlocks f t, b.id = i.exiting ∧ i.TestedIn b
  tested : i.exiting ≠ i.latch → i.tested = i.indvar
  exit : t.contains l i.exit = false
  invariant : ∀ u, i.bound = .temp u → u ∉ writesOf (l.blocks f t)

theorem comparison?_eq_some {b : Block} {cond : Temp} {op : CompOp} {lhs rhs : Value}
    (h : comparison? b cond = some (op, lhs, rhs)) :
    ∃ ty, .comp cond .icmp op ty lhs rhs ∈ b.instrs := by
  unfold comparison? at h
  dsimp only at h
  split at h
  · rename_i c op' ty lhs' rhs' hfind
    cases h
    have hmem := List.mem_of_find?_eq_some hfind
    have hc := List.find?_some hfind
    simp only [decide_eq_true_eq] at hc
    exact ⟨ty, hc ▸ hmem⟩
  · cases h

/-- The arithmetic that gives a step. -/
theorem step?_eq_some {bs : List Block} {next indvar : Temp} {c : Int}
    (h : step? bs next indvar = some c) : ∃ b ∈ bs, ∃ op ty lhs rhs,
      .arith next op ty lhs rhs ∈ b.instrs ∧ addend? indvar op lhs rhs = some c ∧ c ≠ 0 := by
  unfold step? at h
  dsimp only at h
  split at h
  · rename_i t op ty lhs rhs hfind
    obtain ⟨b, hb, hmem⟩ := List.mem_flatMap.mp (List.mem_of_find?_eq_some hfind)
    have ht := List.find?_some hfind
    simp only [decide_eq_true_eq] at ht
    obtain ⟨hadd, hne⟩ := Option.filter_eq_some_iff.mp h
    exact ⟨b, hb, op, ty, lhs, rhs, ht ▸ hmem, hadd, by simpa using hne⟩
  · cases h

/-- What the exit test of a loop is made from. -/
structure ExitTest.Found (f : Func) (t : LoopForest) (l : Loop) (e : ExitTest) : Prop where
  latch : ∃ r, l.singleLatch? f t = some r ∧ r.number = e.latch
  entering : ∃ r, l.outsidePreds f t = [r] ∧ r.number = e.entering
  exit : t.contains l e.exit = false
  test : ∃ b ∈ l.exitingBlocks f t, b.id = e.exiting ∧
    ∃ (op : CompOp) (ty : Ty) (onTrue : Bool) (branchTy : Ty) (ifTrue ifFalse : Label),
      .comp e.cond .icmp op ty e.lhs e.rhs ∈ b.instrs ∧
      b.jump = some (.branch branchTy (.temp e.cond) ifTrue ifFalse) ∧
      (if onTrue then ifFalse else ifTrue) = Label.ofBlock e.exit ∧
      e.op = if onTrue then op else op.inverse

theorem found_of_exitTest? {e : ExitTest} (h : exitTest? f t l = some e) : e.Found f t l := by
  simp only [exitTest?, Option.bind_eq_bind, Option.bind_eq_some_iff] at h
  obtain ⟨latch, hlatch, h⟩ := h
  split at h
  case h_2 => cases h
  rename_i entering hentering
  obtain ⟨exiting, hexiting, h⟩ := Option.bind_eq_some_iff.mp h
  split at h
  case h_2 => cases h
  rename_i branchTy cond ifTrue ifFalse hjump
  obtain ⟨exit, hout, h⟩ := Option.bind_eq_some_iff.mp h
  split at h
  case isTrue => cases h
  rename_i hexit
  obtain ⟨⟨op, lhs, rhs⟩, hcomp, he⟩ := Option.bind_eq_some_iff.mp h
  cases he
  obtain ⟨ty, hcomp⟩ := comparison?_eq_some hcomp
  have hmem : exiting ∈ l.exitingBlocks f t := by
    unfold Loop.singleExiting? at hexiting
    split at hexiting
    · rename_i hblocks
      cases hexiting
      simp [hblocks]
    · cases hexiting
  refine ⟨⟨latch, hlatch, rfl⟩, ⟨entering, hentering, rfl⟩,
    by simpa using List.find?_some hout, exiting, hmem, rfl, op, ty,
    decide (Label.ofBlock exit = ifFalse), branchTy, ifTrue, ifFalse, hcomp, hjump, ?_, by simp⟩
  by_cases h : Label.ofBlock exit = ifFalse
  · simp [h]
  · simp only [h, decide_false, Bool.not_false, Bool.true_and, decide_eq_true_eq,
      Decidable.not_not] at hexit
    rw [decide_eq_false h, if_neg Bool.false_ne_true, hexit]

/-- What a header phi that counts is made from. -/
theorem ofPhi?_eq_some {header : Int} {bs : List Block} {e : ExitTest} {p : Phi}
    (h : ofPhi? header bs e p = some i) :
    (i.header = header ∧ i.latch = e.latch ∧ i.exiting = e.exiting ∧ i.exit = e.exit ∧
      i.cond = e.cond ∧ i.indvar = p.target) ∧
    (p.incoming.length = 2 ∧ p.incoming? (Label.ofBlock e.entering) = some i.start ∧
      p.incoming? (Label.ofBlock e.latch) = some (.temp i.next)) ∧
    step? bs i.next p.target = some i.step ∧
    ((e.lhs = .temp i.tested ∧ e.rhs = i.bound ∧ i.op = e.op) ∨
      (e.rhs = .temp i.tested ∧ e.lhs = i.bound ∧ i.op = e.op.swap)) ∧
    (i.exiting ≠ i.latch → i.tested = i.indvar) ∧
    i.bound.temp?.all (fun u => !(writesOf bs).contains u) = true := by
  simp only [ofPhi?, Option.bind_eq_bind] at h
  split at h
  case h_2 => cases h
  rename_i hincoming
  obtain ⟨start, hstart, h⟩ := Option.bind_eq_some_iff.mp h
  split at h
  case h_2 => cases h
  rename_i next hnext
  obtain ⟨step, hstep, h⟩ := Option.bind_eq_some_iff.mp h
  have hlength : p.incoming.length = 2 := by simp [hincoming]
  -- the phi or its next value, whichever is tested
  have htested : ∀ v : Value, (v.isTemp p.target || v.isTemp next) = true →
      v = .temp (if v.isTemp next then next else p.target) := by
    intro v hv
    by_cases hnext : v.isTemp next = true
    · rw [if_pos hnext, ← Value.eq_temp_of_isTemp hnext]
    · rw [if_neg hnext]
      exact Value.eq_temp_of_isTemp ((Bool.or_eq_true_iff.mp hv).resolve_right hnext)
  split at h
  · rename_i hlhs
    simp only [Option.bind_some] at h
    split at h
    case isTrue => cases h
    rename_i hinv
    cases h
    simp only [Bool.or_eq_true, not_or, Bool.not_eq_true, Bool.not_eq_false', Bool.and_eq_true,
      not_and] at hinv
    refine ⟨⟨rfl, rfl, rfl, rfl, rfl, rfl⟩, ⟨hlength, hstart, hnext⟩, hstep,
      .inl ⟨htested _ hlhs, rfl, rfl⟩, fun hne => if_neg fun hnext => ?_, hinv.1⟩
    exact absurd hne (of_decide_eq_false (hinv.2 hnext))
  · split at h
    · rename_i hrhs
      simp only [Option.bind_some] at h
      split at h
      case isTrue => cases h
      rename_i hinv
      cases h
      simp only [Bool.or_eq_true, not_or, Bool.not_eq_true, Bool.not_eq_false', Bool.and_eq_true,
        not_and] at hinv
      refine ⟨⟨rfl, rfl, rfl, rfl, rfl, rfl⟩, ⟨hlength, hstart, hnext⟩, hstep,
        .inr ⟨htested _ hrhs, rfl, rfl⟩, fun hne => if_neg fun hnext => ?_, hinv.1⟩
      exact absurd hne (of_decide_eq_false (hinv.2 hnext))
    · cases h

theorem found_of_ofLoop? (h : ofLoop? f t l = some i) : i.Found f t l := by
  simp only [ofLoop?, Option.bind_eq_bind, Option.bind_eq_some_iff] at h
  obtain ⟨e, he, header, hheader, hphi⟩ := h
  obtain ⟨p, hp, hof⟩ := List.exists_of_findSome?_eq_some hphi
  obtain ⟨⟨hhead, hlatch, hexiting, hexit, hcond, hindvar⟩, ⟨hlen, hstart, hnext⟩, hstep, hturned, htested,
    hinv⟩ := ofPhi?_eq_some hof
  obtain ⟨⟨latch, hl, hln⟩, ⟨entering, hent, hentn⟩, hout, b, hb, hbid, op, ty, onTrue, branchTy,
    ifTrue, ifFalse, hcomp, hjump, hleaves, hop⟩ := found_of_exitTest? he
  have htest : i.TestedIn b := by
    refine ⟨op, ty, e.lhs, e.rhs, onTrue, branchTy, ifTrue, ifFalse, hcond ▸ hcomp,
      hcond ▸ hjump, hexit ▸ hleaves, ?_⟩
    rw [hop] at hturned
    exact hturned
  refine ⟨hhead, ⟨latch, hl, hln.trans hlatch.symm⟩, ⟨entering, hent, header, p, hheader, hp,
    hindvar.symm, hlen, by rw [hentn]; exact hstart, by rw [hlatch]; exact hnext⟩,
    by rw [hindvar]; exact hstep, ⟨b, hb, hbid.trans hexiting.symm, htest⟩, htested,
    by rw [hexit]; exact hout, fun u hu hmem => ?_⟩
  simp [hu, Value.temp?, hmem] at hinv

/-- The exiting block is the only one that leaves the loop. -/
theorem exitingBlocks_of_ofLoop? (hi : ofLoop? f t l = some i) :
    ∃ e, l.exitingBlocks f t = [e] ∧ e.id = i.exiting := by
  simp only [ofLoop?, Option.bind_eq_bind, Option.bind_eq_some_iff] at hi
  obtain ⟨test, ht, header, -, hphi⟩ := hi
  obtain ⟨p, -, hof⟩ := List.exists_of_findSome?_eq_some hphi
  obtain ⟨⟨-, -, hexiting, -, -, -⟩, -⟩ := ofPhi?_eq_some hof
  simp only [exitTest?, Option.bind_eq_bind, Option.bind_eq_some_iff] at ht
  obtain ⟨latch, -, ht⟩ := ht
  split at ht
  case h_2 => cases ht
  obtain ⟨e, he, ht⟩ := Option.bind_eq_some_iff.mp ht
  have hsingle : l.exitingBlocks f t = [e] := by
    unfold Loop.singleExiting? at he
    split at he
    · rename_i hblocks
      rw [hblocks, Option.some.inj he]
    · cases he
  refine ⟨e, hsingle, hexiting ▸ ?_⟩
  split at ht
  case h_2 => cases ht
  obtain ⟨exit, -, ht⟩ := Option.bind_eq_some_iff.mp ht
  split at ht
  case isTrue => cases ht
  obtain ⟨⟨op, lhs, rhs⟩, -, ht⟩ := Option.bind_eq_some_iff.mp ht
  cases ht
  rfl

end Induction

end LoopLanes
