/-
Loops that are prepared in place.

Where the number of iterations is known to be a multiple of the number of lanes, a loop is not split:
its latch advances by all lanes at once, its test stays, and nothing remains to be done one by one.
The number of iterations is that of an integer sequence (`runLength_iff`), which is the sequence of
words as long as no word wraps around.  Then the test, made once per group, fails exactly behind the
last group (`rounds_inPlace`).  A loop whose variable wraps around on its way past the bound goes on
longer than was counted, and its groups may miss the value at which it ends (`rounds_wrapping`).
-/
import LoopLanes.Proofs.Loop.Lengths
import LoopLanes.Proofs.Split.Iterations
import LoopLanes.Proofs.Split.Updates

namespace LoopLanes

/-! ### Rounds -/

/-- The values for which a loop runs its body that takes `width` of them at a time, tested at the
first of them, and the value with which it is left; nothing if it is not left within `n` tests. -/
def rounds? (goesOn : Int32 → Bool) (step : Int) (width : Nat) :
    Nat → Int32 → Option (List Int32 × Int32)
  | 0, _ => none
  | n + 1, iv =>
    if goesOn iv then
      (rounds? goesOn step width n (iv + .ofInt (width * step))).map fun r =>
        (lanesFrom step width iv ++ r.1, r.2)
    else some ([], iv)

section Rounds

variable {goesOn : Int32 → Bool} {step : Int} {width : Nat}

theorem lanesFrom_append (step : Int) (iv : Int32) (m n : Nat) :
    lanesFrom step (m + n) iv = lanesFrom step m iv ++ lanesFrom step n (iv + .ofInt (m * step)) := by
  induction m generalizing iv with
  | zero => simp [lanesFrom]
  | succ m ih =>
    rw [Nat.succ_add, lanesFrom_succ, ih, lanesFrom_succ, add_ofInt_succ, List.cons_append]

/-- A loop that goes on at the first value of `n` groups and not behind them. -/
theorem rounds?_eq_some : ∀ {n : Nat} {iv : Int32},
    (∀ j < n, goesOn (iv + .ofInt ((j * width : Nat) * step)) = true) →
    goesOn (iv + .ofInt ((n * width : Nat) * step)) = false →
      rounds? goesOn step width (n + 1) iv =
        some (lanesFrom step (n * width) iv, iv + .ofInt ((n * width : Nat) * step)) := by
  intro n
  induction n with
  | zero =>
    intro iv _ hlast
    have hzero : iv + .ofInt ((0 * width : Nat) * step) = iv := by simp
    rw [hzero] at hlast ⊢
    rw [rounds?, hlast, Nat.zero_mul]
    rfl
  | succ n ih =>
    intro iv hgroups hlast
    -- group `j` from the second group on is group `j + 1`
    have hnext : ∀ j : Nat, iv + .ofInt (width * step) + .ofInt ((j * width : Nat) * step) =
        iv + .ofInt (((j + 1) * width : Nat) * step) := by
      intro j
      rw [Int32.add_assoc, ← Int32.ofInt_add]
      congr 2
      push_cast
      ring
    have hfirst : goesOn iv = true := by simpa using hgroups 0 (Nat.succ_pos n)
    have hrest := @ih (iv + .ofInt (width * step))
      (fun j hj => by rw [hnext]; exact hgroups (j + 1) (Nat.succ_lt_succ hj))
      (by rw [hnext]; exact hlast)
    rw [rounds?, if_pos hfirst, hrest, hnext, Nat.succ_mul, Nat.add_comm (n * width), lanesFrom_append]
    rfl

end Rounds

/-- A run of `count` values that stays in the word is the same one value at a time and in groups that
divide it. -/
theorem rounds?_of_fits {op : CompOp} {step : Int} {start e : Int32} {count width : Nat}
    (hop : op.Monotone step) (h : runLength start.toInt e.toInt step op = some (count : Int))
    (hcount : 0 < count) (hlo : i32Min ≤ start.toInt + count * step)
    (hhi : start.toInt + count * step ≤ i32Max) (hwidth : width ∣ count) :
    rounds? (op.onWords · e) step width (count / width + 1) start =
      some (lanesFrom step count start, start + .ofInt (count * step)) := by
  have hs := toInt_mem start
  have hbound : -4294967296 ≤ step := by
    simp only [i32Min, i32Max] at *
    nlinarith
  -- what lies between the first value and the last one stays in the word too
  have hmid : ∀ k : Nat, k ≤ count →
      (start + .ofInt (k * step)).toInt = start.toInt + k * step := by
    intro k hk
    have hk' : (k : Int) ≤ count := by omega
    rcases Int.lt_or_le step 0 with hneg | hpos
    · have h1 : (count : Int) * step ≤ k * step := by nlinarith
      have h2 : (k : Int) * step ≤ 0 := by nlinarith
      exact toInt_add_ofInt (by omega) (by omega)
    · have h1 : (k : Int) * step ≤ count * step := by nlinarith
      have h2 : 0 ≤ (k : Int) * step := by positivity
      exact toInt_add_ofInt (by omega) (by omega)
  have htest : ∀ k : Nat, k ≤ count → (op.onWords (start + .ofInt (k * step)) e = true ↔ k < count) := by
    intro k hk
    rw [CompOp.onWords_iff hop, hmid k hk,
      runLength_iff hop hs (toInt_mem e) hbound h (Int.natCast_nonneg k)]
    omega
  obtain ⟨n, rfl⟩ := hwidth
  have hpos : 0 < width := Nat.pos_of_mul_pos_right hcount
  rw [Nat.mul_div_cancel_left n hpos]
  have hgroups := @rounds?_eq_some (op.onWords · e) step width n start (fun j hj => ?_) ?_
  · rw [hgroups, Nat.mul_comm n width]
  · have hle : j * width < width * n := by
      rw [Nat.mul_comm width n]
      exact Nat.mul_lt_mul_of_pos_right hj hpos
    exact (htest _ (Nat.le_of_lt hle)).mpr hle
  · have hend := htest (width * n) (Nat.le_refl _)
    rw [Nat.mul_comm n width]
    simpa using hend

/-! ### The prepared loop -/

theorem Phi.incoming?_setIncoming_of_ne {k j : Label} (v : Value) (p : Phi) (hj : j ≠ k) :
    (p.setIncoming k v).incoming? j = p.incoming? j := by
  have hentries : ∀ es : List (Value × Label),
      (setEntries k v es).find? (·.2 == j) = es.find? (·.2 == j) := by
    intro es
    induction es with
    | nil => simp [setEntries, Ne.symm hj]
    | cons e es ih =>
      obtain ⟨w, m⟩ := e
      by_cases hm : m = k
      · simp [setEntries, hm, Ne.symm hj]
      · by_cases hmj : m = j
        · simp [setEntries, hmj, hj]
        · simp [setEntries, hm, hmj, ih]
  exact congrArg _ (hentries p.incoming)

/-- The steps that flow into a header come from the latch, all else comes as it did. -/
theorem SplitPlan.exists_of_redirect {updates : List StrideUpdate} {ρ : Temp → Temp} {k : Label} {b : Block}
    {q : Phi} (hq : q ∈ (redirect updates ρ k b).phis) :
    ∃ p ∈ b.phis, q.target = p.target ∧ ∀ j ≠ k, q.incoming? j = p.incoming? j := by
  induction updates generalizing b with
  | nil => exact ⟨q, hq, rfl, fun _ _ => rfl⟩
  | cons u us ih =>
    obtain ⟨p, hp, htarget, hin⟩ :=
      ih (b := { b with phis := Phi.setIn (ρ u.phi) k (.temp u.next) b.phis }) hq
    rcases Phi.exists_of_mem_setIn hp with hp' | ⟨p', hp', -, rfl⟩
    · exact ⟨p, hp', htarget, hin⟩
    · exact ⟨p', hp', htarget, fun j hj => (hin j hj).trans (Phi.incoming?_setIncoming_of_ne _ p' hj)⟩

/-- A loop that counts a number of lanes at a time and tests as it did before: its header takes the
start along an edge, and from the latch the sum of the variable and all lanes' steps. -/
structure Induction.CountsBy (i : Induction) (width : Nat) (entering : Label) (header latch : Block) :
    Prop where
  tests : i.Tests header
  update : ∃ next, .arith next .add .i32 (.temp i.indvar) (.ofInt (width * i.step)) ∈ latch.instrs ∧
    ∃ p ∈ header.phis, p.target = i.indvar ∧ p.incoming? entering = some i.start ∧
      p.incoming? (Label.ofBlock i.latch) = some (.temp next)

/-- A known number of iterations is that of the integers from start to bound. -/
theorem Loop.tripCount?_of_tripAlignment {f : Func} {t : LoopForest} {l : Loop}
    (h : 1 < l.tripAlignment f t) :
    ∃ i, Induction.ofLoop? f t l = some i ∧ i.tripCount? = some (l.tripAlignment f t : Int) := by
  unfold tripAlignment at h ⊢
  cases hcount : (Induction.ofLoop? f t l).bind Induction.tripCount? with
  | none => simp [hcount] at h
  | some n =>
    obtain ⟨i, hi, hn⟩ := Option.bind_eq_some_iff.mp hcount
    refine ⟨i, hi, ?_⟩
    rw [hcount] at h
    dsimp only at h ⊢
    split at h
    · rename_i hlarge
      rw [if_pos hlarge, hn, Int.toNat_of_nonneg (by omega)]
    · omega

namespace SplitPlan

variable {f : Func} {l : Loop} {width alignment : Nat} {plan : SplitPlan} {n n' : TempCounter}

/-- A loop whose number of iterations is a multiple of the lanes is not split. -/
theorem kind_of_make {t : LoopForest} {r : Recurrences} (h : Gives (make f t l width alignment r) n plan n')
    (halign : 1 < alignment) (hdvd : width ∣ alignment) :
    plan.header = l.header ∧ ∃ (a : LoopAnatomy) (updates : _), a.Found f t l r ∧
      Gives (scaledSteps a.header.phis r width) n updates n' ∧
      plan.kind = .inPlace a.latch updates a.induction.cond := by
  unfold make at h
  obtain ⟨a, _, ha, h⟩ := gives_bind.mp h
  obtain ⟨hanatomy, rfl⟩ := gives_mk_pure.mp ha
  obtain ⟨lanes, _, hlanes, h⟩ := gives_bind.mp h
  obtain ⟨hfit, rfl⟩ := Planning.gives_require.mp hlanes
  obtain ⟨rfl, -⟩ := fitI32?_eq_some hfit
  obtain ⟨updates, k, hupdates, h⟩ := gives_bind.mp h
  rw [if_pos ⟨halign, Nat.mod_eq_zero_of_dvd hdvd⟩] at h
  obtain ⟨rfl, rfl⟩ := gives_pure.mp h
  exact ⟨rfl, a, updates, found_of_anatomy hanatomy, hupdates, rfl⟩

/-- The iterations of a loop that is left from its header, between constants. -/
theorem runLength_of_found {t : LoopForest} {r : Recurrences} {a : LoopAnatomy} (ha : a.Found f t l r) {count : Int}
    (h : a.induction.tripCount? = some count) : ∃ start e : Int32, a.induction.start = .int start ∧
      a.induction.bound = .int e ∧
      runLength start.toInt e.toInt a.induction.step a.induction.op = some count := by
  have hfound := Induction.found_of_ofLoop? ha.induction
  obtain ⟨b, hb, hbid, -⟩ := hfound.test
  have hexiting : b.id = l.header.number := by
    have hmem : b.id ∈ (l.exitingBlocks f t).map (·.id) := List.mem_map_of_mem hb
    rw [ha.exiting] at hmem
    exact List.mem_singleton.mp hmem
  obtain ⟨latch, hlatch, hlatchn⟩ := hfound.latch
  obtain rfl : latch = a.latch := Option.some.inj (hlatch.symm.trans ha.latch)
  have hheader : a.induction.exiting = a.induction.header := hbid.symm.trans (hexiting.trans hfound.header.symm)
  have hlatch : a.induction.exiting ≠ a.induction.latch := by
    rw [← hbid, hexiting, ← hlatchn]
    exact Ne.symm ha.latch_ne
  have hinHeader : a.induction.exitsInHeader = true := by
    simp [Induction.exitsInHeader, hheader, hheader ▸ hlatch]
  unfold Induction.tripCount? at h
  obtain ⟨s, hs, h⟩ := Option.bind_eq_some_iff.mp h
  obtain ⟨e, he, h⟩ := Option.bind_eq_some_iff.mp h
  rw [if_pos hinHeader] at h
  have hconst : ∀ {v : Value} {c : Int}, v.int? = some c → ∃ x : Int32, v = .int x ∧ x.toInt = c := by
    intro v c hv
    cases v with
    | int x => exact ⟨x, rfl, Option.some.inj hv⟩
    | _ => cases hv
  obtain ⟨start, hstart, rfl⟩ := hconst hs
  obtain ⟨bound, hbound, rfl⟩ := hconst he
  exact ⟨start, bound, hstart, hbound, h⟩

/-- A plan that needs no second loop is put in: the header and the latch of the loop change, and
count by all lanes. -/
theorem countsBy_commit {a : LoopAnatomy} {updates : List StrideUpdate} {k : TempCounter}
    (hf : f.verify = .ok ()) (hl : l ∈ f.forest.loops)
    (ha : a.Found f f.forest l (.ofLoop f f.forest l)) {start : Int32}
    (hstart : a.induction.start = .int start)
    (hupdates : Gives (scaledSteps a.header.phis (.ofLoop f f.forest l) width) n updates k)
    (hheader : plan.header = l.header)
    (hk : plan.kind = .inPlace a.latch updates a.induction.cond) :
    ∃ prepared g header latch, plan.commit f = .ok (prepared, g) ∧ g.linked? l.header = some header ∧
      g.linked? a.latch = some latch ∧
      a.induction.CountsBy width a.entering.label header latch := by
  have hfound := Induction.found_of_ofLoop? ha.induction
  have hentered : l.EnteredFrom f f.forest a.entering := ⟨hf, rfl, hl, ha.entering⟩
  have hlinked := hentered.linked
  obtain ⟨hhm, hhref⟩ := Func.linked?_mem ha.header
  obtain ⟨latch, hlatch⟩ : ∃ latch, f.linked? a.latch = some latch := by
    obtain ⟨target, hjump⟩ := ha.latch_jump
    obtain ⟨latch, hlatch, -⟩ := Option.bind_eq_some_iff.mp hjump
    exact ⟨latch, hlatch⟩
  have hne : l.header ≠ a.latch := fun e => ha.latch_ne (congrArg BlockRef.number e).symm
  -- the update of the induction variable
  obtain ⟨e, he⟩ := Option.isSome_iff_exists.mp ha.stride
  have hstride := stride_of_start hentered ha.induction (fun t ht => by simp [hstart] at ht) he
  obtain ⟨q, hq, header, p, hheader', hp, hpt, -, hpstart, -⟩ := hfound.entering
  obtain rfl : header = a.header := Option.some.inj (hheader'.symm.trans ha.header)
  obtain rfl : q = a.entering := by simpa using hq.symm.trans ha.entering
  have hsteps := updates_of_scaledSteps hupdates
  obtain ⟨u, hu, huphi, hustep⟩ := exists_update hsteps hp (hpt ▸ he)
  have hstep : u.step = width * a.induction.step := by
    rw [(fitI32?_eq_some hustep).1, hstride, Int.mul_comm]
  have hnodup := Func.phi_targets_nodup hf hhm
  have hphis := phis_of_updates hsteps
  obtain ⟨q, hqm, hqt, hqin⟩ := @exists_redirected u id a.latch.label updates a.header.phis p hnodup hp hu
    huphi (List.pairwise_map.mp (hnodup.sublist hphis))
  -- what it starts from is left alone
  have hlabels : a.entering.label ≠ a.latch.label := by
    intro e
    have hin := (Loop.singleLatch?_eq_some ha.latch).1.2
    rw [← Label.ofBlock_injective e, hentered.not_contains] at hin
    cases hin
  obtain ⟨p', hp', hpt', hkeep⟩ := exists_of_redirect (b := a.header) hqm
  obtain rfl : p' = p := List.inj_on_of_nodup_map hnodup hp' hp (hpt'.symm.trans hqt)
  obtain ⟨r, hr, hrn⟩ := hfound.latch
  obtain rfl : r = a.latch := Option.some.inj (hr.symm.trans ha.latch)
  have hlinkedLatch := fun s => @Func.linked?_modify f a.latch s (advance updates id) fun _ => rfl
  have hmodify := fun s => @Func.linked?_modify (f.modify a.latch (advance updates id)) l.header s
    (redirect updates id a.latch.label) fun _ => rfl
  refine ⟨_, _, redirect updates id a.latch.label a.header, advance updates id latch, by rw [commit, hk],
    ?_, ?_, ha.tests hlinked, u.next, ?_, q, hqm, hqt.trans hpt, (hkeep _ hlabels).trans hpstart, ?_⟩
  · rw [hheader, hmodify, if_pos rfl, hlinkedLatch, if_neg hne, ha.header]
    rfl
  · rw [hheader, hmodify, if_neg (Ne.symm hne), hlinkedLatch, if_pos rfl, hlatch]
    rfl
  · rw [← hstep, ← hpt, ← huphi]
    exact List.mem_append_right _ (List.mem_map_of_mem hu)
  · rw [← hrn]
    exact hqin

/-- A loop that is prepared in place runs its body for the values of the loop as it was, and is left with
the same value, provided that the value with which it is left can be reached without wrapping around. -/
theorem rounds_inPlace (hf : f.verify = .ok ()) (hl : l ∈ f.forest.loops)
    (halign : 1 < l.tripAlignment f f.forest) (hdvd : width ∣ l.tripAlignment f f.forest)
    (h : Gives (make f f.forest l width (l.tripAlignment f f.forest) (.ofLoop f f.forest l)) n plan n') :
    ∃ i start e entering r prepared g header latch,
      -- the loop counts from `start` and goes on while `indvar OP e`
      Induction.ofLoop? f f.forest l = some i ∧ i.start = .int start ∧ i.bound = .int e ∧
      l.outsidePreds f f.forest = [entering] ∧ l.singleLatch? f f.forest = some r ∧
      -- the prepared loop counts by all lanes and tests the same
      plan.commit f = .ok (prepared, g) ∧ g.linked? l.header = some header ∧
      g.linked? r = some latch ∧ i.CountsBy width entering.label header latch ∧
      let count := l.tripAlignment f f.forest
      (i32Min ≤ start.toInt + count * i.step → start.toInt + count * i.step ≤ i32Max →
        ∃ vs last, rounds? (i.op.onWords · e) i.step 1 (count + 1) start = some (vs, last) ∧
          rounds? (i.op.onWords · e) i.step width (count / width + 1) start = some (vs, last)) := by
  obtain ⟨hheader, a, updates, ha, hupdates, hk⟩ := kind_of_make h halign hdvd
  obtain ⟨i, hi, hcount⟩ := Loop.tripCount?_of_tripAlignment halign
  obtain rfl : i = a.induction := Option.some.inj (hi.symm.trans ha.induction)
  obtain ⟨start, e, hstart, hbound, hlength⟩ := runLength_of_found ha hcount
  obtain ⟨prepared, g, header, latch, hcommit, hh, hlatch, hcounts⟩ :=
    countsBy_commit hf hl ha hstart hupdates hheader hk
  refine ⟨a.induction, start, e, a.entering, a.latch, prepared, g, header, latch, ha.induction, hstart,
    hbound, ha.entering, ha.latch, hcommit, hh, hlatch, hcounts, fun hlo hhi => ?_⟩
  have hpos : 0 < l.tripAlignment f f.forest := by omega
  have hone := rounds?_of_fits ha.monotone hlength hpos hlo hhi (Nat.one_dvd _)
  rw [Nat.div_one] at hone
  exact ⟨_, _, hone, rounds?_of_fits ha.monotone hlength hpos hlo hhi hdvd⟩

/-- Counts the rounds of a loop between constants. -/
def counting (op : CompOp) (start bound step : Int32) : Func :=
  let i : Temp := .ofLocal "i" .i32
  let j : Temp := .ofLocal "j" .i32
  let s : Temp := .ofLocal "s" .i32
  let t : Temp := .ofLocal "t" .i32
  let c : Temp := .ofLocal "c" .i32
  { total := 3
    name := "counting"
    retTy := .i32
    params := []
    blocks := [
      { Block.ofId 0 with succ := [.last 1], jump := some (.jump (.ofBlock 1)) },
      { Block.ofId 1 with
        prev := [.last 0, .last 2]
        succ := [.last 2, .last 3]
        phis := [.ofTarget i [(.int start, .ofBlock 0), (.temp j, .ofBlock 2)],
          .ofTarget s [(.int 0, .ofBlock 0), (.temp t, .ofBlock 2)]]
        instrs := [.comp c .icmp op .i32 (.temp i) (.int bound)]
        jump := some (.branch .i32 (.temp c) (.ofBlock 2) (.ofBlock 3)) },
      { Block.ofId 2 with
        prev := [.last 1]
        succ := [.last 1]
        instrs := [.arith t .add .i32 (.temp s) (.int 1), .arith j .add .i32 (.temp i) (.int step)]
        jump := some (.jump (.ofBlock 1)) },
      { Block.ofId 3 with prev := [.last 1], jump := some (.ret (some (.temp s))) }] }

/-- A loop of `counting` with its induction, its number of iterations and a plan for it. -/
structure Planned (op : CompOp) (start bound step : Int32) (count width : Nat) (f : Func) (l : Loop)
    (i : Induction) (plan : SplitPlan) : Prop where
  func : f = counting op start bound step
  verified : f.verify = .ok ()
  mem : l ∈ f.forest.loops
  alignment : l.tripAlignment f f.forest = count
  induction : Induction.ofLoop? f f.forest l = some i
  values : i.op = op ∧ i.start = .int start ∧ i.bound = .int bound ∧ i.step = step.toInt
  plan : ∃ n', Gives (make f f.forest l width count (.ofLoop f f.forest l)) 0 plan n'

theorem exists_planned {op : CompOp} {start bound step : Int32} {count width : Nat} {inPlace : Bool}
    (h : (let f := counting op start bound step
      decide (f.verify = .ok ()) && f.forest.loops.any fun l =>
        decide (l.tripAlignment f f.forest = count) &&
        ((Induction.ofLoop? f f.forest l).any fun i => decide (i.op = op ∧ i.start = .int start ∧
          i.bound = .int bound ∧ i.step = step.toInt)) &&
        ((make f f.forest l width count (.ofLoop f f.forest l)).run.run 0).1.toOption.any
          fun plan => plan.isSplit == !inPlace) = true) :
    ∃ f l i plan, Planned op start bound step count width f l i plan ∧ plan.isSplit = !inPlace := by
  simp only [Bool.and_eq_true, List.any_eq_true, Option.any_eq_true, decide_eq_true_eq, beq_iff_eq] at h
  obtain ⟨hf, l, hl, ⟨hcount, i, hi, hvalues⟩, plan, hplan, hsplit⟩ := h
  exact ⟨_, l, i, plan, ⟨rfl, hf, hl, hcount, hi, hvalues, _, Prod.ext (toOption_eq_some.mp hplan) rfl⟩, hsplit⟩

/-- Twelve iterations downwards, four at a time. -/
theorem rounds_downwards : ∃ f l i plan, Planned .sgt 60 3 (-5) 12 4 f l i plan ∧ ∃ vs last,
    rounds? (CompOp.sgt.onWords · 3) (-5) 1 13 60 = some (vs, last) ∧
      rounds? (CompOp.sgt.onWords · 3) (-5) 4 4 60 = some (vs, last) := by
  obtain ⟨f, l, i, plan, h, -⟩ := @exists_planned .sgt 60 3 (-5) 12 4 true (by decide +kernel)
  refine ⟨f, l, i, plan, h, ?_⟩
  obtain ⟨n', hplan⟩ := h.plan
  rw [← h.alignment] at hplan
  obtain ⟨i', start, e, -, -, -, -, -, -, hi, hstart, hbound, -, -, -, -, -, -, hrounds⟩ :=
    rounds_inPlace h.verified h.mem (by rw [h.alignment]; decide) (by rw [h.alignment]; decide) hplan
  obtain rfl : i' = i := Option.some.inj (hi.symm.trans h.induction)
  obtain ⟨hop, hstart', hbound', hstep⟩ := h.values
  obtain rfl : start = 60 := Value.int.inj (hstart.symm.trans hstart')
  obtain rfl : e = 3 := Value.int.inj (hbound.symm.trans hbound')
  rw [h.alignment, hop, hstep] at hrounds
  exact hrounds (by decide) (by decide)

/-- The tenth value wraps around on its way past the bound, and the loop goes on where three iterations
were counted: it ends after ten, while groups of three pass the value at which it ends. -/
theorem rounds_wrapping : ∃ f l i plan,
    Planned .slt 429496730 1800000000 572662306 3 3 f l i plan ∧ plan.isSplit = false ∧
    ∃ vs last vs' last', rounds? (CompOp.slt.onWords · 1800000000) 572662306 1 11 429496730 = some (vs, last) ∧
      rounds? (CompOp.slt.onWords · 1800000000) 572662306 3 7 429496730 = some (vs', last') ∧
      vs.length = 10 ∧ vs'.length = 18 ∧ last ≠ last' := by
  obtain ⟨f, l, i, plan, h, hsplit⟩ :=
    @exists_planned .slt 429496730 1800000000 572662306 3 3 true (by decide +kernel)
  have hone : ((rounds? (CompOp.slt.onWords · 1800000000) 572662306 1 11 429496730).map fun r =>
      (r.1.length, r.2)) = some (10, 1861152494) := by decide +kernel
  have hthree : ((rounds? (CompOp.slt.onWords · 1800000000) 572662306 3 7 429496730).map fun r =>
      (r.1.length, r.2)) = some (18, 2147483646) := by decide +kernel
  obtain ⟨⟨vs, last⟩, hvs, hlast⟩ := Option.map_eq_some_iff.mp hone
  obtain ⟨⟨vs', last'⟩, hvs', hlast'⟩ := Option.map_eq_some_iff.mp hthree
  obtain ⟨hlen, rfl⟩ := Prod.mk.inj hlast
  obtain ⟨hlen', rfl⟩ := Prod.mk.inj hlast'
  exact ⟨f, l, i, plan, h, hsplit, vs, _, vs', _, hvs, hvs', hlen, hlen', by decide⟩

end SplitPlan

end LoopLanes
