/-
Two views of one step.

A loop counts if an instruction adds a constant to a phi of its header; this is found by looking at the definition of
the next value.  A phi is strided if the members of its component add constants; this is found by searching the uses.
The guard of a main loop is made from the one, the updates of its phis from the other.

* `Recurrences.exists_stride` — a phi has a stride, if what advances it reads it alone and nothing else that flows
  into it is computed from it; the stride is what is added then (`Recurrences.stride_eq`);
* `Induction.not_dependsOn_start` — the header of a counted loop dominates the block that leaves it, so the loop does
  not compute what its variable starts from;
* **`Induction.step_eq_stride`** — hence the two agree;
* **`Induction.step_ne_stride`** — but not where global temporaries lead what the loop computes back into its header
  from outside, nor for a phi that is not declared as a word.
-/
import LoopLanes.Proofs.Loop.TripCounts
import LoopLanes.Proofs.Recurrence.Strides

open Relation

namespace LoopLanes

namespace Recurrences

variable {g : UseGraph} {phi next : Temp} {E : List Temp} {op : ArithOp} {ty : Ty} {lhs rhs : Value} {c : Int}
  {phis : List Phi} {p : Phi}

/-- The phi of a component of its own is strided, if it is declared as a word. -/
theorem exists_mem_strides_classify (h : g.Advances phi next)
    (hdef : g.definition? next = some (.arith next op ty lhs rhs))
    (hadd : Induction.addend? phi op lhs rhs = some c) (targets : List Temp) (r : Recurrences) (hnodup : E.Nodup)
    (hcoupled : ∀ u, u ∈ E ↔ g.Coupled phi u) :
    ∃ e ∈ (classify g targets phi .i32 E r).strides, e.phi = phi := by
  have hlen : ¬ (E.length = 1 ∧ !(g.operands phi).contains phi) := by
    rintro ⟨hlen, -⟩
    obtain ⟨u, rfl⟩ := List.length_eq_one_iff.mp hlen
    have hphi := (hcoupled phi).mpr (h.coupled_iff.mpr (.inl rfl))
    have hnext := (hcoupled next).mpr (h.coupled_iff.mpr (.inr rfl))
    exact h.ne ((List.mem_singleton.mp hphi).trans (List.mem_singleton.mp hnext).symm)
  rw [classify, if_neg hlen, sum?_eq_some h hdef hadd hnodup hcoupled]
  exact ⟨_, List.mem_cons_self, rfl⟩

/-! ### Phi after phi -/

/-- What one phi adds to the recurrences found so far. -/
def take (g : UseGraph) (targets : List Temp) (sr : ComponentSearch × Recurrences) (p : Phi) :
    ComponentSearch × Recurrences :=
  let s := ComponentSearch.run g p.target sr.1
  match s.component? p.target with
  | none => (s, sr.2)
  | some elements => (s, classify g targets p.target p.ty elements sr.2)

theorem ofPhis_eq_foldl (g : UseGraph) (phis : List Phi) :
    ofPhis g phis = (phis.foldl (take g (phis.map (·.target))) (.empty, empty)).2 := rfl

variable {targets ts : List Temp} {r : Recurrences} {sr : ComponentSearch × Recurrences} {e : StridePattern}

theorem fst_take : (take g targets sr p).1 = ComponentSearch.run g p.target sr.1 := by
  unfold take
  dsimp only
  split <;> rfl

theorem fst_foldl_take : ∀ (phis : List Phi) (ts : List Temp) (sr : ComponentSearch × Recurrences),
    sr.1 = ComponentSearch.runs g ts →
      (phis.foldl (take g targets) sr).1 = ComponentSearch.runs g (ts ++ phis.map (·.target)) := by
  intro phis
  induction phis with
  | nil => exact fun ts sr h => by simpa using h
  | cons p phis ih =>
    intro ts sr h
    rw [List.foldl_cons, ih (ts ++ [p.target]) _ (by rw [fst_take, h, ComponentSearch.runs_concat])]
    simp

/-- No phi takes a stride away. -/
theorem mem_strides_take (h : e ∈ sr.2.strides) : e ∈ (take g targets sr p).2.strides := by
  unfold take
  dsimp only
  split
  · exact h
  · unfold classify
    split
    · exact h
    · split
      · exact List.mem_cons_of_mem _ h
      · exact h

theorem mem_strides_foldl_take : ∀ {phis : List Phi} {sr : ComponentSearch × Recurrences}, e ∈ sr.2.strides →
    e ∈ (phis.foldl (take g targets) sr).2.strides := by
  intro phis
  induction phis with
  | nil => exact fun h => h
  | cons p phis ih => exact fun h => ih (mem_strides_take h)

/-- The search finds a component for every phi that it comes to. -/
theorem exists_component (ts : List Temp) (t : Temp) : ∃ E,
    (ComponentSearch.run g t (.runs g ts)).component? t = some E ∧ E.Nodup ∧ ∀ u, u ∈ E ↔ g.Coupled t u := by
  obtain ⟨hs, -, hvisited⟩ := ComponentSearch.sound_run (ComponentSearch.sound_runs g ts).1 t
  have hmem := ((hs.visited t).mp hvisited).resolve_left (by simp [hs.stack_eq_nil])
  obtain ⟨E, -, -, hfind⟩ := ComponentSearch.filter_contains_of_nodup (List.nodup_append.mp hs.nodup).2.1 hmem
  have hcomponent : (ComponentSearch.runs g (ts ++ [t])).component? t = some E := by
    rw [ComponentSearch.runs_concat]
    exact hfind
  exact ⟨E, hfind, ComponentSearch.members_of_component? hcomponent⟩

/-- A phi that is declared as a word has a stride, if what advances it reads it alone and nothing else that flows
into it is computed from it. -/
theorem exists_stride (h : g.Advances p.target next)
    (hdef : g.definition? next = some (.arith next op ty lhs rhs))
    (hadd : Induction.addend? p.target op lhs rhs = some c) (hp : p ∈ phis) (hty : p.ty = .i32) :
    ∃ e, (ofPhis g phis).stride? p.target = some e := by
  have key : ∀ targets, ∃ e ∈ (phis.foldl (take g targets) (.empty, empty)).2.strides, e.phi = p.target := by
    intro targets
    obtain ⟨before, after, rfl⟩ := List.append_of_mem hp
    have hsearch : (before.foldl (take g targets) (.empty, empty)).1 = .runs g ([] ++ before.map (·.target)) :=
      fst_foldl_take before [] _ rfl
    rw [List.foldl_append, List.foldl_cons]
    generalize before.foldl (take g targets) (.empty, empty) = sr at hsearch ⊢
    obtain ⟨E, hcomponent, hnodup, hcoupled⟩ := exists_component (g := g) ([] ++ before.map (·.target)) p.target
    obtain ⟨e, he, hphi⟩ := exists_mem_strides_classify h hdef hadd targets sr.2 hnodup hcoupled
    refine ⟨e, mem_strides_foldl_take ?_, hphi⟩
    rw [← hsearch] at hcomponent
    simpa only [take, hcomponent, hty] using he
  obtain ⟨e, he, hphi⟩ := key (phis.map (·.target))
  rw [← ofPhis_eq_foldl] at he
  exact Option.isSome_iff_exists.mp (List.find?_isSome.mpr ⟨e, he, by simpa using hphi⟩)

end Recurrences

/-! ### Counted loops -/

namespace Induction

variable {f : Func} {l : Loop} {i : Induction} {r : BlockRef}

/-- The phi of the variable is declared as a word. -/
def CountsWord (i : Induction) (f : Func) (l : Loop) : Prop :=
  ∀ header, f.linked? l.header = some header → ∀ p ∈ header.phis, p.target = i.indvar → p.ty = .i32

/-- If the loop computes the start of the variable from the variable, the start is local, and so is the variable
where another block than the latch leaves the loop. -/
def StartsLocally (i : Induction) (f : Func) (l : Loop) : Prop :=
  ∀ t, i.start = .temp t → (UseGraph.ofBlocks (l.blocks f f.forest)).DependsOn t i.indvar →
    t.isGlobal = false ∧ (i.exiting = i.latch ∨ i.indvar.isGlobal = false)

/-- The loop does not compute the start of its variable from the variable, unless global temporaries are at work. -/
theorem not_dependsOn_start (hl : l.EnteredFrom f f.forest r) (hi : ofLoop? f f.forest l = some i)
    (hreached : (f.flow false).Reaches r.number) (hlocal : i.StartsLocally f l) (t : Temp) (ht : i.start = .temp t) :
    ¬ (UseGraph.ofBlocks (l.blocks f f.forest)).DependsOn t i.indvar := by
  intro hdep
  obtain ⟨htlocal, hvlocal⟩ := hlocal t ht hdep
  obtain ⟨header, p, -, -, -, -, hheader, hp, -, hstart, -⟩ := definitions_of_induction rfl hl hi
  have headed : l.Headed f header := ⟨hl.verified, hl.mem, hl.not_root, hheader⟩
  obtain ⟨e, hexiting, hid⟩ := exitingBlocks_of_ofLoop? hi
  refine not_dependsOn_of_notMem rfl hl hi
    (start_not_written hl hreached (fun d hd hreached => ?_) hheader hp (ht ▸ hstart) htlocal) hdep
  obtain rfl : d = e := by simpa [hexiting] using hd
  have hdf := (Loop.mem_blocks.mp (List.mem_of_mem_filter hd)).1
  exact headed.header_id ▸ (found_of_ofLoop? hi).dominates_exiting headed hvlocal hdf hid (Func.reached_iff.mpr hreached)

/-- The variable of a counted loop has a stride, and it is the step. -/
theorem exists_stride_eq_step (hl : l.EnteredFrom f f.forest r) (hreached : (f.flow false).Reaches r.number)
    (hi : ofLoop? f f.forest l = some i) (hword : i.CountsWord f l) (hlocal : i.StartsLocally f l) :
    ∃ e, (Recurrences.ofLoop f f.forest l).stride? i.indvar = some e ∧ e.stride = i.step := by
  have hadvances := advances_of_start rfl hl hi (not_dependsOn_start hl hi hreached hlocal)
  obtain ⟨header, p, op, ty, lhs, rhs, hheader, hp, hpt, -, -, -, hdef, hadd⟩ := definitions_of_induction rfl hl hi
  obtain ⟨e, he⟩ := Recurrences.exists_stride (hpt ▸ hadvances) hdef (hpt ▸ hadd) hp (hword header hheader p hp hpt)
  rw [hpt] at he
  have hfound : (Recurrences.ofLoop f f.forest l).stride? i.indvar = some e := by
    rw [Recurrences.ofLoop, hheader]
    exact he
  exact ⟨e, hfound, Recurrences.stride_eq hadvances hdef hadd (List.mem_of_find?_eq_some he)
    (by simpa using List.find?_some he)⟩

/-- A counted loop that is entered from a reached block has a stride pattern for its variable, and its stride is the
step.  So the variable is updated by the step times the number of lanes, and a main loop that is split off is guarded
for the same step. -/
theorem step_eq_stride (hf : f.verify = .ok ()) (hl : l ∈ f.forest.loops) (hr : r ∈ l.outsidePreds f f.forest)
    (hreached : (f.flow false).Reaches r.number) (hi : ofLoop? f f.forest l = some i) (hword : i.CountsWord f l)
    (hlocal : i.StartsLocally f l) :
    (∃ e, (Recurrences.ofLoop f f.forest l).stride? i.indvar = some e ∧ e.stride = i.step) ∧
    (∀ header lanes n updates n', f.linked? l.header = some header →
      Gives (SplitPlan.scaledSteps header.phis (.ofLoop f f.forest l) lanes) n updates n' →
        ∃ u ∈ updates, u.phi = i.indvar ∧ u.step = i.step * lanes) ∧
    ∀ width alignment n plan n' s,
      Gives (SplitPlan.make f f.forest l width alignment (.ofLoop f f.forest l)) n plan n' → plan.kind = .split s →
        ∃ offset vop vend instrs n₁ n₂, fitI32? (i.step * (width - 1)) = some offset ∧
          Gives (SplitPlan.guard i offset) n₁ (vop, vend, instrs) n₂ ∧
          s.Counts i.indvar vop vend (i.step * width) := by
  obtain ⟨q, hq, header, p, hheader, hp, hpt, -⟩ := (found_of_ofLoop? hi).entering
  obtain rfl : r = q := by simpa [hq] using hr
  have hentered : l.EnteredFrom f f.forest r := ⟨hf, rfl, hl, hq⟩
  obtain ⟨e, he, hstride⟩ := exists_stride_eq_step hentered hreached hi hword hlocal
  have hupdate : ∀ {lanes n updates n'},
      Gives (SplitPlan.scaledSteps header.phis (.ofLoop f f.forest l) lanes) n updates n' →
        ∃ u ∈ updates, u.phi = i.indvar ∧ u.step = i.step * lanes := by
    intro lanes n updates n' h
    obtain ⟨u, hu, hphi, hstep⟩ := SplitPlan.exists_update (SplitPlan.updates_of_scaledSteps h) hp (hpt ▸ he)
    exact ⟨u, hu, hphi.trans hpt, by rw [(fitI32?_eq_some hstep).1, hstride]⟩
  refine ⟨⟨e, he, hstride⟩, fun header' lanes n updates n' hheader' h => ?_, fun width alignment n plan n' s h hs => ?_⟩
  · obtain rfl := Option.some.inj (hheader'.symm.trans hheader)
    exact hupdate h
  · obtain ⟨-, a, updates, k, ha, hupdates, hparts⟩ := SplitPlan.found_of_make h hs
    obtain rfl : a.induction = i := Option.some.inj (ha.induction.symm.trans hi)
    obtain rfl : a.header = header := Option.some.inj (ha.header.symm.trans hheader)
    obtain ⟨u, hu, hphi, hstep⟩ := hupdate hupdates
    have hcontains := LoopForest.contains_header hentered.linked.toLinked hl
    obtain ⟨offset, vop, vend, instrs, n₁, n₂, hoffset, -, hguard, -, -, hcounts⟩ :=
      SplitPlan.counts_of_splitParts hf ha hcontains hu hphi
        (SplitPlan.phis_of_updates (SplitPlan.updates_of_scaledSteps hupdates)) hparts
    exact ⟨offset, vop, vend, instrs, n₁, n₂, hoffset, hguard, hstep ▸ hcounts⟩

/-- Counts down from its argument by threes. -/
def descending : Func :=
  let i : Temp := .ofLocal "i" .i32
  let next : Temp := .ofLocal "next" .i32
  let cond : Temp := .ofLocal "cond" .i32
  let n : Temp := .ofLocal "n" .i32
  { total := 3
    name := "descending"
    retTy := .i32
    params := [n]
    blocks := [
      { Block.ofId 0 with succ := [.last 1], jump := some (.jump (.ofBlock 1)) },
      { Block.ofId 1 with
        prev := [.last 0, .last 2]
        succ := [.last 2, .last 3]
        phis := [.ofTarget i [(.temp n, .ofBlock 0), (.temp next, .ofBlock 2)]]
        instrs := [.comp cond .icmp .sgt .i32 (.temp i) (.int 0)]
        jump := some (.branch .i32 (.temp cond) (.ofBlock 2) (.ofBlock 3)) },
      { Block.ofId 2 with
        prev := [.last 1]
        succ := [.last 1]
        instrs := [.arith next .sub .i32 (.temp i) (.int 3)]
        jump := some (.jump (.ofBlock 1)) },
      { Block.ofId 3 with prev := [.last 1], jump := some (.ret (some (.temp i))) }] }

/-- A plan for four lanes of this loop moves on by four steps. -/
theorem step_eq_stride_descending : let f := descending
    ∃ l ∈ f.forest.loops, ∃ i, ofLoop? f f.forest l = some i ∧ i.step = -3 ∧
      (∃ e, (Recurrences.ofLoop f f.forest l).stride? i.indvar = some e ∧ e.stride = i.step) ∧
      ∃ plan n' s vop vend, Gives (SplitPlan.make f f.forest l 4 1 (.ofLoop f f.forest l)) 0 plan n' ∧
        plan.kind = .split s ∧ s.Counts i.indvar vop vend (i.step * 4) := by
  intro f
  have hf : f.verify = .ok () := by decide +kernel
  have h : (f.forest.loops.any fun l => l.outsidePreds f f.forest == [f.entry.ref] &&
      ((ofLoop? f f.forest l).any fun i => i.step == -3 && (i.start.temp?.all fun t => !t.isGlobal) &&
        !i.indvar.isGlobal && (f.linked? l.header).all fun header => header.phis.all fun p => p.ty == .i32) &&
      ((SplitPlan.make f f.forest l 4 1 (.ofLoop f f.forest l)).run.run 0).1.toOption.any SplitPlan.isSplit) = true := by
    decide +kernel
  simp only [List.any_eq_true, List.all_eq_true, Option.any_eq_true, Option.all_eq_true, Bool.and_eq_true, beq_iff_eq,
    Bool.not_eq_true'] at h
  obtain ⟨l, hl, ⟨hr, i, hi, ⟨⟨hstep, hstart⟩, hindvar⟩, hphis⟩, hplan⟩ := h
  obtain ⟨plan, n', hgives, hsplit⟩ :=
    exists_gives_of_any (fun (plan : SplitPlan) _ => plan.isSplit) ((Option.any_eq_true _ _).mpr hplan)
  obtain ⟨s, hs⟩ : ∃ s, plan.kind = .split s := by
    cases hk : plan.kind with
    | inPlace => simp [SplitPlan.isSplit, hk] at hsplit
    | split s => exact ⟨s, rfl⟩
  obtain ⟨hstride, -, hguarded⟩ := step_eq_stride hf hl (hr ▸ List.mem_singleton_self _) (f.reaches_entry (by decide)) hi
    (fun header hheader p hp _ => hphis header hheader p hp)
    fun t ht _ => ⟨hstart t (by rw [ht]; rfl), .inr hindvar⟩
  obtain ⟨-, vop, vend, -, -, -, -, -, hcounts⟩ := hguarded 4 1 0 plan n' s hgives hs
  exact ⟨l, hl, i, hi, hstep, hstride, plan, n', s, vop, vend, hgives, hs, hcounts⟩

/-! ### Where the two differ -/

/-- The phi starts from a global temporary that the loop computes. -/
def restarting : Func :=
  let i : Temp := .ofLocal "i" .i32
  let j : Temp := .ofLocal "j" .i32
  let c : Temp := .ofLocal "c" .i32
  let n : Temp := .ofLocal "n" .i32
  let g : Temp := ⟨"g", true, .i32⟩
  { total := 3
    name := "f"
    retTy := .i32
    params := [n]
    blocks := [
      { Block.ofId 0 with succ := [.last 1], jump := some (.jump (.ofBlock 1)) },
      { Block.ofId 1 with
        prev := [.last 0, .last 2]
        succ := [.last 2, .last 3]
        phis := [.ofTarget i [(.temp g, .ofBlock 0), (.temp j, .ofBlock 2)]]
        instrs := [.comp c .icmp .slt .i32 (.temp i) (.temp n)]
        jump := some (.branch .i32 (.temp c) (.ofBlock 2) (.ofBlock 3)) },
      { Block.ofId 2 with
        prev := [.last 1]
        succ := [.last 1]
        instrs := [.arith g .add .i32 (.temp i) (.int 5), .arith j .add .i32 (.temp i) (.int 1)]
        jump := some (.jump (.ofBlock 1)) },
      { Block.ofId 3 with prev := [.last 1], jump := some (.ret (some (.temp i))) }] }

/-- The phi is global, and a block that is not reached makes the loop include the block that computes its start. -/
def detouring : Func :=
  let i : Temp := ⟨"i", true, .i32⟩
  let j : Temp := .ofLocal "j" .i32
  let s : Temp := .ofLocal "s" .i32
  let c : Temp := .ofLocal "c" .i32
  let n : Temp := .ofLocal "n" .i32
  { total := 7
    name := "f"
    retTy := .void
    params := [n]
    blocks := [
      { Block.ofId 0 with succ := [.last 1], jump := some (.jump (.ofBlock 1)) },
      { Block.ofId 1 with
        prev := [.last 0]
        succ := [.last 2, .last 4]
        instrs := [.arith s .add .i32 (.temp i) (.int 5), .comp c .icmp .slt .i32 (.temp i) (.temp n)]
        jump := some (.branch .i32 (.temp c) (.ofBlock 2) (.ofBlock 4)) },
      { Block.ofId 2 with prev := [.last 1, .last 3], succ := [.last 3], jump := some (.jump (.ofBlock 3)) },
      { Block.ofId 3 with prev := [.last 2, .last 7], succ := [.last 2], jump := some (.jump (.ofBlock 2)) },
      { Block.ofId 4 with prev := [.last 1], succ := [.last 5], jump := some (.jump (.ofBlock 5)) },
      { Block.ofId 5 with
        prev := [.last 4, .last 6]
        succ := [.last 6]
        phis := [.ofTarget i [(.temp s, .ofBlock 4), (.temp j, .ofBlock 6)]]
        jump := some (.jump (.ofBlock 6)) },
      { Block.ofId 6 with
        prev := [.last 5, .last 7]
        succ := [.last 5]
        instrs := [.arith j .add .i32 (.temp i) (.int 1)]
        jump := some (.jump (.ofBlock 5)) },
      { Block.ofId 7 with
        succ := [.last 3, .last 6]
        jump := some (.branch .i32 (.temp n) (.ofBlock 3) (.ofBlock 6)) }] }

/-- The phi is declared as a float, although it holds words. -/
def misdeclaring : Func :=
  let i : Temp := .ofLocal "i" .i32
  let j : Temp := .ofLocal "j" .i32
  let c : Temp := .ofLocal "c" .i32
  let n : Temp := .ofLocal "n" .i32
  { total := 3
    name := "f"
    retTy := .void
    params := [n]
    blocks := [
      { Block.ofId 0 with succ := [.last 1], jump := some (.jump (.ofBlock 1)) },
      { Block.ofId 1 with
        prev := [.last 0, .last 2]
        succ := [.last 2, .last 3]
        phis := [{ Phi.ofTarget i [(.temp n, .ofBlock 0), (.temp j, .ofBlock 2)] with ty := .f32 }]
        instrs := [.comp c .icmp .slt .i32 (.temp i) (.temp n)]
        jump := some (.branch .i32 (.temp c) (.ofBlock 2) (.ofBlock 3)) },
      { Block.ofId 2 with
        prev := [.last 1]
        succ := [.last 1]
        instrs := [.arith j .add .i32 (.temp i) (.int 1)]
        jump := some (.jump (.ofBlock 1)) },
      { Block.ofId 3 with prev := [.last 1], jump := some (.ret none) }] }

/-- A verified function with a counted loop that is entered from a reached block, and whose variable has another
stride than its step, or none. -/
def Differs (f : Func) : Prop :=
  f.verify = .ok () ∧ ∃ l ∈ f.forest.loops, ∃ r ∈ l.outsidePreds f f.forest, (f.flow false).Reaches r.number ∧
    ∃ i, ofLoop? f f.forest l = some i ∧
      ¬ ∃ e, (Recurrences.ofLoop f f.forest l).stride? i.indvar = some e ∧ e.stride = i.step

theorem differs_of_any (hf : f.verify = .ok ()) (h : (f.forest.loops.any fun l =>
    (l.outsidePreds f f.forest).any fun r =>
      (((DomTree.ofFunc f false).region? f.entry.id).getD []).contains r.number &&
      (ofLoop? f f.forest l).any fun i =>
        ((Recurrences.ofLoop f f.forest l).stride? i.indvar).all fun e => e.stride != i.step) = true) : Differs f := by
  simp only [List.any_eq_true, Option.any_eq_true, Option.all_eq_true, Bool.and_eq_true, bne_iff_ne] at h
  obtain ⟨l, hl, r, hr, hreached, i, hi, hall⟩ := h
  refine ⟨hf, l, hl, r, hr, (Func.mem_reachable (Func.wellLinked_of_verify hf).toLinked).mp hreached, i, hi, ?_⟩
  rintro ⟨e, he, hstep⟩
  exact hall e he hstep

/-- Global temporaries may lead what the loop computes from its variable back into it from outside, and then it
counts as part of the recurrence; and of a phi that is not declared as a word no stride is recorded. -/
theorem step_ne_stride : Differs restarting ∧ Differs detouring ∧ Differs misdeclaring :=
  ⟨differs_of_any (by decide +kernel) (by decide +kernel), differs_of_any (by decide +kernel) (by decide +kernel),
    differs_of_any (by decide +kernel) (by decide +kernel)⟩

end Induction

end LoopLanes
