/-
Runs and blocks that are not reached.

Where none of them leads to a block that is reached, the blocks of a function that are not reached are in
no loop.  So no visit copies one or lines one up, and they are not reached afterwards.  A block that is not
reached but leads into a loop counts as one of its blocks, and may be run where the loop is lined up.

* `Work.Tried.insulated`, `Sweep.insulated` — what one visit leaves cut off, and all of them;
* **`Program.not_walkedTo_of_vectorize`** — blocks that are not reached stay so, and none is copied;
* `Program.walkedTo_of_reviving` — a run that makes the copy of such a block print.
-/
import LoopLanes.Proofs.Split.CutOff
import LoopLanes.Proofs.Text.Spelling
import LoopLanes.Proofs.Vectorize.Calls
import LoopLanes.Proofs.Vectorize.Visits
import LoopLanes.Proofs.Widen.CutOff

namespace LoopLanes

variable {f g : Func} {D : Int → Prop} {l : Loop}

namespace Func.Insulated

/-- A loop that is visited has nothing of what is cut off. -/
theorem visited (hf : f.Insulated D) {header : Int} (hl : f.forest.withHeader? header = some l) :
    l.isRoot = false ∧ ¬ D l.header.number := by
  obtain ⟨howner, hheader⟩ := Option.filter_eq_some_iff.mp hl
  obtain ⟨-, hroot, hin, -⟩ := ((LoopForest.nested_ofFunc hf.linked).owner header l).mp howner
  exact ⟨hroot, beq_iff_eq.mp hheader ▸ hf.not_contains hroot hin⟩

theorem not_mem_blocks (hf : f.Insulated D) (hroot : l.isRoot = false) : ∀ b ∈ l.blocks f f.forest, ¬ D b.id :=
  fun _ hb => hf.not_contains hroot (Loop.mem_blocks.mp hb).2

end Func.Insulated

namespace Work

variable {c : Config} {w : Work} {p : SplitPlan} {shapes : List (Temp × LaneShape)} {r : LoopOutcome × Work}

/-- Marking loops writes hints and nothing else. -/
theorem sameOutline_markPrepared {header prepared : Int} (h : markPrepared f header prepared = .ok g) :
    f.SameOutline g := by
  unfold markPrepared at h
  extract_lets src done t at h
  split at h
  swap
  · cases h
  split at h
  swap
  · cases h
  obtain rfl := pure_eq_ok.mp h
  have hannotate : ∀ (f : Func) (l : Loop), f.SameOutline (l.annotate f t done) := by
    intro f l
    refine .foldl (fun f r => .modify f r ?_) _ f
    exact fun _ => rfl
  have hclear : ∀ (f : Func) (l : Loop), f.SameOutline (l.clearAnnotations f t) := by
    intro f l
    refine .foldl (fun f r => .modify f r ?_) _ f
    exact fun _ => rfl
  exact (hannotate f _).trans ((hclear _ _).trans (hannotate _ _))

theorem region_handedOn (f : Func) (main : Loop) (width : Nat) (shapes : List (Temp × LaneShape))
    (uniforms : List Temp) : (handedOn f main width shapes uniforms).region = .ofLoop f f.forest main := by
  have hpin : ∀ {α : Type} (key : α → Temp) (shape : α → LaneShape) (as : List α) (i : LaneInfo),
      (as.foldl (fun i a => i.pin (key a) (shape a)) i).region = i.region := by
    intro α key shape as
    induction as with
    | nil => exact fun _ => rfl
    | cons a as ih => exact fun i => ih (i.pin (key a) (shape a))
  exact (hpin id (fun _ => .uniform) uniforms _).trans (hpin (·.1) (·.2) shapes _)

/-- A plan is carried out beside what is cut off. -/
theorem Carried.insulated (h : Carried c w l p shapes r) (hf : w.func.Insulated D) (hroot : l.isRoot = false)
    (hheader : ¬ D l.header.number) {width alignment : Nat} {rs : Recurrences} {n n' : TempCounter}
    (hplan : Gives (SplitPlan.make w.func w.func.forest l width alignment rs) n p n') : r.2.func.Insulated D := by
  cases h with
  | prepared _ hcommit hmark =>
    have hcommitted := SplitPlan.insulated_commit hf hplan (hf.not_mem_blocks hroot) hcommit
    exact hcommitted.of_sameOutline (sameOutline_markPrepared hmark)
  | @vectorized x _ g _ _ _ hcommit hmark hline hwiden _ =>
    have hcommitted := SplitPlan.insulated_commit hf hplan (hf.not_mem_blocks hroot) hcommit
    have hmarked := hcommitted.of_sameOutline (sameOutline_markPrepared hmark)
    -- the main loop, as far as there is one
    have hmain : ∀ main, (g.forest.withHeader? x.header).getD l = main →
        main.isRoot = false ∧ ¬ D main.header.number := by
      intro main e
      cases hfound : g.forest.withHeader? x.header with
      | none =>
        rw [hfound, Option.getD_none] at e
        exact e ▸ ⟨hroot, hheader⟩
      | some m =>
        rw [hfound, Option.getD_some] at e
        exact e ▸ hmarked.visited hfound
    obtain ⟨hmainRoot, hmainHeader⟩ := hmain _ rfl
    refine LaneInfo.insulated_lower hmarked ?_ ?_ hline hwiden
    · rw [region_handedOn]
      exact List.forall_mem_map.mpr (hmarked.not_mem_blocks hmainRoot)
    · rw [region_handedOn]
      exact hmainHeader

/-- A loop is tried beside what is cut off. -/
theorem Tried.insulated (h : Tried c w w.func.forest l r) (hf : w.func.Insulated D) {header : Int}
    (hl : w.func.forest.withHeader? header = some l) : r.2.func.Insulated D := by
  cases h with
  | skipped _ => exact hf
  | carried _ _ hplan hcarried =>
    obtain ⟨hroot, hheader⟩ := hf.visited hl
    exact hcarried.insulated hf hroot hheader hplan

end Work

/-- The number that the copy of a block gets where a loop is split. -/
def SplitPlan.copyOf? (p : SplitPlan) (v : Int) : Option Int :=
  match p.kind with
  | .split s => s.clone.block? v
  | .inPlace .. => none

/-- A visit copies a block: it changes its loop, and the plan has a copy of the block. -/
def Visit.Copies (v : Visit) (u k : Int) : Prop := v.outcome.isChanged = true ∧
  ∃ l width p n, v.before.func.forest.withHeader? v.header = some l ∧
    Gives (SplitPlan.make v.before.func v.before.func.forest l width
      (l.tripAlignment v.before.func v.before.func.forest) (.ofLoop v.before.func v.before.func.forest l))
      v.before.temps p n ∧ p.copyOf? u = some k

/-- What a visit copies belongs to the loop that it splits. -/
theorem Visit.Copies.not_cutOff {v : Visit} {u k : Int} (hf : v.before.func.Insulated D) (h : v.Copies u k) :
    ¬ D u := by
  obtain ⟨-, l, width, p, n, hl, hplan, hcopy⟩ := h
  unfold SplitPlan.copyOf? at hcopy
  split at hcopy
  · rename_i s hk
    obtain ⟨-, a, updates, m, -, -, hparts⟩ := SplitPlan.found_of_make hplan hk
    have hnodup : ((l.blocks v.before.func v.before.func.forest).map Block.id).Nodup :=
      hf.distinct.sublist (List.filter_sublist.map _)
    obtain ⟨x, hx⟩ := SplitPlan.staged_of_splitParts hnodup hparts
    rw [hx.clone] at hcopy
    obtain ⟨b, hb, rfl⟩ := hx.exists_original hcopy
    exact hf.not_mem_blocks (hf.visited hl).1 b hb
  · cases hcopy

/-- Visits beside what is cut off. -/
theorem Sweep.insulated {w w' : Work} {s s' : RunState} {vs : List Visit} (h : Sweep w s vs w' s')
    (hf : w.func.Insulated D) : w'.func.Insulated D ∧ ∀ v ∈ vs, v.before.func.Insulated D := by
  induction h with
  | done => exact ⟨hf, by simp⟩
  | visit hl hv _ ih =>
    have htried := (Work.tells_visitLoop _ _ _ _ _ _ rfl hv).1.insulated hf hl
    obtain ⟨hleft, hvs⟩ := ih htried
    exact ⟨hleft, List.forall_mem_cons.mpr ⟨hf, hvs⟩⟩

/-- Each function of a run has its visits. -/
theorem Sweeps.forall₂_funcs {fs fs' : List Func} {n n' : TempCounter} {s s' : RunState} {vs : List Visit}
    (h : Sweeps fs n s vs fs' n' s') :
    List.Forall₂ (fun f g => ∃ m t us n' t', Sweep ⟨f, m⟩ t us ⟨g, n'⟩ t') fs fs' := by
  induction h with
  | done => exact .nil
  | func hf _ ih => exact .cons ⟨_, _, _, _, _, hf⟩ ih

theorem Sweeps.exists_sweep {n n' : TempCounter} {s s' : RunState} {vs : List Visit}
    (h : Sweeps [f] n s vs [g] n' s') : ∃ t m t', Sweep ⟨f, n⟩ t vs ⟨g, m⟩ t' := by
  cases h with
  | func hsweep hrest =>
    cases hrest
    rw [List.append_nil]
    exact ⟨_, _, _, hsweep⟩

namespace Program

/-- Whatever the settings, where verified functions are vectorized, blocks that are not reached before are
not reached afterwards, and no visit copies one, as long as none of them leads to one that is reached. -/
theorem not_walkedTo_of_vectorize {p q : Program} {s s' : RunState} {changed : Bool}
    (hp : ∀ f ∈ p.funcs, f.verify = .ok () ∧ f.Enclosed ∧ ∀ b ∈ f.blocks, b.id ≤ f.total)
    (h : Gives p.vectorize s (changed, q) s') :
    List.Forall₂ (fun f g => ∃ n t vs n' t', Sweep ⟨f, n⟩ t vs ⟨g, n'⟩ t' ∧
      ∀ b ∈ f.blocks, ¬ f.WalkedTo b.id → ¬ g.WalkedTo b.id ∧ ∀ v ∈ vs, ∀ k, ¬ v.Copies b.id k)
      p.funcs q.funcs := by
  have hsweeps : List.Forall₂ (fun f g => ∃ n t vs n' t', Sweep ⟨f, n⟩ t vs ⟨g, n'⟩ t') p.funcs q.funcs := by
    rcases sweeps_of_vectorize h with ⟨-, rfl, -⟩ | ⟨-, vs, hvs, -⟩
    · exact List.forall₂_same.mpr fun f _ => ⟨0, s, [], 0, s, .done _ _⟩
    · exact hvs.forall₂_funcs
  refine ((List.forall₂_and_left _ _).mpr ⟨hp, hsweeps⟩).imp ?_
  rintro f g ⟨⟨hverify, henclosed, htotal⟩, n, t, vs, n', t', hsweep⟩
  have hf := Func.insulated_of_verify hverify henclosed htotal
  obtain ⟨hg, hvs⟩ := hsweep.insulated (w := ⟨f, n⟩) hf
  refine ⟨n, t, vs, n', t', hsweep, fun b hb hno => ?_⟩
  have hdead : f.IsDead b.id := ⟨b, hb, rfl, hno⟩
  exact ⟨hg.not_walkedTo hdead, fun v hv k hcopy => hcopy.not_cutOff (hvs v hv) hdead⟩

end Program

/-- A loop with a varying branch, and a block that nothing leads to and that goes on to `target`. -/
def straying (target : String) : String :=
  "define void @f(i32 %n) \x7b\n" ++
  "entry:\n  br label %B1\n" ++
  "B1:\n  %i = phi i32 [0, %entry], [%j, %B3]\n" ++
  "  %c = icmp slt i32 %i, %n\n  br i32 %c, label %B2, label %B4\n" ++
  "B2:\n  br i32 %i, label %B5, label %B3\n" ++
  "B3:\n  %j = add i32 %i, 1\n" ++
  "  br label %B1, !loop \x7bllvm.loop.vectorize.enable = 1, llvm.loop.parallel_accesses\x7d\n" ++
  "B4:\n  ret void\nB5:\n  br label %B3\n" ++
  "B6:\n  call void @putint(i32 7)\n  br label %" ++ target ++ "\n\x7d\n"

namespace Program

/-- Whether the functions are verified, no block is reached from one that is not, and the block `dead` of
each is not reached. -/
def isEnclosed (p : Program) (dead : Int) : Bool :=
  p.funcs.all fun f => decide (f.verify = .ok ()) && decide (∀ b ∈ f.blocks, b.id ≤ f.total) &&
    decide (∀ b ∈ f.blocks, ∀ r ∈ b.succ, f.isReached r.number = true → f.isReached b.id = true) &&
    decide (∃ b ∈ f.blocks, b.id = dead) && !f.isReached dead

set_option maxRecDepth 100000 in
/-- The block that is not reached goes on to itself alone. -/
theorem not_walkedTo_of_staying : ∃ p q s', parse (straying "B6") = .ok p ∧
    (∀ f ∈ p.funcs, f.verify = .ok () ∧ f.Enclosed ∧ ∀ b ∈ f.blocks, b.id ≤ f.total) ∧
    (∀ f ∈ p.funcs, (∃ b ∈ f.blocks, b.id = 6) ∧ ¬ f.WalkedTo 6) ∧
    Gives p.vectorize (.ofConfig { Config.standard with forceWidth := some 2 }) (true, q) s' ∧
    q.funcs ≠ [] ∧ ∀ g ∈ q.funcs, ¬ g.WalkedTo 6 := by
  obtain ⟨p, hp, h⟩ := exists_of_chars (s := straying "B6") (P := fun p => p.isEnclosed 6 &&
    (p.vectorize.run.run (.ofConfig { Config.standard with forceWidth := some 2 })).1.toOption.any
      fun r => r.1 && !r.2.funcs.isEmpty)
    (by
      unfold straying
      repeat apply toList_append_of String.toList_ofList
      exact String.toList_ofList) (by decide +kernel)
  obtain ⟨hfuncs, h⟩ := Bool.and_eq_true_iff.mp h
  obtain ⟨⟨changed, q⟩, s', hgives, h⟩ := exists_gives_of_any (fun (r : Bool × Program) _ => r.1 && !r.2.funcs.isEmpty) h
  simp only [isEnclosed, Bool.and_eq_true, Bool.not_eq_true', List.isEmpty_eq_false_iff, List.all_eq_true,
    decide_eq_true_eq] at h hfuncs
  obtain ⟨rfl, hne⟩ := h
  have hlinked : ∀ f ∈ p.funcs, f.Linked := fun f hf => (Func.wellLinked_of_verify (hfuncs f hf).1.1.1.1).toLinked
  have hverified : ∀ f ∈ p.funcs, f.verify = .ok () ∧ f.Enclosed ∧ ∀ b ∈ f.blocks, b.id ≤ f.total := by
    intro f hf
    obtain ⟨⟨⟨⟨hverify, htotal⟩, henclosed⟩, -⟩, -⟩ := hfuncs f hf
    exact ⟨hverify, (Func.enclosed_iff (hlinked f hf)).mpr henclosed, htotal⟩
  have hdead : ∀ f ∈ p.funcs, (∃ b ∈ f.blocks, b.id = 6) ∧ ¬ f.WalkedTo 6 := by
    intro f hf
    obtain ⟨⟨-, hblock⟩, hno⟩ := hfuncs f hf
    exact ⟨hblock, fun hw => by simp [(Func.isReached_iff (hlinked f hf)).mpr hw] at hno⟩
  refine ⟨p, q, s', hp, hverified, hdead, hgives, hne, fun g hg => ?_⟩
  obtain ⟨f, hf, hfg⟩ := exists_of_forall₂ ((List.forall₂_and_left _ _).mpr
    ⟨hdead, not_walkedTo_of_vectorize hverified hgives⟩) g hg
  obtain ⟨⟨⟨b, hb, hid⟩, hno⟩, _, _, _, _, _, -, hkept⟩ := hfg
  exact hid ▸ (hkept b hb (hid.symm ▸ hno)).1

/-- Whether the function of `q` goes on to a copy of the block `dead`, which the function of `p` does not go
on to: the copy that is planned for the loop of block 1.  Both functions are to be verified. -/
def revives (p q : Program) (dead : Int) : Bool :=
  match p.funcs, q.funcs with
  | [f], [g] => decide (f.verify = .ok ()) && decide (g.verify = .ok ()) && !f.isReached dead &&
      (f.forest.withHeader? 1).any fun l =>
        ((SplitPlan.make f f.forest l 2 (l.tripAlignment f f.forest)
          (.ofLoop f f.forest l)).run.run p.temps).1.toOption.any fun plan =>
            (plan.copyOf? dead).any g.isReached
  | _, _ => false

theorem exists_of_revives {p q : Program} {dead : Int} (h : p.revives q dead = true) :
    ∃ f g l plan m k, p.funcs = [f] ∧ q.funcs = [g] ∧ f.verify = .ok () ∧ g.verify = .ok () ∧
      f.isReached dead = false ∧ f.forest.withHeader? 1 = some l ∧
      Gives (SplitPlan.make f f.forest l 2 (l.tripAlignment f f.forest) (.ofLoop f f.forest l)) p.temps plan m ∧
      plan.copyOf? dead = some k ∧ g.isReached k = true := by
  unfold revives at h
  split at h
  case h_2 => cases h
  rename_i f g hpf hqg
  simp only [Bool.and_eq_true, Bool.not_eq_true', Option.any_eq_true, decide_eq_true_eq] at h
  obtain ⟨⟨⟨hf, hg⟩, hdead⟩, l, hl, plan, hplan, k, hk, hreached⟩ := h
  exact ⟨f, g, l, plan, _, k, hpf, hqg, hf, hg, hdead, hl, Prod.ext (toOption_eq_some.mp hplan) rfl, hk, hreached⟩

/-- Whether a run on `p` vectorizes one loop and no other, brings a copy of block 6 to life and lets it
print. -/
def isStrayed (p : Program) (r : Bool × Program) (s : RunState) : Bool :=
  r.1 && decide (s.outcomes = [("f", .ofBlock 1, .vectorized 2)]) && p.revives r.2 6 &&
    p.lines? "f" [.int 3] == some [] && r.2.lines? "f" [.int 3] == some ["7", "7"]

set_option maxRecDepth 100000 in
/-- The block that is not reached goes on into the loop: its copy is reached in vector code, and prints. -/
theorem walkedTo_of_straying : ∃ p q s' f g, parse (straying "B3") = .ok p ∧
    Gives p.vectorize (.ofConfig { Config.standard with forceWidth := some 2 }) (true, q) s' ∧
    p.funcs = [f] ∧ q.funcs = [g] ∧ f.verify = .ok () ∧ ¬ f.WalkedTo 6 ∧
    (∃ n t v n' t' k, Sweep ⟨f, n⟩ t [v] ⟨g, n'⟩ t' ∧ v.Copies 6 k ∧ g.WalkedTo k) ∧
    p.lines? "f" [.int 3] = some [] ∧ q.lines? "f" [.int 3] = some ["7", "7"] := by
  obtain ⟨p, hp, h⟩ := exists_of_chars (s := straying "B3") (P := fun p =>
    (p.vectorize.run.run (.ofConfig { Config.standard with forceWidth := some 2 })).1.toOption.any (p.isStrayed ·
      (p.vectorize.run.run (.ofConfig { Config.standard with forceWidth := some 2 })).2))
    (by
      unfold straying
      repeat apply toList_append_of String.toList_ofList
      exact String.toList_ofList) (by decide +kernel)
  obtain ⟨⟨changed, q⟩, s', hgives, h⟩ := exists_gives_of_any p.isStrayed h
  simp only [isStrayed, Bool.and_eq_true, beq_iff_eq, decide_eq_true_eq] at h
  obtain ⟨⟨⟨⟨rfl, houtcomes⟩, hcopied⟩, hbefore⟩, hafter⟩ := h
  obtain ⟨f, g, l, plan, m, k, hpf, hqg, hf, hg, hdead, hl, hplan, hk, hreached⟩ := exists_of_revives hcopied
  refine ⟨p, q, s', f, g, hp, hgives, hpf, hqg, hf, fun hw => ?_, ?_, hbefore, hafter⟩
  · rw [(Func.isReached_iff (Func.wellLinked_of_verify hf).toLinked).mpr hw] at hdead
    cases hdead
  · -- the run is a single visit, of the loop that was looked at
    obtain ⟨-, vs, hvs, -⟩ := (sweeps_of_vectorize hgives).resolve_left fun h => Bool.noConfusion h.1
    have hentries := hvs.outcomes
    rw [houtcomes] at hentries
    rw [hpf, hqg] at hvs
    obtain ⟨t, n', t', hsweep⟩ := hvs.exists_sweep
    obtain ⟨v, rfl, hentry⟩ := List.map_eq_singleton_iff.mp hentries.symm
    cases hsweep with
    | visit hfound hvisit hrest =>
      obtain ⟨-, hentry⟩ := Prod.mk.inj hentry
      obtain ⟨hheader, rfl⟩ := Prod.mk.inj hentry
      obtain rfl := Label.ofBlock_injective hheader
      exact ⟨_, t, _, n', t', k, .visit hfound hvisit hrest, ⟨rfl, l, 2, plan, m, hl, hplan, hk⟩,
        (Func.isReached_iff (Func.wellLinked_of_verify hg).toLinked).mp hreached⟩

end Program

end LoopLanes
