/-
A run as a chain of visits.

A run tries loops one after the other.  Every try is a `Visit`: the function and the counter it was
made on, the loop's header, what became of the loop, and the function and the counter it left.  Each
visit starts from what the one before it left (`Sweep` in one function, `Sweeps` over all of them),
and the run answers one outcome for each.

* `Planning.Advances` — names are only ever taken, also where no plan comes of it;
* `Work.tells_visitLoop` — all that a visit may leave (`Work.Tried`);
* `Work.Tried.spares` — a loop that is left alone leaves the function alone: every reason to leave a
  loop alone is found before the function is first written to;
* **`Program.visits_of_vectorize`** — a run is a chain of visits, of which the skipped ones change
  nothing but the counter, and it answers `true` exactly where one of them is not skipped.
-/
import LoopLanes.Proofs.Basic.Success
import LoopLanes.Proofs.Split.Copies
import LoopLanes.Vectorize.Pass

namespace LoopLanes

variable {α β : Type}

/-! ### Names that are taken -/

namespace Planning

/-- A plan in the making never gives a name back, whether it succeeds or not. -/
def Advances (x : Planning α) : Prop := ∀ n : TempCounter, n ≤ (x.run.run n).2

theorem advances_pure (a : α) : Advances (pure a) := fun _ => Nat.le_refl _

theorem advances_throw (e : UnsupportedLoop) : Advances (throw e : Planning α) :=
  fun _ => Nat.le_refl _

theorem advances_mk_pure (r : Except UnsupportedLoop α) : Advances (ExceptT.mk (pure r)) :=
  fun _ => Nat.le_refl _

theorem advances_require (e : UnsupportedLoop) (o : Option α) : Advances (require e o) := by
  cases o with
  | none => exact advances_throw e
  | some a => exact advances_pure a

theorem advances_fresh (ty : Ty) : Advances (fresh ty) := fun n => Nat.le_succ n

theorem advances_modifyGet {g : TempCounter → α × TempCounter} (hg : ∀ n, n ≤ (g n).2) :
    Advances (modifyGet g : Planning α) := hg

theorem Advances.bind {x : Planning α} {g : α → Planning β} (hx : Advances x)
    (hg : ∀ a, Advances (g a)) : Advances (x >>= g) := by
  intro n
  show n ≤ ((ExceptT.bindCont g (x.run.run n).1).run (x.run.run n).2).2
  refine Nat.le_trans (hx n) ?_
  cases (x.run.run n).1 with
  | error e => exact Nat.le_refl _
  | ok a => exact hg a _

theorem advances_mapM {g : α → Planning β} (hg : ∀ a, Advances (g a)) :
    ∀ as : List α, Advances (as.mapM g) := by
  intro as
  induction as with
  | nil => exact advances_pure []
  | cons a as ih =>
    rw [List.mapM_cons]
    exact (hg a).bind fun _ => ih.bind fun _ => advances_pure _

end Planning

namespace SplitPlan

open Planning

theorem advances_guard (i : Induction) (offset : Int) : Advances (guard i offset) := by
  unfold guard
  split
  · exact (advances_require _ _).bind fun _ => advances_pure _
  · refine (advances_require _ _).bind fun b => Advances.bind ?_ fun _ => advances_pure _
    exact (advances_fresh _).bind fun _ => (advances_fresh _).bind fun _ =>
      (advances_fresh _).bind fun _ => advances_pure _

theorem advances_scaledSteps (phis : List Phi) (r : Recurrences) (lanes : Int) :
    Advances (scaledSteps phis r lanes) :=
  advances_mapM (fun _ => (advances_require _ _).bind fun _ =>
    (advances_fresh _).bind fun _ => advances_pure _) _

theorem advances_splitParts (f : Func) (t : LoopForest) (l : Loop) (a : LoopAnatomy) (lanes : Int)
    (updates : List StrideUpdate) : Advances (splitParts f t l a lanes updates) := by
  unfold splitParts
  refine (advances_require _ _).bind fun offset => (advances_guard _ _).bind ?_
  rintro ⟨op, bound, instrs⟩
  refine Advances.bind ?_ fun clone => ?_
  · exact advances_modifyGet fun n => LoopClone.le_freshTemps _ n
  exact (advances_require _ _).bind fun header => (advances_require _ _).bind fun latch =>
    (advances_require _ _).bind fun body => (advances_fresh _).bind fun cond => advances_pure _

/-- Planning only takes names, also where it fails. -/
theorem advances_make (f : Func) (t : LoopForest) (l : Loop) (width alignment : Nat)
    (r : Recurrences) : Advances (make f t l width alignment r) := by
  unfold make
  refine (advances_mk_pure _).bind fun a => (advances_require _ _).bind fun lanes =>
    (advances_scaledSteps _ _ _).bind fun updates => ?_
  split
  · exact advances_pure _
  · exact (advances_splitParts _ _ _ _ _ _).bind fun _ => advances_pure _

end SplitPlan

/-! ### Parts of a run -/

namespace Pass

variable {c : Config} {P : α → Prop} {Q : β → Prop}

/-- A part of a run that does no more than to tell something, and whose results are as `P` says under the
settings `c`. -/
def Tells (c : Config) (P : α → Prop) (x : Pass α) : Prop := ∀ s a s', s.config = c → Gives x s a s' →
  P a ∧ ∃ es announced, s' = { s with events := s.events ++ es, announced := announced }

/-- A part of a run that does no more than to tell something. -/
abbrev OnlyTells (c : Config) (x : Pass α) : Prop := Tells c (fun _ => True) x

theorem Tells.outcomes {x : Pass α} {s s' : RunState} {a : α} (hx : Tells s.config P x)
    (h : Gives x s a s') : s'.outcomes = s.outcomes := by
  obtain ⟨-, es, b, rfl⟩ := hx s a s' rfl h
  rfl

theorem gives_get {s s' a : RunState} : Gives (get : Pass RunState) s a s' ↔ s = a ∧ s = s' := by
  change (Except.ok s, s) = (Except.ok a, s') ↔ _
  rw [Prod.mk.injEq, Except.ok.injEq]

theorem gives_modify {g : RunState → RunState} {s s' : RunState} :
    Gives (modify g : Pass Unit) s () s' ↔ g s = s' := by
  rw [modify, gives_modifyGet, Prod.mk.injEq]
  exact ⟨fun h => h.2, fun h => ⟨rfl, h⟩⟩

theorem tells_pure {a : α} (ha : P a) : Tells c P (pure a) := by
  intro s b s' _ h
  obtain ⟨rfl, rfl⟩ := gives_pure.mp h
  exact ⟨ha, [], s.announced, by simp⟩

theorem tells_throw (e : PassError) : Tells c P (throw e) :=
  fun _ _ _ _ h => absurd h not_gives_throw

theorem tells_mk_pure (r : Except PassError α) : Tells c (fun a => r = .ok a) (ExceptT.mk (pure r)) := by
  intro s b s' _ h
  obtain ⟨hr, rfl⟩ := gives_mk_pure.mp h
  exact ⟨hr, [], s.announced, by simp⟩

theorem tells_get : Tells c (fun s => s.config = c) get := by
  intro s a s' hc h
  obtain ⟨rfl, rfl⟩ := gives_get.mp h
  exact ⟨hc, [], s.announced, by simp⟩

theorem tells_announce : OnlyTells c (modify fun s => { s with announced := true }) := by
  intro s a s' _ h
  obtain rfl := gives_modify.mp h
  exact ⟨trivial, [], true, by simp⟩

theorem Tells.bind {x : Pass α} {g : α → Pass β} (hx : Tells c P x)
    (hg : ∀ a, P a → Tells c Q (g a)) : Tells c Q (x >>= g) := by
  intro s b s' hc h
  obtain ⟨a, r, ha, hb⟩ := gives_bind.mp h
  obtain ⟨hP, es, _, rfl⟩ := hx s a r hc ha
  obtain ⟨hQ, es', announced, rfl⟩ := hg a hP { s with events := s.events ++ es, announced := _ } b s' hc hb
  exact ⟨hQ, es ++ es', announced, by simp⟩

theorem tells_ite {p : Prop} [Decidable p] {x y : Pass α} (hx : Tells c P x) (hy : Tells c P y) :
    Tells c P (if p then x else y) := by
  split
  · exact hx
  · exact hy

theorem tells_tell (e : Event) : OnlyTells c (tell e) := by
  intro s a s' _ h
  obtain rfl := gives_modify.mp h
  exact ⟨trivial, [e], s.announced, rfl⟩

theorem tells_log (level : LogLevel) (text : String) : OnlyTells c (log level text) := tells_tell _

theorem tells_diag (text : String) : OnlyTells c (diag text) :=
  tells_get.bind fun _ _ => tells_ite (tells_tell _) (tells_pure trivial)

theorem tells_report (text : String) : OnlyTells c (report text) :=
  tells_get.bind fun _ _ => tells_ite (tells_tell _) (tells_log _ _)

/-- More than one lane is taken. -/
theorem tells_selectWidth (g : GateResult) (f : Func) (r : Region) :
    Tells c (fun o => ∀ width, o = .ok width → 1 < width) (selectWidth g f r) := by
  have hrefused : ∀ e, Tells c (fun o => ∀ width, o = .ok width → 1 < width)
      (pure (.error e) : Pass (Except SkipReason Nat)) := fun _ => tells_pure nofun
  have htaken : ∀ {w}, ¬ w ≤ 1 → Tells c (fun o => ∀ width, o = .ok width → 1 < width)
      (pure (.ok w) : Pass (Except SkipReason Nat)) := fun h => tells_pure fun _ e => by
    obtain rfl := Except.ok.inj e
    exact Nat.lt_of_not_le h
  unfold selectWidth
  refine tells_get.bind fun s _ => ?_
  extract_lets refined noted choose
  have hchoose : ∀ fixed, True → Tells c (fun o => ∀ width, o = .ok width → 1 < width) (choose fixed) := by
    rintro fixed -
    unfold choose
    cases fixed with
    | some w =>
      dsimp only
      split
      · exact hrefused _
      · exact tells_ite (hrefused _) (htaken ‹_›)
    | none =>
      dsimp only
      split
      · exact hrefused _
      · exact tells_ite ((tells_diag _).bind fun _ _ => htaken ‹_›) (htaken ‹_›)
  split
  · exact (tells_report _).bind fun _ _ => (tells_pure trivial).bind hchoose
  · exact (tells_pure trivial).bind hchoose
  · exact (tells_diag _).bind fun _ _ => (tells_pure trivial).bind hchoose
  · exact (tells_pure trivial).bind hchoose

theorem tells_headerShapes (r : Recurrences) : ∀ ps, OnlyTells c (headerShapes r ps) := by
  intro ps
  induction ps with
  | nil => exact tells_pure trivial
  | cons p ps ih =>
    unfold headerShapes
    split
    · exact tells_pure trivial
    · -- either way the other phis follow, and their outcome is handed on
      refine tells_ite ((tells_log _ _).bind fun _ _ => ih.bind fun o _ => ?_) (ih.bind fun o _ => ?_)
      all_goals
        cases o with
        | error e => exact tells_pure trivial
        | ok rest => exact tells_pure trivial

end Pass

namespace Work

open Pass

variable {c : Config} {w w' : Work} {t : LoopForest} {l : Loop}

theorem tells_logPlan (l : Loop) (p : SplitPlan) : OnlyTells c (logPlan l p) := by
  unfold logPlan
  split
  · exact tells_log _ _
  · split
    · exact tells_log _ _
    · exact tells_pure trivial

theorem tells_lower (w : Work) (loop : Label) (i : LaneInfo) : Tells c (fun w' => ∃ lowered : Lowering,
    (Lowering.analyze w.func w.temps i).lineUp = .ok lowered ∧ lowered.widen = .ok (w'.func, w'.temps))
      (lower w loop i) := by
  unfold lower
  extract_lets orFail a widen header shown
  have horFail : ∀ {α : Type} (r : Except WidenError α), Tells c (fun a => r = .ok a) (orFail r) := by
    intro α r
    cases r with
    | ok a => exact tells_pure rfl
    | error e => exact tells_throw _
  have hwiden : Tells c (fun w' : Work => ∃ lowered : Lowering,
      a.lineUp = .ok lowered ∧ lowered.widen = .ok (w'.func, w'.temps)) (widen ()) :=
    (horFail _).bind fun lowered hline => (horFail _).bind fun _ hlast => tells_pure ⟨lowered, hline, hlast⟩
  exact tells_ite ((tells_log _ _).bind fun _ _ => hwiden) hwiden

/-- A main loop with what is known of its values before they are looked at. -/
def handedOn (f : Func) (main : Loop) (width : Nat) (shapes : List (Temp × LaneShape)) (uniforms : List Temp) :
    LaneInfo :=
  uniforms.foldl (fun i u => i.pin u .uniform)
    (shapes.foldl (fun i e => i.pin e.1 e.2) (.ofRegion f width (.ofLoop f f.forest main)))

/-- What is left where a plan is carried out: a prepared function, or vector code in addition. -/
inductive Carried (c : Config) (w : Work) (l : Loop) (p : SplitPlan) (shapes : List (Temp × LaneShape)) :
    LoopOutcome × Work → Prop
  | prepared {x : PreparedLoop} {f g : Func} (hemit : c.emitPrepared = true) (hcommit : p.commit w.func = .ok (x, f))
      (hmark : markPrepared f l.header.number x.header = .ok g) :
      Carried c w l p shapes (.prepared p.width, ⟨g, w.temps⟩)
  | vectorized {x : PreparedLoop} {f g : Func} {lowered : Lowering} {w' : Work}
      (hemit : c.emitPrepared = false) (hcommit : p.commit w.func = .ok (x, f)) (hmark : markPrepared f l.header.number x.header = .ok g)
      (hline : (Lowering.analyze g w.temps (handedOn g ((g.forest.withHeader? x.header).getD l) p.width shapes
        x.uniforms)).lineUp = .ok lowered)
      (hwiden : lowered.widen = .ok (w'.func, w'.temps)) (hsound : w'.func.flaw? = none) :
      Carried c w l p shapes (.vectorized p.width, w')

theorem tells_transform (w : Work) (l : Loop) (p : SplitPlan) (shapes : List (Temp × LaneShape)) :
    Tells c (Carried c w l p shapes) (transform w l p shapes) := by
  unfold transform
  extract_lets name carryOut
  have hcarryOut : ∀ r, p.commit w.func = .ok r → Tells c (Carried c w l p shapes) (carryOut r) := by
    rintro ⟨prepared, f⟩ hcommit
    refine (tells_mk_pure _).bind fun f hmark => tells_get.bind fun s hs => ?_
    extract_lets t main info pinned uniform lowered
    have hlowered : ∀ u, Tells c (Carried c w l p shapes) (lowered u) := by
      intro u
      unfold lowered
      split
      · rename_i hemit
        exact tells_pure (.prepared (hs ▸ hemit) hcommit hmark)
      rename_i hemit
      rw [Bool.not_eq_true, hs] at hemit
      refine (tells_lower _ _ _).bind ?_
      rintro w' ⟨_, hline, hwiden⟩
      dsimp only
      split
      · exact (tells_throw _).bind fun _ h => absurd h not_false
      · rename_i hsound
        have hsound := Option.eq_none_iff_forall_ne_some.mpr hsound
        exact (tells_log _ _).bind fun _ _ => tells_pure (.vectorized hemit hcommit hmark hline hwiden hsound)
    exact tells_ite ((tells_report _).bind fun _ _ => tells_announce.bind fun _ _ => hlowered ())
      (hlowered ())
  split
  · exact (tells_throw _).bind hcarryOut
  · rename_i hcommit
    exact (tells_pure (P := fun r => p.commit w.func = .ok r) hcommit).bind hcarryOut

/-- What is left of a try: the function as it was, or what its plan makes of it. -/
inductive Tried (c : Config) (w : Work) (t : LoopForest) (l : Loop) : LoopOutcome × Work → Prop
  | skipped {reason : SkipReason} {n : TempCounter} (hn : w.temps ≤ n) :
      Tried c w t l (.skipped reason, ⟨w.func, n⟩)
  | carried {g : GateResult} {width : Nat} {p : SplitPlan} {n : TempCounter} {shapes : List (Temp × LaneShape)}
      {r : LoopOutcome × Work} (hgate : l.gate w.func t = .ok g) (hwidth : 1 < width)
      (hplan : Gives (SplitPlan.make w.func t l width (l.tripAlignment w.func t) (.ofLoop w.func t l)) w.temps p n)
      (hcarried : Carried c ⟨w.func, n⟩ l p shapes r) : Tried c w t l r

/-- What a visit may leave: a loop that is not changed leaves the function alone. -/
def Spares (w : Work) (r : LoopOutcome × Work) : Prop :=
  r.1.isChanged = false → r.2.func = w.func ∧ w.temps ≤ r.2.temps

/-- Every reason to leave a loop alone is found before the function is written to. -/
theorem Tried.spares {r : LoopOutcome × Work} (h : Tried c w t l r) : Spares w r := by
  intro hunchanged
  cases h with
  | skipped hn => exact ⟨rfl, hn⟩
  | carried _ _ _ hcarried =>
    cases hcarried with
    | prepared => cases hunchanged
    | vectorized => cases hunchanged

theorem tells_skip {n : TempCounter} (hn : w.temps ≤ n) (l : Loop) (reason : SkipReason) :
    Tells c (Tried c w t l) (skip { w with temps := n } l reason) :=
  (tells_diag _).bind fun _ _ => tells_pure (.skipped hn)

/-- A try is skipped, or a plan is carried out. -/
theorem tells_visitLoop (w : Work) (t : LoopForest) (l : Loop) : Tells c (Tried c w t l) (visitLoop w t l) := by
  unfold visitLoop
  refine (tells_log _ _).bind fun _ _ => ?_
  split
  · exact tells_skip (Nat.le_refl _) _ _
  rename_i hgate
  refine (tells_diag _).bind fun _ _ => (tells_selectWidth _ _ _).bind fun o hwidth => ?_
  split
  · exact tells_skip (Nat.le_refl _) _ _
  refine (tells_report _).bind fun _ _ => ?_
  extract_lets r
  split
  rename_i width _ _ _ plan temps hplan
  have htemps : w.temps ≤ temps := by
    have h := SplitPlan.advances_make w.func t l width (l.tripAlignment w.func t) r w.temps
    rwa [hplan] at h
  split
  · exact tells_skip htemps _ _
  refine (tells_logPlan _ _).bind fun _ _ => (tells_headerShapes _ _).bind fun o _ => ?_
  split
  · exact tells_skip htemps _ _
  · intro s a s' hc h
    obtain ⟨hcarried, htells⟩ := tells_transform _ _ _ _ s a s' hc h
    exact ⟨.carried hgate (hwidth _ rfl) hplan hcarried, htells⟩

end Work

/-! ### Visits -/

/-- A visit of a loop: what it was made on, the header of the loop, what became of the loop, and
what was left. -/
structure Visit where
  before : Work
  header : Int
  outcome : LoopOutcome
  after : Work

/-- What a run keeps of a visit. -/
def Visit.entry (v : Visit) : String × Label × LoopOutcome :=
  (v.after.func.name, .ofBlock v.header, v.outcome)

/-- Visits of loops of one function, each made on what the one before it left. -/
inductive Sweep : Work → RunState → List Visit → Work → RunState → Prop
  | done (w : Work) (s : RunState) : Sweep w s [] w s
  | visit {w w₁ w' : Work} {s s₁ s' : RunState} {header : Int} {l : Loop} {o : LoopOutcome}
      {vs : List Visit} : w.func.forest.withHeader? header = some l →
      Gives (w.visitLoop w.func.forest l) s (o, w₁) s₁ →
      Sweep w₁ { s₁ with outcomes := s₁.outcomes ++ [(w₁.func.name, .ofBlock header, o)] } vs w' s' →
      Sweep w s (⟨w, header, o, w₁⟩ :: vs) w' s'

/-- Visits of loops of several functions, one function after the other. -/
inductive Sweeps :
    List Func → TempCounter → RunState → List Visit → List Func → TempCounter → RunState → Prop
  | done (n : TempCounter) (s : RunState) : Sweeps [] n s [] [] n s
  | func {f : Func} {fs fs' : List Func} {n n' : TempCounter} {s s₁ s' : RunState}
      {es : List Event} {announced : Bool} {vs us : List Visit} {w : Work} :
      Sweep ⟨f, n⟩ { s with events := s.events ++ es, announced := announced } vs w s₁ →
      Sweeps fs w.temps s₁ us fs' n' s' → Sweeps (f :: fs) n s (vs ++ us) (w.func :: fs') n' s'

/-- Whether some visit changed its loop. -/
def anyChanged (vs : List Visit) : Bool := vs.any (·.outcome.isChanged)

theorem anyChanged_append (vs us : List Visit) :
    anyChanged (vs ++ us) = (anyChanged vs || anyChanged us) := List.any_append

namespace Sweep

variable {w w₁ w' : Work} {s s₁ s' : RunState} {vs us : List Visit}

theorem trans (h : Sweep w s vs w₁ s₁) (h' : Sweep w₁ s₁ us w' s') :
    Sweep w s (vs ++ us) w' s' := by
  induction h with
  | done => exact h'
  | visit hl hv _ ih => exact .visit hl hv (ih h')

theorem outcomes (h : Sweep w s vs w' s') : s'.outcomes = s.outcomes ++ vs.map Visit.entry := by
  induction h with
  | done => simp
  | visit _ hv _ ih =>
    rw [ih, (Work.tells_visitLoop _ _ _).outcomes hv]
    simp [Visit.entry]

/-- A visit that leaves its loop alone leaves the function alone. -/
theorem spares (h : Sweep w s vs w' s') : ∀ v ∈ vs, v.outcome.isChanged = false →
    v.after.func = v.before.func ∧ v.before.temps ≤ v.after.temps := by
  induction h with
  | done => exact fun _ => nofun
  | visit _ hv _ ih =>
    refine List.forall_mem_cons.mpr ⟨?_, ih⟩
    exact (Work.tells_visitLoop _ _ _ _ _ _ rfl hv).1.spares

theorem func_eq (h : Sweep w s vs w' s') (hvs : anyChanged vs = false) : w'.func = w.func := by
  induction h with
  | done => rfl
  | visit _ hv _ ih =>
    obtain ⟨ho, hvs⟩ := Bool.or_eq_false_iff.mp hvs
    exact (ih hvs).trans ((Work.tells_visitLoop _ _ _ _ _ _ rfl hv).1.spares ho).1

end Sweep

namespace Sweeps

variable {fs fs' : List Func} {n n' : TempCounter} {s s' : RunState} {vs : List Visit}

theorem outcomes (h : Sweeps fs n s vs fs' n' s') :
    s'.outcomes = s.outcomes ++ vs.map Visit.entry := by
  induction h with
  | done => simp
  | func hf _ ih =>
    rw [ih, hf.outcomes]
    simp

theorem spares (h : Sweeps fs n s vs fs' n' s') : ∀ v ∈ vs, v.outcome.isChanged = false →
    v.after.func = v.before.func ∧ v.before.temps ≤ v.after.temps := by
  induction h with
  | done => exact fun _ => nofun
  | func hf _ ih =>
    intro v hv
    exact (List.mem_append.mp hv).elim (hf.spares v) (ih v)

theorem funcs_eq (h : Sweeps fs n s vs fs' n' s') (hvs : anyChanged vs = false) : fs' = fs := by
  induction h with
  | done => rfl
  | func hf _ ih =>
    rw [anyChanged_append, Bool.or_eq_false_iff] at hvs
    rw [hf.func_eq hvs.1, ih hvs.2]

end Sweeps

/-! ### Runs -/

namespace Work

variable {w w' : Work} {s s' : RunState} {changed c : Bool}

/-- Loops tried one after the other, where each try is a chain of visits. -/
theorem sweep_of_foldlM {g : Work → Int → Pass (Bool × Work)}
    (hg : ∀ w h s c w' s', Gives (g w h) s (c, w') s' →
      ∃ vs, Sweep w s vs w' s' ∧ c = anyChanged vs) {headers : List Int}
    (h : Gives (headers.foldlM (fun (changed, w) h => do
      let (c, w) ← g w h
      return (changed || c, w)) (changed, w)) s (c, w') s') :
    ∃ vs, Sweep w s vs w' s' ∧ c = (changed || anyChanged vs) := by
  induction headers generalizing changed w s with
  | nil =>
    obtain ⟨e, rfl⟩ := gives_pure.mp h
    obtain ⟨rfl, rfl⟩ := Prod.mk.inj e
    exact ⟨[], .done w s, (Bool.or_false changed).symm⟩
  | cons i headers ih =>
    rw [List.foldlM_cons] at h
    obtain ⟨⟨c₁, w₁⟩, s₁, hi, h⟩ := gives_bind.mp h
    obtain ⟨⟨c₂, w₂⟩, s₂, hvisit, hi⟩ := gives_bind.mp hi
    obtain ⟨e, rfl⟩ := gives_pure.mp hi
    obtain ⟨rfl, rfl⟩ := Prod.mk.inj e
    obtain ⟨vs, hvs, rfl⟩ := hg _ _ _ _ _ _ hvisit
    obtain ⟨us, hus, rfl⟩ := ih h
    exact ⟨vs ++ us, hvs.trans hus, by rw [anyChanged_append, Bool.or_assoc]⟩

/-- Trying a loop, and the loops inside it where it is left alone, is a chain of visits. -/
theorem sweep_of_visit : ∀ fuel (w : Work) (header : Int) s c w' s',
    Gives (visit fuel w header) s (c, w') s' → ∃ vs, Sweep w s vs w' s' ∧ c = anyChanged vs := by
  intro fuel
  induction fuel with
  | zero =>
    intro w header s c w' s' h
    obtain ⟨e, rfl⟩ := gives_pure.mp h
    obtain ⟨rfl, rfl⟩ := Prod.mk.inj e
    exact ⟨[], .done w s, rfl⟩
  | succ fuel ih =>
    intro w header s c w' s' h
    unfold visit at h
    dsimp only at h
    split at h
    · obtain ⟨e, rfl⟩ := gives_pure.mp h
      obtain ⟨rfl, rfl⟩ := Prod.mk.inj e
      exact ⟨[], .done w s, rfl⟩
    · rename_i l hl
      obtain ⟨⟨o, w₁⟩, s₁, hvisit, h⟩ := gives_bind.mp h
      obtain ⟨⟨⟩, s₂, hmodify, h⟩ := gives_bind.mp h
      obtain rfl := Pass.gives_modify.mp hmodify
      split at h
      · rename_i ho
        obtain ⟨e, rfl⟩ := gives_pure.mp h
        obtain ⟨rfl, rfl⟩ := Prod.mk.inj e
        exact ⟨_, .visit hl hvisit (.done _ _), by simp [anyChanged, ho]⟩
      · rename_i ho
        obtain ⟨vs, hvs, rfl⟩ := sweep_of_foldlM ih h
        exact ⟨_, .visit hl hvisit hvs, by simp [anyChanged, ho]⟩

theorem sweep_of_run (h : Gives (run w) s (c, w') s') : ∃ es announced vs,
    Sweep w { s with events := s.events ++ es, announced := announced } vs w' s' ∧
      c = anyChanged vs := by
  have htry : ∀ (w : Work) header s c w' s',
      Gives (visit (w.func.blocks.length + 1) w header) s (c, w') s' →
        ∃ vs, Sweep w s vs w' s' ∧ c = anyChanged vs := fun w => sweep_of_visit _ w
  obtain ⟨⟨⟩, s₁, hdiag, h⟩ := gives_bind.mp h
  obtain ⟨-, es, b, rfl⟩ := Pass.tells_diag _ _ _ _ rfl hdiag
  obtain ⟨_, _, hget, h⟩ := gives_bind.mp h
  obtain ⟨rfl, rfl⟩ := Pass.gives_get.mp hget
  dsimp only at h
  split at h
  · obtain ⟨⟨⟩, s₂, hreport, h⟩ := gives_bind.mp h
    obtain ⟨-, es', b', rfl⟩ := Pass.tells_report _ _ _ _ rfl hreport
    obtain ⟨vs, hvs, rfl⟩ := sweep_of_foldlM htry h
    exact ⟨es ++ es', b', vs, by simpa using hvs, Bool.false_or _⟩
  · obtain ⟨vs, hvs, rfl⟩ := sweep_of_foldlM htry h
    exact ⟨es, b, vs, hvs, Bool.false_or _⟩

end Work

namespace Program

theorem sweeps_of_vectorizeFuncs : ∀ (fs : List Func) (n : TempCounter) s c fs' n' s',
    Gives (vectorizeFuncs fs n) s (c, fs', n') s' →
      ∃ vs, Sweeps fs n s vs fs' n' s' ∧ c = anyChanged vs := by
  intro fs
  induction fs with
  | nil =>
    intro n s c fs' n' s' h
    obtain ⟨e, rfl⟩ := gives_pure.mp h
    cases e
    exact ⟨[], .done n s, rfl⟩
  | cons f fs ih =>
    intro n s c fs' n' s' h
    obtain ⟨⟨c₁, w⟩, s₁, hrun, h⟩ := gives_bind.mp h
    obtain ⟨⟨cs, fs₁, n₁⟩, s₂, hrest, h⟩ := gives_bind.mp h
    obtain ⟨e, rfl⟩ := gives_pure.mp h
    cases e
    obtain ⟨es, announced, vs, hvs, rfl⟩ := Work.sweep_of_run hrun
    obtain ⟨us, hus, rfl⟩ := ih _ _ _ _ _ _ hrest
    exact ⟨vs ++ us, .func hvs hus, (anyChanged_append vs us).symm⟩

/-- A run that succeeds is a chain of visits, or is switched off and does nothing. -/
theorem sweeps_of_vectorize {p q : Program} {s s' : RunState} {changed : Bool}
    (h : Gives p.vectorize s (changed, q) s') :
    (s.config.disabled = true ∧ q = p ∧ changed = false ∧ s'.outcomes = s.outcomes) ∨
      (s.config.disabled = false ∧ ∃ vs, Sweeps p.funcs p.temps s vs q.funcs q.temps s' ∧ changed = anyChanged vs) := by
  obtain ⟨_, _, hget, h⟩ := gives_bind.mp h
  obtain ⟨rfl, rfl⟩ := Pass.gives_get.mp hget
  split at h
  · rename_i hdisabled
    obtain ⟨⟨⟩, _, hlog, h⟩ := gives_bind.mp h
    obtain ⟨e, rfl⟩ := gives_pure.mp h
    obtain ⟨rfl, rfl⟩ := Prod.mk.inj e
    exact .inl ⟨hdisabled, rfl, rfl, (Pass.tells_log _ _).outcomes hlog⟩
  · rename_i henabled
    obtain ⟨⟨c, fs, n⟩, _, hfuncs, h⟩ := gives_bind.mp h
    obtain ⟨e, rfl⟩ := gives_pure.mp h
    obtain ⟨rfl, rfl⟩ := Prod.mk.inj e
    exact .inr ⟨Bool.eq_false_iff.mpr henabled, sweeps_of_vectorizeFuncs _ _ _ _ _ _ _ hfuncs⟩

/-- A run that succeeds is a chain of visits, with one outcome for each.  A visit that skips its
loop leaves the function as it was, text and all, and takes names at most; the run answers `true`
exactly where a visit did not skip its loop, and where none did the program is printed as before. -/
theorem visits_of_vectorize {p q : Program} {s s' : RunState} {changed : Bool}
    (h : Gives p.vectorize s (changed, q) s') :
    ∃ vs, (if s.config.disabled then vs = [] ∧ q = p
        else Sweeps p.funcs p.temps s vs q.funcs q.temps s') ∧
      s'.outcomes = s.outcomes ++ vs.map Visit.entry ∧
      (∀ v ∈ vs, ∀ r, v.outcome = .skipped r → v.after.func = v.before.func ∧
        v.after.func.text = v.before.func.text ∧ v.before.temps ≤ v.after.temps) ∧
      (changed = true ↔ ∃ v ∈ vs, v.outcome.isChanged = true) ∧
      (changed = false → q.text = p.text) := by
  rcases sweeps_of_vectorize h with ⟨hdisabled, rfl, rfl, houtcomes⟩ | ⟨henabled, vs, hvs, rfl⟩
  · refine ⟨[], ?_, ?_, fun _ => nofun, by simp, fun _ => rfl⟩
    · rw [if_pos hdisabled]
      exact ⟨rfl, rfl⟩
    · rw [houtcomes]
      exact (List.append_nil _).symm
  · refine ⟨vs, ?_, hvs.outcomes, ?_, List.any_eq_true, ?_⟩
    · rwa [if_neg (by simp [henabled])]
    · intro v hv r hr
      obtain ⟨hfunc, htemps⟩ := hvs.spares v hv (by rw [hr]; rfl)
      exact ⟨hfunc, congrArg Func.text hfunc, htemps⟩
    · intro hunchanged
      rw [Program.text, hvs.funcs_eq hunchanged, Program.text]

/-- A loop that is left alone for its recurrence, which both multiplies and adds. -/
def compounding : Func :=
  let i : Temp := .ofLocal "i" .i32
  let s : Temp := .ofLocal "s" .i32
  let c : Temp := .ofLocal "c" .i32
  let t : Temp := .ofLocal "t" .i32
  let u : Temp := .ofLocal "u" .i32
  let j : Temp := .ofLocal "j" .i32
  { total := 3
    name := "f"
    retTy := .i32
    params := [.ofLocal "n" .i32]
    blocks := [
      { Block.ofId 0 with succ := [.last 1], jump := some (.jump (.ofBlock 1)) },
      { Block.ofId 1 with
        prev := [.last 0, .last 2]
        succ := [.last 2, .last 3]
        phis := [.ofTarget i [(.int 0, .ofBlock 0), (.temp j, .ofBlock 2)],
          .ofTarget s [(.int 1, .ofBlock 0), (.temp u, .ofBlock 2)]]
        instrs := [.comp c .icmp .slt .i32 (.temp i) (.temp (.ofLocal "n" .i32))]
        jump := some (.branch .i32 (.temp c) (.ofBlock 2) (.ofBlock 3)) },
      { Block.ofId 2 with
        prev := [.last 1]
        succ := [.last 1]
        instrs := [.arith t .mul .i32 (.temp s) (.int 3), .arith u .add .i32 (.temp t) (.int 1),
          .arith j .add .i32 (.temp i) (.int 1)]
        jump := some (.jump (.ofBlock 1))
        hints := some (Hints.empty.set HintKey.enable (some 1)) },
      { Block.ofId 3 with prev := [.last 1], jump := some (.ret (some (.temp s))) }] }

/-- The loop has been planned when it is left alone: names are taken, and nothing else happens. -/
theorem visits_of_compounding : ∃ (q : Program) (s' : RunState) (vs : List Visit),
    0 < q.temps ∧
    Sweeps [compounding] 0 (.ofConfig { Config.standard with forceWidth := some 4 }) vs q.funcs
      q.temps s' ∧ q.text = text ⟨[compounding], 0⟩ := by
  obtain ⟨⟨changed, q⟩, s', hq, h⟩ := exists_gives_of_any (x := vectorize ⟨[compounding], 0⟩)
    (s := .ofConfig { Config.standard with forceWidth := some 4 }) (fun r _ => !r.1 && 0 < r.2.temps)
    (by decide +kernel)
  simp only [Bool.and_eq_true, Bool.not_eq_true', decide_eq_true_eq] at h
  obtain ⟨rfl, htemps⟩ := h
  obtain ⟨vs, hvs, -, -, -, htext⟩ := visits_of_vectorize
    (hq : Gives (vectorize ⟨[compounding], 0⟩) _ (false, q) _)
  exact ⟨q, s', vs, htemps, hvs, htext rfl⟩

end Program

end LoopLanes
