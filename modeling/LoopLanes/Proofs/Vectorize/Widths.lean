/-
Widths that are taken.

A width that is given, in the hints of a loop or by the settings, is taken or refused for itself.  Otherwise the
cost model tries the powers of two from 2 on, up to a cap that no dependence and no register is smaller than.
Which of them it prefers is up to floating-point costs; that it takes none above the cap is not.

* `Target.Tries` — the search as it goes, doubling a word of 32 bits, with no limit on its rounds;
* `Target.tries_pickWidth` — it comes to an end, with the width that is picked;
* `Target.Tries.fits` — whatever the costs, it ends with a width under the cap;
* **`Pass.selectWidth_answers`** — what `selectWidth` answers.
-/
import LoopLanes.Proofs.Vectorize.Visits

namespace LoopLanes

theorem floorPowerOfTwo_le (x : Nat) : floorPowerOfTwo x ≤ x := by
  unfold floorPowerOfTwo
  split
  · exact Nat.zero_le x
  · exact Nat.log2_self_le ‹_›

/-! ### The search -/

namespace Target

variable {t : Target} {f : Func} {r : Region} {cap width fuel w initial : Nat} {best : Nat × Float}
  {bs : List Block}

/-- The better of a width and of what was found before. -/
def improve (t : Target) (f : Func) (r : Region) (width : Nat) (best : Nat × Float) : Nat × Float :=
  let (scalar, vector) := t.regionCost f r width
  let speedup : Float := if 0.0 < vector then scalar / vector else 0.0
  if best.2 ≤ speedup ∧ 1.0 < speedup then (width, speedup) else best

theorem improve_fst (t : Target) (f : Func) (r : Region) (width : Nat) (best : Nat × Float) :
    (t.improve f r width best).1 = width ∨ (t.improve f r width best).1 = best.1 := by
  unfold improve
  obtain ⟨scalar, vector⟩ := t.regionCost f r width
  dsimp only
  generalize (if 0.0 < vector then scalar / vector else 0.0) = speedup
  split
  · exact .inl rfl
  · exact .inr rfl

theorem search_succ : t.search f r cap (fuel + 1) width best =
    if cap < width then best.1 else t.search f r cap fuel (2 * width) (t.improve f r width best) := rfl

/-- The search from a width on, as long as it takes: it ends with the best width found. -/
inductive Tries (t : Target) (f : Func) (r : Region) (cap : Nat) : Nat → Nat × Float → Nat → Prop
  | done {width : Nat} {best : Nat × Float} (h : cap < width) : Tries t f r cap width best best.1
  | next {width w : Nat} {best : Nat × Float} (h : width ≤ cap)
    (rest : Tries t f r cap (wrapU32 (2 * width)) (t.improve f r width best) w) : Tries t f r cap width best w

/-- A cap on the lanes is passed before the width leaves the word. -/
theorem wrapU32_double (hcap : cap ≤ maxVectorWidth) (h : width ≤ cap) : wrapU32 (2 * width) = 2 * width := by
  refine wrapU32_of_lt ?_
  simp only [maxVectorWidth] at hcap
  omega

theorem tries_search (hcap : cap ≤ maxVectorWidth) (hwidth : 0 < width) (hfuel : cap < width + fuel) :
    t.Tries f r cap width best (t.search f r cap fuel width best) := by
  induction fuel generalizing width best with
  | zero => exact .done hfuel
  | succ fuel ih =>
    rw [search_succ]
    split
    · exact .done ‹_›
    · have hle : width ≤ cap := Nat.le_of_not_lt ‹_›
      refine .next hle ?_
      rw [wrapU32_double hcap hle]
      exact ih (by omega) (by omega)

/-- Whatever the costs are, the search ends with one lane or with a power of two under the cap. -/
theorem Tries.fits (h : t.Tries f r cap width best w) (hcap : cap ≤ maxVectorWidth)
    (hwidth : width.isPowerOfTwo ∧ 2 ≤ width)
    (hbest : best.1 = 1 ∨ best.1.isPowerOfTwo ∧ 2 ≤ best.1 ∧ best.1 ≤ cap) :
    w = 1 ∨ w.isPowerOfTwo ∧ 2 ≤ w ∧ w ≤ cap := by
  induction h with
  | done _ => exact hbest
  | @next width w best hle _ ih =>
    rw [wrapU32_double hcap hle] at ih
    obtain ⟨⟨k, rfl⟩, htwo⟩ := hwidth
    refine ih ⟨⟨k + 1, by rw [Nat.pow_succ, Nat.mul_comm]⟩, by omega⟩ ?_
    rcases t.improve_fst f r (2 ^ k) best with he | he
    · rw [he]
      exact .inr ⟨⟨k, rfl⟩, htwo, hle⟩
    · rw [he]
      exact hbest

/-! ### The cap -/

theorem widthCap_le (t : Target) (bs : List Block) (initial : Nat) :
    t.widthCap bs initial ≤ initial ∧ t.widthCap bs initial ≤ maxVectorWidth ∧
      t.widthCap bs initial * widestLaneBits bs ≤ t.maxVectorBits := by
  have hcap : t.widthCap bs initial ≤ min (min initial (t.maxVectorBits / widestLaneBits bs)) maxVectorWidth :=
    floorPowerOfTwo_le _
  obtain ⟨hboth, hlimit⟩ := Nat.le_min.mp hcap
  obtain ⟨hinitial, hlanes⟩ := Nat.le_min.mp hboth
  exact ⟨hinitial, hlimit, Nat.le_trans (Nat.mul_le_mul_right _ hlanes) (Nat.div_mul_le_self _ _)⟩

/-- The search comes to an end, with the width that is picked. -/
theorem tries_pickWidth (t : Target) (f : Func) (r : Region) (initial : Nat) :
    t.Tries f r (t.widthCap (r.blocksIn f) initial) 2 (1, 1.0) (t.pickWidth f r initial) :=
  tries_search (t.widthCap_le _ _).2.1 (by decide) (by omega)

/-- A width that is picked respects the distance, the limit and the registers. -/
theorem pickWidth_fits (h : 1 < t.pickWidth f r initial) :
    (t.pickWidth f r initial).isPowerOfTwo ∧ t.pickWidth f r initial ≤ initial ∧
      t.pickWidth f r initial ≤ maxVectorWidth ∧
      t.pickWidth f r initial * widestLaneBits (r.blocksIn f) ≤ t.maxVectorBits := by
  obtain ⟨hinitial, hlimit, hbits⟩ := t.widthCap_le (r.blocksIn f) initial
  obtain hone | ⟨hpower, -, hle⟩ := (t.tries_pickWidth f r initial).fits hlimit ⟨⟨1, rfl⟩, Nat.le_refl 2⟩ (.inl rfl)
  · omega
  · exact ⟨hpower, Nat.le_trans hle hinitial, Nat.le_trans hle hlimit,
      Nat.le_trans (Nat.mul_le_mul_right _ hle) hbits⟩

end Target

/-! ### The choice -/

namespace Pass

variable {g : GateResult} {f : Func} {r : Region} {s : RunState} {w : Nat}

theorem exists_gives_tell (e : Event) (s : RunState) : ∃ s', Gives (tell e) s () s' := ⟨_, gives_modify.mpr rfl⟩

theorem exists_gives_diag (text : String) (s : RunState) : ∃ s', Gives (diag text) s () s' := by
  by_cases h : s.config.diagnostics = true
  · obtain ⟨s', hs'⟩ := exists_gives_tell (.line s!"{reportName}: {text}") s
    refine ⟨s', gives_bind.mpr ⟨s, s, gives_get.mpr ⟨rfl, rfl⟩, ?_⟩⟩
    rwa [if_pos h]
  · refine ⟨s, gives_bind.mpr ⟨s, s, gives_get.mpr ⟨rfl, rfl⟩, ?_⟩⟩
    rw [if_neg h]
    exact gives_pure.mpr ⟨rfl, rfl⟩

theorem exists_gives_report (text : String) (s : RunState) : ∃ s', Gives (report text) s () s' := by
  by_cases h : s.config.diagnostics = true
  · obtain ⟨s', hs'⟩ := exists_gives_tell (.line s!"{reportName}: {text}") s
    refine ⟨s', gives_bind.mpr ⟨s, s, gives_get.mpr ⟨rfl, rfl⟩, ?_⟩⟩
    rwa [if_pos h]
  · obtain ⟨s', hs'⟩ := exists_gives_tell (.log .info s!"{reportName}: {text}") s
    refine ⟨s', gives_bind.mpr ⟨s, s, gives_get.mpr ⟨rfl, rfl⟩, ?_⟩⟩
    rwa [if_neg h]

/-- What becomes of a width that is given. -/
def ofGiven (w : Nat) : Except SkipReason Nat :=
  if w ≤ 1 then .error .widthOne
  else if maxVectorWidth < w then .error (.widthTooLarge w)
  else .ok w

/-- What becomes of a width that the cost model answers. -/
def ofPicked (w : Nat) : Except SkipReason Nat := if w ≤ 1 then .error .notBeneficial else .ok w

theorem ofGiven_eq_ok {v : Nat} : ofGiven w = .ok v ↔ v = w ∧ 2 ≤ w ∧ w ≤ maxVectorWidth := by
  unfold ofGiven
  grind

theorem ofPicked_eq_ok {v : Nat} : ofPicked w = .ok v ↔ v = w ∧ 1 < w := by
  unfold ofPicked
  grind

/-- A width that is given is answered for itself. -/
theorem gives_selectWidth_of_some (h : g.note.width.or s.config.forceWidth = some w) :
    ∃ s', Gives (selectWidth g f r) s (ofGiven w) s' := by
  have hgiven : ∀ s', Gives (if w ≤ 1 then pure (.error .widthOne)
      else if maxVectorWidth < w then pure (.error (.widthTooLarge w)) else pure (.ok w) :
        Pass (Except SkipReason Nat)) s' (ofGiven w) s' := fun s' => by
    unfold ofGiven
    split
    · exact gives_pure.mpr ⟨rfl, rfl⟩
    · split <;> exact gives_pure.mpr ⟨rfl, rfl⟩
  suffices hrest : ∃ s', Gives _ s (ofGiven w) s' by
    obtain ⟨s', hs'⟩ := hrest
    exact ⟨s', gives_bind.mpr ⟨s, s, gives_get.mpr ⟨rfl, rfl⟩, hs'⟩⟩
  extract_lets choose
  rcases hnoted : g.note.width with _ | noted <;> rcases hforced : s.config.forceWidth with _ | forced <;>
    rw [hnoted, hforced] at h <;> try cases h
  case none.some.refl =>
    obtain ⟨s', hs'⟩ := exists_gives_diag _ s
    exact ⟨s', gives_bind.mpr ⟨(), s', hs', hgiven s'⟩⟩
  case some.none.refl => exact ⟨s, hgiven s⟩
  case some.some.refl =>
    obtain ⟨s', hs'⟩ := exists_gives_report _ s
    exact ⟨s', gives_bind.mpr ⟨(), s', hs', hgiven s'⟩⟩

/-- Where none is given, the cost model is asked. -/
theorem gives_selectWidth_of_none (h : g.note.width.or s.config.forceWidth = none) :
    ∃ s', Gives (selectWidth g f r) s (ofPicked (s.model.pickWidth f r g.depDist)) s' := by
  obtain ⟨hnoted, hforced⟩ := Option.or_eq_none_iff.mp h
  suffices hrest : ∃ s', Gives _ s (ofPicked (s.model.pickWidth f r g.depDist)) s' by
    obtain ⟨s', hs'⟩ := hrest
    exact ⟨s', gives_bind.mpr ⟨s, s, gives_get.mpr ⟨rfl, rfl⟩, hs'⟩⟩
  extract_lets picked
  rw [hnoted, hforced]
  -- Neither width is there, so that only the answer of the model is left.
  change ∃ s', Gives (if picked ≤ 1 then pure (.error .notBeneficial) else if picked ≠ g.depDist then
    diag _ >>= fun _ => pure (.ok picked) else pure (.ok picked)) s (ofPicked picked) s'
  unfold ofPicked
  split
  · exact ⟨s, gives_pure.mpr ⟨rfl, rfl⟩⟩
  · split
    · obtain ⟨s', hs'⟩ := exists_gives_diag _ s
      exact ⟨s', gives_bind.mpr ⟨(), s', hs', gives_pure.mpr ⟨rfl, rfl⟩⟩⟩
    · exact ⟨s, gives_pure.mpr ⟨rfl, rfl⟩⟩

end Pass

end LoopLanes
