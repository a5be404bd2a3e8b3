/-
Computations that may fail, taken apart where they succeed.

`Gives x s a t` says that a computation with a state, started in `s`, does not fail and leaves
`a` and the state `t`.
-/
import Mathlib.Data.List.Forall2
import Mathlib.Logic.Basic

namespace LoopLanes

variable {α β ε : Type}

theorem bind_eq_ok {x : Except ε α} {g : α → Except ε β} {b : β} :
    (x >>= g) = .ok b ↔ ∃ a, x = .ok a ∧ g a = .ok b := by
  cases x <;> simp [bind, Except.bind]

theorem pure_eq_ok {a b : α} : (pure a : Except ε α) = .ok b ↔ a = b := by
  simp [pure, Except.pure]

theorem throw_ne_ok {e : ε} {b : α} : (throw e : Except ε α) ≠ .ok b := by
  intro h
  cases h

theorem map_eq_ok {x : Except ε α} {g : α → β} {b : β} :
    x.map g = .ok b ↔ ∃ a, x = .ok a ∧ g a = b := by
  cases x <;> simp [Except.map]

theorem map_eq_error {x : Except ε α} {g : α → β} {e : ε} : x.map g = .error e ↔ x = .error e := by
  cases x <;> simp [Except.map]

theorem toBool_eq_true {x : Except ε Unit} : x.toBool = true ↔ x = .ok () := by
  cases x <;> simp [Except.toBool]

/-- The failure of a computation. -/
def failure? : Except ε α → Option ε
  | .error e => some e
  | .ok _ => none

theorem failure?_eq_some {x : Except ε α} {e : ε} : failure? x = some e ↔ x = .error e := by
  cases x <;> simp [failure?]

theorem toOption_eq_some {x : Except ε α} {a : α} : x.toOption = some a ↔ x = .ok a := by
  cases x <;> simp [Except.toOption]

/-- Where a check of the result holds, there is a result. -/
theorem exists_of_any {x : Except ε α} {P : α → Bool} (h : x.toOption.any P = true) :
    ∃ a, x = .ok a ∧ P a = true := by
  obtain ⟨a, ha, hcheck⟩ := (Option.any_eq_true _ _).mp h
  exact ⟨a, toOption_eq_some.mp ha, hcheck⟩

theorem ite_error_eq_ok {p : Prop} [Decidable p] {e : ε} {x : Except ε α} {a : α} :
    (if p then .error e else x) = .ok a ↔ ¬ p ∧ x = .ok a := by
  by_cases h : p <;> simp [h]

/-- A pass over a list succeeds if it does at every element. -/
theorem forM_eq_ok {g : α → Except ε Unit} :
    ∀ {l : List α}, forM l g = .ok () ↔ ∀ a ∈ l, g a = .ok () := by
  intro l
  induction l with
  | nil => simp [pure_eq_ok]
  | cons a l ih =>
    rw [List.forM_cons, bind_eq_ok, List.forall_mem_cons, ih]
    constructor
    · rintro ⟨⟨⟩, ha, hl⟩
      exact ⟨ha, hl⟩
    · rintro ⟨ha, hl⟩
      exact ⟨(), ha, hl⟩

/-- Results for all elements of a list. -/
theorem mapM_eq_ok {g : α → Except ε β} : ∀ {as : List α} {bs : List β},
    as.mapM g = .ok bs ↔ List.Forall₂ (fun a b => g a = .ok b) as bs := by
  intro as
  induction as with
  | nil =>
    intro bs
    rw [List.mapM_nil, pure_eq_ok, List.forall₂_nil_left_iff]
    exact eq_comm
  | cons a as ih =>
    intro bs
    simp only [List.mapM_cons, bind_eq_ok, pure_eq_ok, ih, List.forall₂_cons_left_iff]
    constructor
    · rintro ⟨b, hb, bs, hbs, rfl⟩
      exact ⟨b, bs, hb, hbs, rfl⟩
    · rintro ⟨b, bs, hb, hbs, rfl⟩
      exact ⟨b, hb, bs, hbs, rfl⟩

/-- Where a list has no result, some element has none. -/
theorem exists_of_mapM_eq_error {g : α → Except ε β} {e : ε} : ∀ {as : List α},
    as.mapM g = .error e → ∃ a ∈ as, g a = .error e := by
  intro as
  induction as with
  | nil => exact nofun
  | cons a as ih =>
    intro h
    rw [List.mapM_cons] at h
    cases ha : g a with
    | error e' =>
      rw [ha] at h
      cases h
      exact ⟨a, List.mem_cons_self, ha⟩
    | ok b =>
      cases has : as.mapM g with
      | error e' =>
        rw [ha, has] at h
        cases h
        obtain ⟨a', ha', h⟩ := ih has
        exact ⟨a', List.mem_cons_of_mem a ha', h⟩
      | ok bs =>
        rw [ha, has] at h
        cases h

/-- Where each element of a list has a result, the list has. -/
theorem exists_mapM_eq_ok {ι : Type} {R : ι → β → Prop} {g : α → Except ε β} {is : List ι} {as : List α}
    (h : List.Forall₂ (fun i a => ∃ b, g a = .ok b ∧ R i b) is as) :
    ∃ bs, as.mapM g = .ok bs ∧ List.Forall₂ R is bs := by
  induction h with
  | nil => exact ⟨[], rfl, .nil⟩
  | cons hia _ ih =>
    obtain ⟨b, hb, hib⟩ := hia
    obtain ⟨bs, hbs, hibs⟩ := ih
    exact ⟨b :: bs, mapM_eq_ok.mpr (.cons hb (mapM_eq_ok.mp hbs)), .cons hib hibs⟩

/-- In related lists, every member of the second is related to a member of the first. -/
theorem exists_of_forall₂ {R : α → β → Prop} {as : List α} {bs : List β}
    (h : List.Forall₂ R as bs) : ∀ b ∈ bs, ∃ a ∈ as, R a b := by
  induction h with
  | nil => exact fun _ => nofun
  | cons hab _ ih =>
    rintro b (_ | ⟨_, hb⟩)
    · exact ⟨_, List.mem_cons_self, hab⟩
    · obtain ⟨a, ha, h⟩ := ih b hb
      exact ⟨a, List.mem_cons_of_mem _ ha, h⟩

/-- What is related to two lists, one behind the other, has a part for each. -/
theorem forall₂_append_left {R : α → β → Prop} {as as' : List α} {bs : List β}
    (h : List.Forall₂ R (as ++ as') bs) :
    ∃ cs cs', bs = cs ++ cs' ∧ List.Forall₂ R as cs ∧ List.Forall₂ R as' cs' :=
  ⟨bs.take as.length, bs.drop as.length, (List.take_append_drop _ _).symm,
    (List.forall₂_take_append _ _ _ h.flip).flip, (List.forall₂_drop_append _ _ _ h.flip).flip⟩

/-! ### Computations with a state -/

section State

variable {σ : Type} {x : ExceptT ε (StateM σ) α} {s t : σ} {a : α}

/-- A computation that succeeds, with its result and the state that it leaves. -/
def Gives (x : ExceptT ε (StateM σ) α) (s : σ) (a : α) (t : σ) : Prop := x.run.run s = (.ok a, t)

/-- Where a check of the result and of the state it leaves holds, there are both. -/
theorem exists_gives_of_any (P : α → σ → Bool)
    (h : (x.run.run s).1.toOption.any (P · (x.run.run s).2) = true) : ∃ a t, Gives x s a t ∧ P a t = true := by
  obtain ⟨a, ha, hcheck⟩ := exists_of_any h
  exact ⟨a, _, Prod.ext ha rfl, hcheck⟩

theorem gives_pure {b : α} : Gives (pure b : ExceptT ε (StateM σ) α) s a t ↔ b = a ∧ s = t := by
  change (Except.ok b, s) = (Except.ok a, t) ↔ _
  rw [Prod.mk.injEq, Except.ok.injEq]

theorem gives_bind {g : α → ExceptT ε (StateM σ) β} {b : β} :
    Gives (x >>= g) s b t ↔ ∃ a r, Gives x s a r ∧ Gives (g a) r b t := by
  unfold Gives
  constructor
  · intro h
    change (ExceptT.bindCont g (x.run.run s).1).run (x.run.run s).2 = _ at h
    rcases hx : x.run.run s with ⟨_ | a, r⟩
    · rw [hx] at h
      cases h
    · rw [hx] at h
      exact ⟨a, r, rfl, h⟩
  · rintro ⟨a, r, hx, hg⟩
    change (ExceptT.bindCont g (x.run.run s).1).run (x.run.run s).2 = _
    rw [hx]
    exact hg

theorem not_gives_throw {e : ε} : ¬ Gives (throw e : ExceptT ε (StateM σ) α) s a t := by
  intro h
  cases h

/-- A result that does not touch the state. -/
theorem gives_mk_pure {r : Except ε α} :
    Gives (ExceptT.mk (pure r) : ExceptT ε (StateM σ) α) s a t ↔ r = .ok a ∧ s = t := by
  change (r, s) = (Except.ok a, t) ↔ _
  rw [Prod.mk.injEq]

theorem gives_modifyGet {g : σ → α × σ} :
    Gives (modifyGet g : ExceptT ε (StateM σ) α) s a t ↔ g s = (a, t) := by
  change (_, _) = (_, _) ↔ _
  simp [Prod.ext_iff]

/-- A computation gives at most one result. -/
theorem Gives.unique {a' : α} {t' : σ} (h : Gives x s a t) (h' : Gives x s a' t') :
    a = a' ∧ t = t' := by
  obtain ⟨he, ht⟩ := Prod.mk.inj (h.symm.trans h')
  exact ⟨Except.ok.inj he, ht⟩

/-- Each result for a list comes from its element, in the state that was reached. -/
theorem gives_mapM {g : α → ExceptT ε (StateM σ) β} : ∀ {as : List α} {bs : List β} {s t : σ},
    Gives (as.mapM g) s bs t → List.Forall₂ (fun a b => ∃ r r', Gives (g a) r b r') as bs := by
  intro as
  induction as with
  | nil =>
    intro bs s t h
    obtain ⟨rfl, -⟩ := gives_pure.mp h
    exact .nil
  | cons a as ih =>
    intro bs s t h
    rw [List.mapM_cons] at h
    obtain ⟨b, r, hb, h⟩ := gives_bind.mp h
    obtain ⟨bs', r', hbs, h⟩ := gives_bind.mp h
    obtain ⟨rfl, rfl⟩ := gives_pure.mp h
    exact .cons ⟨s, r, hb⟩ (ih hbs)

/-- Where each element of a list has a result from every state, the list has. -/
theorem exists_gives_mapM {ι : Type} {R : ι → β → Prop} {g : α → ExceptT ε (StateM σ) β}
    {is : List ι} {as : List α}
    (h : List.Forall₂ (fun i a => ∀ s, ∃ b t, Gives (g a) s b t ∧ R i b) is as) :
    ∀ s, ∃ bs t, Gives (as.mapM g) s bs t ∧ List.Forall₂ R is bs := by
  induction h with
  | nil => exact fun s => ⟨[], s, gives_pure.mpr ⟨rfl, rfl⟩, .nil⟩
  | cons hia _ ih =>
    intro s
    obtain ⟨b, r, hr, hib⟩ := hia s
    obtain ⟨bs, t, ht, hibs⟩ := ih r
    refine ⟨b :: bs, t, ?_, .cons hib hibs⟩
    rw [List.mapM_cons]
    exact gives_bind.mpr ⟨_, r, hr, gives_bind.mpr ⟨_, t, ht, gives_pure.mpr ⟨rfl, rfl⟩⟩⟩

/-- Results that are known beforehand. -/
theorem exists_gives_mapM_eq {g : α → ExceptT ε (StateM σ) β} {as : List α} {bs : List β}
    (h : List.Forall₂ (fun b a => ∀ s, ∃ t, Gives (g a) s b t) bs as) :
    ∀ s, ∃ t, Gives (as.mapM g) s bs t := by
  intro s
  have hresults : List.Forall₂ (fun b a => ∀ s, ∃ c t, Gives (g a) s c t ∧ b = c) bs as :=
    h.imp fun b a hb s => (hb s).elim fun t ht => ⟨b, t, ht, rfl⟩
  obtain ⟨cs, t, ht, heq⟩ := exists_gives_mapM hresults s
  rw [List.forall₂_eq_eq_eq] at heq
  exact ⟨t, heq ▸ ht⟩

/-- Computations on the elements of a list that leave the state alone. -/
theorem gives_mapM_iff {g : α → ExceptT ε (StateM σ) β} {P : α → β → Prop}
    (hg : ∀ a s b t, Gives (g a) s b t ↔ P a b ∧ s = t) {as : List α} {bs : List β} :
    Gives (as.mapM g) s bs t ↔ List.Forall₂ P as bs ∧ s = t := by
  induction as generalizing bs s t with
  | nil => simp [gives_pure, eq_comm]
  | cons a as ih =>
    simp only [List.mapM_cons, gives_bind, gives_pure, hg, ih, List.forall₂_cons_left_iff]
    constructor
    · rintro ⟨b, _, ⟨hb, rfl⟩, bs, _, ⟨hbs, rfl⟩, rfl, rfl⟩
      exact ⟨⟨b, bs, hb, hbs, rfl⟩, rfl⟩
    · rintro ⟨⟨b, bs, hb, hbs, rfl⟩, rfl⟩
      exact ⟨b, _, ⟨hb, rfl⟩, bs, _, ⟨hbs, rfl⟩, rfl, rfl⟩

theorem gives_foldlM_append {g : β → α → ExceptT ε (StateM σ) β} {as as' : List α} {b c : β} :
    Gives ((as ++ as').foldlM g b) s c t ↔
      ∃ d r, Gives (as.foldlM g b) s d r ∧ Gives (as'.foldlM g d) r c t := by
  rw [List.foldlM_append, gives_bind]

end State

end LoopLanes
