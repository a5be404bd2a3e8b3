/-
Recurrences under any enumeration of their members.

The members of a recurrence form a set, and nothing says in which order it is gone through.  The kind of a
reduction is a join over the members and does not depend on the order (`Reduction.kindOf_perm`).  A stride is
a sum that refuses to leave the word on the way, and this depends on the order: where the addends of both
signs taken together stay in the word, but those of one sign alone do not, some enumerations find the sum and
others refuse it.

* `checkedSum_perm_iff` — when a sum is the same in every order;
* `StridePattern.sum?_perm_iff` — when all enumerations find the same stride;
* **`Recurrences.agrees_ofLoopIn`** — then a loop has the same recurrences under all enumerations;
* **`Recurrences.disagrees_of_climbing`** — a loop in which one enumeration finds a stride and another one a
  sum.
-/
import LoopLanes.Proofs.Recurrence.Strides

namespace LoopLanes

/-! ### Sums that refuse to leave the word -/

/-- A number that a signed word of 32 bits holds. -/
def InWord (n : Int) : Prop := i32Min ≤ n ∧ n ≤ i32Max

instance (n : Int) : Decidable (InWord n) := inferInstanceAs (Decidable (i32Min ≤ n ∧ n ≤ i32Max))

/-- Adds numbers one after the other, as long as the sum stays in the word. -/
def checkedSum (n : Int) (as : List Int) : Option Int := as.foldlM (fun sum a => fitI32? (sum + a)) n

/-- How far numbers lead upwards if those that lead downwards come last. -/
def upwards (as : List Int) : Int := (as.filter (0 < ·)).sum

/-- How far they lead downwards if these come first. -/
def downwards (as : List Int) : Int := (as.filter (· ≤ 0)).sum

/-- Numbers whose sum, if it is in the word, is found in every order. -/
def Steady (as : List Int) : Prop := InWord as.sum → upwards as ≤ i32Max ∧ i32Min ≤ downwards as

instance (as : List Int) : Decidable (Steady as) :=
  inferInstanceAs (Decidable (InWord as.sum → upwards as ≤ i32Max ∧ i32Min ≤ downwards as))

section Sums

variable {n s a : Int} {as bs : List Int}

theorem fitI32?_of_inWord (h : InWord n) : fitI32? n = some n := if_pos h

theorem checkedSum_cons : checkedSum n (a :: as) = (fitI32? (n + a)).bind (checkedSum · as) :=
  List.foldlM_cons

theorem checkedSum_append : checkedSum n (as ++ bs) = (checkedSum n as).bind (checkedSum · bs) :=
  List.foldlM_append

theorem upwards_cons : upwards (a :: as) = max a 0 + upwards as := by
  by_cases h : 0 < a
  · rw [upwards, List.filter_cons_of_pos (by simpa using h), List.sum_cons, max_eq_left (by omega), upwards]
  · rw [upwards, List.filter_cons_of_neg (by simpa using h), max_eq_right (by omega), upwards, Int.zero_add]

theorem downwards_cons : downwards (a :: as) = min a 0 + downwards as := by
  by_cases h : a ≤ 0
  · rw [downwards, List.filter_cons_of_pos (by simpa using h), List.sum_cons, min_eq_left h, downwards]
  · rw [downwards, List.filter_cons_of_neg (by simpa using h), min_eq_right (by omega), downwards, Int.zero_add]

theorem upwards_nonneg (as : List Int) : 0 ≤ upwards as := by
  induction as with
  | nil => exact Int.le_refl 0
  | cons a as ih =>
    rw [upwards_cons]
    omega

theorem downwards_nonpos (as : List Int) : downwards as ≤ 0 := by
  induction as with
  | nil => exact Int.le_refl 0
  | cons a as ih =>
    rw [downwards_cons]
    omega

theorem sum_eq_upwards_add_downwards (as : List Int) : as.sum = upwards as + downwards as := by
  induction as with
  | nil => rfl
  | cons a as ih =>
    rw [List.sum_cons, upwards_cons, downwards_cons, ih]
    omega

theorem upwards_perm (h : bs.Perm as) : upwards bs = upwards as := (h.filter _).sum_eq

theorem downwards_perm (h : bs.Perm as) : downwards bs = downwards as := (h.filter _).sum_eq

theorem steady_perm (h : bs.Perm as) : Steady bs ↔ Steady as := by
  rw [Steady, Steady, h.sum_eq, upwards_perm h, downwards_perm h]

/-- A sum that is found is the sum, and in the word. -/
theorem checkedSum_eq_some : ∀ {as : List Int} {n : Int}, InWord n → checkedSum n as = some s →
    s = n + as.sum ∧ InWord s := by
  intro as
  induction as with
  | nil =>
    intro n hn h
    obtain rfl := Option.some.inj h
    exact ⟨by simp, hn⟩
  | cons a as ih =>
    intro n hn h
    rw [checkedSum_cons] at h
    obtain ⟨m, hm, h⟩ := Option.bind_eq_some_iff.mp h
    obtain ⟨rfl, hfit⟩ := fitI32?_eq_some hm
    obtain ⟨rfl, hs⟩ := ih hfit h
    exact ⟨by rw [List.sum_cons, Int.add_assoc], hs⟩

/-- Where neither way alone leads out of the word, the sum is found. -/
theorem checkedSum_of_bounds : ∀ {as : List Int} {n : Int}, n + upwards as ≤ i32Max →
    i32Min ≤ n + downwards as → checkedSum n as = some (n + as.sum) := by
  intro as
  induction as with
  | nil =>
    intro n _ _
    simp [checkedSum]
  | cons a as ih =>
    intro n hup hdown
    have hnonneg := upwards_nonneg as
    have hnonpos := downwards_nonpos as
    rw [upwards_cons] at hup
    rw [downwards_cons] at hdown
    have hfit : InWord (n + a) := ⟨by omega, by omega⟩
    rw [checkedSum_cons, fitI32?_of_inWord hfit, Option.bind_some, ih (by omega) (by omega), List.sum_cons,
      Int.add_assoc]

/-- Towards a sum in the word there is always a summand that does not lead out of it. -/
theorem exists_inWord_step (hne : as ≠ []) (has : ∀ a ∈ as, InWord a) (hn : InWord n)
    (hsum : InWord (n + as.sum)) : ∃ a ∈ as, InWord (n + a) := by
  obtain ⟨hlo, hhi⟩ := hn
  unfold i32Min at hlo
  unfold i32Max at hhi
  by_cases hback : ∃ a ∈ as, (0 ≤ n ∧ a ≤ 0) ∨ (n < 0 ∧ 0 ≤ a)
  · -- a step back towards zero
    obtain ⟨a, ha, hback⟩ := hback
    obtain ⟨hlo', hhi'⟩ := has a ha
    unfold i32Min at hlo'
    unfold i32Max at hhi'
    exact ⟨a, ha, by unfold i32Min; omega, by unfold i32Max; omega⟩
  · -- all summands lead the same way, so none leads further than their sum
    obtain ⟨a, as', rfl⟩ := List.exists_cons_of_ne_nil hne
    obtain ⟨hlo', hhi'⟩ := hsum
    rw [List.sum_cons] at hlo' hhi'
    refine ⟨a, List.mem_cons_self, ?_⟩
    have hall : ∀ b ∈ a :: as', ¬ ((0 ≤ n ∧ b ≤ 0) ∨ (n < 0 ∧ 0 ≤ b)) := fun b hb h => hback ⟨b, hb, h⟩
    have hhead := hall a List.mem_cons_self
    have hrest := sum_eq_upwards_add_downwards as'
    by_cases hpos : 0 ≤ n
    · have hnone : downwards as' = 0 := by
        rw [downwards, List.filter_eq_nil_iff.mpr fun b hb => ?_, List.sum_nil]
        have := hall b (List.mem_cons_of_mem a hb)
        simpa using by omega
      have hup := upwards_nonneg as'
      exact ⟨by unfold i32Min; omega, by omega⟩
    · have hnone : upwards as' = 0 := by
        rw [upwards, List.filter_eq_nil_iff.mpr fun b hb => ?_, List.sum_nil]
        have := hall b (List.mem_cons_of_mem a hb)
        simpa using by omega
      have hdown := downwards_nonpos as'
      exact ⟨by omega, by unfold i32Max; omega⟩

/-- A sum in the word is found in some order. -/
theorem exists_perm_checkedSum : ∀ {k : Nat} {as : List Int} {n : Int}, as.length = k →
    (∀ a ∈ as, InWord a) → InWord n → InWord (n + as.sum) →
      ∃ bs, bs.Perm as ∧ checkedSum n bs = some (n + as.sum) := by
  intro k
  induction k with
  | zero =>
    intro as n hlen _ _ _
    obtain rfl := List.length_eq_zero_iff.mp hlen
    exact ⟨[], .nil, by simp [checkedSum]⟩
  | succ k ih =>
    intro as n hlen has hn hsum
    have hne : as ≠ [] := List.ne_nil_of_length_eq_add_one hlen
    obtain ⟨a, ha, hstep⟩ := exists_inWord_step hne has hn hsum
    have hperm := List.perm_cons_erase ha
    have htotal : n + as.sum = n + a + (as.erase a).sum := by
      rw [hperm.sum_eq, List.sum_cons, Int.add_assoc]
    obtain ⟨bs, hbs, hfound⟩ := ih (by rw [List.length_erase_of_mem ha, hlen, Nat.add_sub_cancel])
      (fun b hb => has b (List.mem_of_mem_erase hb)) hstep (htotal ▸ hsum)
    refine ⟨a :: bs, (hbs.cons a).trans hperm.symm, ?_⟩
    rw [checkedSum_cons, fitI32?_of_inWord hstep, Option.bind_some, hfound, htotal]

/-- If the sum is found in every order, neither way alone leads out of the word: those that lead one way may
come first. -/
theorem bounds_of_forall_perm (h : ∀ bs : List Int, bs.Perm as → (checkedSum 0 bs).isSome) :
    upwards as ≤ i32Max ∧ i32Min ≤ downwards as := by
  have hzero : InWord 0 := by decide
  have hfirst : ∀ p : Int → Bool, InWord (as.filter p).sum := by
    intro p
    have hperm : (as.filter p ++ as.filter fun a => !p a).Perm as := List.filter_append_perm p as
    obtain ⟨s, hs⟩ := Option.isSome_iff_exists.mp (h _ hperm)
    rw [checkedSum_append] at hs
    obtain ⟨m, hm, -⟩ := Option.bind_eq_some_iff.mp hs
    obtain ⟨rfl, hword⟩ := checkedSum_eq_some hzero hm
    rwa [Int.zero_add] at hword
  exact ⟨(hfirst (0 < ·)).2, (hfirst (· ≤ 0)).1⟩

/-- A sum of words is the same in every order if and only if it is steady. -/
theorem checkedSum_perm_iff (has : ∀ a ∈ as, InWord a) :
    (∀ bs : List Int, bs.Perm as → checkedSum 0 bs = checkedSum 0 as) ↔ Steady as := by
  have hzero : InWord 0 := by decide
  constructor
  · intro h hsum
    obtain ⟨bs, hbs, hfound⟩ := exists_perm_checkedSum rfl has hzero (by rwa [Int.zero_add])
    refine bounds_of_forall_perm fun cs hcs => ?_
    rw [h cs hcs, ← h bs hbs, hfound, Option.isSome_some]
  · intro h bs hbs
    by_cases hsum : InWord as.sum
    · obtain ⟨hup, hdown⟩ := h hsum
      have hfound : checkedSum 0 as = some (0 + as.sum) := checkedSum_of_bounds (by omega) (by omega)
      rw [← upwards_perm hbs] at hup
      rw [← downwards_perm hbs] at hdown
      rw [hfound, ← hbs.sum_eq]
      exact checkedSum_of_bounds (by omega) (by omega)
    · have hnone : ∀ cs : List Int, cs.Perm as → checkedSum 0 cs = none := by
        intro cs hcs
        refine Option.eq_none_iff_forall_ne_some.mpr fun s hs => hsum ?_
        obtain ⟨rfl, hword⟩ := checkedSum_eq_some hzero hs
        rwa [Int.zero_add, hcs.sum_eq] at hword
      rw [hnone bs hbs, hnone as (.refl as)]

end Sums

/-! ### Members in any order -/

section Members

variable {g : UseGraph} {elements elements' : List Temp} {phi : Temp} {ty : Ty} {x : Instr}

theorem StridePattern.among_perm (h : elements'.Perm elements) : among elements' = among elements := by
  funext v
  refine congrArg (v.temp?.any ·) (funext fun t => Bool.eq_iff_iff.mpr ?_)
  rw [List.contains_iff_mem, List.contains_iff_mem, h.mem_iff]

theorem StridePattern.addend?_perm (h : elements'.Perm elements) : addend? elements' = addend? elements := by
  unfold addend?
  rw [among_perm h]

theorem StridePattern.gain_perm (h : elements'.Perm elements) : gain g elements' = gain g elements := by
  funext t
  rw [gain, gain, addend?_perm h]

namespace Reduction

theorem stepKind_perm (h : elements'.Perm elements) : stepKind elements' = stepKind elements := by
  unfold stepKind
  rw [StridePattern.among_perm h]

/-- The join of some kinds, `bot` of none. -/
def joinAll : List RedKind → RedKind
  | [] => .bot
  | k :: ks => ks.foldl RedKind.join k

theorem joinAll_perm {ks ls : List RedKind} (h : ks.Perm ls) : joinAll ks = joinAll ls := by
  have hswap : RightCommutative RedKind.join := ⟨fun a b c => by
    rw [RedKind.join_assoc, RedKind.join_comm b c, RedKind.join_assoc]⟩
  induction h with
  | nil => rfl
  | cons k h _ => exact h.foldl_eq k
  | swap k l ks => rw [joinAll, joinAll, List.foldl_cons, List.foldl_cons, RedKind.join_comm]
  | trans _ _ ih ih' => exact ih.trans ih'

/-- The kind of a recurrence does not depend on the order of its members. -/
theorem kindOf_perm (h : elements'.Perm elements) : kindOf g elements' phi = kindOf g elements phi := by
  have hkinds : ∀ es, kindOf g es phi =
      joinAll ((es.filter (· != phi)).filterMap fun t => stepKind es (g.definition? t)) := fun es => by
    unfold kindOf joinAll
    rfl
  rw [hkinds, hkinds, stepKind_perm h]
  exact joinAll_perm ((h.filter _).filterMap _)

/-- Nor does it matter for who reads its values. -/
theorem foreignUse_perm (h : elements'.Perm elements) : foreignUse g elements' = foreignUse g elements := by
  have hcontains : elements'.contains = elements.contains := by
    funext t
    exact Bool.eq_iff_iff.mpr (by rw [List.contains_iff_mem, List.contains_iff_mem, h.mem_iff])
  unfold foreignUse
  rw [hcontains]
  exact h.any_eq

end Reduction

namespace StridePattern

/-- What the members besides the phi add, if all of them add a constant. -/
def addends? (g : UseGraph) (elements : List Temp) (phi : Temp) : Option (List Int) :=
  if ∀ t ∈ elements.filter (· != phi), ((g.definition? t).bind (addend? elements)).isSome then
    some ((elements.filter (· != phi)).map (gain g elements))
  else none

/-- A stride is found as the sum of what the members add. -/
theorem sum?_eq : sum? g elements phi ty =
    if ty = .i32 then (addends? g elements phi).bind (checkedSum 0) else none := by
  unfold sum?
  refine if_congr Iff.rfl ?_ rfl
  unfold addends?
  split
  · rename_i hall
    have hfold : ∀ {ts : List Temp} {n : Int},
        (∀ t ∈ ts, ((g.definition? t).bind (addend? elements)).isSome) →
          ts.foldlM (fun sum t => do fitI32? (sum + (← addend? elements (← g.definition? t)))) n =
            checkedSum n (ts.map (gain g elements)) := by
      intro ts
      induction ts with
      | nil => exact fun _ => rfl
      | cons t ts ih =>
        intro n h
        obtain ⟨ht, hts⟩ := List.forall_mem_cons.mp h
        obtain ⟨a, ha⟩ := Option.isSome_iff_exists.mp ht
        obtain ⟨x, hx, hadd⟩ := Option.bind_eq_some_iff.mp ha
        rw [List.foldlM_cons, List.map_cons, checkedSum_cons]
        simp only [gain, hx, hadd, Option.bind_eq_bind, Option.bind_some, Option.getD_some]
        exact congrArg _ (funext fun m => ih hts)
    exact hfold hall
  · rename_i hall
    refine Option.eq_none_iff_forall_ne_some.mpr fun c hc => hall fun t ht => ?_
    obtain ⟨x, hx, hadd⟩ := (foldlM_eq_some hc).1 t ht
    rw [hx, Option.bind_some, hadd, Option.isSome_some]

theorem addends?_perm (h : elements'.Perm elements) {as : List Int} (has : addends? g elements phi = some as) :
    ∃ bs, addends? g elements' phi = some bs ∧ bs.Perm as := by
  unfold addends? at has ⊢
  obtain ⟨hall, has⟩ := Option.ite_none_right_eq_some.mp has
  obtain rfl := Option.some.inj has
  have hfilter := h.filter (· != phi)
  rw [if_pos fun t ht => ?_]
  · exact ⟨_, rfl, gain_perm h ▸ hfilter.map _⟩
  · rw [addend?_perm h]
    exact hall t (hfilter.mem_iff.mp ht)

theorem addends?_eq_none_of_perm (h : elements'.Perm elements) (hnone : addends? g elements phi = none) :
    addends? g elements' phi = none := by
  refine Option.eq_none_iff_forall_ne_some.mpr fun as has => ?_
  obtain ⟨bs, hbs, -⟩ := addends?_perm h.symm has
  exact Option.some_ne_none bs (hbs.symm.trans hnone)

/-- Members whose sum does not hang on their order. -/
def SteadyIn (g : UseGraph) (elements : List Temp) (phi : Temp) (ty : Ty) : Prop :=
  ty = .i32 → ∀ as ∈ addends? g elements phi, Steady as

instance : Decidable (SteadyIn g elements phi ty) :=
  inferInstanceAs (Decidable (ty = .i32 → ∀ as ∈ addends? g elements phi, Steady as))

theorem steadyIn_perm (h : elements'.Perm elements) (hsteady : SteadyIn g elements phi ty) :
    SteadyIn g elements' phi ty := by
  intro hty as has
  obtain ⟨bs, hbs, hperm⟩ := addends?_perm h.symm has
  exact (steady_perm hperm).mp (hsteady hty bs hbs)

/-- What is added is a word. -/
theorem inWord_of_addend? {c : Int} (h : addend? elements x = some c) : InWord c := by
  unfold addend? at h
  split at h
  · exact Option.some.inj (Option.ite_none_right_eq_some.mp h).2 ▸ ⟨Int32.le_toInt _, Int32.toInt_le _⟩
  · exact Option.some.inj (Option.ite_none_right_eq_some.mp h).2 ▸ ⟨Int32.le_toInt _, Int32.toInt_le _⟩
  · obtain ⟨rfl, hfit⟩ := fitI32?_eq_some (Option.ite_none_right_eq_some.mp h).2
    exact hfit
  · cases h

theorem inWord_of_addends? {as : List Int} (has : addends? g elements phi = some as) : ∀ a ∈ as, InWord a := by
  obtain ⟨hall, has⟩ := Option.ite_none_right_eq_some.mp has
  obtain rfl := Option.some.inj has
  refine List.forall_mem_map.mpr fun t ht => ?_
  obtain ⟨a, ha⟩ := Option.isSome_iff_exists.mp (hall t ht)
  obtain ⟨x, -, hadd⟩ := Option.bind_eq_some_iff.mp ha
  rw [gain, ha, Option.getD_some]
  exact inWord_of_addend? hadd

/-- Each order of what is added is that of some order of the members. -/
theorem exists_perm_of_addends? {as bs : List Int} (has : addends? g elements phi = some as)
    (h : bs.Perm as) : ∃ elements' : List Temp, elements'.Perm elements ∧ addends? g elements' phi = some bs := by
  obtain ⟨hall, hgains⟩ := Option.ite_none_right_eq_some.mp has
  obtain rfl := Option.some.inj hgains
  have hgains : List.Forall₂ (fun a t => a = gain g elements t)
      ((elements.filter (· != phi)).map (gain g elements)) (elements.filter (· != phi)) :=
    List.forall₂_map_left_iff.mpr (List.forall₂_same.mpr fun _ _ => rfl)
  obtain ⟨ts, hts, hperm⟩ := List.perm_comp_forall₂ h hgains
  have hmem : ∀ t ∈ ts, t ≠ phi := fun t ht => by simpa using (List.mem_filter.mp (hperm.mem_iff.mp ht)).2
  have helements : (ts ++ elements.filter fun t => !(t != phi)).Perm elements :=
    (hperm.append_right _).trans (List.filter_append_perm _ elements)
  have hfilter : (ts ++ elements.filter fun t => !(t != phi)).filter (· != phi) = ts := by
    rw [List.filter_append, List.filter_eq_self.mpr fun t ht => by simpa using hmem t ht, List.filter_filter,
      List.filter_eq_nil_iff.mpr fun t _ => by simp, List.append_nil]
  refine ⟨_, helements, ?_⟩
  rw [addends?, hfilter, gain_perm helements, addend?_perm helements,
    if_pos fun t ht => hall t (hperm.mem_iff.mp ht)]
  exact congrArg some (List.forall₂_eq_eq_eq ▸ List.forall₂_map_right_iff.mpr hts).symm

/-- All enumerations of some members find the same stride if and only if the members are steady. -/
theorem sum?_perm_iff : (∀ elements' : List Temp, elements'.Perm elements →
    sum? g elements' phi ty = sum? g elements phi ty) ↔ SteadyIn g elements phi ty := by
  by_cases hty : ty = .i32
  · simp only [sum?_eq, if_pos hty]
    cases has : addends? g elements phi with
    | none =>
      refine iff_of_true (fun elements' h => ?_) fun _ as h => ?_
      · rw [addends?_eq_none_of_perm h has]
      · cases has.symm.trans h
    | some as =>
      have hsteady : SteadyIn g elements phi ty ↔ Steady as :=
        ⟨fun h => h hty as has, fun h _ bs hbs => Option.some.inj (has.symm.trans hbs) ▸ h⟩
      rw [hsteady, ← checkedSum_perm_iff (inWord_of_addends? has)]
      constructor
      · intro h bs hbs
        obtain ⟨elements', hperm, hbs⟩ := exists_perm_of_addends? has hbs
        simpa only [hbs, Option.bind_some] using h elements' hperm
      · intro h elements' hperm
        obtain ⟨bs, hbs, hperm⟩ := addends?_perm hperm has
        rw [hbs, Option.bind_some, Option.bind_some, h bs hperm]
  · refine iff_of_true (fun elements' _ => ?_) fun h => absurd h hty
    rw [sum?, sum?, if_neg hty, if_neg hty]

end StridePattern

end Members

/-! ### Recurrences of a loop -/

/-- An order in which the members of the recurrence of a phi are gone through. -/
structure Enumeration where
  list : Temp → List Temp → List Temp
  perm : ∀ phi elements, (list phi elements).Perm elements

namespace Enumeration

/-- The order in which the search for components leaves them. -/
def stored : Enumeration := ⟨fun _ elements => elements, fun _ _ => .refl _⟩

/-- The other way round. -/
def backwards : Enumeration := ⟨fun _ elements => elements.reverse, fun _ elements => elements.reverse_perm⟩

/-- The members in turn from two lists. -/
def riffle {α : Type} : List α → List α → List α
  | [], bs => bs
  | as, [] => as
  | a :: as, b :: bs => a :: b :: riffle as bs

theorem riffle_perm {α : Type} (as bs : List α) : (riffle as bs).Perm (as ++ bs) := by
  fun_induction riffle as bs with
  | case1 bs => exact .refl bs
  | case2 as => rw [List.append_nil]
  | case3 a as b bs ih => exact ((ih.cons b).trans List.perm_middle.symm).cons a

/-- In turn from the first ones and from the others. -/
def halves (k : Nat) : Enumeration :=
  ⟨fun _ elements => riffle (elements.take k) (elements.drop k),
    fun _ elements => (riffle_perm _ _).trans (.of_eq (List.take_append_drop k elements))⟩

end Enumeration

namespace Recurrences

variable {g : UseGraph} {phis : List Temp} {phi : Temp} {ty : Ty} {r r' : Recurrences}
  {elements elements' : List Temp}

/-- The recurrences with those of one more phi, their members gone through in some order. -/
def classifyIn (e : Enumeration) (g : UseGraph) (phis : List Temp) (sr : ComponentSearch × Recurrences)
    (p : Phi) : ComponentSearch × Recurrences :=
  let s := ComponentSearch.run g p.target sr.1
  match s.component? p.target with
  | none => (s, sr.2)
  | some elements => (s, classify g phis p.target p.ty (e.list p.target elements) sr.2)

/-- The recurrences of some phis, the members gone through in some order. -/
def ofPhisIn (e : Enumeration) (g : UseGraph) (phis : List Phi) : Recurrences :=
  (phis.foldl (classifyIn e g (phis.map (·.target))) (ComponentSearch.empty, empty)).2

/-- The recurrences of a loop, the members gone through in some order. -/
def ofLoopIn (e : Enumeration) (f : Func) (t : LoopForest) (l : Loop) : Recurrences :=
  ofPhisIn e (.ofBlocks (l.blocks f t)) (((f.linked? l.header).map (·.phis)).getD [])

theorem ofLoopIn_stored (f : Func) (t : LoopForest) (l : Loop) : ofLoopIn .stored f t l = ofLoop f t l := rfl

/-- The same recurrences, but for the order of their members. -/
structure Agrees (r r' : Recurrences) : Prop where
  strides : List.Forall₂ (fun p q => p.phi = q.phi ∧ p.stride = q.stride ∧ p.elements.Perm q.elements)
    r.strides r'.strides
  reductions : List.Forall₂ (fun p q => p.phi = q.phi ∧ p.kind = q.kind ∧ p.ty = q.ty ∧
    p.hasForeignUser = q.hasForeignUser ∧ p.elements.Perm q.elements) r.reductions r'.reductions

/-- A phi is classified alike under two enumerations of a recurrence whose members are steady. -/
theorem agrees_classify (h : r.Agrees r') (hperm : elements'.Perm elements)
    (hsteady : StridePattern.SteadyIn g elements phi ty) :
    (classify g phis phi ty elements' r).Agrees (classify g phis phi ty elements r') := by
  unfold classify
  rw [hperm.length_eq]
  split
  · exact h
  rw [StridePattern.sum?_perm_iff.mpr hsteady elements' hperm]
  split
  · exact ⟨.cons ⟨rfl, rfl, hperm⟩ h.strides, h.reductions⟩
  · refine ⟨h.strides, .cons ⟨rfl, ?_, rfl, Reduction.foreignUse_perm hperm, hperm⟩ h.reductions⟩
    rw [hperm.any_eq, Reduction.kindOf_perm hperm]

/-- The recurrence of a phi is steady, in whatever order its members are listed. -/
def Steady (g : UseGraph) (p : Phi) : Prop :=
  ∀ elements : List Temp, elements.Nodup → (∀ u, u ∈ elements ↔ g.Coupled p.target u) →
    StridePattern.SteadyIn g elements p.target p.ty

/-- One list of the members is enough to see that a recurrence is steady. -/
theorem steady_of_component? {ts : List Temp} {p : Phi}
    (h : (ComponentSearch.runs g ts).component? p.target = some elements)
    (hsteady : StridePattern.SteadyIn g elements p.target p.ty) : Steady g p := by
  intro elements' hnodup hcoupled
  obtain ⟨hnodup', hcoupled'⟩ := ComponentSearch.members_of_component? h
  refine StridePattern.steadyIn_perm ((List.perm_ext_iff_of_nodup hnodup hnodup').mpr fun u => ?_) hsteady
  rw [hcoupled, hcoupled']

/-- Phi by phi, two enumerations find the same. -/
theorem agrees_foldl (e e' : Enumeration) : ∀ {ps : List Phi} (ts : List Temp) {r r' : Recurrences},
    (∀ p ∈ ps, Steady g p) → r.Agrees r' →
      (ps.foldl (classifyIn e g phis) (ComponentSearch.runs g ts, r)).2.Agrees
        (ps.foldl (classifyIn e' g phis) (ComponentSearch.runs g ts, r')).2 := by
  intro ps
  induction ps with
  | nil => exact fun _ _ _ _ h => h
  | cons p ps ih =>
    intro ts r r' hsteady h
    obtain ⟨hp, hps⟩ := List.forall_mem_cons.mp hsteady
    rw [List.foldl_cons, List.foldl_cons]
    unfold classifyIn
    dsimp only
    rw [← ComponentSearch.runs_concat]
    cases hcomponent : (ComponentSearch.runs g (ts ++ [p.target])).component? p.target with
    | none => exact ih _ hps h
    | some elements =>
      obtain ⟨hnodup, hcoupled⟩ := ComponentSearch.members_of_component? hcomponent
      have hsteady := StridePattern.steadyIn_perm (e'.perm p.target elements) (hp elements hnodup hcoupled)
      exact ih _ hps (agrees_classify h ((e.perm _ _).trans (e'.perm _ _).symm) hsteady)

/-- Whatever the order in which the members of each recurrence are gone through, the phis of a loop get the
same strides and the same kinds of reductions, if their recurrences are steady. -/
theorem agrees_ofLoopIn (e e' : Enumeration) {f : Func} {t : LoopForest} {l : Loop}
    (hsteady : ∀ header, f.linked? l.header = some header →
      ∀ p ∈ header.phis, Steady (.ofBlocks (l.blocks f t)) p) :
    (ofLoopIn e f t l).Agrees (ofLoopIn e' f t l) := by
  have hempty : empty.Agrees empty := ⟨.nil, .nil⟩
  have hphis : ∀ p ∈ ((f.linked? l.header).map (·.phis)).getD [], Steady (.ofBlocks (l.blocks f t)) p := by
    intro p hp
    cases hheader : f.linked? l.header with
    | none =>
      rw [hheader] at hp
      cases hp
    | some header =>
      rw [hheader] at hp
      exact hsteady header hheader p hp
  exact agrees_foldl e e' [] hphis hempty

/-- The recurrence that goes up by five and down by two, its members as they are stored and the other way
round. -/
theorem agrees_zigzag : ∃ l ∈ StridePattern.zigzag.forest.loops,
    (∀ header, StridePattern.zigzag.linked? l.header = some header →
      ∀ p ∈ header.phis, Steady (.ofBlocks (l.blocks StridePattern.zigzag StridePattern.zigzag.forest)) p) ∧
    (ofLoopIn .stored StridePattern.zigzag StridePattern.zigzag.forest l).Agrees
      (ofLoopIn .backwards StridePattern.zigzag StridePattern.zigzag.forest l) := by
  let f := StridePattern.zigzag
  have h : (f.forest.loops.any fun l => (f.linked? l.header).any fun header => header.phis.all fun p =>
      let g := UseGraph.ofBlocks (l.blocks f f.forest)
      ((ComponentSearch.runs g [p.target]).component? p.target).any fun elements =>
        decide (StridePattern.SteadyIn g elements p.target p.ty)) = true := by decide +kernel
  simp only [List.any_eq_true, List.all_eq_true, Option.any_eq_true, decide_eq_true_eq] at h
  obtain ⟨l, hl, header, hheader, h⟩ := h
  have hsteady : ∀ header, f.linked? l.header = some header →
      ∀ p ∈ header.phis, Steady (.ofBlocks (l.blocks f f.forest)) p := by
    intro header' hheader' p hp
    obtain rfl := Option.some.inj (hheader.symm.trans hheader')
    obtain ⟨elements, hcomponent, hsteady⟩ := h p hp
    exact steady_of_component? hcomponent hsteady
  exact ⟨l, hl, hsteady, agrees_ofLoopIn .stored .backwards hsteady⟩

/-- Adds the largest number some times and takes it away as often. -/
def climbing (k : Nat) : Func :=
  let i : Temp := .ofLocal "i" .i32
  let c : Temp := .ofLocal "c" .i32
  let n : Temp := .ofLocal "n" .i32
  let up (j : Nat) : Temp := .ofLocal s!"a{j}" .i32
  let down (j : Nat) : Temp := .ofLocal s!"b{j}" .i32
  let previous (j : Nat) (first : Temp) (step : Nat → Temp) : Temp := if j = 0 then first else step (j - 1)
  let ups := (List.range k).map fun j => Instr.arith (up j) .add .i32 (.temp (previous j i up)) (.int 2147483647)
  let downs := (List.range k).map fun j =>
    Instr.arith (down j) .sub .i32 (.temp (previous j (previous k i up) down)) (.int 2147483647)
  { total := 4
    name := "f"
    retTy := .i32
    params := [n]
    blocks := [
      { Block.ofId 0 with succ := [.last 1], jump := some (.jump (.ofBlock 1)) },
      { Block.ofId 1 with
        prev := [.last 0, .last 2]
        succ := [.last 2, .last 3]
        phis := [.ofTarget i [(.temp n, .ofBlock 0), (.temp (previous k i down), .ofBlock 2)]]
        instrs := [.comp c .icmp .slt .i32 (.temp i) (.int 0)]
        jump := some (.branch .i32 (.temp c) (.ofBlock 2) (.ofBlock 3)) },
      { Block.ofId 2 with
        prev := [.last 1]
        succ := [.last 1]
        instrs := ups ++ downs
        jump := some (.jump (.ofBlock 1)) },
      { Block.ofId 3 with prev := [.last 1], jump := some (.ret (some (.temp i))) }] }

/-- As the members are stored, those that add come first and the sum leaves the word: a reduction by `add`.  In
turn with those that take away, they sum up to a stride of 0. -/
theorem disagrees_of_climbing : (climbing 20).verify = .ok () ∧ ∃ l ∈ (climbing 20).forest.loops,
    ∃ e : Enumeration, ¬ (ofLoopIn .stored (climbing 20) (climbing 20).forest l).Agrees
      (ofLoopIn e (climbing 20) (climbing 20).forest l) := by
  let f := climbing 20
  have h : (f.forest.loops.any fun l =>
      ((ofLoopIn .stored f f.forest l).reductions.any fun r => r.kind == .add) &&
      ((ofLoopIn (.halves 20) f f.forest l).strides.any fun s => s.stride == 0) &&
      (ofLoopIn (.halves 20) f f.forest l).reductions.isEmpty) = true := by decide +kernel
  simp only [List.any_eq_true, Bool.and_eq_true, List.isEmpty_iff] at h
  obtain ⟨l, hl, ⟨⟨r, hr, -⟩, -⟩, hnone⟩ := h
  refine ⟨by decide +kernel, l, hl, .halves 20, fun hagrees => ?_⟩
  have hempty := hagrees.reductions
  rw [hnone, List.forall₂_nil_right_iff] at hempty
  rw [hempty] at hr
  cases hr

end Recurrences

end LoopLanes
