/-
Sorting by insertion.

The order is given as a Boolean test.  Elements that the test does not tell
apart keep their places relative to one another.

* `insertSort_perm` — sorting only moves elements;
* `pairwise_insertSort` — by a total and transitive test they end up in order.
-/

namespace LoopLanes

variable {α : Type}

/-- Puts an element in front of the first one that it may come before. -/
def insertInOrder (le : α → α → Bool) (a : α) : List α → List α
  | [] => [a]
  | b :: bs => if le a b then a :: b :: bs else b :: insertInOrder le a bs

/-- Sorts a list. -/
def insertSort (le : α → α → Bool) : List α → List α
  | [] => []
  | a :: as => insertInOrder le a (insertSort le as)

theorem insertInOrder_perm (le : α → α → Bool) (a : α) (bs : List α) :
    (insertInOrder le a bs).Perm (a :: bs) := by
  induction bs with
  | nil => exact .refl _
  | cons b bs ih =>
    rw [insertInOrder]
    split
    · exact .refl _
    · exact (ih.cons b).trans (.swap a b bs)

/-- Sorting only moves elements. -/
theorem insertSort_perm (le : α → α → Bool) (as : List α) : (insertSort le as).Perm as := by
  induction as with
  | nil => exact .refl _
  | cons a as ih => exact (insertInOrder_perm le a _).trans (ih.cons a)

theorem mem_insertSort (le : α → α → Bool) (a : α) (as : List α) :
    a ∈ insertSort le as ↔ a ∈ as :=
  (insertSort_perm le as).mem_iff

theorem pairwise_insertInOrder {le : α → α → Bool} (total : ∀ a b, le a b || le b a)
    (trans : ∀ a b c, le a b → le b c → le a c) (a : α) (bs : List α)
    (h : bs.Pairwise fun x y => le x y) :
    (insertInOrder le a bs).Pairwise fun x y => le x y := by
  induction bs with
  | nil => simp [insertInOrder]
  | cons b bs ih =>
    obtain ⟨hb, hbs⟩ := List.pairwise_cons.mp h
    rw [insertInOrder]
    split
    · next hab =>
      refine List.pairwise_cons.mpr ⟨?_, h⟩
      intro c hc
      rcases List.mem_cons.mp hc with rfl | hc
      · exact hab
      · exact trans a b c hab (hb c hc)
    · next hab =>
      have hba : le b a := by
        have := total a b
        simp_all
      refine List.pairwise_cons.mpr ⟨?_, ih hbs⟩
      intro c hc
      rcases List.mem_cons.mp ((insertInOrder_perm le a bs).mem_iff.mp hc) with rfl | hc
      · exact hba
      · exact hb c hc

/-- By a total and transitive test, sorting puts elements in order. -/
theorem pairwise_insertSort {le : α → α → Bool} (total : ∀ a b, le a b || le b a)
    (trans : ∀ a b c, le a b → le b c → le a c) (as : List α) :
    (insertSort le as).Pairwise fun x y => le x y := by
  induction as with
  | nil => exact .nil
  | cons a as ih => exact pairwise_insertInOrder total trans a _ ih

end LoopLanes
