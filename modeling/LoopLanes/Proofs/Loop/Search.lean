/-
The search for loops without limits.

The search climbs, collects and walks with limits on how far it goes.  Here are the same three
activities as relations, which say what is done next and nothing of limits: what is derived from them
comes to an end.

* `Collects`, `Visits`, `Walks` — collecting a loop, looking at one block, walking the dominator tree;
* `collects_collect` — collecting has fuel for all rounds;
* **`walks_walk`** — so has the walk, for each part of the tree.
-/
import LoopLanes.Proofs.Loop.Natural

namespace LoopLanes

namespace LoopSearch

variable {f : Func} {dom : DomTree} {s s' s'' : LoopSearch} {b h r : BlockRef} {new part : Nat}

/-! ### Searching -/

/-- The outermost of the loops around a loop. -/
def Tops (s : LoopSearch) (part id : Nat) : Prop := s.Around part id ∧ s.outer? part = none

/-- Collecting a loop from a stack of blocks. -/
inductive Collects (f : Func) (new : Nat) : List BlockRef → LoopSearch → LoopSearch → Prop
  | done {s : LoopSearch} : Collects f new [] s s
  | join {b : BlockRef} {stack : List BlockRef} {s s' : LoopSearch} (free : s.owner? b.number = none)
      (rest : Collects f new ((prevs f b).reverse ++ stack) (s.own b.number new) s') :
      Collects f new (b :: stack) s s'
  | skip {b : BlockRef} {stack : List BlockRef} {s s' : LoopSearch} {l : Nat} (taken : s.owner? b.number = some l)
      (top : s.Tops new l) (rest : Collects f new stack s s') : Collects f new (b :: stack) s s'
  | take {b : BlockRef} {stack : List BlockRef} {s s' : LoopSearch} {l part : Nat}
      (taken : s.owner? b.number = some l) (top : s.Tops part l) (ne : part ≠ new)
      (rest : Collects f new ((((s.header? part).map (prevs f)).getD []).reverse ++ stack) (s.absorb part new) s') :
      Collects f new (b :: stack) s s'

/-- Looking at a block, which may be the header of a loop. -/
inductive Visits (f : Func) (dom : DomTree) (h : BlockRef) (s : LoopSearch) : LoopSearch → Prop
  | none (hno : ((prevs f h).filter fun p => dom.dominates h.number p.number) = []) : Visits f dom h s s
  | loop {s' : LoopSearch} (hsome : ((prevs f h).filter fun p => dom.dominates h.number p.number) ≠ [])
      (rest : Collects f (s.found.length + 1)
        ((prevs f h).filter fun p => dom.dominates h.number p.number).reverse (s.opened h) s') :
      Visits f dom h s s'

/-- Walking parts of the dominator tree one after the other, each from the leaves up. -/
inductive Walks (f : Func) (dom : DomTree) : List BlockRef → LoopSearch → LoopSearch → Prop
  | nil {s : LoopSearch} : Walks f dom [] s s
  | cons {b : BlockRef} {bs : List BlockRef} {s s₁ s₂ s₃ : LoopSearch}
      (below : Walks f dom (dom.children b.number) s s₁) (here : Visits f dom b s₁ s₂)
      (rest : Walks f dom bs s₂ s₃) : Walks f dom (b :: bs) s s₃

theorem Walks.append {as bs : List BlockRef} (h : Walks f dom as s s') (h' : Walks f dom bs s' s'') :
    Walks f dom (as ++ bs) s s'' := by
  induction h with
  | nil => exact h'
  | cons below here _ _ ih => exact .cons below here (ih h')

/-! ### Limits -/

/-- With fuel for all that it may push, collecting is not cut short. -/
theorem collects_collect (hf : f.Linked) : ∀ {fuel : Nat} {stack : List BlockRef} {s : LoopSearch},
    s.Ranged → new = s.found.length → 1 ≤ new → potential f new s stack < fuel →
      Collects f new stack s (collect f new fuel stack s) := by
  intro fuel
  induction fuel with
  | zero =>
    intro stack s _ _ _ hfuel
    omega
  | succ fuel ih =>
    intro stack s hs hnew h1 hfuel
    cases stack with
    | nil => exact .done
    | cons r stack =>
      have hpot : potential f new s (r :: stack) = potential f new s stack + 1 := by
        simp [potential]; omega
      simp only [collect]
      cases ho : s.owner? r.number with
      | none =>
        have hown : potential f new (s.own r.number new) ((prevs f r).reverse ++ stack) ≤ potential f new s stack :=
          potential_own hf ho stack
        exact .join ho (ih (hs.own h1 (Nat.le_of_eq hnew)) hnew h1 (by omega))
      | some l =>
        obtain ⟨hl1, hln⟩ := hs.owner _ _ ho
        obtain ⟨hnone, haround, hp1, hpn⟩ := outermost_spec hs hl1 hln (Nat.le_add_left s.found.length l)
        by_cases hpart : s.outermost s.found.length l = new
        · simp only [hpart, if_true]
          exact .skip ho (hpart ▸ ⟨haround, hnone⟩) (ih hs hnew h1 (by omega))
        · simp only [if_neg hpart]
          refine .take ho ⟨haround, hnone⟩ hpart (ih (hs.absorb hp1 (by omega) (by omega)) (by simpa using hnew) h1 ?_)
          have := potential_absorb (f := f) hp1 hpn hnone hpart stack
          exact Nat.lt_of_le_of_lt this (by omega)

theorem visits_visit (hf : f.Linked) (dom : DomTree) (h : BlockRef) (hs : s.Ranged) :
    Visits f dom h s (visit f dom h s) := by
  unfold visit
  dsimp only
  split
  · exact .none (List.isEmpty_iff.mp ‹_›)
  · rename_i hne
    exact .loop (fun e => hne (List.isEmpty_iff.mpr e))
      (collects_collect hf hs.opened opened_length.symm (by omega) (potential_latches_lt f dom h s))

/-- Parts of the tree that are walked one after the other. -/
theorem walks_foldl (walk : BlockRef → LoopSearch → LoopSearch) : ∀ (bs : List BlockRef) {s : LoopSearch},
    (∀ b ∈ bs, ∀ s : LoopSearch, s.Ranged → Walks f dom [b] s (walk b s) ∧ (walk b s).Ranged) → s.Ranged →
      Walks f dom bs s (bs.foldl (fun s b => walk b s) s) ∧ (bs.foldl (fun s b => walk b s) s).Ranged := by
  intro bs
  induction bs with
  | nil => exact fun _ hs => ⟨.nil, hs⟩
  | cons b bs ih =>
    intro s hall hs
    obtain ⟨hb, hall⟩ := List.forall_mem_cons.mp hall
    obtain ⟨hwalk, hs⟩ := hb s hs
    obtain ⟨hrest, hs⟩ := ih hall hs
    exact ⟨hwalk.append hrest, hs⟩

/-- With fuel for its region, the part of the tree below a block is walked to its leaves. -/
theorem walks_walk (hf : f.Linked) : ∀ {fuel : Nat} {b : BlockRef} {s : LoopSearch}, (f.flow false).Reaches b.number →
    ((DomTree.lookup (DomTree.regionsOf f false) b.number).getD []).length ≤ fuel → s.Ranged →
      Walks f (DomTree.ofFunc f false) [b] s (walk f (DomTree.ofFunc f false) fuel b s) ∧
        (walk f (DomTree.ofFunc f false) fuel b s).Ranged := by
  intro fuel
  induction fuel with
  | zero =>
    intro b s hb hlen _
    have hmem := (DomTree.mem_region hf).mpr (.refl hb)
    rw [List.length_eq_zero_iff.mp (Nat.le_zero.mp hlen)] at hmem
    cases hmem
  | succ fuel ih =>
    intro b s _ hlen hs
    obtain ⟨hbelow, hs⟩ := walks_foldl (walk f (DomTree.ofFunc f false) fuel)
      ((DomTree.ofFunc f false).children b.number) (fun c hc s hs => by
        -- the region of a child is smaller
        obtain ⟨d, -, rfl, hparent⟩ := DomTree.mem_children hf hc
        have hlt := DomTree.region_length_lt hf hparent.dominates hparent.ne
        exact ih hparent.dominates.reaches (Nat.le_of_lt_succ (Nat.lt_of_lt_of_le hlt hlen)) hs) hs
    exact ⟨.cons hbelow (visits_visit hf _ b hs) .nil, (headers_visit hf _ hs).2⟩

end LoopSearch

end LoopLanes
