/-
Loops without parts.

A loop that nothing was put inside has the blocks that were collected for it and no others.  From each of
them, the header apart, an edge leads to another one of them, and all that leads to it is one of them.
The header dominates those that are reached.

* `Gathers` — what is known of such a loop while it is collected;
* `leafy_walk` — the loops without parts that the search finds;
* `LoopForest.bare_of_acyclic` — a loop without a cycle besides its header has no parts;
* **`LoopForest.exists_edge_of_acyclic`** — each of its blocks goes on to a block of the loop.
-/
import LoopLanes.Proofs.Cfg.Paths
import LoopLanes.Proofs.Loop.Nesting
import LoopLanes.Proofs.Loop.Search

namespace LoopLanes

/-- What a block strictly dominates is entered from what it dominates. -/
theorem Flow.Dominates.exists_prev {V : Type} {G : Flow V} {a b : V} (h : G.Dominates a b) (ne : b ≠ a) :
    ∃ u, G.edge u b ∧ G.Dominates a u := by
  obtain ⟨r, hr, p⟩ := h.reaches
  rcases p.cases_tail with rfl | ⟨u, p, e⟩
  · exact absurd (Reaches.of_root (G := G.without a) ⟨hr, ne⟩) h.2
  · exact ⟨u, e, h.of_edge ne ⟨r, hr, p⟩ e⟩

namespace LoopSearch

variable {f : Func} {s s' : LoopSearch} {a id k new : Nat} {v : Int} {h q r : BlockRef} {stack : List BlockRef}

/-- Predecessor links are edges. -/
theorem edge_of_mem_prevs (hf : f.Linked) {p : BlockRef} (hp : p ∈ prevs f r) :
    (f.flow false).edge p.number r.number := by
  cases hb : f.linked? r with
  | none => simp [prevs, hb] at hp
  | some b =>
    obtain ⟨hmem, rfl⟩ := Func.linked?_mem hb
    exact (mem_prevs_iff hf hmem).mp ⟨p, hp, rfl⟩

/-- No loop was put inside a loop. -/
def Bare (s : LoopSearch) (id : Nat) : Prop := ∀ k, 1 ≤ k → s.outer? k ≠ some id

/-- Nothing but a loop without parts itself lies inside it. -/
theorem Bare.eq_of_around (hs : s.Ranged) (hb : s.Bare a) (ha : Around s a id) (h1 : 1 ≤ id) : id = a := by
  induction ha with
  | refl => rfl
  | @step id o ho _ ih =>
    have := hs.outer _ _ ho
    obtain rfl := ih (by omega)
    exact absurd ho (hb id h1)

theorem Around.le_length (hs : s.Ranged) (ha : Around s a id) (hn : id ≤ s.found.length) : a ≤ s.found.length := by
  induction ha with
  | refl => exact hn
  | step e _ ih => exact ih (hs.outer _ _ e).2

/-- A loop has a loop without parts inside. -/
theorem exists_bare (hs : s.Ranged) : ∀ {id : Nat}, 1 ≤ id → ∃ k, 1 ≤ k ∧ k ≤ id ∧ Around s id k ∧ s.Bare k := by
  intro id
  induction id using Nat.strongRecOn with
  | ind id ih =>
    intro h1
    by_cases hb : s.Bare id
    · exact ⟨id, h1, Nat.le_refl _, .refl, hb⟩
    · obtain ⟨k, hk1, ho⟩ : ∃ k, 1 ≤ k ∧ s.outer? k = some id := by simpa [Bare] using hb
      have hlt := (hs.outer _ _ ho).1
      obtain ⟨m, hm1, hmk, ha, hm⟩ := ih k hlt hk1
      exact ⟨m, hm1, by omega, .trans (.step ho .refl) ha, hm⟩

/-! ### Collecting -/

/-- What is known of a loop that has nothing inside but its blocks, and of the blocks on the stack. -/
structure Gathers (f : Func) (id : Nat) (q : BlockRef) (s : LoopSearch) (stack : List BlockRef) : Prop where
  header : s.owner? q.number = some id
  dominates : ∀ v, s.owner? v = some id → (f.flow false).Reaches v → (f.flow false).Dominates q.number v
  forward : ∀ v, s.owner? v = some id → v ≠ q.number → ∃ w, (f.flow false).edge v w ∧ s.owner? w = some id
  backward : ∀ v, s.owner? v = some id → v ≠ q.number → ∀ u, (f.flow false).edge u v →
    s.owner? u = some id ∨ ∃ p ∈ stack, p.number = u
  stack_block : ∀ p ∈ stack, ∃ b ∈ f.blocks, b.ref = p
  stack_dominates : ∀ p ∈ stack, (f.flow false).Reaches p.number → (f.flow false).Dominates q.number p.number
  stack_forward : ∀ p ∈ stack, ∃ w, (f.flow false).edge p.number w ∧ s.owner? w = some id

namespace Gathers

/-- A block without a loop joins. -/
theorem own (hf : f.Linked) (hg : Gathers f new h s (r :: stack)) (ho : s.owner? r.number = none) :
    Gathers f new h (s.own r.number new) ((prevs f r).reverse ++ stack) := by
  have hext : Extends s (s.own r.number new) := .own ho new
  obtain ⟨⟨b, hb, rfl⟩, hblock⟩ := List.forall_mem_cons.mp hg.stack_block
  obtain ⟨hdom, hdominates⟩ := List.forall_mem_cons.mp hg.stack_dominates
  obtain ⟨hnext, hforward⟩ := List.forall_mem_cons.mp hg.stack_forward
  have hne : b.id ≠ h.number := by
    intro e
    have := hg.header
    rw [← e, show s.owner? b.id = none from ho] at this
    cases this
  have hnew : (s.own b.ref.number new).owner? b.id = some new := by simp [Block.id]
  have hcases : ∀ {v}, (s.own b.ref.number new).owner? v = some new → v = b.id ∨ s.owner? v = some new := by
    intro v hv
    rw [own_owner?] at hv
    split at hv
    · exact .inl ‹v = _›
    · exact .inr hv
  have hpushed : ∀ p ∈ (prevs f b.ref).reverse ++ stack, (f.flow false).edge p.number b.id ∨ p ∈ stack := by
    intro p hp
    rcases List.mem_append.mp hp with hp | hp
    · exact .inl (edge_of_mem_prevs hf (List.mem_reverse.mp hp))
    · exact .inr hp
  refine ⟨hext.owner _ _ hg.header, fun v hv hreach => ?_, fun v hv hvh => ?_, fun v hv hvh u e => ?_,
    fun p hp => ?_, fun p hp hreach => ?_, fun p hp => ?_⟩
  · rcases hcases hv with rfl | hv
    · exact hdom hreach
    · exact hg.dominates v hv hreach
  · rcases hcases hv with rfl | hv
    · obtain ⟨w, e, hw⟩ := hnext
      exact ⟨w, e, hext.owner _ _ hw⟩
    · obtain ⟨w, e, hw⟩ := hg.forward v hv hvh
      exact ⟨w, e, hext.owner _ _ hw⟩
  · rcases hcases hv with rfl | hv
    · obtain ⟨p, hp, rfl⟩ := (mem_prevs_iff hf hb).mpr e
      exact .inr ⟨p, List.mem_append_left _ (List.mem_reverse.mpr hp), rfl⟩
    · rcases hg.backward v hv hvh u e with hu | ⟨p, hp, rfl⟩
      · exact .inl (hext.owner _ _ hu)
      · rcases List.mem_cons.mp hp with rfl | hp
        · exact .inl hnew
        · exact .inr ⟨p, List.mem_append_right _ hp, rfl⟩
  · rcases List.mem_append.mp hp with hp | hp
    · exact block_of_mem_prevs hf (List.mem_reverse.mp hp)
    · exact hblock p hp
  · rcases hpushed p hp with e | hp
    · exact (hdom (hreach.step e)).of_edge hne hreach e
    · exact hdominates p hp hreach
  · rcases hpushed p hp with e | hp
    · exact ⟨b.id, e, hnew⟩
    · obtain ⟨w, e, hw⟩ := hforward p hp
      exact ⟨w, e, hext.owner _ _ hw⟩

/-- A block of the loop is passed over. -/
theorem skip (hg : Gathers f new h s (r :: stack)) (hr : s.owner? r.number = some new) :
    Gathers f new h s stack where
  header := hg.header
  dominates := hg.dominates
  forward := hg.forward
  backward v hv hvh u e := by
    rcases hg.backward v hv hvh u e with hu | ⟨p, hp, rfl⟩
    · exact .inl hu
    · rcases List.mem_cons.mp hp with rfl | hp
      · exact .inl hr
      · exact .inr ⟨p, hp, rfl⟩
  stack_block p hp := hg.stack_block p (List.mem_cons_of_mem _ hp)
  stack_dominates p hp := hg.stack_dominates p (List.mem_cons_of_mem _ hp)
  stack_forward p hp := hg.stack_forward p (List.mem_cons_of_mem _ hp)

/-- Where the blocks of a loop that was collected stay the same, all else does. -/
theorem congr (hg : Gathers f new h s []) (hiff : ∀ v, s'.owner? v = some new ↔ s.owner? v = some new) :
    Gathers f new h s' [] where
  header := (hiff _).mpr hg.header
  dominates v hv := hg.dominates v ((hiff v).mp hv)
  forward v hv ne := by
    obtain ⟨w, e, hw⟩ := hg.forward v ((hiff v).mp hv) ne
    exact ⟨w, e, (hiff w).mpr hw⟩
  backward v hv ne u e := (hg.backward v ((hiff v).mp hv) ne u e).imp_left (hiff u).mpr
  stack_block := by simp
  stack_dominates := by simp
  stack_forward := by simp

/-- A new loop has its header, and the latches on the stack. -/
theorem opened (hf : f.Linked) (hs : s.Ranged) (hh : (f.flow false).Reaches h.number) :
    Gathers f (s.found.length + 1) h (s.opened h) ((prevs f h).filter fun p =>
      (DomTree.ofFunc f false).dominates h.number p.number).reverse := by
  have hnew : ∀ v, (s.opened h).owner? v = some (s.found.length + 1) → v = h.number := by
    intro v hv
    rw [opened_owner?] at hv
    split at hv
    · assumption
    · have := hs.owner v _ hv
      omega
  have hlatch : ∀ p ∈ ((prevs f h).filter fun p =>
      (DomTree.ofFunc f false).dominates h.number p.number).reverse,
      p ∈ prevs f h ∧ (f.flow false).Dominates h.number p.number := fun p hp => by
    obtain ⟨hp, hdom⟩ := List.mem_filter.mp (List.mem_reverse.mp hp)
    exact ⟨hp, (DomTree.dominates_iff hf).mp hdom⟩
  have hheader : (s.opened h).owner? h.number = some (s.found.length + 1) := by simp
  exact
    { header := hheader
      dominates := fun v hv _ => by
        rw [hnew v hv]
        exact .refl hh
      forward := fun v hv ne => absurd (hnew v hv) ne
      backward := fun v hv ne => absurd (hnew v hv) ne
      stack_block := fun p hp => block_of_mem_prevs hf (hlatch p hp).1
      stack_dominates := fun p hp _ => (hlatch p hp).2
      stack_forward := fun p hp => ⟨_, edge_of_mem_prevs hf (hlatch p hp).1, hheader⟩ }

end Gathers

/-- Collecting a loop: it stays without parts as long as no other loop is met, and blocks of other loops
stay where they are. -/
theorem Collects.spec (hf : f.Linked) (hc : Collects f new stack s s') : s.Ranged → new = s.found.length → 1 ≤ new →
    (s.Bare new → Gathers f new h s stack) → Extends s s' ∧ (s'.Bare new → Gathers f new h s' []) ∧
      ∀ v id, id ≠ new → s'.owner? v = some id → s.owner? v = some id := by
  induction hc with
  | done => exact fun _ _ _ hg => ⟨.refl, hg, fun _ _ _ ho => ho⟩
  | @join r stack s s' free _ ih =>
    intro hs hnew h1 hg
    have hext : Extends s (s.own r.number new) := .own free new
    obtain ⟨hext', hgathers, hold⟩ := ih (hs.own h1 (Nat.le_of_eq hnew)) hnew h1
      fun hb => (hg hb).own hf free
    refine ⟨hext.trans hext', hgathers, fun v id ne ho => ?_⟩
    have := hold v id ne ho
    rw [own_owner?] at this
    split at this
    · exact absurd (Option.some.inj this).symm ne
    · exact this
  | @skip r stack s s' l taken top _ ih =>
    intro hs hnew h1 hg
    refine ih hs hnew h1 fun hb => (hg hb).skip ?_
    rw [taken, hb.eq_of_around hs top.1 (hs.owner _ _ taken).1]
  | @take r stack s s' l part taken top ne _ ih =>
    intro hs hnew h1 hg
    have hl := hs.owner _ _ taken
    have hp1 : 1 ≤ part := Nat.le_trans hl.1 (top.1.le hs)
    have hpn := top.1.le_length hs hl.2
    have hext : Extends s (s.absorb part new) := .absorb hp1 hpn top.2 new
    obtain ⟨hext', hgathers, hold⟩ := ih (hs.absorb hp1 (by omega) (Nat.le_of_eq hnew)) (by simpa using hnew) h1
      fun hb => absurd (by rw [absorb_outer? hp1 hpn, if_pos rfl]) (hb part hp1)
    exact ⟨hext.trans hext', hgathers, hold⟩

/-! ### Visits -/

/-- What is known of all loops without parts. -/
def Leafy (f : Func) (s : LoopSearch) : Prop :=
  ∀ id q, 1 ≤ id → s.header? id = some q → s.Bare id → Gathers f id q s []

/-- A visit keeps what is known of loops without parts. -/
theorem Leafy.visit (hf : f.Linked) (hs : s.Ranged) (hleafy : s.Leafy f) (hh : (f.flow false).Reaches h.number)
    (fresh : ∀ id r, s.header? id = some r → ¬ (f.flow false).Dominates r.number h.number)
    (hvisit : Visits f (DomTree.ofFunc f false) h s s') : s'.Leafy f := by
  cases hvisit with
  | none => exact hleafy
  | loop _ rest =>
    obtain ⟨hext, hgathers, hold⟩ :=
      rest.spec hf hs.opened opened_length.symm (by omega) fun _ => .opened hf hs hh
    intro id q h1 hq hbare
    rw [hext.header] at hq
    by_cases hid : id = s.found.length + 1
    · subst hid
      rw [opened_header?_last] at hq
      cases hq
      exact hgathers hbare
    · -- an older loop: its blocks are those of before, of which the header at hand is none
      have hq : s.header? id = some q := by
        rcases header?_of_opened hq with ⟨e, -⟩ | hq
        · omega
        · exact hq
      have hg := hleafy id q h1 hq fun k hk ho => hbare k hk (hext.outer k id (opened_outer?.trans ho))
      refine hg.congr fun v => ⟨fun hv => ?_, fun hv => hext.owner v id ?_⟩
      · have := hold v id hid hv
        rw [opened_owner?] at this
        split at this
        · exact absurd (Option.some.inj this).symm hid
        · exact this
      · rw [opened_owner?, if_neg]
        · exact hv
        · rintro rfl
          exact fresh id q hq (hg.dominates _ hv hh)

theorem leafy_walk (hf : f.Linked) (fuel : Nat) :
    (walk f (DomTree.ofFunc f false) fuel f.entry.ref ⟨[], []⟩).Leafy f := by
  refine walk_induct (P := Leafy f) hf ?_ (fun s h hs hleafy hh _ fresh =>
    hleafy.visit hf hs hh fresh (visits_visit hf _ h hs)) fuel
  intro id q _ hq
  simp [header?] at hq

end LoopSearch

namespace LoopForest

open LoopSearch

variable {f : Func} {l : Loop} {v : Int}

/-- A loop without parts has a cycle, through its header. -/
theorem not_acyclic_of_bare (hf : f.Linked) {id : Nat} {vs : List Int} (h1 : 1 ≤ id)
    (hn : id ≤ (searchOf f (DomTree.ofFunc f false)).found.length)
    (hbare : (searchOf f (DomTree.ofFunc f false)).Bare id)
    (hvs : ∀ v, (searchOf f (DomTree.ofFunc f false)).owner? v = some id → v ∈ vs) : ¬ (f.flow false).Acyclic vs := by
  intro hacyclic
  obtain ⟨_, hsound⟩ := walk_sound hf
  have hs : (searchOf f (DomTree.ofFunc f false)).Ranged := hsound.toRanged
  obtain ⟨q, hq⟩ := exists_header h1 hn
  obtain ⟨p, hp, hpdom⟩ := hsound.latch id q h1 hq
  have hg := leafy_walk hf (f.blocks.length + 1) id q h1 hq hbare
  -- what the header dominates in the loop is entered from what it dominates in the loop
  have hno : ∀ v, (searchOf f (DomTree.ofFunc f false)).owner? v = some id →
      ¬ (f.flow false).Dominates q.number v := by
    intro v
    induction v using (Flow.wellFounded_of_acyclic hacyclic).induction with
    | _ v ih =>
      intro hv hdom
      obtain ⟨u, e, hu, hudom⟩ : ∃ u, (f.flow false).edge u v ∧
          (searchOf f (DomTree.ofFunc f false)).owner? u = some id ∧ (f.flow false).Dominates q.number u := by
        by_cases hvq : v = q.number
        · subst hvq
          obtain ⟨k, hk, ha⟩ := hsound.holds id q h1 hq p hp hpdom
          rw [hbare.eq_of_around hs ha (hs.owner _ _ hk).1] at hk
          exact ⟨p.number, edge_of_mem_prevs hf hp, hk, (DomTree.dominates_iff hf).mp hpdom⟩
        · obtain ⟨u, e, hudom⟩ := hdom.exists_prev hvq
          exact ⟨u, e, (hg.backward v hv hvq u e).resolve_right (by simp), hudom⟩
      exact ih u ⟨hvs u hu, hvs v hv, e⟩ hu hudom
  exact hno q.number hg.header (.refl ((DomTree.dominates_iff hf).mp hpdom).reaches_left)

variable {vs : List Int}

/-- A loop without a cycle besides its header has no parts. -/
theorem bare_of_acyclic (hf : f.Linked) (hl : l ∈ (ofFunc f (DomTree.ofFunc f false)).loops) (hroot : l.isRoot = false)
    (hvs : ∀ v, (ofFunc f (DomTree.ofFunc f false)).contains l v = true → v ≠ l.header.number → v ∈ vs)
    (hacyclic : (f.flow false).Acyclic vs) : (searchOf f (DomTree.ofFunc f false)).Bare l.id := by
  obtain ⟨_, hsound⟩ := walk_sound hf
  have hs : (searchOf f (DomTree.ofFunc f false)).Ranged := hsound.toRanged
  obtain ⟨h1, hn, hq, -⟩ := found_of_mem hl hroot
  obtain ⟨k, hk1, hkl, ha, hbare⟩ := exists_bare hs h1
  by_cases e : k = l.id
  · exact e ▸ hbare
  · refine absurd hacyclic (not_acyclic_of_bare hf hk1 (Nat.le_trans hkl hn) hbare fun v hv => hvs v ?_ ?_)
    · exact contains_of_holds hs ⟨k, hv, ha⟩
    · rintro rfl
      exact e (Option.some.inj (hv.symm.trans (hsound.header _ _ h1 hq).2))

/-- From a block of a loop without a cycle besides its header an edge leads to a block of the loop. -/
theorem exists_edge_of_acyclic (hf : f.Linked) (hl : l ∈ (ofFunc f (DomTree.ofFunc f false)).loops)
    (hroot : l.isRoot = false)
    (hvs : ∀ v, (ofFunc f (DomTree.ofFunc f false)).contains l v = true → v ≠ l.header.number → v ∈ vs)
    (hacyclic : (f.flow false).Acyclic vs) (hv : (ofFunc f (DomTree.ofFunc f false)).contains l v = true)
    (ne : v ≠ l.header.number) :
    ∃ w, (f.flow false).edge v w ∧ (ofFunc f (DomTree.ofFunc f false)).contains l w = true := by
  obtain ⟨_, hsound⟩ := walk_sound hf
  have hs : (searchOf f (DomTree.ofFunc f false)).Ranged := hsound.toRanged
  obtain ⟨h1, -, hq, -⟩ := found_of_mem hl hroot
  have hbare := bare_of_acyclic hf hl hroot hvs hacyclic
  obtain ⟨k, hk, ha⟩ := (contains_iff hs hl hroot).mp hv
  rw [hbare.eq_of_around hs ha (hs.owner _ _ hk).1] at hk
  obtain ⟨w, e, hw⟩ := (leafy_walk hf (f.blocks.length + 1) l.id l.header h1 hq hbare).forward v hk ne
  exact ⟨w, e, contains_of_holds hs ⟨l.id, hw, .refl⟩⟩

end LoopForest

end LoopLanes
