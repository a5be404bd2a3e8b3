/-
Topological sorting, step by step.

A sort comes from state to state: a block leaves the queue, and the edges out of it are counted one
after the other.  `Comes` has every state on the way, and says nothing of a limit on their number.

* `Comes.counted` — what is known in every one of them;
* `Sorts` — no count falls below zero, the queue runs empty, and there is an order exactly where there is
  no cycle, with every edge going forward;
* **`Func.Linked.sorts`** — this holds of any blocks of a function whose links agree at both ends.
-/
import LoopLanes.Proofs.Widen.Order

namespace LoopLanes

namespace TopoState

variable {f : Func} {body left : List BlockRef} {s : TopoState} {r : BlockRef}

/-- The states of a sort, with the edges out of the block at hand that are still to be counted. -/
inductive Comes (f : Func) (body : List BlockRef) : List BlockRef → TopoState → Prop
  | start : Comes f body [] (start f body)
  | leave {s : TopoState} {b : BlockRef} {queue : List BlockRef} (hs : Comes f body [] s)
      (head : s.queue = b :: queue) :
      Comes f body (f.succs b) { s with queue := queue, order := s.order ++ [b] }
  | arrive {s : TopoState} {r : BlockRef} {left : List BlockRef} (hs : Comes f body (r :: left) s) :
      Comes f body left (s.arrive r)

/-! ### The limit -/

/-- The order so far does not matter for counting. -/
theorem foldl_arrive_order (order : List BlockRef) : ∀ (left : List BlockRef) (s : TopoState),
    left.foldl TopoState.arrive { s with order := order } = { left.foldl TopoState.arrive s with order := order } := by
  intro left
  induction left with
  | nil => exact fun s => rfl
  | cons r left ih =>
    intro s
    rw [List.foldl_cons, List.foldl_cons, ← ih]
    congr 1
    unfold TopoState.arrive
    dsimp only
    split <;> rfl

theorem Comes.foldl_arrive : ∀ {left : List BlockRef} {s : TopoState}, Comes f body left s →
    Comes f body [] (left.foldl TopoState.arrive s) := by
  intro left
  induction left with
  | nil => exact fun h => h
  | cons r left ih => exact fun h => ih h.arrive

/-- What the limited sort comes to is a state of the sort. -/
theorem Comes.run : ∀ {fuel : Nat} {s : TopoState}, Comes f body [] s → Comes f body [] (run f fuel s) := by
  intro fuel
  induction fuel with
  | zero => exact fun h => h
  | succ fuel ih =>
    intro s h
    cases hs : s.queue with
    | nil =>
      rw [TopoState.run, hs]
      exact h
    | cons b queue =>
      rw [run_succ hs]
      refine ih ?_
      have := (h.leave hs).foldl_arrive
      rwa [foldl_arrive_order (s.order ++ [b]) (f.succs b) { s with queue := queue }] at this

/-! ### Counts -/

/-- In every state the counts are right, and nothing that left the queue leads to itself. -/
theorem Comes.counted (hbody : Linked f body)
    (hprevs : ∀ r ∈ body, ∀ p ∈ f.prevs r, ∀ q ∈ body, q.number = p.number → q = p) (h : Comes f body left s) :
    Counted f body s.order left s ∧ (∀ r ∈ left, ∀ q ∈ body, q.number = r.number → q = r) ∧
      ∀ q ∈ s.order, q ∉ f.prevs q := by
  induction h with
  | start => exact ⟨counted_start hbody.nodup hprevs, by simp, by simp [TopoState.start]⟩
  | @leave s b queue _ head ih =>
    obtain ⟨hcounted, -, hself⟩ := ih
    have hb : b ∈ body := hcounted.inside (by simp [head])
    have hleft := hcounted.leave head fun r hr => hbody.count b hb r hr
    refine ⟨⟨hleft.pending, hleft.outside, hleft.ready, hleft.nodup, hleft.inside, hleft.sorted⟩,
      hbody.number b hb, fun q hq => ?_⟩
    rcases List.mem_append.mp hq with hq | hq
    · exact hself q hq
    · -- an edge from the block to itself would still be open
      obtain rfl := List.mem_singleton.mp hq
      intro hmem
      have hzero := (hcounted.ready q hb).mp (by simp [head])
      have hnew : q ∉ s.order := by
        have := hcounted.nodup
        rw [head, List.nodup_append] at this
        exact fun hq' => this.2.2 q hq' q (by simp) rfl
      have hpos : 0 < f.openEdges body s.order q := List.countP_pos_iff.mpr ⟨q, hmem, by simp [hb, hnew]⟩
      omega
  | @arrive s r left _ ih =>
    obtain ⟨hcounted, hleft, hself⟩ := ih
    obtain ⟨hr, hleft⟩ := List.forall_mem_cons.mp hleft
    have horder : (s.arrive r).order = s.order := order_foldl_arrive [r] s
    rw [horder]
    exact ⟨hcounted.arrive hr, hleft, hself⟩

/-- An order as long as the body has all of it. -/
theorem Counted.perm (h : Counted f body s.order left s) (hlength : s.order.length = body.length) :
    s.order.Perm body := by
  refine (List.subperm_of_subset (List.nodup_append.mp h.nodup).1 fun r hr =>
    h.inside (List.mem_append_left _ hr)).perm_of_length_le ?_
  rw [hlength]

theorem Counted.pending_nonneg {done : List BlockRef} {v d : Int} (h : Counted f body done left s)
    (hd : s.pending.lookup v = some d) : 0 ≤ d := by
  by_cases hv : v ∈ body.map (·.number)
  · obtain ⟨r, hr, rfl⟩ := List.mem_map.mp hv
    rw [h.pending r hr] at hd
    obtain rfl := Option.some.inj hd
    exact Int.natCast_nonneg _
  · rw [h.outside v hv] at hd
    cases hd

end TopoState

namespace Func

open TopoState

variable {f : Func} {bs : List Block}

/-- What a sort of some blocks of a function does. -/
structure Sorts (f : Func) (bs : List Block) : Prop where
  ends : ∃ s, Comes f (bs.map Block.ref) [] s ∧ s.queue = [] ∧
    topoOrder? f (bs.map Block.ref) = if s.order.length = bs.length then some s.order else none
  counters : ∀ left s, Comes f (bs.map Block.ref) left s → ∀ v d, s.pending.lookup v = some d → 0 ≤ d
  isSome_iff : (topoOrder? f (bs.map Block.ref)).isSome = true ↔ (f.flow false).Acyclic (bs.map Block.id)
  forward : ∀ order, topoOrder? f (bs.map Block.ref) = some order → order.Perm (bs.map Block.ref) ∧
    ∀ b ∈ bs, ∀ c ∈ bs, c.ref ∈ b.succ → order.idxOf b.ref < order.idxOf c.ref

/-- Of two members of a list, the one that may not come later comes first. -/
theorem idxOf_lt_of_pairwise {α : Type} [DecidableEq α] {R : α → α → Prop} {l : List α} {a b : α}
    (h : l.Pairwise R) (ha : a ∈ l) (hb : b ∈ l) (hno : ¬ R b a) (ne : a ≠ b) : l.idxOf a < l.idxOf b := by
  have hla := List.idxOf_lt_length_of_mem ha
  have hlb := List.idxOf_lt_length_of_mem hb
  rcases Nat.lt_trichotomy (l.idxOf a) (l.idxOf b) with hlt | heq | hgt
  · exact hlt
  · exact absurd ((List.idxOf_inj ha).mp heq) ne
  · have := List.pairwise_iff_getElem.mp h _ _ hlb hla hgt
    rw [List.getElem_idxOf, List.getElem_idxOf] at this
    exact absurd this hno

namespace Linked

theorem prevs_ref (hf : f.Linked) {b : Block} (hb : b ∈ f.blocks) : f.prevs b.ref = b.prev := by
  rw [Func.prevs, hf.linked? hb]
  rfl

theorem succs_ref (hf : f.Linked) {b : Block} (hb : b ∈ f.blocks) : f.succs b.ref = b.succ := by
  rw [Func.succs, hf.linked? hb]
  rfl

/-- The links of any blocks of a function are as a sort needs them. -/
theorem sortable (hf : f.Linked) (hbalanced : f.Balanced) (hsub : ∀ b ∈ bs, b ∈ f.blocks)
    (hnodup : (bs.map Block.id).Nodup) : TopoState.Linked f (bs.map Block.ref) ∧
      (∀ r ∈ bs.map Block.ref, ∀ p ∈ f.prevs r, ∀ q ∈ bs.map Block.ref, q.number = p.number → q = p) ∧
      ∀ r ∈ bs.map Block.ref, ∀ p ∈ f.prevs r, (f.flow false).edge p.number r.number := by
  have hnumbers : (bs.map Block.ref).map (·.number) = bs.map Block.id := by
    rw [List.map_map]
    rfl
  refine ⟨⟨hnumbers ▸ hnodup, ?_, ?_⟩, ?_, ?_⟩
  all_goals simp only [List.forall_mem_map]
  · intro b hb r hr c hc e
    rw [hf.succs_ref (hsub b hb)] at hr
    obtain ⟨d, hd, rfl, -⟩ := hf.succ b (hsub b hb) r hr
    exact hf.ref_eq (hsub c hc) hd e
  · intro b hb c hc
    rw [hf.prevs_ref (hsub c hc), hf.succs_ref (hsub b hb)]
    exact (hbalanced b (hsub b hb) c (hsub c hc)).symm
  · intro b hb p hp c hc e
    rw [hf.prevs_ref (hsub b hb)] at hp
    obtain ⟨d, hd, rfl, -⟩ := hf.prev b (hsub b hb) p hp
    exact hf.ref_eq (hsub c hc) hd e
  · intro b hb p hp
    rw [hf.prevs_ref (hsub b hb)] at hp
    obtain ⟨d, hd, rfl, hsucc⟩ := hf.prev b (hsub b hb) p hp
    exact ⟨d, hd, rfl, b.ref, hsucc, rfl⟩

/-- In an order in which nothing stands behind or leads to what it came from, edges go forward. -/
theorem forward (hf : f.Linked) (hsub : ∀ b ∈ bs, b ∈ f.blocks) {order : List BlockRef}
    (hperm : order.Perm (bs.map Block.ref)) (hsorted : order.Pairwise fun r q => q ∉ f.prevs r)
    (hself : ∀ q ∈ order, q ∉ f.prevs q) {b c : Block} (hb : b ∈ bs) (hc : c ∈ bs) (hsucc : c.ref ∈ b.succ) :
    order.idxOf b.ref < order.idxOf c.ref := by
  have hprev : b.ref ∈ f.prevs c.ref := by
    rw [hf.prevs_ref (hsub c hc)]
    exact (hf.mem_prev_iff (hsub b hb) (hsub c hc)).mpr hsucc
  have hbo := hperm.mem_iff.mpr (List.mem_map_of_mem (f := Block.ref) hb)
  have hco := hperm.mem_iff.mpr (List.mem_map_of_mem (f := Block.ref) hc)
  exact idxOf_lt_of_pairwise hsorted hbo hco (fun hno => hno hprev) fun e => hself c.ref hco (e ▸ hprev)

/-- Where the places in an order rise along the edges, there is no cycle. -/
theorem acyclic_of_forward (hf : f.Linked) (hsub : ∀ b ∈ bs, b ∈ f.blocks) {order : List BlockRef}
    (h : ∀ b ∈ bs, ∀ c ∈ bs, c.ref ∈ b.succ → order.idxOf b.ref < order.idxOf c.ref) :
    (f.flow false).Acyclic (bs.map Block.id) := by
  refine Flow.acyclic_of_rank (fun v => ((f.block? v).map fun b => order.idxOf b.ref).getD 0) ?_
  rintro _ _ ⟨hu, hw, b, hb, rfl, r, hr, rfl⟩
  obtain ⟨b', hb', e⟩ := List.mem_map.mp hu
  obtain rfl := eq_of_id_eq hf.nodup (hsub b' hb') hb e
  obtain ⟨c, hc, e⟩ := List.mem_map.mp hw
  obtain ⟨d, hd, rfl, -⟩ := hf.succ b' hb r hr
  obtain rfl := eq_of_id_eq hf.nodup (hsub c hc) hd e
  rw [hf.block? hb, show f.block? c.ref.number = some c from hf.block? hd]
  exact h b' hb' c hc hr

/-- Any blocks of a function are sorted as far as they have no cycle. -/
theorem sorts (hf : f.Linked) (hbalanced : f.Balanced) (hsub : ∀ b ∈ bs, b ∈ f.blocks)
    (hnodup : (bs.map Block.id).Nodup) : f.Sorts bs := by
  obtain ⟨hlinked, hprevs, hedge⟩ := hf.sortable hbalanced hsub hnodup
  have hnumbers : (bs.map Block.ref).map (·.number) = bs.map Block.id := by
    rw [List.map_map]
    rfl
  set body := bs.map Block.ref with hbody
  have hcomes : Comes f body [] (run f (body.length + 1) (start f body)) := Comes.start.run
  have hqueue : (run f (body.length + 1) (start f body)).queue = [] :=
    (Counted.run hlinked (Comes.start.counted hlinked hprevs).1 (show body.length < 0 + (body.length + 1) by omega)).2
  have heq : topoOrder? f body = if (run f (body.length + 1) (start f body)).order.length = bs.length
      then some (run f (body.length + 1) (start f body)).order else none := by
    rw [← List.length_map Block.ref]
    rfl
  have hforward : ∀ order, topoOrder? f body = some order → order.Perm body ∧
      ∀ b ∈ bs, ∀ c ∈ bs, c.ref ∈ b.succ → order.idxOf b.ref < order.idxOf c.ref := by
    intro order horder
    obtain ⟨hcounted, -, hself⟩ := hcomes.counted hlinked hprevs
    rw [heq] at horder
    split at horder
    · rename_i hlength
      obtain rfl := Option.some.inj horder
      have hperm := hcounted.perm (hlength.trans (hbody ▸ (List.length_map _).symm))
      have hsorted := hcounted.sorted
      exact ⟨hperm, fun b hb c hc hsucc => hf.forward hsub hperm hsorted hself hb hc hsucc⟩
    · cases horder
  refine ⟨⟨_, hcomes, hqueue, heq⟩, fun left s hs v d hd => (hs.counted hlinked hprevs).1.pending_nonneg hd,
    ⟨fun hsome => ?_, fun hacyclic => ?_⟩, hforward⟩
  · obtain ⟨order, horder⟩ := Option.isSome_iff_exists.mp hsome
    exact hf.acyclic_of_forward hsub (hforward order horder).2
  · obtain ⟨order, horder, -⟩ := topoOrder?_of_acyclic hlinked (hnumbers ▸ hacyclic) hedge hprevs
    rw [horder]
    rfl

/-- Blocks that were sorted: edges into one of them come from in front, edges out of it lead to blocks behind. -/
theorem split_of_sorted (hf : f.Linked) (hbalanced : f.Balanced) {body : List Block} (hbody : ∀ b ∈ body, b ∈ f.blocks)
    (hnodup : (body.map Block.id).Nodup) (hsub : bs ⊆ f.blocks)
    (horder : topoOrder? f (body.map Block.ref) = some (bs.map Block.ref)) :
    bs.Nodup ∧ (∀ b, b ∈ bs ↔ b ∈ body) ∧ ∀ pre b post, bs = pre ++ b :: post → ∀ c ∈ bs,
      (b.ref ∈ c.succ → c ∈ pre) ∧ (c.ref ∈ b.succ → c ∈ post) := by
  obtain ⟨hperm, hforward⟩ := (hf.sorts hbalanced hbody hnodup).forward _ horder
  have hrefs : (bs.map Block.ref).Nodup := by
    refine hperm.nodup_iff.mpr (.of_map (·.number) ?_)
    rw [List.map_map]
    exact hnodup
  have hmem : ∀ b, b ∈ bs ↔ b ∈ body := by
    have hsame : ∀ {cs ds : List Block}, (∀ c ∈ cs, c ∈ f.blocks) → (∀ d ∈ ds, d ∈ f.blocks) →
        cs.map Block.ref ⊆ ds.map Block.ref → cs ⊆ ds := by
      intro cs ds hcs hds h c hc
      obtain ⟨d, hd, e⟩ := List.mem_map.mp (h (List.mem_map_of_mem hc))
      exact eq_of_id_eq hf.nodup (hds d hd) (hcs c hc) (congrArg BlockRef.number e) ▸ hd
    exact fun b => ⟨fun hb => hsame hsub hbody hperm.subset hb, fun hb => hsame hbody hsub hperm.symm.subset hb⟩
  refine ⟨.of_map _ hrefs, hmem, ?_⟩
  rintro pre b post rfl c hc
  have hb : b ∈ pre ++ b :: post := by simp
  have hout := hforward c ((hmem c).mp hc) b ((hmem b).mp hb)
  have hin := hforward b ((hmem b).mp hb) c ((hmem c).mp hc)
  rw [List.map_append, List.map_cons] at hrefs hout hin
  have hnew := (List.nodup_cons.mp (List.nodup_middle.mp hrefs)).1
  have hplace : (pre.map Block.ref ++ b.ref :: post.map Block.ref).idxOf b.ref = (pre.map Block.ref).length := by
    rw [List.idxOf_append_of_notMem fun h => hnew (List.mem_append_left _ h), List.idxOf_cons_self, Nat.add_zero]
  rw [hplace] at hout hin
  rcases List.mem_append.mp hc with hpre | hpost
  · have hlt := List.idxOf_lt_length_of_mem (List.mem_map_of_mem (f := Block.ref) hpre)
    rw [List.idxOf_append_of_mem (List.mem_map_of_mem hpre)] at hin
    exact ⟨fun _ => hpre, fun hsucc => absurd (hin hsucc) (Nat.lt_asymm hlt)⟩
  · have hnot : c.ref ∉ pre.map Block.ref := fun h => (List.nodup_append.mp hrefs).2.2 _ h _
      (List.map_cons ▸ List.mem_map_of_mem (f := Block.ref) hpost) rfl
    rw [List.idxOf_append_of_notMem hnot] at hin hout
    refine ⟨fun hsucc => absurd (hout hsucc) (by omega), fun hsucc => ?_⟩
    rcases List.mem_cons.mp hpost with rfl | hpost
    · rw [List.idxOf_cons_self] at hin
      exact absurd (hin hsucc) (by omega)
    · exact hpost

end Linked

end Func

end LoopLanes
