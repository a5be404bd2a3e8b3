/-
The body of a loop that can be prepared.

The body is the loop without its header.  `LoopBody` lists what is known of it: it is entered at one
block and left at another one, the latch, and both only by way of the header.

* `loopBody_of_found` — a loop whose parts were found has such a body, if nothing dead jumps into it;
* `LoopBody.dominates` — the header dominates the body;
* `LoopBody.exists_prev` — every other block than the entry comes after another one;
* `LoopBody.left` — from the header the end of the function is reached around any block of the body.
-/
import LoopLanes.Proofs.Cfg.Edits
import LoopLanes.Proofs.Cfg.Paths
import LoopLanes.Proofs.Cfg.Uses
import LoopLanes.Proofs.Lanes.Scalar
import LoopLanes.Proofs.Loop.Discovery
import LoopLanes.Proofs.Loop.Counted
import LoopLanes.Proofs.Split.Staging
import LoopLanes.Vectorize.Pass

open Relation

namespace LoopLanes

namespace Loop

section Body

variable (f : Func) (t : LoopForest) (l : Loop)

/-- The blocks of a loop without its header, in function order. -/
def body : List Block := (l.blocks f t).filter (·.id != l.header.number)

/-- A loop is entered at its header alone: no block of its body is dead, and what jumps into the body
belongs to the loop. -/
structure EnteredAtHeader : Prop where
  live : ∀ b ∈ l.body f t, (f.flow false).Reaches b.id
  prev : ∀ b ∈ l.body f t, ∀ r ∈ b.prev, t.contains l r.number = true

end Body

variable {f : Func} {t : LoopForest} {l : Loop} {b : Block}

theorem mem_body : b ∈ l.body f t ↔
    b ∈ f.blocks ∧ t.contains l b.id = true ∧ b.id ≠ l.header.number := by
  rw [body, List.mem_filter, mem_blocks, bne_iff_ne, and_assoc]

theorem isRoot_of_exits {e : Int} (h : (l.exitingBlocks f t).map (·.id) = [e]) : l.isRoot = false := by
  obtain ⟨b, hb, -⟩ := List.mem_map.mp (h ▸ List.mem_singleton_self e)
  obtain ⟨r, -, hr⟩ := List.any_eq_true.mp (List.mem_filter.mp hb).2
  cases hroot : l.isRoot with
  | false => rfl
  | true =>
    have hnone : l.outer.isNone = true := hroot
    simp [LoopForest.contains, hnone] at hr

end Loop

/-- What is known of the body of a loop. -/
structure LoopBody (f : Func) (body : List Block) (header entry latch : Block) : Prop where
  linked : f.WellLinked
  header_mem : header ∈ f.blocks
  sub : body ⊆ f.blocks
  nodup : (body.map Block.id).Nodup
  header_notMem : header ∉ body
  entry_mem : entry ∈ body
  latch_mem : latch ∈ body
  entered : entry.ref ∈ header.succ
  succ : ∀ b ∈ body, ∀ r ∈ b.succ, (∃ c ∈ body, c.ref = r) ∨ r = header.ref ∧ b = latch
  prev : ∀ b ∈ body, ∀ r ∈ b.prev, (∃ c ∈ body, c.ref = r) ∨ r = header.ref ∧ b = entry
  goesOn : ∀ b ∈ body, b.succ ≠ []
  dominates_latch : (f.flow false).Dominates header.id latch.id
  live : ∀ b ∈ body, (f.flow false).Reaches b.id
  acyclic : (f.flow false).Acyclic (body.map Block.id)
  left : ∀ b ∈ body, ((f.flow true).without b.id).Reaches header.id

section Found

variable {f : Func} {l : Loop} {r : Recurrences} {a : LoopAnatomy}

/-- Where only the header leaves a loop, and only the header is entered from outside, what can reach the
end of the function does so around any block of the body once the header is left. -/
theorem reaches_header_without (hf : f.WellLinked) (hroot : l.isRoot = false)
    (hexit : (l.exitingBlocks f f.forest).map (·.id) = [l.header.number])
    (hprev : ∀ b ∈ l.body f f.forest, ∀ r ∈ b.prev, f.forest.contains l r.number = true)
    {b : Block} (hb : b ∈ l.body f f.forest) {v : Int} (hv : (f.flow true).Reaches v)
    (hin : f.forest.contains l v = true) : ((f.flow true).without b.id).Reaches l.header.number := by
  obtain ⟨hbf, hbl, hbh⟩ := Loop.mem_body.mp hb
  -- outside the loop the end is reached directly, inside it by way of the header
  refine (hv.induct (P := fun v => if f.forest.contains l v = true
    then ((f.flow true).without b.id).Reaches l.header.number
    else ((f.flow true).without b.id).Reaches v) ?_ ?_ |> fun h => by rwa [if_pos hin] at h)
  · rintro v ⟨c, hc, rfl⟩
    have hnone : c.succ = [] := by
      have := (List.mem_filter.mp (show c ∈ f.blocks.filter (·.succ.isEmpty) from hc)).2
      simpa using this
    split
    · rename_i hcl
      obtain ⟨d, hd, hid, hsucc⟩ := LoopForest.hasSucc_of_contains hf.toLinked hroot hcl
      rw [Func.eq_of_id_eq hf.nodup hd (Func.mem_roots hc) hid] at hsucc
      exact absurd hnone hsucc
    · rename_i hcl
      refine .of_root ⟨⟨c, hc, rfl⟩, ?_⟩
      intro e
      exact hcl (e ▸ hbl)
  · rintro u w - ih ⟨c, hc, rfl, r, hr, rfl⟩
    obtain ⟨d, hd, rfl, hsucc⟩ := hf.prev c hc r hr
    have hedge : (f.flow true).edge c.id d.ref.number := ⟨c, hc, rfl, d.ref, hr, rfl⟩
    by_cases hcl : f.forest.contains l c.id = true
    · rw [if_pos hcl] at ih
      split
      · exact ih
      · rename_i hdl
        -- only the header is entered from outside
        have hch : c.id = l.header.number := by
          by_contra hch
          exact hdl (hprev c (Loop.mem_body.mpr ⟨hc, hcl, hch⟩) d.ref hr)
        refine (hch ▸ ih).step ⟨hch ▸ hedge, ?_⟩
        intro e
        exact hdl (e ▸ hbl)
    · rw [if_neg hcl] at ih
      split
      · rename_i hdl
        -- only the header leaves the loop
        have hdh : d.id = l.header.number :=
          Loop.id_eq_of_exits hexit (Loop.mem_blocks.mpr ⟨hd, hdl⟩) hsucc (Bool.eq_false_iff.mpr hcl)
        have hstep := ih.step ⟨hedge, fun e => hbh (e ▸ hdh)⟩
        exact (show d.ref.number = l.header.number from hdh) ▸ hstep
      · rename_i hdl
        refine ih.step ⟨hedge, ?_⟩
        intro e
        exact hdl (e ▸ hbl)

/-- The header goes on to one block of the loop only. -/
theorem LoopAnatomy.Found.succ_unique (hf : f.WellLinked) (h : a.Found f f.forest l r) {p q : BlockRef}
    (hp : p ∈ a.header.succ) (hq : q ∈ a.header.succ) (hpl : f.forest.contains l p.number = true)
    (hql : f.forest.contains l q.number = true) : p = q := by
  obtain ⟨hm, href⟩ := Func.linked?_mem h.header
  have hi := Induction.found_of_ofLoop? h.induction
  obtain ⟨b, hb, -, op, ty, lhs, rhs, onTrue, branchTy, ifTrue, ifFalse, -, hjump, hexit, -⟩ := hi.test
  have hbid : b.id = l.header.number := by
    have hmem := List.mem_map_of_mem (f := Block.id) hb
    rw [show (l.exitingBlocks f f.forest).map Block.id = _ from h.exiting] at hmem
    exact List.mem_singleton.mp hmem
  obtain rfl : b = a.header := Func.eq_of_id_eq hf.nodup (Loop.mem_blocks.mp (List.mem_of_mem_filter hb)).1
    hm (hbid.trans (congrArg BlockRef.number href).symm)
  obtain ⟨j, hj, htargets⟩ := hf.jump _ hm
  obtain rfl : j = _ := Option.some.inj (hj.symm.trans hjump)
  -- one of its two targets is the exit, which is not in the loop
  have hne : ∀ r : BlockRef, f.forest.contains l r.number = true →
      r.label ≠ if onTrue then ifFalse else ifTrue := by
    intro r hr e
    rw [hexit] at e
    rw [Label.ofBlock_injective e, hi.exit] at hr
    cases hr
  have hone : ∀ r ∈ a.header.succ, f.forest.contains l r.number = true →
      r.label = if onTrue then ifTrue else ifFalse := by
    intro r hr hrl
    have hmem := List.mem_map_of_mem (f := (·.label)) hr
    rw [htargets] at hmem
    have hmem : r.label = ifTrue ∨ r.label = ifFalse := by simpa [Instr.targets] using hmem
    have := hne r hrl
    cases onTrue <;> simp_all
  obtain ⟨b, hb, rfl, -⟩ := hf.succ _ hm p hp
  obtain ⟨c, hc, rfl, -⟩ := hf.succ _ hm q hq
  exact hf.ref_eq hb hc (Label.ofBlock_injective ((hone _ hp hpl).trans (hone _ hq hql).symm))

/-- The body of a loop whose parts were found. -/
theorem loopBody_of_found (hf : f.WellLinked) (hl : l ∈ f.forest.loops) (ha : a.Found f f.forest l r)
    (hentered : l.EnteredAtHeader f f.forest)
    (hacyclic : (f.flow false).Acyclic ((l.body f f.forest).map Block.id)) :
    ∃ entry latch, entry.id = a.bodyEntry ∧ latch.ref = a.latch ∧
      LoopBody f (l.body f f.forest) a.header entry latch := by
  have hroot := Loop.isRoot_of_exits ha.exiting
  obtain ⟨hm, href⟩ := Func.linked?_mem ha.header
  have hid : a.header.id = l.header.number := congrArg BlockRef.number href
  have hheader : ∀ b ∈ f.blocks, b.id = l.header.number → b = a.header := fun b hb e =>
    Func.eq_of_id_eq hf.nodup hb hm (e.trans hid.symm)
  have hleft : ∀ b ∈ l.body f f.forest, ((f.flow true).without b.id).Reaches a.header.id := by
    intro b hb
    have hdom := (DomTree.dominates_iff hf.toLinked).mp ha.postDom
    have hin : f.forest.contains l a.bodyEntry = true := by simpa using List.find?_some ha.bodyEntry
    exact hid ▸ reaches_header_without hf hroot ha.exiting hentered.prev hb hdom.reaches hin
  -- the latch
  obtain ⟨⟨hlatch, hlatchl⟩, honly⟩ := Loop.singleLatch?_eq_some ha.latch
  have hprevs : l.headerPrev f = a.header.prev := by simp [Loop.headerPrev, ha.header]
  rw [hprevs] at hlatch honly
  obtain ⟨latch, hlatchm, hlatchref, hlatchsucc⟩ := hf.prev _ hm _ hlatch
  have hlatchid : latch.id = a.latch.number := congrArg BlockRef.number hlatchref
  have hlatchb : latch ∈ l.body f f.forest :=
    Loop.mem_body.mpr ⟨hlatchm, hlatchid ▸ hlatchl, hlatchid ▸ ha.latch_ne⟩
  -- the entry; were it the header, the latch would not post-dominate it
  obtain ⟨r, hr, hrid⟩ := List.mem_map.mp (List.mem_of_find?_eq_some ha.bodyEntry)
  have hrl : f.forest.contains l r.number = true := by
    rw [hrid]
    simpa using List.find?_some ha.bodyEntry
  obtain ⟨entry, hentrym, rfl, hentryprev⟩ := hf.succ _ hm r hr
  have hentryb : entry ∈ l.body f f.forest := by
    refine Loop.mem_body.mpr ⟨hentrym, hrl, fun e => ?_⟩
    have hdom := (DomTree.dominates_iff hf.toLinked).mp ha.postDom
    have hno := hdom.2
    rw [← hrid, ← hlatchref, hheader entry hentrym e] at hno
    exact hno (hleft latch hlatchb)
  refine ⟨entry, latch, hrid, hlatchref, hf, hm, fun b hb => (Loop.mem_body.mp hb).1, ?_, ?_, hentryb, hlatchb,
    hr, fun b hb r hr => ?_, fun b hb r hr => ?_, fun b hb => ?_, ?_, hentered.live, hacyclic, hleft⟩
  · exact hf.nodup.sublist ((List.filter_sublist.trans List.filter_sublist).map _)
  · exact fun hb => (Loop.mem_body.mp hb).2.2 hid
  · obtain ⟨hbf, hbl, hbh⟩ := Loop.mem_body.mp hb
    obtain ⟨c, hc, rfl, hprev⟩ := hf.succ b hbf r hr
    have hcl : f.forest.contains l c.ref.number = true := by
      by_contra hout
      exact hbh (Loop.id_eq_of_exits ha.exiting (Loop.mem_blocks.mpr ⟨hbf, hbl⟩) hr (by simpa using hout))
    by_cases hch : c.id = l.header.number
    · obtain rfl := hheader c hc hch
      refine .inr ⟨rfl, Func.eq_of_id_eq hf.nodup hbf hlatchm ?_⟩
      exact (honly b.ref hprev hbl).trans hlatchid.symm
    · exact .inl ⟨c, Loop.mem_body.mpr ⟨hc, hcl, hch⟩, rfl⟩
  · obtain ⟨hbf, hbl, hbh⟩ := Loop.mem_body.mp hb
    obtain ⟨c, hc, rfl, hsucc⟩ := hf.prev b hbf r hr
    by_cases hch : c.id = l.header.number
    · obtain rfl := hheader c hc hch
      refine .inr ⟨rfl, Func.eq_of_id_eq hf.nodup hbf hentrym ?_⟩
      exact congrArg BlockRef.number (ha.succ_unique hf hsucc ‹_› hbl hrl)
    · exact .inl ⟨c, Loop.mem_body.mpr ⟨hc, hentered.prev b hb _ hr, hch⟩, rfl⟩
  · obtain ⟨hbf, hbl, -⟩ := Loop.mem_body.mp hb
    obtain ⟨c, hc, e, hsucc⟩ := LoopForest.hasSucc_of_contains hf.toLinked hroot hbl
    exact Func.eq_of_id_eq hf.nodup hc hbf e ▸ hsucc
  · obtain ⟨p, hp, hdom⟩ := LoopForest.exists_latch hf.toLinked hl hroot
    have hpl := LoopForest.contains_latch hf.toLinked hl hp hdom
    have hp : p ∈ a.header.prev := by simpa [LoopSearch.prevs, ha.header] using hp
    rw [hid, hlatchid, ← honly p hp hpl]
    exact hdom

end Found

namespace LoopBody

variable {f : Func} {body : List Block} {header entry latch b c : Block}

theorem eq_of_ref (h : LoopBody f body header entry latch) (hb : b ∈ body) (hc : c ∈ body)
    (e : b.id = c.id) : b = c :=
  Func.eq_of_id_eq h.linked.nodup (h.sub hb) (h.sub hc) e

theorem id_ne_header (h : LoopBody f body header entry latch) (hb : b ∈ body) : b.id ≠ header.id := by
  intro e
  exact h.header_notMem (Func.eq_of_id_eq h.linked.nodup (h.sub hb) h.header_mem e ▸ hb)

/-- An edge of the body. -/
theorem edge (h : LoopBody f body header entry latch) (hb : b ∈ body) (hc : c ∈ body)
    (hsucc : c.ref ∈ b.succ) : (f.flow false).EdgeWithin (body.map Block.id) b.id c.id :=
  ⟨List.mem_map_of_mem hb, List.mem_map_of_mem hc, b, h.sub hb, rfl, c.ref, hsucc, rfl⟩

theorem mem_prev (h : LoopBody f body header entry latch) (hb : b ∈ f.blocks) (hc : c ∈ f.blocks)
    (hsucc : c.ref ∈ b.succ) : b.ref ∈ c.prev :=
  (h.linked.mem_prev_iff hb hc).mpr hsucc

theorem mem_succ (h : LoopBody f body header entry latch) (hb : b ∈ f.blocks) (hc : c ∈ f.blocks)
    (hprev : c.ref ∈ b.prev) : b.ref ∈ c.succ :=
  (h.linked.mem_prev_iff hc hb).mp hprev

/-- Induction over the body, against the edges. -/
theorem induct (h : LoopBody f body header entry latch) {P : Block → Prop}
    (step : ∀ b ∈ body, (∀ c ∈ body, c.ref ∈ b.succ → P c) → P b) : ∀ b ∈ body, P b := by
  suffices key : ∀ v, ∀ b ∈ body, b.id = v → P b from fun b hb => key _ b hb rfl
  intro v
  induction v using (Flow.wellFounded_swap_of_acyclic h.acyclic).induction with
  | _ v ih =>
    rintro b hb rfl
    exact step b hb fun c hc hsucc => ih c.id (h.edge hb hc hsucc) c hc rfl

/-- The header dominates the body, for what is reached around it goes on to the latch. -/
theorem dominates (h : LoopBody f body header entry latch) (hb : b ∈ body) :
    (f.flow false).Dominates header.id b.id := by
  refine ⟨h.live b hb, fun hreach => ?_⟩
  refine h.induct (P := fun b => ¬ ((f.flow false).without header.id).Reaches b.id) (fun b hb ih hreach => ?_)
    b hb hreach
  obtain ⟨r, hr⟩ := List.exists_mem_of_ne_nil _ (h.goesOn b hb)
  rcases h.succ b hb r hr with ⟨c, hc, rfl⟩ | ⟨-, rfl⟩
  · exact ih c hc hr (hreach.step ⟨(h.edge hb hc hr).2.2, h.id_ne_header hc⟩)
  · exact h.dominates_latch.2 hreach

/-- Every block of the body but the entry comes after another one. -/
theorem exists_prev (h : LoopBody f body header entry latch) (hb : b ∈ body) (hne : b ≠ entry) :
    ∃ c ∈ body, c.ref ∈ b.prev := by
  obtain ⟨r, hr, p⟩ := h.live b hb
  rcases p.cases_tail with e | ⟨u, -, ⟨c, hc, rfl, s, hs, hnum⟩⟩
  · subst e
    exact absurd (Flow.Reaches.of_root (G := (f.flow false).without header.id) ⟨hr, h.id_ne_header hb⟩)
      (h.dominates hb).2
  · obtain ⟨d, hd, rfl, hprev⟩ := h.linked.succ c hc s hs
    obtain rfl := Func.eq_of_id_eq h.linked.nodup hd (h.sub hb) hnum
    rcases h.prev d hb _ hprev with ⟨c', hc', e⟩ | ⟨-, e⟩
    · exact ⟨c', hc', e ▸ hprev⟩
    · exact absurd e hne

/-- Every block of the body is reached from the entry. -/
theorem reaches_of_mem (h : LoopBody f body header entry latch) (hb : b ∈ body) :
    ReflTransGen ((f.flow false).EdgeWithin (body.map Block.id)) entry.id b.id := by
  suffices key : ∀ v, ∀ b ∈ body, b.id = v →
      ReflTransGen ((f.flow false).EdgeWithin (body.map Block.id)) entry.id b.id from key _ b hb rfl
  intro v
  induction v using (Flow.wellFounded_of_acyclic h.acyclic).induction with
  | _ v ih =>
    rintro b hb rfl
    by_cases hne : b = entry
    · rw [hne]
    · obtain ⟨c, hc, hprev⟩ := h.exists_prev hb hne
      have hedge := h.edge hc hb (h.mem_succ (h.sub hb) (h.sub hc) hprev)
      exact (ih c.id hedge c hc rfl).tail hedge

/-- The entry comes after the header alone. -/
theorem prev_entry (h : LoopBody f body header entry latch) {r : BlockRef} (hr : r ∈ entry.prev) :
    r = header.ref := by
  rcases h.prev entry h.entry_mem r hr with ⟨c, hc, rfl⟩ | ⟨rfl, -⟩
  · have hsucc := h.mem_succ (h.sub h.entry_mem) (h.sub hc) hr
    exact absurd (.tail' (h.reaches_of_mem hc) (h.edge hc h.entry_mem hsucc)) (h.acyclic _)
  · rfl

/-- What comes after the header is the entry. -/
theorem eq_entry (h : LoopBody f body header entry latch) (hb : b ∈ body) (hr : header.ref ∈ b.prev) :
    b = entry := by
  rcases h.prev b hb _ hr with ⟨c, hc, e⟩ | ⟨-, rfl⟩
  · exact absurd (congrArg BlockRef.number e) (h.id_ne_header hc)
  · rfl

/-- No block of the body dominates the header. -/
theorem not_dominates_header (h : LoopBody f body header entry latch) (hb : b ∈ body) :
    ¬ (f.flow false).Dominates b.id header.id :=
  fun hdom => h.id_ne_header hb (hdom.antisymm (h.dominates hb))

/-- A block of the body that dominates another one leads to it inside the body. -/
theorem reaches_of_dominates (h : LoopBody f body header entry latch) (hb : b ∈ body) (hc : c ∈ body)
    (hdom : (f.flow false).Dominates b.id c.id) :
    ReflTransGen ((f.flow false).EdgeWithin (body.map Block.id)) b.id c.id := by
  by_contra hno
  refine hdom.2 ?_
  clear hdom
  -- what is not reached from the block is reached around it
  suffices key : ∀ v, ∀ c ∈ body, c.id = v →
      ¬ ReflTransGen ((f.flow false).EdgeWithin (body.map Block.id)) b.id c.id →
        ((f.flow false).without b.id).Reaches c.id from key _ c hc rfl hno
  intro v
  induction v using (Flow.wellFounded_of_acyclic h.acyclic).induction with
  | _ v ih =>
    rintro c hc rfl hno
    have hne : c.id ≠ b.id := fun e => hno (e ▸ .refl)
    by_cases hentry : c = entry
    · have hheader : ((f.flow false).without b.id).Reaches header.id := by
        by_contra hall
        exact h.not_dominates_header hb ⟨(h.dominates hb).reaches_left, hall⟩
      exact hheader.step ⟨⟨header, h.header_mem, rfl, entry.ref, h.entered, congrArg Block.id hentry.symm⟩, hne⟩
    · obtain ⟨d, hd, hprev⟩ := h.exists_prev hc hentry
      have hedge := h.edge hd hc (h.mem_succ (h.sub hc) (h.sub hd) hprev)
      exact (ih d.id hedge d hd rfl fun hreach => hno (hreach.tail hedge)).step ⟨hedge.2.2, hne⟩

/-- No phi of the body takes what another phi of its block defines. -/
theorem notMem_targets (h : LoopBody f body header entry latch) (hverify : f.verify = .ok ())
    (hlocals : ∀ t ∈ writesOf f.blocks, t.isGlobal = false) (hb : b ∈ body) {p : Phi} (hp : p ∈ b.phis)
    {t : Temp} {k : Label} (hin : (.temp t, k) ∈ p.incoming) : t ∉ b.phis.map (·.target) := by
  intro ht
  have hbf := h.sub hb
  have hwrites : t ∈ b.writes := List.mem_append_left _ ht
  obtain ⟨hnodup, hlabels⟩ := Func.labels_of_phi h.linked hbf hp
  obtain ⟨r, hr, rfl⟩ := List.mem_map.mp ((hlabels k).mp (List.mem_map_of_mem (f := (·.2)) hin))
  have hreach : (f.flow false).Reaches r.number := by
    rcases h.prev b hb r hr with ⟨c, hc, rfl⟩ | ⟨rfl, -⟩
    · exact h.live c hc
    · exact (h.dominates hb).reaches_left
  obtain ⟨pos, havailable⟩ := Func.available_of_incoming hverify hbf (h.live b hb) hp hr hreach
    (Phi.incoming?_of_mem hnodup hin)
  have hdom := Func.dominates_of_available hverify hbf hwrites
    (hlocals t (List.mem_flatMap.mpr ⟨b, hbf, hwrites⟩)) havailable
  rcases h.prev b hb r hr with ⟨c, hc, rfl⟩ | ⟨rfl, -⟩
  · -- the block would come after itself
    have hreaches : ReflTransGen ((f.flow false).EdgeWithin (body.map Block.id)) b.id c.id :=
      hdom.elim (fun e => h.eq_of_ref hb hc e ▸ .refl) (h.reaches_of_dominates hb hc)
    exact h.acyclic _ (.tail' hreaches (h.edge hc hb (h.mem_succ hbf (h.sub hc) hr)))
  · exact hdom.elim (h.id_ne_header hb) (h.not_dominates_header hb)

end LoopBody

/-! ### Ways through a body -/

/-- The blocks that a lane with the values of a frame goes through from a block on, up to the one that
jumps back to the header. -/
inductive Func.Way (f : Func) (header : Block) (fr : Frame) : Block → List Block → Prop
  | back {b : Block} (leaves : b.leave fr = .ok (.jump header.label)) : Way f header fr b [b]
  | on {b c : Block} {l : Label} {path : List Block} (leaves : b.leave fr = .ok (.jump l))
    (next : f.labelled? l = some c) (other : c.id ≠ header.id) (rest : Way f header fr c path) :
    Way f header fr b (b :: path)

theorem Func.Way.eq_cons {f : Func} {header b : Block} {fr : Frame} {path : List Block}
    (h : f.Way header fr b path) : ∃ rest, path = b :: rest := by
  cases h with
  | back => exact ⟨[], rfl⟩
  | on => exact ⟨_, rfl⟩

/-- Of two blocks next to each other on a way, the first goes on to the second. -/
theorem Func.Way.leave_of_infix {f : Func} {header b q c : Block} {fr : Frame} {path : List Block}
    (h : f.Way header fr b path) (hnext : [q, c] <:+: path) :
    q ∈ path ∧ c ∈ path ∧ q.leave fr = .ok (.jump c.label) := by
  refine ⟨hnext.subset (by simp), hnext.subset (by simp), ?_⟩
  induction h with
  | back leaves =>
    have := hnext.length_le
    simp at this
  | on leaves next other rest ih =>
    rcases List.infix_cons_iff.mp hnext with hprefix | hnext
    · obtain ⟨rest, rfl⟩ := rest.eq_cons
      obtain ⟨rfl, hrest⟩ := List.cons_prefix_cons.mp hprefix
      obtain ⟨rfl, -⟩ := List.cons_prefix_cons.mp hrest
      rw [leaves, (Func.labelled?_mem next).2]
    · exact ih hnext

/-- The conditions that a body branches on have integer values. -/
def Frame.Decides (fr : Frame) (body : List Block) : Prop :=
  ∀ b ∈ body, ∀ ty cond l m, b.jump = some (.branch ty cond l m) → ∃ v : Int32, fr.read cond = .ok [.int v]

namespace LoopBody

variable {f : Func} {body path : List Block} {header entry latch b c q q' : Block} {fr : Frame}

/-- Where its condition has a value, a block is left along one of its edges. -/
theorem leave (h : LoopBody f body header entry latch) (hfr : fr.Decides body) (hb : b ∈ body) :
    ∃ r ∈ b.succ, b.leave fr = .ok (.jump r.label) := by
  obtain ⟨j, hj, htargets⟩ := h.linked.jump b (h.sub hb)
  have hne : j.targets ≠ [] := by
    rw [← htargets]
    simpa using h.goesOn b hb
  have hmem : ∀ l ∈ j.targets, ∃ r ∈ b.succ, r.label = l := fun l hl => by
    rw [← htargets] at hl
    exact List.mem_map.mp hl
  unfold Block.leave
  rw [hj]
  cases j with
  | jump l =>
    obtain ⟨r, hr, rfl⟩ := hmem l (by simp [Instr.targets])
    exact ⟨r, hr, rfl⟩
  | branch ty cond l m =>
    obtain ⟨v, hv⟩ := hfr b hb _ _ _ _ hj
    obtain ⟨r, hr, e⟩ := hmem (if (Cell.int v).isTrue then l else m) (by
      simp only [Instr.targets]
      split <;> simp)
    refine ⟨r, hr, ?_⟩
    simp only [Frame.readUniform_of_read hv, e]
    rfl
  | _ => exact absurd rfl hne

theorem labelled? (h : LoopBody f body header entry latch) (hb : b ∈ body) :
    f.labelled? b.label = some b :=
  Func.labelled?_of_linked? h.linked.nodup (h.linked.linked? (h.sub hb))

theorem label_ne_header (h : LoopBody f body header entry latch) (hb : b ∈ body) :
    b.label ≠ header.label := fun e => h.id_ne_header hb (Label.ofBlock_injective e)

/-- From every block of the body a lane comes to the latch, and then back to the header. -/
theorem exists_way (h : LoopBody f body header entry latch) (hfr : fr.Decides body) :
    ∀ b ∈ body, ∃ path, f.Way header fr b path ∧ path.getLast? = some latch := by
  refine h.induct fun b hb ih => ?_
  obtain ⟨r, hr, hleave⟩ := h.leave hfr hb
  rcases h.succ b hb r hr with ⟨c, hc, rfl⟩ | ⟨rfl, rfl⟩
  · obtain ⟨path, hway, hlast⟩ := ih c hc hr
    refine ⟨b :: path, .on hleave (h.labelled? hc) (h.id_ne_header hc) hway, ?_⟩
    rw [List.getLast?_cons, hlast]
    rfl
  · exact ⟨[b], .back hleave, rfl⟩

/-- A way stays in the body. -/
theorem way_subset (h : LoopBody f body header entry latch) (hway : f.Way header fr b path)
    (hfr : fr.Decides body) (hb : b ∈ body) : path ⊆ body := by
  induction hway with
  | back => simpa using hb
  | @on b c l path leaves next other _ ih =>
    obtain ⟨hc, hlabel⟩ := Func.labelled?_mem next
    obtain ⟨r, hr, hleave⟩ := h.leave hfr hb
    obtain rfl : l = r.label := by simpa using leaves.symm.trans hleave
    rcases h.succ b hb r hr with ⟨d, hd, rfl⟩ | ⟨rfl, -⟩
    · obtain rfl := Func.eq_of_id_eq h.linked.nodup hc (h.sub hd) (Label.ofBlock_injective hlabel)
      exact List.cons_subset.mpr ⟨hb, ih hd⟩
    · exact absurd (Label.ofBlock_injective hlabel) other

/-- Leaving along an edge to a block of the body. -/
theorem edge_of_leave (h : LoopBody f body header entry latch) (hfr : fr.Decides body) (hq : q ∈ body)
    (hb : b ∈ body) (hleave : q.leave fr = .ok (.jump b.label)) : b.ref ∈ q.succ := by
  obtain ⟨r, hr, hleave'⟩ := h.leave hfr hq
  have hlabel : b.label = r.label := by simpa using hleave.symm.trans hleave'
  rcases h.succ q hq r hr with ⟨c, hc, rfl⟩ | ⟨rfl, -⟩
  · rwa [h.eq_of_ref hb hc (Label.ofBlock_injective hlabel)]
  · exact absurd hlabel (h.label_ne_header hb)

/-- Where a way goes on to a block, the block is on it. -/
theorem mem_way_of_leave (h : LoopBody f body header entry latch) (hway : f.Way header fr c path)
    (hb : b ∈ body) (hq : q ∈ path) (hleave : q.leave fr = .ok (.jump b.label)) : b ∈ path := by
  induction hway with
  | back leaves =>
    obtain rfl := List.mem_singleton.mp hq
    have hlabel : header.label = b.label := by simpa using leaves.symm.trans hleave
    exact absurd hlabel.symm (h.label_ne_header hb)
  | @on c d l path leaves next other rest ih =>
    rcases List.mem_cons.mp hq with rfl | hq
    · obtain rfl : l = b.label := by simpa using leaves.symm.trans hleave
      obtain rfl : b = d := Option.some.inj ((h.labelled? hb).symm.trans next)
      cases rest <;> simp
    · exact List.mem_cons_of_mem _ (ih hq)

/-- A block on a way is the first one, or the way goes on to it from another one. -/
theorem exists_leave_of_mem (hway : f.Way header fr c path) (hb : b ∈ path) :
    b = c ∨ ∃ q ∈ path, q.leave fr = .ok (.jump b.label) := by
  induction hway with
  | back => exact .inl (List.mem_singleton.mp hb)
  | @on c d l path leaves next _ _ ih =>
    rcases List.mem_cons.mp hb with rfl | hb
    · exact .inl rfl
    · rcases ih hb with rfl | ⟨q, hq, hleave⟩
      · obtain ⟨-, rfl⟩ := Func.labelled?_mem next
        exact .inr ⟨c, List.mem_cons_self, leaves⟩
      · exact .inr ⟨q, List.mem_cons_of_mem _ hq, hleave⟩

/-- What is on a way is reached from its first block. -/
theorem reaches_of_mem_way (h : LoopBody f body header entry latch) (hway : f.Way header fr c path)
    (hfr : fr.Decides body) (hc : c ∈ body) (hb : b ∈ path) :
    ReflTransGen ((f.flow false).EdgeWithin (body.map Block.id)) c.id b.id := by
  induction hway with
  | back =>
    obtain rfl := List.mem_singleton.mp hb
    exact .refl
  | @on c d l path leaves next other rest ih =>
    rcases List.mem_cons.mp hb with rfl | hb
    · exact .refl
    · have hd : d ∈ body := h.way_subset (.on leaves next other rest) hfr hc (by cases rest <;> simp)
      obtain ⟨-, rfl⟩ := Func.labelled?_mem next
      exact .head (h.edge hc hd (h.edge_of_leave hfr hc hd leaves)) (ih hd hb)

/-- A way comes to a block only once. -/
theorem leave_unique (h : LoopBody f body header entry latch) (hway : f.Way header fr c path)
    (hfr : fr.Decides body) (hc : c ∈ body) (hb : b ∈ body) (hq : q ∈ path)
    (hleave : q.leave fr = .ok (.jump b.label)) (hq' : q' ∈ path)
    (hleave' : q'.leave fr = .ok (.jump b.label)) : q = q' := by
  induction hway with
  | back =>
    rw [List.mem_singleton.mp hq, List.mem_singleton.mp hq']
  | @on c d l path leaves next other rest ih =>
    have hsub := h.way_subset (.on leaves next other rest) hfr hc
    have hd : d ∈ body := hsub (by cases rest <;> simp)
    -- once the block was left for `b`, nothing behind it leads there, or there were a cycle
    have key : ∀ p ∈ path, p.leave fr = .ok (.jump b.label) → c.leave fr ≠ .ok (.jump b.label) := by
      intro p hp hleave hleave'
      obtain rfl : l = b.label := by simpa using leaves.symm.trans hleave'
      obtain rfl : b = d := Option.some.inj ((h.labelled? hb).symm.trans next)
      have hpb := hsub (List.mem_cons_of_mem _ hp)
      exact h.acyclic _ (.tail' (h.reaches_of_mem_way rest hfr hb hp)
        (h.edge hpb hb (h.edge_of_leave hfr hpb hb hleave)))
    rcases List.mem_cons.mp hq with rfl | hin
    · rcases List.mem_cons.mp hq' with rfl | hin'
      · rfl
      · exact absurd hleave (key _ hin' hleave')
    · rcases List.mem_cons.mp hq' with rfl | hin'
      · exact absurd hleave' (key _ hin hleave)
      · exact ih hd hin hin'

/-- A block that post-dominates the entry is on every way from there. -/
theorem mem_way_of_postDominates (h : LoopBody f body header entry latch) (hfr : fr.Decides body)
    (hway : f.Way header fr entry path) (hb : b ∈ body)
    (hdom : (f.flow true).Dominates b.id entry.id) : b ∈ path := by
  by_contra hno
  -- against a way that misses the block, its first block is reached from the end of the function
  have key : ∀ {c path}, f.Way header fr c path → c ∈ body → b ∉ path →
      ((f.flow true).without b.id).Reaches c.id := by
    intro c path hway
    induction hway with
    | @back c leaves =>
      intro hc hnotMem
      obtain ⟨r, hr, hleave⟩ := h.leave hfr hc
      have hlabel : header.label = r.label := by simpa using leaves.symm.trans hleave
      have hsucc : header.ref ∈ c.succ := by
        rcases h.succ c hc r hr with ⟨d, hd, rfl⟩ | ⟨rfl, -⟩
        · exact absurd hlabel.symm (h.label_ne_header hd)
        · exact hr
      refine (h.left b hb).step ⟨⟨header, h.header_mem, rfl, c.ref, h.mem_prev (h.sub hc) h.header_mem hsucc, rfl⟩, ?_⟩
      intro e
      exact hnotMem (by simp [h.eq_of_ref hb hc e.symm])
    | @on c d l path leaves next other rest ih =>
      intro hc hnotMem
      have hd : d ∈ body := h.way_subset (.on leaves next other rest) hfr hc (by cases rest <;> simp)
      obtain ⟨-, rfl⟩ := Func.labelled?_mem next
      have hsucc := h.edge_of_leave hfr hc hd leaves
      refine (ih hd fun hmem => hnotMem (List.mem_cons_of_mem _ hmem)).step
        ⟨⟨d, h.sub hd, rfl, c.ref, h.mem_prev (h.sub hc) (h.sub hd) hsucc, rfl⟩, ?_⟩
      intro e
      exact hnotMem (by simp [h.eq_of_ref hb hc e.symm])
  exact hdom.2 (key hway h.entry_mem hno)

end LoopBody

end LoopLanes
