/-
The recurrence of an induction variable.

A loop that is entered from a reachable block is not left for it again, so nothing that the loop
defines flows into its header from there (`start_not_written`).  What the loop does not define is not
computed from its variable (`not_dependsOn_of_notMem`), and the stride of a variable that starts from
such a value is the step of the induction (`stride_eq_step`).
-/
import LoopLanes.Proofs.Cfg.Uses
import LoopLanes.Proofs.Loop.Counted
import LoopLanes.Proofs.Loop.Discovery
import LoopLanes.Proofs.Recurrence.Counter
import LoopLanes.Proofs.Recurrence.Graph

namespace LoopLanes

variable {f : Func} {forest : LoopForest} {l : Loop} {r : BlockRef} {b : Block} {t : Temp} {v : Int}

/-- A loop of a verified function that is entered from one block. -/
structure Loop.EnteredFrom (f : Func) (forest : LoopForest) (l : Loop) (r : BlockRef) : Prop where
  verified : f.verify = .ok ()
  forest_eq : forest = .ofFunc f (DomTree.ofFunc f false)
  mem : l ∈ forest.loops
  outside : l.outsidePreds f forest = [r]

namespace Loop.EnteredFrom

theorem linked (h : l.EnteredFrom f forest r) : f.WellLinked := Func.wellLinked_of_verify h.verified

theorem not_contains (h : l.EnteredFrom f forest r) : forest.contains l r.number = false :=
  (Loop.outsidePreds_eq_singleton h.outside).1.2

theorem not_root (h : l.EnteredFrom f forest r) : l.isRoot = false := by
  by_contra hroot
  have hnone : l.outer.isNone = true := by simpa [Loop.isRoot] using hroot
  have := h.not_contains
  simp [LoopForest.contains, hnone] at this

/-- The header is a block of the loop. -/
theorem header_mem (h : l.EnteredFrom f forest r) {header : Block}
    (hheader : f.linked? l.header = some header) : header ∈ l.blocks f forest := by
  obtain ⟨hm, href⟩ := Func.linked?_mem hheader
  refine Loop.mem_blocks.mpr ⟨hm, ?_⟩
  rw [show header.id = l.header.number from congrArg BlockRef.number href, h.forest_eq]
  exact LoopForest.contains_header h.linked.toLinked (h.forest_eq ▸ h.mem)

end Loop.EnteredFrom

/-- A loop of a verified function that its header alone leaves, and that is entered from one
block, which is reached. -/
structure Loop.Entered (f : Func) (forest : LoopForest) (l : Loop) (r : BlockRef) : Prop where
  verified : f.verify = .ok ()
  forest_eq : forest = .ofFunc f (DomTree.ofFunc f false)
  mem : l ∈ forest.loops
  locals : ∀ t ∈ writesOf f.blocks, t.isGlobal = false
  exiting : (l.exitingBlocks f forest).map (·.id) = [l.header.number]
  outside : l.outsidePreds f forest = [r]
  reached : (f.flow false).Reaches r.number

theorem Loop.Entered.enteredFrom (h : l.Entered f forest r) : l.EnteredFrom f forest r :=
  ⟨h.verified, h.forest_eq, h.mem, h.outside⟩

theorem Loop.Entered.linked (h : l.Entered f forest r) : f.WellLinked := h.enteredFrom.linked

/-- Where the header dominates what leaves a loop, a block of the loop does not dominate a block outside,
unless the header does. -/
theorem header_dominates_outside
    (hexit : ∀ e ∈ l.exitingBlocks f forest, (f.flow false).Reaches e.id →
      (f.flow false).Dominates l.header.number e.id)
    (hb : b ∈ l.blocks f forest) (hv : forest.contains l v = false)
    (hdom : (f.flow false).Dominates b.id v) : (f.flow false).Dominates l.header.number v := by
  refine ⟨hdom.reaches, fun hreach => ?_⟩
  have hin : forest.contains l b.id = true := (Loop.mem_blocks.mp hb).2
  -- what is reached around the header lies in the loop, or is reached around the block
  have key : ∀ w, ((f.flow false).without l.header.number).Reaches w →
      forest.contains l w = true ∨ ((f.flow false).without b.id).Reaches w := by
    intro w hw
    refine hw.induct (P := fun w => forest.contains l w = true ∨
      ((f.flow false).without b.id).Reaches w) ?_ ?_
    · intro r hr
      by_cases hrl : forest.contains l r = true
      · exact .inl hrl
      · exact .inr (.of_root ⟨hr.1, fun e => hrl (e ▸ hin)⟩)
    · intro u w hu ih e
      by_cases hwl : forest.contains l w = true
      · exact .inl hwl
      have hw' : w ≠ b.id := fun e => hwl (e ▸ hin)
      rcases ih with ih | ih
      · obtain ⟨c, hc, rfl, s, hs, rfl⟩ := e.1
        have hleaves : c ∈ l.exitingBlocks f forest := List.mem_filter.mpr
          ⟨Loop.mem_blocks.mpr ⟨hc, ih⟩, List.any_eq_true.mpr ⟨s, hs, by simpa using hwl⟩⟩
        exact absurd hu (hexit c hleaves hu.of_without).2
      · exact .inr (ih.step ⟨e.1, hw'⟩)
  rcases key v hreach with h | h
  · simp [hv] at h
  · exact hdom.2 h

/-- Where the header dominates what leaves a loop, nothing that the loop defines flows into its header from a
reachable block outside. -/
theorem start_not_written (hl : l.EnteredFrom f forest r) (hreached : (f.flow false).Reaches r.number)
    (hexit : ∀ e ∈ l.exitingBlocks f forest, (f.flow false).Reaches e.id →
      (f.flow false).Dominates l.header.number e.id)
    {header : Block} (hheader : f.linked? l.header = some header) {p : Phi} (hp : p ∈ header.phis)
    (hin : p.incoming? (Label.ofBlock r.number) = some (.temp t)) (hlocal : t.isGlobal = false) :
    t ∉ writesOf (l.blocks f forest) := by
  intro hwritten
  have hlinked := hl.linked
  obtain ⟨b, hb, ht⟩ := List.mem_flatMap.mp hwritten
  obtain ⟨hbf, hbl⟩ := Loop.mem_blocks.mp hb
  obtain ⟨hhm, hhref⟩ := Func.linked?_mem hheader
  obtain ⟨⟨hr, hrout⟩, -⟩ := Loop.outsidePreds_eq_singleton hl.outside
  have hprev : r ∈ header.prev := by simpa [Loop.headerPrev, hheader] using hr
  have hhreach : (f.flow false).Reaches header.id := by
    obtain ⟨c, hc, rfl, hsucc⟩ := hlinked.prev header hhm r hprev
    exact hreached.step ((hlinked.flow_edge hc).mpr ⟨_, hsucc, rfl⟩)
  obtain ⟨pos, havail⟩ := Func.available_of_incoming hl.verified hhm hhreach hp hprev hreached hin
  rcases Func.dominates_of_available hl.verified hbf ht hlocal havail with e | hdom
  · rw [e, hrout] at hbl
    cases hbl
  · have hhdom := header_dominates_outside hexit hb hrout hdom
    have hin : forest.contains l r.number = true := by
      rw [hl.forest_eq]
      refine LoopForest.contains_latch hlinked.toLinked (hl.forest_eq ▸ hl.mem) ?_ hhdom
      rw [LoopSearch.prevs, hheader]
      exact hprev
    rw [hrout] at hin
    cases hin

/-- Where the header alone leaves a loop, it dominates what leaves it. -/
theorem Loop.Entered.dominates_exiting (h : l.Entered f forest r) :
    ∀ e ∈ l.exitingBlocks f forest, (f.flow false).Reaches e.id → (f.flow false).Dominates l.header.number e.id := by
  intro e he hreach
  have hid : e.id ∈ (l.exitingBlocks f forest).map (·.id) := List.mem_map_of_mem he
  rw [h.exiting, List.mem_singleton] at hid
  exact hid ▸ .refl hreach

/-! ### What advances an induction variable -/

/-- Blocks of a loop end in jumps and branches. -/
theorem plainJumps_of_wellLinked (hf : f.WellLinked) (hroot : l.isRoot = false) :
    UseGraph.PlainJumps (l.blocks f (.ofFunc f (DomTree.ofFunc f false))) := by
  intro b hb j hj
  obtain ⟨hbf, hbl⟩ := Loop.mem_blocks.mp hb
  obtain ⟨c, hc, hid, hsucc⟩ := LoopForest.hasSucc_of_contains hf.toLinked hroot hbl
  obtain rfl := Func.eq_of_id_eq hf.nodup hc hbf hid
  obtain ⟨i, hi, htargets⟩ := hf.jump c hbf
  obtain rfl : i = j := Option.some.inj (hi.symm.trans hj)
  have hne : i.targets ≠ [] := by
    rw [← htargets]
    simpa using hsucc
  cases i with
  | jump => rfl
  | branch => rfl
  | _ => exact absurd rfl hne

theorem plainJumps_of_loop (hl : l.EnteredFrom f forest r) :
    UseGraph.PlainJumps (l.blocks f forest) :=
  hl.forest_eq ▸ plainJumps_of_wellLinked hl.linked hl.not_root

/-- The two values that flow into a phi, in one order or the other. -/
theorem Phi.reads_of_incoming {p : Phi} {k k' : Label} {start next : Value}
    (hlen : p.incoming.length = 2) (ne : k ≠ k') (h : p.incoming? k = some start)
    (h' : p.incoming? k' = some next) : p.reads = [start, next] ∨ p.reads = [next, start] := by
  obtain ⟨x, y, hin⟩ := List.length_eq_two.mp hlen
  have hx : (start, k) = x ∨ (start, k) = y := by simpa [hin] using Phi.mem_of_incoming? h
  have hy : (next, k') = x ∨ (next, k') = y := by simpa [hin] using Phi.mem_of_incoming? h'
  rw [Phi.reads, hin]
  rcases hx with rfl | rfl
  · rcases hy with hy | rfl
    · exact absurd (congrArg Prod.snd hy).symm ne
    · exact .inl rfl
  · rcases hy with rfl | hy
    · exact .inr rfl
    · exact absurd (congrArg Prod.snd hy).symm ne

/-- One operand of what advances an induction variable is the variable, the other is constant. -/
theorem Induction.readTemps_of_addend? {indvar : Temp} {op : ArithOp} {lhs rhs : Value} {c : Int}
    (h : Induction.addend? indvar op lhs rhs = some c) (target : Temp) (ty : Ty) :
    (Instr.arith target op ty lhs rhs).readTemps = [indvar] := by
  obtain ⟨k, ⟨rfl, ⟨rfl, rfl⟩ | ⟨rfl, rfl⟩, -⟩ | ⟨rfl, rfl, rfl, -⟩⟩ := addend?_eq_some h <;> rfl

section Induction

variable {i : Induction}

/-- The phi of an induction variable reads the two values that flow into it, and what advances it reads the
variable. -/
theorem definitions_of_induction {g : UseGraph} (hg : g = .ofBlocks (l.blocks f forest))
    (hl : l.EnteredFrom f forest r) (hi : Induction.ofLoop? f forest l = some i) :
    ∃ header p op ty lhs rhs, f.linked? l.header = some header ∧ p ∈ header.phis ∧ p.target = i.indvar ∧
      p.incoming? (Label.ofBlock r.number) = some i.start ∧
      g.definition? i.indvar = some (.phi p) ∧ (p.reads = [i.start, .temp i.next] ∨ p.reads = [.temp i.next, i.start]) ∧
      g.definition? i.next = some (.arith i.next op ty lhs rhs) ∧ Induction.addend? i.indvar op lhs rhs = some i.step := by
  have hfound := Induction.found_of_ofLoop? hi
  have hplain := plainJumps_of_loop hl
  have hblocks : ∀ b ∈ l.blocks f forest, b ∈ f.blocks := fun b hb => (Loop.mem_blocks.mp hb).1
  obtain ⟨q, hq, header, p, hheader, hp, hpt, hplen, hstart, hnext⟩ := hfound.entering
  obtain rfl : q = r := by simpa using hq.symm.trans hl.outside
  have hphi := UseGraph.definition?_phi hl.verified hblocks hplain (hl.header_mem hheader) hp
  obtain ⟨b, hb, op, ty, lhs, rhs, harith, hadd, -⟩ := Induction.step?_eq_some hfound.step
  have hdef := UseGraph.definition?_instr hl.verified hblocks hplain hb harith rfl
  rw [← hg] at hphi hdef
  have hne : Label.ofBlock q.number ≠ Label.ofBlock i.latch := by
    intro e
    obtain ⟨latch, hlatch, hlatchn⟩ := hfound.latch
    have hin := (Loop.singleLatch?_eq_some hlatch).1.2
    have hout := hl.not_contains
    rw [Label.ofBlock_injective e, ← hlatchn, hin] at hout
    cases hout
  exact ⟨header, p, op, ty, lhs, rhs, hheader, hp, hpt, hstart, hpt ▸ hphi,
    Phi.reads_of_incoming hplen hne hstart hnext, hdef, hadd⟩

/-- What the loop does not define is not computed from its induction variable. -/
theorem not_dependsOn_of_notMem {g : UseGraph} (hg : g = .ofBlocks (l.blocks f forest))
    (hl : l.EnteredFrom f forest r) (hi : Induction.ofLoop? f forest l = some i)
    (ht : t ∉ writesOf (l.blocks f forest)) : ¬ g.DependsOn t i.indvar := by
  intro hdep
  obtain ⟨-, p, -, -, -, -, -, -, -, -, hphi, -⟩ := definitions_of_induction hg hl hi
  have hdefined := hdep.isDefined (by simp [UseGraph.isDefined, hphi])
  obtain ⟨b, hb, htb⟩ := UseGraph.mem_writes_of_isDefined (plainJumps_of_loop hl) (hg ▸ hdefined)
  exact ht (List.mem_flatMap.mpr ⟨b, hb, htb⟩)

/-- What advances the variable of a counted loop reads it alone, and nothing else that flows into it is computed
from it. -/
theorem advances_of_start {g : UseGraph} (hg : g = .ofBlocks (l.blocks f forest)) (hl : l.EnteredFrom f forest r)
    (hi : Induction.ofLoop? f forest l = some i) (hstart : ∀ t, i.start = .temp t → ¬ g.DependsOn t i.indvar) :
    g.Advances i.indvar i.next := by
  obtain ⟨header, p, op, ty, lhs, rhs, -, -, -, -, hphi, hreads, hdef, hadd⟩ := definitions_of_induction hg hl hi
  have hnextDefined : g.isDefined i.next = true := by simp [UseGraph.isDefined, hdef]
  have hindvar : g.isDefined i.indvar = true := by simp [UseGraph.isDefined, hphi]
  have hoperands : ∀ u, u ∈ g.operands i.indvar ↔
      ((.temp u = i.start ∨ u = i.next) ∧ g.isDefined u = true) := by
    intro u
    have hmem : Value.temp u ∈ p.reads ↔ .temp u = i.start ∨ u = i.next := by
      rcases hreads with e | e <;> simp [e, or_comm]
    have hread : u ∈ (Instr.phi p).readTemps ↔ Value.temp u ∈ p.reads := by
      rw [Instr.readTemps, List.mem_filterMap]
      constructor
      · rintro ⟨v, hv, hvu⟩
        obtain rfl : v = .temp u := by cases v <;> simp_all [Value.temp?]
        exact hv
      · exact fun hu => ⟨_, hu, rfl⟩
    rw [← hmem, ← hread]
    simp [UseGraph.operands, hphi]
  refine ⟨fun e => ?_, ?_, ?_, fun u hu hne hdep => ?_⟩
  · rw [e, hdef] at hphi
    cases hphi
  · simp [UseGraph.operands, hdef, Induction.readTemps_of_addend? hadd, hindvar]
  · exact (hoperands _).mpr ⟨.inr rfl, hnextDefined⟩
  · exact hstart u (((hoperands u).mp hu).1.resolve_right hne).symm hdep

/-- The stride of the recurrence of an induction variable that starts from outside its loop is the
step of the induction. -/
theorem stride_of_start (hl : l.EnteredFrom f forest r) (hi : Induction.ofLoop? f forest l = some i)
    (hout : ∀ t, i.start = .temp t → t ∉ writesOf (l.blocks f forest))
    {e : StridePattern} (he : (Recurrences.ofLoop f forest l).stride? i.indvar = some e) :
    e.stride = i.step := by
  have hadvances := advances_of_start rfl hl hi fun t ht => not_dependsOn_of_notMem rfl hl hi (hout t ht)
  obtain ⟨-, -, op, ty, lhs, rhs, -, -, -, -, -, -, hdef, hadd⟩ := definitions_of_induction rfl hl hi
  exact Recurrences.stride_eq hadvances hdef hadd (List.mem_of_find?_eq_some he) (by simpa using List.find?_some he)

/-- The stride of the recurrence of an induction variable is the step of the induction. -/
theorem stride_eq_step (hl : l.Entered f forest r) (hi : Induction.ofLoop? f forest l = some i)
    {e : StridePattern} (he : (Recurrences.ofLoop f forest l).stride? i.indvar = some e) :
    e.stride = i.step := by
  obtain ⟨q, hq, header, p, hheader, hp, -, -, hstart, -⟩ := (Induction.found_of_ofLoop? hi).entering
  obtain rfl : q = r := by simpa using hq.symm.trans hl.outside
  refine stride_of_start hl.enteredFrom hi (fun t ht hwritten => ?_) he
  obtain ⟨b, hb, htb⟩ := List.mem_flatMap.mp hwritten
  have hlocal := hl.locals t (List.mem_flatMap.mpr ⟨b, (Loop.mem_blocks.mp hb).1, htb⟩)
  exact start_not_written hl.enteredFrom hl.reached hl.dominates_exiting hheader hp (ht ▸ hstart) hlocal hwritten

end Induction

end LoopLanes
