/-
Executions of a loop.

An execution enters the header of a loop from a block outside and then goes from block to block of the
loop, any number of times around.  `Func.Iteration` says where control may stand between two visits of
the header, and with which frame; `Func.Execution` counts the visits.  Calls may answer anything, and the
machine may be in any state, so these are the states that every run comes through, and more.

* `Iteration.mem`, `Iteration.reached` — control stands in blocks of the loop that are reached;
* `Iteration.exists_runs` — how the block was executed so far;
* `Iteration.lookup_eq`, `Execution.lookup_eq` — what the loop does not define keeps its value;
* `Execution.advance` — the next moment of an execution, computed.
-/
import LoopLanes.Proofs.Lanes.Singles
import LoopLanes.Proofs.Lanes.Soundness
import LoopLanes.Proofs.Loop.Discovery
import LoopLanes.Proofs.Loop.Parts
import LoopLanes.Vectorize.Pass

namespace LoopLanes

/-- Instructions executed one after the other. -/
inductive Instr.Runs : List Instr → Frame → Frame → Prop
  | nil {fr : Frame} : Runs [] fr fr
  | cons {x : Instr} {xs : List Instr} {fr mid out : Frame} {call : Caller} {m m' : Machine}
    (first : Gives (x.exec call fr) m mid m') (rest : Runs xs mid out) : Runs (x :: xs) fr out

namespace Instr.Runs

variable {x : Instr} {xs ys : List Instr} {fr mid out : Frame} {t : Temp}

theorem append (h : Runs xs fr mid) (h' : Runs ys mid out) : Runs (xs ++ ys) fr out := by
  induction h with
  | nil => exact h'
  | cons first _ ih => exact .cons first (ih h')

/-- Each of the instructions was executed in between. -/
theorem split : ∀ {xs : List Instr} {fr : Frame}, Runs (xs ++ x :: ys) fr out →
    ∃ before after call m m', Runs xs fr before ∧ Gives (x.exec call before) m after m' ∧
      Runs ys after out := by
  intro xs
  induction xs with
  | nil =>
    rintro fr (_ | ⟨first, rest⟩)
    exact ⟨fr, _, _, _, _, .nil, first, rest⟩
  | cons y xs ih =>
    rintro fr (_ | ⟨first, rest⟩)
    obtain ⟨before, after, call, m, m', hbefore, hx, hafter⟩ := ih rest
    exact ⟨before, after, call, m, m', .cons first hbefore, hx, hafter⟩

theorem lookup_eq (h : Runs xs fr out) (ht : t ∉ xs.filterMap Instr.write) :
    out.lookup t = fr.lookup t := by
  induction h with
  | nil => rfl
  | @cons x xs _ _ _ _ _ _ first _ ih =>
    rw [ih fun hmem => ht ?_, lookup_of_gives_exec first fun e => ht ?_]
    · exact List.mem_filterMap.mpr ⟨x, List.mem_cons_self, e⟩
    · obtain ⟨y, hy, hw⟩ := List.mem_filterMap.mp hmem
      exact List.mem_filterMap.mpr ⟨y, List.mem_cons_of_mem x hy, hw⟩

end Instr.Runs

/-- Where control stands in an iteration of a loop whose header was entered with the frame `top`: the
block, the instructions of it that are still to come, and the frame. -/
inductive Func.Iteration (f : Func) (t : LoopForest) (l : Loop) (header : Block) (top : Frame) :
    Block → List Instr → Frame → Prop
  | start : Iteration f t l header top header header.instrs top
  | exec {b : Block} {x : Instr} {xs : List Instr} {fr fr' : Frame} {call : Caller} {m m' : Machine}
    (before : Iteration f t l header top b (x :: xs) fr) (runs : Gives (x.exec call fr) m fr' m') :
    Iteration f t l header top b xs fr'
  | jump {b c : Block} {fr fr' : Frame} {k : Label} (before : Iteration f t l header top b [] fr)
    (leaves : b.leave fr = .ok (.jump k)) (next : f.labelled? k = some c)
    (inside : t.contains l c.id = true) (other : c.id ≠ l.header.number)
    (enters : c.enter fr (some b.label) = .ok fr') : Iteration f t l header top c c.instrs fr'

/-- An execution of a loop that was entered from the block `r`, at the end of which the frame was
`start`: it comes to the header after going back to it `k` times, and enters it with the frame `top`. -/
inductive Func.Execution (f : Func) (t : LoopForest) (l : Loop) (header : Block) (r : BlockRef)
    (start : Frame) : Nat → Frame → Prop
  | enter {b : Block} {top : Frame} (before : f.Stands b [] start) (source : b.ref = r)
    (leaves : b.leave start = .ok (.jump l.header.label))
    (enters : header.enter start (some b.label) = .ok top) : Execution f t l header r start 0 top
  | back {k : Nat} {b : Block} {top mid top' : Frame} (before : Execution f t l header r start k top)
    (round : f.Iteration t l header top b [] mid) (leaves : b.leave mid = .ok (.jump l.header.label))
    (enters : header.enter mid (some b.label) = .ok top') :
    Execution f t l header r start (k + 1) top'

/-- A loop of a verified function, other than the root, and its header. -/
structure Loop.Headed (f : Func) (l : Loop) (header : Block) : Prop where
  verified : f.verify = .ok ()
  mem : l ∈ f.forest.loops
  notRoot : l.isRoot = false
  header : f.linked? l.header = some header

variable {f : Func} {l : Loop} {r : BlockRef} {b c header : Block} {x : Instr} {xs : List Instr}
  {start top fr : Frame} {k : Nat} {t : Temp} {p : Phi}

/-- A phi is no result of an instruction. -/
theorem Func.phi_notMem_instrs (hf : f.verify = .ok ()) (hc : c ∈ f.blocks) (hp : p ∈ c.phis)
    (hb : b ∈ f.blocks) : p.target ∉ b.instrs.filterMap Instr.write := by
  have htarget : p.target ∈ c.phis.map (·.target) := List.mem_map_of_mem hp
  intro hmem
  obtain rfl := eq_of_mem_writes hf hb hc (List.mem_append_right _ hmem) (List.mem_append_left _ htarget)
  exact (List.nodup_append.mp (writes_nodup hf hb)).2.2 _ htarget _ hmem rfl

/-- A loop that lacks a block is not the root. -/
theorem Loop.isRoot_eq_false {v : Int} (h : f.forest.contains l v = false) : l.isRoot = false := by
  by_contra hroot
  simp [LoopForest.contains, show l.outer.isNone = true by simpa [isRoot] using hroot] at h

/-- Only parameters have a value when a run starts. -/
theorem Func.lookup_frameOf_eq_none (hf : f.verify = .ok ()) (args : List Cell) (ht : t ∈ writesOf f.blocks) :
    (Program.frameOf f args).lookup t = none := by
  refine lookup_foldl_of_notMem Prod.fst (fun e => [e.2]) fun hmem => ?_
  obtain ⟨e, he, rfl⟩ := List.mem_map.mp hmem
  exact (List.nodup_append.mp (definitions_nodup hf)).2.2 _ (List.of_mem_zip he).1 _ ht rfl

/-- Runs come to reached blocks. -/
theorem Func.Stands.reached (h : f.Stands b xs fr) (hf : f.verify = .ok ()) (hne : f.blocks ≠ []) :
    (b ∈ f.blocks ∧ f.Reached b) ∧ xs <:+ b.instrs := by
  have hlinked := wellLinked_of_verify hf
  refine h.invariant (P := fun b => b ∈ f.blocks ∧ f.Reached b) ⟨entry_mem hne, _, .root (root_entry hne)⟩
    fun b ⟨hb, hreached⟩ j hj c hc => ?_
  obtain ⟨d, hd, hnext, hsucc⟩ := exists_target hlinked hb hj
  obtain rfl := Option.some.inj (hc.symm.trans hnext)
  exact ⟨hd, reached_iff.mpr ((reached_iff.mp hreached).step (edge_of_mem_succ hsucc hb))⟩

namespace Loop.Headed

theorem linked (h : l.Headed f header) : f.WellLinked := Func.wellLinked_of_verify h.verified

theorem formed (h : l.Headed f header) : f.WellFormed := Func.wellFormed_of_verify h.verified

theorem mem_func (h : l.Headed f header) : header ∈ f.blocks := (Func.linked?_mem h.header).1

theorem header_id (h : l.Headed f header) : header.id = l.header.number :=
  congrArg BlockRef.number (Func.linked?_mem h.header).2

theorem header_mem (h : l.Headed f header) : header ∈ l.blocks f f.forest :=
  Loop.mem_blocks.mpr ⟨h.mem_func, h.header_id ▸ LoopForest.contains_header h.linked.toLinked h.mem⟩

theorem header_reached (h : l.Headed f header) : f.Reached header := by
  obtain ⟨p, -, hdom⟩ := LoopForest.exists_latch h.linked.toLinked h.mem h.notRoot
  exact Func.reached_iff.mpr (h.header_id ▸ hdom.reaches_left)

/-- A block that the header dominates does not lead to the header from outside the loop. -/
theorem contains_of_dominates (h : l.Headed f header) (hr : r ∈ l.headerPrev f)
    (hdom : (f.flow false).Dominates header.id r.number) : f.forest.contains l r.number = true :=
  LoopForest.contains_latch h.linked.toLinked h.mem hr (h.header_id ▸ hdom)

/-- The only latch is a block behind the header. -/
theorem exists_latch (h : l.Headed f header) (hr : l.singleLatch? f f.forest = some r) :
    ∃ b ∈ f.blocks, b.ref = r ∧ b.ref ∈ header.prev ∧ (f.flow false).Dominates header.id b.id := by
  obtain ⟨q, hq, hdom⟩ := LoopForest.exists_latch h.linked.toLinked h.mem h.notRoot
  obtain ⟨⟨hr, -⟩, hall⟩ := Loop.singleLatch?_eq_some hr
  have hnumber : q.number = r.number := hall q hq (LoopForest.contains_latch h.linked.toLinked h.mem hq hdom)
  rw [headerPrev, h.header] at hr
  obtain ⟨b, hb, rfl, -⟩ := h.linked.prev header h.mem_func r hr
  rw [hnumber] at hdom
  exact ⟨b, hb, rfl, hr, h.header_id ▸ hdom⟩

/-- A block in front of the header is the one outside, or the latch, which the header dominates. -/
theorem label_of_prev (h : l.Headed f header) {q : BlockRef} (hr : l.outsidePreds f f.forest = [r])
    (hq : l.singleLatch? f f.forest = some q) (hb : b ∈ f.blocks) (hprev : b.ref ∈ header.prev) :
    b.label = r.label ∨ b.label = q.label ∧ (f.flow false).Dominates header.id b.id := by
  have hmem : b.ref ∈ l.headerPrev f := by
    rw [headerPrev, h.header]
    exact hprev
  cases hin : f.forest.contains l b.id with
  | false => exact .inl (congrArg Label.ofBlock ((outsidePreds_eq_singleton hr).2 _ hmem hin))
  | true =>
    have hnumber : b.ref.number = q.number := (singleLatch?_eq_some hq).2 _ hmem hin
    obtain ⟨d, hd, href, -, hdom⟩ := h.exists_latch hq
    obtain rfl := Func.eq_of_id_eq h.linked.nodup hd hb ((congrArg BlockRef.number href).trans hnumber.symm)
    exact .inr ⟨congrArg Label.ofBlock hnumber, hdom⟩

/-- What flows into a phi of the header is defined at the end of the block that it comes from. -/
theorem definedAt_incoming (h : l.Headed f header) (hp : p ∈ header.phis) (hb : b ∈ f.blocks)
    (hprev : b.ref ∈ header.prev) (hreached : f.Reached b) (ht : p.incoming? b.label = some (.temp t))
    (hlocal : t.isGlobal = false) : f.DefinedAt t b b.instrs.length :=
  h.formed.incoming header h.mem_func h.header_reached p hp b hb hprev hreached t
    (Phi.mem_of_incoming? ht) hlocal

/-- Only the header has its phis. -/
theorem not_written (h : l.Headed f header) (hp : p ∈ header.phis) (hb : b ∈ f.blocks) :
    p.target ∉ b.instrs.filterMap Instr.write ∧
      (b.id ≠ l.header.number → p.target ∉ b.phis.map (·.target)) := by
  refine ⟨Func.phi_notMem_instrs h.verified h.mem_func hp hb, fun hne hmem => hne ?_⟩
  rw [Func.eq_of_mem_writes h.verified hb h.mem_func (List.mem_append_left _ hmem)
    (List.mem_append_left _ (List.mem_map_of_mem hp)), h.header_id]

end Loop.Headed

/-! ### One iteration -/

namespace Func.Iteration

/-- Control stands in a block of the loop. -/
theorem mem (h : f.Iteration f.forest l header top b xs fr) (hl : l.Headed f header) :
    b ∈ l.blocks f f.forest ∧ xs <:+ b.instrs := by
  induction h with
  | start => exact ⟨hl.header_mem, List.suffix_refl _⟩
  | exec _ _ ih => exact ⟨ih.1, (List.suffix_cons _ _).trans ih.2⟩
  | jump _ _ next inside _ _ _ =>
    exact ⟨Loop.mem_blocks.mpr ⟨(Func.labelled?_mem next).1, inside⟩, List.suffix_refl _⟩

theorem mem_func (h : f.Iteration f.forest l header top b xs fr) (hl : l.Headed f header) : b ∈ f.blocks :=
  (Loop.mem_blocks.mp (h.mem hl).1).1

/-- A block that control jumps to is linked to. -/
theorem mem_succ (h : f.Iteration f.forest l header top b xs fr) (hl : l.Headed f header) {k : Label}
    (leaves : b.leave fr = .ok (.jump k)) (next : f.labelled? k = some c) : c.ref ∈ b.succ :=
  hl.linked.mem_succ_of_leave (h.mem_func hl) leaves (Func.labelled?_mem next).1
    (Func.labelled?_mem next).2

theorem reached (h : f.Iteration f.forest l header top b xs fr) (hl : l.Headed f header) : f.Reached b := by
  induction h with
  | start => exact hl.header_reached
  | exec _ _ ih => exact ih
  | jump before leaves next _ _ _ ih =>
    obtain ⟨vs, hvs⟩ := ih
    exact ⟨_, hvs.step (edge_of_mem_succ (before.mem_succ hl leaves next) (before.mem_func hl))⟩

/-- The block was entered with some frame, and its instructions were executed up to here. -/
theorem exists_runs (h : f.Iteration f.forest l header top b xs fr) : ∃ before entered,
    b.instrs = before ++ xs ∧ f.Iteration f.forest l header top b b.instrs entered ∧
      Instr.Runs before entered fr := by
  induction h with
  | start => exact ⟨[], top, rfl, .start, .nil⟩
  | @exec b x xs fr fr' call m m' _ runs ih =>
    obtain ⟨before, entered, he, hentered, hruns⟩ := ih
    exact ⟨before ++ [x], entered, by simp [he], hentered, hruns.append (.cons runs .nil)⟩
  | jump before leaves next inside other enters _ =>
    exact ⟨[], _, rfl, .jump before leaves next inside other enters, .nil⟩

/-- What no instruction of the loop writes, nor a phi behind its header, keeps its value. -/
theorem lookup_eq (h : f.Iteration f.forest l header top b xs fr) (hl : l.Headed f header)
    (hinstrs : ∀ c ∈ l.blocks f f.forest, t ∉ c.instrs.filterMap Instr.write)
    (hphis : ∀ c ∈ l.blocks f f.forest, c.id ≠ l.header.number → t ∉ c.phis.map (·.target)) :
    fr.lookup t = top.lookup t := by
  induction h with
  | start => rfl
  | exec before runs ih =>
    obtain ⟨hb, hxs⟩ := before.mem hl
    rw [Instr.lookup_of_gives_exec runs fun e => hinstrs _ hb (List.mem_filterMap.mpr ⟨_, ?_, e⟩), ih]
    exact hxs.subset List.mem_cons_self
  | jump _ _ next inside other enters ih =>
    have hc := Loop.mem_blocks.mpr ⟨(Func.labelled?_mem next).1, inside⟩
    rw [Block.lookup_of_enter enters (hphis _ hc other), ih]

/-- A phi of the header keeps its value until the header is entered again. -/
theorem lookup_phi (h : f.Iteration f.forest l header top b xs fr) (hl : l.Headed f header)
    (hp : p ∈ header.phis) : fr.lookup p.target = top.lookup p.target :=
  h.lookup_eq hl (fun _ hc => (hl.not_written hp (Loop.mem_blocks.mp hc).1).1)
    fun _ hc => (hl.not_written hp (Loop.mem_blocks.mp hc).1).2

/-- What the loop does not define keeps its value. -/
theorem lookup_outside (h : f.Iteration f.forest l header top b xs fr) (hl : l.Headed f header)
    (ht : t ∉ writesOf (l.blocks f f.forest)) : fr.lookup t = top.lookup t :=
  h.lookup_eq hl
    (fun c hc hmem => ht (List.mem_flatMap.mpr ⟨c, hc, List.mem_append_right _ hmem⟩))
    fun c hc _ hmem => ht (List.mem_flatMap.mpr ⟨c, hc, List.mem_append_left _ hmem⟩)

/-- The only latch is where an iteration goes back to the header. -/
theorem ref_eq_latch (h : f.Iteration f.forest l header top b [] fr) (hl : l.Headed f header)
    (leaves : b.leave fr = .ok (.jump l.header.label)) {q : BlockRef}
    (hq : l.singleLatch? f f.forest = some q) : b.ref = q := by
  have hb := h.mem_func hl
  have hsucc := h.mem_succ hl leaves (Func.labelled?_of_linked? hl.linked.nodup hl.header)
  have hprev : b.ref ∈ header.prev := (hl.formed.mutual_links b hb header hl.mem_func).mp hsucc
  have hmem : b.ref ∈ l.headerPrev f := by rw [Loop.headerPrev, hl.header]; exact hprev
  obtain ⟨⟨hqm, -⟩, hall⟩ := Loop.singleLatch?_eq_some hq
  have hnumber : b.ref.number = q.number := hall _ hmem (Loop.mem_blocks.mp (h.mem hl).1).2
  rw [Loop.headerPrev, hl.header] at hqm
  obtain ⟨d, hd, rfl, -⟩ := hl.linked.prev header hl.mem_func q hqm
  rw [Func.eq_of_id_eq hl.linked.nodup hb hd hnumber]

end Func.Iteration

/-! ### Executions -/

namespace Func.Execution

/-- An execution begins where control comes to the header from a block in front. -/
theorem exists_stands (h : f.Execution f.forest l header r start k top) (hl : l.Headed f header) :
    ∃ b fr, f.Stands b [] start ∧ b ∈ f.blocks ∧ f.Reached b ∧ b.ref = r ∧ header.ref ∈ b.succ ∧
      header.enter start (some b.label) = .ok fr := by
  induction h with
  | enter before source leaves enters =>
    obtain ⟨⟨hb, hreached⟩, -⟩ := before.reached hl.verified (List.ne_nil_of_mem hl.mem_func)
    have hlabel := (Func.labelled?_mem (Func.labelled?_of_linked? hl.linked.nodup hl.header)).2
    exact ⟨_, _, before, hb, hreached, source, hl.linked.mem_succ_of_leave hb leaves hl.mem_func hlabel, enters⟩
  | back _ _ _ _ ih => exact ih

/-- What the loop does not define keeps its value throughout. -/
theorem lookup_eq (h : f.Execution f.forest l header r start k top) (hl : l.Headed f header)
    (ht : t ∉ writesOf (l.blocks f f.forest)) : top.lookup t = start.lookup t := by
  have hphis : t ∉ header.phis.map (·.target) := fun hmem =>
    ht (List.mem_flatMap.mpr ⟨header, hl.header_mem, List.mem_append_left _ hmem⟩)
  induction h with
  | enter _ _ _ enters => exact Block.lookup_of_enter enters hphis
  | back _ round _ enters ih => rw [Block.lookup_of_enter enters hphis, round.lookup_outside hl ht, ih]

/-- A moment of an execution: the number of times it went back to the header, the frame with which it last
entered it, and where control stands. -/
structure Moment where
  visit : Nat
  top : Frame
  block : Block
  rest : List Instr
  frame : Frame

/-- An execution comes to a moment. -/
def ComesTo (f : Func) (l : Loop) (header : Block) (r : BlockRef) (start : Frame) (s : Moment) : Prop :=
  f.Execution f.forest l header r start s.visit s.top ∧
    f.Iteration f.forest l header s.top s.block s.rest s.frame

/-- The next moment of an execution in which nothing is called and memory is empty. -/
def advance (f : Func) (l : Loop) (header : Block) (s : Moment) : Option Moment :=
  match s.rest with
  | x :: xs =>
    (x.exec (fun name _ => throw (.unknownFunction name)) s.frame |>.run.run Machine.start).1.toOption.map
      fun fr => { s with rest := xs, frame := fr }
  | [] =>
    match s.block.leave s.frame with
    | .ok (.jump k) =>
      if k = l.header.label then
        (header.enter s.frame (some s.block.label)).toOption.map fun fr =>
          ⟨s.visit + 1, fr, header, header.instrs, fr⟩
      else (f.labelled? k).bind fun c =>
        if f.forest.contains l c.id && c.id != l.header.number then
          (c.enter s.frame (some s.block.label)).toOption.map fun fr =>
            { s with block := c, rest := c.instrs, frame := fr }
        else none
    | _ => none

theorem comesTo_advance {s s' : Moment} (h : ComesTo f l header r start s)
    (hs : advance f l header s = some s') : ComesTo f l header r start s' := by
  obtain ⟨k, top, b, xs, fr⟩ := s
  obtain ⟨hexec, hiter⟩ := h
  unfold advance at hs
  dsimp only at *
  split at hs
  · obtain ⟨fr', hfr', rfl⟩ := Option.map_eq_some_iff.mp hs
    exact ⟨hexec, .exec hiter (Prod.ext (toOption_eq_some.mp hfr') rfl)⟩
  · split at hs
    · rename_i j hleave
      split at hs
      · rename_i hj
        obtain ⟨fr', hfr', rfl⟩ := Option.map_eq_some_iff.mp hs
        exact ⟨.back hexec hiter (hj ▸ hleave) (toOption_eq_some.mp hfr'), .start⟩
      · obtain ⟨c, hc, hs⟩ := Option.bind_eq_some_iff.mp hs
        split at hs
        · rename_i hin
          obtain ⟨fr', hfr', rfl⟩ := Option.map_eq_some_iff.mp hs
          simp only [Bool.and_eq_true, bne_iff_ne, ne_eq] at hin
          exact ⟨hexec, .jump hiter hleave hc hin.1 hin.2 (toOption_eq_some.mp hfr')⟩
        · cases hs
    · cases hs

/-- Where the next moment is in another visit, control jumps back. -/
theorem back_of_advance {s s' : Moment} (hs : advance f l header s = some s') (hne : s'.visit ≠ s.visit) :
    s.rest = [] ∧ s.block.leave s.frame = .ok (.jump l.header.label) ∧
      header.enter s.frame (some s.block.label) = .ok s'.top := by
  unfold advance at hs
  split at hs
  · obtain ⟨fr', -, rfl⟩ := Option.map_eq_some_iff.mp hs
    exact absurd rfl hne
  · rename_i hrest
    split at hs
    · rename_i j hleave
      split at hs
      · rename_i hj
        obtain ⟨fr', hfr', rfl⟩ := Option.map_eq_some_iff.mp hs
        exact ⟨hrest, hj ▸ hleave, toOption_eq_some.mp hfr'⟩
      · obtain ⟨c, -, hs⟩ := Option.bind_eq_some_iff.mp hs
        split at hs
        · obtain ⟨fr', -, rfl⟩ := Option.map_eq_some_iff.mp hs
          exact absurd rfl hne
        · cases hs
    · cases hs

/-- Some moments later. -/
def advances (f : Func) (l : Loop) (header : Block) : Nat → Moment → Option Moment
  | 0, s => some s
  | n + 1, s => (advance f l header s).bind (advances f l header n)

theorem comesTo_advances : ∀ {n : Nat} {s s' : Moment}, ComesTo f l header r start s →
    advances f l header n s = some s' → ComesTo f l header r start s' := by
  intro n
  induction n with
  | zero =>
    intro s s' h hs
    cases hs
    exact h
  | succ n ih =>
    intro s s' h hs
    obtain ⟨mid, hmid, hs⟩ := Option.bind_eq_some_iff.mp hs
    exact ih (comesTo_advance h hmid) hs

/-- The block that is jumped to next. -/
def Moment.target? (f : Func) (s : Moment) : Option Block :=
  match s.rest, s.block.leave s.frame with
  | [], .ok (.jump j) => f.labelled? j
  | _, _ => none

theorem Moment.target?_eq_some {s : Moment} (h : s.target? f = some c) :
    s.rest = [] ∧ ∃ j, s.block.leave s.frame = .ok (.jump j) ∧ f.labelled? j = some c := by
  unfold target? at h
  split at h
  · exact ⟨‹_›, _, ‹_›, h⟩
  · cases h

/-- A moment of a call of a function whose entry does nothing but jump to the header. -/
def momentAfter (f : Func) (l : Loop) (header : Block) (args : List Cell) (n : Nat) : Option Moment :=
  let start := Program.frameOf f args
  match f.entry.instrs, f.entry.leave start with
  | [], .ok (.jump k) =>
    if k = l.header.label then
      (header.enter start (some f.entry.label)).toOption.bind fun fr =>
        advances f l header n ⟨0, fr, header, header.instrs, fr⟩
    else none
  | _, _ => none

theorem comesTo_momentAfter {args : List Cell} {n : Nat} {s : Moment}
    (h : momentAfter f l header args n = some s) :
    ComesTo f l header f.entry.ref (Program.frameOf f args) s := by
  unfold momentAfter at h
  dsimp only at h
  split at h
  · rename_i hinstrs hleave
    split at h
    · rename_i hk
      obtain ⟨fr, hfr, h⟩ := Option.bind_eq_some_iff.mp h
      have hstands : f.Stands f.entry [] (Program.frameOf f args) := hinstrs ▸ .start args
      exact comesTo_advances ⟨.enter hstands rfl (hk ▸ hleave) (toOption_eq_some.mp hfr), .start⟩ h
    · cases h
  · cases h

end Func.Execution

end LoopLanes
