/-
Functions whose blocks are given other code.

Code is closed if whatever it reads is known in front of it, or is defined by code that comes before
(`Instr.Closed`).  A function whose blocks keep their names, their ways and what they define stays formed by its
jumps, as long as the new code is closed (`Func.Recasts.formedByJumps`).

* `Func.closed_code_iff` — what a block of a function reads, put as closed code;
* `Func.Grows.formedByJumps` — blocks may be given more instructions and other terminators, if these lead where
  the old ones led;
* `Func.Workable` — functions that are formed by their jumps and have room for new names: other blocks may be put
  in the places of all (`mapBlocks`) or of one (`modify`, `append`, `rephi`).
-/
import LoopLanes.Proofs.Cfg.Jumps
import LoopLanes.Proofs.Cfg.Names

namespace LoopLanes

/-! ### Closed code -/

namespace Instr

variable {K K' : Temp → Prop} {xs ys : List Instr} {x : Instr} {t : Temp}

/-- Code that reads what is known, or what code in front of it defines. -/
def Closed (K : Temp → Prop) : List Instr → Prop
  | [] => True
  | x :: xs => (∀ t ∈ x.readTemps, t.isGlobal = false → K t) ∧ Closed (fun t => K t ∨ x.write = some t) xs

theorem Closed.mono (hK : ∀ t, K t → K' t) : ∀ {xs : List Instr}, Closed K xs → Closed K' xs := by
  intro xs
  induction xs generalizing K K' with
  | nil => exact id
  | cons x xs ih => exact fun ⟨hx, hxs⟩ => ⟨fun t ht hl => hK t (hx t ht hl), ih (fun t => Or.imp_left (hK t)) hxs⟩

theorem closed_congr (hK : ∀ t, K t ↔ K' t) : Closed K xs ↔ Closed K' xs :=
  ⟨.mono fun t => (hK t).mp, .mono fun t => (hK t).mpr⟩

theorem closed_append :
    Closed K (xs ++ ys) ↔ Closed K xs ∧ Closed (fun t => K t ∨ t ∈ xs.filterMap Instr.write) ys := by
  induction xs generalizing K with
  | nil => simp [Closed]
  | cons x xs ih =>
    rw [List.cons_append, Closed, Closed, ih, and_assoc]
    refine and_congr_right fun _ => and_congr_right fun _ => closed_congr fun t => ?_
    rw [or_assoc, List.filterMap_cons]
    cases x.write <;> simp [eq_comm]

theorem closed_singleton : Closed K [x] ↔ ∀ t ∈ x.readTemps, t.isGlobal = false → K t := by simp [Closed]

theorem closed_iff : Closed K xs ↔ ∀ pos x, xs[pos]? = some x → ∀ t ∈ x.readTemps, t.isGlobal = false →
    K t ∨ t ∈ (xs.take pos).filterMap Instr.write := by
  induction xs generalizing K with
  | nil => simp [Closed]
  | cons y ys ih =>
    rw [Closed, ih]
    have hwrites : ∀ (pos : Nat) t, (K t ∨ y.write = some t) ∨ t ∈ (ys.take pos).filterMap Instr.write ↔
        K t ∨ t ∈ ((y :: ys).take (pos + 1)).filterMap Instr.write := by
      intro pos t
      rw [or_assoc, List.take_succ_cons, List.filterMap_cons]
      cases y.write <;> simp [eq_comm]
    constructor
    · rintro ⟨hy, hys⟩ pos x hx t ht hlocal
      cases pos with
      | zero =>
        obtain rfl := Option.some.inj hx
        exact .inl (hy t ht hlocal)
      | succ pos => exact (hwrites pos t).mp (hys pos x hx t ht hlocal)
    · intro h
      refine ⟨fun t ht hlocal => ?_, fun pos x hx t ht hlocal => (hwrites pos t).mpr (h (pos + 1) x hx t ht hlocal)⟩
      simpa using h 0 y rfl t ht hlocal

end Instr

namespace Func

variable {f g : Func} {b c : Block} {t : Temp} {pos : Nat} {G : Flow Int} {φ : Block → Block}

/-- What has its value at a place had it where its block is entered, or was defined in the block. -/
theorem definedAlong_iff : f.DefinedAlong G t b pos ↔
    f.DefinedAlong G t b 0 ∨ t ∈ (b.instrs.take pos).filterMap Instr.write := by
  simp only [DefinedAlong, Block.writesBefore, List.take_zero, List.filterMap_nil, List.append_nil, List.mem_append]
  rw [or_assoc (a := t ∈ f.params), or_assoc, or_assoc, or_comm (b := t ∈ List.filterMap Instr.write _)]

/-- The code of a block is closed if whatever it reads has its value. -/
theorem closed_code_iff : Instr.Closed (fun t => f.DefinedAlong G t b 0) (b.instrs ++ b.jump.toList) ↔
    ∀ pos x, (b.instrs ++ b.jump.toList)[pos]? = some x → ∀ t ∈ x.readTemps, t.isGlobal = false →
      f.DefinedAlong G t b pos := by
  rw [Instr.closed_iff]
  refine forall₂_congr fun pos x => imp_congr_right fun hx => ?_
  -- at most the terminator follows
  have hle : pos ≤ b.instrs.length := by
    have hlt := (List.getElem?_eq_some_iff.mp hx).1
    rw [List.length_append] at hlt
    cases hj : b.jump <;> simp [hj] at hlt <;> omega
  rw [List.take_append_of_le_length hle]
  exact forall₂_congr fun t _ => imp_congr_right fun _ => definedAlong_iff.symm

/-! ### Other code -/

/-- Blocks that keep their names, and define what they defined. -/
structure Retains (f : Func) (φ : Block → Block) : Prop where
  ref : ∀ b ∈ f.blocks, (φ b).ref = b.ref
  targets : ∀ b ∈ f.blocks, (φ b).phis.map (·.target) = b.phis.map (·.target)
  writes : ∀ b ∈ f.blocks, b.instrs.filterMap Instr.write ⊆ (φ b).instrs.filterMap Instr.write

namespace Retains

theorem id (h : f.Retains φ) (hb : b ∈ f.blocks) : (φ b).id = b.id := congrArg BlockRef.number (h.ref b hb)

theorem map_id (h : f.Retains φ) : (f.mapBlocks φ).blocks.map Block.id = f.blocks.map Block.id := by
  rw [mapBlocks, List.map_map]
  exact List.map_congr_left fun b hb => h.id hb

theorem label (h : f.Retains φ) (hb : b ∈ f.blocks) : (φ b).label = b.label :=
  congrArg BlockRef.label (h.ref b hb)

theorem writes_subset (h : f.Retains φ) (hb : b ∈ f.blocks) : b.writes ⊆ (φ b).writes := by
  intro t ht
  refine (List.mem_append.mp ht).elim (fun ht => List.mem_append_left _ ?_) fun ht => List.mem_append_right _ ?_
  · rwa [h.targets b hb]
  · exact h.writes b hb ht

/-- What had its value where a block is entered has it there still. -/
theorem definedAlong_zero (h : f.Retains φ) (hb : b ∈ f.blocks) (ht : f.DefinedAlong G t b 0) :
    (f.mapBlocks φ).DefinedAlong G t (φ b) 0 := by
  rcases ht with ht | ht | ⟨c, hc, hne, ht, hpath⟩
  · exact .inl ht
  · refine .inr (.inl ?_)
    rwa [Block.writesBefore, List.take_zero, h.targets b hb]
  · refine .inr (.inr ⟨φ c, List.mem_map_of_mem hc, ?_, h.writes_subset hc ht, ?_⟩)
    · rwa [h.id hb, h.id hc]
    · rwa [h.id hb, h.id hc]

/-- What had its value at the end of a block has it there still. -/
theorem definedAlong_length (h : f.Retains φ) (hb : b ∈ f.blocks) (ht : f.DefinedAlong G t b b.instrs.length) :
    (f.mapBlocks φ).DefinedAlong G t (φ b) (φ b).instrs.length := by
  rw [definedAlong_iff, List.take_length] at ht ⊢
  exact ht.imp (h.definedAlong_zero hb) fun ht => h.writes b hb ht

end Retains

/-- A terminator that is kept reads what has its value. -/
theorem Retains.closed_jump (h : f.Retains φ) (hf : f.FormedByJumps) (hb : b ∈ f.blocks) (hr : f.jumpFlow.Reaches b.id)
    (hjump : (φ b).jump = b.jump) : Instr.Closed (fun t => (f.mapBlocks φ).DefinedAlong f.jumpFlow t (φ b) 0 ∨
      t ∈ (φ b).instrs.filterMap Instr.write) (φ b).jump.toList := by
  obtain ⟨-, hclosed⟩ := Instr.closed_append.mp (closed_code_iff.mpr fun pos x => hf.reads b hb hr pos x)
  rw [hjump]
  exact hclosed.mono fun t => Or.imp (h.definedAlong_zero hb) fun ht => h.writes b hb ht

/-- Blocks may be given other code that is closed and goes on to the same blocks, and phis other values to take in,
as long as each is there at the end of the block that it comes from. -/
structure Recasts (f : Func) (φ : Block → Block) : Prop extends f.Retains φ where
  labels : ∀ b ∈ f.blocks, ∀ q ∈ (φ b).phis, ∃ p ∈ b.phis, q.incoming.map (·.2) = p.incoming.map (·.2)
  terminated : ∀ b ∈ f.blocks, (φ b).jump.isSome
  ways : ∀ b ∈ f.blocks, ∀ l, l ∈ (φ b).targets ↔ l ∈ b.targets
  fresh : (f.params ++ writesOf (f.mapBlocks φ).blocks).Nodup
  typed : ∀ b ∈ f.blocks, f.jumpFlow.Reaches b.id → ∀ x ∈ (φ b).instrs ++ (φ b).jump.toList, x.wellTyped = true
  closed : ∀ b ∈ f.blocks, f.jumpFlow.Reaches b.id →
    Instr.Closed (fun t => (f.mapBlocks φ).DefinedAlong f.jumpFlow t (φ b) 0) ((φ b).instrs ++ (φ b).jump.toList)
  incoming : ∀ b ∈ f.blocks, f.jumpFlow.Reaches b.id → ∀ q ∈ (φ b).phis, ∀ e ∈ q.incoming,
    (∃ p ∈ b.phis, e ∈ p.incoming) ∨ ∀ c ∈ f.blocks, c.label = e.2 → b.label ∈ c.targets → f.jumpFlow.Reaches c.id →
      ∀ t, e.1 = .temp t → t.isGlobal = false → (f.mapBlocks φ).DefinedAlong f.jumpFlow t (φ c) (φ c).instrs.length

namespace Recasts

theorem mem_targets (h : f.Recasts φ) (hb : b ∈ f.blocks) {l : Label} : l ∈ (φ b).targets ↔ l ∈ b.targets :=
  h.ways b hb l

/-- Jumps lead where they led before. -/
theorem jumpFlow_eq (h : f.Recasts φ) : (f.mapBlocks φ).jumpFlow = f.jumpFlow := by
  have hedge : (f.mapBlocks φ).jumpFlow.edge = f.jumpFlow.edge := by
    funext u w
    refine propext ⟨?_, ?_⟩
    · rintro ⟨_, hmem, rfl, hl⟩
      obtain ⟨b, hb, rfl⟩ := List.mem_map.mp hmem
      exact ⟨b, hb, (h.id hb).symm, (h.mem_targets hb).mp hl⟩
    · rintro ⟨b, hb, rfl, hl⟩
      exact ⟨φ b, List.mem_map_of_mem hb, h.id hb, (h.mem_targets hb).mpr hl⟩
  have hroot : (f.mapBlocks φ).jumpFlow.root = f.jumpFlow.root := by
    funext v
    rw [eq_iff_iff, jumpFlow_root_iff, jumpFlow_root_iff, h.map_id]
  exact congrArg₂ Flow.mk hedge hroot

/-- A function whose blocks are given other code is formed by its jumps if it was before. -/
theorem formedByJumps (h : f.Recasts φ) (hf : f.FormedByJumps) : (f.mapBlocks φ).FormedByJumps := by
  have hflow := h.jumpFlow_eq
  refine ⟨?_, ?_, ?_, ?_, h.fresh, ?_, ?_, ?_⟩
  · exact h.map_id ▸ hf.distinct
  · exact List.forall_mem_map.mpr h.terminated
  · refine List.forall_mem_map.mpr fun b hb l hl => ?_
    obtain ⟨c, hc, rfl⟩ := hf.target b hb l ((h.mem_targets hb).mp hl)
    exact ⟨φ c, List.mem_map_of_mem hc, h.label hc⟩
  · refine List.forall_mem_map.mpr fun b hb q hq => ?_
    obtain ⟨p, hp, hlabels⟩ := h.labels b hb q hq
    rw [hlabels, h.label hb]
    obtain ⟨hnodup, hmem⟩ := hf.phis b hb p hp
    refine ⟨hnodup, fun l => (hmem l).trans ⟨?_, ?_⟩⟩
    · rintro ⟨c, hc, hl, rfl⟩
      exact ⟨φ c, List.mem_map_of_mem hc, (h.mem_targets hc).mpr hl, h.label hc⟩
    · rintro ⟨_, hmem, hl, rfl⟩
      obtain ⟨c, hc, rfl⟩ := List.mem_map.mp hmem
      exact ⟨c, hc, (h.mem_targets hc).mp hl, (h.label hc).symm⟩
  · refine List.forall_mem_map.mpr fun b hb hr => ?_
    rw [hflow, h.id hb] at hr
    exact h.typed b hb hr
  · refine List.forall_mem_map.mpr fun b hb hr => ?_
    rw [hflow, h.id hb] at hr
    rw [hflow]
    exact closed_code_iff.mp (h.closed b hb hr)
  · refine List.forall_mem_map.mpr fun b hb hr q hq => List.forall_mem_map.mpr fun c hc hl hr' t ht hlocal => ?_
    rw [hflow, h.id hb] at hr
    rw [hflow, h.id hc] at hr'
    rw [h.label hb, h.mem_targets hc] at hl
    rw [h.label hc] at ht
    rw [hflow]
    rcases h.incoming b hb hr q hq _ ht with ⟨p, hp, hin⟩ | hnew
    · exact h.definedAlong_length hc (hf.incoming b hb hr p hp c hc hl hr' t hin hlocal)
    · exact hnew c hc rfl hl hr' t rfl hlocal

end Recasts

/-! ### Blocks that grow -/

/-- Blocks that keep their names, and what they define, and are given instructions behind their own. -/
structure Extends (f : Func) (φ : Block → Block) (added : Block → List Instr) : Prop where
  ref : ∀ b ∈ f.blocks, (φ b).ref = b.ref
  instrs : ∀ b ∈ f.blocks, (φ b).instrs = b.instrs ++ added b
  targets : ∀ b ∈ f.blocks, (φ b).phis.map (·.target) = b.phis.map (·.target)

namespace Extends

variable {added : Block → List Instr}

theorem retains (h : f.Extends φ added) : f.Retains φ := by
  refine ⟨h.ref, h.targets, fun b hb t ht => ?_⟩
  rw [h.instrs b hb, List.filterMap_append]
  exact List.mem_append_left _ ht

theorem id (h : f.Extends φ added) (hb : b ∈ f.blocks) : (φ b).id = b.id := congrArg BlockRef.number (h.ref b hb)

theorem label (h : f.Extends φ added) (hb : b ∈ f.blocks) : (φ b).label = b.label :=
  congrArg BlockRef.label (h.ref b hb)

theorem writes_eq (h : f.Extends φ added) (hb : b ∈ f.blocks) :
    (φ b).writes = b.writes ++ (added b).filterMap Instr.write := by
  rw [Block.writes, h.targets b hb, h.instrs b hb, List.filterMap_append, ← List.append_assoc, Block.writes]

/-- What was defined at a place is still defined there. -/
theorem definedAlong (h : f.Extends φ added) (hb : b ∈ f.blocks) (hle : pos ≤ b.instrs.length)
    (ht : f.DefinedAlong G t b pos) : (f.mapBlocks φ).DefinedAlong G t (φ b) pos := by
  rcases ht with ht | ht | ⟨c, hc, hne, ht, hpath⟩
  · exact .inl ht
  · refine .inr (.inl ?_)
    rwa [Block.writesBefore, h.targets b hb, h.instrs b hb, List.take_append_of_le_length hle]
  · refine .inr (.inr ⟨φ c, List.mem_map_of_mem hc, ?_, ?_, ?_⟩)
    · rwa [h.id hb, h.id hc]
    · rw [h.writes_eq hc]
      exact List.mem_append_left _ ht
    · rwa [h.id hb, h.id hc]

/-- What is defined afterwards is what was, and what the new instructions define. -/
theorem perm_writesOf (h : f.Extends φ added) : (writesOf (f.mapBlocks φ).blocks).Perm
    (writesOf f.blocks ++ f.blocks.flatMap fun b => (added b).filterMap Instr.write) := by
  have hwrites : writesOf (f.mapBlocks φ).blocks =
      f.blocks.flatMap fun b => b.writes ++ (added b).filterMap Instr.write := by
    rw [mapBlocks, writesOf, List.flatMap_map]
    exact List.flatMap_congr fun b hb => h.writes_eq hb
  rw [hwrites]
  exact (List.flatMap_append_perm ..).symm

end Extends

/-- Blocks may be given instructions behind their own, phis other values to take in, and a terminator may
become another one with the same targets that branches on what its block defines. -/
structure Grows (f : Func) (φ : Block → Block) (added : Block → List Instr) : Prop extends f.Extends φ added where
  labels : ∀ b ∈ f.blocks, ∀ q ∈ (φ b).phis, ∃ p ∈ b.phis, q.incoming.map (·.2) = p.incoming.map (·.2)
  jump : ∀ b ∈ f.blocks, (φ b).jump = b.jump ∨ ∃ j, (φ b).jump = some j ∧
    (∀ l, l ∈ j.targets ↔ l ∈ b.targets) ∧ j.wellTyped = true ∧ ∀ t ∈ j.readTemps, t ∈ (φ b).writes
  fresh : (f.params ++ writesOf f.blocks ++ f.blocks.flatMap fun b => (added b).filterMap Instr.write).Nodup
  typed : ∀ b ∈ f.blocks, ∀ x ∈ added b, x.wellTyped = true
  reads : ∀ b ∈ f.blocks, f.jumpFlow.Reaches b.id → ∀ pos x, (added b)[pos]? = some x → ∀ t ∈ x.readTemps,
    t.isGlobal = false → (f.mapBlocks φ).DefinedAlong f.jumpFlow t (φ b) (b.instrs.length + pos)
  incoming : ∀ b ∈ f.blocks, ∀ q ∈ (φ b).phis, ∀ e ∈ q.incoming, (∃ p ∈ b.phis, e ∈ p.incoming) ∨
    ∀ c ∈ f.blocks, c.label = e.2 → ∀ t, e.1 = .temp t → t ∈ (φ c).writes

namespace Grows

variable {added : Block → List Instr}

theorem nodup_definitions (h : f.Grows φ added) :
    ((f.mapBlocks φ).params ++ writesOf (f.mapBlocks φ).blocks).Nodup := by
  refine ((h.perm_writesOf.append_left f.params).nodup_iff).mpr ?_
  rw [← List.append_assoc]
  exact h.fresh

/-- The terminator of a block is well typed and reads what has its value. -/
theorem jump_spec (h : f.Grows φ added) (hf : f.FormedByJumps) (hb : b ∈ f.blocks) (hr : f.jumpFlow.Reaches b.id) :
    (∀ j ∈ (φ b).jump.toList, j.wellTyped = true) ∧ Instr.Closed (fun t =>
      (f.mapBlocks φ).DefinedAlong f.jumpFlow t (φ b) 0 ∨ t ∈ (φ b).instrs.filterMap Instr.write) (φ b).jump.toList := by
  rcases h.jump b hb with e | ⟨j, hj, -, htyped, hreads⟩
  · refine ⟨fun j hj => hf.typed b hb hr j (List.mem_append_right _ ?_), h.retains.closed_jump hf hb hr e⟩
    rwa [← e]
  · rw [hj]
    refine ⟨List.forall_mem_singleton.mpr htyped, Instr.closed_singleton.mpr fun t ht _ => ?_⟩
    refine (List.mem_append.mp (hreads t ht)).imp_left fun ht => .inr (.inl ?_)
    rwa [Block.writesBefore, List.take_zero, List.filterMap_nil, List.append_nil]

/-- Where the code of a block was closed, what it is given makes it other code that is closed. -/
theorem recasts (h : f.Grows φ added) (hf : f.FormedByJumps) : f.Recasts φ where
  toRetains := h.retains
  labels := h.labels
  terminated b hb := by
    rcases h.jump b hb with e | ⟨j, hj, -⟩
    · exact e ▸ hf.terminated b hb
    · rw [hj]
      rfl
  ways b hb l := by
    rcases h.jump b hb with e | ⟨j, hj, htargets, -⟩
    · rw [Block.targets, e, Block.targets]
    · rw [Block.targets, hj]
      exact htargets l
  fresh := h.nodup_definitions
  incoming b hb _ q hq e he := by
    refine (h.incoming b hb q hq e he).imp_right fun hnew c hc hl _ _ t ht _ => .inr (.inl ?_)
    rw [Block.writesBefore_length]
    exact hnew c hc hl t ht
  typed b hb hr := by
    refine List.forall_mem_append.mpr ⟨fun x hx => ?_, (h.jump_spec hf hb hr).1⟩
    rw [h.instrs b hb] at hx
    rcases List.mem_append.mp hx with hx | hx
    · exact hf.typed b hb hr x (List.mem_append_left _ hx)
    · exact h.typed b hb x hx
  closed b hb hr := by
    refine Instr.closed_append.mpr ⟨?_, (h.jump_spec hf hb hr).2⟩
    obtain ⟨hold, -⟩ := Instr.closed_append.mp (closed_code_iff.mpr fun pos x => hf.reads b hb hr pos x)
    rw [h.instrs b hb]
    refine Instr.closed_append.mpr ⟨hold.mono fun t => h.retains.definedAlong_zero hb, Instr.closed_iff.mpr ?_⟩
    intro pos x hx t ht hlocal
    have hdefined := h.reads b hb hr pos x hx t ht hlocal
    rw [definedAlong_iff, h.instrs b hb, List.take_length_add_append, List.filterMap_append, List.mem_append,
      ← or_assoc] at hdefined
    exact hdefined

theorem mem_targets (h : f.Grows φ added) (hf : f.FormedByJumps) (hb : b ∈ f.blocks) {l : Label} :
    l ∈ (φ b).targets ↔ l ∈ b.targets := (h.recasts hf).mem_targets hb

theorem jumpFlow_eq (h : f.Grows φ added) (hf : f.FormedByJumps) : (f.mapBlocks φ).jumpFlow = f.jumpFlow :=
  (h.recasts hf).jumpFlow_eq

/-- A function whose blocks grow is formed by its jumps if it was before. -/
theorem formedByJumps (h : f.Grows φ added) (hf : f.FormedByJumps) : (f.mapBlocks φ).FormedByJumps :=
  (h.recasts hf).formedByJumps hf

end Grows

/-! ### Room for new names -/

open scoped List in
/-- What some blocks define besides what they defined, the function does. -/
theorem perm_writesOf_mapBlocks (hnodup : f.blocks.Nodup) {bs : List Block} (hbs : bs.Nodup) (hsub : bs ⊆ f.blocks)
    (hrest : ∀ b ∈ f.blocks, b ∉ bs → φ b = b) {us : List Temp}
    (hperm : (bs.flatMap fun b => (φ b).writes).Perm (writesOf bs ++ us)) :
    (writesOf (f.mapBlocks φ).blocks).Perm (writesOf f.blocks ++ us) := by
  classical
  have hsplit : (f.blocks.filter (· ∉ bs) ++ bs).Perm f.blocks := by
    refine (List.perm_ext_iff_of_nodup ?_ hnodup).mpr fun b => ?_
    · exact (hnodup.filter _).append hbs fun b hb hb' => of_decide_eq_true (List.mem_filter.mp hb).2 hb'
    · simp only [List.mem_append, List.mem_filter, decide_eq_true_eq]
      exact ⟨fun h => h.elim And.left fun h => hsub h, fun h => (em (b ∈ bs)).symm.imp_left fun hb => ⟨h, hb⟩⟩
  have hkept : (f.blocks.filter (· ∉ bs)).flatMap (fun b => (φ b).writes) = writesOf (f.blocks.filter (· ∉ bs)) := by
    refine List.flatMap_congr fun b hb => ?_
    obtain ⟨hb, hout⟩ := List.mem_filter.mp hb
    rw [hrest b hb (of_decide_eq_true hout)]
  calc writesOf (f.mapBlocks φ).blocks
      = f.blocks.flatMap fun b => (φ b).writes := List.flatMap_map ..
    _ ~ (f.blocks.filter (· ∉ bs) ++ bs).flatMap fun b => (φ b).writes := (hsplit.flatMap_right _).symm
    _ = writesOf (f.blocks.filter (· ∉ bs)) ++ bs.flatMap fun b => (φ b).writes := by rw [List.flatMap_append, hkept]
    _ ~ writesOf (f.blocks.filter (· ∉ bs)) ++ (writesOf bs ++ us) := hperm.append_left _
    _ = (f.blocks.filter (· ∉ bs) ++ bs).flatMap Block.writes ++ us := by
        rw [List.flatMap_append, List.append_assoc, writesOf, writesOf]
    _ ~ writesOf f.blocks ++ us := (hsplit.flatMap_right _).append_right us

/-- What is defined once a block defines more. -/
theorem perm_writesOf_modify (hnodup : (f.blocks.map Block.id).Nodup) (hb : b ∈ f.blocks) {u : Block → Block}
    {us : List Temp} (hu : (u b).writes.Perm (b.writes ++ us)) :
    (writesOf (f.modify b.ref u).blocks).Perm (writesOf f.blocks ++ us) := by
  refine perm_writesOf_mapBlocks (φ := fun c => if c.ref == b.ref then u c else c) (.of_map _ hnodup)
    (List.nodup_singleton b) (List.cons_subset.mpr ⟨hb, List.nil_subset _⟩) (fun c hc hout => if_neg fun e => hout ?_) ?_
  · exact List.mem_singleton.mpr (eq_of_id_eq hnodup hc hb (congrArg BlockRef.number (beq_iff_eq.mp e)))
  · simpa [writesOf] using hu

/-- A function that is formed by its jumps and has room for new names. -/
structure Workable (f : Func) (n : TempCounter) : Prop extends f.Extensible n where
  formed : f.FormedByJumps

/-- What may stand in the place of a block: it goes on as the block does, defines what the block defines and new
names, and reads what has its value. -/
structure Replaces (f : Func) (n m : TempCounter) (b d : Block) : Prop where
  ref : d.ref = b.ref
  jump : d.jump = b.jump
  targets : d.phis.map (·.target) = b.phis.map (·.target)
  labels : ∀ q ∈ d.phis, ∃ p ∈ b.phis, q.incoming.map (·.2) = p.incoming.map (·.2)
  types : ∀ q ∈ d.phis, q.ty = q.target.ty
  writes : ∃ us, Temp.AllFresh n m us ∧ (∀ t ∈ us, t.isGlobal = false) ∧
    (d.instrs.filterMap Instr.write).Perm (us ++ b.instrs.filterMap Instr.write)
  reserved : ∀ x ∈ d.instrs, ∀ t ∈ x.readTemps, t.Reserved m
  typed : f.jumpFlow.Reaches b.id → ∀ x ∈ d.instrs, x.wellTyped = true
  closed : f.jumpFlow.Reaches b.id → Instr.Closed (fun t => f.DefinedAlong f.jumpFlow t b 0) d.instrs

namespace Replaces

variable {n m : TempCounter} {d : Block}

theorem perm_writes (h : f.Replaces n m b d) : ∃ us, Temp.AllFresh n m us ∧ (∀ t ∈ us, t.isGlobal = false) ∧
    d.writes.Perm (b.writes ++ us) := by
  obtain ⟨us, hus, hlocals, hperm⟩ := h.writes
  refine ⟨us, hus, hlocals, ?_⟩
  rw [Block.writes, Block.writes, h.targets, List.append_assoc]
  exact (hperm.trans List.perm_append_comm).append_left _

end Replaces

namespace Workable

variable {n m : TempCounter} {x : Instr} {d : Block}

theorem reserved_of_read (h : f.Workable n) (hb : b ∈ f.blocks) (ht : t ∈ b.readTemps) : t.Reserved n :=
  h.reserved t (mem_mentions_of_read hb ht)

theorem reserved_of_write (h : f.Workable n) (hb : b ∈ f.blocks) (ht : t ∈ b.writes) : t.Reserved n :=
  h.reserved t (mem_mentions (List.mem_append_right _ (List.mem_flatMap.mpr ⟨b, hb, ht⟩)))

/-- The code of a reached block is well typed and closed. -/
theorem code (h : f.Workable n) (hb : b ∈ f.blocks) (hr : f.jumpFlow.Reaches b.id) :
    (∀ x ∈ b.instrs, x.wellTyped = true) ∧ Instr.Closed (fun t => f.DefinedAlong f.jumpFlow t b 0) b.instrs := by
  have hcode := closed_code_iff.mpr fun pos x => h.formed.reads b hb hr pos x
  exact ⟨fun x hx => h.formed.typed b hb hr x (List.mem_append_left _ hx), (Instr.closed_append.mp hcode).1⟩

theorem mono (h : f.Workable n) (hle : n ≤ m) : f.Workable m := ⟨h.toExtensible.mono hle, h.formed⟩

theorem congr (h : f.Workable n) (hparams : g.params = f.params) (hblocks : g.blocks = f.blocks)
    (htotal : f.total ≤ g.total) : g.Workable n where
  locals := hblocks ▸ h.locals
  reserved := by
    rw [mentions, hparams, hblocks]
    exact h.reserved
  total b hb := Int.le_trans (h.total b (hblocks ▸ hb)) htotal
  phis := hblocks ▸ h.phis
  formed := SameCode.formedByJumps ⟨hparams.symm, by rw [hblocks]⟩ h.formed

/-- What a phi takes in has its value at the end of the block that it comes from, which leads to that of the phi. -/
theorem entry (h : f.Workable n) (hb : b ∈ f.blocks) (hc : c ∈ f.blocks) {p : Phi} (hp : p ∈ c.phis)
    (he : (Value.temp t, b.label) ∈ p.incoming) : c.label ∈ b.targets ∧ t.Reserved n ∧
      (f.jumpFlow.Reaches b.id → t.isGlobal = false → f.DefinedAlong f.jumpFlow t b b.instrs.length) := by
  obtain ⟨d, hd, htarget, hl⟩ := ((h.formed.phis c hc p hp).2 b.label).mp (List.mem_map_of_mem (f := (·.2)) he)
  obtain rfl := eq_of_id_eq h.formed.distinct hd hb (Label.ofBlock_injective hl)
  refine ⟨htarget, h.reserved_of_read hc ?_, fun hr hlocal => ?_⟩
  · refine Block.mem_readTemps.mpr (.inl ⟨p, hp, List.mem_filterMap.mpr ⟨.temp t, ?_, rfl⟩⟩)
    exact List.mem_map_of_mem (f := (·.1)) he
  · exact h.formed.incoming c hc (hr.step ⟨d, hd, rfl, htarget⟩) p hp d hd htarget hr t he hlocal

/-- A block may stand in its own place. -/
theorem replaces_self (h : f.Workable n) (hle : n ≤ m) (hb : b ∈ f.blocks) : f.Replaces n m b b where
  ref := rfl
  jump := rfl
  targets := rfl
  labels q hq := ⟨q, hq, rfl⟩
  types := h.phis b hb
  writes := ⟨[], ⟨hle, List.nodup_nil, nofun⟩, nofun, .refl _⟩
  reserved x hx _ ht := (h.reserved_of_read hb (Block.mem_readTemps.mpr (.inr (.inl ⟨x, hx, ht⟩)))).mono hle
  typed hr := (h.code hb hr).1
  closed hr := (h.code hb hr).2

/-- Other blocks are put in the places of all, as long as nothing is defined twice and phis take in, besides what
they took in, what the blocks define that it comes from. -/
theorem mapBlocks (h : f.Workable n) (hword : (m : Int) ≤ u32Max) (hle : n ≤ m)
    (hφ : ∀ b ∈ f.blocks, f.Replaces n m b (φ b)) (hfresh : (f.params ++ writesOf (f.mapBlocks φ).blocks).Nodup)
    (hincoming : ∀ b ∈ f.blocks, ∀ q ∈ (φ b).phis, ∀ e ∈ q.incoming, (∃ p ∈ b.phis, e ∈ p.incoming) ∨
      ∀ t, e.1 = .temp t → ∃ c ∈ f.blocks, c.label = e.2 ∧ t ∈ (φ c).writes) : (f.mapBlocks φ).Workable m := by
  have hretains : f.Retains φ := by
    refine ⟨fun b hb => (hφ b hb).ref, fun b hb => (hφ b hb).targets, fun b hb t ht => ?_⟩
    obtain ⟨us, -, -, hperm⟩ := (hφ b hb).writes
    exact hperm.symm.subset (List.mem_append_right _ ht)
  have hrecasts : f.Recasts φ := by
    refine { hretains with
             labels := fun b hb => (hφ b hb).labels
             terminated := fun b hb => (hφ b hb).jump ▸ h.formed.terminated b hb
             ways := fun b hb l => by rw [Block.targets, (hφ b hb).jump, Block.targets]
             fresh := hfresh
             typed := fun b hb hr => List.forall_mem_append.mpr ⟨(hφ b hb).typed hr, fun x hx => ?_⟩
             closed := fun b hb hr => Instr.closed_append.mpr ⟨((hφ b hb).closed hr).mono fun t =>
               hretains.definedAlong_zero hb, hretains.closed_jump h.formed hb hr (hφ b hb).jump⟩
             incoming := fun b hb _ q hq e he => (hincoming b hb q hq e he).imp_right fun hnew c hc hl _ _ t ht _ => ?_ }
    · exact h.formed.typed b hb hr x (List.mem_append_right _ ((hφ b hb).jump ▸ hx))
    · obtain ⟨c', hc', hl', htc⟩ := hnew t ht
      obtain rfl := eq_of_id_eq h.formed.distinct hc' hc (Label.ofBlock_injective (hl'.trans hl.symm))
      refine .inr (.inl ?_)
      rwa [Block.writesBefore_length]
  have hwritten : ∀ b ∈ f.blocks, ∀ t ∈ (φ b).writes, t.isGlobal = false ∧ t.Reserved m := by
    intro b hb t ht
    obtain ⟨us, hus, hlocals, hperm⟩ := (hφ b hb).perm_writes
    rcases List.mem_append.mp (hperm.subset ht) with ht | ht
    · exact ⟨h.locals t (List.mem_flatMap.mpr ⟨b, hb, ht⟩), (h.reserved_of_write hb ht).mono hle⟩
    · exact ⟨hlocals t ht, (hus.fresh t ht).reserved hword⟩
  have hold : ∀ b ∈ f.blocks, ∀ x ∈ b.code, ∀ t ∈ x.mentions, t.Reserved m := fun b hb x hx t ht =>
    (h.reserved t (List.mem_append_right _ (List.mem_flatMap.mpr ⟨b, hb, List.mem_flatMap.mpr ⟨x, hx, ht⟩⟩))).mono hle
  refine { formed := hrecasts.formedByJumps h.formed, locals := fun t ht => ?_, reserved := fun t ht => ?_,
           total := List.forall_mem_map.mpr fun b hb => hretains.id hb ▸ h.total b hb,
           phis := List.forall_mem_map.mpr fun b hb => (hφ b hb).types }
  · obtain ⟨_, hc, ht⟩ := List.mem_flatMap.mp ht
    obtain ⟨b, hb, rfl⟩ := List.mem_map.mp hc
    exact (hwritten b hb t ht).1
  rcases List.mem_append.mp ht with ht | ht
  · exact (h.reserved t (List.mem_append_left _ ht)).mono hle
  obtain ⟨_, hc, ht⟩ := List.mem_flatMap.mp ht
  obtain ⟨b, hb, rfl⟩ := List.mem_map.mp hc
  obtain ⟨x, hx, ht⟩ := List.mem_flatMap.mp ht
  rcases List.mem_append.mp hx with hx | hx
  swap
  · exact hold b hb x (List.mem_append_right _ ((hφ b hb).jump ▸ hx)) t ht
  rcases List.mem_append.mp hx with hx | hx
  · obtain ⟨q, hq, rfl⟩ := List.mem_map.mp hx
    rcases List.mem_append.mp ht with ht | ht
    · obtain rfl : q.target = t := Option.mem_some_iff.mp (Option.mem_toList.mp ht)
      exact (hwritten b hb _ (List.mem_append_left _ (List.mem_map_of_mem hq))).2
    -- what a phi takes in was taken in before, or is defined by a block
    obtain ⟨v, hv, hvt⟩ := List.mem_filterMap.mp ht
    obtain rfl : v = .temp t := by
      cases v <;> cases hvt
      rfl
    obtain ⟨e, he, hev⟩ := List.mem_map.mp hv
    rcases hincoming b hb q hq e he with ⟨p, hp, he⟩ | hnew
    · refine hold b hb (.phi p) (List.mem_append_left _ (List.mem_append_left _ (List.mem_map_of_mem hp))) t ?_
      refine List.mem_append_right _ (List.mem_filterMap.mpr ⟨.temp t, hev ▸ ?_, rfl⟩)
      exact List.mem_map_of_mem (f := (·.1)) he
    · obtain ⟨c, hc, -, htc⟩ := hnew t hev
      exact (hwritten c hc t htc).2
  · rcases List.mem_append.mp ht with ht | ht
    · exact (hwritten b hb t (List.mem_append_right _ (List.mem_filterMap.mpr ⟨x, hx, Option.mem_toList.mp ht⟩))).2
    · exact (hφ b hb).reserved x hx t ht

/-- Another block is put in the place of one. -/
theorem modify (h : f.Workable n) (hword : (m : Int) ≤ u32Max) {u : Block → Block} (hb : b ∈ f.blocks)
    (hu : f.Replaces n m b (u b)) (hincoming : ∀ q ∈ (u b).phis, ∀ e ∈ q.incoming, (∃ p ∈ b.phis, e ∈ p.incoming) ∨
      ∀ t, e.1 = .temp t → ∃ c ∈ f.blocks, c.label = e.2 ∧ t ∈ c.writes) : (f.modify b.ref u).Workable m := by
  obtain ⟨us, hus, -, hperm⟩ := hu.perm_writes
  have heach : ∀ c ∈ f.blocks, f.Replaces n m c (if c.ref == b.ref then u c else c) := by
    intro c hc
    split
    · obtain rfl := eq_of_id_eq h.formed.distinct hc hb (congrArg BlockRef.number (beq_iff_eq.mp ‹_›))
      exact hu
    · exact h.replaces_self hus.le hc
  refine h.mapBlocks hword hus.le heach ?_ fun c hc q hq e he => ?_
  · have hnodup := h.toNamed.nodup_append h.formed.defined_once hword hus
    rw [List.append_assoc] at hnodup
    exact ((perm_writesOf_modify h.formed.distinct hb hperm).append_left _).nodup_iff.mpr hnodup
  · split at hq
    · obtain rfl := eq_of_id_eq h.formed.distinct hc hb (congrArg BlockRef.number (beq_iff_eq.mp ‹_›))
      refine (hincoming q hq e he).imp_right fun hnew t ht => ?_
      obtain ⟨d, hd, hl, htd⟩ := hnew t ht
      obtain ⟨_, -, -, hperm⟩ := (heach d hd).perm_writes
      exact ⟨d, hd, hl, hperm.symm.subset (List.mem_append_left _ htd)⟩
    · exact .inl ⟨q, hq, he⟩

/-- A block is given one more instruction, which reads what has its value at the end of the block. -/
theorem append (h : f.Workable n) (hb : b ∈ f.blocks) (hword : ((n + 1 : TempCounter) : Int) ≤ u32Max) {ty : Ty}
    (hw : x.write = some ⟨toString (n + 1), false, ty⟩) (htyped : x.wellTyped = true)
    (hreserved : ∀ t ∈ x.readTemps, t.Reserved n) (hreads : f.jumpFlow.Reaches b.id → ∀ t ∈ x.readTemps,
      t.isGlobal = false → f.DefinedAlong f.jumpFlow t b b.instrs.length) :
    (f.modify b.ref fun c => { c with instrs := c.instrs ++ [x] }).Workable (n + 1) := by
  have hself : f.Replaces n (n + 1) b b := h.replaces_self (Nat.le_succ n) hb
  refine h.modify hword hb { hself with
    writes := ⟨_, .singleton n false ty, List.forall_mem_singleton.mpr rfl, ?_⟩
    reserved := List.forall_mem_append.mpr ⟨hself.reserved, List.forall_mem_singleton.mpr fun t ht => ?_⟩
    typed := fun hr => List.forall_mem_append.mpr ⟨hself.typed hr, List.forall_mem_singleton.mpr htyped⟩
    closed := fun hr => ?_ } fun q hq _ he => .inl ⟨q, hq, he⟩
  · rw [List.filterMap_append, List.filterMap_cons, hw]
    exact List.perm_append_comm
  · exact (hreserved t ht).mono (Nat.le_succ n)
  · refine Instr.closed_append.mpr ⟨hself.closed hr, Instr.closed_singleton.mpr fun t ht hlocal => ?_⟩
    have hdefined := definedAlong_iff.mp (hreads hr t ht hlocal)
    rwa [List.take_length] at hdefined

/-- The phis of a block take in other values, which the blocks that they come from define. -/
theorem rephi (h : f.Workable n) (hb : b ∈ f.blocks) (hword : (n : Int) ≤ u32Max) {ps : Block → List Phi}
    (htargets : (ps b).map (·.target) = b.phis.map (·.target)) (htypes : ∀ q ∈ ps b, q.ty = q.target.ty)
    (hlabels : ∀ q ∈ ps b, ∃ p ∈ b.phis, q.incoming.map (·.2) = p.incoming.map (·.2))
    (hentries : ∀ q ∈ ps b, ∀ e ∈ q.incoming, (∃ p ∈ b.phis, e ∈ p.incoming) ∨
      ∀ t, e.1 = .temp t → ∃ c ∈ f.blocks, c.label = e.2 ∧ t ∈ c.writes) :
    (f.modify b.ref fun c => { c with phis := ps c }).Workable n :=
  h.modify hword hb { h.replaces_self (Nat.le_refl n) hb with
    targets := htargets
    labels := hlabels
    types := htypes } hentries

end Workable

end Func

end LoopLanes
