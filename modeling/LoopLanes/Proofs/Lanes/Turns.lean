/-
Turns of a loop.

A turn goes from the header of a loop around to the header again: from the frame in which the phis
of the header are set to the one in which they are set the next time.  Other than in a round
(`Func.Round`), instructions may write memory and output, and the jump back is part of it.

What an instruction computes, and where a block goes, depends on what they read alone
(`Instr.lanes_congr`, `Block.leave_congr`).
-/
import LoopLanes.Proofs.Lanes.Rounds

namespace LoopLanes

theorem mapM_congr {α β : Type} {M : Type → Type} [Monad M] [LawfulMonad M] {g g' : α → M β} :
    ∀ {as : List α}, (∀ a ∈ as, g a = g' a) → as.mapM g = as.mapM g' := by
  intro as
  induction as with
  | nil => exact fun _ => rfl
  | cons a as ih =>
    intro h
    obtain ⟨ha, has⟩ := List.forall_mem_cons.mp h
    rw [List.mapM_cons, List.mapM_cons, ha, ih has]

/-! ### What is read decides -/

section Congruence

variable {fr fr' : Frame} {v : Value} {x : Instr} {call : Caller}

/-- Two frames hold the same for some operands. -/
def Frame.AgreeOn (fr fr' : Frame) (vs : List Value) : Prop :=
  ∀ v ∈ vs, ∀ t ∈ v.temp?, fr'.lookup t = fr.lookup t

namespace Frame

theorem AgreeOn.mono {vs ws : List Value} (h : fr.AgreeOn fr' vs) (hsub : ws ⊆ vs) :
    fr.AgreeOn fr' ws := fun v hv => h v (hsub hv)

theorem read_congr (h : ∀ t ∈ v.temp?, fr'.lookup t = fr.lookup t) : fr'.read v = fr.read v := by
  cases v with
  | temp t => simp only [read, h t rfl]
  | _ => rfl

theorem lane_congr (h : ∀ t ∈ v.temp?, fr'.lookup t = fr.lookup t) (k : Nat) :
    fr'.lane v k = fr.lane v k := by
  cases v with
  | temp t => simp only [lane, h t rfl]
  | _ => rfl

theorem readUniform_congr (h : ∀ t ∈ v.temp?, fr'.lookup t = fr.lookup t) :
    fr'.readUniform v = fr.readUniform v := by
  rw [readUniform, readUniform, read_congr h]

end Frame

namespace Instr

theorem mem_readTemps {t : Temp} : t ∈ x.readTemps ↔ ∃ v ∈ x.reads, v.temp? = some t :=
  List.mem_filterMap

theorem widest_congr (h : fr.AgreeOn fr' x.reads) : widest fr' x = widest fr x := by
  have hwidth : x.readTemps.map fr'.width = x.readTemps.map fr.width := by
    refine List.map_congr_left fun t ht => ?_
    obtain ⟨v, hv, he⟩ := mem_readTemps.mp ht
    rw [Frame.width, Frame.width, h v hv t he]
  rw [widest, widest, hwidth]

theorem operand_congr (h : fr.AgreeOn fr' x.reads) (hv : v ∈ x.reads) (k : Nat) :
    operand fr' k v = operand fr k v := by
  rw [operand, operand, Frame.lane_congr (h v hv)]

theorem execLane_congr (h : fr.AgreeOn fr' x.reads) (k : Nat) :
    execLane call fr' k x = execLane call fr k x := by
  have hop : ∀ v ∈ x.reads, operand fr' k v = operand fr k v := fun v hv => operand_congr h hv k
  cases x with
  | call t ty callee args =>
    have hargs : args.mapM (fun a => operand fr' k a.2) = args.mapM fun a => operand fr k a.2 :=
      mapM_congr fun a ha => hop a.2 (List.mem_map_of_mem ha)
    simp only [execLane, hargs]
  | _ => simp_all [execLane, reads]

theorem execLanes_congr (h : fr.AgreeOn fr' x.reads) (width : Nat) (active : Nat → Bool) :
    execLanes call fr' x width active = execLanes call fr x width active := by
  unfold execLanes
  simp only [execLane_congr h]

/-- The lanes of an instruction depend on what it reads. -/
theorem lanes_congr (h : fr.AgreeOn fr' x.reads) : lanes call fr' x = lanes call fr x := by
  have hread : ∀ v ∈ x.reads, fr'.read v = fr.read v := fun v hv => Frame.read_congr (h v hv)
  have huniform : ∀ v ∈ x.reads, fr'.readUniform v = fr.readUniform v :=
    fun v hv => Frame.readUniform_congr (h v hv)
  have hplain : execLanes call fr' x (widest fr x) (fun _ => true) =
      execLanes call fr x (widest fr x) fun _ => true := execLanes_congr h _ _
  have hwidest := widest_congr h
  cases x with
  | vec width mask inner =>
    have hinner : fr.AgreeOn fr' inner.reads := h.mono (List.subset_append_left _ _)
    cases mask with
    | none => simp only [lanes, execLanes_congr hinner]
    | some m => simp only [lanes, hread m (by simp [reads]), execLanes_congr hinner]
  | ladder t ty base stride width => simp only [lanes, huniform base (by simp [reads])]
  | buildVec t ty values => exact congrArg Exec.lift (mapM_congr huniform)
  | reduce t op ty vector width =>
    have hlane : ∀ k, fr'.lane vector k = fr.lane vector k := Frame.lane_congr (h vector (by simp [reads]))
    simp only [lanes, foldLanes, hlane]
  | _ => simp only [lanes, hwidest, hplain]

/-- A plain instruction computes as many lanes as the widest of its operands has. -/
theorem gives_exec_lanes_iff (h : x.isPlain = true) {t : Temp} (hw : x.write = some t)
    {m m' : Machine} {out : Frame} : Gives (exec call fr x) m out m' ↔
      ∃ ls, List.Forall₂ (fun k c => x.resultOf (fr.lane · k) = .ok c) (List.range (widest fr x)) ls ∧
        out = setEntry t ls fr ∧ m = m' := by
  unfold exec
  rw [lanes_of_isPlain h]
  simp only [gives_bind, gives_execLanes_iff h, hw, gives_pure]
  constructor
  · rintro ⟨ls, _, ⟨hls, rfl⟩, rfl, rfl⟩
    exact ⟨ls, hls, rfl, rfl⟩
  · rintro ⟨ls, hls, rfl, rfl⟩
    exact ⟨ls, m, ⟨hls, rfl⟩, rfl, rfl⟩

/-- What an instruction sets is the same in every frame in which it reads the same. -/
theorem exists_set_of_gives_exec {m m' : Machine} {out : Frame}
    (h : Gives (exec call fr x) m out m') :
    ∃ set : Frame → Frame, (set = id ∨ ∃ t ls, x.write = some t ∧ set = setEntry t ls) ∧
      out = set fr ∧ ∀ fr', fr.AgreeOn fr' x.reads → Gives (exec call fr' x) m (set fr') m' := by
  obtain ⟨ls, r, hls, h⟩ := gives_bind.mp h
  have hagain : ∀ fr', fr.AgreeOn fr' x.reads → Gives (lanes call fr' x) m ls r := fun fr' hagree =>
    lanes_congr hagree ▸ hls
  cases hw : x.write with
  | none =>
    rw [hw] at h
    obtain ⟨rfl, rfl⟩ := gives_pure.mp h
    refine ⟨id, .inl rfl, rfl, fun fr' hagree => gives_bind.mpr ⟨ls, r, hagain fr' hagree, ?_⟩⟩
    rw [hw]
    exact gives_pure.mpr ⟨rfl, rfl⟩
  | some t =>
    rw [hw] at h
    obtain ⟨rfl, rfl⟩ := gives_pure.mp h
    refine ⟨setEntry t ls, .inr ⟨t, ls, rfl, rfl⟩, rfl,
      fun fr' hagree => gives_bind.mpr ⟨ls, r, hagain fr' hagree, ?_⟩⟩
    rw [hw]
    exact gives_pure.mpr ⟨rfl, rfl⟩

end Instr

end Congruence

/-! ### Turns -/

/-- A turn from a block of a loop on: the blocks on the way, and what is left when the header is
entered again. -/
inductive Func.Turn (f : Func) (call : Caller) (t : LoopForest) (l : Loop) :
    Block → Frame → Machine → List BlockRef → Frame → Machine → Prop
  /-- The last block jumps back to the header. -/
  | back {b header : Block} {fr mid out : Frame} {m m' : Machine}
    (runs : Gives (b.instrs.foldlM (Instr.exec call) fr) m mid m')
    (leaves : b.leave mid = .ok (.jump l.header.label)) (next : f.linked? l.header = some header)
    (enters : header.enter mid (some b.label) = .ok out) : Turn f call t l b fr m [b.ref] out m'
  /-- Any other block jumps to another block of the loop. -/
  | on {b c : Block} {fr mid fr' out : Frame} {m m₁ m' : Machine} {k : Label}
    {path : List BlockRef}
    (runs : Gives (b.instrs.foldlM (Instr.exec call) fr) m mid m₁)
    (leaves : b.leave mid = .ok (.jump k)) (next : f.labelled? k = some c)
    (inside : t.contains l c.id = true) (other : c.id ≠ l.header.number)
    (enters : c.enter mid (some b.label) = .ok fr') (rest : Turn f call t l c fr' m₁ path out m') :
    Turn f call t l b fr m (b.ref :: path) out m'

end LoopLanes
