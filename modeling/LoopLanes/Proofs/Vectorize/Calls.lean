/-
Output of calls that are made once per lane.

A builtin function writes one line (`Builtin.output_of_call`).  A call made once per lane writes
one line for each lane that takes part, lane after lane (`Instr.output_of_vec_call`), whenever its
block is visited.  The header of a loop is visited once more than its body, to find that the loop
is over; in a vectorized loop that visit writes a line per lane as well, and the header of the
remaining loop is visited after it.  So calls in a header are repeated (`output_of_announcing`).
-/
import LoopLanes.Proofs.Lanes.Scalar
import LoopLanes.Proofs.Text.Spelling
import LoopLanes.Proofs.Vectorize.Resets

namespace LoopLanes

/-- A machine that has written some more lines, and is as it was otherwise. -/
def Machine.printed (m : Machine) (lines : List String) : Machine :=
  { m with output := m.output ++ lines.toArray }

theorem Machine.printed_nil (m : Machine) : m.printed [] = m := by
  simp [printed]

theorem Machine.printed_printed (m : Machine) (ls ls' : List String) :
    (m.printed ls).printed ls' = m.printed (ls ++ ls') := by
  simp [printed]

/-- Computations on a list that write one line for each element of a kind, and nothing for others. -/
theorem gives_mapM_printed {α β : Type} {g : α → Exec β} {p : α → Bool}
    (hg : ∀ a m b m', Gives (g a) m b m' → ∃ ls, m' = m.printed ls ∧ ls.length = (p a).toNat) :
    ∀ {as : List α} {bs : List β} {m m' : Machine}, Gives (as.mapM g) m bs m' →
      ∃ ls, m' = m.printed ls ∧ ls.length = (as.filter p).length := by
  intro as
  induction as with
  | nil =>
    intro bs m m' h
    obtain ⟨-, rfl⟩ := gives_pure.mp h
    exact ⟨[], m.printed_nil.symm, rfl⟩
  | cons a as ih =>
    intro bs m m' h
    rw [List.mapM_cons] at h
    obtain ⟨b, m₁, hb, h⟩ := gives_bind.mp h
    obtain ⟨bs', m₂, hbs, h⟩ := gives_bind.mp h
    obtain ⟨-, rfl⟩ := gives_pure.mp h
    obtain ⟨ls, rfl, hls⟩ := hg a m b m₁ hb
    obtain ⟨ls', rfl, hls'⟩ := ih hbs
    refine ⟨ls ++ ls', m.printed_printed ls ls', ?_⟩
    cases hp : p a <;> simp [hls, hls', hp]
    omega

namespace Builtin

variable {name : String} {args : List Cell} {m m' : Machine} {r : Option Cell}

theorem gives_arg {i : Nat} {c : Cell} (h : Gives (arg name args i) m c m') : m = m' := by
  unfold arg at h
  split at h
  · exact (gives_pure.mp h).2
  · exact absurd h not_gives_throw

theorem output_of_print {line : String}
    (h : Gives (do Exec.print line; return none : Exec (Option Cell)) m r m') :
    m' = m.printed [line] := by
  obtain ⟨_, _, hprint, h⟩ := gives_bind.mp h
  obtain ⟨-, rfl⟩ := gives_pure.mp h
  rw [← (Prod.mk.inj (gives_modifyGet.mp hprint)).2]
  simp [Machine.printed]

/-- A builtin function that succeeds writes one line and does nothing else. -/
theorem output_of_call (h : Gives (call name args) m r m') : ∃ line, m' = m.printed [line] := by
  unfold call at h
  split at h
  case h_5 =>
    obtain ⟨_, _, h, -⟩ := gives_bind.mp h
    exact absurd h not_gives_throw
  case h_4 =>
    obtain ⟨_, _, ha, h⟩ := gives_bind.mp h
    obtain ⟨_, _, hn, h⟩ := gives_bind.mp h
    obtain ⟨_, _, hp, h⟩ := gives_bind.mp h
    obtain ⟨_, _, hget, h⟩ := gives_bind.mp h
    obtain ⟨_, _, hv, h⟩ := gives_bind.mp h
    obtain rfl := gives_arg ha
    obtain ⟨-, rfl⟩ := gives_mk_pure.mp hn
    obtain rfl := gives_arg hp
    obtain ⟨-, rfl⟩ := Prod.mk.inj hget
    obtain ⟨-, rfl⟩ := gives_mk_pure.mp hv
    exact ⟨_, output_of_print h⟩
  all_goals
    obtain ⟨_, _, ha, h⟩ := gives_bind.mp h
    obtain ⟨_, _, hn, h⟩ := gives_bind.mp h
    obtain rfl := gives_arg ha
    obtain ⟨-, rfl⟩ := gives_mk_pure.mp hn
    exact ⟨_, output_of_print h⟩

end Builtin

namespace Instr

variable {fr fr' : Frame} {m m' : Machine} {t : Temp} {ty : Ty} {name : String}
  {args : List (Ty × Value)} {width : Nat} {mask : Option Value}

/-- The lanes that take part in an instruction under a mask. -/
def activeLanes (fr : Frame) (width : Nat) : Option Value → List Nat
  | none => List.range width
  | some v =>
    match fr.read v with
    | .ok lanes => (List.range width).filter (maskActive lanes)
    | .error _ => []

theorem output_of_execLanes {active : Nat → Bool} {ls : Lanes}
    (h : Gives (execLanes Builtin.call fr (.call t ty name args) width active) m ls m') :
    ∃ lines, m' = m.printed lines ∧ lines.length = ((List.range width).filter active).length := by
  refine gives_mapM_printed (fun k m c m' h => ?_) h
  cases hactive : active k with
  | false =>
    rw [hactive] at h
    obtain ⟨-, rfl⟩ := gives_pure.mp h
    exact ⟨[], m.printed_nil.symm, rfl⟩
  | true =>
    rw [hactive, if_pos rfl] at h
    obtain ⟨_, _, hlane, h⟩ := gives_bind.mp h
    obtain ⟨-, rfl⟩ := gives_pure.mp h
    obtain ⟨_, _, hargs, hcall⟩ := gives_bind.mp hlane
    -- reading the arguments does not touch the machine
    obtain ⟨-, rfl⟩ := (gives_mapM_iff (P := fun a c => fr.lane a.2 k = .ok c)
      fun _ _ _ _ => gives_operand).mp hargs
    obtain ⟨line, rfl⟩ := Builtin.output_of_call hcall
    exact ⟨[line], rfl, rfl⟩

/-- A call that is made once per lane writes one line for each lane that takes part, on every visit
of the block that it stands in. -/
theorem output_of_vec_call
    (h : Gives (exec Builtin.call fr (.vec width mask (.call t ty name args))) m fr' m') :
    ∃ lines, m' = m.printed lines ∧ lines.length = (activeLanes fr width mask).length := by
  obtain ⟨ls, m₁, hlanes, h⟩ := gives_bind.mp h
  obtain rfl : m₁ = m' := by
    split at h
    · exact (gives_pure.mp h).2
    · exact (gives_pure.mp h).2
  cases mask with
  | none =>
    obtain ⟨lines, rfl, hlines⟩ := output_of_execLanes hlanes
    refine ⟨lines, rfl, hlines.trans ?_⟩
    rw [activeLanes, List.filter_true]
  | some v =>
    obtain ⟨lanes, _, hread, hlanes⟩ := gives_bind.mp hlanes
    obtain ⟨hmask, rfl⟩ := gives_mk_pure.mp hread
    obtain ⟨lines, rfl, hlines⟩ := output_of_execLanes hlanes
    refine ⟨lines, rfl, hlines.trans ?_⟩
    rw [activeLanes, hmask]

end Instr

/-- A loop that announces each of its rounds in its header. -/
def announcing : String :=
  "define void @f(i32 %n) \x7b\n" ++
  "entry:\n  br label %B1\n" ++
  "B1:\n  %i = phi i32 [0, %entry], [%j, %B2]\n  call void @putint(i32 7)\n" ++
  "  %c = icmp slt i32 %i, %n\n  br i32 %c, label %B2, label %B3\n" ++
  "B2:\n  %j = add i32 %i, 1\n" ++
  "  br label %B1, !loop \x7bllvm.loop.vectorize.enable = 1, llvm.loop.parallel_accesses\x7d\n" ++
  "B3:\n  ret void\n\x7d\n"

/-- The lines that a program writes when its function is called and returns. -/
def Program.lines? (p : Program) (name : String) (args : List Cell) : Option (List String) :=
  let (result, m) := (p.run name args).run.run Machine.start
  result.toOption.map fun _ => m.output.toList

/-- A function that is verified and stores nothing. -/
def Func.isStoreless (f : Func) : Bool :=
  f.verify.toBool && f.blocks.all (fun b => b.instrs.all (!·.isStore))

set_option maxRecDepth 100000 in
/-- With two lanes, the visit with which the main loop ends writes two lines more. -/
theorem output_of_announcing : ∃ p q, Program.parse announcing = .ok p ∧
    p.funcs.all Func.isStoreless = true ∧ p.forLanes? 2 = some q ∧
    ∃ before after, p.lines? "f" [.int 3] = some before ∧ q.lines? "f" [.int 3] = some after ∧
      ¬ after.Perm before := by
  obtain ⟨p, hp, h⟩ := Program.exists_of_chars (s := announcing) (P := fun p =>
    p.funcs.all Func.isStoreless && p.lines? "f" [.int 3] == some (List.replicate 4 "7") &&
      (p.forLanes? 2).any fun q => q.lines? "f" [.int 3] == some (List.replicate 6 "7"))
    (by
      unfold announcing
      repeat apply toList_append_of String.toList_ofList
      exact String.toList_ofList) (by decide +kernel)
  simp only [Bool.and_eq_true, Option.any_eq_true, beq_iff_eq] at h
  obtain ⟨⟨hstoreless, hbefore⟩, q, hq, hafter⟩ := h
  refine ⟨p, q, hp, hstoreless, hq, _, _, hbefore, hafter, fun hperm => ?_⟩
  exact absurd hperm.length_eq (by decide)

end LoopLanes
