/-
How computations on the machine may end.

`EndsIn E x Q` is partial correctness with failures: whatever the machine, a result of `x` satisfies
`Q`, and a failure satisfies `E`.  `Ends x Q` allows the failures that the values met at run time are to
blame for.  An instruction that finds a single value in every temporary it reads cannot fail otherwise
(`ends_exec`).

* `RunError.AtRunTime` — failures that no check of the code could have told;
* `Frame.Holds` — which temporaries have a value, the same one for all lanes.
-/
import LoopLanes.Proofs.Lanes.Scalar
import LoopLanes.Proofs.Text.Parsed

namespace LoopLanes

/-- The failures that depend on what is computed: undefined temporaries, blocks that are not there
and instructions that cannot be run are none of them, calls with too few arguments are. -/
def RunError.AtRunTime : RunError → Prop
  | undefinedTemp _ | unknownBlock _ => False
  | unsupported what => ∃ name ∈ Builtin.names, what = s!"{name} without argument"
  | _ => True

/-- Whatever the machine, a result satisfies `Q`, and a failure satisfies `E`. -/
def EndsIn {α : Type} (E : RunError → Prop) (x : Exec α) (Q : α → Prop) : Prop :=
  ∀ m, (∀ a, (x.run.run m).1 = .ok a → Q a) ∧ ∀ e, (x.run.run m).1 = .error e → E e

section Rules

variable {α β : Type} {x : Exec α} {E : RunError → Prop} {P Q : α → Prop} {R : β → Prop} {a : α} {e : RunError}

theorem EndsIn.mono (h : EndsIn E x P) (hsub : ∀ a, P a → Q a) : EndsIn E x Q :=
  fun m => ⟨fun a ha => hsub a ((h m).1 a ha), (h m).2⟩

theorem endsIn_pure (h : Q a) : EndsIn E (pure a) Q := by
  intro m
  constructor
  · rintro _ ⟨⟩
    exact h
  · rintro _ ⟨⟩

theorem endsIn_throw (h : E e) : EndsIn E (throw e) Q := by
  intro m
  constructor
  · rintro _ ⟨⟩
  · rintro _ ⟨⟩
    exact h

theorem endsIn_bind {g : α → Exec β} (hx : EndsIn E x P) (hg : ∀ a, P a → EndsIn E (g a) R) :
    EndsIn E (x >>= g) R := by
  intro m
  change (∀ b, ((ExceptT.bindCont g (x.run.run m).1).run (x.run.run m).2).1 = _ → _) ∧
    ∀ e, ((ExceptT.bindCont g (x.run.run m).1).run (x.run.run m).2).1 = _ → _
  obtain ⟨hok, herror⟩ := hx m
  rcases hr : (x.run.run m).1 with e | a
  · constructor
    · rintro _ ⟨⟩
    · rintro _ ⟨⟩
      exact herror e hr
  · exact hg a (hok a hr) _

/-- A result that does not touch the machine. -/
theorem endsIn_lift {r : Except RunError α} (hok : ∀ a, r = .ok a → Q a)
    (herror : ∀ e, r = .error e → E e) : EndsIn E (Exec.lift r) Q :=
  fun _ => ⟨hok, herror⟩

theorem endsIn_modify (g : Machine → Machine) : EndsIn E (modify g : Exec Unit) fun _ => True :=
  fun _ => ⟨fun _ _ => trivial, nofun⟩

theorem endsIn_get : EndsIn E (get : Exec Machine) fun _ => True :=
  fun _ => ⟨fun _ _ => trivial, nofun⟩

theorem endsIn_set (m : Machine) : EndsIn E (set m : Exec Unit) fun _ => True :=
  fun _ => ⟨fun _ _ => trivial, nofun⟩

theorem endsIn_tick (h : E (.stepLimit maxSteps)) : EndsIn E Exec.tick fun _ => True := by
  refine endsIn_bind (endsIn_modify _) fun _ _ => endsIn_bind endsIn_get fun m _ => ?_
  split
  · exact endsIn_throw h
  · exact endsIn_pure trivial

/-- Computations on all elements of a list. -/
theorem endsIn_mapM {g : β → Exec α} : ∀ {bs : List β}, (∀ b ∈ bs, EndsIn E (g b) Q) →
    EndsIn E (bs.mapM g) fun as => as.length = bs.length ∧ ∀ a ∈ as, Q a := by
  intro bs
  induction bs with
  | nil => exact fun _ => endsIn_pure ⟨rfl, fun _ => nofun⟩
  | cons b bs ih =>
    intro h
    obtain ⟨hb, hbs⟩ := List.forall_mem_cons.mp h
    rw [List.mapM_cons]
    refine endsIn_bind hb fun a ha => endsIn_bind (ih hbs) fun as has => endsIn_pure ⟨?_, ?_⟩
    · rw [List.length_cons, List.length_cons, has.1]
    · exact List.forall_mem_cons.mpr ⟨ha, has.2⟩

/-- What every step of a pass over a list keeps. -/
theorem endsIn_foldlM {g : α → β → Exec α} : ∀ {bs : List β} {a : α},
    (∀ b ∈ bs, ∀ a, Q a → EndsIn E (g a b) Q) → Q a → EndsIn E (bs.foldlM g a) Q := by
  intro bs
  induction bs with
  | nil => exact fun _ ha => endsIn_pure ha
  | cons b bs ih =>
    intro a h ha
    obtain ⟨hb, hbs⟩ := List.forall_mem_cons.mp h
    rw [List.foldlM_cons]
    exact endsIn_bind (hb a ha) fun _ => ih hbs

end Rules

/-! ### Failures at run time -/

/-- Whatever the machine, a result satisfies `Q`, and a failure is one at run time. -/
def Ends {α : Type} (x : Exec α) (Q : α → Prop) : Prop :=
  ∀ m, (∀ a, (x.run.run m).1 = .ok a → Q a) ∧ ∀ e, (x.run.run m).1 = .error e → e.AtRunTime

section RunTime

variable {α β : Type} {x : Exec α} {P Q : α → Prop} {R : β → Prop} {a : α} {e : RunError}

theorem Ends.mono (h : Ends x P) (hsub : ∀ a, P a → Q a) : Ends x Q := EndsIn.mono h hsub

theorem ends_pure (h : Q a) : Ends (pure a) Q := endsIn_pure h

theorem ends_throw (h : e.AtRunTime) : Ends (throw e) Q := endsIn_throw h

theorem ends_bind {g : α → Exec β} (hx : Ends x P) (hg : ∀ a, P a → Ends (g a) R) : Ends (x >>= g) R :=
  endsIn_bind hx hg

theorem ends_lift {r : Except RunError α} (hok : ∀ a, r = .ok a → Q a)
    (herror : ∀ e, r = .error e → e.AtRunTime) : Ends (Exec.lift r) Q :=
  endsIn_lift hok herror

theorem ends_modify (g : Machine → Machine) : Ends (modify g : Exec Unit) fun _ => True := endsIn_modify g

theorem ends_get : Ends (get : Exec Machine) fun _ => True := endsIn_get

theorem ends_set (m : Machine) : Ends (set m : Exec Unit) fun _ => True := endsIn_set m

theorem ends_tick : Ends Exec.tick fun _ => True := endsIn_tick trivial

theorem ends_mapM {g : β → Exec α} {bs : List β} (h : ∀ b ∈ bs, Ends (g b) Q) :
    Ends (bs.mapM g) fun as => as.length = bs.length ∧ ∀ a ∈ as, Q a :=
  endsIn_mapM h

end RunTime

/-! ### Computations on values -/

/-- A computation on values that fails at run time only. -/
def FailsAtRunTime {α : Type} (r : Except RunError α) : Prop := ∀ e, r = .error e → e.AtRunTime

section Fails

variable {α β : Type} {r : Except RunError α} {e : RunError}

theorem fails_ok (a : α) : FailsAtRunTime (.ok a : Except RunError α) := fun _ => nofun

theorem fails_error (h : e.AtRunTime) : FailsAtRunTime (.error e : Except RunError α) := by
  rintro _ ⟨⟩
  exact h

theorem fails_bind {g : α → Except RunError β} (hr : FailsAtRunTime r)
    (hg : ∀ a, FailsAtRunTime (g a)) : FailsAtRunTime (r >>= g) := by
  cases r with
  | error e => exact fails_error (hr e rfl)
  | ok a => exact hg a

theorem fails_map {g : α → β} (hr : FailsAtRunTime r) : FailsAtRunTime (r.map g) := by
  cases r with
  | error e => exact fails_error (hr e rfl)
  | ok a => exact fails_ok _

theorem FailsAtRunTime.ends_lift (h : FailsAtRunTime r) : Ends (Exec.lift r) fun _ => True :=
  LoopLanes.ends_lift (fun _ _ => trivial) h

end Fails

/-! ### Values -/

/-- Lanes have no value in common if they disagree. -/
theorem Lanes.eq_of_uniform {ls : Lanes} {e : RunError} (h : ls.uniform = .error e) : e = .divergentValue := by
  unfold Lanes.uniform at h
  split at h
  · exact (Except.error.inj h).symm
  · split at h
    · cases h
    · exact (Except.error.inj h).symm

theorem Lanes.fails_uniform (ls : Lanes) : FailsAtRunTime ls.uniform :=
  fun _ he => Lanes.eq_of_uniform he ▸ trivial

/-- Some temporaries have a single value. -/
def Frame.Holds (fr : Frame) (P : Temp → Prop) : Prop := ∀ t, P t → ∃ c, fr.lookup t = some [c]

namespace Frame.Holds

variable {fr : Frame} {P Q : Temp → Prop} {v : Value} {t : Temp} {c : Cell}

theorem mono (h : fr.Holds P) (hsub : ∀ t, Q t → P t) : fr.Holds Q :=
  fun t ht => h t (hsub t ht)

theorem setEntry (h : fr.Holds P) (t : Temp) (c : Cell) :
    Frame.Holds (LoopLanes.setEntry t [c] fr) fun u => P u ∨ u = t := by
  intro u hu
  by_cases e : u = t
  · exact ⟨c, e ▸ lookup_setEntry_self t [c] fr⟩
  · obtain ⟨d, hd⟩ := h u (hu.resolve_right e)
    exact ⟨d, (lookup_setEntry_of_ne [c] fr e).trans hd⟩

/-- An operand that reads no other temporaries has a single value. -/
theorem read (h : fr.Holds P) (hv : ∀ t ∈ v.temp?, P t) : ∃ c, fr.read v = .ok [c] := by
  cases v with
  | int n => exact ⟨.int n, rfl⟩
  | float x => exact ⟨.float x, rfl⟩
  | temp t =>
    obtain ⟨c, hc⟩ := h t (hv t rfl)
    exact ⟨c, by simp [Frame.read, hc]⟩

/-- To read it for all lanes fails at most at run time: not every value agrees with itself. -/
theorem fails_readUniform (h : fr.Holds P) (hv : ∀ t ∈ v.temp?, P t) :
    FailsAtRunTime (fr.readUniform v) := by
  obtain ⟨c, hc⟩ := h.read hv
  rw [Frame.readUniform, hc]
  exact Lanes.fails_uniform [c]

theorem ends_operand (h : fr.Holds P) (hv : ∀ t ∈ v.temp?, P t) (k : Nat) :
    Ends (Instr.operand fr k v) fun _ => True := by
  cases v with
  | temp t =>
    obtain ⟨c, hc⟩ := h t (hv t rfl)
    refine ends_lift (fun _ _ => trivial) fun e he => ?_
    rw [Frame.lane_of_lookup hc] at he
    cases he
  | int n => exact (h.fails_readUniform hv).ends_lift
  | float x => exact (h.fails_readUniform hv).ends_lift

theorem width (h : fr.Holds P) (ht : P t) : fr.width t = 1 := by
  obtain ⟨c, hc⟩ := h t ht
  exact Frame.width_of_lookup hc

end Frame.Holds

/-! ### Operators -/

section Operators

variable {a b v : Cell}

theorem fails_toInt32 (v : Cell) : FailsAtRunTime v.toInt32 := by
  cases v <;> first | exact fails_ok _ | exact fails_error trivial

theorem fails_toFloat32 (v : Cell) : FailsAtRunTime v.toFloat32 := by
  cases v <;> first | exact fails_ok _ | exact fails_error trivial

theorem fails_toPlace (v : Cell) : FailsAtRunTime v.toPlace := by
  cases v <;> first | exact fails_ok _ | exact fails_error trivial

theorem fails_onInts (g : Int32 → Int32 → Int32) : FailsAtRunTime (Cell.onInts g a b) :=
  fails_bind (fails_toInt32 a) fun _ => fails_bind (fails_toInt32 b) fun _ => fails_ok _

theorem fails_onFloats (g : Float32 → Float32 → Float32) : FailsAtRunTime (Cell.onFloats g a b) :=
  fails_bind (fails_toFloat32 a) fun _ => fails_bind (fails_toFloat32 b) fun _ => fails_ok _

theorem fails_dividing (g : Int32 → Int32 → Int32) :
    FailsAtRunTime (if b = .int 0 then .error .divisionByZero else Cell.onInts g a b) := by
  split
  · exact fails_error trivial
  · exact fails_onInts g

theorem fails_arith (op : ArithOp) : FailsAtRunTime (Cell.arith op a b) := by
  cases op <;> first | exact fails_onInts _ | exact fails_onFloats _ | exact fails_dividing _

theorem fails_compare (op : CompOp) : FailsAtRunTime (Cell.compare op a b) := by
  refine fails_map ?_
  cases op
  case eq | ne | sgt | sge | slt | sle =>
    exact fails_bind (fails_toInt32 a) fun _ => fails_bind (fails_toInt32 b) fun _ => fails_ok _
  case oeq | one | ogt | oge | olt | ole =>
    exact fails_bind (fails_toFloat32 a) fun _ => fails_bind (fails_toFloat32 b) fun _ => fails_ok _

theorem fails_offset (v : Cell) (d : Int) : FailsAtRunTime (v.offset d) := by
  cases v with
  | int n => exact fails_ok _
  | float x => exact fails_error trivial
  | ptr p =>
    unfold Cell.offset
    dsimp only
    split
    · exact fails_error trivial
    · exact fails_ok _

theorem fails_load (m : Machine) (v : Cell) : FailsAtRunTime (m.load v) := by
  refine fails_bind (fails_toPlace v) fun place => ?_
  split
  · exact fails_ok _
  · exact fails_error trivial

theorem fails_store (m : Machine) (v w : Cell) : FailsAtRunTime (m.store v w) := by
  refine fails_bind (fails_toPlace v) fun place => ?_
  split
  · exact fails_ok _
  · exact fails_error trivial

theorem fails_readArray (m : Machine) (v : Cell) (len : Nat) :
    FailsAtRunTime (m.readArray v len) := by
  refine fails_bind (fails_toPlace v) fun place => ?_
  split
  · exact fails_ok _
  · exact fails_error trivial

end Operators

/-! ### Instructions -/

namespace Builtin

theorem ends_arg {name : String} (h : name ∈ names) (args : List Cell) (i : Nat) :
    Ends (arg name args i) fun _ => True := by
  unfold arg
  split
  · exact ends_pure trivial
  · exact ends_throw ⟨name, h, rfl⟩

/-- Builtin functions fail for arguments that are missing or of a wrong kind. -/
theorem ends_call (name : String) (args : List Cell) : Ends (call name args) fun _ => True := by
  have print : ∀ line, Ends (Exec.print line) fun _ => True := fun _ => ends_modify _
  unfold call
  split
  · refine ends_bind (ends_arg (by decide) args 0) fun v _ => ?_
    refine ends_bind (fails_toInt32 v).ends_lift fun n _ => ?_
    exact ends_bind (print _) fun _ _ => ends_pure trivial
  · refine ends_bind (ends_arg (by decide) args 0) fun v _ => ?_
    refine ends_bind (fails_toInt32 v).ends_lift fun n _ => ?_
    exact ends_bind (print _) fun _ _ => ends_pure trivial
  · refine ends_bind (ends_arg (by decide) args 0) fun v _ => ?_
    refine ends_bind (fails_toFloat32 v).ends_lift fun x _ => ?_
    exact ends_bind (print _) fun _ _ => ends_pure trivial
  · refine ends_bind (ends_arg (by decide) args 0) fun v _ => ?_
    refine ends_bind (fails_toInt32 v).ends_lift fun n _ => ?_
    refine ends_bind (ends_arg (by decide) args 1) fun pointer _ => ends_bind ends_get fun m _ => ?_
    refine ends_bind (fails_readArray m pointer _).ends_lift fun values _ => ?_
    exact ends_bind (print _) fun _ _ => ends_pure trivial
  · exact ends_bind (P := fun _ => True) (ends_throw trivial) fun _ _ => ends_pure trivial

end Builtin

/-- An instruction that calls nothing but builtin functions. -/
def Instr.callsBuiltins : Instr → Bool
  | call _ _ callee _ => Builtin.names.contains callee
  | vec _ _ inner => inner.callsBuiltins
  | _ => true

namespace Instr

variable {x : Instr} {fr : Frame} {P : Temp → Prop} {call : Caller}

/-- A lane of a scalar instruction fails at run time only. -/
theorem ends_execLane (hx : x.isScalar = true) (hcalls : x.callsBuiltins = true)
    (hcall : ∀ name ∈ Builtin.names, ∀ args, Ends (call name args) fun _ => True)
    (h : fr.Holds P) (hreads : ∀ t ∈ x.readTemps, P t) (k : Nat) :
    Ends (execLane call fr k x) fun _ => True := by
  have operand : ∀ v ∈ x.reads, Ends (operand fr k v) fun _ => True := fun v hv =>
    h.ends_operand (fun t ht => hreads t (List.mem_filterMap.mpr ⟨v, hv, ht⟩)) k
  cases x <;> try cases hx
  case arith =>
    refine ends_bind (operand _ (by simp [reads])) fun a _ => ?_
    refine ends_bind (operand _ (by simp [reads])) fun b _ => ?_
    exact ends_bind (fails_arith _).ends_lift fun _ _ => ends_pure trivial
  case comp =>
    refine ends_bind (operand _ (by simp [reads])) fun a _ => ?_
    refine ends_bind (operand _ (by simp [reads])) fun b _ => ?_
    exact ends_bind (fails_compare _).ends_lift fun _ _ => ends_pure trivial
  case select =>
    refine ends_bind (operand _ (by simp [reads])) fun c _ => ?_
    split
    · exact ends_bind (operand _ (by simp [reads])) fun _ _ => ends_pure trivial
    · exact ends_bind (operand _ (by simp [reads])) fun _ _ => ends_pure trivial
  case store =>
    refine ends_bind (operand _ (by simp [reads])) fun a _ => ?_
    refine ends_bind (operand _ (by simp [reads])) fun v _ => ends_bind ends_get fun m _ => ?_
    refine ends_bind (fails_store m a v).ends_lift fun m' _ => ?_
    exact ends_bind (ends_set m') fun _ _ => ends_pure trivial
  case load =>
    refine ends_bind (operand _ (by simp [reads])) fun a _ => ends_bind ends_get fun m _ => ?_
    exact ends_bind (fails_load m a).ends_lift fun _ _ => ends_pure trivial
  case gep =>
    refine ends_bind (operand _ (by simp [reads])) fun o _ => ?_
    refine ends_bind (fails_toInt32 o).ends_lift fun n _ => ?_
    refine ends_bind (operand _ (by simp [reads])) fun a _ => ?_
    exact ends_bind (fails_offset a _).ends_lift fun _ _ => ends_pure trivial
  case call t ty callee args =>
    refine ends_bind (ends_mapM fun a ha => operand _ ?_) fun as _ => hcall callee ?_ as
    · exact List.mem_map_of_mem ha
    · simpa [callsBuiltins] using hcalls

/-- A scalar instruction fails at run time only, and what it defines has a single value. -/
theorem ends_exec (hx : x.isScalar = true) (hcalls : x.callsBuiltins = true)
    (hcall : ∀ name ∈ Builtin.names, ∀ args, Ends (call name args) fun _ => True)
    (h : fr.Holds P) (hreads : ∀ t ∈ x.readTemps, P t) :
    Ends (exec call fr x) fun fr' => fr'.Holds fun t => P t ∨ x.write = some t := by
  have hlanes : lanes call fr x = execLanes call fr x 1 fun _ => true := by
    rw [← widest_eq_one fun t ht => h.width (hreads t ht)]
    cases x <;> first | rfl | cases hx
  have hone : Ends (lanes call fr x) fun ls => ∃ c, ls = [c] := by
    rw [hlanes]
    refine (ends_mapM (Q := fun _ => True) fun k _ => ?_).mono fun ls hls => ?_
    · exact ends_bind (ends_execLane hx hcalls hcall h hreads k) fun _ _ => ends_pure trivial
    · exact List.length_eq_one_iff.mp hls.1
  refine ends_bind hone ?_
  rintro _ ⟨c, rfl⟩
  split
  · rename_i t hwrite
    refine ends_pure ((h.setEntry t c).mono fun u hu => hu.imp_right fun e => ?_)
    rw [hwrite] at e
    exact (Option.some.inj e).symm
  · rename_i hwrite
    refine ends_pure (h.mono fun t ht => ht.resolve_right fun e => ?_)
    rw [hwrite] at e
    cases e

end Instr

end LoopLanes
