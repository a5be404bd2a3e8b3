/-
Code under other names.

Code whose temporaries and labels are renamed runs as the code itself does, as long as its frame binds
the new names as the other frame binds the old ones: it does the same to the machine, and it fails in the
same place, with a message that differs in the names alone.

* `RunAlike` — computations that do the same to every machine, and end alike;
* `RunError.Renamed` — failures that are the same but for names;
* `Block.runAlike_pass`, `runAlike_passAll` — a block, and blocks one after the other, under other names;
* `Program.runBlocks_eq_passAll` — what a run of a function does as long as it stays among some blocks.
-/
import Mathlib.Data.List.Find
import Mathlib.Data.Set.Function
import LoopLanes.Proofs.Cfg.Names
import LoopLanes.Proofs.Lanes.Endings
import LoopLanes.Proofs.Lanes.Rounds
import LoopLanes.Proofs.Lanes.Turns
import LoopLanes.Proofs.Split.Copies

namespace LoopLanes

/-! ### Computations side by side -/

/-- Results related by `R`, or failures related by `E`. -/
inductive EndAlike {α β : Type} (E : RunError → RunError → Prop) (R : α → β → Prop) :
    Except RunError α → Except RunError β → Prop
  | ok {a : α} {b : β} (h : R a b) : EndAlike E R (.ok a) (.ok b)
  | error {e e' : RunError} (h : E e e') : EndAlike E R (.error e) (.error e')

/-- Started on the same machine, two computations leave the same machine behind, and end alike. -/
def RunAlike {α β : Type} (E : RunError → RunError → Prop) (R : α → β → Prop) (x : Exec α) (y : Exec β) :
    Prop :=
  ∀ m, (y.run.run m).2 = (x.run.run m).2 ∧ EndAlike E R (x.run.run m).1 (y.run.run m).1

section Rules

variable {α β γ δ : Type} {E E' : RunError → RunError → Prop} {R R' : α → β → Prop} {Q : γ → δ → Prop}
  {r : Except RunError α} {r' : Except RunError β} {x : Exec α} {y : Exec β}

namespace EndAlike

theorem mono (h : EndAlike E R r r') (hE : ∀ e e', E e e' → E' e e') (hR : ∀ a b, R a b → R' a b) :
    EndAlike E' R' r r' := by
  cases h with
  | ok h => exact .ok (hR _ _ h)
  | error h => exact .error (hE _ _ h)

theorem bind {g : α → Except RunError γ} {g' : β → Except RunError δ} (h : EndAlike E R r r')
    (hg : ∀ a b, R a b → EndAlike E Q (g a) (g' b)) : EndAlike E Q (r >>= g) (r' >>= g') := by
  cases h with
  | ok h => exact hg _ _ h
  | error h => exact .error h

theorem map {g : α → γ} {g' : β → δ} (h : EndAlike E R r r') (hg : ∀ a b, R a b → Q (g a) (g' b)) :
    EndAlike E Q (r.map g) (r'.map g') := by
  cases h with
  | ok h => exact .ok (hg _ _ h)
  | error h => exact .error h

/-- What is known of the first result. -/
theorem attach (h : EndAlike E R r r') : EndAlike E (fun a b => R a b ∧ r = .ok a) r r' := by
  cases h with
  | ok h => exact .ok ⟨h, rfl⟩
  | error h => exact .error h

theorem refl (h : ∀ e, r = .error e → E e e) : EndAlike E Eq r r := by
  cases r with
  | ok a => exact .ok rfl
  | error e => exact .error (h e rfl)

end EndAlike

namespace RunAlike

theorem mono (h : RunAlike E R x y) (hE : ∀ e e', E e e' → E' e e') (hR : ∀ a b, R a b → R' a b) :
    RunAlike E' R' x y := fun m => ⟨(h m).1, (h m).2.mono hE hR⟩

theorem pure {a : α} {b : β} (h : R a b) : RunAlike E R (pure a) (pure b) := fun _ => ⟨rfl, .ok h⟩

theorem throw {e e' : RunError} (h : E e e') : RunAlike E R (throw e) (throw e') := fun _ => ⟨rfl, .error h⟩

theorem lift (h : EndAlike E R r r') : RunAlike E R (Exec.lift r) (Exec.lift r') := fun _ => ⟨rfl, h⟩

theorem bind {g : α → Exec γ} {g' : β → Exec δ} (h : RunAlike E R x y)
    (hg : ∀ a b, R a b → RunAlike E Q (g a) (g' b)) : RunAlike E Q (x >>= g) (y >>= g') := by
  intro m
  change ((ExceptT.bindCont g' (y.run.run m).1).run (y.run.run m).2).2 =
      ((ExceptT.bindCont g (x.run.run m).1).run (x.run.run m).2).2 ∧
    EndAlike E Q ((ExceptT.bindCont g (x.run.run m).1).run (x.run.run m).2).1
      ((ExceptT.bindCont g' (y.run.run m).1).run (y.run.run m).2).1
  obtain ⟨hm, hends⟩ := h m
  rw [hm]
  generalize (x.run.run m).1 = r at hends ⊢
  generalize (y.run.run m).1 = r' at hends ⊢
  cases hends with
  | ok h => exact hg _ _ h _
  | error h => exact ⟨rfl, .error h⟩

/-- Where the results are the same, it goes on with the same. -/
theorem bind_eq {x y : Exec α} {g : α → Exec γ} {g' : α → Exec δ} (h : RunAlike E Eq x y)
    (hg : ∀ a, RunAlike E Q (g a) (g' a)) : RunAlike E Q (x >>= g) (y >>= g') :=
  h.bind fun a _ e => e ▸ hg a

theorem refl (h : ∀ m e, (x.run.run m).1 = .error e → E e e) : RunAlike E Eq x x :=
  fun m => ⟨rfl, .refl (h m)⟩

/-- Where the first has a result, the second has a related one. -/
theorem gives {m m' : Machine} {a : α} (h : RunAlike E R x y) (hx : Gives x m a m') :
    ∃ b, Gives y m b m' ∧ R a b := by
  obtain ⟨hm, hends⟩ := h m
  have hx : x.run.run m = (.ok a, m') := hx
  rw [hx] at hm hends
  generalize hy : (y.run.run m).1 = r' at hends
  cases hends with
  | @ok _ b hab => exact ⟨b, Prod.ext hy hm, hab⟩

end RunAlike

end Rules

/-- A relation between computations that goes through what is done one after the other. -/
structure Couples {M : Type → Type} [Monad M] (Rel : ∀ {α β : Type}, (α → β → Prop) → M α → M β → Prop) :
    Prop where
  pure : ∀ {α β : Type} {R : α → β → Prop} {a : α} {b : β}, R a b → Rel R (pure a) (pure b)
  bind : ∀ {α β γ δ : Type} {R : α → β → Prop} {Q : γ → δ → Prop} {x : M α} {y : M β} {g : α → M γ}
    {g' : β → M δ}, Rel R x y → (∀ a b, R a b → Rel Q (g a) (g' b)) → Rel Q (x >>= g) (y >>= g')
  mono : ∀ {α β : Type} {R R' : α → β → Prop} {x : M α} {y : M β}, Rel R x y → (∀ a b, R a b → R' a b) →
    Rel R' x y

namespace Couples

variable {M : Type → Type} [Monad M] [LawfulMonad M] {α β ι : Type}
  {Rel : ∀ {α β : Type}, (α → β → Prop) → M α → M β → Prop} {R : α → β → Prop}

/-- Computations on all elements of a list. -/
theorem mapM (hRel : Couples Rel) {g : ι → M α} {g' : ι → M β} : ∀ {is : List ι},
    (∀ i ∈ is, Rel R (g i) (g' i)) → Rel (List.Forall₂ R) (is.mapM g) (is.mapM g') := by
  intro is
  induction is with
  | nil => exact fun _ => hRel.pure .nil
  | cons i is ih =>
    intro h
    obtain ⟨hi, his⟩ := List.forall_mem_cons.mp h
    rw [List.mapM_cons, List.mapM_cons]
    exact hRel.bind hi fun a b hab => hRel.bind (ih his) fun as bs habs => hRel.pure (.cons hab habs)

theorem mapM_eq (hRel : Couples Rel) {g g' : ι → M α} {is : List ι} (h : ∀ i ∈ is, Rel Eq (g i) (g' i)) :
    Rel Eq (is.mapM g) (is.mapM g') :=
  hRel.mono (hRel.mapM h) fun _ _ h => List.forall₂_eq_eq_eq ▸ h

omit [LawfulMonad M] in
/-- A pass over a list. -/
theorem foldlM (hRel : Couples Rel) {g : α → ι → M α} {g' : β → ι → M β} : ∀ {is : List ι} {a : α} {b : β},
    (∀ i ∈ is, ∀ a b, R a b → Rel R (g a i) (g' b i)) → R a b → Rel R (is.foldlM g a) (is.foldlM g' b) := by
  intro is
  induction is with
  | nil => exact fun _ hab => hRel.pure hab
  | cons i is ih =>
    intro a b h hab
    obtain ⟨hi, his⟩ := List.forall_mem_cons.mp h
    rw [List.foldlM_cons, List.foldlM_cons]
    exact hRel.bind (hi a b hab) fun _ _ => ih his

end Couples

theorem EndAlike.couples (E : RunError → RunError → Prop) : Couples (EndAlike E) :=
  ⟨.ok, .bind, fun h hR => h.mono (fun _ _ h => h) hR⟩

theorem RunAlike.couples (E : RunError → RunError → Prop) : Couples (RunAlike E) :=
  ⟨.pure, .bind, fun h hR => h.mono (fun _ _ h => h) hR⟩

/-! ### Frames and failures under other names -/

/-- Failures that a function may have when it is called. -/
def Caller.Fails (call : Caller) (e : RunError) : Prop :=
  ∃ name args m, ((call name args).run.run m).1 = .error e

/-- Failures that are the same but for names: temporaries are renamed by `ρ`, labels by `κ`.  The failures `C` come
from functions that were called, which have names of their own. -/
inductive RunError.Renamed (C : RunError → Prop) (ρ : Temp → Temp) (κ : Label → Label) :
    RunError → RunError → Prop
  | plain {e : RunError} (h : e.AtRunTime) : Renamed C ρ κ e e
  | called {e : RunError} (h : C e) : Renamed C ρ κ e e
  | undefined (t : Temp) : Renamed C ρ κ (.undefinedTemp t.text) (.undefinedTemp (ρ t).text)
  | lane (k : Nat) (t : Temp) :
    Renamed C ρ κ (.unsupported s!"lane {k} of {t.text}") (.unsupported s!"lane {k} of {(ρ t).text}")
  | instr (x : Instr) : Renamed C ρ κ (.unsupported x.text) (.unsupported (x.rename ρ).text)
  | incoming (p : Phi) (l : Label) :
    Renamed C ρ κ (.unsupported s!"{p.text} from {l.name}")
      (.unsupported s!"{((p.rename ρ).renameLabels κ).text} from {(κ l).name}")
  | terminator (x : Instr) :
    Renamed C ρ κ (.unsupported x.text) (.unsupported ((x.rename ρ).renameLabels κ).text)
  | unended (l : Label) :
    Renamed C ρ κ (.unsupported s!"{l.name} has no terminator")
      (.unsupported s!"{(κ l).name} has no terminator")

/-- One frame binds new names as another binds the old ones, as far as the latter are in use. -/
def Frame.Mirrors (ρ : Temp → Temp) (S : Set Temp) (fr fr' : Frame) : Prop :=
  ∀ t ∈ S, fr'.lookup (ρ t) = fr.lookup t

section Renaming

variable {C : RunError → Prop} {ρ : Temp → Temp} {κ : Label → Label} {S : Set Temp} {L : Set Label}
  {fr fr' : Frame} {call : Caller} {v : Value} {x : Instr} {b b' : Block}

theorem FailsAtRunTime.endAlike {α : Type} {r : Except RunError α} (h : FailsAtRunTime r) :
    EndAlike (RunError.Renamed C ρ κ) Eq r r := .refl fun e he => .plain (h e he)

theorem FailsAtRunTime.runAlike {α : Type} {r : Except RunError α} (h : FailsAtRunTime r) :
    RunAlike (RunError.Renamed C ρ κ) Eq (Exec.lift r) (Exec.lift r) := .lift h.endAlike

theorem Ends.runAlike {α : Type} {x : Exec α} {Q : α → Prop} (h : Ends x Q) :
    RunAlike (RunError.Renamed C ρ κ) Eq x x := .refl fun m e he => .plain ((h m).2 e he)

theorem runAlike_call (hcall : ∀ e, Caller.Fails call e → C e) (name : String) (args : List Cell) :
    RunAlike (RunError.Renamed C ρ κ) Eq (call name args) (call name args) :=
  .refl fun m e he => .called (hcall e ⟨name, args, m, he⟩)

namespace Frame

theorem Mirrors.setEntry (h : fr.Mirrors ρ S fr') (hρ : S.InjOn ρ) {t : Temp} (ht : t ∈ S) (ls : Lanes) :
    Frame.Mirrors ρ S (LoopLanes.setEntry t ls fr) (LoopLanes.setEntry (ρ t) ls fr') := by
  intro u hu
  by_cases e : u = t
  · rw [e, lookup_setEntry_self, lookup_setEntry_self]
  · rw [lookup_setEntry_of_ne _ _ e, lookup_setEntry_of_ne _ _ fun he => e (hρ hu ht he), h u hu]

/-- Entries written one after the other. -/
theorem Mirrors.foldl_setEntry (hρ : S.InjOn ρ) : ∀ {es es' : List (Temp × Lanes)} {fr fr' : Frame},
    List.Forall₂ (fun e e' => e.1 ∈ S ∧ e' = (ρ e.1, e.2)) es es' → fr.Mirrors ρ S fr' →
      Frame.Mirrors ρ S (es.foldl (fun fr e => LoopLanes.setEntry e.1 e.2 fr) fr)
        (es'.foldl (fun fr e => LoopLanes.setEntry e.1 e.2 fr) fr') := by
  intro es es' fr fr' hes
  induction hes generalizing fr fr' with
  | nil => exact id
  | cons he _ ih =>
    obtain ⟨ht, rfl⟩ := he
    exact fun h => ih (h.setEntry hρ ht _)

theorem endAlike_read (h : ∀ t ∈ v.temp?, fr'.lookup (ρ t) = fr.lookup t) :
    EndAlike (RunError.Renamed C ρ κ) Eq (fr.read v) (fr'.read (v.rename ρ)) := by
  cases v with
  | temp t =>
    simp only [read, Value.rename, h t rfl]
    split
    · exact .ok rfl
    · exact .error (.undefined t)
  | int n => exact .ok rfl
  | float n => exact .ok rfl

theorem endAlike_readUniform (h : ∀ t ∈ v.temp?, fr'.lookup (ρ t) = fr.lookup t) :
    EndAlike (RunError.Renamed C ρ κ) Eq (fr.readUniform v) (fr'.readUniform (v.rename ρ)) :=
  (endAlike_read h).bind fun ls _ e => e ▸ (Lanes.fails_uniform ls).endAlike

theorem endAlike_lane (h : ∀ t ∈ v.temp?, fr'.lookup (ρ t) = fr.lookup t) (k : Nat) :
    EndAlike (RunError.Renamed C ρ κ) Eq (fr.lane v k) (fr'.lane (v.rename ρ) k) := by
  cases v with
  | temp t =>
    simp only [lane, Value.rename, h t rfl]
    split
    · exact .error (.undefined t)
    · exact .ok rfl
    · split
      · exact .ok rfl
      · exact .error (.lane k t)
  | int n => exact (Lanes.fails_uniform [.int n]).endAlike
  | float n => exact (Lanes.fails_uniform [.float n]).endAlike

end Frame

/-! ### Instructions -/

namespace Instr

theorem widest_rename (h : ∀ t ∈ x.readTemps, fr'.lookup (ρ t) = fr.lookup t) :
    widest fr' (x.rename ρ) = widest fr x := by
  have hwidth : (x.rename ρ).readTemps.map fr'.width = x.readTemps.map fr.width := by
    rw [readTemps_rename, List.map_map]
    exact List.map_congr_left fun t ht => by simp only [Function.comp_apply, Frame.width, h t ht]
  rw [widest, widest, hwidth]

theorem runAlike_operand (h : ∀ t ∈ x.readTemps, fr'.lookup (ρ t) = fr.lookup t) (hv : v ∈ x.reads) (k : Nat) :
    RunAlike (RunError.Renamed C ρ κ) Eq (operand fr k v) (operand fr' k (v.rename ρ)) :=
  .lift (Frame.endAlike_lane (fun t ht => h t (mem_readTemps.mpr ⟨v, hv, ht⟩)) k)

/-- A lane of an instruction under other names. -/
theorem runAlike_execLane (hcall : ∀ e, Caller.Fails call e → C e)
    (h : ∀ t ∈ x.readTemps, fr'.lookup (ρ t) = fr.lookup t) (k : Nat) :
    RunAlike (RunError.Renamed C ρ κ) Eq (execLane call fr k x) (execLane call fr' k (x.rename ρ)) := by
  have operand : ∀ v ∈ x.reads,
      RunAlike (RunError.Renamed C ρ κ) Eq (operand fr k v) (operand fr' k (v.rename ρ)) :=
    fun v hv => runAlike_operand h hv k
  cases x
  case arith =>
    refine (operand _ (by simp [reads])).bind_eq fun a => ?_
    refine (operand _ (by simp [reads])).bind_eq fun b => ?_
    exact (fails_arith _).runAlike.bind_eq fun _ => .pure rfl
  case comp =>
    refine (operand _ (by simp [reads])).bind_eq fun a => ?_
    refine (operand _ (by simp [reads])).bind_eq fun b => ?_
    exact (fails_compare _).runAlike.bind_eq fun _ => .pure rfl
  case select =>
    refine (operand _ (by simp [reads])).bind_eq fun c => ?_
    split
    · exact (operand _ (by simp [reads])).bind_eq fun _ => .pure rfl
    · exact (operand _ (by simp [reads])).bind_eq fun _ => .pure rfl
  case store =>
    refine (operand _ (by simp [reads])).bind_eq fun a => ?_
    refine (operand _ (by simp [reads])).bind_eq fun v => ends_get.runAlike.bind_eq fun m => ?_
    exact (fails_store m a v).runAlike.bind_eq fun m' => (ends_set m').runAlike.bind_eq fun _ => .pure rfl
  case load =>
    refine (operand _ (by simp [reads])).bind_eq fun a => ends_get.runAlike.bind_eq fun m => ?_
    exact (fails_load m a).runAlike.bind_eq fun _ => .pure rfl
  case gep =>
    refine (operand _ (by simp [reads])).bind_eq fun o => ?_
    refine (fails_toInt32 o).runAlike.bind_eq fun n => ?_
    refine (operand _ (by simp [reads])).bind_eq fun a => ?_
    exact (fails_offset a _).runAlike.bind_eq fun _ => .pure rfl
  case call t ty callee args =>
    simp only [rename, execLane, List.mapM_map]
    refine ((RunAlike.couples _).mapM_eq fun a ha => operand _ ?_).bind_eq fun as => runAlike_call hcall callee as
    exact List.mem_map_of_mem ha
  all_goals exact .throw (.instr _)

theorem runAlike_execLanes (hcall : ∀ e, Caller.Fails call e → C e)
    (h : ∀ t ∈ x.readTemps, fr'.lookup (ρ t) = fr.lookup t) (width : Nat) (active : Nat → Bool) :
    RunAlike (RunError.Renamed C ρ κ) Eq (execLanes call fr x width active)
      (execLanes call fr' (x.rename ρ) width active) := by
  refine (RunAlike.couples _).mapM_eq fun k _ => ?_
  split
  · exact (runAlike_execLane hcall h k).bind_eq fun _ => .pure rfl
  · exact .pure rfl

/-- All lanes of an instruction under other names. -/
theorem runAlike_lanes (hcall : ∀ e, Caller.Fails call e → C e)
    (h : ∀ t ∈ x.readTemps, fr'.lookup (ρ t) = fr.lookup t) :
    RunAlike (RunError.Renamed C ρ κ) Eq (lanes call fr x) (lanes call fr' (x.rename ρ)) := by
  have hv : ∀ v ∈ x.reads, ∀ t ∈ v.temp?, fr'.lookup (ρ t) = fr.lookup t :=
    fun v hv t ht => h t (mem_readTemps.mpr ⟨v, hv, ht⟩)
  -- what is no vector form runs as wide as its widest operand, whatever the kind
  have hplain : RunAlike (RunError.Renamed C ρ κ) Eq (execLanes call fr x (widest fr x) fun _ => true)
      (execLanes call fr' (x.rename ρ) (widest fr' (x.rename ρ)) fun _ => true) := by
    rw [widest_rename h]
    exact runAlike_execLanes hcall h _ _
  cases x
  case vec width mask inner =>
    have hinner : ∀ t ∈ inner.readTemps, fr'.lookup (ρ t) = fr.lookup t := by
      intro t ht
      obtain ⟨v, hv, he⟩ := mem_readTemps.mp ht
      exact h t (mem_readTemps.mpr ⟨v, List.mem_append_left _ hv, he⟩)
    cases mask with
    | none => exact runAlike_execLanes hcall hinner width _
    | some m =>
      refine (RunAlike.lift (Frame.endAlike_read (hv m (by simp [reads])))).bind_eq fun ls => ?_
      exact runAlike_execLanes hcall hinner width _
  case ladder t ty base stride width =>
    refine (RunAlike.lift (Frame.endAlike_readUniform (hv base (by simp [reads])))).bind_eq fun c => ?_
    exact .lift ((EndAlike.couples _).mapM_eq fun k _ => (fails_offset c _).endAlike)
  case buildVec t ty values =>
    simp only [rename, lanes, List.mapM_map]
    exact .lift ((EndAlike.couples _).mapM_eq fun v hmem => Frame.endAlike_readUniform (hv v hmem))
  case reduce t op ty vector width =>
    have hlane := Frame.endAlike_lane (C := C) (κ := κ) (hv vector (by simp [reads]))
    refine (RunAlike.lift ?_).bind_eq fun c => .pure rfl
    refine (hlane 0).bind fun c _ e => e ▸ (EndAlike.couples _).foldlM (fun k _ acc _ e => e ▸ ?_) rfl
    exact (hlane k).bind fun d _ e => e ▸ (fails_arith op).endAlike
  all_goals exact hplain

/-- An instruction under other names defines what it defines under the new name. -/
theorem runAlike_exec (hcall : ∀ e, Caller.Fails call e → C e) (hρ : S.InjOn ρ) (hx : ∀ t ∈ x.mentions, t ∈ S)
    (h : fr.Mirrors ρ S fr') :
    RunAlike (RunError.Renamed C ρ κ) (Frame.Mirrors ρ S) (exec call fr x) (exec call fr' (x.rename ρ)) := by
  have hreads : ∀ t ∈ x.readTemps, fr'.lookup (ρ t) = fr.lookup t :=
    fun t ht => h t (hx t (List.mem_append_right _ ht))
  refine (runAlike_lanes hcall hreads).bind_eq fun ls => ?_
  rw [write_rename]
  cases hw : x.write with
  | none => exact .pure h
  | some t => exact .pure (h.setEntry hρ (hx t (by simp [mentions, hw])) ls)

end Instr

/-! ### Blocks -/

namespace Leaving

/-- Where control goes, with labels renamed. -/
def rename (κ : Label → Label) : Leaving → Leaving
  | .jump l => .jump (κ l)
  | .ret v => .ret v

/-- The label that control goes to, if it does not return. -/
def target? : Leaving → Option Label
  | .jump l => some l
  | .ret _ => none

theorem target?_rename (o : Leaving) : (o.rename κ).target? = o.target?.map κ := by
  cases o <;> rfl

end Leaving

/-- Enters a block, executes it and leaves it. -/
def Block.pass (call : Caller) (b : Block) (source : Option Label) (fr : Frame) : Exec (Leaving × Frame) := do
  let fr ← Exec.lift (b.enter fr source)
  let fr ← b.execBody call fr
  Exec.tick
  return (← Exec.lift (b.leave fr), fr)

/-- A block with the code of another under other names. -/
structure Block.Renames (ρ : Temp → Temp) (κ : Label → Label) (b b' : Block) : Prop where
  label : b'.label = κ b.label
  phis : b'.phis = b.phis.map fun p => (p.rename ρ).renameLabels κ
  instrs : b'.instrs = b.instrs.map (·.rename ρ)
  jump : b'.jump = b.jump.map fun j => (j.rename ρ).renameLabels κ

/-- What a phi under other names takes in along an edge. -/
theorem Phi.incoming?_rename (hκ : L.InjOn κ) {p : Phi} {l : Label} (hl : l ∈ L)
    (hp : ∀ e ∈ p.incoming, e.2 ∈ L) :
    ((p.rename ρ).renameLabels κ).incoming? (κ l) = (p.incoming? l).map (·.rename ρ) := by
  have hfind : p.incoming.find? (fun e => κ e.2 == κ l) = p.incoming.find? fun e => e.2 == l := by
    refine List.find?_congr fun e he => ?_
    rw [Bool.eq_iff_iff, beq_iff_eq, beq_iff_eq]
    exact hκ.eq_iff (hp e he) hl
  simp only [incoming?, rename, renameLabels, List.find?_map, Option.map_map, Function.comp_def, hfind]

namespace Block

/-- The labels that a block names: its own, those that it jumps to and those that its phis tell apart. -/
def labels (b : Block) : List Label := b.label :: b.targets ++ b.phis.flatMap fun p => p.incoming.map (·.2)

theorem endAlike_enter (hb : b.Renames ρ κ b') (hρ : S.InjOn ρ) (hκ : L.InjOn κ)
    (htemps : ∀ t ∈ b.mentions, t ∈ S) (hlabels : ∀ l ∈ b.labels, l ∈ L) {source : Option Label}
    (hsource : ∀ l ∈ source, l ∈ L) (h : fr.Mirrors ρ S fr') :
    EndAlike (RunError.Renamed C ρ κ) (Frame.Mirrors ρ S) (b.enter fr source) (b'.enter fr' (source.map κ)) := by
  cases source with
  | none => exact .ok h
  | some l =>
    have hmentions : ∀ p ∈ b.phis, ∀ t ∈ (Instr.phi p).mentions, t ∈ S := fun p hp t ht =>
      htemps t (List.mem_flatMap.mpr ⟨.phi p, by simp [hp], ht⟩)
    refine EndAlike.map (R := List.Forall₂ fun e e' => e.1 ∈ S ∧ e' = (ρ e.1, e.2)) ?_ fun es es' hes =>
      Frame.Mirrors.foldl_setEntry hρ hes h
    rw [phiValues, phiValues, hb.phis, List.mapM_map]
    refine (EndAlike.couples _).mapM fun p hp => ?_
    have hentries : ∀ e ∈ p.incoming, e.2 ∈ L := fun e he =>
      hlabels e.2 (List.mem_append_right _ (List.mem_flatMap.mpr ⟨p, hp, List.mem_map_of_mem he⟩))
    simp only [Function.comp_apply, Phi.incoming?_rename hκ (hsource l rfl) hentries]
    cases hv : p.incoming? l with
    | none => exact .error (.incoming p l)
    | some v =>
      have hread : ∀ t ∈ v.temp?, fr'.lookup (ρ t) = fr.lookup t := by
        intro t ht
        refine h t (hmentions p hp t (List.mem_append_right _ (Instr.mem_readTemps.mpr ⟨v, ?_, ht⟩)))
        obtain ⟨e, he, rfl⟩ := Option.map_eq_some_iff.mp hv
        exact List.mem_map_of_mem (List.mem_of_find?_eq_some he)
      refine (Frame.endAlike_read hread).map fun ls _ e => ?_
      exact ⟨hmentions p hp _ (by simp [Instr.mentions, Instr.write]), by rw [← e]; rfl⟩

theorem runAlike_execBody (hcall : ∀ e, Caller.Fails call e → C e) (hb : b.Renames ρ κ b') (hρ : S.InjOn ρ)
    (htemps : ∀ t ∈ b.mentions, t ∈ S) (h : fr.Mirrors ρ S fr') :
    RunAlike (RunError.Renamed C ρ κ) (Frame.Mirrors ρ S) (b.execBody call fr) (b'.execBody call fr') := by
  rw [execBody, execBody, hb.instrs, List.foldlM_map]
  refine (RunAlike.couples _).foldlM (fun x hx fr fr' h => ends_tick.runAlike.bind_eq fun _ => ?_) h
  exact Instr.runAlike_exec hcall hρ (fun t ht => htemps t (List.mem_flatMap.mpr ⟨x, by simp [hx], ht⟩)) h

theorem endAlike_leave (hb : b.Renames ρ κ b') (htemps : ∀ t ∈ b.mentions, t ∈ S) (h : fr.Mirrors ρ S fr') :
    EndAlike (RunError.Renamed C ρ κ) (fun o o' => o' = o.rename κ) (b.leave fr) (b'.leave fr') := by
  cases hj : b.jump with
  | none =>
    simp only [leave, hb.jump, hj, Option.map_none, hb.label]
    exact .error (.unended b.label)
  | some j =>
    have hreads : ∀ v ∈ j.reads, ∀ t ∈ v.temp?, fr'.lookup (ρ t) = fr.lookup t := fun v hv t ht =>
      h t (htemps t (List.mem_flatMap.mpr ⟨j, by simp [hj],
        List.mem_append_right _ (Instr.mem_readTemps.mpr ⟨v, hv, ht⟩)⟩))
    simp only [leave, hb.jump, hj, Option.map_some]
    cases j
    case jump l => exact .ok rfl
    case branch ty cond l l' =>
      refine (Frame.endAlike_readUniform (hreads cond (by simp [Instr.reads]))).map fun c _ e => ?_
      subst e
      split <;> rfl
    case ret v =>
      cases v with
      | none => exact .ok rfl
      | some v =>
        exact (Frame.endAlike_readUniform (hreads v (by simp [Instr.reads]))).map fun c _ e => e ▸ rfl
    all_goals exact .error (.terminator _)

/-- A block under other names does the same to the machine, and is left for the renamed label. -/
theorem runAlike_pass (hcall : ∀ e, Caller.Fails call e → C e) (hb : b.Renames ρ κ b') (hρ : S.InjOn ρ)
    (hκ : L.InjOn κ) (htemps : ∀ t ∈ b.mentions, t ∈ S) (hlabels : ∀ l ∈ b.labels, l ∈ L)
    {source : Option Label} (hsource : ∀ l ∈ source, l ∈ L) (h : fr.Mirrors ρ S fr') :
    RunAlike (RunError.Renamed C ρ κ)
      (fun r r' => (r'.1 = r.1.rename κ ∧ r.2.Mirrors ρ S r'.2) ∧ ∀ l ∈ r.1.target?, l ∈ b.targets)
      (b.pass call source fr) (b'.pass call (source.map κ) fr') := by
  refine (RunAlike.lift (endAlike_enter hb hρ hκ htemps hlabels hsource h)).bind fun fr₁ fr₁' h₁ => ?_
  refine (runAlike_execBody hcall hb hρ htemps h₁).bind fun fr₂ fr₂' h₂ => ends_tick.runAlike.bind_eq fun _ => ?_
  refine (RunAlike.lift (endAlike_leave hb htemps h₂).attach).bind fun o o' ho => .pure ⟨⟨ho.1, h₂⟩, ?_⟩
  intro l hl
  cases o with
  | jump k =>
    obtain rfl : k = l := Option.some.inj hl
    exact mem_targets_of_leave ho.2
  | ret v => cases hl

end Block

/-! ### Blocks one after the other -/

/-- Where a run stands that was to pass some blocks. -/
structure Standing where
  leaving : Leaving
  source : Option Label
  frame : Frame
  /-- how many of the blocks that it was to pass it did not -/
  rest : Nat

/-- Passes blocks of a list one after the other, `n` of them at most, until the list is left.  Calls are
made as `calls` says for the number of blocks that may follow. -/
def passAll (calls : Nat → Caller) (bs : List Block) : Nat → Block → Option Label → Frame → Exec Standing
  | 0, b, source, fr => return ⟨.jump b.label, source, fr, 0⟩
  | n + 1, b, source, fr => do
    let (leaving, fr) ← b.pass (calls n) source fr
    match leaving with
    | .ret v => return ⟨.ret v, some b.label, fr, n⟩
    | .jump l =>
      match bs.find? (·.label == l) with
      | none => return ⟨.jump l, some b.label, fr, n⟩
      | some next => passAll calls bs n next (some b.label) fr

/-- A run that stands where another does, with labels renamed and frames related. -/
structure Standing.Renames (κ : Label → Label) (F : Frame → Frame → Prop) (r r' : Standing) : Prop where
  leaving : r'.leaving = r.leaving.rename κ
  source : r'.source = r.source.map κ
  frame : F r.frame r'.frame
  rest : r'.rest = r.rest

/-- Blocks under other names are found under these. -/
theorem Block.find?_label_map {bs : List Block} {g : Block → Block} (hg : ∀ b ∈ bs, b.Renames ρ κ (g b))
    (hκ : L.InjOn κ) (hbs : ∀ b ∈ bs, b.label ∈ L) {l : Label} (hl : l ∈ L) :
    (bs.map g).find? (·.label == κ l) = (bs.find? (·.label == l)).map g := by
  rw [List.find?_map]
  refine congrArg _ (List.find?_congr fun b hb => ?_)
  rw [Function.comp_apply, (hg b hb).label, Bool.eq_iff_iff, beq_iff_eq, beq_iff_eq]
  exact hκ.eq_iff (hbs b hb) hl

/-- However many blocks are passed, those under other names do the same to the machine, and the run leaves
them for the renamed label. -/
theorem runAlike_passAll {bs : List Block} {g : Block → Block} (hg : ∀ b ∈ bs, b.Renames ρ κ (g b))
    (hρ : S.InjOn ρ) (hκ : L.InjOn κ) (htemps : ∀ b ∈ bs, ∀ t ∈ b.mentions, t ∈ S)
    (hlabels : ∀ b ∈ bs, ∀ l ∈ b.labels, l ∈ L) {calls : Nat → Caller}
    (hcalls : ∀ i e, Caller.Fails (calls i) e → C e) : ∀ (n : Nat) {b : Block} {source : Option Label}
      {fr fr' : Frame}, b ∈ bs → (∀ l ∈ source, l ∈ L) → fr.Mirrors ρ S fr' →
        RunAlike (RunError.Renamed C ρ κ) (Standing.Renames κ (Frame.Mirrors ρ S)) (passAll calls bs n b source fr)
          (passAll calls (bs.map g) n (g b) (source.map κ) fr') := by
  intro n
  induction n with
  | zero =>
    intro b source fr fr' hb hsource h
    exact .pure ⟨congrArg Leaving.jump (hg b hb).label, rfl, h, rfl⟩
  | succ n ih =>
    intro b source fr fr' hb hsource h
    have hlabel : ∀ c ∈ bs, c.label ∈ L := fun c hc => hlabels c hc _ (by simp [Block.labels])
    have hown : some (g b).label = (some b.label).map κ := congrArg some (hg b hb).label
    refine (Block.runAlike_pass (hcalls n) (hg b hb) hρ hκ (htemps b hb) (hlabels b hb) hsource h).bind ?_
    rintro ⟨l | v, fr₁⟩ ⟨_, fr₁'⟩ ⟨⟨rfl, h₁⟩, htarget⟩
    · -- either both are left for good, or both go on with the same block of the list
      have hl : l ∈ L := hlabels b hb l (by simp [Block.labels, htarget l rfl])
      simp only [Leaving.rename, Block.find?_label_map hg hκ hlabel hl]
      cases hnext : bs.find? (·.label == l) with
      | none => exact .pure ⟨rfl, hown, h₁, rfl⟩
      | some next =>
        simp only [Option.map_some, hown]
        refine ih (List.mem_of_find?_eq_some hnext) ?_ h₁
        rintro _ ⟨⟩
        exact hlabel b hb
    · exact .pure ⟨rfl, hown, h₁, rfl⟩

end Renaming

/-! ### Runs of a function -/

/-- How calls are made in a run of a program, with some fuel. -/
def Program.caller (p : Program) (fuel : Nat) : Caller := fun name args =>
  if Builtin.names.contains name then Builtin.call name args
  else
    match p.func? name with
    | none => throw (.unknownFunction name)
    | some g => p.runBlocks fuel g g.entry none (frameOf g args)

/-- Goes on with a run of a function from where a jump leads. -/
def Program.goOn (p : Program) (fuel : Nat) (f : Func) (source : Option Label) (fr : Frame) :
    Leaving → Exec (Option Cell)
  | .ret v => return v
  | .jump l =>
    match f.labelled? l with
    | none => throw (.unknownBlock l.name)
    | some next => p.runBlocks fuel f next source fr

theorem Program.runBlocks_succ (p : Program) (fuel : Nat) (f : Func) (b : Block) (source : Option Label)
    (fr : Frame) : p.runBlocks (fuel + 1) f b source fr =
      b.pass (p.caller fuel) source fr >>= fun r => p.goOn fuel f (some b.label) r.2 r.1 := by
  rw [runBlocks]
  simp only [Block.pass, bind_assoc, pure_bind]
  rfl

/-- As long as a run of a function stays among some of its blocks, it passes these. -/
theorem Program.runBlocks_eq_passAll (p : Program) {f : Func} (hf : (f.blocks.map Block.id).Nodup)
    {bs : List Block} (hbs : bs ⊆ f.blocks) (k : Nat) : ∀ (n : Nat) {b : Block} (source : Option Label)
      (fr : Frame), b ∈ bs → p.runBlocks (n + k) f b source fr =
        passAll (fun i => p.caller (i + k)) bs n b source fr >>= fun r =>
          p.goOn (r.rest + k) f r.source r.frame r.leaving := by
  -- a jump to one of the blocks finds the same block in the function
  have hlabelled : ∀ b ∈ bs, f.labelled? b.label = some b := fun b hb =>
    Func.labelled?_of_linked? hf (Func.linked?_of_mem hf (hbs hb))
  intro n
  induction n with
  | zero =>
    intro b source fr hb
    rw [Nat.zero_add, passAll, pure_bind]
    simp only [goOn, hlabelled b hb, Nat.zero_add]
  | succ n ih =>
    intro b source fr hb
    rw [Nat.add_right_comm, runBlocks_succ, passAll, bind_assoc]
    refine congrArg _ (funext ?_)
    rintro ⟨l | v, fr⟩
    · cases hnext : bs.find? (·.label == l) with
      | none => simp only [hnext, pure_bind]
      | some next =>
        have hmem := List.mem_of_find?_eq_some hnext
        obtain rfl : next.label = l := by simpa using List.find?_some hnext
        simp only [hnext, goOn, hlabelled next hmem, ih _ _ hmem]
    · simp only [pure_bind, goOn]

end LoopLanes
