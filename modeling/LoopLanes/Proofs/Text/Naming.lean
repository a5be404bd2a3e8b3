/-
Names that a text spells, and names that are drawn.

A text is read from its front: a name that is spelled moves the counter for fresh temporaries past it, and a
call without a name draws the next one.  `Definition.namings` lists both in the order of the text.  Drawn names
are never drawn again, nor spelled before; a name that is spelled only later may be the one that was drawn.

* `Program.occurrences_of_parse` — a program has the temporaries that its text names, each as often;
* `Naming.nodup_draws`, `Naming.not_mem_spellings_of_timely` — drawn names collide with nothing, where numbers
  are spelled in time;
* **`Program.draws_of_parse`** — so they do in a program, while it is read and at any time afterwards;
* **`Program.collides_of_calling`** — a number that is spelled behind a call that has drawn it.
-/
import LoopLanes.Proofs.Text.Parsed
import LoopLanes.Proofs.Text.Spelling

namespace LoopLanes

/-- A temporary is named: its name is spelled, or drawn from the counter. -/
inductive Naming
  | spelled (name : String) (ty : Ty)
  | drawn (ty : Ty) (isGlobal : Bool)
  deriving DecidableEq

/-! ### Namings -/

namespace Naming

/-- The temporary that is named, and the counter behind it. -/
def apply (n : TempCounter) : Naming → Temp × TempCounter
  | spelled name ty => (.ofLocal name ty, n.reserve name)
  | drawn ty isGlobal => n.fresh ty isGlobal

/-- The counter behind some namings. -/
def counter (n : TempCounter) (es : List Naming) : TempCounter := es.foldl (fun n e => (e.apply n).2) n

/-- The temporaries that are named. -/
def temps : TempCounter → List Naming → List Temp
  | _, [] => []
  | n, e :: es => (e.apply n).1 :: temps (e.apply n).2 es

/-- The temporaries that are drawn. -/
def draws : TempCounter → List Naming → List Temp
  | _, [] => []
  | n, spelled name _ :: es => draws (n.reserve name) es
  | n, drawn ty isGlobal :: es => (n.fresh ty isGlobal).1 :: draws (n + 1) es

/-- The temporary of a name that is spelled. -/
def spelling? : Naming → Option Temp
  | spelled name ty => some (.ofLocal name ty)
  | drawn .. => none

/-- The temporaries that are spelled. -/
def spellings (es : List Naming) : List Temp := es.filterMap spelling?

/-- A number that is spelled behind a draw of the same type has been spelled before, or is further on. -/
def Timely (n : TempCounter) (es : List Naming) : Prop :=
  ∀ i < es.length, ∀ e ∈ es[i]?, e.spelling? = none → ∀ t ∈ spellings (es.drop i), t.ty = (e.apply n).1.ty →
    t.name ∈ (spellings (es.take i)).map (·.name) ∨
      ∀ k ∈ (readU32 t.name).toOption, counter n (es.take i) + 1 < k

instance (n : TempCounter) (es : List Naming) : Decidable (Timely n es) :=
  inferInstanceAs (Decidable (∀ i < es.length, ∀ e ∈ es[i]?, e.spelling? = none →
    ∀ t ∈ spellings (es.drop i), t.ty = (e.apply n).1.ty →
      t.name ∈ (spellings (es.take i)).map (·.name) ∨
        ∀ k ∈ (readU32 t.name).toOption, counter n (es.take i) + 1 < k))

variable {n : TempCounter} {e : Naming} {es es' : List Naming} {t : Temp}

theorem counter_append : counter n (es ++ es') = counter (counter n es) es' := List.foldl_append

theorem temps_append : temps n (es ++ es') = temps n es ++ temps (counter n es) es' := by
  induction es generalizing n with
  | nil => rfl
  | cons e es ih => exact congrArg _ ih

theorem draws_append : draws n (es ++ es') = draws n es ++ draws (counter n es) es' := by
  induction es generalizing n with
  | nil => rfl
  | cons e es ih =>
    cases e with
    | spelled name ty => exact ih
    | drawn ty isGlobal => exact congrArg _ ih

theorem spellings_append : spellings (es ++ es') = spellings es ++ spellings es' := List.filterMap_append

theorem le_counter : n ≤ counter n es := by
  induction es generalizing n with
  | nil => exact Nat.le_refl n
  | cons e es ih =>
    refine Nat.le_trans ?_ ih
    cases e with
    | spelled name ty => exact TempCounter.le_reserve n name
    | drawn ty isGlobal => exact Nat.le_succ n

/-- What is named is spelled or drawn. -/
theorem perm_temps : (temps n es).Perm (draws n es ++ spellings es) := by
  induction es generalizing n with
  | nil => exact .nil
  | cons e es ih =>
    cases e with
    | spelled name ty => exact (ih.cons _).trans List.perm_middle.symm
    | drawn ty isGlobal => exact ih.cons _

/-- A name that is spelled is behind the counter from then on. -/
theorem reserved_of_spelled (h : t ∈ spellings es) : t.Reserved (counter n es) := by
  induction es generalizing n with
  | nil => cases h
  | cons e es ih =>
    cases e with
    | spelled name ty =>
      rcases List.mem_cons.mp h with rfl | h
      · exact (Temp.Reserved.of_reserve n (.ofLocal name ty)).mono le_counter
      · exact ih h
    | drawn ty isGlobal => exact ih h

/-- A draw gives the number behind the counter. -/
theorem exists_of_mem_draws (h : t ∈ draws n es) : ∃ before after ty isGlobal,
    es = before ++ drawn ty isGlobal :: after ∧ t = ((counter n before).fresh ty isGlobal).1 := by
  induction es generalizing n with
  | nil => cases h
  | cons e es ih =>
    have hlater (h : t ∈ draws (e.apply n).2 es) : ∃ before after ty isGlobal,
        e :: es = before ++ drawn ty isGlobal :: after ∧ t = ((counter n before).fresh ty isGlobal).1 := by
      obtain ⟨before, after, ty, isGlobal, rfl, ht⟩ := ih h
      exact ⟨e :: before, after, ty, isGlobal, rfl, ht⟩
    cases e with
    | spelled name ty => exact hlater h
    | drawn ty isGlobal =>
      rcases List.mem_cons.mp h with rfl | h
      · exact ⟨[], es, ty, isGlobal, rfl, rfl⟩
      · exact hlater h

theorem fresh_of_mem_draws (h : t ∈ draws n es) : t.Fresh n (counter n es) := by
  obtain ⟨before, after, ty, isGlobal, rfl, rfl⟩ := exists_of_mem_draws h
  rw [counter_append]
  exact ((Temp.Fresh.of_fresh _ ty isGlobal).weaken le_counter).mono le_counter

theorem readU32_toString {k : Nat} (h : (k : Int) ≤ u32Max) : readU32 (toString k) = .ok k := by
  rw [readU32, show toString k = toString (k : Int) from rfl, readInteger_toString (by decide) (by omega) h]
  rfl

/-- No name is drawn twice. -/
theorem nodup_draws : (draws n es).Nodup := by
  induction es generalizing n with
  | nil => exact List.nodup_nil
  | cons e es ih =>
    cases e with
    | spelled name ty => exact ih
    | drawn ty isGlobal =>
      refine List.nodup_cons.mpr ⟨fun h => ?_, ih⟩
      exact (Temp.Fresh.of_fresh n ty isGlobal).ne_of_fresh (fresh_of_mem_draws h) rfl

/-- No name is drawn that was spelled before. -/
theorem not_mem_spellings_of_draw (hword : (counter n (es ++ es') : Int) ≤ u32Max)
    (h : t ∈ draws (counter n es) es') : t ∉ spellings es := by
  intro hspelled
  rw [counter_append] at hword
  exact (fresh_of_mem_draws h).ne_of_reserved hword (reserved_of_spelled hspelled) rfl

/-- Where numbers are spelled in time, no name that is drawn is spelled anywhere. -/
theorem not_mem_spellings_of_timely (htimely : Timely n es) (hword : (counter n es : Int) ≤ u32Max)
    (h : t ∈ draws n es) : t ∉ spellings es := by
  intro hspelled
  obtain ⟨before, after, ty, isGlobal, rfl, rfl⟩ := exists_of_mem_draws h
  have hbehind : ((counter n before + 1 : Nat) : Int) ≤ u32Max := by
    refine Int.le_trans (Int.ofNat_le.mpr ?_) hword
    rw [counter_append]
    show (apply (counter n before) (drawn ty isGlobal)).2 ≤ counter _ after
    exact le_counter
  have hnew : ∀ u ∈ spellings before, u.name ≠ toString (counter n before + 1) :=
    fun u hu => (reserved_of_spelled hu).name_ne (Nat.lt_succ_self _) hbehind
  rw [spellings_append] at hspelled
  rcases List.mem_append.mp hspelled with hspelled | hspelled
  · exact hnew _ hspelled rfl
  · -- spelled behind the draw, so spelled before it, too, or a greater number
    have hlater := htimely before.length (by simp) (drawn ty isGlobal) (by simp) rfl
      ((counter n before).fresh ty isGlobal).1 (by rwa [List.drop_left]) rfl
    rw [List.take_left] at hlater
    rcases hlater with hseen | hahead
    · obtain ⟨u, hu, hname⟩ := List.mem_map.mp hseen
      exact hnew u hu hname
    · refine Nat.lt_irrefl _ (hahead (counter n before + 1) ?_)
      rw [TempCounter.fresh, readU32_toString hbehind]
      rfl

end Naming

/-! ### The namings of a text -/

namespace Text

/-- What an operand of some type names. -/
def Spelled.namings (ty : Ty) : Spelled → List Naming
  | .name s => [.spelled s ty]
  | _ => []

/-- What an instruction names, in the order in which it is read.  A call without a name draws one when its
arguments are read. -/
def Form.namings : Form → List Naming
  | .phi target ty incoming => .spelled target ty :: incoming.flatMap fun e => e.1.namings ty
  | .select target condTy cond ty lhs rhs =>
    cond.namings condTy ++ (lhs.namings ty ++ (rhs.namings ty ++ [.spelled target ty]))
  | .arith target _ ty lhs rhs => .spelled target ty :: (lhs.namings ty ++ rhs.namings ty)
  | .comp target _ _ ty lhs rhs => .spelled target .i32 :: (lhs.namings ty ++ rhs.namings ty)
  | .load target ty addrTy addr => .spelled target ty :: addr.namings addrTy
  | .gep target ty addr offsetTy offset => addr.namings ty ++ .spelled target ty :: offset.namings offsetTy
  | .call target ty _ args =>
    args.flatMap (fun a => a.2.namings a.1) ++ [target.elim (.drawn ty false) (.spelled · ty)]
  | .store valueTy value addrTy addr => value.namings valueTy ++ addr.namings addrTy
  | .branch ty cond _ _ _ => cond.namings ty
  | .jump .. => []
  | .ret value => value.toList.flatMap fun v => v.2.namings v.1

/-- What a block names. -/
def Section.namings (s : Section) : List Naming := s.lines.flatMap fun l => l.form.namings

/-- What a function names. -/
def Definition.namings (d : Definition) : List Naming :=
  d.params.map (fun p => .spelled p.2 p.1) ++ d.sections.flatMap Section.namings

end Text

/-- The temporary of an instruction and those that it reads; a call has a temporary even where it defines
none. -/
def Instr.occurrences : Instr → List Temp
  | call t ty callee args => t :: (call t ty callee args).readTemps
  | x => x.mentions

theorem Instr.readTemps_eq (x : Instr) : x.readTemps = x.reads.flatMap fun v => v.temp?.toList :=
  List.filterMap_eq_flatMap_toList _ _

/-- The temporaries in the code of a block. -/
def Block.occurrences (b : Block) : List Temp := b.code.flatMap Instr.occurrences

/-- The temporaries of a function. -/
def Func.occurrences (f : Func) : List Temp := f.params ++ f.blocks.flatMap Block.occurrences

/-! ### Reading -/

namespace Reading

open Text

variable {α β : Type} {n n' m : TempCounter} {ty : Ty} {form : Form} {es es' : List Naming} {ts ts' : List Temp}

/-- Reading has come past some namings and has brought the temporaries that they name. -/
structure Names (es : List Naming) (n : TempCounter) (ts : List Temp) (n' : TempCounter) : Prop where
  counter : n' = Naming.counter n es
  temps : ts.Perm (Naming.temps n es)

namespace Names

theorem nil : Names [] n [] n := ⟨rfl, .nil⟩

theorem append (h : Names es n ts m) (h' : Names es' m ts' n') : Names (es ++ es') n (ts ++ ts') n' := by
  refine ⟨?_, ?_⟩
  · rw [Naming.counter_append, ← h.counter, h'.counter]
  · rw [Naming.temps_append, ← h.counter]
    exact h.temps.append h'.temps

theorem perm (h : Names es n ts n') (hperm : ts'.Perm ts) : Names es n ts' n' := ⟨h.counter, hperm.trans h.temps⟩

/-- Element by element. -/
theorem of_mapM {g : α → Reading β} {namings : α → List Naming} {temps : β → List Temp}
    (hg : ∀ a n b n', Gives (g a) n b n' → Names (namings a) n (temps b) n') :
    ∀ {as : List α} {bs : List β} {n n' : TempCounter}, Gives (as.mapM g) n bs n' →
      Names (as.flatMap namings) n (bs.flatMap temps) n' := by
  intro as
  induction as with
  | nil =>
    intro bs n n' h
    obtain ⟨rfl, rfl⟩ := gives_pure.mp h
    exact nil
  | cons a as ih =>
    intro bs n n' h
    rw [List.mapM_cons] at h
    obtain ⟨b, _, hb, h⟩ := gives_bind.mp h
    obtain ⟨bs', _, hbs, h⟩ := gives_bind.mp h
    obtain ⟨rfl, rfl⟩ := gives_pure.mp h
    exact (hg _ _ _ _ hb).append (ih hbs)

end Names

theorem names_of_temp {name : String} {t : Temp} (h : Gives (temp name ty) n t n') :
    Names [.spelled name ty] n [t] n' := by
  obtain ⟨_, _, hmodify, h⟩ := gives_bind.mp h
  obtain ⟨rfl, rfl⟩ := gives_pure.mp h
  obtain ⟨-, rfl⟩ := Prod.mk.inj (gives_modifyGet.mp hmodify)
  exact ⟨rfl, .refl _⟩

theorem names_of_value {s : Spelled} {v : Value} (h : Gives (value ty s) n v n') :
    Names (s.namings ty) n v.temp?.toList n' := by
  cases s with
  | float pos chars =>
    obtain ⟨rfl, rfl⟩ := gives_pure.mp h
    exact .nil
  | int pos chars =>
    simp only [value] at h
    split at h
    · obtain ⟨rfl, rfl⟩ := gives_pure.mp h
      exact .nil
    · split at h
      · obtain ⟨rfl, rfl⟩ := gives_pure.mp h
        exact .nil
      · exact absurd h not_gives_throw
  | name name =>
    obtain ⟨t, _, ht, h⟩ := gives_bind.mp h
    obtain ⟨rfl, rfl⟩ := gives_pure.mp h
    exact names_of_temp ht

/-- An instruction names its temporaries. -/
theorem names_of_plain? {read : Reading Instr} (hread : plain? form = some read) {x : Instr}
    (h : Gives read n x n') : Names form.namings n x.occurrences n' := by
  cases form <;> simp only [plain?, Option.some.injEq, reduceCtorEq] at hread <;> subst hread <;>
    simp only [gives_bind, gives_pure] at h
  case arith | comp =>
    obtain ⟨t, _, ht, a, _, ha, b, _, hb, rfl, rfl⟩ := h
    refine ((names_of_temp ht).append ((names_of_value ha).append (names_of_value hb))).perm (.of_eq ?_)
    simp [Instr.occurrences, Instr.mentions, Instr.write, Instr.readTemps_eq, Instr.reads]
  case select =>
    obtain ⟨c, _, hc, a, _, ha, b, _, hb, t, _, ht, rfl, rfl⟩ := h
    refine ((names_of_value hc).append ((names_of_value ha).append
      ((names_of_value hb).append (names_of_temp ht)))).perm ?_
    rw [← List.append_assoc, ← List.append_assoc]
    refine .trans (.of_eq ?_) List.perm_append_comm
    simp [Instr.occurrences, Instr.mentions, Instr.write, Instr.readTemps_eq, Instr.reads]
  case load =>
    obtain ⟨t, _, ht, a, _, ha, rfl, rfl⟩ := h
    refine ((names_of_temp ht).append (names_of_value ha)).perm (.of_eq ?_)
    simp [Instr.occurrences, Instr.mentions, Instr.write, Instr.readTemps_eq, Instr.reads]
  case gep =>
    obtain ⟨a, _, ha, t, _, ht, b, _, hb, rfl, rfl⟩ := h
    refine ((names_of_value ha).append ((names_of_temp ht).append (names_of_value hb))).perm ?_
    refine .trans (.of_eq ?_) List.perm_middle.symm
    simp [Instr.occurrences, Instr.mentions, Instr.write, Instr.readTemps_eq, Instr.reads]
  case store =>
    obtain ⟨v, _, hv, a, _, ha, rfl, rfl⟩ := h
    refine ((names_of_value hv).append (names_of_value ha)).perm (.of_eq ?_)
    simp [Instr.occurrences, Instr.mentions, Instr.write, Instr.readTemps_eq, Instr.reads]
  case call target ty callee args =>
    obtain ⟨as, m, has, h⟩ := h
    have hargs : Names (args.flatMap fun a => a.2.namings a.1) n (as.flatMap fun a => a.2.temp?.toList) m := by
      refine Names.of_mapM (fun a n b n' hb => ?_) has
      obtain ⟨v, _, hv, hb⟩ := gives_bind.mp hb
      obtain ⟨rfl, rfl⟩ := gives_pure.mp hb
      exact names_of_value hv
    -- with a name or without, one more temporary
    obtain ⟨t, ht, rfl⟩ : ∃ t : Temp, Names [target.elim (.drawn ty false) (.spelled · ty)] m [t] n' ∧
        x = .call t ty callee as := by
      cases target with
      | some name =>
        obtain ⟨t, _, ht, h⟩ := gives_bind.mp h
        obtain ⟨rfl, rfl⟩ := gives_pure.mp h
        exact ⟨t, names_of_temp ht, rfl⟩
      | none =>
        obtain ⟨t, _, ht, h⟩ := gives_bind.mp h
        obtain ⟨rfl, rfl⟩ := gives_pure.mp h
        obtain ⟨rfl, rfl⟩ := Prod.mk.inj (gives_modifyGet.mp ht)
        exact ⟨_, ⟨rfl, .refl _⟩, rfl⟩
    refine (hargs.append ht).perm (.trans (.of_eq ?_) List.perm_append_comm)
    simp [Instr.occurrences, Instr.readTemps_eq, Instr.reads, List.flatMap_map]

/-- Hints name nothing. -/
theorem counter_of_hints {ss : List SpelledHint} {hs : Hints} (h : Gives (hints ss) n hs n') : n' = n := by
  unfold hints at h
  generalize Hints.empty = first at h
  induction ss generalizing first n with
  | nil => exact (gives_pure.mp h).2.symm
  | cons s ss ih =>
    rw [List.foldlM_cons] at h
    obtain ⟨next, m, hs, h⟩ := gives_bind.mp h
    have hm : m = n := by
      split at hs
      · exact (gives_pure.mp hs).2.symm
      · split at hs
        · exact (gives_pure.mp hs).2.symm
        · exact absurd hs not_gives_throw
    exact (ih next h).trans hm

theorem counter_of_mapM_hints {ss : Option (List SpelledHint)} {hs : Option Hints}
    (h : Gives (ss.mapM hints) n hs n') : n' = n := by
  cases ss with
  | none => exact (gives_pure.mp h).2.symm
  | some ss =>
    obtain ⟨_, _, hhints, h⟩ := gives_bind.mp h
    exact (gives_pure.mp h).2.symm.trans (counter_of_hints hhints)

/-- So does a terminator. -/
theorem names_of_terminator? {read : Reading (Instr × Option Hints)}
    (hread : terminator? form = some read) {x : Instr} {hs : Option Hints}
    (h : Gives read n (x, hs) n') : Names form.namings n x.occurrences n' := by
  unfold terminator? at hread
  split at hread <;> cases hread
  · obtain ⟨c, _, hc, h⟩ := gives_bind.mp h
    obtain ⟨_, _, hhints, h⟩ := gives_bind.mp h
    obtain ⟨he, rfl⟩ := gives_pure.mp h
    cases he
    obtain rfl := counter_of_mapM_hints hhints
    refine (names_of_value hc).perm (.of_eq ?_)
    simp [Instr.occurrences, Instr.mentions, Instr.write, Instr.readTemps_eq, Instr.reads]
  · obtain ⟨_, _, hhints, h⟩ := gives_bind.mp h
    obtain ⟨he, rfl⟩ := gives_pure.mp h
    cases he
    obtain rfl := counter_of_mapM_hints hhints
    exact .nil
  · obtain ⟨he, rfl⟩ := gives_pure.mp h
    cases he
    exact .nil
  · obtain ⟨v, _, hv, h⟩ := gives_bind.mp h
    obtain ⟨he, rfl⟩ := gives_pure.mp h
    cases he
    refine ((names_of_value hv).append .nil).perm (.of_eq ?_)
    simp [Instr.occurrences, Instr.mentions, Instr.write, Instr.readTemps_eq, Instr.reads]

/-- And a phi. -/
theorem names_of_phi {target : String} {incoming : List (Spelled × String)} {p : Phi}
    (h : Gives (phi target ty incoming) n p n') :
    Names (Form.phi target ty incoming).namings n (Instr.phi p).occurrences n' := by
  obtain ⟨t, m, ht, h⟩ := gives_bind.mp h
  obtain ⟨entries, m', hentries, h⟩ := gives_bind.mp h
  obtain ⟨rfl, rfl⟩ := gives_pure.mp h
  have hincoming : Names (incoming.flatMap fun e => e.1.namings ty) m
      (entries.flatMap fun e => e.1.temp?.toList) m' := by
    refine Names.of_mapM (fun a n b n' hb => ?_) hentries
    obtain ⟨v, _, hv, hb⟩ := gives_bind.mp hb
    obtain ⟨rfl, rfl⟩ := gives_pure.mp hb
    exact names_of_value hv
  refine ((names_of_temp ht).append hincoming).perm (.of_eq ?_)
  simp [Instr.occurrences, Instr.mentions, Instr.write, Instr.readTemps_eq, Instr.reads, Phi.reads,
    Phi.ofTarget, List.flatMap_map]

/-- A line adds what it names to its block. -/
theorem names_of_addLine {b b' : Block} {l : Line} (h : Gives (addLine b l) n b' n') :
    ∃ ts, Names l.form.namings n ts n' ∧ b'.occurrences.Perm (b.occurrences ++ ts) := by
  unfold addLine at h
  dsimp only at h
  split at h
  · obtain ⟨_, _, h, -⟩ := gives_bind.mp h
    exact absurd h not_gives_throw
  rename_i hopen
  have hnone : b.jump = none := by simpa using hopen
  split at h
  · rename_i hform
    obtain ⟨p, _, hp, h⟩ := gives_bind.mp h
    obtain ⟨rfl, rfl⟩ := gives_pure.mp h
    rw [hform]
    refine ⟨_, names_of_phi hp, ?_⟩
    simp only [Block.occurrences, Block.code, hnone, List.map_append, List.map_cons, List.map_nil,
      List.flatMap_append, Option.toList_none, List.append_nil, List.append_assoc, List.flatMap_cons,
      List.flatMap_nil]
    exact List.perm_append_comm.append_left _
  · split at h
    · rename_i hread
      obtain ⟨⟨jump, hs⟩, _, hjump, h⟩ := gives_bind.mp h
      obtain ⟨rfl, rfl⟩ := gives_pure.mp h
      refine ⟨_, names_of_terminator? hread hjump, .of_eq ?_⟩
      simp [Block.occurrences, Block.code, hnone]
    · rename_i hread
      obtain ⟨x, _, hx, h⟩ := gives_bind.mp h
      split at h
      · obtain ⟨rfl, rfl⟩ := gives_pure.mp h
        refine ⟨_, names_of_plain? hread hx, .of_eq ?_⟩
        simp [Block.occurrences, Block.code, hnone]
      · exact absurd h not_gives_throw
    · -- every form is a phi, a terminator or plain
      rename_i hphi _ _ hterminator hplain
      cases hform : l.form with
      | phi target ty incoming => exact absurd hform (hphi target ty incoming)
      | ret value => cases value <;> simp [hform, terminator?] at hterminator
      | _ => simp [hform, terminator?, plain?] at hterminator hplain

theorem names_of_foldlM : ∀ {ls : List Line} {b b' : Block} {n n' : TempCounter},
    Gives (ls.foldlM addLine b) n b' n' →
      ∃ ts, Names (ls.flatMap fun l => l.form.namings) n ts n' ∧ b'.occurrences.Perm (b.occurrences ++ ts) := by
  intro ls
  induction ls with
  | nil =>
    intro b b' n n' h
    obtain ⟨rfl, rfl⟩ := gives_pure.mp h
    exact ⟨[], .nil, .of_eq (List.append_nil _).symm⟩
  | cons l ls ih =>
    intro b b' n n' h
    rw [List.foldlM_cons] at h
    obtain ⟨c, _, hl, h⟩ := gives_bind.mp h
    obtain ⟨ts, hts, hperm⟩ := names_of_addLine hl
    obtain ⟨ts', hts', hperm'⟩ := ih h
    refine ⟨ts ++ ts', hts.append hts', hperm'.trans ?_⟩
    rw [← List.append_assoc]
    exact hperm.append_right ts'

/-- The temporaries of a function that is not numbered yet. -/
def Draft.occurrences (d : Draft) : List Temp := d.params ++ d.blocks.flatMap fun e => e.2.occurrences

theorem names_of_draft {d : Definition} {r : Draft} (h : Gives (draft d) n r n') :
    Names d.namings n r.occurrences n' := by
  obtain ⟨params, m, hparams, h⟩ := gives_bind.mp h
  obtain ⟨blocks, m', hblocks, h⟩ := gives_bind.mp h
  obtain ⟨rfl, rfl⟩ := gives_pure.mp h
  have hfirst : Names (d.params.map fun p => .spelled p.2 p.1) n params m := by
    have hsingles : Names (d.params.flatMap fun p => [.spelled p.2 p.1]) n (params.flatMap fun t => [t]) m :=
      Names.of_mapM (fun a n b n' hb => names_of_temp hb) hparams
    simpa only [← List.map_eq_flatMap, List.map_id'] using hsingles
  refine hfirst.append (Names.of_mapM (fun s n e n' he => ?_) hblocks)
  obtain ⟨b, _, hb, he⟩ := gives_bind.mp he
  obtain ⟨rfl, rfl⟩ := gives_pure.mp he
  obtain ⟨ts, hts, hperm⟩ := names_of_foldlM hb
  exact hts.perm hperm

end Reading

/-! ### Programs -/

/-- Numbers and links have no part in the temporaries of a block. -/
theorem Block.occurrences_numbered : ∀ es : List (Int × Block),
    (Block.numbered es).flatMap Block.occurrences = es.flatMap fun e => e.2.occurrences := by
  intro es
  induction es with
  | nil => rfl
  | cons e es ih =>
    rw [numbered, List.flatMap_cons, List.flatMap_cons, ih]
    rfl

theorem Func.occurrences_resolveLinks (f : Func) : f.resolveLinks.1.occurrences = f.occurrences := by
  have hblocks : ∀ bs : List Block, bs.flatMap Block.occurrences =
      (bs.map Block.clearLinks).flatMap Block.occurrences := by
    intro bs
    rw [List.flatMap_map]
    rfl
  rw [Func.occurrences, Func.occurrences, params_resolveLinks, hblocks, hblocks f.blocks,
    map_clearLinks_resolveLinks]

theorem Func.occurrences_ofDraft {d : Reading.Draft} {f : Func} (h : Func.ofDraft d = .ok f) :
    f.occurrences = d.occurrences := by
  obtain ⟨es, hes, h⟩ := bind_eq_ok.mp h
  have hblocks : es.flatMap (fun e => e.2.occurrences) = d.blocks.flatMap fun e => e.2.occurrences := by
    have hcontent : d.blocks.map (·.2) = es.map (·.2) := by
      refine List.forall₂_eq_eq_eq ▸ List.forall₂_map_left_iff.mpr (List.forall₂_map_right_iff.mpr ?_)
      refine (mapM_eq_ok.mp hes).imp fun e e' he => ?_
      dsimp only at he
      split at he
      · cases he
        rfl
      · cases he
    simpa only [List.flatMap_map] using congrArg (List.flatMap Block.occurrences) hcontent.symm
  dsimp only at h
  split at h
  · rename_i hresolve
    cases h
    have := Func.occurrences_resolveLinks
      ⟨(Block.numbered es).foldl (fun n b => max n b.id) 0, Block.numbered es, d.name, d.retTy, d.params⟩
    rw [hresolve] at this
    rw [this, Func.occurrences, Block.occurrences_numbered, hblocks]
    rfl
  · cases h

namespace Program

variable {s : String} {defs : List Text.Definition} {p : Program}

/-- Reading a program comes past the namings of its text and brings the temporaries that they name. -/
theorem names_of_parse (hdefs : Text.definitions? s = some defs) (hp : Program.parse s = .ok p) :
    Reading.Names (defs.flatMap Text.Definition.namings) 0 (p.funcs.flatMap Func.occurrences) p.temps := by
  rw [Program.parse, Program.parseFrom, hdefs] at hp
  obtain ⟨drafts, hdrafts, hp⟩ := bind_eq_ok.mp hp
  obtain ⟨funcs, hfuncs, hp⟩ := bind_eq_ok.mp hp
  cases hp
  have hgives : Gives (defs.mapM Reading.draft) 0 drafts ((defs.mapM Reading.draft).run.run 0).2 :=
    Prod.ext hdrafts rfl
  have hnames := Reading.Names.of_mapM (fun d n r n' hd => Reading.names_of_draft hd) hgives
  have hfuncs : drafts.map Reading.Draft.occurrences = funcs.map Func.occurrences := by
    refine List.forall₂_eq_eq_eq ▸ List.forall₂_map_left_iff.mpr (List.forall₂_map_right_iff.mpr ?_)
    exact (mapM_eq_ok.mp hfuncs).imp fun d f hf => (Func.occurrences_ofDraft hf).symm
  rw [List.flatMap_def] at hnames
  rwa [List.flatMap_def (l := funcs), ← hfuncs]

/-- Whatever is named after a program was read: the program has the temporaries that its text spells and those
that were drawn meanwhile; what is drawn, while it is read or afterwards, is drawn once; a draw differs from
all that the text has spelled so far, and where numbers are spelled in time, from all that it spells. -/
theorem draws_of_parse (hdefs : Text.definitions? s = some defs) (hp : Program.parse s = .ok p)
    (later : List Naming) (hword : (Naming.counter p.temps later : Int) ≤ u32Max) :
    let namings := defs.flatMap Text.Definition.namings
    (p.funcs.flatMap Func.occurrences).Perm (Naming.draws 0 namings ++ Naming.spellings namings) ∧
    (Naming.draws 0 namings ++ Naming.draws p.temps later).Nodup ∧
    (∀ t ∈ Naming.draws p.temps later, t ∉ Naming.spellings namings) ∧
    (∀ before after, namings = before ++ after →
      ∀ t ∈ Naming.draws (Naming.counter 0 before) after, t ∉ Naming.spellings before) ∧
    (Naming.Timely 0 namings → ∀ t ∈ Naming.draws 0 namings, t ∉ Naming.spellings namings) := by
  intro namings
  obtain ⟨hcounter, hperm⟩ := names_of_parse hdefs hp
  have hmax : (Naming.counter 0 namings : Int) ≤ u32Max :=
    Int.le_trans (Int.ofNat_le.mpr (hcounter ▸ Naming.le_counter)) hword
  rw [hcounter] at hword ⊢
  refine ⟨hperm.trans Naming.perm_temps, ?_, ?_, ?_, ?_⟩
  · rw [← Naming.draws_append]
    exact Naming.nodup_draws
  · refine fun t => Naming.not_mem_spellings_of_draw ?_
    rwa [Naming.counter_append]
  · intro before after hsplit t
    refine Naming.not_mem_spellings_of_draw ?_
    rwa [← hsplit]
  · exact fun htimely t => Naming.not_mem_spellings_of_timely htimely hmax

/-- A program and the parts of its text, where a check of both holds. -/
theorem exists_definitions_of_chars {cs : List Char} {P : List Text.Definition → Program → Bool}
    (hs : s.toList = cs) (h : (((Text.program ⟨cs, 1, 1⟩).map (·.1)).any fun defs =>
      (Program.ofDefinitions defs 0).toOption.any (P defs)) = true) :
    ∃ defs p, Text.definitions? s = some defs ∧ Program.parse s = .ok p ∧ P defs p = true := by
  subst hs
  obtain ⟨defs, hdefs, h⟩ := (Option.any_eq_true _ _).mp h
  obtain ⟨p, hp, hcheck⟩ := exists_of_any h
  exact ⟨defs, p, hdefs, (parse_eq s).trans (hdefs ▸ hp), hcheck⟩

end Program

/-- A function that draws the second of three numbers. -/
def counting : String :=
  "define i32 @f(i32 %1) \x7b\nentry:\n  call i32 @g(i32 %1)\n  %3 = add i32 %1, 1\n  ret i32 %3\n\x7d\n"

set_option maxRecDepth 100000 in
/-- The number that follows is spelled behind the draw; three more temporaries are named afterwards. -/
theorem Program.draws_of_counting : ∃ defs p, Text.definitions? counting = some defs ∧
    Program.parse counting = .ok p ∧
    let namings := defs.flatMap Text.Definition.namings
    let later : List Naming := [.drawn .i32 false, .spelled "9" .i32, .drawn .f32 true]
    Naming.draws 0 namings = [.ofLocal "2" .i32] ∧
    Naming.draws p.temps later = [.ofLocal "4" .i32, ⟨"10", true, .f32⟩] ∧
    (p.funcs.flatMap Func.occurrences).Perm (Naming.draws 0 namings ++ Naming.spellings namings) ∧
    (Naming.draws 0 namings ++ Naming.draws p.temps later).Nodup ∧
    (∀ t ∈ Naming.draws p.temps later, t ∉ Naming.spellings namings) ∧
    ∀ t ∈ Naming.draws 0 namings, t ∉ Naming.spellings namings := by
  let later : List Naming := [.drawn .i32 false, .spelled "9" .i32, .drawn .f32 true]
  obtain ⟨defs, p, hdefs, hp, h⟩ := Program.exists_definitions_of_chars (s := counting)
    (P := fun defs p => let namings := defs.flatMap Text.Definition.namings
      Naming.draws 0 namings == [.ofLocal "2" .i32] &&
      Naming.draws p.temps later == [.ofLocal "4" .i32, ⟨"10", true, .f32⟩] &&
      decide (Naming.Timely 0 namings) && decide ((Naming.counter p.temps later : Int) ≤ u32Max))
    (by
      unfold counting
      exact String.toList_ofList) (by decide +kernel)
  simp only [Bool.and_eq_true, beq_iff_eq, decide_eq_true_eq] at h
  obtain ⟨⟨⟨hdraws, hlater⟩, htimely⟩, hword⟩ := h
  obtain ⟨hperm, hnodup, hafter, -, htext⟩ := Program.draws_of_parse hdefs hp later hword
  exact ⟨defs, p, hdefs, hp, hdraws, hlater, hperm, hnodup, hafter, htext htimely⟩

/-- A function that draws a number and spells it afterwards. -/
def calling : String :=
  "define i32 @g() \x7b\nentry:\n  ret i32 5\n\x7d\n" ++
  "define i32 @f() \x7b\nentry:\n  call i32 @g()\n  %1 = add i32 1, 2\n  ret i32 %1\n\x7d\n"

set_option maxRecDepth 100000 in
/-- The temporary that the call draws is the one that the next line defines, so that the function defines it
twice. -/
theorem Program.collides_of_calling : ∃ defs p f, Text.definitions? calling = some defs ∧
    Program.parse calling = .ok p ∧ p.func? "f" = some f ∧
    Temp.ofLocal "1" .i32 ∈ Naming.draws 0 (defs.flatMap Text.Definition.namings) ∧
    Temp.ofLocal "1" .i32 ∈ Naming.spellings (defs.flatMap Text.Definition.namings) ∧
    f.verify = .error (.definedTwice (.ofLocal "1" .i32)) := by
  obtain ⟨defs, p, hdefs, hp, h⟩ := Program.exists_definitions_of_chars (s := calling)
    (P := fun defs p => let namings := defs.flatMap Text.Definition.namings
      (Naming.draws 0 namings).contains (.ofLocal "1" .i32) &&
      (Naming.spellings namings).contains (.ofLocal "1" .i32) &&
      (p.func? "f").any fun f => failure? f.verify == some (.definedTwice (.ofLocal "1" .i32)))
    (by
      unfold calling
      repeat apply toList_append_of String.toList_ofList
      exact String.toList_ofList) (by decide +kernel)
  simp only [Bool.and_eq_true, Option.any_eq_true, List.contains_iff_mem, beq_iff_eq, failure?_eq_some] at h
  obtain ⟨⟨hdrawn, hspelled⟩, f, hfunc, hverify⟩ := h
  exact ⟨defs, p, f, hdefs, hp, hfunc, hdrawn, hspelled, hverify⟩

end LoopLanes
