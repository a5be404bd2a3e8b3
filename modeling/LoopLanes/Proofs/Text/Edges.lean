/-
Phis, hints and terminators as they are written.

What is said of instructions in `LoopLanes.Proofs.Text.Lines` is said here of the lines that concern
the edges between blocks.  Behind a terminator the hints of a loop may stand, set off by a comma; so
what follows a block must not start with one.

* `Phi.reads_text` — phis;
* `Instr.reads_exitText` — terminators with their hints.
-/
import LoopLanes.Proofs.Basic.Tables
import LoopLanes.Proofs.Text.Lines

namespace LoopLanes

open Text

attribute [local simp] Instr.text

/-- A phi that program text can spell. -/
structure Phi.Readable (p : Phi) : Prop where
  target : p.target.isGlobal = false ∧ IsName p.target.name
  incoming : p.incoming ≠ []
  entries : ∀ e ∈ p.incoming, e.1.Readable ∧ e.1.Fits p.ty ∧ IsName e.2.name

/-- A key of a hint. -/
def Text.IsKey (k : String) : Prop :=
  ∃ c cs, k.toList = c :: cs ∧ isLetter c = true ∧ ∀ d ∈ cs, isNameChar d = true

/-- Hints that program text can spell. -/
structure Hints.Readable (h : Hints) : Prop where
  nodup : (h.entries.map (·.1)).Nodup
  keys : ∀ e ∈ h.entries, IsKey e.1
  values : ∀ e ∈ h.entries, ∀ n ∈ e.2, i64Min ≤ n ∧ n ≤ i64Max

/-- A terminator that program text can spell, with the hints behind it. -/
def Instr.ReadableExit (hs : Option Hints) : Instr → Prop
  | .jump l => IsName l.name ∧ ∀ h ∈ hs, h.Readable
  | .branch ty c l m =>
    c.Readable ∧ c.Fits ty ∧ IsName l.name ∧ IsName m.name ∧ ∀ h ∈ hs, h.Readable
  | .ret none => hs = none
  | .ret (some v) => v.Readable ∧ v.ty ≠ .void ∧ hs = none
  | _ => False

/-- A terminator as written, with the hints behind it. -/
def Instr.exitText (x : Instr) (hs : Option Hints) : String :=
  x.text ++ hs.elim "" fun h => ", " ++ h.text

/-- A line that adds a phi with the text of this one. -/
def Phi.Adds (p : Phi) (l : Line) : Prop :=
  ∀ b n, b.jump = none → ∃ q n', q.text = p.text ∧
    Gives (Reading.addLine b l) n { b with phis := b.phis ++ [q] } n'

/-- A line that adds this terminator with these hints. -/
def Instr.Closes (x : Instr) (hs : Option Hints) (l : Line) : Prop :=
  ∀ b n, b.jump = none → ∃ n',
    Gives (Reading.addLine b l) n { b with jump := some x, hints := hs } n'

theorem Instr.closes_of_terminator {x : Instr} {hs : Option Hints} {form : Form}
    {read : Reading (Instr × Option Hints)} (hread : Reading.terminator? form = some read)
    (h : ∀ n, ∃ n', Gives read n (x, hs) n') (pos : Position) : x.Closes hs ⟨pos, form⟩ := by
  intro b n hb
  obtain ⟨n', hx⟩ := h n
  refine ⟨n', ?_⟩
  have hadd : Reading.addLine b ⟨pos, form⟩ =
      read >>= fun e => pure { b with jump := some e.1, hints := e.2 } := by
    unfold Reading.terminator? at hread
    split at hread <;> cases hread <;>
      simp only [Reading.addLine, hb, Option.isSome_none, Bool.false_eq_true, if_false,
        Reading.terminator?]
  rw [hadd]
  exact gives_bind.mpr ⟨(x, hs), n', hx, gives_pure.mpr ⟨rfl, rfl⟩⟩


namespace Text

variable {cs mid rest : List Char} {n : String} {ty : Ty}

/-! ### Phis -/

theorem starts_phiEntry (e : Value × Label) : Starts (s!"[{e.1.text}, %{e.2.name}]").toList :=
  ⟨'[', by simp [toString], by decide⟩

theorem reads_phiEntry {e : Value × Label} (hv : e.1.Readable) (hl : IsName e.2.name)
    (rest : List Char) :
    Reads phiEntry (fun p => e.1.Means p.1 ∧ p.2 = e.2.name)
      ((s!"[{e.1.text}, %{e.2.name}]").toList ++ rest) rest := by
  have htext : (s!"[{e.1.text}, %{e.2.name}]").toList ++ rest =
      '[' :: (e.1.text.toList ++ ',' :: ' ' :: ('%' :: e.2.name.toList ++ ']' :: rest)) := by
    simp [toString]
  rw [htext]
  refine (reads_word "[" _).bind fun _ _ => ?_
  refine (reads_skip_nil ((Value.starts_text hv).solid _)).bind fun _ _ => ?_
  refine (Value.reads_text hv (stops_cons rfl _)).bind fun s hs => ?_
  refine (reads_comma (solid_cons (by decide) _)).bind fun _ _ => ?_
  refine (reads_localName hl (stops_cons rfl _)).bind_eq ?_
  refine (reads_skip_nil (solid_cons (by decide) _)).bind fun _ _ => ?_
  refine (reads_word "]" _).bind fun _ _ => (reads_pure _ _).mono ?_
  rintro _ rfl
  exact ⟨hs, rfl⟩

end Text

/-- Phis are read back from their text. -/
theorem Phi.reads_text {p : Phi} (h : p.Readable) {rest : List Char} (hrest : NoComma rest) :
    Reads line p.Adds (p.text.toList ++ rest) rest := by
  obtain ⟨ht, hn⟩ := h.target
  have e : p.text.toList ++ rest = '%' :: p.target.name.toList ++ ' ' :: '=' :: ' ' ::
      ("phi".toList ++ ' ' :: (p.ty.text.toList ++ ' ' :: ((", ".intercalate
        (p.incoming.map fun e => s!"[{e.1.text}, %{e.2.name}]")).toList ++ rest))) := by
    simp [Phi.text, Temp.text, ht, toString]
  have hsolid (cs : List Char) : Solid ("phi".toList ++ cs) := solid_cons (by decide) _
  have hentries : Solid ((", ".intercalate
      (p.incoming.map fun e => s!"[{e.1.text}, %{e.2.name}]")).toList ++ rest) := by
    obtain ⟨e, es, hes⟩ := List.exists_cons_of_ne_nil h.incoming
    rw [hes, List.map_cons, toList_intercalate_cons, List.append_assoc]
    exact (starts_phiEntry e).solid _
  rw [e]
  refine Reads.line (Reads.orElse ?_ _)
  refine (reads_assigned hn (hsolid _)).bind_eq ((reads_word "phi" _).bind fun _ _ => ?_)
  refine (reads_skip_blank ((starts_type p.ty).solid _)).bind fun _ _ => ?_
  refine (reads_type p.ty (by simp)).bind_eq ((reads_skip_blank hentries).bind fun _ _ => ?_)
  refine (reads_commaSeparated h.incoming hrest fun e he => ⟨starts_phiEntry e, fun t _ =>
    reads_phiEntry (h.entries e he).1 (h.entries e he).2.2 t⟩).bind fun es hes => ?_
  refine (reads_pure _ _).mono ?_
  rintro _ rfl pos b m hb
  have hincoming : ∀ m, ∃ m', Gives (es.mapM fun e =>
      return (← Reading.value p.ty e.1, (⟨e.2⟩ : Label)) : Reading _) m p.incoming m' := by
    have hfits : ∀ e ∈ p.incoming, e.1.Fits p.ty := fun e he => (h.entries e he).2.1
    refine exists_gives_mapM_eq
      (((List.forall₂_and_left p.incoming es).mpr ⟨hfits, hes⟩).imp ?_)
    rintro ⟨v, l⟩ ⟨s, _⟩ ⟨hv, hs, rfl⟩ m
    obtain ⟨m', hm⟩ := hs _ m hv
    exact ⟨m', gives_bind.mpr ⟨v, m', hm, gives_pure.mpr ⟨rfl, rfl⟩⟩⟩
  obtain ⟨m', hm⟩ := hincoming (m.reserve p.target.name)
  refine ⟨.ofTarget (.ofLocal p.target.name p.ty) p.incoming, m', ?_, ?_⟩
  · simp [Phi.text, Phi.ofTarget, Temp.text, Temp.ofLocal, ht]
  · simp only [Reading.addLine, hb, Option.isSome_none, Bool.false_eq_true, if_false]
    refine gives_bind.mpr ⟨_, m', ?_, gives_pure.mpr ⟨rfl, rfl⟩⟩
    exact gives_bind.mpr ⟨_, _, Reading.gives_temp _ _ _,
      gives_bind.mpr ⟨_, _, hm, gives_pure.mpr ⟨rfl, rfl⟩⟩⟩

/-! ### Hints -/

namespace Text

variable {rest : List Char}

/-- A hint as read. -/
def HintMeans (e : String × Option Int) (s : SpelledHint) : Prop :=
  s.key = e.1 ∧ s.value.map (fun v => readInteger i64Min i64Max v.2) = e.2.map .ok

theorem IsKey.starts {k : String} (h : IsKey k) : Starts k.toList := by
  obtain ⟨c, cs, hcs, hc, -⟩ := h
  rw [hcs]
  exact starts_of_isNameChar (by simp [isNameChar, hc]) cs

theorem reads_hint {e : String × Option Int} (hk : IsKey e.1)
    (hv : ∀ n ∈ e.2, i64Min ≤ n ∧ n ≤ i64Max) (hrest : rest.head? = some ',' ∨ rest.head? = some '\x7d') :
    Reads hint (HintMeans e) ((Hints.entryText e).toList ++ rest) rest := by
  obtain ⟨k, v⟩ := e
  obtain ⟨c, cs, hcs, hc, hname⟩ := hk
  obtain rfl : k = String.ofList (c :: cs) := by rw [← hcs, String.ofList_toList]
  obtain ⟨d, ds, rfl, hd⟩ : ∃ d ds, rest = d :: ds ∧ (d = ',' ∨ d = '\x7d') := by
    cases rest with
    | nil => simp at hrest
    | cons d ds => exact ⟨d, ds, rfl, by simpa using hrest⟩
  have hstops : Stops isNameChar (d :: ds) := by
    refine stops_cons ?_ _
    rcases hd with rfl | rfl <;> rfl
  have hsolid : Solid (d :: ds) := by
    refine solid_cons ?_ _
    rcases hd with rfl | rfl <;> decide
  cases v with
  | none =>
    have htext : (Hints.entryText (String.ofList (c :: cs), none)).toList ++ d :: ds =
        c :: (cs ++ d :: ds) := by
      simp [Hints.entryText]
    have hword : "=".toList.isPrefixOf (d :: ds) = false := by
      rcases hd with rfl | rfl <;> rfl
    rw [htext]
    refine (reads_charIf hc _).bind_eq ((reads_charsWhile hname hstops).bind_eq ?_)
    refine ((reads_skip_nil hsolid).bind_fails fun _ _ => (fails_word hword).bind _).option.bind_eq ?_
    exact (reads_pure _ _).mono fun _ e => e ▸ ⟨rfl, rfl⟩
  | some n =>
    obtain ⟨sign, digits, hsigned, hdigits⟩ := isSigned_toString n
    have htext : (Hints.entryText (String.ofList (c :: cs), some n)).toList ++ d :: ds =
        c :: (cs ++ ' ' :: '=' :: ' ' :: (sign ++ digits ++ d :: ds)) := by
      simp [Hints.entryText, ← hdigits, toString]
    obtain ⟨hlo, hhi⟩ := hv n rfl
    have hread : readInteger i64Min i64Max (sign ++ digits) = .ok n :=
      hdigits ▸ readInteger_toString (by decide) hlo hhi
    rw [htext]
    refine (reads_charIf hc _).bind_eq ((reads_charsWhile hname (stops_cons rfl _)).bind_eq ?_)
    have hvalue : Reads (do skip; word "="; skip; let pos ← here; return (pos, ← integer))
        (fun p => p.2 = sign ++ digits) (' ' :: '=' :: ' ' :: (sign ++ digits ++ d :: ds)) (d :: ds) := by
      refine (reads_skip_blank (solid_cons (by decide) _)).bind fun _ _ => ?_
      refine (reads_word "=" _).bind fun _ _ => ?_
      refine (reads_skip_blank (hsigned.starts.solid _)).bind fun _ _ => (reads_here _).bind fun pos _ => ?_
      exact (reads_integer hsigned hstops.digit).bind_eq ((reads_pure _ _).mono fun _ e => e ▸ rfl)
    refine hvalue.option.bind ?_
    rintro _ ⟨⟨pos, _⟩, rfl, rfl⟩
    refine (reads_pure _ _).mono fun _ e => e ▸ ⟨rfl, ?_⟩
    exact congrArg some hread

theorem reads_loopHints {h : Hints} (hh : h.Readable) (rest : List Char) :
    Reads loopHints (List.Forall₂ HintMeans h.entries) ((", " ++ h.text).toList ++ rest) rest := by
  have htext : (", " ++ h.text).toList ++ rest = ',' :: ' ' :: ("!loop".toList ++ ' ' :: '\x7b' ::
      ((", ".intercalate (h.entries.map Hints.entryText)).toList ++ '\x7d' :: rest)) := by
    simp [Hints.text]
  have hstarts : ∀ e ∈ h.entries, Starts (Hints.entryText e).toList := by
    rintro ⟨k, v⟩ he
    cases v with
    | none => exact (hh.keys _ he).starts
    | some n =>
      have e : (Hints.entryText (k, some n)).toList = k.toList ++ (" = ".toList ++ (toString n).toList) := by
        simp [Hints.entryText, toString]
      rw [e]
      exact (hh.keys _ he).starts.append _
  have hsolid : Solid ((", ".intercalate (h.entries.map Hints.entryText)).toList ++ '\x7d' :: rest) := by
    cases hes : h.entries with
    | nil => exact solid_cons (by decide) _
    | cons e es =>
      rw [List.map_cons, toList_intercalate_cons, List.append_assoc]
      exact (hstarts e (hes ▸ List.mem_cons_self)).solid _
  rw [htext]
  refine (reads_word "," _).bind fun _ _ => (reads_skip_blank (solid_cons (by decide) _)).bind fun _ _ => ?_
  refine (reads_word "!loop" _).bind fun _ _ => ?_
  refine (reads_skip_blank (solid_cons (by decide) _)).bind fun _ _ => ?_
  refine (reads_word "\x7b" _).bind fun _ _ => (reads_skip_nil hsolid).bind fun _ _ => ?_
  refine reads_enclosed (by decide) (fun _ _ => rfl) (fun e he => ⟨hstarts e he, fun t ht => ?_⟩) rfl
  refine reads_hint (hh.keys e he) (hh.values e he) ?_
  rcases ht with ht | rfl
  · exact .inl ht
  · exact .inr rfl

/-- Hints with different keys are read one by one. -/
theorem gives_hints {es : List (String × Option Int)} {ss : List SpelledHint}
    (h : List.Forall₂ HintMeans es ss) (hnodup : (es.map (·.1)).Nodup) (n : TempCounter) :
    Gives (Reading.hints ss) n ⟨es⟩ n := by
  have hbefore : ∀ e ∈ es, e.1 ∉ ([] : List (String × Option Int)).map (·.1) :=
    fun _ _ => List.not_mem_nil
  unfold Reading.hints Hints.empty
  rw [← List.nil_append es]
  -- the hints that were read before have other keys
  generalize ([] : List (String × Option Int)) = before at hbefore
  induction h generalizing before with
  | nil => exact gives_pure.mpr ⟨by rw [List.append_nil], rfl⟩
  | @cons e s es ss hes _ ih =>
    obtain ⟨hfirst, hothers⟩ := List.nodup_cons.mp hnodup
    obtain ⟨he, hnew⟩ := List.forall_mem_cons.mp hbefore
    obtain ⟨k, v⟩ := e
    obtain ⟨key, value⟩ := s
    obtain ⟨rfl, hv⟩ := hes
    have hset : (⟨before⟩ : Hints).set key v = ⟨before ++ [(key, v)]⟩ := by
      rw [Hints.set, setEntry_of_notMem he]
    have hrest := ih hothers (before ++ [(key, v)]) fun e' he' hmem => by
      rw [List.map_append, List.mem_append] at hmem
      rcases hmem with hmem | hmem
      · exact hnew e' he' hmem
      · exact hfirst (List.mem_map.mpr ⟨e', he', by simpa using hmem⟩)
    rw [List.append_assoc] at hrest
    rw [List.foldlM_cons]
    refine gives_bind.mpr ⟨_, n, ?_, hrest⟩
    cases value with
    | none =>
      obtain rfl : v = none := by simpa using hv.symm
      exact gives_pure.mpr ⟨hset, rfl⟩
    | some p =>
      cases v with
      | none => cases hv
      | some m =>
        simp only [Option.map_some, Option.some.injEq] at hv
        simp only [hv]
        exact gives_pure.mpr ⟨hset, rfl⟩

/-- The hints behind a terminator, or none. -/
theorem reads_hints {hs : Option Hints} (h : ∀ x ∈ hs, x.Readable) (hrest : NoComma rest) :
    Reads (option do skip; loopHints) (fun o => ∀ n, Gives (o.mapM Reading.hints) n hs n)
      ((hs.elim "" fun h => ", " ++ h.text).toList ++ rest) rest := by
  cases hs with
  | none =>
    refine (hrest.fails _).option.mono ?_
    rintro _ rfl n
    exact gives_pure.mpr ⟨rfl, rfl⟩
  | some x =>
    have hsolid : Solid ((", " ++ x.text).toList ++ rest) := by
      rw [String.toList_append]
      exact solid_cons (by decide) _
    refine ((reads_skip_nil hsolid).bind fun _ _ => reads_loopHints (h x rfl) rest).option.mono ?_
    rintro _ ⟨ss, rfl, hss⟩ n
    exact gives_bind.mpr ⟨_, n, gives_hints hss (h x rfl).nodup n, gives_pure.mpr ⟨rfl, rfl⟩⟩

end Text

/-! ### Terminators -/

namespace Text

variable {cs rest : List Char} {hs : Option Hints}

/-- The forms that come before those of terminators. -/
theorem Reads.exit (h : cs.head? = some 'b' ∨ cs.head? = some 'r') {P : Form → Prop}
    (hread : Reads (branch <|> jump <|> ret) P cs rest) :
    Reads (phi <|> select <|> arith <|> comp <|> load <|> gep <|> call <|> store
      <|> branch <|> jump <|> ret) P cs rest := by
  obtain ⟨c, cs, rfl, hc⟩ : ∃ c cs', cs = c :: cs' ∧ (c = 'b' ∨ c = 'r') := by
    cases cs with
    | nil => simp at h
    | cons c cs => exact ⟨c, cs, rfl, by simpa using h⟩
  have hname : (c :: cs).head? ≠ some '%' := by
    rcases hc with rfl | rfl <;> simp
  have hcall : "call".toList.isPrefixOf (c :: cs) = false := by
    rcases hc with rfl | rfl <;> rfl
  have hstore : "store".toList.isPrefixOf (c :: cs) = false := by
    rcases hc with rfl | rfl <;> rfl
  exact Reads.unnamed hname ((fails_call hname hcall).orElse ((Fails.bind (fails_word hstore) _).orElse hread))

theorem reads_jumpTarget {l : Label} (h : IsName l.name) (hrest : Stops isNameChar rest) :
    Reads jumpTarget (· = l.name) ("label".toList ++ ' ' :: ('%' :: l.name.toList ++ rest)) rest :=
  (reads_word "label" _).bind fun _ _ => (reads_skip_blank (solid_cons (by decide) _)).bind fun _ _ =>
    reads_localName h hrest

/-- A target may have hints behind it. -/
theorem stops_hints (hrest : Stops isNameChar rest) :
    Stops isNameChar ((hs.elim "" fun h => ", " ++ h.text).toList ++ rest) := by
  cases hs with
  | none => exact hrest
  | some h =>
    rw [Option.elim_some, String.toList_append]
    exact stops_cons rfl _

theorem reads_jump {l : Label} (h : (Instr.jump l).ReadableExit hs) (hstops : Stops isNameChar rest)
    (hrest : NoComma rest) :
    Reads line ((Instr.jump l).Closes hs) (((Instr.jump l).exitText hs).toList ++ rest) rest := by
  obtain ⟨hl, hhs⟩ := h
  have e : ((Instr.jump l).exitText hs).toList ++ rest = "br".toList ++ ' ' :: ("label".toList ++
      ' ' :: ('%' :: l.name.toList ++ ((hs.elim "" fun h => ", " ++ h.text).toList ++ rest))) := by
    simp [Instr.exitText, toString]
  have hbranch : Fails branch ("br".toList ++ ' ' :: ("label".toList ++
      ' ' :: ('%' :: l.name.toList ++ ((hs.elim "" fun h => ", " ++ h.text).toList ++ rest)))) :=
    (reads_word "br" _).bind_fails fun _ _ =>
      (reads_skip_blank (solid_cons (by decide) _)).bind_fails fun _ _ =>
        Fails.bind (Fails.bind (Fails.bind (fun _ _ => rfl) _) _) _
  rw [e]
  refine Reads.line (Reads.exit (.inl rfl) (hbranch.orElse (Reads.orElse ?_ _)))
  refine (reads_word "br" _).bind fun _ _ => ?_
  refine (reads_skip_blank (solid_cons (by decide) _)).bind fun _ _ => ?_
  refine (reads_jumpTarget hl (stops_hints hstops)).bind_eq ?_
  refine (reads_hints hhs hrest).bind fun o ho => (reads_pure _ _).mono ?_
  rintro _ rfl pos
  exact Instr.closes_of_terminator rfl (fun n => ⟨n, gives_bind.mpr
    ⟨_, _, ho n, gives_pure.mpr ⟨rfl, rfl⟩⟩⟩) pos

theorem reads_branch {ty : Ty} {c : Value} {l m : Label} (h : (Instr.branch ty c l m).ReadableExit hs)
    (hstops : Stops isNameChar rest) (hrest : NoComma rest) :
    Reads line ((Instr.branch ty c l m).Closes hs)
      (((Instr.branch ty c l m).exitText hs).toList ++ rest) rest := by
  obtain ⟨hc, hfits, hl, hm, hhs⟩ := h
  have e : ((Instr.branch ty c l m).exitText hs).toList ++ rest = "br".toList ++ ' ' ::
      (ty.text.toList ++ ' ' :: (c.text.toList ++ ',' :: ' ' :: ("label".toList ++ ' ' ::
        ('%' :: l.name.toList ++ ',' :: ' ' :: ("label".toList ++ ' ' :: ('%' :: m.name.toList ++
          ((hs.elim "" fun h => ", " ++ h.text).toList ++ rest))))))) := by
    simp [Instr.exitText, toString]
  rw [e]
  refine Reads.line (Reads.exit (.inl rfl) (Reads.orElse ?_ _))
  refine (reads_word "br" _).bind fun _ _ => ?_
  refine (reads_skip_blank ((starts_type ty).solid _)).bind fun _ _ => ?_
  refine (reads_typed hc (stops_cons rfl _)).bind ?_
  rintro ⟨_, s⟩ ⟨rfl, hs⟩
  refine (reads_comma (solid_cons (by decide) _)).bind fun _ _ => ?_
  refine (reads_jumpTarget hl (stops_cons rfl _)).bind_eq ?_
  refine (reads_comma (solid_cons (by decide) _)).bind fun _ _ => ?_
  refine (reads_jumpTarget hm (stops_hints hstops)).bind_eq ?_
  refine (reads_hints hhs hrest).bind fun o ho => (reads_pure _ _).mono ?_
  rintro _ rfl pos
  refine Instr.closes_of_terminator rfl (fun n => ?_) pos
  obtain ⟨n', hn⟩ := hs _ n hfits
  exact ⟨n', gives_bind.mpr ⟨_, _, hn, gives_bind.mpr ⟨_, _, ho n', gives_pure.mpr ⟨rfl, rfl⟩⟩⟩⟩

theorem reads_ret {o : Option Value} (h : (Instr.ret o).ReadableExit hs)
    (hstops : Stops isNameChar rest) :
    Reads line ((Instr.ret o).Closes hs) (((Instr.ret o).exitText hs).toList ++ rest) rest := by
  cases o with
  | none =>
    obtain rfl : hs = none := h
    have e : ((Instr.ret none).exitText none).toList ++ rest = "ret".toList ++ ' ' ::
        ("void".toList ++ rest) := by
      simp [Instr.exitText]
    rw [e]
    refine Reads.line (Reads.exit (.inr rfl) ?_)
    refine Fails.orElse (Fails.bind (fails_word rfl) _) (Fails.orElse (Fails.bind (fails_word rfl) _) ?_)
    refine (reads_word "ret" _).bind fun _ _ => ?_
    refine (reads_skip_blank (solid_cons (by decide) _)).bind fun _ _ => Reads.orElse ?_ _
    refine (reads_word "void" _).bind fun _ _ => (reads_pure _ _).mono ?_
    rintro _ rfl pos
    exact Instr.closes_of_terminator rfl (fun n => ⟨n, gives_pure.mpr ⟨rfl, rfl⟩⟩) pos
  | some v =>
    obtain ⟨hv, hty, rfl⟩ := h
    have e : ((Instr.ret (some v)).exitText none).toList ++ rest = "ret".toList ++ ' ' ::
        (v.ty.text.toList ++ ' ' :: (v.text.toList ++ rest)) := by
      simp [Instr.exitText, toString]
    have hvoid : "void".toList.isPrefixOf (v.ty.text.toList ++ ' ' :: (v.text.toList ++ rest)) = false := by
      generalize v.ty = ty at hty
      cases ty <;> first | rfl | exact absurd rfl hty
    rw [e]
    refine Reads.line (Reads.exit (.inr rfl) ?_)
    refine Fails.orElse (Fails.bind (fails_word rfl) _) (Fails.orElse (Fails.bind (fails_word rfl) _) ?_)
    refine (reads_word "ret" _).bind fun _ _ => ?_
    refine (reads_skip_blank ((starts_type _).solid _)).bind fun _ _ => ?_
    refine Fails.orElse (Fails.bind (fails_word hvoid) _) ((reads_typed hv hstops).bind ?_)
    rintro ⟨_, s⟩ ⟨rfl, hs⟩
    refine (reads_pure _ _).mono ?_
    rintro _ rfl pos
    refine Instr.closes_of_terminator rfl (fun n => ?_) pos
    obtain ⟨n', hn⟩ := hs _ n v.fits_ty
    exact ⟨n', gives_bind.mpr ⟨_, _, hn, gives_pure.mpr ⟨rfl, rfl⟩⟩⟩

end Text

/-- Terminators are read back from their text, with the hints behind them. -/
theorem Instr.reads_exitText {x : Instr} {hs : Option Hints} (h : x.ReadableExit hs)
    {rest : List Char} (hstops : Stops isNameChar rest) (hrest : NoComma rest) :
    Reads line (x.Closes hs) ((x.exitText hs).toList ++ rest) rest := by
  cases x with
  | jump => exact reads_jump h hstops hrest
  | branch => exact reads_branch h hstops hrest
  | ret => exact reads_ret h hstops
  | arith | comp | select | phi | store | load | gep | call | vec | ladder | buildVec | reduce =>
    exact h.elim

end LoopLanes
