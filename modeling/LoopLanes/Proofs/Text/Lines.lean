/-
Instructions as they are written.

Forms are tried in a fixed order, and the text of an instruction fits only one of them: after a name
and its sign stands the word of the form, without a name the line starts with that word.  What comes
of the line that is read is said by `Instr.Adds`: added to a block without a terminator, it leaves an
instruction of the same text.

* `Instr.reads_text` — the lines between phis and terminator.
-/
import LoopLanes.Proofs.Text.Tokens

namespace LoopLanes

open Text

attribute [local simp] Instr.text

/-- An instruction between phis and terminator that program text can spell. -/
structure Instr.Readable (x : Instr) : Prop where
  scalar : x.isScalar = true
  wellTyped : x.wellTyped = true
  write : ∀ t ∈ x.write, t.isGlobal = false ∧ IsName t.name
  reads : ∀ v ∈ x.reads, v.Readable
  callee : ∀ t ty f args, x = .call t ty f args → IsName f

namespace Text

variable {cs mid rest : List Char} {n : String} {t : Temp} {ty : Ty} {v a b : Value} {α : Type}

/-! ### Parts of lines -/

theorem solid_cons {c : Char} (h : Cursor.isBlank c = false ∧ c ≠ ';') (cs : List Char) :
    Solid (c :: cs) := by
  rintro _ ⟨⟩
  exact h

theorem solid_nil : Solid [] := by
  rintro _ ⟨⟩

theorem stops_cons {p : Char → Bool} {c : Char} (h : p c = false) (cs : List Char) : Stops p (c :: cs) := by
  rintro _ ⟨⟩
  exact h

theorem reads_comma (h : Solid rest) : Reads comma (fun _ => True) (',' :: ' ' :: rest) rest :=
  (reads_skip_nil (solid_cons (by decide) _)).bind fun _ _ =>
    (reads_word "," _).bind fun _ _ => reads_skip_blank h

/-- The name that a line defines. -/
theorem reads_assigned (hn : IsName n) (h : Solid mid) :
    Reads assigned (· = n) ('%' :: n.toList ++ ' ' :: '=' :: ' ' :: mid) mid :=
  (reads_localName hn (stops_cons rfl _)).bind_eq <|
    (reads_skip_blank (solid_cons (by decide) _)).bind fun _ _ =>
      (reads_word "=" _).bind fun _ _ => (reads_skip_blank h).bind fun _ _ => reads_pure _ _

theorem fails_assigned (h : cs.head? ≠ some '%') : Fails assigned cs := by
  refine Fails.bind (Fails.bind (fails_word ?_) _) _
  cases cs with
  | nil => rfl
  | cons c cs =>
    have hc : '%' ≠ c := fun e => h (by rw [e]; rfl)
    simp [List.isPrefixOf, hc]

/-- A form is not that of what stands behind the sign. -/
theorem fails_behind (hn : IsName n) (h : Solid mid) {g : String → Rule α}
    (hg : ∀ target, Fails (g target) mid) :
    Fails (assigned >>= g) ('%' :: n.toList ++ ' ' :: '=' :: ' ' :: mid) :=
  (reads_assigned hn h).bind_fails fun target _ => hg target

theorem fails_behind_word {w : String} (hn : IsName n) (h : Solid mid)
    (hw : w.toList.isPrefixOf mid = false) (g : String → Unit → Rule α) :
    Fails (assigned >>= fun target => word w >>= g target)
      ('%' :: n.toList ++ ' ' :: '=' :: ' ' :: mid) :=
  fails_behind hn h fun _ => (fails_word hw).bind _

theorem reads_typed (hv : v.Readable) (hrest : Stops isNameChar rest) :
    Reads typed (fun p => p.1 = ty ∧ v.Means p.2) (ty.text.toList ++ ' ' :: (v.text.toList ++ rest))
      rest := by
  refine (reads_type ty (by simp)).bind_eq ?_
  refine (reads_skip_blank ((Value.starts_text hv).solid _)).bind fun _ _ => ?_
  refine (Value.reads_text hv hrest).bind fun s hs => ?_
  exact (reads_pure (ty, s) rest).mono fun _ e => by rw [e]; exact ⟨rfl, hs⟩

theorem reads_operands (ha : a.Readable) (hb : b.Readable) (hrest : Stops isNameChar rest) :
    Reads operands (fun p => p.1 = ty ∧ a.Means p.2.1 ∧ b.Means p.2.2)
      (ty.text.toList ++ ' ' :: (a.text.toList ++ ',' :: ' ' :: (b.text.toList ++ rest))) rest := by
  refine (reads_typed ha (stops_cons rfl _)).bind ?_
  rintro ⟨_, s⟩ ⟨rfl, hs⟩
  refine (reads_comma ((Value.starts_text hb).solid _)).bind fun _ _ => ?_
  refine (Value.reads_text hb hrest).bind fun r hr => ?_
  exact (reads_pure _ rest).mono fun _ e => by rw [e]; exact ⟨rfl, hs, hr⟩

/-- Parts between brackets, of which the opening one is behind. -/
theorem reads_enclosed {ι : Type} {r : Rule α} {P : ι → α → Prop} {part : ι → String} {is : List ι}
    {close : Char} (hclose : Cursor.isBlank close = false ∧ close ≠ ';' ∧ close ≠ ',')
    (hnone : Fails r (close :: rest))
    (h : ∀ i ∈ is, Starts (part i).toList ∧ ∀ t, t.head? = some ',' ∨ t = close :: rest →
      Reads r (P i) ((part i).toList ++ t) t) {w : String} (hw : w.toList = [close]) :
    Reads (do let xs ← option (commaSeparated r); skip; word w; return xs.getD [])
      (List.Forall₂ P is) ((", ".intercalate (is.map part)).toList ++ close :: rest) rest := by
  have hsolid : Solid (close :: rest) := solid_cons ⟨hclose.1, hclose.2.1⟩ _
  have hlast : Reads (word w) (fun _ => True) (close :: rest) rest := by
    have hread := reads_word w rest
    rwa [hw] at hread
  have hparts : Reads (option (commaSeparated r)) (fun o => List.Forall₂ P is (o.getD []))
      ((", ".intercalate (is.map part)).toList ++ close :: rest) (close :: rest) := by
    by_cases hne : is = []
    · subst hne
      have hfails : Fails (commaSeparated r) (close :: rest) := by
        intro line col
        rw [commaSeparated, hnone line col]
      refine hfails.option.mono ?_
      rintro _ rfl
      exact .nil
    · have hcomma : NoComma (close :: rest) :=
        ⟨[], close :: rest, rfl, rfl, hsolid, by simpa using hclose.2.2⟩
      refine (reads_commaSeparated hne hcomma h).option.mono ?_
      rintro _ ⟨_, rfl, hall⟩
      exact hall
  refine hparts.bind fun o ho => (reads_skip_nil hsolid).bind fun _ _ => hlast.bind fun _ _ => ?_
  exact (reads_pure _ _).mono fun _ e => e ▸ ho

theorem reads_parenthesized {ι : Type} {r : Rule α} {P : ι → α → Prop} {part : ι → String}
    {is : List ι} (hnone : Fails r (')' :: rest))
    (h : ∀ i ∈ is, Starts (part i).toList ∧ ∀ t, t.head? = some ',' ∨ t = ')' :: rest →
      Reads r (P i) ((part i).toList ++ t) t) :
    Reads (parenthesized r) (List.Forall₂ P is)
      ('(' :: ((", ".intercalate (is.map part)).toList ++ ')' :: rest)) rest := by
  have hsolid : Solid ((", ".intercalate (is.map part)).toList ++ ')' :: rest) := by
    cases is with
    | nil => exact solid_cons (by decide) _
    | cons i is =>
      rw [List.map_cons, toList_intercalate_cons, List.append_assoc]
      exact (h i List.mem_cons_self).1.solid _
  exact (reads_word "(" _).bind fun _ _ => (reads_skip_nil hsolid).bind fun _ _ =>
    reads_enclosed (by decide) hnone h rfl

end Text

/-! ### What lines are read as -/

namespace Reading

theorem gives_temp (name : String) (ty : Ty) (n : TempCounter) :
    Gives (temp name ty) n (.ofLocal name ty) (n.reserve name) :=
  gives_bind.mpr ⟨(), n.reserve name, rfl, gives_pure.mpr ⟨rfl, rfl⟩⟩

end Reading

/-- A line that adds an instruction with the text of this one. -/
def Instr.Adds (x : Instr) (l : Line) : Prop :=
  ∀ b n, b.jump = none → ∃ y n', y.text = x.text ∧
    Gives (Reading.addLine b l) n { b with instrs := b.instrs ++ [y] } n'

theorem Instr.adds_of_plain {x : Instr} {form : Form} {read : Reading Instr}
    (hread : Reading.plain? form = some read)
    (h : ∀ n, ∃ y n', Gives read n y n' ∧ y.wellTyped = true ∧ y.text = x.text) (pos : Position) :
    x.Adds ⟨pos, form⟩ := by
  intro b n hb
  obtain ⟨y, n', hy, hwell, htext⟩ := h n
  refine ⟨y, n', htext, ?_⟩
  have hadd : Reading.addLine b ⟨pos, form⟩ = (do
      let i ← read
      if i.wellTyped then return { b with instrs := b.instrs ++ [i] }
      else throw (.illTyped pos i)) := by
    cases form <;> cases hread <;>
      simp only [Reading.addLine, hb, Option.isSome_none, Bool.false_eq_true, if_false,
        Reading.terminator?, Reading.plain?]
  rw [hadd]
  refine gives_bind.mpr ⟨y, n', hy, ?_⟩
  rw [if_pos hwell]
  exact gives_pure.mpr ⟨rfl, rfl⟩

/-! ### Instructions -/

namespace Text

variable {cs mid rest : List Char} {n : String} {t : Temp} {ty : Ty} {v a b : Value} {α : Type}

theorem Reads.line {Q : Line → Prop}
    (h : Reads (phi <|> select <|> arith <|> comp <|> load <|> gep <|> call <|> store
      <|> branch <|> jump <|> ret) (fun form => ∀ pos, Q ⟨pos, form⟩) cs rest) :
    Reads line Q cs rest :=
  (reads_here _).bind fun pos _ => h.bind fun form hform =>
    (reads_pure (Line.mk pos form) _).mono fun _ e => e ▸ hform pos

theorem reads_arithOp (op : ArithOp) (rest : List Char) :
    Reads (oneOf (ArithOp.all.map fun op => (op.text, op))) (· = op) (op.text.toList ++ ' ' :: rest)
      (' ' :: rest) := by
  intro line col
  cases op <;> exact ⟨_, _, _, rfl, rfl⟩

theorem reads_compOp (op : CompOp) (rest : List Char) :
    Reads (oneOf (CompOp.all.map fun op => (op.text, op))) (· = op) (op.text.toList ++ ' ' :: rest)
      (' ' :: rest) := by
  intro line col
  cases op <;> exact ⟨_, _, _, rfl, rfl⟩

theorem reads_compKind (kind : CompKind) (rest : List Char) :
    Reads (oneOf [("icmp", CompKind.icmp), ("fcmp", CompKind.fcmp)]) (· = kind)
      (kind.text.toList ++ rest) rest := by
  intro line col
  cases kind <;> exact ⟨_, _, _, rfl, rfl⟩

theorem starts_arithOp (op : ArithOp) : Starts op.text.toList := by
  cases op <;> exact ⟨_, rfl, by decide⟩

theorem starts_compOp (op : CompOp) : Starts op.text.toList := by
  cases op <;> exact ⟨_, rfl, by decide⟩

theorem starts_compKind (kind : CompKind) : Starts kind.text.toList := by
  cases kind <;> exact ⟨_, rfl, by decide⟩

theorem reads_arith {op : ArithOp} (h : (Instr.arith t op ty a b).Readable)
    (hrest : Stops isNameChar rest) :
    Reads line (Instr.arith t op ty a b).Adds ((Instr.arith t op ty a b).text.toList ++ rest) rest := by
  obtain ⟨ht, hn⟩ := h.write t rfl
  have ha := h.reads a (by simp [Instr.reads])
  have hb := h.reads b (by simp [Instr.reads])
  obtain ⟨⟨hop, hta⟩, htb⟩ : (op.operandTy = ty ∧ a.ty = ty) ∧ b.ty = ty := by
    simpa [Instr.wellTyped] using h.wellTyped
  have e : (Instr.arith t op ty a b).text.toList ++ rest =
      '%' :: t.name.toList ++ ' ' :: '=' :: ' ' :: (op.text.toList ++ ' ' :: (ty.text.toList ++
        ' ' :: (a.text.toList ++ ',' :: ' ' :: (b.text.toList ++ rest)))) := by
    simp [Temp.text, ht, toString]
  have hsolid := (starts_arithOp op).solid
  rw [e]
  refine Reads.line ?_
  refine Fails.orElse (fails_behind_word hn (hsolid _) (by cases op <;> rfl) _) ?_
  refine Fails.orElse (fails_behind_word hn (hsolid _) (by cases op <;> rfl) _) ?_
  refine Reads.orElse ?_ _
  refine (reads_assigned hn (hsolid _)).bind_eq ((reads_arithOp op _).bind_eq ?_)
  refine (reads_skip_blank ((starts_type ty).solid _)).bind fun _ _ => ?_
  refine (reads_operands ha hb hrest).bind ?_
  rintro ⟨_, r, s⟩ ⟨rfl, hr, hs⟩
  refine (reads_pure _ _).mono ?_
  rintro _ rfl pos
  refine Instr.adds_of_plain rfl (fun m => ?_) pos
  obtain ⟨m₁, h₁⟩ := hr _ (m.reserve t.name) (.of_ty hta)
  obtain ⟨m₂, h₂⟩ := hs _ m₁ (.of_ty htb)
  refine ⟨_, m₂, gives_bind.mpr ⟨_, _, Reading.gives_temp _ _ _, gives_bind.mpr ⟨_, _, h₁,
    gives_bind.mpr ⟨_, _, h₂, gives_pure.mpr ⟨rfl, rfl⟩⟩⟩⟩, h.wellTyped, ?_⟩
  simp [Temp.text, ht, Temp.ofLocal]

theorem reads_comp {kind : CompKind} {op : CompOp} (h : (Instr.comp t kind op ty a b).Readable)
    (hrest : Stops isNameChar rest) :
    Reads line (Instr.comp t kind op ty a b).Adds
      ((Instr.comp t kind op ty a b).text.toList ++ rest) rest := by
  obtain ⟨ht, hn⟩ := h.write t rfl
  have ha := h.reads a (by simp [Instr.reads])
  have hb := h.reads b (by simp [Instr.reads])
  obtain ⟨⟨⟨⟨htt, hkind⟩, hop⟩, hta⟩, htb⟩ :
      (((t.ty = .i32 ∧ kind.operandTy = ty) ∧ op.operandTy = ty) ∧ a.ty = ty) ∧ b.ty = ty := by
    simpa [Instr.wellTyped] using h.wellTyped
  have e : (Instr.comp t kind op ty a b).text.toList ++ rest =
      '%' :: t.name.toList ++ ' ' :: '=' :: ' ' :: (kind.text.toList ++ ' ' :: (op.text.toList ++
        ' ' :: (ty.text.toList ++ ' ' :: (a.text.toList ++ ',' :: ' ' :: (b.text.toList ++ rest))))) := by
    simp [Temp.text, ht, toString]
  have hsolid := (starts_compKind kind).solid
  rw [e]
  refine Reads.line ?_
  refine Fails.orElse (fails_behind_word hn (hsolid _) (by cases kind <;> rfl) _) ?_
  refine Fails.orElse (fails_behind_word hn (hsolid _) (by cases kind <;> rfl) _) ?_
  refine Fails.orElse (fails_behind hn (hsolid _) fun _ =>
    Fails.bind (fun _ _ => by cases kind <;> rfl) _) ?_
  refine Reads.orElse ?_ _
  refine (reads_assigned hn (hsolid _)).bind_eq ((reads_compKind kind _).bind_eq ?_)
  refine (reads_skip_blank ((starts_compOp op).solid _)).bind fun _ _ => ?_
  refine (reads_compOp op _).bind_eq ?_
  refine (reads_skip_blank ((starts_type ty).solid _)).bind fun _ _ => ?_
  refine (reads_operands ha hb hrest).bind ?_
  rintro ⟨_, r, s⟩ ⟨rfl, hr, hs⟩
  refine (reads_pure _ _).mono ?_
  rintro _ rfl pos
  refine Instr.adds_of_plain rfl (fun m => ?_) pos
  obtain ⟨m₁, h₁⟩ := hr _ (m.reserve t.name) (.of_ty hta)
  obtain ⟨m₂, h₂⟩ := hs _ m₁ (.of_ty htb)
  refine ⟨_, m₂, gives_bind.mpr ⟨_, _, Reading.gives_temp _ _ _, gives_bind.mpr ⟨_, _, h₁,
    gives_bind.mpr ⟨_, _, h₂, gives_pure.mpr ⟨rfl, rfl⟩⟩⟩⟩, ?_, ?_⟩
  · simp [Instr.wellTyped, Temp.ofLocal, hkind, hop, hta, htb]
  · simp [Temp.text, ht, Temp.ofLocal]

theorem reads_select {c : Value} (h : (Instr.select t ty c a b).Readable)
    (hrest : Stops isNameChar rest) :
    Reads line (Instr.select t ty c a b).Adds ((Instr.select t ty c a b).text.toList ++ rest) rest := by
  obtain ⟨ht, hn⟩ := h.write t rfl
  have hc := h.reads c (by simp [Instr.reads])
  have ha := h.reads a (by simp [Instr.reads])
  have hb := h.reads b (by simp [Instr.reads])
  obtain ⟨⟨htc, hta⟩, htb⟩ : (c.ty = .i32 ∧ a.ty = ty) ∧ b.ty = ty := by
    simpa [Instr.wellTyped] using h.wellTyped
  have e : (Instr.select t ty c a b).text.toList ++ rest =
      '%' :: t.name.toList ++ ' ' :: '=' :: ' ' :: ("select".toList ++ ' ' :: (Ty.i32.text.toList ++
        ' ' :: (c.text.toList ++ ',' :: ' ' :: (ty.text.toList ++ ' ' :: (a.text.toList ++
          ',' :: ' ' :: (ty.text.toList ++ ' ' :: (b.text.toList ++ rest))))))) := by
    simp [Temp.text, ht, toString, Ty.text]
  have hsolid (cs : List Char) : Solid ("select".toList ++ cs) := solid_cons (by decide) _
  rw [e]
  refine Reads.line ?_
  refine Fails.orElse (fails_behind_word hn (hsolid _) rfl _) (Reads.orElse ?_ _)
  refine (reads_assigned hn (hsolid _)).bind_eq ((reads_word "select" _).bind fun _ _ => ?_)
  refine (reads_skip_blank ((starts_type .i32).solid _)).bind fun _ _ => ?_
  refine (reads_typed hc (stops_cons rfl _)).bind ?_
  rintro ⟨_, q⟩ ⟨rfl, hq⟩
  refine (reads_comma ((starts_type ty).solid _)).bind fun _ _ => ?_
  refine (reads_typed ha (stops_cons rfl _)).bind ?_
  rintro ⟨_, r⟩ ⟨rfl, hr⟩
  refine (reads_comma ((starts_type _).solid _)).bind fun _ _ => ?_
  refine (reads_typed hb hrest).bind ?_
  rintro ⟨_, s⟩ ⟨rfl, hs⟩
  refine (reads_pure _ _).mono ?_
  rintro _ rfl pos
  refine Instr.adds_of_plain rfl (fun m => ?_) pos
  obtain ⟨m₁, h₁⟩ := hq _ m (.of_ty htc)
  obtain ⟨m₂, h₂⟩ := hr _ m₁ (.of_ty hta)
  obtain ⟨m₃, h₃⟩ := hs _ m₂ (.of_ty htb)
  refine ⟨_, _, gives_bind.mpr ⟨_, _, h₁, gives_bind.mpr ⟨_, _, h₂, gives_bind.mpr ⟨_, _, h₃,
    gives_bind.mpr ⟨_, _, Reading.gives_temp _ _ _, gives_pure.mpr ⟨rfl, rfl⟩⟩⟩⟩⟩, h.wellTyped, ?_⟩
  simp [Temp.text, ht, Temp.ofLocal]

/-- The forms that come before those with a word of their own. -/
theorem Reads.behind_operators {w : String} (hw : w = "load" ∨ w = "getelementptr" ∨ w = "call")
    (hn : IsName n) {r : Rule Form} {P : Form → Prop}
    (h : Reads r P ('%' :: n.toList ++ ' ' :: '=' :: ' ' :: (w.toList ++ cs)) rest) :
    Reads (phi <|> select <|> arith <|> comp <|> r) P
      ('%' :: n.toList ++ ' ' :: '=' :: ' ' :: (w.toList ++ cs)) rest := by
  have hsolid : Solid (w.toList ++ cs) := by
    rcases hw with rfl | rfl | rfl <;> exact solid_cons (by decide) _
  refine Fails.orElse (fails_behind_word hn hsolid ?_ _) ?_
  · rcases hw with rfl | rfl | rfl <;> rfl
  refine Fails.orElse (fails_behind_word hn hsolid ?_ _) ?_
  · rcases hw with rfl | rfl | rfl <;> rfl
  refine Fails.orElse (fails_behind hn hsolid fun _ => Fails.bind (fun _ _ => ?_) _) ?_
  · rcases hw with rfl | rfl | rfl <;> rfl
  refine Fails.orElse (fails_behind hn hsolid fun _ => Fails.bind (fun _ _ => ?_) _) h
  rcases hw with rfl | rfl | rfl <;> rfl

/-- The forms that define a name. -/
theorem Reads.unnamed (h : cs.head? ≠ some '%') {r : Rule Form} {P : Form → Prop}
    (hread : Reads r P cs rest) :
    Reads (phi <|> select <|> arith <|> comp <|> load <|> gep <|> r) P cs rest := by
  have hfails (g : String → Rule Form) : Fails (assigned >>= g) cs := (fails_assigned h).bind g
  exact (hfails _).orElse ((hfails _).orElse ((hfails _).orElse ((hfails _).orElse
    ((hfails _).orElse ((hfails _).orElse hread)))))

theorem fails_call (h : cs.head? ≠ some '%') (hword : "call".toList.isPrefixOf cs = false) :
    Fails call cs :=
  (fails_assigned h).option.bind_fails fun _ _ => (fails_word hword).bind _

theorem reads_load (h : (Instr.load t ty a).Readable) (hrest : Stops isNameChar rest) :
    Reads line (Instr.load t ty a).Adds ((Instr.load t ty a).text.toList ++ rest) rest := by
  obtain ⟨ht, hn⟩ := h.write t rfl
  have ha := h.reads a (by simp [Instr.reads])
  have e : (Instr.load t ty a).text.toList ++ rest =
      '%' :: t.name.toList ++ ' ' :: '=' :: ' ' :: ("load".toList ++ ' ' :: (ty.text.toList ++
        ',' :: ' ' :: (a.ty.text.toList ++ ' ' :: (a.text.toList ++ rest)))) := by
    simp [Temp.text, ht, toString]
  have hsolid (cs : List Char) : Solid ("load".toList ++ cs) := solid_cons (by decide) _
  rw [e]
  refine Reads.line (Reads.behind_operators (.inl rfl) hn (Reads.orElse ?_ _))
  refine (reads_assigned hn (hsolid _)).bind_eq ((reads_word "load" _).bind fun _ _ => ?_)
  refine (reads_skip_blank ((starts_type ty).solid _)).bind fun _ _ => ?_
  refine (reads_type ty (by simp)).bind_eq ?_
  refine (reads_comma ((starts_type _).solid _)).bind fun _ _ => ?_
  refine (reads_typed ha hrest).bind ?_
  rintro ⟨_, s⟩ ⟨rfl, hs⟩
  refine (reads_pure _ _).mono ?_
  rintro _ rfl pos
  refine Instr.adds_of_plain rfl (fun m => ?_) pos
  obtain ⟨m₁, h₁⟩ := hs _ (m.reserve t.name) a.fits_ty
  refine ⟨_, _, gives_bind.mpr ⟨_, _, Reading.gives_temp _ _ _, gives_bind.mpr ⟨_, _, h₁,
    gives_pure.mpr ⟨rfl, rfl⟩⟩⟩, h.wellTyped, ?_⟩
  simp [Temp.text, ht, Temp.ofLocal]

theorem reads_gep (h : (Instr.gep t ty a b).Readable) (hrest : Stops isNameChar rest) :
    Reads line (Instr.gep t ty a b).Adds ((Instr.gep t ty a b).text.toList ++ rest) rest := by
  obtain ⟨ht, hn⟩ := h.write t rfl
  have ha := h.reads a (by simp [Instr.reads])
  have hb := h.reads b (by simp [Instr.reads])
  obtain ⟨⟨-, hta⟩, -⟩ : (ty.isPtr = true ∧ a.ty = ty) ∧ b.ty = .i32 := by
    simpa [Instr.wellTyped] using h.wellTyped
  have e : (Instr.gep t ty a b).text.toList ++ rest =
      '%' :: t.name.toList ++ ' ' :: '=' :: ' ' :: ("getelementptr".toList ++
        ' ' :: (ty.deref.text.toList ++ ',' :: ' ' :: (ty.text.toList ++ ' ' :: (a.text.toList ++
          ',' :: ' ' :: (b.ty.text.toList ++ ' ' :: (b.text.toList ++ rest)))))) := by
    simp [Temp.text, ht, toString, hta]
  have hsolid (cs : List Char) : Solid ("getelementptr".toList ++ cs) := solid_cons (by decide) _
  rw [e]
  refine Reads.line (Reads.behind_operators (.inr (.inl rfl)) hn ?_)
  refine Fails.orElse (fails_behind_word hn (hsolid _) rfl _) (Reads.orElse ?_ _)
  refine (reads_assigned hn (hsolid _)).bind_eq ((reads_word "getelementptr" _).bind fun _ _ => ?_)
  refine (reads_skip_blank ((starts_type _).solid _)).bind fun _ _ => ?_
  refine (reads_type _ (by simp)).bind_eq ?_
  refine (reads_comma ((starts_type _).solid _)).bind fun _ _ => ?_
  refine (reads_typed ha (stops_cons rfl _)).bind ?_
  rintro ⟨_, r⟩ ⟨rfl, hr⟩
  refine (reads_comma ((starts_type _).solid _)).bind fun _ _ => ?_
  refine (reads_typed hb hrest).bind ?_
  rintro ⟨_, s⟩ ⟨rfl, hs⟩
  refine (reads_pure _ _).mono ?_
  rintro _ rfl pos
  refine Instr.adds_of_plain rfl (fun m => ?_) pos
  obtain ⟨m₁, h₁⟩ := hr _ m (.of_ty hta)
  obtain ⟨m₂, h₂⟩ := hs _ (m₁.reserve t.name) b.fits_ty
  refine ⟨_, _, gives_bind.mpr ⟨_, _, h₁, gives_bind.mpr ⟨_, _, Reading.gives_temp _ _ _,
    gives_bind.mpr ⟨_, _, h₂, gives_pure.mpr ⟨rfl, rfl⟩⟩⟩⟩, h.wellTyped, ?_⟩
  simp [Temp.text, ht, Temp.ofLocal]

/-- The arguments of a call. -/
theorem reads_args {args : List (Ty × Value)} (h : ∀ e ∈ args, e.2.Readable) (rest : List Char) :
    Reads (parenthesized typed) (List.Forall₂ (fun e p => p.1 = e.1 ∧ e.2.Means p.2) args)
      ('(' :: ((", ".intercalate (args.map fun e => s!"{e.1.text} {e.2.text}")).toList ++ ')' :: rest))
      rest := by
  refine reads_parenthesized (fun _ _ => rfl) fun e he => ?_
  have htext : s!"{e.1.text} {e.2.text}".toList = e.1.text.toList ++ ' ' :: e.2.text.toList := by
    simp [toString]
  refine ⟨?_, fun t ht => ?_⟩
  · rw [htext]
    exact (starts_type e.1).append _
  · have hstops : Stops isNameChar t := by
      rcases ht with ht | rfl
      · intro c hc
        obtain rfl : ',' = c := Option.some.inj (ht.symm.trans hc)
        rfl
      · exact stops_cons rfl _
    rw [htext, List.append_assoc, List.cons_append]
    exact reads_typed (h e he) hstops

/-- A call as read; of type `void` it has no name, and is given a fresh one. -/
theorem adds_call {f : String} {args : List (Ty × Value)} (h : (Instr.call t ty f args).Readable)
    {target : Option String} (htarget : target = if ty = .void then none else some t.name)
    {ps : List (Ty × Spelled)} (hps : List.Forall₂ (fun e p => p.1 = e.1 ∧ e.2.Means p.2) args ps)
    (pos : Position) : (Instr.call t ty f args).Adds ⟨pos, .call target ty f ps⟩ := by
  have hfits : ∀ e ∈ args, e.2.ty = e.1 := by
    simpa [Instr.wellTyped] using h.wellTyped
  have hargs : ∀ m, ∃ m', Gives (ps.mapM fun p => return (p.1, ← Reading.value p.1 p.2) : Reading _)
      m args m' := by
    refine exists_gives_mapM_eq (((List.forall₂_and_left args ps).mpr ⟨hfits, hps⟩).imp ?_)
    rintro ⟨ety, v⟩ ⟨_, s⟩ ⟨hty, rfl, hs⟩ m
    obtain ⟨m', hv⟩ := hs _ m (.of_ty hty)
    exact ⟨m', gives_bind.mpr ⟨v, m', hv, gives_pure.mpr ⟨rfl, rfl⟩⟩⟩
  refine Instr.adds_of_plain rfl (fun m => ?_) pos
  obtain ⟨m₁, h₁⟩ := hargs m
  by_cases hvoid : ty = .void
  · obtain rfl : target = none := htarget.trans (if_pos hvoid)
    refine ⟨_, _, gives_bind.mpr ⟨_, _, h₁, gives_bind.mpr ⟨_, _, gives_modifyGet.mpr rfl,
      gives_pure.mpr ⟨rfl, rfl⟩⟩⟩, h.wellTyped, ?_⟩
    simp [hvoid]
  · obtain rfl : target = some t.name := htarget.trans (if_neg hvoid)
    obtain ⟨ht, -⟩ := h.write t (if_neg hvoid)
    refine ⟨_, _, gives_bind.mpr ⟨_, _, h₁, gives_bind.mpr ⟨_, _, Reading.gives_temp _ _ _,
      gives_pure.mpr ⟨rfl, rfl⟩⟩⟩, h.wellTyped, ?_⟩
    simp [hvoid, Temp.text, ht, Temp.ofLocal]

theorem reads_call {f : String} {args : List (Ty × Value)} (h : (Instr.call t ty f args).Readable)
    (rest : List Char) :
    Reads line (Instr.call t ty f args).Adds ((Instr.call t ty f args).text.toList ++ rest) rest := by
  have hargs : ∀ e ∈ args, e.2.Readable := fun e he =>
    h.reads _ (by simpa [Instr.reads] using ⟨e.1, he⟩)
  have hf : IsName f := h.callee _ _ _ _ rfl
  -- what stands behind the name, or at the start of the line
  let tail := "call".toList ++ ' ' :: (ty.text.toList ++ ' ' :: ('@' :: f.toList ++ '(' ::
    ((", ".intercalate (args.map fun e => s!"{e.1.text} {e.2.text}")).toList ++ ')' :: rest)))
  have htail {target : Option String} (htarget : target = if ty = .void then none else some t.name) :
      Reads (do word "call"; skip; let ty ← type; skip; let callee ← globalName; skip
                return .call target ty callee (← parenthesized typed))
        (fun form => ∀ pos, (Instr.call t ty f args).Adds ⟨pos, form⟩) tail rest := by
    refine (reads_word "call" _).bind fun _ _ => ?_
    refine (reads_skip_blank ((starts_type ty).solid _)).bind fun _ _ => ?_
    refine (reads_type ty (by simp)).bind_eq ?_
    refine (reads_skip_blank (solid_cons (by decide) _)).bind fun _ _ => ?_
    refine (reads_globalName hf (stops_cons rfl _)).bind_eq ?_
    refine (reads_skip_nil (solid_cons (by decide) _)).bind fun _ _ => ?_
    refine (reads_args hargs rest).bind fun ps hps => (reads_pure _ _).mono ?_
    rintro _ rfl pos
    exact adds_call h htarget hps pos
  refine Reads.line ?_
  by_cases hvoid : ty = .void
  · have e : (Instr.call t ty f args).text.toList ++ rest = tail := by
      simp [tail, hvoid, Ty.text, toString]
    have hunnamed : tail.head? ≠ some '%' := by simp [tail]
    rw [e]
    refine Reads.unnamed hunnamed (Reads.orElse ?_ _)
    exact (fails_assigned hunnamed).option.bind_eq (htail (if_pos hvoid).symm)
  · obtain ⟨ht, hn⟩ := h.write t (if_neg hvoid)
    have e : (Instr.call t ty f args).text.toList ++ rest =
        '%' :: t.name.toList ++ ' ' :: '=' :: ' ' :: tail := by
      simp [tail, hvoid, Temp.text, ht, toString]
    have hsolid : Solid tail := solid_cons (by decide) _
    rw [e]
    refine Reads.behind_operators (.inr (.inr rfl)) hn ?_
    refine Fails.orElse (fails_behind_word hn hsolid rfl _) ?_
    refine Fails.orElse (fails_behind_word hn hsolid rfl _) (Reads.orElse ?_ _)
    refine (reads_assigned hn hsolid).option.bind ?_
    rintro _ ⟨_, rfl, rfl⟩
    exact htail (if_neg hvoid).symm

theorem reads_store (h : (Instr.store a b).Readable) (hrest : Stops isNameChar rest) :
    Reads line (Instr.store a b).Adds ((Instr.store a b).text.toList ++ rest) rest := by
  have ha := h.reads a (by simp [Instr.reads])
  have hb := h.reads b (by simp [Instr.reads])
  have e : (Instr.store a b).text.toList ++ rest =
      "store".toList ++ ' ' :: (a.ty.text.toList ++ ' ' :: (a.text.toList ++ ',' :: ' ' ::
        (b.ty.text.toList ++ ' ' :: (b.text.toList ++ rest)))) := by
    simp [toString]
  rw [e]
  refine Reads.line (Reads.unnamed (by simp) ((fails_call (by simp) rfl).orElse (Reads.orElse ?_ _)))
  refine (reads_word "store" _).bind fun _ _ => ?_
  refine (reads_skip_blank ((starts_type _).solid _)).bind fun _ _ => ?_
  refine (reads_typed ha (stops_cons rfl _)).bind ?_
  rintro ⟨_, r⟩ ⟨rfl, hr⟩
  refine (reads_comma ((starts_type _).solid _)).bind fun _ _ => ?_
  refine (reads_typed hb hrest).bind ?_
  rintro ⟨_, s⟩ ⟨rfl, hs⟩
  refine (reads_pure _ _).mono ?_
  rintro _ rfl pos
  refine Instr.adds_of_plain rfl (fun m => ?_) pos
  obtain ⟨m₁, h₁⟩ := hr _ m a.fits_ty
  obtain ⟨m₂, h₂⟩ := hs _ m₁ b.fits_ty
  exact ⟨_, _, gives_bind.mpr ⟨_, _, h₁, gives_bind.mpr ⟨_, _, h₂, gives_pure.mpr ⟨rfl, rfl⟩⟩⟩,
    h.wellTyped, rfl⟩

end Text

/-- Instructions are read back from their text, up to the names that calls of type `void` do not
show. -/
theorem Instr.reads_text {x : Instr} (h : x.Readable) {rest : List Char}
    (hrest : Stops isNameChar rest) : Reads line x.Adds (x.text.toList ++ rest) rest := by
  have hscalar := h.scalar
  cases x with
  | arith => exact reads_arith h hrest
  | comp => exact reads_comp h hrest
  | select => exact reads_select h hrest
  | load => exact reads_load h hrest
  | gep => exact reads_gep h hrest
  | call => exact reads_call h rest
  | store => exact reads_store h hrest
  | jump | branch | phi | ret | vec | ladder | buildVec | reduce => cases hscalar

end LoopLanes
