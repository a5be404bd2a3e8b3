/-
What was read can be written.

Names, types and numbers that the grammar accepts are those that text can spell, and reading keeps
them: an operand fits the type it was read at, hints have each key once, and the labels of blocks
stand for numbers in range.

* `Text.named_of_definitions?` — the names of the definitions that a text spells;
* `Program.readable_of_parse` — a program that was read is readable, if its constants are.
-/
import LoopLanes.Proofs.Text.Parsed
import LoopLanes.Proofs.Text.Sections

namespace LoopLanes

open Text

/-! ### Names that the grammar accepts -/

/-- An operand as spelled, with a name of the grammar if it is one. -/
def Text.Spelled.Named : Spelled → Prop
  | .name n => IsName n
  | _ => True

/-- Hints as spelled, with keys of the grammar. -/
def Text.Keyed (hs : Option (List SpelledHint)) : Prop := ∀ ss ∈ hs, ∀ s ∈ ss, IsKey s.key

/-- The content of an instruction with names of the grammar. -/
def Text.Form.Named : Form → Prop
  | .phi t _ es => IsName t ∧ es ≠ [] ∧ ∀ e ∈ es, e.1.Named ∧ IsName e.2
  | .select t _ c _ a b => IsName t ∧ c.Named ∧ a.Named ∧ b.Named
  | .arith t _ _ a b => IsName t ∧ a.Named ∧ b.Named
  | .comp t _ _ _ a b => IsName t ∧ a.Named ∧ b.Named
  | .load t _ _ a => IsName t ∧ a.Named
  | .gep t _ a _ b => IsName t ∧ a.Named ∧ b.Named
  | .call t _ f args => (∀ n ∈ t, IsName n) ∧ IsName f ∧ ∀ e ∈ args, e.2.Named
  | .store _ v _ a => v.Named ∧ a.Named
  | .branch _ c l m hs => c.Named ∧ IsName l ∧ IsName m ∧ Keyed hs
  | .jump l hs => IsName l ∧ Keyed hs
  | .ret o => ∀ e ∈ o, e.1 ≠ .void ∧ e.2.Named

/-- A function with names of the grammar. -/
structure Text.Definition.Named (d : Definition) : Prop where
  name : IsName d.name
  params : ∀ e ∈ d.params, IsName e.2
  labels : ∀ s ∈ d.sections, IsName s.label
  lines : ∀ s ∈ d.sections, ∀ l ∈ s.lines, l.form.Named

namespace Text

variable {α β : Type} {r r' : Rule α} {P P' : α → Prop} {Q : β → Prop} {g : α → Rule β}

/-- What holds of all that a rule answers. -/
def Yields (r : Rule α) (P : α → Prop) : Prop := ∀ c a c', r c = some (a, c') → P a

theorem yields_true (r : Rule α) : Yields r fun _ => True := fun _ _ _ _ => trivial

theorem yields_pure {a : α} (h : P a) : Yields (pure a) P := by
  rintro c _ _ ⟨⟩
  exact h

theorem Yields.bind (h : Yields r P) (hg : ∀ a, P a → Yields (g a) Q) : Yields (r >>= g) Q := by
  intro c b c' hb
  obtain ⟨a, c₁, ha, hb⟩ := bind_eq_some.mp hb
  exact hg a (h c a c₁ ha) c₁ b c' hb

/-- A part whose result does not matter. -/
theorem yields_bind (hg : ∀ a, Yields (g a) Q) : Yields (r >>= g) Q :=
  (yields_true r).bind fun a _ => hg a

/-- The second of two rules answers only where the first does not match. -/
theorem Yields.orElse_of_none (h : Yields r P)
    (h' : ∀ c a c', r c = none → r' c = some (a, c') → P a) : Yields (r <|> r') P := by
  intro c a c' ha
  change (r c <|> r' c) = _ at ha
  cases hr : r c with
  | none =>
    rw [hr] at ha
    exact h' c a c' hr ha
  | some p =>
    rw [hr] at ha
    obtain rfl : p = (a, c') := Option.some.inj ha
    exact h c a c' hr

theorem Yields.orElse (h : Yields r P) (h' : Yields r' P) : Yields (r <|> r') P :=
  h.orElse_of_none fun c a c' _ => h' c a c'

theorem Yields.option (h : Yields r P) : Yields (option r) (∀ a ∈ ·, P a) := by
  intro c o c' ho
  rw [Text.option] at ho
  split at ho
  · rename_i a c₁ hr
    cases ho
    rintro _ ⟨⟩
    exact h c a _ hr
  · cases ho
    rintro _ ⟨⟩

theorem Yields.star (h : Yields r P) : Yields (star r) (∀ a ∈ ·, P a) := by
  intro c as c' has a ha
  obtain ⟨c₁, c₂, hr⟩ := exists_of_star has a ha
  exact h c₁ a c₂ hr

theorem Yields.commaSeparated (h : Yields r P) :
    Yields (commaSeparated r) fun as => as ≠ [] ∧ ∀ a ∈ as, P a := by
  intro c as c' has
  rw [Text.commaSeparated] at has
  split at has
  · cases has
  · rename_i a c₁ hr
    cases has
    refine ⟨List.cons_ne_nil _ _, List.forall_mem_cons.mpr ⟨h c a c₁ hr, fun b hb => ?_⟩⟩
    obtain ⟨c₂, c₃, hb⟩ := exists_of_repeatRule b hb
    exact (yields_bind fun _ => yields_bind fun _ => yields_bind fun _ => h) c₂ b c₃ hb

theorem Yields.parenthesized (h : Yields r P) : Yields (parenthesized r) (∀ a ∈ ·, P a) := by
  refine yields_bind fun _ => yields_bind fun _ => h.commaSeparated.option.bind fun o ho => ?_
  refine yields_bind fun _ => yields_bind fun _ => yields_pure ?_
  cases o with
  | none => exact fun _ => nofun
  | some as => exact (ho as rfl).2

theorem yields_chars1 (p : Char → Bool) : Yields (chars1 p) fun cs => cs ≠ [] ∧ ∀ c ∈ cs, p c = true := by
  intro c cs c' h
  rw [chars1] at h
  split at h
  · cases h
  · rename_i hne
    cases h
    exact ⟨by simpa using hne, fun d hd => List.all_eq_true.mp List.all_takeWhile d hd⟩

theorem yields_name : Yields name IsName :=
  (yields_chars1 isNameChar).bind fun cs hcs => yields_pure <| by
    rw [IsName, String.toList_ofList]
    exact hcs

theorem yields_localName : Yields localName IsName := yields_bind fun _ => yields_name

theorem yields_globalName : Yields globalName IsName := yields_bind fun _ => yields_name

theorem yields_assigned : Yields assigned IsName :=
  yields_localName.bind fun _ hn => yields_bind fun _ => yields_bind fun _ => yields_bind fun _ =>
    yields_pure hn

theorem yields_spelled : Yields spelled Spelled.Named :=
  yields_bind fun _ => (yields_bind fun _ => yields_pure trivial).orElse <|
    (yields_bind fun _ => yields_pure trivial).orElse <|
      yields_localName.bind fun _ hn => yields_pure hn

theorem yields_typed : Yields typed fun p => p.2.Named :=
  yields_bind fun _ => yields_bind fun _ => yields_spelled.bind fun _ hs => yields_pure hs

theorem yields_hint : Yields hint fun s => IsKey s.key := by
  have hfirst : Yields (charIf isLetter) fun c => isLetter c = true := by
    intro c d c' h
    rw [charIf] at h
    split at h
    · split at h
      · rename_i hd
        cases h
        exact hd
      · cases h
    · cases h
  have hrest : Yields (charsWhile isNameChar) fun cs => ∀ c ∈ cs, isNameChar c = true := by
    rintro c cs c' ⟨⟩
    exact fun d hd => List.all_eq_true.mp List.all_takeWhile d hd
  refine hfirst.bind fun c hc => hrest.bind fun cs hcs => yields_bind fun _ => yields_pure ?_
  exact ⟨c, cs, String.toList_ofList, hc, hcs⟩

theorem yields_hints : Yields (option do skip; loopHints) Keyed := by
  have hloop : Yields loopHints fun ss => ∀ s ∈ ss, IsKey s.key := by
    refine yields_bind fun _ => yields_bind fun _ => yields_bind fun _ => yields_bind fun _ => ?_
    refine yields_bind fun _ => yields_bind fun _ => yields_hint.commaSeparated.option.bind fun o ho => ?_
    refine yields_bind fun _ => yields_bind fun _ => yields_pure ?_
    cases o with
    | none => exact fun _ => nofun
    | some ss => exact (ho ss rfl).2
  exact (yields_bind fun _ => hloop).option

theorem yields_operands : Yields operands fun p => p.2.1.Named ∧ p.2.2.Named :=
  yields_typed.bind fun _ ha => yields_bind fun _ => yields_spelled.bind fun _ hb =>
    yields_pure ⟨ha, hb⟩

theorem yields_jumpTarget : Yields jumpTarget IsName :=
  yields_bind fun _ => yields_bind fun _ => yields_localName

theorem exists_of_oneOf {words : List (String × α)} {a : α} {c c' : Cursor}
    (h : oneOf words c = some (a, c')) : ∃ w, (w, a) ∈ words ∧ w.toList.isPrefixOf c.rest = true := by
  obtain ⟨⟨w, b⟩, hmem, hw⟩ := List.exists_of_findSome?_eq_some h
  dsimp only at hw
  split at hw
  · rename_i hprefix
    cases hw
    exact ⟨w, hmem, hprefix⟩
  · cases hw

theorem word_of_type_void {c c' : Cursor} (h : type c = some (.void, c')) : word "void" c ≠ none := by
  obtain ⟨base, c₁, hbase, h⟩ := bind_eq_some.mp h
  obtain ⟨w, hw, hprefix⟩ := exists_of_oneOf hbase
  simp only [List.mem_cons, Prod.mk.injEq, List.not_mem_nil, or_false] at hw
  have hscalar : ∀ ty : Ty, ty ≠ .void → ty.toPtr ≠ .void → base ≠ ty := by
    rintro ty hty hptr rfl
    rw [if_neg hty] at h
    obtain ⟨o, c₂, -, h⟩ := bind_eq_some.mp h
    cases o with
    | none =>
      cases h
      exact hty rfl
    | some u =>
      have hvoid : base.toPtr = .void := congrArg Prod.fst (Option.some.inj h)
      exact hptr hvoid
  rcases hw with ⟨-, e⟩ | ⟨-, e⟩ | ⟨rfl, -⟩
  · exact absurd e (hscalar .i32 (by decide) (by decide))
  · exact absurd e (hscalar .f32 (by decide) (by decide))
  · rw [word, if_pos hprefix]
    exact Option.some_ne_none _

/-- The word is tried before a type of this spelling, so that a value behind has another type. -/
theorem yields_ret : Yields ret Form.Named := by
  refine yields_bind fun _ => yields_bind fun _ => Yields.orElse_of_none ?_ ?_
  · exact yields_bind fun _ => yields_pure fun _ => nofun
  · intro c form c' hnone h
    obtain ⟨⟨ty, s⟩, c₁, htyped, h⟩ := bind_eq_some.mp h
    cases h
    rintro _ ⟨⟩
    refine ⟨?_, yields_typed c _ _ htyped⟩
    rintro rfl
    obtain ⟨ty, c₂, hty, htyped⟩ := bind_eq_some.mp htyped
    obtain ⟨_, _, -, htyped⟩ := bind_eq_some.mp htyped
    obtain ⟨_, _, -, htyped⟩ := bind_eq_some.mp htyped
    cases htyped
    obtain ⟨p, hp⟩ := Option.ne_none_iff_exists'.mp (word_of_type_void hty)
    have hsome : (do word "void"; return Form.ret none : Rule Form) c = some (.ret none, p.2) :=
      bind_eq_some.mpr ⟨p.1, p.2, hp, rfl⟩
    rw [hsome] at hnone
    cases hnone

theorem yields_line : Yields line fun l => l.form.Named := by
  have hphi : Yields phi Form.Named :=
    yields_assigned.bind fun _ hn => yields_bind fun _ => yields_bind fun _ => yields_bind fun _ =>
      yields_bind fun _ => by
        refine Yields.bind (Yields.commaSeparated (P := fun e => e.1.Named ∧ IsName e.2) ?_)
          fun es hes => yields_pure ⟨hn, hes⟩
        exact yields_bind fun _ => yields_bind fun _ => yields_spelled.bind fun _ hv =>
          yields_bind fun _ => yields_localName.bind fun _ hl => yields_bind fun _ =>
            yields_bind fun _ => yields_pure ⟨hv, hl⟩
  have hselect : Yields select Form.Named :=
    yields_assigned.bind fun _ hn => yields_bind fun _ => yields_bind fun _ =>
      yields_typed.bind fun _ hc => yields_bind fun _ => yields_typed.bind fun _ ha =>
        yields_bind fun _ => yields_typed.bind fun _ hb => yields_pure ⟨hn, hc, ha, hb⟩
  have harith : Yields arith Form.Named :=
    yields_assigned.bind fun _ hn => yields_bind fun _ => yields_bind fun _ =>
      yields_operands.bind fun _ hab => yields_pure ⟨hn, hab⟩
  have hcomp : Yields comp Form.Named :=
    yields_assigned.bind fun _ hn => yields_bind fun _ => yields_bind fun _ => yields_bind fun _ =>
      yields_bind fun _ => yields_operands.bind fun _ hab => yields_pure ⟨hn, hab⟩
  have hload : Yields load Form.Named :=
    yields_assigned.bind fun _ hn => yields_bind fun _ => yields_bind fun _ => yields_bind fun _ =>
      yields_bind fun _ => yields_typed.bind fun _ ha => yields_pure ⟨hn, ha⟩
  have hgep : Yields gep Form.Named :=
    yields_assigned.bind fun _ hn => yields_bind fun _ => yields_bind fun _ => yields_bind fun _ =>
      yields_bind fun _ => yields_typed.bind fun _ ha => yields_bind fun _ =>
        yields_typed.bind fun _ hb => yields_pure ⟨hn, ha, hb⟩
  have hcall : Yields call Form.Named :=
    yields_assigned.option.bind fun _ hn => yields_bind fun _ => yields_bind fun _ =>
      yields_bind fun _ => yields_bind fun _ => yields_globalName.bind fun _ hf =>
        yields_bind fun _ => yields_typed.parenthesized.bind fun _ hargs => yields_pure ⟨hn, hf, hargs⟩
  have hstore : Yields store Form.Named :=
    yields_bind fun _ => yields_bind fun _ => yields_typed.bind fun _ hv => yields_bind fun _ =>
      yields_typed.bind fun _ ha => yields_pure ⟨hv, ha⟩
  have hbranch : Yields branch Form.Named :=
    yields_bind fun _ => yields_bind fun _ => yields_typed.bind fun _ hc => yields_bind fun _ =>
      yields_jumpTarget.bind fun _ hl => yields_bind fun _ => yields_jumpTarget.bind fun _ hm =>
        yields_hints.bind fun _ hs => yields_pure ⟨hc, hl, hm, hs⟩
  have hjump : Yields jump Form.Named :=
    yields_bind fun _ => yields_bind fun _ => yields_jumpTarget.bind fun _ hl =>
      yields_hints.bind fun _ hs => yields_pure ⟨hl, hs⟩
  refine yields_bind fun _ => Yields.bind (P := Form.Named) ?_ fun _ hform => yields_pure hform
  exact hphi.orElse (hselect.orElse (harith.orElse (hcomp.orElse (hload.orElse (hgep.orElse
    (hcall.orElse (hstore.orElse (hbranch.orElse (hjump.orElse yields_ret)))))))))

theorem yields_block : Yields block fun s => IsName s.label ∧ ∀ l ∈ s.lines, l.form.Named :=
  yields_name.bind fun _ hn => yields_bind fun _ => yields_bind fun _ =>
    yields_line.star.bind fun _ hls => yields_pure ⟨hn, hls⟩

theorem yields_definition : Yields definition Definition.Named := by
  have hparam : Yields param fun e => IsName e.2 :=
    yields_bind fun _ => yields_bind fun _ => yields_localName.bind fun _ hn => yields_pure hn
  refine yields_bind fun _ => yields_bind fun _ => yields_bind fun _ => yields_bind fun _ => ?_
  refine yields_globalName.bind fun fn hfn => yields_bind fun _ => ?_
  refine hparam.parenthesized.bind fun ps hps => ?_
  refine yields_bind fun _ => yields_bind fun _ => yields_bind fun _ => ?_
  refine yields_block.bind fun s hs => yields_bind fun _ => yields_block.star.bind fun ss hss => ?_
  refine yields_bind fun _ => yields_bind fun _ => yields_pure ?_
  have hall : ∀ t ∈ s :: ss, IsName t.label ∧ ∀ l ∈ t.lines, l.form.Named :=
    List.forall_mem_cons.mpr ⟨hs, hss⟩
  exact ⟨hfn, hps, fun s hs => (hall s hs).1, fun s hs => (hall s hs).2⟩

/-- The names of what a text spells are those of the grammar. -/
theorem named_of_definitions? {s : String} {ds : List Definition} (h : definitions? s = some ds) :
    ∀ d ∈ ds, d.Named := by
  rw [definitions?, Option.map_eq_some_iff] at h
  obtain ⟨⟨ds, c⟩, h, rfl⟩ := h
  have hprogram : Yields program fun ds => ∀ d ∈ ds, d.Named := by
    refine yields_bind fun _ => yields_definition.star.bind fun ds hds => yields_bind fun _ => ?_
    refine yields_bind fun c => ?_
    split
    · exact yields_pure hds
    · rintro _ _ _ ⟨⟩
  exact hprogram _ _ _ h

end Text

/-! ### What is read is readable -/

/-- The numbers of blocks. -/
theorem Label.blockId?_mem {l : Label} (hl : IsName l.name) {id : Int} (h : l.blockId? = some id) :
    0 ≤ id ∧ id ≤ i32Max := by
  unfold blockId? at h
  split at h
  · cases h
    decide
  · split at h
    · rename_i ds hds
      have hread : readInteger i32Min i32Max ds = .ok id := by
        cases hr : readInteger i32Min i32Max ds with
        | ok x =>
          rw [hr] at h
          exact congrArg Except.ok (Option.some.inj h)
        | error e =>
          rw [hr] at h
          cases h
      have hminus : '-' ∉ ds := by
        intro hmem
        cases hl.2 '-' (hds ▸ List.mem_cons_of_mem _ hmem)
      exact ⟨nonneg_of_readInteger hminus hread, (mem_of_readInteger (by decide) (by decide) hread).2⟩
    · cases h

/-- The operands of a block. -/
def Block.operands (b : Block) : List Value :=
  (b.phis.map Instr.phi ++ b.instrs ++ b.jump.toList).flatMap Instr.reads

/-- The operands of a program. -/
def Program.operands (p : Program) : List Value :=
  p.funcs.flatMap fun f => f.blocks.flatMap Block.operands

/-- Constants among some operands are read back. -/
def Value.ReadBack (vs : List Value) : Prop := ∀ x, Value.float x ∈ vs → ReadsBack x

theorem Value.ReadBack.mono {vs ws : List Value} (h : Value.ReadBack ws) (hsub : vs ⊆ ws) :
    Value.ReadBack vs :=
  fun x hx => h x (hsub hx)

theorem Hints.Readable.set {h : Hints} (hh : h.Readable) {k : String} (hk : IsKey k) {v : Option Int}
    (hv : ∀ x ∈ v, i64Min ≤ x ∧ x ≤ i64Max) : (h.set k v).Readable where
  nodup := nodup_setEntry hh.nodup k v
  keys e he := by
    rcases mem_setEntry he with rfl | he
    · exact hk
    · exact hh.keys e he
  values e he := by
    rcases mem_setEntry he with rfl | he
    · exact hv
    · exact hh.values e he

namespace Reading

variable {n n' : TempCounter} {ty : Ty} {form : Form}

theorem readable_of_value {s : Spelled} {v : Value} (h : Gives (value ty s) n v n') (hs : s.Named)
    (hconst : ∀ x, v = .float x → ReadsBack x) : v.Readable ∧ v.Fits ty := by
  cases s with
  | float pos chars =>
    obtain ⟨rfl, -⟩ := gives_pure.mp h
    exact ⟨hconst _ rfl, trivial⟩
  | int pos chars =>
    simp only [value] at h
    split at h
    · obtain ⟨rfl, -⟩ := gives_pure.mp h
      exact ⟨hconst _ rfl, trivial⟩
    · split at h
      · obtain ⟨rfl, -⟩ := gives_pure.mp h
        exact ⟨trivial, ‹_›⟩
      · exact absurd h not_gives_throw
  | name name =>
    obtain ⟨t, _, ht, h⟩ := gives_bind.mp h
    obtain ⟨rfl, -⟩ := gives_pure.mp h
    obtain rfl := temp_of_gives ht
    exact ⟨⟨rfl, hs⟩, rfl⟩

theorem readable_of_hints {ss : List SpelledHint} (hss : ∀ s ∈ ss, IsKey s.key) {h : Hints}
    (hread : Gives (hints ss) n h n') : h.Readable := by
  have hempty : Hints.empty.Readable := ⟨List.nodup_nil, fun _ => nofun, fun _ => nofun⟩
  unfold hints at hread
  generalize Hints.empty = before at hempty hread
  induction ss generalizing before n with
  | nil => exact (gives_pure.mp hread).1 ▸ hempty
  | cons s ss ih =>
    obtain ⟨hs, hss⟩ := List.forall_mem_cons.mp hss
    rw [List.foldlM_cons] at hread
    obtain ⟨h₁, n₁, hfirst, hread⟩ := gives_bind.mp hread
    refine ih hss h₁ ?_ hread
    split at hfirst
    · obtain ⟨rfl, -⟩ := gives_pure.mp hfirst
      exact hempty.set hs fun _ => nofun
    · split at hfirst
      · rename_i m hm
        obtain ⟨rfl, -⟩ := gives_pure.mp hfirst
        refine hempty.set hs ?_
        rintro _ ⟨⟩
        exact mem_of_readInteger (by decide) (by decide) hm
      · exact absurd hfirst not_gives_throw

theorem readable_of_phi {target : String} {incoming : List (Spelled × String)}
    (hform : (Form.phi target ty incoming).Named) {p : Phi} (h : Gives (phi target ty incoming) n p n')
    (hconst : Value.ReadBack p.reads) : p.Readable := by
  obtain ⟨htarget, hne, hnamed⟩ := hform
  obtain ⟨t, _, ht, h⟩ := gives_bind.mp h
  obtain ⟨entries, _, hentries, h⟩ := gives_bind.mp h
  obtain ⟨rfl, -⟩ := gives_pure.mp h
  obtain rfl := temp_of_gives ht
  have hpairs := gives_mapM hentries
  refine ⟨⟨rfl, htarget⟩, fun hnil => hne ?_, fun e he => ?_⟩
  · rw [show entries = [] from hnil] at hpairs
    exact List.forall₂_nil_right_iff.mp hpairs
  · obtain ⟨⟨s, l⟩, hmem, _, _, hs⟩ := exists_of_forall₂ hpairs e he
    obtain ⟨v, _, hv, hs⟩ := gives_bind.mp hs
    obtain ⟨rfl, -⟩ := gives_pure.mp hs
    obtain ⟨hsn, hl⟩ := hnamed _ hmem
    obtain ⟨hreadable, hfits⟩ := readable_of_value hv hsn fun x hx =>
      hconst x (hx ▸ List.mem_map_of_mem he)
    exact ⟨hreadable, hfits, hl⟩

theorem readable_of_plain? (hform : form.Named) {read : Reading Instr} (hread : plain? form = some read)
    {x : Instr} (h : Gives read n x n') (hwell : x.wellTyped = true)
    (hconst : Value.ReadBack x.reads) : x.Readable := by
  -- operands are readable one by one
  have hvalue {s : Spelled} {v : Value} {ty : Ty} {m m' : TempCounter} (hv : Gives (value ty s) m v m')
      (hs : s.Named) (hmem : v ∈ x.reads) : v.Readable :=
    (readable_of_value hv hs fun c hc => hconst c (hc ▸ hmem)).1
  have hscalar := (spelled_of_plain? hread h).1
  cases form <;> simp only [plain?, Option.some.injEq, reduceCtorEq] at hread <;> subst hread <;>
    simp only [gives_bind, gives_pure] at h
  case arith | comp =>
    obtain ⟨t, _, ht, a, _, ha, b, _, hb, rfl, -⟩ := h
    obtain rfl := temp_of_gives ht
    obtain ⟨hn, hna, hnb⟩ := hform
    refine ⟨hscalar, hwell, ?_, ?_, fun _ _ _ _ h => Instr.noConfusion h⟩
    · rintro _ ⟨⟩
      exact ⟨rfl, hn⟩
    · simpa [Instr.reads] using
        ⟨hvalue ha hna (by simp [Instr.reads]), hvalue hb hnb (by simp [Instr.reads])⟩
  case select =>
    obtain ⟨c, _, hc, a, _, ha, b, _, hb, t, _, ht, rfl, -⟩ := h
    obtain rfl := temp_of_gives ht
    obtain ⟨hn, hnc, hna, hnb⟩ := hform
    refine ⟨hscalar, hwell, ?_, ?_, fun _ _ _ _ h => Instr.noConfusion h⟩
    · rintro _ ⟨⟩
      exact ⟨rfl, hn⟩
    · simpa [Instr.reads] using ⟨hvalue hc hnc (by simp [Instr.reads]),
        hvalue ha hna (by simp [Instr.reads]), hvalue hb hnb (by simp [Instr.reads])⟩
  case load =>
    obtain ⟨t, _, ht, a, _, ha, rfl, -⟩ := h
    obtain rfl := temp_of_gives ht
    obtain ⟨hn, hna⟩ := hform
    refine ⟨hscalar, hwell, ?_, ?_, fun _ _ _ _ h => Instr.noConfusion h⟩
    · rintro _ ⟨⟩
      exact ⟨rfl, hn⟩
    · simpa [Instr.reads] using hvalue ha hna (by simp [Instr.reads])
  case gep =>
    obtain ⟨a, _, ha, t, _, ht, b, _, hb, rfl, -⟩ := h
    obtain rfl := temp_of_gives ht
    obtain ⟨hn, hna, hnb⟩ := hform
    refine ⟨hscalar, hwell, ?_, ?_, fun _ _ _ _ h => Instr.noConfusion h⟩
    · rintro _ ⟨⟩
      exact ⟨rfl, hn⟩
    · simpa [Instr.reads] using
        ⟨hvalue ha hna (by simp [Instr.reads]), hvalue hb hnb (by simp [Instr.reads])⟩
  case store =>
    obtain ⟨v, _, hv, a, _, ha, rfl, -⟩ := h
    obtain ⟨hnv, hna⟩ := hform
    refine ⟨hscalar, hwell, ?_, ?_, fun _ _ _ _ h => Instr.noConfusion h⟩
    · rintro _ ⟨⟩
    · simpa [Instr.reads] using
        ⟨hvalue hv hnv (by simp [Instr.reads]), hvalue ha hna (by simp [Instr.reads])⟩
  case call target ty callee args =>
    obtain ⟨as, _, has, h⟩ := h
    obtain ⟨hn, hf, hargs⟩ := hform
    -- with a name or without, the target has a name of the grammar
    obtain ⟨t, ht, rfl⟩ : ∃ t : Temp, (t.isGlobal = false ∧ IsName t.name) ∧
        x = .call t ty callee as := by
      cases target with
      | some name =>
        obtain ⟨t, _, ht, h⟩ := gives_bind.mp h
        obtain rfl := temp_of_gives ht
        exact ⟨_, ⟨rfl, hn name rfl⟩, (gives_pure.mp h).1.symm⟩
      | none =>
        obtain ⟨t, m, ht, h⟩ := gives_bind.mp h
        rw [gives_modifyGet, TempCounter.fresh, Prod.mk.injEq] at ht
        exact ⟨t, ht.1 ▸ ⟨rfl, isName_toString _⟩, (gives_pure.mp h).1.symm⟩
    refine ⟨hscalar, hwell, ?_, ?_, ?_⟩
    · intro u hu
      simp only [Instr.write] at hu
      split at hu
      · cases hu
      · cases hu
        exact ht
    · intro v hv
      obtain ⟨e, he, rfl⟩ := List.mem_map.mp hv
      obtain ⟨⟨ety, s⟩, hmem, _, _, hs⟩ := exists_of_forall₂ (gives_mapM has) e he
      obtain ⟨v, _, hval, hs⟩ := gives_bind.mp hs
      obtain ⟨rfl, -⟩ := gives_pure.mp hs
      exact hvalue hval (hargs _ hmem) hv
    · rintro _ _ _ _ ⟨⟩
      exact hf

theorem readable_of_mapM_hints {hs : Option (List SpelledHint)} (hkeyed : Keyed hs) {o : Option Hints}
    (h : Gives (hs.mapM hints) n o n') : ∀ x ∈ o, x.Readable := by
  cases hs with
  | none =>
    obtain ⟨rfl, -⟩ := gives_pure.mp h
    exact fun _ => nofun
  | some ss =>
    obtain ⟨x, _, hx, h⟩ := gives_bind.mp h
    obtain ⟨rfl, -⟩ := gives_pure.mp h
    rintro _ ⟨⟩
    exact readable_of_hints (hkeyed ss rfl) hx

theorem readable_of_terminator? (hform : form.Named) {read : Reading (Instr × Option Hints)}
    (hread : terminator? form = some read) {x : Instr} {hs : Option Hints}
    (h : Gives read n (x, hs) n') (hconst : Value.ReadBack x.reads) : x.ReadableExit hs := by
  unfold terminator? at hread
  split at hread <;> cases hread
  · obtain ⟨c, _, hc, h⟩ := gives_bind.mp h
    obtain ⟨o, _, ho, h⟩ := gives_bind.mp h
    obtain ⟨he, -⟩ := gives_pure.mp h
    cases he
    obtain ⟨hnc, hl, hm, hkeyed⟩ := hform
    obtain ⟨hreadable, hfits⟩ := readable_of_value hc hnc fun x hx =>
      hconst x (hx ▸ List.mem_singleton_self c)
    exact ⟨hreadable, hfits, hl, hm, readable_of_mapM_hints hkeyed ho⟩
  · obtain ⟨o, _, ho, h⟩ := gives_bind.mp h
    obtain ⟨he, -⟩ := gives_pure.mp h
    cases he
    exact ⟨hform.1, readable_of_mapM_hints hform.2 ho⟩
  · obtain ⟨he, -⟩ := gives_pure.mp h
    cases he
    rfl
  · obtain ⟨v, _, hv, h⟩ := gives_bind.mp h
    obtain ⟨he, -⟩ := gives_pure.mp h
    cases he
    obtain ⟨hty, hnv⟩ := hform _ rfl
    obtain ⟨hreadable, hfits⟩ := readable_of_value hv hnv fun x hx =>
      hconst x (hx ▸ List.mem_singleton_self v)
    refine ⟨hreadable, ?_, rfl⟩
    cases v with
    | int => exact nofun
    | float => exact nofun
    | temp t => exact fun e => hty (hfits.symm.trans e)

/-- Adding a line to a block keeps it readable. -/
theorem readable_of_addLine {b b' : Block} {l : Line} (hl : l.form.Named)
    (hb : Value.ReadBack b.operands → b.ReadableLines) (h : Gives (addLine b l) n b' n')
    (hconst : Value.ReadBack b'.operands) : b'.ReadableLines := by
  have hreads : ∀ x ∈ b'.phis.map Instr.phi ++ b'.instrs ++ b'.jump.toList,
      Value.ReadBack x.reads := fun x hx => hconst.mono fun v hv => List.mem_flatMap.mpr ⟨x, hx, hv⟩
  unfold addLine at h
  dsimp only at h
  split at h
  · obtain ⟨_, _, h, -⟩ := gives_bind.mp h
    exact absurd h not_gives_throw
  rename_i hjump
  have hnone : b.jump = none := by simpa using hjump
  -- what was there before is readable, if its operands are among those that are there now
  have hbefore (hphis : b.phis ⊆ b'.phis) (hinstrs : b.instrs ⊆ b'.instrs) : b.ReadableLines := by
    refine hb (hconst.mono fun v hv => ?_)
    obtain ⟨x, hx, hv⟩ := List.mem_flatMap.mp hv
    rw [hnone, Option.toList_none, List.append_nil] at hx
    refine List.mem_flatMap.mpr ⟨x, List.mem_append_left _ ?_, hv⟩
    rcases List.mem_append.mp hx with hx | hx
    · exact List.mem_append_left _ (List.map_subset _ hphis hx)
    · exact List.mem_append_right _ (hinstrs hx)
  split at h
  · rename_i hform
    obtain ⟨p, _, hp, h⟩ := gives_bind.mp h
    obtain ⟨rfl, -⟩ := gives_pure.mp h
    have hlines := hbefore (List.subset_append_left _ _) (List.Subset.refl _)
    refine ⟨fun q hq => ?_, hlines.instrs, hlines.jump⟩
    rcases List.mem_append.mp hq with hq | hq
    · exact hlines.phis q hq
    · obtain rfl := List.mem_singleton.mp hq
      exact readable_of_phi (hform ▸ hl) hp (hreads (.phi q) (by simp))
  · split at h
    · rename_i hread
      obtain ⟨⟨jump, hs⟩, _, hj, h⟩ := gives_bind.mp h
      obtain ⟨rfl, -⟩ := gives_pure.mp h
      have hlines := hbefore (List.Subset.refl _) (List.Subset.refl _)
      refine ⟨hlines.phis, hlines.instrs, ?_⟩
      rintro _ ⟨⟩
      exact readable_of_terminator? hl hread hj (hreads jump (by simp))
    · rename_i hread
      obtain ⟨x, _, hx, h⟩ := gives_bind.mp h
      split at h
      · rename_i hwell
        obtain ⟨rfl, -⟩ := gives_pure.mp h
        have hlines := hbefore (List.Subset.refl _) (List.subset_append_left _ _)
        refine ⟨hlines.phis, fun y hy => ?_, hlines.jump⟩
        rcases List.mem_append.mp hy with hy | hy
        · exact hlines.instrs y hy
        · obtain rfl := List.mem_singleton.mp hy
          exact readable_of_plain? hl hread hx hwell (hreads y (by simp))
      · exact absurd h not_gives_throw
    · obtain ⟨rfl, -⟩ := gives_pure.mp h
      exact hb hconst

theorem readable_of_foldlM : ∀ {ls : List Line} {b b' : Block} {n n' : TempCounter},
    (∀ l ∈ ls, l.form.Named) → (Value.ReadBack b.operands → b.ReadableLines) →
      Gives (ls.foldlM addLine b) n b' n' → Value.ReadBack b'.operands → b'.ReadableLines := by
  intro ls
  induction ls with
  | nil =>
    intro b b' n n' _ hb h
    exact (gives_pure.mp h).1 ▸ hb
  | cons l ls ih =>
    intro b b' n n' hls hb h
    obtain ⟨hl, hls⟩ := List.forall_mem_cons.mp hls
    rw [List.foldlM_cons] at h
    obtain ⟨b₁, n₁, hfirst, h⟩ := gives_bind.mp h
    exact ih hls (readable_of_addLine hl hb hfirst) h

/-- What was read of a function, before its blocks are numbered. -/
structure Draft.Readable (d : Draft) : Prop where
  name : IsName d.name
  params : ∀ t ∈ d.params, t.isGlobal = false ∧ IsName t.name
  labels : ∀ e ∈ d.blocks, IsName e.1
  blocks : ∀ e ∈ d.blocks, Value.ReadBack e.2.operands → e.2.ReadableLines

theorem readable_of_draft {d : Definition} (hd : d.Named) {r : Draft} (h : Gives (draft d) n r n') :
    r.Readable := by
  obtain ⟨params, _, hparams, h⟩ := gives_bind.mp h
  obtain ⟨blocks, _, hblocks, h⟩ := gives_bind.mp h
  obtain ⟨rfl, -⟩ := gives_pure.mp h
  have hlines : ∀ e ∈ blocks, IsName e.1 ∧
      (Value.ReadBack e.2.operands → e.2.ReadableLines) := by
    intro e he
    obtain ⟨s, hs, _, _, hblock⟩ := exists_of_forall₂ (gives_mapM hblocks) e he
    obtain ⟨c, _, hc, hblock⟩ := gives_bind.mp hblock
    obtain ⟨rfl, -⟩ := gives_pure.mp hblock
    have hempty : (Block.ofId 0).ReadableLines := by
      constructor <;> simp [Block.ofId]
    exact ⟨hd.labels s hs, readable_of_foldlM (hd.lines s hs) (fun _ => hempty) hc⟩
  refine ⟨hd.name, fun t ht => ?_, fun e he => (hlines e he).1, fun e he => (hlines e he).2⟩
  obtain ⟨⟨ty, name⟩, hmem, _, _, htemp⟩ := exists_of_forall₂ (gives_mapM hparams) t ht
  obtain rfl := temp_of_gives htemp
  exact ⟨rfl, hd.params _ hmem⟩

end Reading

/-! ### Numbering and linking -/

/-- Links and numbers have no part in what the lines of a block are. -/
theorem Block.ReadableLines.of_content {b c : Block} (h : b.ReadableLines) (hphis : c.phis = b.phis)
    (hinstrs : c.instrs = b.instrs) (hjump : c.jump = b.jump) (hhints : c.hints = b.hints) :
    c.ReadableLines :=
  ⟨hphis ▸ h.phis, hinstrs ▸ h.instrs, hjump ▸ hhints ▸ h.jump⟩

theorem Func.readable_of_ofDraft {d : Reading.Draft} (hd : d.Readable) {f : Func}
    (h : Func.ofDraft d = .ok f) (hne : f.blocks ≠ [])
    (hconst : Value.ReadBack (f.blocks.flatMap Block.operands)) : f.Readable := by
  obtain ⟨es, hes, h⟩ := bind_eq_ok.mp h
  have hpairs := mapM_eq_ok.mp hes
  dsimp only at h
  split at h
  case h_2 => cases h
  rename_i hresolve
  cases h
  let total := (Block.numbered es).foldl (fun n b => max n b.id) 0
  let g : Func := ⟨total, Block.numbered es, d.name, d.retTy, d.params⟩
  have hfst : g.resolveLinks.1 = f := congrArg Prod.fst hresolve
  have hlinks := Func.resolveLinks_eq_none_iff.mp (congrArg Prod.snd hresolve : g.resolveLinks.2 = none)
  have hclear : f.blocks.map Block.clearLinks = g.blocks.map Block.clearLinks :=
    hfst ▸ map_clearLinks_resolveLinks g
  have horigin : ∀ b ∈ f.blocks, ∃ c ∈ g.blocks, c.clearLinks = b.clearLinks := fun b hb =>
    List.mem_map.mp (hclear ▸ List.mem_map_of_mem hb : b.clearLinks ∈ g.blocks.map Block.clearLinks)
  obtain ⟨bs, hshape⟩ := g.exists_resolveLinks
  have hg : f = { g with blocks := bs } := hfst.symm.trans hshape
  refine ⟨by rw [hg]; exact hd.name, by rw [hg]; exact hd.params, hne, fun b hb => ?_, fun b hb l hl => ?_⟩
  · obtain ⟨c, hc, hlinksOnly⟩ := horigin b hb
    obtain ⟨e, he, r, hr, rfl⟩ := Block.exists_of_mem_numbered hc
    obtain ⟨⟨label, c⟩, hmem, hid⟩ := exists_of_forall₂ hpairs e he
    dsimp only at hid
    split at hid
    case h_2 => cases hid
    rename_i id hnumber
    cases hid
    have hcode := congrArg Block.operands hlinksOnly
    have hlines : c.ReadableLines := by
      refine hd.blocks _ hmem (hconst.mono fun v hv => List.mem_flatMap.mpr ⟨b, hb, ?_⟩)
      exact hcode ▸ hv
    refine ⟨hlines.of_content ?_ ?_ ?_ ?_, ?_⟩
    · exact (congrArg Block.phis hlinksOnly).symm
    · exact (congrArg Block.instrs hlinksOnly).symm
    · exact (congrArg Block.jump hlinksOnly).symm
    · exact (congrArg Block.hints hlinksOnly).symm
    · have hid : b.id = id := (congrArg Block.id hlinksOnly).symm.trans hr
      rw [hid]
      exact Label.blockId?_mem (hd.labels _ hmem) hnumber
  · obtain ⟨c, hc, hlinksOnly⟩ := horigin b hb
    have htargets : c.targets = b.targets := (congrArg Block.targets hlinksOnly :)
    obtain ⟨c', hc', hlabel⟩ := hlinks c hc l (htargets ▸ hl)
    obtain ⟨b', hb', hlinksOnly'⟩ := List.mem_map.mp
      (hclear ▸ List.mem_map_of_mem hc' : c'.clearLinks ∈ f.blocks.map Block.clearLinks)
    exact ⟨b', hb', (congrArg Block.label hlinksOnly' :).trans hlabel⟩

/-- A program that was read is readable, if its constants are. -/
theorem Program.readable_of_parse {s : String} {p : Program} (h : Program.parse s = .ok p)
    (hconst : Value.ReadBack p.operands) : ∀ f ∈ p.funcs, f.Readable := by
  intro f hf
  obtain ⟨defs, d, r, n, n', hdefs, hd, hdraft, hofDraft⟩ := Program.exists_draft_of_parse h hf
  have hnamed := Text.named_of_definitions? hdefs d hd
  exact Func.readable_of_ofDraft (Reading.readable_of_draft hnamed hdraft) hofDraft
    (Program.spelled_of_parse h f hf).nonempty (hconst.mono fun v hv => List.mem_flatMap.mpr ⟨f, hf, hv⟩)

end LoopLanes
