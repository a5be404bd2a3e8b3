/-
Programs that are written and read again.

Not everything is read as it was: a call of type `void` is given a fresh name that its text does not
show.  The text is what stays.

* `Program.exists_parse_text` — what program text can spell is read back from its text, and then
  written as the same text;
* **`Program.parse_text`** — so is every program that was read from any text, as long as the texts of
  its constants stand for them (`LoopLanes.Proofs.Text.Constants` has one that does not).
-/
import LoopLanes.Proofs.Text.Readable
import LoopLanes.Proofs.Text.Spelling

namespace LoopLanes

open Text

/-! ### Reading definitions -/

/-- What was read of a function, before its blocks are numbered. -/
structure Func.Drafted (f : Func) (d : Reading.Draft) : Prop where
  retTy : d.retTy = f.retTy
  name : d.name = f.name
  params : d.params = f.params
  blocks : List.Forall₂ (fun b e => e.1 = b.label.name ∧ b.Alike e.2) f.blocks d.blocks

theorem Func.gives_draft {f : Func} (hparams : ∀ t ∈ f.params, t.isGlobal = false ∧ IsName t.name)
    {d : Definition} (h : f.Means d) (n : TempCounter) :
    ∃ r n', Gives (Reading.draft d) n r n' ∧ f.Drafted r := by
  have htemps : ∀ n, ∃ n', Gives (d.params.mapM fun p => Reading.temp p.2 p.1) n f.params n' := by
    refine exists_gives_mapM_eq (((List.forall₂_and_left _ _).mpr ⟨hparams, h.params⟩).imp ?_)
    rintro t _ ⟨⟨hlocal, -⟩, rfl⟩ n
    have ht : Temp.ofLocal t.name t.ty = t := by rw [Temp.ofLocal, ← hlocal]
    exact ⟨n.reserve t.name, ht ▸ Reading.gives_temp t.name t.ty n⟩
  have hblocks : ∀ n, ∃ bs n', Gives (d.sections.mapM Reading.block) n bs n' ∧
      List.Forall₂ (fun (b : Block) e => e.1 = b.label.name ∧ b.Alike e.2) f.blocks bs := by
    refine exists_gives_mapM (h.sections.imp ?_)
    rintro b s ⟨hlabel, hlines⟩ n
    obtain ⟨c, n', hc, halike⟩ := hlines n
    exact ⟨(s.label, c), n', gives_bind.mpr ⟨c, n', hc, gives_pure.mpr ⟨rfl, rfl⟩⟩, hlabel, halike⟩
  obtain ⟨n₁, h₁⟩ := htemps n
  obtain ⟨bs, n₂, h₂, hbs⟩ := hblocks n₁
  exact ⟨⟨d.retTy, d.name, f.params, bs⟩, n₂, gives_bind.mpr ⟨_, n₁, h₁,
    gives_bind.mpr ⟨bs, n₂, h₂, gives_pure.mpr ⟨rfl, rfl⟩⟩⟩, h.retTy, h.name, rfl, hbs⟩

/-! ### Numbering and linking -/

/-- Blocks with the numbers that their labels stand for. -/
theorem Block.exists_numbers {bs : List Block} (h : ∀ b ∈ bs, b.Readable) {f : String}
    {rs : List (String × Block)}
    (hrs : List.Forall₂ (fun (b : Block) e => e.1 = b.label.name ∧ b.Alike e.2) bs rs) :
    ∃ es, (rs.mapM fun (l, b) =>
        match Label.blockId? ⟨l⟩ with
        | some id => (.ok (id, b) : Except SourceError (Int × Block))
        | none => .error (.badLabel f l)) = .ok es ∧
      List.Forall₂ (fun (b : Block) e => e.1 = b.id ∧ b.Alike e.2) bs es := by
  refine exists_mapM_eq_ok (((List.forall₂_and_left _ _).mpr ⟨h, hrs⟩).imp ?_)
  rintro b ⟨_, c⟩ ⟨hb, rfl, halike⟩
  have hid : Label.blockId? ⟨b.label.name⟩ = some b.id :=
    Label.blockId?_ofBlock (Int.le_trans (by decide) hb.id.1) hb.id.2
  exact ⟨(b.id, c), by simp only [hid], rfl, halike⟩

theorem Block.forall₂_numbered {bs : List Block} {es : List (Int × Block)}
    (h : List.Forall₂ (fun (b : Block) e => e.1 = b.id ∧ b.Alike e.2) bs es) :
    List.Forall₂ (fun (b : Block) c => c.id = b.id ∧ b.Alike c) bs (Block.numbered es) := by
  induction h with
  | nil => exact .nil
  | cons hb _ ih => exact .cons ⟨hb.1, ⟨hb.2.phis, hb.2.instrs, hb.2.jump, hb.2.hints⟩⟩ ih

theorem Func.ofDraft_of_drafted {f : Func} (h : f.Readable) {d : Reading.Draft} (hd : f.Drafted d) :
    ∃ g, Func.ofDraft d = .ok g ∧ g.text = f.text := by
  obtain ⟨es, hes, hpairs⟩ := Block.exists_numbers h.blocks hd.blocks
  have hblocks := Block.forall₂_numbered hpairs
  have hlabel : ∀ {b c : Block}, c.id = b.id → c.label = b.label := congrArg Label.ofBlock
  let total := (Block.numbered es).foldl (fun n b => max n b.id) 0
  let g : Func := ⟨total, Block.numbered es, d.name, d.retTy, d.params⟩
  -- every jump target is found, as it is in the function that was written
  have hlinks : g.resolveLinks.2 = none := by
    refine Func.resolveLinks_eq_none_iff.mpr fun c hc l hl => ?_
    obtain ⟨b, hb, -, halike⟩ := exists_of_forall₂ hblocks c hc
    have htargets : c.targets = b.targets := by rw [Block.targets, Block.targets, halike.jump]
    obtain ⟨b', hb', rfl⟩ := h.targets b hb l (htargets ▸ hl)
    obtain ⟨c', hc', hid, -⟩ := exists_of_forall₂ hblocks.flip b' hb'
    exact ⟨c', hc', hlabel hid⟩
  refine ⟨g.resolveLinks.1, ?_, ?_⟩
  · refine bind_eq_ok.mpr ⟨es, hes, ?_⟩
    have hpair : g.resolveLinks = (g.resolveLinks.1, none) := Prod.ext rfl hlinks
    dsimp only
    rw [hpair]
  · have htexts : g.blocks.map Block.text = f.blocks.map Block.text := by
      have hmap : List.Forall₂ (fun (b : Block) c => c.text = b.text) f.blocks g.blocks :=
        hblocks.imp fun b c h => h.2.text_eq (hlabel h.1)
      rw [← List.forall₂_eq_eq_eq, List.forall₂_map_left_iff, List.forall₂_map_right_iff]
      exact hmap.flip
    have hhead : g.head = f.head := by
      rw [Func.head, Func.head, show g.retTy = f.retTy from hd.retTy, show g.name = f.name from hd.name,
        show g.params = f.params from hd.params]
    rw [Func.text_resolveLinks, Func.text, Func.text, hhead, htexts]

/-- What program text can spell is read back from its text, as a program of the same text. -/
theorem Program.exists_parse_text {p : Program} (h : ∀ f ∈ p.funcs, f.Readable) :
    ∃ q, Program.parse p.text = .ok q ∧ q.text = p.text := by
  obtain ⟨ds, hds, hmeans⟩ := Program.definitions?_text h
  have hdrafts : List.Forall₂ (fun (f : Func) d => ∀ n, ∃ r n',
      Gives (Reading.draft d) n r n' ∧ f.Readable ∧ f.Drafted r) p.funcs ds := by
    refine ((List.forall₂_and_left _ _).mpr ⟨h, hmeans⟩).imp ?_
    rintro f d ⟨hf, hd⟩ n
    obtain ⟨r, n', hr, hdrafted⟩ := Func.gives_draft hf.params hd n
    exact ⟨r, n', hr, hf, hdrafted⟩
  obtain ⟨rs, n, hrs, hall⟩ := exists_gives_mapM hdrafts 0
  obtain ⟨gs, hgs, htexts⟩ := exists_mapM_eq_ok
    (hall.imp fun f r ⟨hf, hr⟩ => Func.ofDraft_of_drafted hf hr)
  refine ⟨⟨gs, n⟩, ?_, ?_⟩
  · rw [Program.parse, Program.parseFrom, hds]
    refine bind_eq_ok.mpr ⟨rs, congrArg Prod.fst hrs, bind_eq_ok.mpr ⟨gs, hgs, ?_⟩⟩
    exact congrArg (fun n => Except.ok (Program.mk gs n)) (congrArg Prod.snd hrs)
  · have hmap : gs.map Func.text = p.funcs.map Func.text := by
      rw [← List.forall₂_eq_eq_eq, List.forall₂_map_left_iff, List.forall₂_map_right_iff]
      exact htexts.flip
    rw [text, text, hmap]

/-- A program that was read prints as a text that is read again, and printed the same; that is, unless
one of its constants is not read back from its own text. -/
theorem Program.parse_text {s : String} {p : Program} (h : Program.parse s = .ok p)
    (hconst : Value.ReadBack p.operands) : ∃ q, Program.parse p.text = .ok q ∧ q.text = p.text :=
  exists_parse_text (readable_of_parse h hconst)

/-- A loop that halves a number, with spellings that are not kept: a zero in front of a label, a
constant with an exponent, a key given twice. -/
def halving : String := "define f32 @f(f32 %x) \x7b
entry:
  br label %B1
B01:
  %y = fmul f32 %x, 5.0e-1
  br label %B1, !loop \x7bwidth = 4, width = 8\x7d
\x7d
"

/-- Of the constants with a point, only one half. -/
def Value.isWholeOrHalf : Value → Bool
  | .float x => decide (x = .ofBits 0x3f000000)
  | _ => true

set_option maxRecDepth 100000 in
theorem Program.parse_text_of_halving : ∃ p q, Program.parse halving = .ok p ∧ p.text ≠ halving ∧
    Program.parse p.text = .ok q ∧ q.text = p.text := by
  obtain ⟨p, hp, h⟩ := Program.exists_of_chars (s := halving)
    (P := fun p => p.text != halving && p.operands.all Value.isWholeOrHalf)
    (by
      unfold halving
      exact String.toList_ofList) (by decide +kernel)
  obtain ⟨hne, hall⟩ := Bool.and_eq_true_iff.mp h
  have hdigit {d : Char} (h : isDigit d = true) : IsSigned [] [d] := ⟨.inl rfl, List.cons_ne_nil _ _, by simpa using h⟩
  have hhalf : ReadsBack (.ofBits 0x3f000000) :=
    ⟨⟨[], ['0'], ['5'], [], hdigit rfl, hdigit rfl, by decide +kernel, .inl rfl⟩, by decide +kernel⟩
  have hconst : Value.ReadBack p.operands := by
    intro x hx
    obtain rfl := of_decide_eq_true (List.all_eq_true.mp hall _ hx)
    exact hhalf
  obtain ⟨q, hq, htext⟩ := Program.parse_text hp hconst
  exact ⟨p, q, hp, bne_iff_ne.mp hne, hq, htext⟩

end LoopLanes
