/-
Blocks, functions and programs as they are written.

A block is a label and its lines, each on a line of its own; the lines are read until something comes
that is none, the next label or the bracket behind the last block.  A block without lines leaves
nothing between the label and what follows, so that the line break is read with the label.

* `Block.reads_text`, `Func.reads_text`, `Program.definitions?_text` — what the grammar makes of the
  text, and what becomes of it.
-/
import LoopLanes.Proofs.Text.Edges

namespace LoopLanes

open Text

/-- Lines of a block that program text can spell. -/
structure Block.ReadableLines (b : Block) : Prop where
  phis : ∀ p ∈ b.phis, p.Readable
  instrs : ∀ x ∈ b.instrs, x.Readable
  jump : ∀ x ∈ b.jump, x.ReadableExit b.hints

/-- A block that program text can spell. -/
structure Block.Readable (b : Block) : Prop extends b.ReadableLines where
  id : 0 ≤ b.id ∧ b.id ≤ i32Max

/-- A function that program text can spell. -/
structure Func.Readable (f : Func) : Prop where
  name : IsName f.name
  params : ∀ t ∈ f.params, t.isGlobal = false ∧ IsName t.name
  nonempty : f.blocks ≠ []
  blocks : ∀ b ∈ f.blocks, b.Readable
  targets : ∀ b ∈ f.blocks, ∀ l ∈ b.targets, ∃ c ∈ f.blocks, c.label = l

/-- The content of two blocks has one text. -/
structure Block.Alike (b c : Block) : Prop where
  phis : c.phis.map Phi.text = b.phis.map Phi.text
  instrs : c.instrs.map Instr.text = b.instrs.map Instr.text
  jump : c.jump = b.jump
  hints : c.jump ≠ none → c.hints = b.hints

namespace Text

variable {cs rest : List Char}

/-- What may stand in the line behind a block: the start of none. -/
structure Behind (rest : List Char) : Prop where
  solid : Solid rest
  comma : rest.head? ≠ some ','
  line : Fails line rest

theorem fails_line {c : Char} (hname : c ≠ '%') (hcall : c ≠ 'c') (hstore : c ≠ 's') (hbr : c ≠ 'b')
    (hret : c ≠ 'r') (cs : List Char) : Fails line (c :: cs) := by
  have hword {w : String} {d : Char} {ds : List Char} (hw : w.toList = d :: ds) (hd : c ≠ d) :
      Fails (word w) (c :: cs) := by
    refine fails_word ?_
    have hne : d ≠ c := hd.symm
    simp [hw, List.isPrefixOf, hne]
  have hassigned : Fails assigned (c :: cs) := fails_assigned (by simpa using hname)
  have hcall : Fails call (c :: cs) := hassigned.option.bind_fails fun _ _ => (hword rfl hcall).bind _
  refine (reads_here _).bind_fails fun pos _ => Fails.bind ?_ _
  refine (hassigned.bind _).orElse_fails ((hassigned.bind _).orElse_fails ?_)
  refine (hassigned.bind _).orElse_fails ((hassigned.bind _).orElse_fails ?_)
  refine (hassigned.bind _).orElse_fails ((hassigned.bind _).orElse_fails (hcall.orElse_fails ?_))
  refine ((hword rfl hstore).bind _).orElse_fails (((hword rfl hbr).bind _).orElse_fails ?_)
  exact ((hword rfl hbr).bind _).orElse_fails ((hword rfl hret).bind _)

theorem behind_bracket (cs : List Char) : Behind ('\x7d' :: cs) where
  solid := solid_cons (by decide) _
  comma := by simp
  line := fails_line (by decide) (by decide) (by decide) (by decide) (by decide) _

/-- Labels start with a letter that no line starts with. -/
theorem behind_label (id : Int) (cs : List Char) : Behind ((Label.ofBlock id).name.toList ++ cs) := by
  by_cases h : id = 0
  · subst h
    exact ⟨solid_cons (by decide) _, by simp [Label.ofBlock],
      fails_line (by decide) (by decide) (by decide) (by decide) (by decide) _⟩
  · rw [Label.toList_ofBlock h]
    exact ⟨solid_cons (by decide) _, by simp,
      fails_line (by decide) (by decide) (by decide) (by decide) (by decide) _⟩

theorem isName_ofBlock {id : Int} (h : 0 ≤ id) : IsName (Label.ofBlock id).name := by
  by_cases h0 : id = 0
  · subst h0
    exact ⟨nofun, List.all_eq_true.mp rfl⟩
  · obtain ⟨n, rfl⟩ := Int.eq_ofNat_of_zero_le h
    have hlabel : (Label.ofBlock n).name.toList = 'B' :: Nat.toDigits 10 n := by
      rw [Label.toList_ofBlock h0, ← Nat.toList_repr]
      rfl
    refine ⟨by rw [hlabel]; exact List.cons_ne_nil _ _, ?_⟩
    rw [hlabel]
    exact List.forall_mem_cons.mpr
      ⟨rfl, fun c hc => isNameChar_of_isDigit (isDigit_of_mem_toDigits hc)⟩

theorem Starts.noComma (h : Starts cs) {bs : List Char} (hbs : bs.all Cursor.isBlank)
    (rest : List Char) : NoComma (bs ++ (cs ++ rest)) := by
  refine ⟨bs, cs ++ rest, rfl, hbs, h.solid rest, fun hcomma => ?_⟩
  obtain ⟨c, hc, -, -, hne⟩ := h.append rest
  exact hne (Option.some.inj (hc.symm.trans hcomma))

end Text

/-! ### Lines of a block -/

theorem Phi.starts_text {p : Phi} (h : p.Readable) : Starts p.text.toList :=
  ⟨'%', by simp [Phi.text, Temp.text, h.target.1, toString], by decide⟩

theorem Instr.starts_text {x : Instr} (h : x.Readable) : Starts x.text.toList := by
  have hscalar := h.scalar
  have hlocal : ∀ t ∈ x.write, t.isGlobal = false := fun t ht => (h.write t ht).1
  cases x with
  | arith t | comp t | select t | load t | gep t =>
    exact ⟨'%', by simp [Instr.text, Temp.text, hlocal t rfl, toString], by decide⟩
  | store => exact ⟨'s', by simp [Instr.text, toString], by decide⟩
  | call t ty =>
    by_cases hvoid : ty = .void
    · exact ⟨'c', by simp [Instr.text, hvoid, toString], by decide⟩
    · exact ⟨'%', by simp [Instr.text, hvoid, Temp.text, hlocal t (if_neg hvoid), toString], by decide⟩
  | jump | branch | phi | ret | vec | ladder | buildVec | reduce => cases hscalar

theorem Instr.starts_exitText {x : Instr} {hs : Option Hints} (h : x.ReadableExit hs) :
    Starts (x.exitText hs).toList := by
  rw [Instr.exitText, String.toList_append]
  refine Starts.append ?_ _
  cases x with
  | jump => exact ⟨'b', by simp [Instr.text, toString], by decide⟩
  | branch => exact ⟨'b', by simp [Instr.text, toString], by decide⟩
  | ret o => cases o <;> exact ⟨'r', by simp [Instr.text, toString], by decide⟩
  | arith | comp | select | phi | store | load | gep | call | vec | ladder | buildVec | reduce =>
    exact h.elim

namespace Block

variable {b c : Block}

/-- The lines of a block, each with what it does to a block. -/
def items (b : Block) : List (String × (Line → Prop)) :=
  b.phis.map (fun p => (p.text, p.Adds)) ++ b.instrs.map (fun x => (x.text, x.Adds)) ++
    b.jump.toList.map fun x => (x.exitText b.hints, x.Closes b.hints)

theorem map_fst_items (b : Block) : b.items.map (·.1) =
    b.phis.map Phi.text ++ b.instrs.map Instr.text ++ b.jump.toList.map (·.exitText b.hints) := by
  simp [items, Function.comp_def]

theorem text_eq (b : Block) :
    b.text = b.label.name ++ ":\n" ++ "\n".intercalate ((b.items.map (·.1)).map ("  " ++ ·)) := by
  obtain ⟨ref, prev, succ, phis, instrs, jump, hints⟩ := b
  rw [map_fst_items]
  cases jump <;> cases hints <;>
    simp [text, Instr.exitText, Function.comp_def, String.append_assoc]

/-- A block starts with its label. -/
theorem exists_text (b : Block) : ∃ s, b.text = b.label.name ++ s :=
  ⟨_, (text_eq b).trans (String.append_assoc ..)⟩

theorem Alike.text_eq (h : b.Alike c) (hlabel : c.label = b.label) : c.text = b.text := by
  have hjump : c.jump.toList.map (·.exitText c.hints) = b.jump.toList.map (·.exitText b.hints) := by
    by_cases hnone : c.jump = none
    · rw [← h.jump, hnone]
      rfl
    · rw [h.jump, h.hints hnone]
  rw [Block.text_eq, Block.text_eq, map_fst_items, map_fst_items, hlabel, h.phis, h.instrs, hjump]

theorem reads_item (h : b.Readable) : ∀ i ∈ b.items, Starts i.1.toList ∧ ∀ rest,
    Stops isNameChar rest → NoComma rest → Reads line i.2 (i.1.toList ++ rest) rest := by
  intro i hi
  simp only [items, List.mem_append, List.mem_map, Option.mem_toList] at hi
  rcases hi with (⟨p, hp, rfl⟩ | ⟨x, hx, rfl⟩) | ⟨x, hx, rfl⟩
  · exact ⟨Phi.starts_text (h.phis p hp), fun rest _ hcomma => Phi.reads_text (h.phis p hp) hcomma⟩
  · exact ⟨Instr.starts_text (h.instrs x hx), fun rest hstops _ =>
      Instr.reads_text (h.instrs x hx) hstops⟩
  · exact ⟨Instr.starts_exitText (h.jump x hx), fun rest hstops hcomma =>
      Instr.reads_exitText (h.jump x hx) hstops hcomma⟩

end Block

namespace Text

variable {rest : List Char} {is : List (String × (Line → Prop))}

/-- Lines behind a first one. -/
def following (is : List (String × (Line → Prop))) (rest : List Char) : List Char :=
  is.flatMap (fun i => '\n' :: ' ' :: ' ' :: i.1.toList) ++ '\n' :: rest

theorem stops_following : Stops isNameChar (following is rest) := by
  cases is <;> exact stops_cons rfl _

theorem noComma_following (his : ∀ i ∈ is, Starts i.1.toList) (hrest : Behind rest) :
    NoComma (following is rest) := by
  cases is with
  | nil => exact ⟨['\n'], rest, rfl, rfl, hrest.solid, hrest.comma⟩
  | cons i is =>
    have e : following (i :: is) rest = ['\n', ' ', ' '] ++ (i.1.toList ++ following is rest) := by
      simp [following]
    rw [e]
    exact (his i List.mem_cons_self).noComma rfl _

theorem reads_star_line {i : String × (Line → Prop)} (h : ∀ j ∈ i :: is, Starts j.1.toList ∧ ∀ t,
    Stops isNameChar t → NoComma t → Reads line j.2 (j.1.toList ++ t) t) (hrest : Behind rest) :
    Reads (star line) (List.Forall₂ (fun j l => j.2 l) (i :: is)) (i.1.toList ++ following is rest)
      ('\n' :: rest) := by
  have hline : ∀ j js, j ∈ i :: is → js ⊆ is →
      Reads line j.2 (j.1.toList ++ following js rest) (following js rest) := by
    intro j js hj hjs
    refine (h j hj).2 _ stops_following (noComma_following (fun k hk => ?_) hrest)
    exact (h k (List.mem_cons_of_mem _ (hjs hk))).1
  -- what is left after some lines is spelled by the others
  let S (js : List (String × (Line → Prop))) (cs : List Char) : Prop :=
    js ⊆ is ∧ cs = following js rest
  have hnil : ∀ cs, S [] cs → Fails (skip *> line) cs := by
    rintro _ ⟨-, rfl⟩
    exact (reads_skip ['\n'] rfl hrest.solid).bind_fails fun _ _ => hrest.line
  have hcons : ∀ j js cs, S (j :: js) cs →
      ∃ cs', S js cs' ∧ cs'.length < cs.length ∧ Reads (skip *> line) j.2 cs cs' := by
    rintro j js _ ⟨hsub, rfl⟩
    obtain ⟨hj, hjs⟩ := List.cons_subset.mp hsub
    have e : following (j :: js) rest = ['\n', ' ', ' '] ++ (j.1.toList ++ following js rest) := by
      simp [following]
    have hsolid := (h j (List.mem_cons_of_mem _ hj)).1.solid (following js rest)
    refine ⟨following js rest, ⟨hjs, rfl⟩, ?_, ?_⟩
    · rw [e]
      simp only [List.length_append, List.length_cons, List.length_nil]
      omega
    · rw [e]
      exact (reads_skip ['\n', ' ', ' '] rfl hsolid).bind fun _ _ =>
        hline j js (List.mem_cons_of_mem _ hj) hjs
  obtain ⟨_, ⟨-, rfl⟩, hread⟩ := reads_star_cons hnil hcons
    (hline i is List.mem_cons_self (List.Subset.refl _)) ⟨List.Subset.refl _, rfl⟩
  exact hread

end Text

namespace Block

variable {b : Block} {n : TempCounter}

theorem gives_phis {ps : List Phi} {ls : List Line} (h : List.Forall₂ (fun p l => p.Adds l) ps ls)
    (hb : b.jump = none) : ∃ qs n', qs.map Phi.text = b.phis.map Phi.text ++ ps.map Phi.text ∧
      Gives (ls.foldlM Reading.addLine b) n { b with phis := qs } n' := by
  induction h generalizing b n with
  | nil => exact ⟨b.phis, n, by simp, gives_pure.mpr ⟨rfl, rfl⟩⟩
  | @cons p l ps ls hp _ ih =>
    obtain ⟨q, n₁, hq, hl⟩ := hp b n hb
    obtain ⟨qs, n₂, hqs, hls⟩ := @ih { b with phis := b.phis ++ [q] } n₁ hb
    refine ⟨qs, n₂, ?_, gives_bind.mpr ⟨_, n₁, hl, hls⟩⟩
    rw [hqs, List.map_append, List.map_singleton, hq, List.append_assoc, List.map_cons]
    rfl

theorem gives_instrs {xs : List Instr} {ls : List Line}
    (h : List.Forall₂ (fun x l => x.Adds l) xs ls) (hb : b.jump = none) :
    ∃ ys n', ys.map Instr.text = b.instrs.map Instr.text ++ xs.map Instr.text ∧
      Gives (ls.foldlM Reading.addLine b) n { b with instrs := ys } n' := by
  induction h generalizing b n with
  | nil => exact ⟨b.instrs, n, by simp, gives_pure.mpr ⟨rfl, rfl⟩⟩
  | @cons x l xs ls hx _ ih =>
    obtain ⟨y, n₁, hy, hl⟩ := hx b n hb
    obtain ⟨ys, n₂, hys, hls⟩ := @ih { b with instrs := b.instrs ++ [y] } n₁ hb
    refine ⟨ys, n₂, ?_, gives_bind.mpr ⟨_, n₁, hl, hls⟩⟩
    rw [hys, List.map_append, List.map_singleton, hy, List.append_assoc, List.map_cons]
    rfl

/-- The lines of a block are read as a block of the same content. -/
theorem gives_items {ls : List Line} (h : List.Forall₂ (fun i l => i.2 l) b.items ls)
    (n : TempCounter) :
    ∃ c n', Gives (ls.foldlM Reading.addLine (Block.ofId 0)) n c n' ∧ b.Alike c := by
  obtain ⟨front, last, rfl, hfront, hlast⟩ := forall₂_append_left h
  obtain ⟨first, middle, rfl, hfirst, hmiddle⟩ := forall₂_append_left hfront
  rw [List.forall₂_map_left_iff] at hfirst hmiddle hlast
  obtain ⟨qs, n₁, hqs, hphis⟩ := gives_phis (b := Block.ofId 0) (n := n) hfirst rfl
  obtain ⟨ys, n₂, hys, hinstrs⟩ :=
    gives_instrs (b := { Block.ofId 0 with phis := qs }) (n := n₁) hmiddle rfl
  have hread := gives_foldlM_append.mpr ⟨_, n₁, hphis, hinstrs⟩
  cases hj : b.jump with
  | none =>
    rw [hj] at hlast
    cases hlast
    exact ⟨_, n₂, by rwa [List.append_nil], hqs, hys, hj.symm, fun hne => absurd rfl hne⟩
  | some x =>
    rw [hj] at hlast
    obtain _ | ⟨hclose, ⟨⟩⟩ := hlast
    obtain ⟨n₃, hx⟩ := hclose { Block.ofId 0 with phis := qs, instrs := ys } n₂ rfl
    refine ⟨{ Block.ofId 0 with phis := qs, instrs := ys, jump := some x, hints := b.hints }, n₃,
      gives_foldlM_append.mpr ⟨_, n₂, hread, ?_⟩, hqs, hys, hj.symm, fun _ => rfl⟩
    exact gives_bind.mpr ⟨_, n₃, hx, gives_pure.mpr ⟨rfl, rfl⟩⟩

/-- A section that is read as a block of this label and content. -/
def Means (b : Block) (s : Section) : Prop :=
  s.label = b.label.name ∧ ∀ n, ∃ c n',
    Gives (s.lines.foldlM Reading.addLine (Block.ofId 0)) n c n' ∧ b.Alike c

/-- Blocks are read back from their text, up to blanks behind them. -/
theorem reads_text (h : b.Readable) {rest : List Char} (hrest : Behind rest) :
    ∃ ws, (ws = [] ∨ ws = ['\n']) ∧
      Reads block b.Means (b.text.toList ++ '\n' :: rest) (ws ++ rest) := by
  have hname : IsName b.label.name := isName_ofBlock h.id.1
  have hlast {ls : List Line} (hls : List.Forall₂ (fun i l => i.2 l) b.items ls) :
      b.Means ⟨b.label.name, ls⟩ := ⟨rfl, gives_items hls⟩
  have hitems := reads_item h
  have htext := b.text_eq
  cases hlines : b.items with
  | nil =>
    have e : b.text.toList ++ '\n' :: rest = b.label.name.toList ++ ':' :: (['\n', '\n'] ++ rest) := by
      rw [htext, hlines]
      simp
    rw [hlines] at hlast
    refine ⟨[], .inl rfl, ?_⟩
    rw [e]
    refine (reads_name hname (stops_cons rfl _)).bind_eq ((reads_word ":" _).bind fun _ _ => ?_)
    refine (reads_skip ['\n', '\n'] rfl hrest.solid).bind fun _ _ => ?_
    refine (reads_star_nil hrest.line).bind_eq ((reads_pure _ _).mono ?_)
    rintro _ rfl
    exact hlast .nil
  | cons i is =>
    have e : b.text.toList ++ '\n' :: rest = b.label.name.toList ++
        ':' :: (['\n', ' ', ' '] ++ (i.1.toList ++ following is rest)) := by
      rw [htext, hlines]
      rw [List.map_cons, List.map_cons, String.toList_append, toList_intercalate_cons]
      simp [following, List.flatMap_map]
    rw [hlines] at hitems hlast
    refine ⟨['\n'], .inr rfl, ?_⟩
    rw [e]
    refine (reads_name hname (stops_cons rfl _)).bind_eq ((reads_word ":" _).bind fun _ _ => ?_)
    have hsolid := (hitems i List.mem_cons_self).1.solid (following is rest)
    refine (reads_skip ['\n', ' ', ' '] rfl hsolid).bind fun _ _ => ?_
    refine (reads_star_line hitems hrest).bind fun ls hls => (reads_pure _ _).mono ?_
    rintro _ rfl
    exact hlast hls

end Block

/-! ### Functions -/

/-- A definition that is read as a function of this text. -/
structure Func.Means (f : Func) (d : Definition) : Prop where
  retTy : d.retTy = f.retTy
  name : d.name = f.name
  params : List.Forall₂ (fun (t : Temp) p => p = (t.ty, t.name)) f.params d.params
  sections : List.Forall₂ Block.Means f.blocks d.sections

theorem Func.starts_text (f : Func) : Starts f.text.toList :=
  ⟨'d', by simp [Func.text, Func.head, toString], by decide⟩

namespace Text

variable {rest : List Char} {bs : List Block}

/-- Blocks each with a line break behind it, and the bracket behind the last one. -/
def upToBracket (bs : List Block) (rest : List Char) : List Char :=
  bs.flatMap (fun b => b.text.toList ++ ['\n']) ++ '\x7d' :: rest

theorem behind_upToBracket : Behind (upToBracket bs rest) := by
  cases bs with
  | nil => exact behind_bracket rest
  | cons b bs =>
    obtain ⟨s, hs⟩ := b.exists_text
    have e : upToBracket (b :: bs) rest = b.label.name.toList ++ (s.toList ++ '\n' :: upToBracket bs rest) := by
      simp [upToBracket, hs]
    rw [e]
    exact behind_label b.id _

theorem reads_star_block (h : ∀ b ∈ bs, b.Readable) (rest : List Char) :
    ∃ ws, ws.all Cursor.isBlank ∧
      Reads (star block) (List.Forall₂ Block.Means bs) (upToBracket bs rest) (ws ++ '\x7d' :: rest) := by
  have hblanks {ws : List Char} (hws : ws = [] ∨ ws = ['\n']) : ws.all Cursor.isBlank := by
    rcases hws with rfl | rfl <;> rfl
  have hfails : Fails block ('\x7d' :: rest) := Fails.bind (Fails.bind (fails_chars1 (stops_cons rfl _)) _) _
  have hread {b : Block} {bs' : List Block} (hb : b ∈ bs) : ∃ ws, (ws = [] ∨ ws = ['\n']) ∧
      Reads block b.Means (upToBracket (b :: bs') rest) (ws ++ upToBracket bs' rest) := by
    have e : upToBracket (b :: bs') rest = b.text.toList ++ '\n' :: upToBracket bs' rest := by
      simp [upToBracket]
    rw [e]
    exact Block.reads_text (h b hb) behind_upToBracket
  cases bs with
  | nil => exact ⟨[], rfl, (reads_star_nil hfails).mono fun _ e => e ▸ .nil⟩
  | cons b bs =>
    let S (cs : List Block) (ds : List Char) : Prop :=
      cs ⊆ bs ∧ ∃ ws, ws.all Cursor.isBlank ∧ ds = ws ++ upToBracket cs rest
    have hnil : ∀ ds, S [] ds → Fails (skip *> block) ds := by
      rintro _ ⟨-, ws, hws, rfl⟩
      exact (reads_skip ws hws (behind_bracket rest).solid).bind_fails fun _ _ => hfails
    have hcons : ∀ c cs ds, S (c :: cs) ds →
        ∃ ds', S cs ds' ∧ ds'.length < ds.length ∧ Reads (skip *> block) c.Means ds ds' := by
      rintro c cs _ ⟨hsub, ws, hws, rfl⟩
      obtain ⟨hc, hcs⟩ := List.cons_subset.mp hsub
      obtain ⟨ws', hws', hblock⟩ := @hread c cs (List.mem_cons_of_mem _ hc)
      refine ⟨_, ⟨hcs, ws', hblanks hws', rfl⟩, ?_, ?_⟩
      · obtain ⟨s, hs⟩ := c.exists_text
        have hname : 0 < c.label.name.toList.length :=
          List.length_pos_of_ne_nil (isName_ofBlock (h c (List.mem_cons_of_mem _ hc)).id.1).1
        have hlength : ws'.length ≤ 1 := by
          rcases hws' with rfl | rfl <;> decide
        simp only [upToBracket, List.flatMap_cons, hs, String.toList_append, List.length_append,
          List.length_cons, List.length_nil]
        omega
      · exact (reads_skip ws hws behind_upToBracket.solid).bind fun _ _ => hblock
    obtain ⟨ws, hws, hfirst⟩ := @hread b bs List.mem_cons_self
    obtain ⟨_, ⟨-, ws', hws', rfl⟩, hstar⟩ := reads_star_cons hnil hcons hfirst
      ⟨List.Subset.refl _, ws, hblanks hws, rfl⟩
    exact ⟨ws', hws', hstar⟩

theorem reads_params {ps : List Temp} (h : ∀ t ∈ ps, t.isGlobal = false ∧ IsName t.name)
    (rest : List Char) :
    Reads (parenthesized param) (List.Forall₂ (fun (t : Temp) p => p = (t.ty, t.name)) ps)
      ('(' :: ((", ".intercalate (ps.map fun t => s!"{t.ty.text} {t.text}")).toList ++ ')' :: rest))
      rest := by
  refine reads_parenthesized (fun _ _ => rfl) fun t ht => ?_
  obtain ⟨hlocal, hname⟩ := h t ht
  have htext : s!"{t.ty.text} {t.text}".toList =
      t.ty.text.toList ++ ' ' :: '%' :: t.name.toList := by
    simp [Temp.text, hlocal, toString]
  refine ⟨htext ▸ (starts_type t.ty).append _, fun cs hcs => ?_⟩
  have hstops : Stops isNameChar cs := by
    rcases hcs with hcs | rfl
    · intro c hc
      obtain rfl : ',' = c := Option.some.inj (hcs.symm.trans hc)
      rfl
    · exact stops_cons rfl _
  rw [htext, List.append_assoc, List.cons_append]
  refine (reads_type t.ty (by simp)).bind_eq ?_
  refine (reads_skip_blank (solid_cons (by decide) _)).bind fun _ _ => ?_
  exact (reads_localName hname hstops).bind_eq (reads_pure _ _)

/-- Texts with a separator behind each. -/
theorem toList_intercalate_append {sep : String} {ss : List String} (hne : ss ≠ []) (rest : List Char) :
    (sep.intercalate ss).toList ++ (sep.toList ++ rest) =
      ss.flatMap (fun s => s.toList ++ sep.toList) ++ rest := by
  obtain ⟨s, ss, rfl⟩ := List.exists_cons_of_ne_nil hne
  induction ss generalizing s with
  | nil => simp
  | cons t ss ih =>
    rw [String.intercalate_cons_cons, String.toList_append, String.toList_append, List.append_assoc,
      ih t (List.cons_ne_nil _ _)]
    simp only [List.flatMap_cons, List.append_assoc]

end Text

/-- Functions are read back from their text. -/
theorem Func.reads_text {f : Func} (h : f.Readable) (rest : List Char) :
    Reads definition f.Means (f.text.toList ++ rest) rest := by
  obtain ⟨b, bs, hbs⟩ := List.exists_cons_of_ne_nil h.nonempty
  have hreadable : ∀ c ∈ b :: bs, c.Readable := hbs ▸ h.blocks
  have hblocks : ("\n".intercalate (f.blocks.map Block.text)).toList ++ '\n' :: '\x7d' :: rest =
      b.text.toList ++ '\n' :: upToBracket bs rest := by
    rw [hbs]
    have e := @toList_intercalate_append "\n" ((b :: bs).map Block.text) (by simp) ('\x7d' :: rest)
    refine e.trans ?_
    simp [upToBracket, List.flatMap_map]
  have e : f.text.toList ++ rest = "define".toList ++ ' ' :: (f.retTy.text.toList ++ ' ' ::
      ('@' :: f.name.toList ++ '(' :: ((", ".intercalate
        (f.params.map fun t => s!"{t.ty.text} {t.text}")).toList ++ ')' :: ([' '] ++ '\x7b' ::
          (['\n'] ++ (b.text.toList ++ '\n' :: upToBracket bs rest)))))) := by
    rw [← hblocks]
    simp [Func.text, Func.head, toString]
  obtain ⟨ws, hws, hfirst⟩ := Block.reads_text (hreadable b List.mem_cons_self)
    (@behind_upToBracket rest bs)
  have hblanks : ws.all Cursor.isBlank := by
    rcases hws with rfl | rfl <;> rfl
  obtain ⟨ws', hws', hothers⟩ := reads_star_block
    (fun c hc => hreadable c (List.mem_cons_of_mem _ hc)) rest
  have hsolid : Solid (b.text.toList ++ '\n' :: upToBracket bs rest) := by
    obtain ⟨s, hs⟩ := b.exists_text
    rw [hs, String.toList_append, List.append_assoc]
    exact (behind_label b.id _).solid
  rw [e]
  refine (reads_word "define" _).bind fun _ _ => ?_
  refine (reads_skip_blank ((starts_type _).solid _)).bind fun _ _ => ?_
  refine (reads_type f.retTy (by simp)).bind_eq ?_
  refine (reads_skip_blank (solid_cons (by decide) _)).bind fun _ _ => ?_
  refine (reads_globalName h.name (stops_cons rfl _)).bind_eq ?_
  refine (reads_skip_nil (solid_cons (by decide) _)).bind fun _ _ => ?_
  refine (reads_params h.params _).bind fun ps hps => ?_
  refine (reads_skip_blank (solid_cons (by decide) _)).bind fun _ _ => ?_
  refine (reads_word "\x7b" _).bind fun _ _ => ?_
  refine (reads_skip ['\n'] rfl hsolid).bind fun _ _ => ?_
  refine hfirst.bind fun s hs => (reads_skip ws hblanks behind_upToBracket.solid).bind fun _ _ => ?_
  refine hothers.bind fun ss hss => (reads_skip ws' hws' (behind_bracket rest).solid).bind fun _ _ => ?_
  refine (reads_word "\x7d" _).bind fun _ _ => (reads_pure _ _).mono ?_
  rintro _ rfl
  exact ⟨rfl, rfl, hps, hbs ▸ .cons hs hss⟩

/-! ### Programs -/

/-- Functions are read one after the other, each behind an empty line but the first. -/
theorem Text.reads_star_definition {f : Func} {fs : List Func} (h : ∀ g ∈ f :: fs, g.Readable) :
    Reads (star definition) (List.Forall₂ Func.Means (f :: fs))
      (f.text.toList ++ (fs.flatMap (fun g => '\n' :: '\n' :: g.text.toList) ++ ['\n'])) ['\n'] := by
  let S (gs : List Func) (cs : List Char) : Prop :=
    gs ⊆ fs ∧ cs = gs.flatMap (fun g => '\n' :: '\n' :: g.text.toList) ++ ['\n']
  have hnil : ∀ cs, S [] cs → Fails (skip *> definition) cs := by
    rintro _ ⟨-, rfl⟩
    exact (reads_skip ['\n'] rfl solid_nil).bind_fails fun _ _ => fun _ _ => rfl
  have hcons : ∀ g gs cs, S (g :: gs) cs →
      ∃ cs', S gs cs' ∧ cs'.length < cs.length ∧ Reads (skip *> definition) g.Means cs cs' := by
    rintro g gs _ ⟨hsub, rfl⟩
    obtain ⟨hg, hgs⟩ := List.cons_subset.mp hsub
    refine ⟨_, ⟨hgs, rfl⟩, ?_, ?_⟩
    · simp only [List.flatMap_cons, List.length_append, List.length_cons, List.length_nil]
      omega
    · have e : (g :: gs).flatMap (fun g => '\n' :: '\n' :: g.text.toList) ++ ['\n'] =
          ['\n', '\n'] ++ (g.text.toList ++ (gs.flatMap (fun g => '\n' :: '\n' :: g.text.toList) ++
            ['\n'])) := by
        simp
      rw [e]
      exact (reads_skip ['\n', '\n'] rfl (g.starts_text.solid _)).bind fun _ _ =>
        Func.reads_text (h g (List.mem_cons_of_mem _ hg)) _
  obtain ⟨_, ⟨-, rfl⟩, hread⟩ := reads_star_cons hnil hcons
    (Func.reads_text (h f List.mem_cons_self) _) ⟨List.Subset.refl _, rfl⟩
  exact hread

/-- Programs are read back from their text. -/
theorem Program.definitions?_text {p : Program} (h : ∀ f ∈ p.funcs, f.Readable) :
    ∃ ds, definitions? p.text = some ds ∧ List.Forall₂ Func.Means p.funcs ds := by
  have hend (ds : List Definition) (hds : List.Forall₂ Func.Means p.funcs ds) :
      Reads (do if (← get).rest.isEmpty then return ds else failure)
        (List.Forall₂ Func.Means p.funcs) [] [] :=
    fun line col => ⟨ds, line, col, rfl, hds⟩
  have hread : Reads program (List.Forall₂ Func.Means p.funcs) p.text.toList [] := by
    cases hfs : p.funcs with
    | nil =>
      have e : p.text.toList = ['\n'] ++ [] := by
        simp [text, hfs]
      have hstar : Reads (star definition) (· = []) [] [] := reads_star_nil fun _ _ => rfl
      rw [e]
      refine (reads_skip ['\n'] rfl solid_nil).bind fun _ _ => hstar.bind_eq ?_
      exact (reads_skip_nil solid_nil).bind fun _ _ => hfs ▸ hend [] (hfs ▸ .nil)
    | cons f fs =>
      have e : p.text.toList =
          f.text.toList ++ (fs.flatMap (fun g => '\n' :: '\n' :: g.text.toList) ++ ['\n']) := by
        rw [text, hfs, List.map_cons, String.toList_append, toList_intercalate_cons]
        simp [List.flatMap_map]
      rw [e]
      refine (reads_skip_nil (f.starts_text.solid _)).bind fun _ _ => ?_
      refine (reads_star_definition (hfs ▸ h)).bind fun ds hds => ?_
      exact (reads_skip ['\n'] rfl solid_nil).bind fun _ _ => hfs ▸ hend ds (hfs ▸ hds)
  obtain ⟨ds, line, col, hrun, hds⟩ := hread 1 1
  refine ⟨ds, ?_, hds⟩
  rw [definitions?, Cursor.ofString, hrun]
  rfl

end LoopLanes
