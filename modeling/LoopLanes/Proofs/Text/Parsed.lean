/-
What program text can spell.

Text has no way to write instructions on vectors, phis among the instructions or global
temporaries, and every function of it has a block.  `Program.spelled_of_parse` says so of every
program that was read: definitions keep this form through reading, numbering and linking.
-/
import LoopLanes.Proofs.Cfg.Edits
import LoopLanes.Proofs.Cfg.Names
import LoopLanes.Text.Reader

namespace LoopLanes

/-- The forms of instructions besides phis and terminators that text can spell. -/
def Instr.isScalar : Instr → Bool
  | arith .. | comp .. | select .. | load .. | store .. | gep .. | call .. => true
  | _ => false

/-- The forms of terminators. -/
def Instr.isExit : Instr → Bool
  | jump _ | branch .. | ret _ => true
  | _ => false

/-- An instruction that neither reads nor writes a global temporary. -/
def Instr.IsLocal (x : Instr) : Prop := ∀ t ∈ x.mentions, t.isGlobal = false

/-- A block of forms that text can spell. -/
structure Block.Spelled (b : Block) : Prop where
  phis : ∀ p ∈ b.phis, (Instr.phi p).IsLocal
  instrs : ∀ x ∈ b.instrs, x.isScalar = true ∧ x.IsLocal
  jump : ∀ x ∈ b.jump, x.isExit = true ∧ x.IsLocal

theorem Block.spelled_ofId (id : Int) : (Block.ofId id).Spelled := by
  constructor <;> simp [Block.ofId]

/-- A function of forms that text can spell. -/
structure Func.Spelled (f : Func) : Prop where
  nonempty : f.blocks ≠ []
  params : ∀ t ∈ f.params, t.isGlobal = false
  blocks : ∀ b ∈ f.blocks, b.Spelled

namespace Text

/-! ### Rules -/

variable {α β : Type} {r : Rule α} {as : List α} {c c' : Cursor}

theorem bind_eq_some {g : α → Rule β} {b : β} :
    (r >>= g) c = some (b, c') ↔ ∃ a c₁, r c = some (a, c₁) ∧ g a c₁ = some (b, c') := by
  change (r c >>= fun p => g p.1 p.2) = _ ↔ _
  rw [Option.bind_eq_bind, Option.bind_eq_some_iff, Prod.exists]

/-- What a rule reads again and again, it reads each time. -/
theorem exists_of_repeatRule : ∀ {fuel : Nat} {c : Cursor},
    ∀ a ∈ (repeatRule r fuel c).1, ∃ c₁ c₂, r c₁ = some (a, c₂) := by
  intro fuel
  induction fuel with
  | zero => simp [repeatRule]
  | succ fuel ih =>
    intro c a ha
    simp only [repeatRule] at ha
    split at ha
    · cases ha
    · rename_i a' c' hr
      split at ha
      · rcases List.mem_cons.mp ha with rfl | ha
        · exact ⟨c, c', hr⟩
        · exact ih a ha
      · cases ha

theorem exists_of_star (h : star r c = some (as, c')) : ∀ a ∈ as, ∃ c₁ c₂, r c₁ = some (a, c₂) := by
  simp only [star] at h
  split at h
  · cases h
    exact fun _ => nofun
  · rename_i a c₁ hr
    cases h
    rintro b (_ | ⟨_, hb⟩)
    · exact ⟨c, c₁, hr⟩
    · obtain ⟨c₂, c₃, h⟩ := exists_of_repeatRule b hb
      exact ⟨_, _, h⟩

/-- A function as spelled has a block. -/
theorem sections_ne_nil_of_definition {d : Definition} (h : definition c = some (d, c')) :
    d.sections ≠ [] := by
  simp only [definition, bind_eq_some] at h
  obtain ⟨_, _, -, _, _, -, retTy, _, -, _, _, -, fn, _, -, _, _, -, params, _, -, h⟩ := h
  obtain ⟨_, _, -, _, _, -, _, _, -, first, _, -, _, _, -, others, _, -, _, _, -, _, _, -, h⟩ := h
  cases h
  exact List.cons_ne_nil _ _

theorem sections_ne_nil {s : String} {defs : List Definition} (h : definitions? s = some defs) :
    ∀ d ∈ defs, d.sections ≠ [] := by
  intro d hd
  rw [definitions?, Option.map_eq_some_iff] at h
  obtain ⟨⟨defs', c⟩, h, rfl⟩ := h
  simp only [program, bind_eq_some] at h
  obtain ⟨_, _, -, ds, _, hstar, _, _, -, cursor, _, -, h⟩ := h
  split at h
  · cases h
    obtain ⟨_, _, hdef⟩ := exists_of_star hstar d hd
    exact sections_ne_nil_of_definition hdef
  · cases h

end Text

/-! ### Reading -/

namespace Reading

open Text

variable {α β : Type} {n n' : TempCounter} {ty : Ty} {form : Form}

/-- What holds of each single result holds of all results for a list. -/
theorem forall_of_gives_mapM {g : α → Reading β} {P : β → Prop} {as : List α} {bs : List β}
    (hg : ∀ a n b n', Gives (g a) n b n' → P b) (h : Gives (as.mapM g) n bs n') :
    ∀ b ∈ bs, P b := by
  intro b hb
  obtain ⟨a, -, _, _, h⟩ := exists_of_forall₂ (gives_mapM h) b hb
  exact hg a _ b _ h

/-- An operand that is not a global temporary. -/
def IsLocal (v : Value) : Prop := ∀ t ∈ v.temp?, t.isGlobal = false

theorem temp_of_gives {name : String} {t : Temp} (h : Gives (temp name ty) n t n') :
    t = .ofLocal name ty := by
  obtain ⟨_, _, -, h⟩ := gives_bind.mp h
  exact (gives_pure.mp h).1.symm

theorem local_of_temp {name : String} {t : Temp} (h : Gives (temp name ty) n t n') :
    t.isGlobal = false := by
  rw [temp_of_gives h]
  rfl

theorem local_of_value {s : Spelled} {v : Value} (h : Gives (value ty s) n v n') : IsLocal v := by
  cases s with
  | float pos chars =>
    obtain ⟨rfl, -⟩ := gives_pure.mp h
    exact fun _ => nofun
  | int pos chars =>
    simp only [value] at h
    split at h
    · obtain ⟨rfl, -⟩ := gives_pure.mp h
      exact fun _ => nofun
    · split at h
      · obtain ⟨rfl, -⟩ := gives_pure.mp h
        exact fun _ => nofun
      · exact absurd h not_gives_throw
  | name name =>
    obtain ⟨t, _, ht, h⟩ := gives_bind.mp h
    obtain ⟨rfl, -⟩ := gives_pure.mp h
    rintro _ ⟨⟩
    exact local_of_temp ht

/-- What an instruction mentions is local if its target and its operands are. -/
theorem locals_of_reads {x : Instr} (hw : ∀ t ∈ x.write, t.isGlobal = false)
    (hr : ∀ v ∈ x.reads, IsLocal v) : x.IsLocal := by
  intro t ht
  rcases List.mem_append.mp ht with ht | ht
  · exact hw t (Option.mem_toList.mp ht)
  · obtain ⟨v, hv, ht⟩ := List.mem_filterMap.mp ht
    exact hr v hv t ht

/-- An instruction as read. -/
theorem spelled_of_plain? {read : Reading Instr} (hread : plain? form = some read) {x : Instr}
    (h : Gives read n x n') : x.isScalar = true ∧ x.IsLocal := by
  cases form <;> simp only [plain?, Option.some.injEq, reduceCtorEq] at hread <;> subst hread <;>
    simp only [gives_bind, gives_pure] at h
  case arith | comp =>
    obtain ⟨t, _, ht, a, _, ha, b, _, hb, rfl, -⟩ := h
    refine ⟨rfl, locals_of_reads ?_ ?_⟩
    · simpa [Instr.write] using local_of_temp ht
    · simpa [Instr.reads] using ⟨local_of_value ha, local_of_value hb⟩
  case select =>
    obtain ⟨c, _, hc, a, _, ha, b, _, hb, t, _, ht, rfl, -⟩ := h
    refine ⟨rfl, locals_of_reads ?_ ?_⟩
    · simpa [Instr.write] using local_of_temp ht
    · simpa [Instr.reads] using ⟨local_of_value hc, local_of_value ha, local_of_value hb⟩
  case load =>
    obtain ⟨t, _, ht, a, _, ha, rfl, -⟩ := h
    refine ⟨rfl, locals_of_reads ?_ ?_⟩
    · simpa [Instr.write] using local_of_temp ht
    · simpa [Instr.reads] using local_of_value ha
  case gep =>
    obtain ⟨a, _, ha, t, _, ht, b, _, hb, rfl, -⟩ := h
    refine ⟨rfl, locals_of_reads ?_ ?_⟩
    · simpa [Instr.write] using local_of_temp ht
    · simpa [Instr.reads] using ⟨local_of_value ha, local_of_value hb⟩
  case store =>
    obtain ⟨v, _, hv, a, _, ha, rfl, -⟩ := h
    refine ⟨rfl, locals_of_reads ?_ ?_⟩
    · simp [Instr.write]
    · simpa [Instr.reads] using ⟨local_of_value hv, local_of_value ha⟩
  case call target ty callee args =>
    obtain ⟨as, _, has, h⟩ := h
    have hargs : ∀ v ∈ as.map (·.2), IsLocal v := by
      refine List.forall_mem_map.mpr (forall_of_gives_mapM (fun a n b n' hb => ?_) has)
      obtain ⟨v, _, hv, rfl, -⟩ := by simpa only [gives_bind, gives_pure] using hb
      exact local_of_value hv
    -- with a name or without, the target is a local temporary
    obtain ⟨t, ht, rfl⟩ : ∃ t : Temp, t.isGlobal = false ∧ x = .call t ty callee as := by
      cases target with
      | some name =>
        obtain ⟨t, _, ht, h⟩ := gives_bind.mp h
        exact ⟨t, local_of_temp ht, (gives_pure.mp h).1.symm⟩
      | none =>
        obtain ⟨t, _, ht, h⟩ := gives_bind.mp h
        rw [gives_modifyGet, TempCounter.fresh, Prod.mk.injEq] at ht
        exact ⟨t, ht.1 ▸ rfl, (gives_pure.mp h).1.symm⟩
    refine ⟨rfl, locals_of_reads ?_ hargs⟩
    intro u hu
    simp only [Instr.write] at hu
    split at hu
    · cases hu
    · cases hu
      exact ht

/-- A terminator as read. -/
theorem spelled_of_terminator? {read : Reading (Instr × Option Hints)}
    (hread : terminator? form = some read) {x : Instr} {hs : Option Hints}
    (h : Gives read n (x, hs) n') : x.isExit = true ∧ x.IsLocal := by
  unfold terminator? at hread
  split at hread <;> cases hread
  · obtain ⟨c, _, hc, h⟩ := gives_bind.mp h
    obtain ⟨_, _, -, h⟩ := gives_bind.mp h
    obtain ⟨he, -⟩ := gives_pure.mp h
    cases he
    refine ⟨rfl, locals_of_reads (by simp [Instr.write]) ?_⟩
    simpa [Instr.reads] using local_of_value hc
  · obtain ⟨_, _, -, h⟩ := gives_bind.mp h
    obtain ⟨he, -⟩ := gives_pure.mp h
    cases he
    exact ⟨rfl, locals_of_reads (by simp [Instr.write]) (List.forall_mem_nil _)⟩
  · obtain ⟨he, -⟩ := gives_pure.mp h
    cases he
    exact ⟨rfl, locals_of_reads (by simp [Instr.write]) (List.forall_mem_nil _)⟩
  · obtain ⟨v, _, hv, h⟩ := gives_bind.mp h
    obtain ⟨he, -⟩ := gives_pure.mp h
    cases he
    refine ⟨rfl, locals_of_reads (by simp [Instr.write]) ?_⟩
    simpa [Instr.reads] using local_of_value hv

/-- A phi as read. -/
theorem spelled_of_phi {target : String} {incoming : List (Spelled × String)} {p : Phi}
    (h : Gives (phi target ty incoming) n p n') : (Instr.phi p).IsLocal := by
  obtain ⟨t, _, ht, h⟩ := gives_bind.mp h
  obtain ⟨entries, _, hentries, h⟩ := gives_bind.mp h
  obtain ⟨rfl, -⟩ := gives_pure.mp h
  refine locals_of_reads ?_ ?_
  · rintro _ ⟨⟩
    exact local_of_temp ht
  · refine List.forall_mem_map.mpr (forall_of_gives_mapM (fun a n b n' hb => ?_) hentries)
    obtain ⟨v, _, hv, hb⟩ := gives_bind.mp hb
    obtain ⟨rfl, -⟩ := gives_pure.mp hb
    exact local_of_value hv

/-- Adding a line to a block keeps its form. -/
theorem spelled_of_addLine {b b' : Block} {l : Line} (hb : b.Spelled)
    (h : Gives (addLine b l) n b' n') : b'.Spelled := by
  unfold addLine at h
  dsimp only at h
  split at h
  · obtain ⟨_, _, h, -⟩ := gives_bind.mp h
    exact absurd h not_gives_throw
  split at h
  · obtain ⟨p, _, hp, h⟩ := gives_bind.mp h
    obtain ⟨rfl, -⟩ := gives_pure.mp h
    refine ⟨fun q hq => ?_, hb.instrs, hb.jump⟩
    rcases List.mem_append.mp hq with hq | hq
    · exact hb.phis q hq
    · exact List.mem_singleton.mp hq ▸ spelled_of_phi hp
  · split at h
    · rename_i hread
      obtain ⟨⟨jump, hs⟩, _, hjump, h⟩ := gives_bind.mp h
      obtain ⟨rfl, -⟩ := gives_pure.mp h
      refine ⟨hb.phis, hb.instrs, ?_⟩
      rintro _ ⟨⟩
      exact spelled_of_terminator? hread hjump
    · rename_i hread
      obtain ⟨x, _, hx, h⟩ := gives_bind.mp h
      split at h
      · obtain ⟨rfl, -⟩ := gives_pure.mp h
        refine ⟨hb.phis, fun y hy => ?_, hb.jump⟩
        rcases List.mem_append.mp hy with hy | hy
        · exact hb.instrs y hy
        · exact List.mem_singleton.mp hy ▸ spelled_of_plain? hread hx
      · exact absurd h not_gives_throw
    · obtain ⟨rfl, -⟩ := gives_pure.mp h
      exact hb

theorem spelled_of_foldlM : ∀ {ls : List Line} {b b' : Block} {n n' : TempCounter}, b.Spelled →
    Gives (ls.foldlM addLine b) n b' n' → b'.Spelled := by
  intro ls
  induction ls with
  | nil =>
    intro b b' n n' hb h
    exact (gives_pure.mp h).1 ▸ hb
  | cons l ls ih =>
    intro b b' n n' hb h
    rw [List.foldlM_cons] at h
    obtain ⟨_, _, hl, h⟩ := gives_bind.mp h
    exact ih (spelled_of_addLine hb hl) h

/-- A function as read: local parameters, and blocks of the forms of text, one per section. -/
structure Draft.Spelled (d : Draft) : Prop where
  nonempty : d.blocks ≠ []
  params : ∀ t ∈ d.params, t.isGlobal = false
  blocks : ∀ e ∈ d.blocks, e.2.Spelled

theorem spelled_of_draft {d : Definition} (hd : d.sections ≠ []) {r : Draft}
    (h : Gives (draft d) n r n') : r.Spelled := by
  obtain ⟨params, _, hparams, h⟩ := gives_bind.mp h
  obtain ⟨blocks, _, hblocks, h⟩ := gives_bind.mp h
  obtain ⟨rfl, -⟩ := gives_pure.mp h
  refine ⟨?_, forall_of_gives_mapM (fun a n b n' hb => local_of_temp hb) hparams, ?_⟩
  · rintro rfl
    exact hd (List.forall₂_nil_right_iff.mp (gives_mapM hblocks))
  · refine forall_of_gives_mapM (fun a n b n' hb => ?_) hblocks
    obtain ⟨c, _, hc, hb⟩ := gives_bind.mp hb
    obtain ⟨rfl, -⟩ := gives_pure.mp hb
    exact spelled_of_foldlM (Block.spelled_ofId 0) hc

end Reading

/-! ### Numbering and linking -/

/-- Links and numbers have no part in what a block spells. -/
theorem Block.Spelled.of_content {b c : Block} (h : b.Spelled) (hphis : c.phis = b.phis)
    (hinstrs : c.instrs = b.instrs) (hjump : c.jump = b.jump) : c.Spelled :=
  ⟨hphis ▸ h.phis, hinstrs ▸ h.instrs, hjump ▸ h.jump⟩

theorem Block.spelled_numbered : ∀ {es : List (Int × Block)}, (∀ e ∈ es, e.2.Spelled) →
    ∀ b ∈ Block.numbered es, b.Spelled := by
  intro es
  induction es with
  | nil => exact fun _ _ => nofun
  | cons e es ih =>
    intro h b hb
    obtain ⟨he, hes⟩ := List.forall_mem_cons.mp h
    rcases List.mem_cons.mp hb with rfl | hb
    · exact he.of_content rfl rfl rfl
    · exact ih hes b hb

theorem Block.exists_of_mem_numbered {b : Block} : ∀ {es : List (Int × Block)},
    b ∈ Block.numbered es → ∃ e ∈ es, ∃ r, r.number = e.1 ∧ b = { e.2 with ref := r } := by
  intro es
  induction es with
  | nil => exact nofun
  | cons e es ih =>
    intro h
    rcases List.mem_cons.mp h with rfl | h
    · exact ⟨e, List.mem_cons_self, _, rfl, rfl⟩
    · obtain ⟨e', he', hb⟩ := ih h
      exact ⟨e', List.mem_cons_of_mem _ he', hb⟩

theorem Block.length_numbered : ∀ es : List (Int × Block), (Block.numbered es).length = es.length := by
  intro es
  induction es with
  | nil => rfl
  | cons e es ih => rw [numbered, List.length_cons, List.length_cons, ih]

theorem Func.Spelled.resolveLinks {f : Func} (h : f.Spelled) : f.resolveLinks.1.Spelled := by
  have hclear := map_clearLinks_resolveLinks f
  refine ⟨fun hnil => h.nonempty ?_, ?_, fun b hb => ?_⟩
  · rw [hnil, List.map_nil, eq_comm, List.map_eq_nil_iff] at hclear
    exact hclear
  · rw [params_resolveLinks]
    exact h.params
  · have hmem : b.clearLinks ∈ f.blocks.map Block.clearLinks :=
      hclear ▸ List.mem_map_of_mem hb
    obtain ⟨c, hc, e⟩ := List.mem_map.mp hmem
    refine (h.blocks c hc).of_content ?_ ?_ ?_
    · exact (congrArg Block.phis e).symm
    · exact (congrArg Block.instrs e).symm
    · exact (congrArg Block.jump e).symm

theorem Func.spelled_of_ofDraft {d : Reading.Draft} (hd : d.Spelled) {f : Func}
    (h : Func.ofDraft d = .ok f) : f.Spelled := by
  obtain ⟨es, hes, h⟩ := bind_eq_ok.mp h
  have hpairs := mapM_eq_ok.mp hes
  have hblocks : ∀ e ∈ es, e.2.Spelled := by
    intro e he
    obtain ⟨⟨l, b⟩, hb, hid⟩ := exists_of_forall₂ hpairs e he
    dsimp only at hid
    split at hid
    · cases hid
      exact hd.blocks _ hb
    · cases hid
  have hdraft : ∀ total, Func.Spelled ⟨total, Block.numbered es, d.name, d.retTy, d.params⟩ := by
    intro total
    refine ⟨fun hnil => hd.nonempty ?_, hd.params, Block.spelled_numbered hblocks⟩
    have hlen : (Block.numbered es).length = d.blocks.length :=
      (Block.length_numbered es).trans hpairs.length_eq.symm
    rw [show Block.numbered es = [] from hnil] at hlen
    exact List.length_eq_zero_iff.mp hlen.symm
  dsimp only at h
  split at h
  · rename_i hresolve
    cases h
    have hlinked := (hdraft ((Block.numbered es).foldl (fun n b => max n b.id) 0)).resolveLinks
    rwa [hresolve] at hlinked
  · cases h

/-- Each block of a function has the content of a block as read. -/
theorem Func.exists_block_of_ofDraft {d : Reading.Draft} {f : Func} (h : Func.ofDraft d = .ok f) {b : Block}
    (hb : b ∈ f.blocks) : ∃ e ∈ d.blocks, e.2.phis = b.phis ∧ e.2.instrs = b.instrs ∧ e.2.jump = b.jump := by
  obtain ⟨es, hes, h⟩ := bind_eq_ok.mp h
  dsimp only at h
  split at h
  case h_2 => cases h
  rename_i hresolve
  cases h
  have hclear := map_clearLinks_resolveLinks
    ⟨(Block.numbered es).foldl (fun n b => max n b.id) 0, Block.numbered es, d.name, d.retTy, d.params⟩
  rw [hresolve] at hclear
  obtain ⟨c, hc, hlinks⟩ := List.mem_map.mp (hclear ▸ List.mem_map_of_mem hb)
  obtain ⟨e, he, r, -, rfl⟩ := Block.exists_of_mem_numbered hc
  obtain ⟨⟨label, c⟩, hmem, hid⟩ := exists_of_forall₂ (mapM_eq_ok.mp hes) e he
  dsimp only at hid
  split at hid
  case h_2 => cases hid
  cases hid
  exact ⟨_, hmem, (congrArg Block.phis hlinks :), (congrArg Block.instrs hlinks :),
    (congrArg Block.jump hlinks :)⟩

namespace Program

variable {s : String} {p : Program} {f : Func}

/-- Each function of a program was read from a definition of its text. -/
theorem exists_draft_of_parse (h : Program.parse s = .ok p) (hf : f ∈ p.funcs) :
    ∃ (defs : List Text.Definition) (d : Text.Definition) (r : Reading.Draft) (n n' : TempCounter),
      Text.definitions? s = some defs ∧ d ∈ defs ∧ Gives (Reading.draft d) n r n' ∧ Func.ofDraft r = .ok f := by
  unfold Program.parse Program.parseFrom at h
  split at h
  · cases h
  rename_i defs hdefs
  obtain ⟨drafts, hdrafts, h⟩ := bind_eq_ok.mp h
  obtain ⟨funcs, hfuncs, h⟩ := bind_eq_ok.mp h
  cases h
  have hgives : Gives (defs.mapM Reading.draft) 0 drafts ((defs.mapM Reading.draft).run.run 0).2 :=
    Prod.ext hdrafts rfl
  obtain ⟨r, hr, hofDraft⟩ := exists_of_forall₂ (mapM_eq_ok.mp hfuncs) f hf
  obtain ⟨d, hd, n, n', hdraft⟩ := exists_of_forall₂ (gives_mapM hgives) r hr
  exact ⟨defs, d, r, n, n', hdefs, hd, hdraft, hofDraft⟩

/-- Every function of a program that was read has the form of text. -/
theorem spelled_of_parse (h : Program.parse s = .ok p) : ∀ f ∈ p.funcs, f.Spelled := by
  intro f hf
  obtain ⟨defs, d, r, n, n', hdefs, hd, hdraft, hofDraft⟩ := exists_draft_of_parse h hf
  exact Func.spelled_of_ofDraft (Reading.spelled_of_draft (Text.sections_ne_nil hdefs d hd) hdraft) hofDraft

/-- Each block of a program was read line by line. -/
theorem exists_lines_of_parse (h : Program.parse s = .ok p) (hf : f ∈ p.funcs) {b : Block} (hb : b ∈ f.blocks) :
    ∃ (ls : List Text.Line) (n : TempCounter) (c : Block) (n' : TempCounter),
      Gives (ls.foldlM Reading.addLine (Block.ofId 0)) n c n' ∧
      c.phis = b.phis ∧ c.instrs = b.instrs ∧ c.jump = b.jump := by
  obtain ⟨_, d, r, n, n', -, -, hdraft, hofDraft⟩ := exists_draft_of_parse h hf
  obtain ⟨e, he, hcontent⟩ := Func.exists_block_of_ofDraft hofDraft hb
  obtain ⟨_, _, -, hdraft⟩ := gives_bind.mp hdraft
  obtain ⟨blocks, _, hblocks, hdraft⟩ := gives_bind.mp hdraft
  obtain ⟨rfl, -⟩ := gives_pure.mp hdraft
  obtain ⟨sec, -, _, _, hblock⟩ := exists_of_forall₂ (gives_mapM hblocks) e he
  obtain ⟨c, _, hlines, hblock⟩ := gives_bind.mp hblock
  obtain ⟨rfl, -⟩ := gives_pure.mp hblock
  exact ⟨sec.lines, _, c, _, hlines, hcontent⟩

end Program

end LoopLanes
