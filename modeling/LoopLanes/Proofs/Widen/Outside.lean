/-
Code outside of a widened region.

What a vector instruction of a widened region defines is not read outside (`Left.not_written`), and in every run
code outside finds single values, as long as it held no vector code before (`Left.single`).  The one block that
reads lanes folds partial results and does nothing else.
-/
import LoopLanes.Proofs.Widen.Escapes

namespace LoopLanes

/-- Code of a block reads from a frame: control stands in the block, or is about to enter it. -/
def Func.Comes (f : Func) (c : Block) (fr : Frame) : Prop :=
  (∃ xs, f.Stands c xs fr) ∨
    ∃ b l, f.Stands b [] fr ∧ b.leave fr = .ok (.jump l) ∧ f.labelled? l = some c

namespace LaneInfo

variable {i : LaneInfo} {f g : Func} {n : TempCounter} {laid : Temp → Prop} {b c d : Block} {x : Instr} {t : Temp}
  {fr : Frame} {l : Label}

theorem Stem.id {passed : Temp → Prop} {fold : Label} (h : i.Stem laid passed fold b c) : c.id = b.id :=
  congrArg BlockRef.number h.ref

/-- The block that folds has a new number. -/
theorem FoldBlock.id_ne (h : i.FoldBlock f c) (hready : Ready f n i) (hb : b ∈ f.blocks) : b.id ≠ c.id := by
  have := hready.total b hb
  rw [h.id]
  omega

theorem FoldBlock.isReduce (h : i.FoldBlock f c) (hx : x ∈ c.code) (ht : t ∈ x.readTemps) : x.isReduce = true := by
  obtain ⟨k, hjump, -⟩ := h.jump
  rw [Block.code, h.phis, hjump] at hx
  rcases List.mem_append.mp hx with hx | hx
  · exact h.instrs x (by simpa using hx)
  · obtain rfl : x = .jump k := by simpa using hx
    cases ht

namespace Left

/-- A block of the region stems from one. -/
theorem inside (hleft : i.Left laid f g) (hready : Ready f n i) (hd : d ∈ g.blocks)
    (hin : i.region.contains d.id = true) :
    ∃ b ∈ f.blocks, i.Stem laid (i.PassedOn f) (.ofBlock (f.total + 1)) b d ∧ i.region.contains b.id = true := by
  rcases hleft.block d hd with hfold | ⟨b, hb, hstem⟩
  · obtain ⟨r, hr, e⟩ := List.any_eq_true.mp hin
    obtain ⟨b, hb, rfl⟩ := hready.blocks r hr
    exact absurd (beq_iff_eq.mp e) (hfold.id_ne hready hb)
  · refine ⟨b, hb, hstem, ?_⟩
    rwa [← hstem.id]

/-- What code outside reads, but for the block that folds, is defined by no vector instruction of the region and
is no partial result of the header. -/
theorem not_written (hleft : i.Left laid f g) (hready : Ready f n i) (hlaid : ∀ t : Temp, t.Reserved n → ¬ laid t)
    (hc : c ∈ g.blocks) (hout : i.region.contains c.id = false) (hx : x ∈ c.code) :
    c.id = f.total + 1 ∧ x.isReduce = true ∨ ∀ t ∈ x.readTemps,
      (∀ d ∈ g.blocks, i.region.contains d.id = true → ∀ y ∈ d.instrs, y.isVector = true → y.write ≠ some t) ∧
      ∀ header ∈ f.blocks, header.ref = i.region.header → ∀ p ∈ header.phis, p.target = t → ¬ i.Partial t := by
  rcases hleft.block c hc with hfold | ⟨b, hb, hstem⟩
  · cases hreads : x.readTemps with
    | nil => exact .inr fun t ht => absurd ht List.not_mem_nil
    | cons u us => exact .inl ⟨hfold.id, hfold.isReduce hx (t := u) (hreads ▸ List.mem_cons_self)⟩
  refine .inr fun t ht => ?_
  have houtside : i.region.contains b.id = false := by
    rwa [← hstem.id]
  have hread := hstem.reads houtside t (List.mem_flatMap.mpr ⟨x, hx, ht⟩)
  refine ⟨fun d hd hin y hy hvector hw => ?_, fun header hheader href p hp e hpartial => ?_⟩
  · obtain ⟨b', -, hstem', hin'⟩ := hleft.inside hready hd hin
    have hwide : i.shapeOf t = .varying ∨ laid t := (hstem'.instrs hin' y hy).vector hvector t hw
    rcases hread with hread | ⟨⟨⟨k, hk⟩, -⟩, hmem⟩
    · exact hread (hwide.imp_left fun e => by rw [e]; rfl)
    · rcases hwide with e | hlaid'
      · rw [hk] at e
        cases e
      · exact hlaid t (hready.reserved_of_read hb hmem) hlaid'
  · rcases hread with hread | ⟨⟨-, hpassed⟩, -⟩
    · obtain ⟨k, hk⟩ := hpartial
      exact hread (.inl (by rw [hk]; rfl))
    · exact hpassed header hheader href (e ▸ List.mem_map_of_mem hp)

/-! ### Runs -/

/-- A block that a run of the widened function may come to: one that stems from a reachable block, or the one
that folds. -/
def Come (i : LaneInfo) (laid : Temp → Prop) (f : Func) (c : Block) : Prop :=
  i.FoldBlock f c ∧ (f.flow false).Reaches i.region.header.number ∨
    ∃ b ∈ f.blocks, i.Stem laid (i.PassedOn f) (.ofBlock (f.total + 1)) b c ∧ (f.flow false).Reaches b.id

theorem come_of_target (hleft : i.Left laid f g) (hready : Ready f n i) (hb : b ∈ f.blocks)
    (hreach : (f.flow false).Reaches b.id) (hl : l ∈ b.targets) (hc : g.labelled? l = some c) : Come i laid f c := by
  obtain ⟨hmem, hlabel⟩ := Func.labelled?_mem hc
  rw [← hready.links.succ b hb] at hl
  obtain ⟨r, hr, hrl⟩ := List.mem_map.mp hl
  have hid : r.number = c.id := Label.ofBlock_injective (hrl.trans hlabel.symm)
  obtain ⟨b', hb', rfl⟩ := hready.links.inside b hb r (List.mem_append_right _ hr)
  rcases hleft.block c hmem with hfold | ⟨d, hd, hstem⟩
  · exact absurd hid (hfold.id_ne hready hb')
  · refine .inr ⟨d, hd, hstem, hreach.step ((hready.linked.flow_edge hb).mpr ⟨_, hr, ?_⟩)⟩
    exact hid.trans hstem.id

theorem come_jump (hleft : i.Left laid f g) (hready : Ready f n i) (hb : Come i laid f b) (hl : l ∈ b.targets)
    (hc : g.labelled? l = some c) : Come i laid f c := by
  rcases hb with ⟨hfold, hreach⟩ | ⟨b', hb', hstem, hreach⟩
  · obtain ⟨k, hjump, header, hheader, href, hk⟩ := hfold.jump
    obtain rfl : l = k := by simpa [Block.targets, hjump, Instr.targets] using hl
    exact hleft.come_of_target hready hheader (by rwa [Block.id, href]) hk hc
  · rcases hstem.targets l hl with hl | ⟨rfl, href⟩
    · exact hleft.come_of_target hready hb' hreach hl hc
    · -- the block that folds is behind the header
      obtain ⟨hmem, hlabel⟩ := Func.labelled?_mem hc
      have hid : c.id = f.total + 1 := Label.ofBlock_injective hlabel
      rcases hleft.block c hmem with hfold | ⟨d, hd, hstem'⟩
      · exact .inl ⟨hfold, by rwa [← href]⟩
      · have := hready.total d hd
        rw [← hstem'.id, hid] at this
        omega

theorem come_entry (hleft : i.Left laid f g) (hready : Ready f n i) : Come i laid f g.entry := by
  obtain ⟨header, hheader, -⟩ := hready.blocks _ hready.header
  have hne := List.ne_nil_of_mem hheader
  obtain ⟨b, bs, hf⟩ := List.exists_cons_of_ne_nil hne
  have hentry := hleft.entry
  rw [hf, List.map_cons, List.head?_cons] at hentry
  cases hg : g.blocks with
  | nil =>
    rw [hg] at hentry
    cases hentry
  | cons c cs =>
    rw [hg, List.map_cons, List.head?_cons] at hentry
    have href : c.ref = b.ref := Option.some.inj hentry
    have hb : b ∈ f.blocks := hf ▸ List.mem_cons_self
    rw [show g.entry = c by rw [Func.entry, hg]; rfl]
    rcases hleft.block c (hg ▸ List.mem_cons_self) with hfold | ⟨d, hd, hstem⟩
    · exact absurd (congrArg BlockRef.number href.symm) (hfold.id_ne hready hb)
    · refine .inr ⟨d, hd, hstem, .of_root ?_⟩
      rw [show d.id = f.entry.id by rw [Func.entry, hf]; exact congrArg BlockRef.number (hstem.ref.symm.trans href)]
      exact Func.root_entry hne

/-- No lanes get out of the blocks that are come to, as long as outside none that are reachable read partial
results and no vector code is found there. -/
theorem confined (hpassing : ∀ b ∈ f.blocks, (f.flow false).Reaches b.id → i.region.contains b.id = false →
      ∀ t ∈ b.readTemps, ¬ i.PassedOn f t)
    (hscalar : ∀ b ∈ f.blocks, i.region.contains b.id = false → ∀ x ∈ b.instrs, x.isVector = false)
    (hc : Come i laid f c) : c.Confined (i.Wide laid) := by
  rcases hc with ⟨hfold, -⟩ | ⟨b, hb, hstem, hreach⟩
  · refine ⟨fun p hp => ?_, fun x hx => ⟨fun hvector => ?_, fun _ _ _ => .inl (hfold.instrs x hx)⟩⟩
    · rw [hfold.phis] at hp
      cases hp
    · have hreduce := hfold.instrs x hx
      cases x <;> cases hreduce
      cases hvector
  cases hin : i.region.contains b.id with
  | true => exact ⟨hstem.phis hin, fun x hx => (hstem.instrs hin x hx).confined⟩
  | false =>
    have hread : ∀ t ∈ c.readTemps, ¬ i.Wide laid t := fun t ht => (hstem.reads hin t ht).resolve_right
      fun ⟨hpassed, hmem⟩ => hpassing b hb hreach hin t hmem hpassed
    refine ⟨fun p hp _ t ht => hread t (Block.mem_readTemps.mpr (.inl ⟨p, hp, ht⟩)), fun x hx =>
      ⟨fun hvector t hw => .inr (hstem.vectors hin (hscalar b hb hin) x hx hvector t hw), fun _ _ _ => .inr ?_⟩⟩
    exact fun t ht => hread t (Block.mem_readTemps.mpr (.inr (.inl ⟨x, hx, ht⟩)))

/-- In every run, code outside finds single values, but for the block that folds. -/
theorem single (hleft : i.Left laid f g) (hready : Ready f n i)
    (hpassing : ∀ b ∈ f.blocks, (f.flow false).Reaches b.id → i.region.contains b.id = false →
      ∀ t ∈ b.readTemps, ¬ i.PassedOn f t)
    (hscalar : ∀ b ∈ f.blocks, i.region.contains b.id = false → ∀ x ∈ b.instrs, x.isVector = false)
    (hcomes : g.Comes c fr) (hout : i.region.contains c.id = false) (hx : x ∈ c.code) :
    c.id = f.total + 1 ∧ x.isReduce = true ∨
      ∀ t ∈ x.readTemps, ∀ ls, fr.lookup t = some ls → ∃ v, ls = [v] := by
  have hentry := hleft.come_entry hready
  have hjump : ∀ b, Come i laid f b → ∀ l ∈ b.targets, ∀ c, g.labelled? l = some c → Come i laid f c :=
    fun b hb l hl c hc => hleft.come_jump hready hb hl hc
  obtain ⟨hsingle, hcome⟩ : fr.SingleBut (i.Wide laid) ∧ Come i laid f c := by
    have hconfined : ∀ c, Come i laid f c → c.Confined (i.Wide laid) := fun c hc => confined hpassing hscalar hc
    rcases hcomes with ⟨xs, hstands⟩ | ⟨b, l, hstands, hleave, hl⟩
    · exact ⟨hstands.singleBut hentry hjump hconfined, (hstands.invariant hentry hjump).1⟩
    · exact ⟨hstands.singleBut hentry hjump hconfined, hjump b (hstands.invariant hentry hjump).1 l
        (Block.mem_targets_of_leave hleave) c hl⟩
  rcases hcome with ⟨hfold, -⟩ | ⟨b, hb, hstem, hreach⟩
  · cases hreads : x.readTemps with
    | nil => exact .inr fun t ht => absurd ht List.not_mem_nil
    | cons u us => exact .inl ⟨hfold.id, hfold.isReduce hx (t := u) (hreads ▸ List.mem_cons_self)⟩
  · have hin : i.region.contains b.id = false := by
      rwa [← hstem.id]
    refine .inr fun t ht ls hls => hsingle t ls hls ?_
    exact (hstem.reads hin t (List.mem_flatMap.mpr ⟨x, hx, ht⟩)).resolve_right
      fun ⟨hpassed, hmem⟩ => hpassing b hb hreach hin t hmem hpassed

end Left

end LaneInfo

end LoopLanes
