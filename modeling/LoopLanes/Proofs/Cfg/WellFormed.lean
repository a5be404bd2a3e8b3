/-
Verification against paths.

`Func.WellFormed` says what a function has to look like without a word of dominator trees or of
searches: links agree with terminators and with each other, phis have one entry per predecessor,
nothing is defined twice, and whatever reached code reads was defined before on every path from
the entry that leads there.

* `verify_eq_ok_iff` — verification checks this and nothing else, wherever links lead to blocks;
* `verify_resolveLinks` — so it does in every function whose links were just rebuilt;
* `verify_takingGlobal` — global temporaries are exempt, also where a phi takes one.
-/
import LoopLanes.Proofs.Cfg.Edits
import LoopLanes.Proofs.Cfg.Paths
import LoopLanes.Proofs.Cfg.Uses

namespace LoopLanes

/-- What a block has defined in front of a position: its phis, and the instructions before. -/
def Block.writesBefore (b : Block) (pos : Nat) : List Temp :=
  b.phis.map (·.target) ++ (b.instrs.take pos).filterMap Instr.write

theorem Block.writesBefore_length (b : Block) : b.writesBefore b.instrs.length = b.writes := by
  rw [writesBefore, List.take_length, writes]

theorem Block.mem_writes_of_writesBefore {b : Block} {pos : Nat} {t : Temp} (h : t ∈ b.writesBefore pos) :
    t ∈ b.writes :=
  (((List.take_sublist pos b.instrs).filterMap Instr.write).append_left _).subset h

theorem Block.mem_writesBefore {b : Block} {pos : Nat} {t : Temp} :
    t ∈ b.writesBefore pos ↔ t ∈ b.phis.map (·.target) ∨
      ∃ k x, b.instrs[k]? = some x ∧ x.write = some t ∧ k < pos := by
  rw [writesBefore, List.mem_append, List.mem_filterMap]
  refine or_congr Iff.rfl ⟨?_, ?_⟩
  · rintro ⟨x, hx, hw⟩
    obtain ⟨k, hk⟩ := List.getElem?_of_mem hx
    rw [List.getElem?_take] at hk
    split at hk
    · exact ⟨k, x, hk, hw, ‹k < pos›⟩
    · cases hk
  · rintro ⟨k, x, hk, hw, hlt⟩
    exact ⟨x, List.mem_of_getElem? (List.getElem?_take_of_lt hlt ▸ hk), hw⟩

namespace Func

variable {f : Func} {b c : Block} {t : Temp} {pos : Nat}

/-- A path leads from the entry to a block. -/
def Reached (f : Func) (b : Block) : Prop := ∃ vs, (f.flow false).Path b.id vs

/-- Every path from the entry to `b` visits `a`. -/
def OnEveryPath (f : Func) (a b : Block) : Prop := ∀ vs, (f.flow false).Path b.id vs → a.id ∈ vs

/-- A temporary has its value at a position of a block: it is a parameter, or it was defined
earlier in the block, or in another block that every path to this one visits. -/
def DefinedAt (f : Func) (t : Temp) (b : Block) (pos : Nat) : Prop :=
  t ∈ f.params ∨ t ∈ b.writesBefore pos ∨
    ∃ c ∈ f.blocks, c.id ≠ b.id ∧ t ∈ c.writes ∧ f.OnEveryPath c b

/-- What a function has to look like to be run. -/
structure WellFormed (f : Func) : Prop where
  distinct : (f.blocks.map Block.id).Nodup
  terminated : ∀ b ∈ f.blocks, b.jump.isSome
  targets : ∀ b ∈ f.blocks, b.succ.map (·.label) = b.targets
  mutual_links : ∀ b ∈ f.blocks, ∀ c ∈ f.blocks, c.ref ∈ b.succ ↔ b.ref ∈ c.prev
  phis : ∀ b ∈ f.blocks, ∀ p ∈ b.phis, (p.incoming.map (·.2)).Nodup ∧
    ∀ l, l ∈ p.incoming.map (·.2) ↔ l ∈ b.prev.map (·.label)
  defined_once : (f.params ++ writesOf f.blocks).Nodup
  typed : ∀ b ∈ f.blocks, f.Reached b → ∀ x ∈ b.instrs ++ b.jump.toList, x.wellTyped = true
  reads : ∀ b ∈ f.blocks, f.Reached b → ∀ pos x, (b.instrs ++ b.jump.toList)[pos]? = some x →
    ∀ t ∈ x.readTemps, t.isGlobal = false → f.DefinedAt t b pos
  incoming : ∀ b ∈ f.blocks, f.Reached b → ∀ p ∈ b.phis, ∀ c ∈ f.blocks, c.ref ∈ b.prev →
    f.Reached c → ∀ t, (Value.temp t, c.label) ∈ p.incoming → t.isGlobal = false →
      f.DefinedAt t c c.instrs.length

theorem DefinedAt.mem (h : f.DefinedAt t b pos) (hb : b ∈ f.blocks) :
    t ∈ f.params ++ writesOf f.blocks := by
  rcases h with h | h | ⟨c, hc, -, h, -⟩
  · exact List.mem_append_left _ h
  · exact List.mem_append_right _ (List.mem_flatMap.mpr ⟨b, hb, Block.mem_writes_of_writesBefore h⟩)
  · exact List.mem_append_right _ (List.mem_flatMap.mpr ⟨c, hc, h⟩)

theorem reached_iff : f.Reached b ↔ (f.flow false).Reaches b.id :=
  Flow.reaches_iff_exists_path.symm

theorem entry_mem (h : f.blocks ≠ []) : f.entry ∈ f.blocks := by
  obtain ⟨b, bs, hbs⟩ := List.exists_cons_of_ne_nil h
  simp [entry, hbs]

/-- Paths start at the entry. -/
theorem root_entry (h : f.blocks ≠ []) : (f.flow false).root f.entry.id := by
  obtain ⟨b, bs, hbs⟩ := List.exists_cons_of_ne_nil h
  exact ⟨f.entry, by simp [roots, entry, hbs], rfl⟩

theorem dominates_iff_onEveryPath (h : f.Reached b) :
    (f.flow false).Dominates c.id b.id ↔ f.OnEveryPath c b := by
  rw [Flow.dominates_iff_forall_path]
  exact and_iff_right (reached_iff.mp h)

/-! ### Availability -/

/-- A value is available where it is global or was defined on every path. -/
theorem available_iff (hlinked : f.WellLinked) (hnodup : (f.params ++ writesOf f.blocks).Nodup)
    (hb : b ∈ f.blocks) (hreach : f.Reached b) :
    available f.definitions (DomTree.ofFunc f false) t b.id pos = true ↔
      t.isGlobal = true ∨ f.DefinedAt t b pos := by
  have site : ∀ {s : DefSite}, (t, s) ∈ f.definitions → f.definitions.lookup t = some s :=
    (lookup_definitions_iff hnodup).mpr
  have above : ∀ c : Block, (DomTree.ofFunc f false).dominates c.id b.id = true ↔
      f.OnEveryPath c b := fun c =>
    (DomTree.dominates_iff hlinked.toLinked).trans (dominates_iff_onEveryPath hreach)
  rw [available, Bool.or_eq_true]
  refine or_congr Iff.rfl ⟨fun h => ?_, fun h => ?_⟩
  · -- the table holds a place, and the place is that of a definition
    cases hlookup : f.definitions.lookup t with
    | none => simp [hlookup] at h
    | some s =>
      simp only [hlookup] at h
      rcases mem_definitions.mp (mem_of_lookup hlookup) with
        ⟨ht, rfl⟩ | ⟨c, hc, ⟨ht, rfl⟩ | ⟨k, x, hx, hw, rfl⟩⟩
      · exact .inl ht
      · by_cases e : c.id = b.id
        · obtain rfl := eq_of_id_eq hlinked.nodup hc hb e
          exact .inr (.inl (Block.mem_writesBefore.mpr (.inl ht)))
        · simp only [Bool.or_eq_true, beq_iff_eq, e, false_or] at h
          exact .inr (.inr ⟨c, hc, e, List.mem_append_left _ ht, (above c).mp h⟩)
      · by_cases e : c.id = b.id
        · obtain rfl := eq_of_id_eq hlinked.nodup hc hb e
          simp only [beq_self_eq_true, if_true, decide_eq_true_eq] at h
          exact .inr (.inl (Block.mem_writesBefore.mpr (.inr ⟨k, x, hx, hw, h⟩)))
        · simp only [beq_iff_eq, e, if_false] at h
          refine .inr (.inr ⟨c, hc, e, List.mem_append_right _ ?_, (above c).mp h⟩)
          exact List.mem_filterMap.mpr ⟨x, List.mem_of_getElem? hx, hw⟩
  · rcases h with ht | ht | ⟨c, hc, ne, ht, hpath⟩
    · rw [site (mem_definitions.mpr (.inl ⟨ht, rfl⟩))]
    · rcases Block.mem_writesBefore.mp ht with ht | ⟨k, x, hk, hw, hlt⟩
      · rw [site (mem_definitions.mpr (.inr ⟨b, hb, .inl ⟨ht, rfl⟩⟩))]
        simp
      · rw [site (mem_definitions.mpr (.inr ⟨b, hb, .inr ⟨k, x, hk, hw, rfl⟩⟩))]
        simpa using hlt
    · rcases List.mem_append.mp ht with ht | ht
      · rw [site (mem_definitions.mpr (.inr ⟨c, hc, .inl ⟨ht, rfl⟩⟩))]
        simp [(above c).mpr hpath]
      · obtain ⟨x, hx, hw⟩ := List.mem_filterMap.mp ht
        obtain ⟨k, hk⟩ := List.getElem?_of_mem hx
        rw [site (mem_definitions.mpr (.inr ⟨c, hc, .inr ⟨k, x, hk, hw, rfl⟩⟩))]
        simp [ne, (above c).mpr hpath]

/-- Availability at a place of a reached block, as a check puts it. -/
theorem available_of_reached_iff (hlinked : f.WellLinked)
    (hnodup : (f.params ++ writesOf f.blocks).Nodup) (hb : b ∈ f.blocks) :
    (!(((DomTree.ofFunc f false).region? f.entry.id).getD []).contains b.id ||
        available f.definitions (DomTree.ofFunc f false) t b.id pos) = true ↔
      (f.Reached b → t.isGlobal = false → f.DefinedAt t b pos) := by
  by_cases hreach : f.Reached b
  · have hmem := (mem_reachable hlinked.toLinked).mpr (reached_iff.mp hreach)
    rw [hmem, Bool.not_true, Bool.false_or, available_iff hlinked hnodup hb hreach]
    cases t.isGlobal <;> simp [hreach]
  · have hmem : (((DomTree.ofFunc f false).region? f.entry.id).getD []).contains b.id = false := by
      rw [Bool.eq_false_iff]
      exact fun h => hreach (reached_iff.mpr ((mem_reachable hlinked.toLinked).mp h))
    rw [hmem]
    simp [hreach]

/-! ### The checks of a block -/

theorem checkIncoming_eq_ok (hlinked : f.WellLinked)
    (hnodup : (f.params ++ writesOf f.blocks).Nodup) (hb : b ∈ f.blocks) {p : Phi} :
    checkIncoming f f.definitions (DomTree.ofFunc f false)
        (((DomTree.ofFunc f false).region? f.entry.id).getD []) b p = .ok () ↔
      ∀ c ∈ f.blocks, c.ref ∈ b.prev → f.Reached c → ∀ t, (Value.temp t, c.label) ∈ p.incoming →
        t.isGlobal = false → f.DefinedAt t c c.instrs.length := by
  refine forM_eq_ok.trans ⟨?_, ?_⟩
  · intro h c hc hprev hreach t ht hlocal
    have hentry := h _ ht
    -- the predecessor of this label is the block itself
    obtain ⟨r, hr⟩ : ∃ r, b.prev.find? (·.label == c.label) = some r :=
      Option.isSome_iff_exists.mp (List.find?_isSome.mpr ⟨c.ref, hprev, by simp [Block.label]⟩)
    have hlabel : r.label = c.ref.label := by simpa [Block.label] using List.find?_some hr
    obtain ⟨d, hd, rfl, -⟩ := hlinked.prev b hb r (List.mem_of_find?_eq_some hr)
    obtain rfl : d = c := eq_of_id_eq hlinked.nodup hd hc (Label.ofBlock_injective hlabel)
    simp only [Value.temp?, hr, hlinked.linked? hd, Option.map_some, Option.getD_some,
      Flaw.unless_eq_ok] at hentry
    exact (available_of_reached_iff hlinked hnodup hd).mp hentry hreach hlocal
  · rintro h ⟨v, l⟩ hv
    dsimp only
    split
    · rename_i t r hval hr
      obtain ⟨d, hd, rfl, -⟩ := hlinked.prev b hb r (List.mem_of_find?_eq_some hr)
      have hlabel : d.label = l := by simpa [Block.label] using List.find?_some hr
      obtain rfl : v = .temp t := by
        cases v <;> simp_all [Value.temp?]
      simp only [hlinked.linked? hd, Option.map_some, Option.getD_some, Flaw.unless_eq_ok]
      refine (available_of_reached_iff hlinked hnodup hd).mpr fun hreach => ?_
      exact h d hd (List.mem_of_find?_eq_some hr) hreach t (hlabel ▸ hv)
    · rfl

theorem checkUses_eq_ok (hlinked : f.WellLinked) (hnodup : (f.params ++ writesOf f.blocks).Nodup)
    (hb : b ∈ f.blocks) (hreach : f.Reached b) :
    checkUses f f.definitions (DomTree.ofFunc f false)
        (((DomTree.ofFunc f false).region? f.entry.id).getD []) b = .ok () ↔
      (∀ p ∈ b.phis, ∀ c ∈ f.blocks, c.ref ∈ b.prev → f.Reached c →
        ∀ t, (Value.temp t, c.label) ∈ p.incoming → t.isGlobal = false →
          f.DefinedAt t c c.instrs.length) ∧
      ∀ pos x, (b.instrs ++ b.jump.toList)[pos]? = some x → x.wellTyped = true ∧
        ∀ t ∈ x.readTemps, t.isGlobal = false → f.DefinedAt t b pos := by
  have hphis : forM b.phis (checkIncoming f f.definitions (DomTree.ofFunc f false)
      (((DomTree.ofFunc f false).region? f.entry.id).getD []) b) = .ok () ↔ _ :=
    forM_eq_ok.trans (forall₂_congr fun p _ => checkIncoming_eq_ok hlinked hnodup hb)
  have hread : ∀ t pos, available f.definitions (DomTree.ofFunc f false) t b.id pos = true ↔
      (t.isGlobal = false → f.DefinedAt t b pos) := by
    intro t pos
    rw [available_iff hlinked hnodup hb hreach]
    cases t.isGlobal <;> simp
  rw [checkUses, bind_eq_ok]
  constructor
  · rintro ⟨⟨⟩, hin, hinstrs⟩
    refine ⟨hphis.mp hin, fun pos x hx => ?_⟩
    have hcheck := forM_eq_ok.mp hinstrs (x, pos) (List.mem_zipIdx_iff_getElem?.mpr hx)
    obtain ⟨⟨⟩, htyped, hreads⟩ := bind_eq_ok.mp hcheck
    refine ⟨Flaw.unless_eq_ok.mp htyped, fun t ht => (hread t pos).mp ?_⟩
    exact Flaw.unless_eq_ok.mp (forM_eq_ok.mp hreads t ht)
  · rintro ⟨hin, hinstrs⟩
    refine ⟨(), hphis.mpr hin, forM_eq_ok.mpr ?_⟩
    rintro ⟨x, pos⟩ hx
    obtain ⟨htyped, hreads⟩ := hinstrs pos x (List.mem_zipIdx_iff_getElem?.mp hx)
    refine bind_eq_ok.mpr ⟨(), Flaw.unless_eq_ok.mpr htyped, forM_eq_ok.mpr fun t ht => ?_⟩
    exact Flaw.unless_eq_ok.mpr ((hread t pos).mpr (hreads t ht))

/-! ### The whole of verification -/

/-- Links lead to blocks of the function. -/
def LinksInside (f : Func) : Prop :=
  ∀ b ∈ f.blocks, ∀ r ∈ b.prev ++ b.succ, ∃ c ∈ f.blocks, c.ref = r

theorem checkedBlock_of_wellLinked (hlinked : f.WellLinked) (hb : b ∈ f.blocks) :
    CheckedBlock f b := by
  refine ⟨hlinked.jump b hb, fun r hr => ?_, fun r hr => ?_, hlinked.phis b hb⟩
  · obtain ⟨c, hc, rfl, hback⟩ := hlinked.succ b hb r hr
    rw [hlinked.linked? hc, Option.any_some, List.any_eq_true]
    exact ⟨b.ref, hback, by simp [Block.id]⟩
  · obtain ⟨c, hc, rfl, hback⟩ := hlinked.prev b hb r hr
    rw [hlinked.linked? hc, Option.any_some, List.any_eq_true]
    exact ⟨b.ref, hback, by simp [Block.id]⟩

theorem verify_eq_ok_iff_wellLinked :
    f.verify = .ok () ↔ f.WellLinked ∧ (f.params ++ writesOf f.blocks).Nodup ∧
      ∀ b ∈ f.blocks, f.Reached b → checkUses f f.definitions (DomTree.ofFunc f false)
        (((DomTree.ofFunc f false).region? f.entry.id).getD []) b = .ok () := by
  constructor
  · intro h
    have hlinked := wellLinked_of_verify h
    refine ⟨hlinked, definitions_nodup h, fun b hb hreach => ?_⟩
    exact (verify_eq_ok.mp h).2.2 b hb ((mem_reachable hlinked.toLinked).mpr (reached_iff.mp hreach))
  · rintro ⟨hlinked, hnodup, huses⟩
    refine verify_eq_ok.mpr ⟨?_, ?_, fun b hb hreach => huses b hb ?_⟩
    · exact checkBlocks_eq_ok.mpr
        ⟨hlinked.nodup, fun _ _ => List.not_mem_nil, fun b => checkedBlock_of_wellLinked hlinked⟩
    · exact checkDefinitions_eq_ok.mpr
        ⟨map_fst_definitions f ▸ hnodup, fun _ _ => List.not_mem_nil⟩
    · exact reached_iff.mpr ((mem_reachable hlinked.toLinked).mp hreach)

theorem wellLinked_of_wellFormed (hlinks : f.LinksInside) (h : f.WellFormed) : f.WellLinked where
  nodup := h.distinct
  jump b hb := by
    obtain ⟨j, hj⟩ := Option.isSome_iff_exists.mp (h.terminated b hb)
    exact ⟨j, hj, by rw [h.targets b hb, Block.targets, hj]; rfl⟩
  succ b hb r hr := by
    obtain ⟨c, hc, rfl⟩ := hlinks b hb r (List.mem_append_right _ hr)
    exact ⟨c, hc, rfl, (h.mutual_links b hb c hc).mp hr⟩
  prev b hb r hr := by
    obtain ⟨c, hc, rfl⟩ := hlinks b hb r (List.mem_append_left _ hr)
    exact ⟨c, hc, rfl, (h.mutual_links c hc b hb).mpr hr⟩
  phis b hb p hp := by
    rw [phiMatches, Bool.and_eq_true, sameMembers_iff, allDistinct_iff]
    exact (h.phis b hb p hp).symm

/-- Where links lead to blocks, verification accepts the well-formed functions. -/
theorem verify_eq_ok_iff (hlinks : f.LinksInside) : f.verify = .ok () ↔ f.WellFormed := by
  rw [verify_eq_ok_iff_wellLinked]
  constructor
  · rintro ⟨hlinked, hnodup, huses⟩
    have hblock := fun b hb hreach =>
      (checkUses_eq_ok hlinked hnodup hb hreach).mp (huses b hb hreach)
    refine ⟨hlinked.nodup, ?_, ?_, ?_, fun b hb p => labels_of_phi hlinked hb, hnodup, ?_, ?_, ?_⟩
    · intro b hb
      obtain ⟨j, hj, -⟩ := hlinked.jump b hb
      rw [hj]
      rfl
    · intro b hb
      obtain ⟨j, hj, htargets⟩ := hlinked.jump b hb
      rw [htargets, Block.targets, hj]
      rfl
    · exact fun b hb c hc => (hlinked.mem_prev_iff hb hc).symm
    · intro b hb hreach x hx
      obtain ⟨pos, hpos⟩ := List.getElem?_of_mem hx
      exact ((hblock b hb hreach).2 pos x hpos).1
    · exact fun b hb hreach pos x hx => ((hblock b hb hreach).2 pos x hx).2
    · exact fun b hb hreach => (hblock b hb hreach).1
  · intro h
    have hlinked := wellLinked_of_wellFormed hlinks h
    refine ⟨hlinked, h.defined_once, fun b hb hreach => ?_⟩
    refine (checkUses_eq_ok hlinked h.defined_once hb hreach).mpr ⟨h.incoming b hb hreach, ?_⟩
    intro pos x hx
    exact ⟨h.typed b hb hreach x (List.mem_of_getElem? hx), h.reads b hb hreach pos x hx⟩

/-- What verification accepts is well-formed. -/
theorem wellFormed_of_verify (h : f.verify = .ok ()) : f.WellFormed := by
  have hlinked := wellLinked_of_verify h
  refine (verify_eq_ok_iff fun b hb r hr => ?_).mp h
  rcases List.mem_append.mp hr with hr | hr
  · obtain ⟨c, hc, e, -⟩ := hlinked.prev b hb r hr
    exact ⟨c, hc, e⟩
  · obtain ⟨c, hc, e, -⟩ := hlinked.succ b hb r hr
    exact ⟨c, hc, e⟩

/-! ### Rebuilt links -/

/-- A new link leaves the links inside if both its ends are blocks. -/
theorem LinksInside.link (h : f.LinksInside) {r s : BlockRef} (hr : r ∈ f.blocks.map Block.ref)
    (hs : s ∈ f.blocks.map Block.ref) : (f.link r s).LinksInside := by
  have inside : ∀ {u : BlockRef}, u ∈ f.blocks.map Block.ref → ∃ c ∈ (f.link r s).blocks,
      c.ref = u := fun hu => List.mem_map.mp (map_ref_link f r s ▸ hu)
  intro b hb u hu
  obtain ⟨c, hc, -, hsucc, hprev⟩ := exists_of_mem_link hb
  rw [hsucc, hprev] at hu
  -- what the block links to now it linked to before, or it is an end of the new link
  have hlinks : u ∈ c.prev ++ c.succ ∨ u = r ∨ u = s := by
    split at hu <;> split at hu <;> simp only [List.mem_append, List.mem_singleton] at hu ⊢ <;> tauto
  rcases hlinks with hu | rfl | rfl
  · obtain ⟨d, hd, rfl⟩ := h c hc u hu
    exact inside (List.mem_map_of_mem hd)
  · exact inside hr
  · exact inside hs

theorem linksInside_linkJumps : ∀ (js : List (BlockRef × Label)) (f : Func),
    (∀ j ∈ js, j.1 ∈ f.blocks.map Block.ref) → f.LinksInside → (linkJumps js f).1.LinksInside := by
  intro js
  induction js with
  | nil => exact fun f _ h => h
  | cons j js ih =>
    intro f hjs h
    obtain ⟨hj, hjs⟩ := List.forall_mem_cons.mp hjs
    simp only [linkJumps]
    split
    · exact h
    · rename_i target htarget
      have hmem : target ∈ f.blocks.map Block.ref := by
        obtain ⟨c, hc, rfl⟩ := Option.map_eq_some_iff.mp htarget
        exact List.mem_map_of_mem (List.mem_reverse.mp (List.mem_of_find?_eq_some hc))
      refine ih _ (fun k hk => ?_) (h.link hj hmem)
      exact (map_ref_link f _ _).symm ▸ hjs k hk

/-- Rebuilt links lead to blocks. -/
theorem linksInside_resolveLinks (f : Func) : f.resolveLinks.1.LinksInside := by
  refine linksInside_linkJumps _ _ (fun j hj => ?_) fun b hb r hr => ?_
  · obtain ⟨b, hb, hj⟩ := List.mem_flatMap.mp hj
    obtain ⟨l, -, rfl⟩ := List.mem_map.mp hj
    rw [List.map_map]
    exact List.mem_map.mpr ⟨b, hb, rfl⟩
  · obtain ⟨c, -, rfl⟩ := List.mem_map.mp hb
    cases hr

/-- Where the links were built from the terminators, verification accepts the well-formed
functions. -/
theorem verify_resolveLinks (f : Func) :
    f.resolveLinks.1.verify = .ok () ↔ f.resolveLinks.1.WellFormed :=
  verify_eq_ok_iff (linksInside_resolveLinks f)

/-! ### Global temporaries -/

/-- A phi in its second block takes a global temporary. -/
def takingGlobal : Func where
  total := 1
  blocks := [
    { Block.ofId 0 with succ := [.last 1], jump := some (.jump (.ofBlock 1)) },
    { Block.ofId 1 with
      prev := [.last 0]
      phis := [.ofTarget (.ofLocal "x" .i32) [(.temp ⟨"g", true, .i32⟩, .ofBlock 0)]]
      jump := some (.ret (some (.temp (.ofLocal "x" .i32)))) }]
  name := "f"
  retTy := .i32
  params := [.ofLocal "n" .i32]

/-- Nothing defines the global temporary, and yet verification accepts the phi that takes it. -/
theorem verify_takingGlobal :
    takingGlobal.resolveLinks = (takingGlobal, none) ∧ takingGlobal.verify = .ok () ∧
    ∃ b ∈ takingGlobal.blocks, takingGlobal.Reached b ∧ ∃ p ∈ b.phis,
      ∃ c ∈ takingGlobal.blocks, c.ref ∈ b.prev ∧ takingGlobal.Reached c ∧
        ∃ t, (Value.temp t, c.label) ∈ p.incoming ∧
          ¬ takingGlobal.DefinedAt t c c.instrs.length := by
  have hentry : (takingGlobal.flow false).Path 0 [0] := .root ⟨_, List.mem_cons_self, rfl⟩
  have hedge : (takingGlobal.flow false).edge 0 1 :=
    ⟨_, List.mem_cons_self, rfl, _, List.mem_cons_self, rfl⟩
  refine ⟨by decide +kernel, by decide +kernel, ?_⟩
  refine ⟨_, List.mem_cons_of_mem _ List.mem_cons_self, ⟨_, hentry.step hedge⟩, ?_⟩
  refine ⟨_, List.mem_cons_self, _, List.mem_cons_self, List.mem_cons_self, ⟨_, hentry⟩, ?_⟩
  refine ⟨_, List.mem_cons_self, fun h => ?_⟩
  exact absurd (h.mem List.mem_cons_self) (by decide)

end Func

end LoopLanes
