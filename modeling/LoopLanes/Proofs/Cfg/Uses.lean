/-
What verification says of the uses of a temporary.

What a reached block reads was defined earlier in the block or in a block that dominates it
(`available_of_read`, `defined_of_available`); what flows into a phi was so at the end of the
predecessor that it comes from (`available_of_incoming`).
-/
import LoopLanes.Proofs.Basic.Tables
import LoopLanes.Proofs.Cfg.Dominators
import LoopLanes.Proofs.Text.Decimal

namespace LoopLanes

theorem Phi.mem_of_incoming? {p : Phi} {k : Label} {v : Value} (h : p.incoming? k = some v) :
    (v, k) ∈ p.incoming := by
  obtain ⟨⟨w, j⟩, he, rfl⟩ := Option.map_eq_some_iff.mp h
  have hj : j = k := by simpa using List.find?_some he
  exact hj ▸ List.mem_of_find?_eq_some he

theorem Phi.incoming?_of_mem {p : Phi} {k : Label} {v : Value}
    (hnodup : (p.incoming.map (·.2)).Nodup) (h : (v, k) ∈ p.incoming) : p.incoming? k = some v := by
  obtain ⟨⟨w, j⟩, he⟩ := Option.isSome_iff_exists.mp
    (List.find?_isSome (p := fun e : Value × Label => e.2 == k) |>.mpr ⟨(v, k), h, by simp⟩)
  have hj : j = k := by simpa using List.find?_some he
  have hsame := List.inj_on_of_nodup_map hnodup (List.mem_of_find?_eq_some he) h hj
  rw [Phi.incoming?, he, hsame]
  rfl

namespace Func

variable {f : Func} {b c : Block} {r : BlockRef} {t : Temp} {block : Int} {pos : Nat}

theorem mem_definitions {site : DefSite} :
    (t, site) ∈ f.definitions ↔ t ∈ f.params ∧ site = .param ∨
      ∃ b ∈ f.blocks, t ∈ b.phis.map (·.target) ∧ site = .phi b.id ∨
        ∃ k x, b.instrs[k]? = some x ∧ x.write = some t ∧ site = .instr b.id k := by
  simp only [definitions, List.mem_append, List.mem_map, List.mem_flatMap, List.mem_filterMap,
    Option.map_eq_some_iff, Prod.mk.injEq, Prod.exists, List.mem_zipIdx_iff_getElem?]
  refine or_congr ?_ (exists_congr fun b => and_congr_right fun _ => or_congr ?_ ?_)
  · constructor
    · rintro ⟨_, ht, rfl, rfl⟩
      exact ⟨ht, rfl⟩
    · rintro ⟨ht, rfl⟩
      exact ⟨t, ht, rfl, rfl⟩
  · constructor
    · rintro ⟨p, hp, rfl, rfl⟩
      exact ⟨⟨p, hp, rfl⟩, rfl⟩
    · rintro ⟨⟨p, hp, rfl⟩, rfl⟩
      exact ⟨p, hp, rfl, rfl⟩
  · constructor
    · rintro ⟨x, k, hx, _, hw, rfl, rfl⟩
      exact ⟨k, x, hx, hw, rfl⟩
    · rintro ⟨k, x, hx, hw, rfl⟩
      exact ⟨x, k, hx, t, hw, rfl, rfl⟩

/-- Where nothing is defined twice, the table of definitions answers the place of each. -/
theorem lookup_definitions_iff (hnodup : (f.params ++ writesOf f.blocks).Nodup) {site : DefSite} :
    f.definitions.lookup t = some site ↔ (t, site) ∈ f.definitions := by
  rw [← map_fst_definitions] at hnodup
  exact ⟨mem_of_lookup, lookup_of_mem hnodup⟩

/-- A definition is found under its temporary. -/
theorem lookup_definitions (hf : f.verify = .ok ()) (hb : b ∈ f.blocks) (ht : t ∈ b.writes) :
    t ∈ b.phis.map (·.target) ∧ f.definitions.lookup t = some (.phi b.id) ∨
      ∃ pos x, b.instrs[pos]? = some x ∧ x.write = some t ∧
        f.definitions.lookup t = some (.instr b.id pos) := by
  simp only [lookup_definitions_iff (definitions_nodup hf), mem_definitions]
  rcases List.mem_append.mp ht with ht | ht
  · exact .inl ⟨ht, .inr ⟨b, hb, .inl ⟨ht, rfl⟩⟩⟩
  · obtain ⟨x, hx, hw⟩ := List.mem_filterMap.mp ht
    obtain ⟨pos, hpos⟩ := List.getElem?_of_mem hx
    exact .inr ⟨pos, x, hpos, hw, .inr ⟨b, hb, .inr ⟨pos, x, hpos, hw, rfl⟩⟩⟩

/-- What is read at a place was defined earlier in the block, or in another block that dominates
it. -/
theorem defined_of_available (hf : f.verify = .ok ()) (hb : b ∈ f.blocks) (ht : t ∈ b.writes)
    (hlocal : t.isGlobal = false)
    (h : available f.definitions (DomTree.ofFunc f false) t block pos = true) :
    b.id = block ∧ (t ∈ b.phis.map (·.target) ∨
        ∃ p x, b.instrs[p]? = some x ∧ x.write = some t ∧ p < pos) ∨
      b.id ≠ block ∧ (f.flow false).Dominates b.id block := by
  have hlinked := wellLinked_of_verify hf
  by_cases e : b.id = block
  · refine .inl ⟨e, ?_⟩
    rcases lookup_definitions hf hb ht with ⟨ht, -⟩ | ⟨p, x, hx, hw, hlookup⟩
    · exact .inl ht
    · simp only [available, hlocal, Bool.false_or, hlookup, beq_iff_eq, e, if_true,
        decide_eq_true_eq] at h
      exact .inr ⟨p, x, hx, hw, h⟩
  · refine .inr ⟨e, ?_⟩
    rcases lookup_definitions hf hb ht with ⟨-, hlookup⟩ | ⟨p, x, -, -, hlookup⟩
    · simp only [available, hlocal, Bool.false_or, hlookup, Bool.or_eq_true, beq_iff_eq, e,
        false_or, DomTree.dominates_iff hlinked.toLinked] at h
      exact h
    · simp only [available, hlocal, Bool.false_or, hlookup, beq_iff_eq, e, if_false,
        DomTree.dominates_iff hlinked.toLinked] at h
      exact h

/-- What is read in a block was defined there, or in a block that dominates it. -/
theorem dominates_of_available (hf : f.verify = .ok ()) (hb : b ∈ f.blocks) (ht : t ∈ b.writes)
    (hlocal : t.isGlobal = false)
    (h : available f.definitions (DomTree.ofFunc f false) t block pos = true) :
    b.id = block ∨ (f.flow false).Dominates b.id block :=
  (defined_of_available hf hb ht hlocal h).imp (·.1) (·.2)

/-- What a reached block reads is available where it is read. -/
theorem available_of_read (hf : f.verify = .ok ()) (hb : b ∈ f.blocks)
    (hreach : (f.flow false).Reaches b.id) {x : Instr}
    (hx : (b.instrs ++ b.jump.toList)[pos]? = some x) (ht : t ∈ x.readTemps) :
    available f.definitions (DomTree.ofFunc f false) t b.id pos = true := by
  have huses := (verify_eq_ok.mp hf).2.2 b hb ((mem_reachable (wellLinked_of_verify hf).toLinked).mpr hreach)
  obtain ⟨⟨⟩, -, hinstrs⟩ := bind_eq_ok.mp huses
  have hcheck := forM_eq_ok.mp hinstrs (x, pos) (List.mem_zipIdx_iff_getElem?.mpr hx)
  obtain ⟨⟨⟩, -, hreads⟩ := bind_eq_ok.mp hcheck
  exact Flaw.unless_eq_ok.mp (forM_eq_ok.mp hreads t ht)

/-- What flows into a phi of a reached block is available at the end of its predecessor. -/
theorem available_of_incoming (hf : f.verify = .ok ()) (hb : b ∈ f.blocks)
    (hreach : (f.flow false).Reaches b.id) {p : Phi} (hp : p ∈ b.phis) (hr : r ∈ b.prev)
    (hpred : (f.flow false).Reaches r.number)
    (hin : p.incoming? (Label.ofBlock r.number) = some (.temp t)) :
    ∃ pos, available f.definitions (DomTree.ofFunc f false) t r.number pos = true := by
  have hlinked := wellLinked_of_verify hf
  have huses := (verify_eq_ok.mp hf).2.2 b hb ((mem_reachable hlinked.toLinked).mpr hreach)
  obtain ⟨⟨⟩, hphis, -⟩ := bind_eq_ok.mp huses
  have hentry := forM_eq_ok.mp (forM_eq_ok.mp hphis p hp) _ (Phi.mem_of_incoming? hin)
  -- the predecessor that the label names
  obtain ⟨q, hq⟩ : ∃ q, b.prev.find? (·.label == Label.ofBlock r.number) = some q := by
    refine Option.isSome_iff_exists.mp (List.find?_isSome.mpr ⟨r, hr, by simp [BlockRef.label]⟩)
  have hqr : q.number = r.number := by
    have : q.label = Label.ofBlock r.number := by simpa using List.find?_some hq
    exact Label.ofBlock_injective this
  simp only [Value.temp?, hq] at hentry
  rw [Flaw.unless_eq_ok, hqr, Bool.or_eq_true] at hentry
  refine ⟨_, hentry.resolve_left fun h => ?_⟩
  have := (mem_reachable hlinked.toLinked).mpr hpred
  rw [List.contains_iff_mem] at this
  simp [this] at h

/-- The labels of a phi are those of the predecessors, each once. -/
theorem labels_of_phi (hf : f.WellLinked) (hb : b ∈ f.blocks) {p : Phi} (hp : p ∈ b.phis) :
    (p.incoming.map (·.2)).Nodup ∧ ∀ l, l ∈ p.incoming.map (·.2) ↔ l ∈ b.prev.map (·.label) := by
  have := hf.phis b hb p hp
  simp only [phiMatches, Bool.and_eq_true, sameMembers_iff, allDistinct_iff] at this
  exact ⟨this.2, this.1⟩

/-- What stands in a phi under the label of a block comes from that block. -/
theorem mem_prev_of_incoming (hf : f.WellLinked) (hb : b ∈ f.blocks) (hc : c ∈ f.blocks) {p : Phi}
    (hp : p ∈ b.phis) {v : Value} (h : (v, c.label) ∈ p.incoming) : c.ref ∈ b.prev := by
  obtain ⟨r, hr, hl⟩ := List.mem_map.mp
    (((labels_of_phi hf hb hp).2 c.label).mp (List.mem_map_of_mem (f := (·.2)) h))
  obtain ⟨d, hd, rfl, -⟩ := hf.prev b hb r hr
  rwa [← hf.ref_eq hd hc (Label.ofBlock_injective hl)]

end Func

end LoopLanes
