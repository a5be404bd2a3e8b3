/-
The use graph of some blocks of a verified function.

* `mem_sites` — a temporary is defined by a phi, an instruction or a terminator of the blocks;
* `definition?_phi`, `definition?_instr` — where terminators define nothing, what defines a
  temporary is the only one to do so.
-/
import LoopLanes.Recurrence.UseGraph
import LoopLanes.Proofs.Cfg.Links

namespace LoopLanes

namespace UseGraph

variable {f : Func} {bs : List Block} {b : Block} {t : Temp} {i : Instr}

/-- Terminators of these blocks define nothing. -/
def PlainJumps (bs : List Block) : Prop := ∀ b ∈ bs, ∀ j ∈ b.jump, Instr.write j = none

theorem mem_sites {id : Int} : (id, i) ∈ (ofBlocks bs).sites ↔
    ∃ b ∈ bs, b.id = id ∧ ((∃ p ∈ b.phis, i = .phi p) ∨ i ∈ b.instrs ∨ b.jump = some i) := by
  simp only [ofBlocks, List.mem_flatMap, List.mem_map, List.mem_append, Prod.mk.injEq,
    Option.mem_toList]
  constructor
  · rintro ⟨b, hb, j, (⟨p, hp, rfl⟩ | hj) | hj, hid, rfl⟩
    · exact ⟨b, hb, hid, .inl ⟨p, hp, rfl⟩⟩
    · exact ⟨b, hb, hid, .inr (.inl hj)⟩
    · exact ⟨b, hb, hid, .inr (.inr hj)⟩
  · rintro ⟨b, hb, hid, ⟨p, hp, rfl⟩ | hi | hi⟩
    · exact ⟨b, hb, _, .inl (.inl ⟨p, hp, rfl⟩), hid, rfl⟩
    · exact ⟨b, hb, i, .inl (.inr hi), hid, rfl⟩
    · exact ⟨b, hb, i, .inr hi, hid, rfl⟩

/-- Of a list without repeated results, one element alone gives a result. -/
theorem eq_of_filterMap_nodup {α β : Type} {g : α → Option β} {x y : α} {c : β} : ∀ {l : List α},
    (l.filterMap g).Nodup → x ∈ l → y ∈ l → g x = some c → g y = some c → x = y := by
  intro l
  induction l with
  | nil => simp
  | cons a l ih =>
    intro hnodup hx hy hgx hgy
    rw [List.filterMap_cons] at hnodup
    rcases List.mem_cons.mp hx with rfl | hxl
    · rcases List.mem_cons.mp hy with rfl | hyl
      · rfl
      · rw [hgx] at hnodup
        exact absurd (List.mem_filterMap.mpr ⟨y, hyl, hgy⟩) (List.nodup_cons.mp hnodup).1
    · rcases List.mem_cons.mp hy with rfl | hyl
      · rw [hgy] at hnodup
        exact absurd (List.mem_filterMap.mpr ⟨x, hxl, hgx⟩) (List.nodup_cons.mp hnodup).1
      · refine ih ?_ hxl hyl hgx hgy
        split at hnodup
        · exact hnodup
        · exact (List.nodup_cons.mp hnodup).2

/-- A site that writes a temporary, and the block that it stands in. -/
theorem mem_writes_of_site {id : Int} (hjumps : PlainJumps bs) (h : (id, i) ∈ (ofBlocks bs).sites)
    (hw : i.write = some t) :
    ∃ b ∈ bs, t ∈ b.writes ∧
      ((∃ p ∈ b.phis, i = .phi p ∧ p.target = t) ∨ i ∈ b.instrs) := by
  obtain ⟨b, hb, -, ⟨p, hp, rfl⟩ | hi | hi⟩ := mem_sites.mp h
  · have ht : p.target = t := by simpa [Instr.write] using hw
    exact ⟨b, hb, List.mem_append_left _ (List.mem_map.mpr ⟨p, hp, ht⟩), .inl ⟨p, hp, rfl, ht⟩⟩
  · exact ⟨b, hb, List.mem_append_right _ (List.mem_filterMap.mpr ⟨i, hi, hw⟩), .inr hi⟩
  · rw [hjumps b hb i hi] at hw
    cases hw

/-- In a verified function, a temporary has one definition. -/
theorem site_unique (hf : f.verify = .ok ()) (hbs : ∀ b ∈ bs, b ∈ f.blocks)
    (hjumps : PlainJumps bs) {id id' : Int} {j : Instr} (h : (id, i) ∈ (ofBlocks bs).sites)
    (h' : (id', j) ∈ (ofBlocks bs).sites) (hw : i.write = some t) (hw' : j.write = some t) :
    i = j := by
  obtain ⟨b, hb, htb, hi⟩ := mem_writes_of_site hjumps h hw
  obtain ⟨c, hc, htc, hj⟩ := mem_writes_of_site hjumps h' hw'
  obtain rfl := Func.eq_of_mem_writes hf (hbs b hb) (hbs c hc) htb htc
  have hnodup := Func.writes_nodup hf (hbs b hb)
  obtain ⟨hphis, hinstrs, hdisj⟩ := List.nodup_append.mp hnodup
  rcases hi with ⟨p, hp, rfl, hpt⟩ | hi <;> rcases hj with ⟨q, hq, rfl, hqt⟩ | hj
  · rw [List.inj_on_of_nodup_map hphis hp hq (hpt.trans hqt.symm)]
  · exact absurd rfl (hdisj t (List.mem_map.mpr ⟨p, hp, hpt⟩) t (List.mem_filterMap.mpr ⟨j, hj, hw'⟩))
  · exact absurd rfl (hdisj t (List.mem_map.mpr ⟨q, hq, hqt⟩) t (List.mem_filterMap.mpr ⟨i, hi, hw⟩))
  · exact eq_of_filterMap_nodup hinstrs hi hj hw hw'

theorem definition?_eq (hf : f.verify = .ok ()) (hbs : ∀ b ∈ bs, b ∈ f.blocks)
    (hjumps : PlainJumps bs) {id : Int} (h : (id, i) ∈ (ofBlocks bs).sites)
    (hw : i.write = some t) : (ofBlocks bs).definition? t = some i := by
  unfold definition?
  cases hd : (ofBlocks bs).sites.reverse.find? fun s => s.2.write == some t with
  | none =>
    have := List.find?_eq_none.mp hd (id, i) (List.mem_reverse.mpr h)
    simp [hw] at this
  | some s =>
    have hs := List.mem_reverse.mp (List.mem_of_find?_eq_some hd)
    have hsw : s.2.write = some t := by simpa using List.find?_some hd
    rw [Option.map_some, site_unique hf hbs hjumps h (show (s.1, s.2) ∈ _ from hs) hw hsw]

theorem definition?_phi (hf : f.verify = .ok ()) (hbs : ∀ b ∈ bs, b ∈ f.blocks)
    (hjumps : PlainJumps bs) (hb : b ∈ bs) {p : Phi} (hp : p ∈ b.phis) :
    (ofBlocks bs).definition? p.target = some (.phi p) :=
  definition?_eq hf hbs hjumps (mem_sites.mpr ⟨b, hb, rfl, .inl ⟨p, hp, rfl⟩⟩) rfl

theorem definition?_instr (hf : f.verify = .ok ()) (hbs : ∀ b ∈ bs, b ∈ f.blocks)
    (hjumps : PlainJumps bs) (hb : b ∈ bs) (hi : i ∈ b.instrs) (hw : i.write = some t) :
    (ofBlocks bs).definition? t = some i :=
  definition?_eq hf hbs hjumps (mem_sites.mpr ⟨b, hb, rfl, .inr (.inl hi)⟩) hw

/-- What the graph defines is written in one of the blocks. -/
theorem mem_writes_of_isDefined (hjumps : PlainJumps bs) (h : (ofBlocks bs).isDefined t = true) :
    ∃ b ∈ bs, t ∈ b.writes := by
  simp only [isDefined, definition?, Option.isSome_map] at h
  obtain ⟨s, hs⟩ := Option.isSome_iff_exists.mp h
  have hmem := List.mem_reverse.mp (List.mem_of_find?_eq_some hs)
  obtain ⟨b, hb, ht, -⟩ := mem_writes_of_site hjumps (show (s.1, s.2) ∈ _ from hmem)
    (by simpa using List.find?_some hs)
  exact ⟨b, hb, ht⟩

end UseGraph

end LoopLanes
