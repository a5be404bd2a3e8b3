/-
Names in use.

A counter for fresh temporaries is ahead of a function when every name of it that reads as a
number is behind the counter (`Func.Named`).  What is handed out afterwards has a new name, as
long as the counter stays within its word (`Temp.Reserved.name_ne`).
-/
import LoopLanes.Cfg.Block
import LoopLanes.Loop.Forest
import LoopLanes.Proofs.Text.Decimal

namespace LoopLanes

/-- A counter is past the name of a temporary. -/
def Temp.Reserved (n : TempCounter) (t : Temp) : Prop := n.reserve t.name = n

instance (n : TempCounter) (t : Temp) : Decidable (t.Reserved n) :=
  inferInstanceAs (Decidable (n.reserve t.name = n))

/-- What an instruction reads and writes. -/
def Instr.mentions (i : Instr) : List Temp := i.write.toList ++ i.readTemps

/-- What the phis, instructions and terminator of a block read and write. -/
def Block.mentions (b : Block) : List Temp :=
  (b.phis.map Instr.phi ++ b.instrs ++ b.jump.toList).flatMap Instr.mentions

/-- The code of a block: its phis, its instructions and its terminator. -/
def Block.code (b : Block) : List Instr := b.phis.map .phi ++ b.instrs ++ b.jump.toList

/-- What the code of a block reads. -/
def Block.readTemps (b : Block) : List Temp := b.code.flatMap Instr.readTemps

/-- What a function reads and writes, and what it is called with. -/
def Func.mentions (f : Func) : List Temp := f.params ++ f.blocks.flatMap Block.mentions

/-- The names of a function are behind a counter, and it defines nothing global. -/
structure Func.Named (f : Func) (n : TempCounter) : Prop where
  locals : ∀ t ∈ writesOf f.blocks, t.isGlobal = false
  reserved : ∀ t ∈ f.mentions, t.Reserved n

/-- What a function needs to be given new names and new blocks: its names are behind the counter, its
numbers up to `total`, and its phis have the types of their targets. -/
structure Func.Extensible (f : Func) (n : TempCounter) : Prop extends f.Named n where
  total : ∀ b ∈ f.blocks, b.id ≤ f.total
  phis : ∀ b ∈ f.blocks, ∀ p ∈ b.phis, p.ty = p.target.ty

namespace Temp.Reserved

variable {n m : TempCounter} {t : Temp}

theorem iff_le : t.Reserved n ↔ ∀ k, readU32 t.name = .ok k → k ≤ n := by
  unfold Reserved TempCounter.reserve
  cases h : readU32 t.name with
  | error e => simp
  | ok k =>
    simp only [Except.ok.injEq, forall_eq']
    exact ⟨fun h => h ▸ Nat.le_max_right n k, Nat.max_eq_left⟩

theorem mono (h : t.Reserved n) (hle : n ≤ m) : t.Reserved m :=
  iff_le.mpr fun k hk => Nat.le_trans (iff_le.mp h k hk) hle

/-- A name is reserved once it was passed. -/
theorem of_reserve (n : TempCounter) (t : Temp) : t.Reserved (n.reserve t.name) := by
  refine iff_le.mpr fun k hk => ?_
  simp only [TempCounter.reserve, hk]
  exact Nat.le_max_right n k

/-- A fresh name is none of those that were passed. -/
theorem name_ne (h : t.Reserved n) {k : Nat} (hk : n < k) (hmax : (k : Int) ≤ u32Max) :
    t.name ≠ toString k := by
  intro e
  have hread : readU32 t.name = .ok k := by
    rw [e, readU32, show toString k = toString (k : Int) from rfl,
      readInteger_toString (by decide) (by omega) hmax]
    rfl
  exact absurd (iff_le.mp h k hread) (Nat.not_le.mpr hk)

/-- A name that is a number is behind the counter, or past all that the counter comes to within its word. -/
theorem le_or_lt (h : t.Reserved n) (hmax : (m : Int) ≤ u32Max) {k : Nat} (e : t.name = toString k) :
    k ≤ n ∨ m < k := by
  rcases Nat.lt_or_ge n k with hk | hk
  · refine .inr (Nat.lt_of_not_le fun hkm => h.name_ne hk ?_ e)
    exact Int.le_trans (Int.ofNat_le.mpr hkm) hmax
  · exact .inl hk

end Temp.Reserved

theorem Func.Extensible.mono {f : Func} {n m : TempCounter} (h : f.Extensible n) (hle : n ≤ m) : f.Extensible m :=
  { h with reserved := fun t ht => (h.reserved t ht).mono hle }

/-- A name that a counter handed out between two of its stages. -/
def Temp.Fresh (n m : TempCounter) (t : Temp) : Prop := ∃ k, n < k ∧ k ≤ m ∧ t.name = toString k

theorem Block.mem_readTemps {b : Block} {t : Temp} : t ∈ b.readTemps ↔
    (∃ p ∈ b.phis, t ∈ (Instr.phi p).readTemps) ∨ (∃ x ∈ b.instrs, t ∈ x.readTemps) ∨
      ∃ j, b.jump = some j ∧ t ∈ j.readTemps := by
  simp [readTemps, code]

/-- What a block reads its function mentions. -/
theorem Func.mem_mentions_of_read {f : Func} {b : Block} {t : Temp} (hb : b ∈ f.blocks) (ht : t ∈ b.readTemps) :
    t ∈ f.mentions := by
  obtain ⟨x, hx, ht⟩ := List.mem_flatMap.mp ht
  exact List.mem_append_right _ (List.mem_flatMap.mpr ⟨b, hb,
    List.mem_flatMap.mpr ⟨x, hx, List.mem_append_right _ ht⟩⟩)

/-- What a function defines it mentions. -/
theorem Func.mem_mentions {f : Func} {t : Temp} (h : t ∈ f.params ++ writesOf f.blocks) : t ∈ f.mentions := by
  rcases List.mem_append.mp h with h | h
  · exact List.mem_append_left _ h
  obtain ⟨b, hb, h⟩ := List.mem_flatMap.mp h
  refine List.mem_append_right _ (List.mem_flatMap.mpr ⟨b, hb, List.mem_flatMap.mpr ?_⟩)
  rcases List.mem_append.mp h with h | h
  · obtain ⟨p, hp, rfl⟩ := List.mem_map.mp h
    exact ⟨.phi p, by simp [hp], by simp [Instr.mentions, Instr.write]⟩
  · obtain ⟨x, hx, hw⟩ := List.mem_filterMap.mp h
    exact ⟨x, by simp [hx], by simp [Instr.mentions, hw]⟩

namespace Temp.Fresh

variable {n m k : TempCounter} {t u : Temp}

theorem mono (h : t.Fresh n m) (hle : m ≤ k) : t.Fresh n k := by
  obtain ⟨j, hj, hj', e⟩ := h
  exact ⟨j, hj, Nat.le_trans hj' hle, e⟩

theorem weaken (h : t.Fresh m k) (hle : n ≤ m) : t.Fresh n k := by
  obtain ⟨j, hj, hj', e⟩ := h
  exact ⟨j, Nat.lt_of_le_of_lt hle hj, hj', e⟩

/-- A name is in use once it was handed out. -/
theorem reserved (h : t.Fresh n m) (hmax : (m : Int) ≤ u32Max) : t.Reserved m := by
  obtain ⟨k, -, hk, e⟩ := h
  refine Reserved.iff_le.mpr fun k' hk' => ?_
  have hread : readU32 t.name = .ok k := by
    rw [e, readU32, show toString k = toString (k : Int) from rfl, readInteger_toString (by decide) (by omega)
      (Int.le_trans (Int.ofNat_le.mpr hk) hmax)]
    rfl
  obtain rfl : k = k' := Except.ok.inj (hread.symm.trans hk')
  exact hk

/-- Names handed out do not clash with those in use. -/
theorem ne_of_reserved (h : t.Fresh n m) (hmax : (m : Int) ≤ u32Max) (hu : u.Reserved n) : t ≠ u := by
  obtain ⟨j, hj, hj', e⟩ := h
  rintro rfl
  exact hu.name_ne hj (Int.le_trans (Int.ofNat_le.mpr hj') hmax) e

/-- Names handed out one after the other differ. -/
theorem ne_of_fresh (h : t.Fresh n m) (hu : u.Fresh m k) : t ≠ u := by
  obtain ⟨j, -, hj, e⟩ := h
  obtain ⟨j', hj', -, e'⟩ := hu
  rintro rfl
  exact absurd (toString_nat_injective (e.symm.trans e')) (Nat.ne_of_lt (Nat.lt_of_le_of_lt hj hj'))

theorem of_fresh (n : TempCounter) (ty : Ty) (isGlobal : Bool) :
    (TempCounter.fresh n ty isGlobal).1.Fresh n (TempCounter.fresh n ty isGlobal).2 :=
  ⟨n + 1, Nat.lt_succ_self n, Nat.le_refl _, rfl⟩

end Temp.Fresh

/-- Names that a counter handed out between two of its stages, each of them once. -/
structure Temp.AllFresh (n m : TempCounter) (ts : List Temp) : Prop where
  le : n ≤ m
  nodup : ts.Nodup
  fresh : ∀ t ∈ ts, t.Fresh n m

namespace Temp.AllFresh

variable {n m k : TempCounter} {ts us : List Temp}

theorem nil (n : TempCounter) : AllFresh n n [] := ⟨Nat.le_refl n, List.nodup_nil, nofun⟩

theorem singleton (n : TempCounter) (isGlobal : Bool) (ty : Ty) :
    AllFresh n (n + 1) [⟨toString (n + 1), isGlobal, ty⟩] :=
  ⟨Nat.le_succ n, by simp,
    List.forall_mem_singleton.mpr ⟨n + 1, Nat.lt_succ_self n, Nat.le_refl _, rfl⟩⟩

/-- Names handed out first and names handed out afterwards. -/
theorem append (h : AllFresh n m ts) (h' : AllFresh m k us) : AllFresh n k (ts ++ us) := by
  refine ⟨Nat.le_trans h.le h'.le, List.nodup_append.mpr ⟨h.nodup, h'.nodup, fun t ht u hu => ?_⟩,
    List.forall_mem_append.mpr ⟨fun t ht => ?_, fun u hu => ?_⟩⟩
  · exact (h.fresh t ht).ne_of_fresh (h'.fresh u hu)
  · exact (h.fresh t ht).mono h'.le
  · exact (h'.fresh u hu).weaken h.le

theorem sublist (h : AllFresh n m us) (hsub : ts.Sublist us) : AllFresh n m ts :=
  ⟨h.le, h.nodup.sublist hsub, fun t ht => h.fresh t (hsub.subset ht)⟩

/-- Names handed out stand beside names in use. -/
theorem nodup_append (h : AllFresh n m ts) (hword : (m : Int) ≤ u32Max) (hus : us.Nodup)
    (hused : ∀ u ∈ us, u.Reserved n) : (us ++ ts).Nodup := by
  refine List.nodup_append.mpr ⟨hus, h.nodup, ?_⟩
  rintro t ht u hu rfl
  exact (h.fresh t hu).ne_of_reserved hword (hused t ht) rfl

end Temp.AllFresh

/-- Names handed out can be defined in a function beside its own. -/
theorem Func.Named.nodup_append {f : Func} {n m : TempCounter} {ts : List Temp} (hf : f.Named n)
    (hdefs : (f.params ++ writesOf f.blocks).Nodup) (hword : (m : Int) ≤ u32Max) (h : Temp.AllFresh n m ts) :
    (f.params ++ writesOf f.blocks ++ ts).Nodup :=
  h.nodup_append hword hdefs fun t ht => hf.reserved t (mem_mentions ht)

end LoopLanes
