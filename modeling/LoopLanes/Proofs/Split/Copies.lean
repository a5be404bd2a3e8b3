/-
Copies of blocks under fresh names.

* `Instr.readTemps_rename`, `Instr.wellTyped_rename` — what becomes of an instruction under other names;
* `mem_freshTemps` — fresh names are numbered, past the counter;
* `LoopClone.temp_injective` — a copy keeps the temporaries of the blocks apart;
* `LoopClone.block?_injective` — and their numbers;
* `LoopClone.copies_eq` — blocks with distinct numbers are copied one by one.
-/
import LoopLanes.Split.Clone
import LoopLanes.Proofs.Basic.Tables
import LoopLanes.Proofs.Text.Decimal

namespace LoopLanes

/-! ### Instructions under other names -/

namespace Instr

variable {ρ : Temp → Temp}

theorem ty_rename_value (hρ : ∀ t, (ρ t).ty = t.ty) (v : Value) : (v.rename ρ).ty = v.ty := by
  cases v with
  | temp t => exact hρ t
  | _ => rfl

theorem temp?_rename_value (v : Value) : (v.rename ρ).temp? = v.temp?.map ρ := by
  cases v <;> rfl

theorem reads_rename (x : Instr) : (x.rename ρ).reads = x.reads.map (·.rename ρ) := by
  induction x with
  | vec w mask inner ih => cases mask <;> simp [rename, reads, ih]
  | ret value => cases value <;> rfl
  | _ => simp [rename, reads, Phi.rename, Phi.reads, Function.comp_def]

/-- An instruction under other names reads the renamed temporaries. -/
theorem readTemps_rename (x : Instr) : (x.rename ρ).readTemps = x.readTemps.map ρ := by
  rw [readTemps, reads_rename, List.filterMap_map, readTemps, List.map_filterMap]
  exact List.filterMap_congr fun v _ => temp?_rename_value v

theorem write_rename (x : Instr) : (x.rename ρ).write = x.write.map ρ := by
  induction x with
  | vec w mask inner ih => exact ih
  | call t ty callee args =>
    simp only [rename, write]
    split <;> rfl
  | _ => rfl

/-- Names do not matter for types. -/
theorem wellTyped_rename (hρ : ∀ t, (ρ t).ty = t.ty) (x : Instr) : (x.rename ρ).wellTyped = x.wellTyped := by
  induction x with
  | vec w mask inner ih => exact ih
  | _ => simp [rename, wellTyped, Phi.rename, Phi.wellTyped, ty_rename_value hρ, hρ, Function.comp_def]

end Instr

/-! ### Names of a copy -/

namespace LoopClone

theorem map_fst_freshTemps : ∀ (ts : List Temp) (n : TempCounter),
    (freshTemps ts n).1.map (·.1) = ts := by
  intro ts
  induction ts with
  | nil => intro n; rfl
  | cons t ts ih =>
    intro n
    simp [freshTemps, TempCounter.fresh, ih]

theorem le_freshTemps : ∀ (ts : List Temp) (n : Nat), n ≤ (freshTemps ts n).2 := by
  intro ts
  induction ts with
  | nil => exact fun n => Nat.le_refl n
  | cons t ts ih => exact fun n => Nat.le_trans (Nat.le_succ n) (ih (n + 1))

/-- Fresh names are numbered, past the counter and up to where it ends. -/
theorem mem_freshTemps : ∀ {ts : List Temp} {n : Nat} {e : Temp × Temp}, e ∈ (freshTemps ts n).1 →
    ∃ k, n < k ∧ k ≤ (freshTemps ts n).2 ∧ e.2 = ⟨toString k, false, e.1.ty⟩ := by
  intro ts
  induction ts with
  | nil => simp [freshTemps]
  | cons t ts ih =>
    intro n e he
    have hle := le_freshTemps ts (n + 1)
    simp only [freshTemps, TempCounter.fresh] at he ⊢
    rcases List.mem_cons.mp he with rfl | he
    · exact ⟨n + 1, Nat.lt_succ_self n, hle, rfl⟩
    · obtain ⟨k, hk, hk', e⟩ := ih he
      exact ⟨k, Nat.lt_of_succ_lt hk, hk', e⟩

/-- No two temporaries get the same fresh name. -/
theorem nodup_freshTemps : ∀ (ts : List Temp) (n : Nat),
    ((freshTemps ts n).1.map (·.2.name)).Nodup := by
  intro ts
  induction ts with
  | nil => intro n; exact List.nodup_nil
  | cons t ts ih =>
    intro n
    simp only [freshTemps, TempCounter.fresh, List.map_cons, List.nodup_cons]
    refine ⟨fun hmem => ?_, ih (n + 1)⟩
    obtain ⟨e, he, heq⟩ := List.mem_map.mp hmem
    obtain ⟨k, hk, -, hname⟩ := mem_freshTemps he
    have hstr : toString k = toString (n + 1) := by
      rw [hname] at heq
      exact heq
    have := toString_nat_injective hstr
    omega

theorem mem_keys_freshTemps {ts : List Temp} {n : TempCounter} {t : Temp} :
    t ∈ (freshTemps (Temp.sorted ts) n).1.map (·.1) ↔ t ∈ ts := by
  rw [map_fst_freshTemps]
  exact (mem_insertSort _ _ _).trans List.mem_eraseDups

/-- A copy keeps the temporaries that the blocks define apart, by their names. -/
theorem name_temp_injective {bs : List Block} {last : Int} {n n' : TempCounter} {c : LoopClone}
    (h : ofBlocks bs last n = (c, n')) {t u : Temp} (ht : t ∈ writesOf bs) (hu : u ∈ writesOf bs)
    (e : (c.temp t).name = (c.temp u).name) : t = u := by
  obtain ⟨rfl, -⟩ := Prod.mk.inj h
  obtain ⟨t', ht'⟩ := exists_lookup ((mem_keys_freshTemps (n := n)).mpr ht)
  obtain ⟨u', hu'⟩ := exists_lookup ((mem_keys_freshTemps (n := n)).mpr hu)
  simp only [temp, ht', hu', Option.getD_some] at e
  exact congrArg Prod.fst (List.inj_on_of_nodup_map (nodup_freshTemps _ n) (mem_of_lookup ht') (mem_of_lookup hu') e)

theorem temp_injective {bs : List Block} {last : Int} {n n' : TempCounter} {c : LoopClone}
    (h : ofBlocks bs last n = (c, n')) {t u : Temp} (ht : t ∈ writesOf bs) (hu : u ∈ writesOf bs)
    (e : c.temp t = c.temp u) : t = u :=
  name_temp_injective h ht hu (congrArg Temp.name e)

/-- What the blocks define gets a fresh name. -/
theorem temp_of_mem {bs : List Block} {last : Int} {n n' : TempCounter} {c : LoopClone}
    (h : ofBlocks bs last n = (c, n')) {t : Temp} (ht : t ∈ writesOf bs) :
    ∃ k, n < k ∧ k ≤ n' ∧ c.temp t = ⟨toString k, false, t.ty⟩ := by
  obtain ⟨rfl, rfl⟩ := Prod.mk.inj h
  obtain ⟨u, hu⟩ := exists_lookup ((mem_keys_freshTemps (n := n)).mpr ht)
  obtain ⟨k, hk, hk', e⟩ := mem_freshTemps (mem_of_lookup hu)
  refine ⟨k, hk, hk', ?_⟩
  rw [temp, hu, Option.getD_some]
  exact e

/-- All else is read as it is. -/
theorem temp_of_notMem {bs : List Block} {last : Int} {n n' : TempCounter} {c : LoopClone}
    (h : ofBlocks bs last n = (c, n')) {t : Temp} (ht : t ∉ writesOf bs) : c.temp t = t := by
  obtain ⟨rfl, -⟩ := Prod.mk.inj h
  cases hu : (freshTemps (Temp.sorted (writesOf bs)) n).1.lookup t with
  | none => rw [temp, hu, Option.getD_none]
  | some u =>
    have hkey := List.mem_map_of_mem (f := (·.1)) (mem_of_lookup hu)
    exact absurd (mem_keys_freshTemps.mp hkey) ht

/-- A copy keeps types. -/
theorem ty_temp {bs : List Block} {last : Int} {n n' : TempCounter} {c : LoopClone}
    (h : ofBlocks bs last n = (c, n')) (t : Temp) : (c.temp t).ty = t.ty := by
  by_cases ht : t ∈ writesOf bs
  · obtain ⟨k, -, -, e⟩ := temp_of_mem h ht
    rw [e]
  · rw [temp_of_notMem h ht]

/-- Different blocks have copies of different numbers. -/
theorem block?_injective {bs : List Block} {last : Int} {n n' : TempCounter} {c : LoopClone}
    (h : ofBlocks bs last n = (c, n')) {a b k : Int} (ha : c.block? a = some k)
    (hb : c.block? b = some k) : a = b := by
  obtain ⟨rfl, -⟩ := Prod.mk.inj h
  refine lookup_injective ?_ ha hb
  have hmap : (bs.zipIdx.map fun e => (e.1.id, last + 1 + (e.2 : Int))).map (·.2) =
      (List.range' 0 bs.length).map fun i : Nat => last + 1 + (i : Int) := by
    rw [List.map_map, ← List.zipIdx_map_snd 0 bs, List.map_map]
    rfl
  rw [List.map_reverse, List.nodup_reverse, hmap]
  refine (List.nodup_range' ..).map fun i j e => ?_
  have e : last + 1 + (i : Int) = last + 1 + j := e
  omega

theorem map_fst_blockMap {bs : List Block} {last : Int} {n n' : TempCounter} {c : LoopClone}
    (h : ofBlocks bs last n = (c, n')) : c.blockMap.map (·.1) = (bs.map Block.id).reverse := by
  obtain ⟨rfl, -⟩ := Prod.mk.inj h
  rw [List.map_reverse, List.map_map]
  congr 1
  rw [← List.zipIdx_map_fst 0 bs, List.map_map]
  simp [Function.comp_def]

/-- Every block has a number for its copy, from those behind the last one in use. -/
theorem exists_block? {bs : List Block} {last : Int} {n n' : TempCounter} {c : LoopClone}
    (h : ofBlocks bs last n = (c, n')) {b : Block} (hb : b ∈ bs) :
    ∃ k, c.block? b.id = some k ∧ last < k ∧ k ≤ last + bs.length := by
  have hkey : b.id ∈ c.blockMap.map (·.1) := by
    rw [map_fst_blockMap h, List.mem_reverse]
    exact List.mem_map_of_mem hb
  obtain ⟨k, hk⟩ := exists_lookup hkey
  refine ⟨k, hk, ?_⟩
  obtain ⟨rfl, -⟩ := Prod.mk.inj h
  obtain ⟨⟨b', i⟩, hi, e⟩ := List.mem_map.mp (List.mem_reverse.mp (mem_of_lookup hk))
  obtain ⟨-, rfl⟩ := Prod.mk.inj e
  have hlt : i < bs.length := (List.getElem?_eq_some_iff.mp (List.mem_zipIdx_iff_getElem?.mp hi)).1
  constructor <;> omega

theorem labelMap_eq {bs : List Block} {last : Int} {n n' : TempCounter} {c : LoopClone}
    (h : ofBlocks bs last n = (c, n')) :
    c.labelMap = c.blockMap.map fun e => (Label.ofBlock e.1, Label.ofBlock e.2) := by
  obtain ⟨rfl, -⟩ := Prod.mk.inj h
  rfl

theorem map_fst_labelMap {bs : List Block} {last : Int} {n n' : TempCounter} {c : LoopClone}
    (h : ofBlocks bs last n = (c, n')) : c.labelMap.map (·.1) = (bs.map Block.label).reverse := by
  have hkeys : c.labelMap.map (·.1) = (c.blockMap.map (·.1)).map Label.ofBlock := by
    rw [labelMap_eq h, List.map_map, List.map_map]
    rfl
  rw [hkeys, map_fst_blockMap h, List.map_reverse, List.map_map]
  rfl

/-- A label that is none of the blocks' stays as it is. -/
theorem label_of_notMem {bs : List Block} {last : Int} {n n' : TempCounter} {c : LoopClone}
    (h : ofBlocks bs last n = (c, n')) {l : Label} (hl : l ∉ bs.map Block.label) : c.label l = l := by
  rw [label]
  cases hl' : c.labelMap.lookup l with
  | none => rfl
  | some l' =>
    have hkey := List.mem_map_of_mem (f := (·.1)) (mem_of_lookup hl')
    rw [map_fst_labelMap h, List.mem_reverse] at hkey
    exact absurd hkey hl

/-- The label of a block becomes that of its copy. -/
theorem label_of_block? {bs : List Block} {last : Int} {n n' : TempCounter} {c : LoopClone}
    (h : ofBlocks bs last n = (c, n')) (hnodup : (bs.map Block.id).Nodup) {v k : Int}
    (hk : c.block? v = some k) : c.label (Label.ofBlock v) = Label.ofBlock k := by
  have hkeys : (c.labelMap.map (·.1)).Nodup := by
    have hlabels : bs.map Block.label = (bs.map Block.id).map Label.ofBlock := by
      rw [List.map_map]
      rfl
    rw [map_fst_labelMap h, List.nodup_reverse, hlabels]
    exact hnodup.map fun _ _ e => Label.ofBlock_injective e
  have hmem : (Label.ofBlock v, Label.ofBlock k) ∈ c.labelMap :=
    labelMap_eq h ▸ List.mem_map_of_mem (f := fun e : Int × Int => (Label.ofBlock e.1, Label.ofBlock e.2))
      (mem_of_lookup hk)
  rw [label, lookup_of_mem hkeys hmem, Option.getD_some]

/-- A label stays as it is, or it becomes that of a copy. -/
theorem label_eq_or {bs : List Block} {last : Int} {n n' : TempCounter} {c : LoopClone}
    (h : ofBlocks bs last n = (c, n')) (hnodup : (bs.map Block.id).Nodup) (l : Label) :
    c.label l = l ∨ ∃ b ∈ bs, ∃ k, c.block? b.id = some k ∧ c.label l = Label.ofBlock k := by
  by_cases hl : l ∈ bs.map Block.label
  · obtain ⟨b, hb, rfl⟩ := List.mem_map.mp hl
    obtain ⟨k, hk, -⟩ := exists_block? h hb
    exact .inr ⟨b, hb, k, hk, label_of_block? h hnodup hk⟩
  · exact .inl (label_of_notMem h hl)

/-- Blocks with distinct numbers are copied one by one. -/
theorem copies_eq (c : LoopClone) {bs : List Block} (h : (bs.map Block.id).Nodup) :
    c.copies bs = bs.map c.copy := by
  refine List.map_congr_left fun b hb => ?_
  have hfind : bs.reverse.find? (·.id == b.id) = some b := by
    cases hd : bs.reverse.find? (·.id == b.id) with
    | none => simpa using List.find?_eq_none.mp hd b (List.mem_reverse.mpr hb)
    | some d =>
      have hdm := List.mem_reverse.mp (List.mem_of_find?_eq_some hd)
      have hid : d.id = b.id := by simpa using List.find?_some hd
      rw [List.inj_on_of_nodup_map h hdm hb hid]
  rw [hfind, Option.getD_some]

end LoopClone

end LoopLanes
