/-
Tables as lists of keys with their values, looked up.
-/
import Mathlib.Data.List.Nodup
import LoopLanes.Basic.Table

namespace LoopLanes

variable {α β : Type} [BEq α] [LawfulBEq α] {k k' : α} {v : β} {es : List (α × β)}

theorem mem_of_lookup (h : es.lookup k = some v) : (k, v) ∈ es := by
  obtain ⟨l, r, rfl, -⟩ := List.lookup_eq_some_iff.mp h
  simp

theorem exists_lookup (h : k ∈ es.map (·.1)) : ∃ v, es.lookup k = some v := by
  refine Option.isSome_iff_exists.mp (List.lookup_isSome_iff.mpr ?_)
  obtain ⟨e, he, rfl⟩ := List.mem_map.mp h
  exact ⟨e, he, by simp⟩

/-- Where no value stands twice, it tells the key. -/
theorem lookup_injective (hnodup : (es.map (·.2)).Nodup) (h : es.lookup k = some v)
    (h' : es.lookup k' = some v) : k = k' :=
  congrArg Prod.fst (List.inj_on_of_nodup_map hnodup (mem_of_lookup h) (mem_of_lookup h') rfl)

/-- Where no key stands twice, every entry is answered. -/
theorem lookup_of_mem (hnodup : (es.map (·.1)).Nodup) (h : (k, v) ∈ es) : es.lookup k = some v := by
  obtain ⟨w, hw⟩ := exists_lookup (List.mem_map_of_mem (f := (·.1)) h)
  have he := List.inj_on_of_nodup_map hnodup (mem_of_lookup hw) h rfl
  exact hw.trans (congrArg some (congrArg Prod.snd he))

/-- A new key comes behind the others. -/
theorem setEntry_of_notMem (h : k ∉ es.map (·.1)) : setEntry k v es = es ++ [(k, v)] := by
  induction es with
  | nil => rfl
  | cons e es ih =>
    obtain ⟨hne, h⟩ := not_or.mp (List.mem_cons.not.mp h)
    rw [setEntry, if_neg (by simpa using Ne.symm hne), ih h, List.cons_append]

theorem mem_setEntry {e : α × β} (h : e ∈ setEntry k v es) : e = (k, v) ∨ e ∈ es := by
  induction es with
  | nil => exact .inl (List.mem_singleton.mp h)
  | cons d es ih =>
    rw [setEntry] at h
    split at h
    · rename_i heq
      rcases List.mem_cons.mp h with rfl | h
      · exact .inl (by rw [beq_iff_eq.mp heq])
      · exact .inr (List.mem_cons_of_mem _ h)
    · rcases List.mem_cons.mp h with rfl | h
      · exact .inr List.mem_cons_self
      · exact (ih h).imp_right (List.mem_cons_of_mem _)

/-- Each key stands once where keys are set. -/
theorem nodup_setEntry [DecidableEq α] (h : (es.map (·.1)).Nodup) (k : α) (v : β) :
    ((setEntry k v es).map (·.1)).Nodup := by
  by_cases hk : k ∈ es.map (·.1)
  · rwa [map_fst_setEntry_of_mem k v es hk]
  · rw [setEntry_of_notMem hk, List.map_append, List.nodup_append]
    refine ⟨h, List.nodup_singleton k, ?_⟩
    rintro _ hmem _ (_ | ⟨_, ⟨⟩⟩) rfl
    exact hk hmem

/-! ### Tables built entry by entry -/

section Filled

variable {γ : Type} (key : γ → α) (val : γ → β)

theorem lookup_foldl_of_notMem : ∀ {cs : List γ} {es : List (α × β)}, k ∉ cs.map key →
    (cs.foldl (fun t c => setEntry (key c) (val c) t) es).lookup k = es.lookup k := by
  intro cs
  induction cs with
  | nil => exact fun _ => rfl
  | cons c cs ih =>
    intro es hk
    obtain ⟨hne, hk⟩ := not_or.mp (List.mem_cons.not.mp hk)
    rw [List.foldl_cons, ih hk, lookup_setEntry_of_ne _ _ hne]

theorem lookup_foldl_of_mem {c : γ} : ∀ {cs : List γ} {es : List (α × β)}, (cs.map key).Nodup →
    c ∈ cs → (cs.foldl (fun t c => setEntry (key c) (val c) t) es).lookup (key c) = some (val c) := by
  intro cs
  induction cs with
  | nil => exact fun _ => nofun
  | cons d cs ih =>
    intro es hnodup hc
    obtain ⟨hnew, hnodup⟩ := List.nodup_cons.mp hnodup
    rw [List.foldl_cons]
    rcases List.mem_cons.mp hc with rfl | hc
    · rw [lookup_foldl_of_notMem key val hnew, lookup_setEntry_self]
    · exact ih hnodup hc

end Filled

/-- Only one element has a key that no other element has. -/
theorem flatMap_ite_of_nodup {α β κ : Type} [DecidableEq κ] {key : α → κ} {as : List α} {a : α}
    (hnodup : (as.map key).Nodup) (ha : a ∈ as) (bs : List β) :
    (as.flatMap fun c => if key c = key a then bs else []) = bs := by
  obtain ⟨before, after, hsplit⟩ := List.append_of_mem ha
  have hnone : ∀ cs ⊆ before ++ after, (cs.flatMap fun c => if key c = key a then bs else []) = [] := by
    intro cs hcs
    refine List.flatMap_eq_nil_iff.mpr fun c hc => if_neg fun e => ?_
    have hperm : (a :: (before ++ after)).Perm as := hsplit ▸ List.perm_middle.symm
    have hnew := (List.nodup_cons.mp ((hperm.map key).nodup_iff.mpr hnodup)).1
    exact hnew (List.mem_map.mpr ⟨c, hcs hc, e⟩)
  rw [hsplit, List.flatMap_append, List.flatMap_cons, hnone before (List.subset_append_left _ _),
    hnone after (List.subset_append_right _ _), if_pos rfl]
  simp

end LoopLanes
