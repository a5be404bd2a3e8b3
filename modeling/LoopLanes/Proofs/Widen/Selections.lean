/-
Selections, as they are executed.

A phi becomes selections, one on top of the other.  Each takes its value where the mask of an edge
holds; where one mask holds and no other does, the last one has the value that came along that edge.

* `selects_choices` — the entries that are left over lead to the value of the edge that is taken;
* `emits_phi` — so do the instructions, which set the target of the phi to it;
* `emits_phis` — and all phis of a block are set as if their operands were read at once.
-/
import LoopLanes.Proofs.Widen.Masks

namespace LoopLanes

variable {n n₀ k : TempCounter} {fr fr' fr'' : Frame} {t : Temp} {v cond : Value} {c d e : Cell} {x : Int32}
  {picks : List (Value × Value)} {ts : List Temp}

/-- An entry of a phi, with the mask of its edge. -/
def MaskState.entry (s : MaskState) (block : Int) (e : Value × Label) : Value × Option Value :=
  (e.1, s.edge (e.2.blockId?.getD (-1)) block)

namespace Masking

/-- One more entry of a phi. -/
def choice (left : Value × List (Value × Value)) (entry : Value × Option Value) :
    Value × List (Value × Value) :=
  match entry.2 with
  | some m => (left.1, left.2 ++ [(m, entry.1)])
  | none => (entry.1, [])

/-- The selections that a phi becomes; one that always takes a value where nothing else is left. -/
def picksOf (left : Value × List (Value × Value)) : List (Value × Value) :=
  match left.2 with
  | [] => [(.int 1, left.1)]
  | picks => picks

theorem picksOf_ne_nil (left : Value × List (Value × Value)) : picksOf left ≠ [] := by
  obtain ⟨base, _ | _⟩ := left <;> exact List.cons_ne_nil _ _

/-- A phi becomes selections on what is left of its entries. -/
theorem run_phi (s : MaskState) (block : Int) {p : Phi} {first : Value × Label} {rest : List (Value × Label)}
    (h : p.incoming = first :: rest) :
    (phi block p).run s =
      (selections p.target p.ty ((rest.map (s.entry block)).foldl choice (first.1, [])).1
        (picksOf ((rest.map (s.entry block)).foldl choice (first.1, [])))).run s := by
  let look (e : Value × Label) : Masking (Value × Option Value) := do
    return (e.1, ← edge (e.2.blockId?.getD (-1)) block)
  have hlook : (p.incoming.mapM look).run s = (p.incoming.map (s.entry block), s) :=
    run_mapM (g := look) (h := s.entry block) (fun e => rfl) p.incoming
  refine (run_bind hlook).trans ?_
  rw [h, List.map_cons]
  dsimp only
  rw [show choices (s.entry block first).1 (rest.map (s.entry block)) = (rest.map (s.entry block)).foldl choice (first.1, [])
    from rfl]
  generalize (rest.map (s.entry block)).foldl choice (first.1, []) = left
  obtain ⟨base, _ | ⟨pick, picks⟩⟩ := left <;> rfl

end Masking

namespace Frame

/-! ### Values taken one after the other -/

/-- Selections one on top of the other lead from one value to another one. -/
inductive Selects (fr : Frame) : Cell → List (Value × Value) → Cell → Prop
  | nil (c : Cell) : Selects fr c [] c
  | cons {c d e : Cell} {x : Int32} {cond v : Value} {picks : List (Value × Value)}
    (hcond : fr.read cond = .ok [.int x]) (hv : fr.Reads v d)
    (rest : Selects fr (if x ≠ 0 then d else c) picks e) : Selects fr c ((cond, v) :: picks) e

namespace Selects

theorem snoc (h : fr.Selects c picks d) (hcond : fr.read cond = .ok [.int x]) (hv : fr.Reads v e) :
    fr.Selects c (picks ++ [(cond, v)]) (if x ≠ 0 then e else d) := by
  induction h with
  | nil c => exact .cons hcond hv (.nil _)
  | cons hcond' hv' _ ih => exact .cons hcond' hv' ih

theorem congr (h : fr.Selects c picks d)
    (hsame : ∀ p ∈ picks, ∀ t, p.1 = .temp t ∨ p.2 = .temp t → fr'.lookup t = fr.lookup t) :
    fr'.Selects c picks d := by
  induction h with
  | nil c => exact .nil c
  | @cons c d e x cond v picks hcond hv _ ih =>
    refine .cons (x := x) ?_ (hv.congr fun t ht => hsame _ List.mem_cons_self t (.inr ht)) ?_
    · exact ((reads_int hcond).congr fun t ht => hsame _ List.mem_cons_self t (.inl ht)).1
    · exact ih fun p hp => hsame p (List.mem_cons_of_mem _ hp)

end Selects

/-- A lane is let through by a mask; where there is no mask, it is too. -/
def Admits (fr : Frame) : Option Value → Prop
  | none => True
  | some m => ∃ x : Int32, fr.read m = .ok [.int x] ∧ x ≠ 0

/-- An entry of a phi has the value that is wanted, wherever its mask holds. -/
def Offers (fr : Frame) (c : Cell) (entry : Value × Option Value) : Prop :=
  ∃ d, fr.Reads entry.1 d ∧ (∀ m, entry.2 = some m → ∃ x : Int32, fr.read m = .ok [.int x]) ∧
    (fr.Admits entry.2 → d = c)

/-- What is left of the entries of a phi leads to the value of those whose mask holds. -/
theorem selects_choices {c₀ : Cell} : ∀ {rest : List (Value × Option Value)} {base : Value}
    {picks : List (Value × Value)} {c d : Cell}, fr.Reads base c → fr.Selects c picks d →
    (∀ entry ∈ rest, fr.Offers c₀ entry) → (d = c₀ ∨ ∃ entry ∈ rest, fr.Admits entry.2) →
      ∃ c', fr.Reads (rest.foldl Masking.choice (base, picks)).1 c' ∧
        fr.Selects c' (rest.foldl Masking.choice (base, picks)).2 c₀ := by
  intro rest
  induction rest with
  | nil =>
    intro base picks c d hbase hpicks _ hgoal
    obtain rfl : d = c₀ := hgoal.resolve_right fun ⟨_, h, _⟩ => absurd h List.not_mem_nil
    exact ⟨c, hbase, hpicks⟩
  | cons entry rest ih =>
    obtain ⟨v, mask⟩ := entry
    intro base picks c d hbase hpicks hoffers hgoal
    obtain ⟨⟨e, hv, hmask, hwanted⟩, hrest⟩ := List.forall_mem_cons.mp hoffers
    rw [List.foldl_cons]
    cases mask with
    | none => exact ih hv (.nil e) hrest (.inl (hwanted trivial))
    | some m =>
      obtain ⟨x, hx⟩ := hmask m rfl
      refine ih hbase (hpicks.snoc hx hv) hrest ?_
      by_cases hzero : x = 0
      · -- the mask does not hold: what is wanted was there before, or is yet to come
        rw [if_neg (not_not_intro hzero)]
        refine hgoal.imp_right fun ⟨entry, hentry, hholds⟩ => ?_
        rcases List.mem_cons.mp hentry with rfl | hentry
        · obtain ⟨y, hy, hne⟩ := hholds
          rw [hx] at hy
          exact absurd (by simpa using hy) (hzero ▸ hne.symm)
        · exact ⟨entry, hentry, hholds⟩
      · rw [if_pos hzero]
        exact .inl (hwanted ⟨x, hx, hzero⟩)

/-- What is left of the entries of a phi is made of these entries. -/
theorem choices_all {M V : Value → Prop} : ∀ {rest : List (Value × Option Value)} {base : Value}
    {picks : List (Value × Value)}, V base → (∀ p ∈ picks, M p.1 ∧ V p.2) →
    (∀ entry ∈ rest, V entry.1 ∧ ∀ m, entry.2 = some m → M m) →
      V (rest.foldl Masking.choice (base, picks)).1 ∧
        ∀ p ∈ (rest.foldl Masking.choice (base, picks)).2, M p.1 ∧ V p.2 := by
  intro rest
  induction rest with
  | nil => exact fun hbase hpicks _ => ⟨hbase, hpicks⟩
  | cons entry rest ih =>
    obtain ⟨v, mask⟩ := entry
    intro base picks hbase hpicks hentries
    obtain ⟨⟨hv, hmask⟩, hrest⟩ := List.forall_mem_cons.mp hentries
    rw [List.foldl_cons]
    cases mask with
    | none => exact ih hv (fun p hp => absurd hp List.not_mem_nil) hrest
    | some m =>
      refine ih hbase (fun p hp => ?_) hrest
      rcases List.mem_append.mp hp with hp | hp
      · exact hpicks p hp
      · obtain rfl := List.mem_singleton.mp hp
        exact ⟨hmask m rfl, hv⟩

theorem selects_picksOf {left : Value × List (Value × Value)} (hbase : fr.Reads left.1 c)
    (h : fr.Selects c left.2 d) : Masking.picksOf left ≠ [] ∧ fr.Selects c (Masking.picksOf left) d := by
  obtain ⟨base, _ | ⟨pick, picks⟩⟩ := left
  · obtain _ | _ := h
    exact ⟨List.cons_ne_nil _ _, .cons (x := 1) rfl hbase (by simpa using .nil c)⟩
  · exact ⟨List.cons_ne_nil _ _, h⟩

theorem picksOf_all {M V : Value → Prop} {left : Value × List (Value × Value)} (hbase : V left.1) (hone : M (.int 1))
    (h : ∀ p ∈ left.2, M p.1 ∧ V p.2) : ∀ p ∈ Masking.picksOf left, M p.1 ∧ V p.2 := by
  obtain ⟨base, _ | ⟨pick, picks⟩⟩ := left
  · exact List.forall_mem_singleton.mpr ⟨hone, hbase⟩
  · exact h

/-- Only some temporaries, and names handed out between two stages of a counter, were set. -/
def KeepsBut (n k : TempCounter) (ts : List Temp) (fr fr' : Frame) : Prop :=
  ∀ t ∉ ts, ¬ t.Fresh n k → fr'.lookup t = fr.lookup t

theorem Reads.width (h : fr.Reads v c) (ht : v = .temp t) : fr.width t = 1 := by
  subst ht
  exact width_of_lookup (reads_temp.mp h)

end Frame

/-- A selection on values in a single lane. -/
theorem Instr.gives_exec_select_of_reads (call : Caller) (m : Machine) {lhs rhs : Value} (ty : Ty)
    (hcond : fr.read cond = .ok [.int x]) (hl : fr.Reads lhs d) (hr : fr.Reads rhs c) :
    Gives (exec call fr (.select t ty cond lhs rhs)) m (setEntry t [if x ≠ 0 then d else c] fr) m := by
  refine (gives_exec_iff rfl rfl fun u hu => ?_).mpr ⟨_, ?_, rfl, rfl⟩
  · have hmem : u ∈ [cond, lhs, rhs].filterMap Value.temp? := hu
    obtain ⟨v, hv, hvu⟩ := List.mem_filterMap.mp hmem
    have hvu : v = .temp u := by
      cases v <;> simp_all [Value.temp?]
    simp only [List.mem_cons, List.not_mem_nil, or_false] at hv
    rcases hv with rfl | rfl | rfl
    · exact (Frame.reads_int hcond).width hvu
    · exact hl.width hvu
    · exact hr.width hvu
  · rw [resultOf, Frame.lane_of_read hcond, hl.2, hr.2]
    by_cases hx : x = 0 <;> simp [Cell.isTrue, hx, bind, Except.bind]

namespace Masking

variable (call : Caller) (m : Machine) {s s' : MaskState} {target : Temp} {ty : Ty}

/-! ### Selections -/

/-- Selections set their target to the value that they lead to. -/
theorem emits_selections : ∀ {picks : List (Value × Value)} {base : Value} {s : MaskState} {fr : Frame}
    {c d : Cell}, picks ≠ [] → fr.Reads base c → fr.Selects c picks d →
    (∀ p ∈ picks, ∀ t, p.1 = .temp t ∨ p.2 = .temp t →
      ¬ t.Fresh s.temps ((selections target ty base picks).run s).2.temps) →
      ∃ s' fr', Emits call m (selections target ty base picks) s fr () s' fr' ∧ s'.edges = s.edges ∧
        fr'.lookup target = some [d] ∧ Frame.KeepsBut s.temps s'.temps [target] fr fr' := by
  intro picks
  induction picks with
  | nil => exact fun h => absurd rfl h
  | cons pick picks ih =>
    obtain ⟨cond, v⟩ := pick
    intro base s fr c d _ hbase hselects hnew
    obtain _ | ⟨hcond, hv, hrest⟩ := hselects
    cases picks with
    | nil =>
      obtain _ | _ := hrest
      refine ⟨_, _, ⟨rfl, [.select target ty cond v base], rfl, gives_bind.mpr ⟨_, m, ?_, gives_pure.mpr ⟨rfl, rfl⟩⟩⟩,
        rfl, lookup_setEntry_self _ _ _, fun t ht _ => lookup_setEntry_of_ne _ _ ?_⟩
      · exact Instr.gives_exec_select_of_reads call m ty hcond hv hbase
      · simpa using ht
    | cons next picks =>
      -- the first selection sets a fresh name, on top of which the others are made
      let u := (s.temps.fresh ty false).1
      let s₁ : MaskState := { s with temps := s.temps + 1, out := s.out ++ [.select u ty cond v base] }
      have hselect := Instr.gives_exec_select_of_reads call m (t := u) ty hcond hv hbase
      have hu : u.Fresh s.temps s₁.temps := .of_fresh s.temps ty false
      have hgrows := grows_selections target ty (next :: picks) (.temp u) s₁
      have hold : ∀ p ∈ next :: picks, ∀ t, p.1 = .temp t ∨ p.2 = .temp t →
          ¬ t.Fresh s.temps ((selections target ty (.temp u) (next :: picks)).run s₁).2.temps :=
        fun p hp => hnew p (List.mem_cons_of_mem _ hp)
      obtain ⟨s', fr', hemits, hedges, htarget, hkeeps⟩ := ih (s := s₁) (List.cons_ne_nil _ _)
        (Frame.reads_temp.mpr (lookup_setEntry_self u _ fr))
        (hrest.congr fun p hp t ht => lookup_setEntry_of_ne _ fr (by
          rintro rfl
          exact hold p hp _ ht (hu.mono hgrows.1)))
        fun p hp t ht hfresh => hold p hp t ht (hfresh.mono_left (Nat.le_succ _))
      have hle : s₁.temps ≤ s'.temps := hemits.temps_le (grows_selections _ _ _ _)
      refine ⟨s', fr', emits_fresh rfl hselect hemits, hedges, htarget, fun t ht hfresh => ?_⟩
      rw [hkeeps t ht fun h => hfresh (h.mono_left (Nat.le_succ _))]
      refine lookup_setEntry_of_ne _ fr ?_
      rintro rfl
      exact hfresh (hu.mono hle)

/-! ### Phis -/

theorem edges_selections (target : Temp) (ty : Ty) : ∀ (picks : List (Value × Value)) (base : Value) (s : MaskState),
    ((selections target ty base picks).run s).2.edges = s.edges := by
  intro picks
  induction picks with
  | nil => exact fun base s => rfl
  | cons pick picks ih =>
    intro base s
    cases picks with
    | nil => rfl
    | cons next picks => exact ih _ _

/-- Phis leave the masks of edges alone. -/
theorem edges_phi (block : Int) (p : Phi) (s : MaskState) : ((phi block p).run s).2.edges = s.edges := by
  cases h : p.incoming with
  | nil =>
    unfold phi
    rw [h]
    rfl
  | cons first rest =>
    rw [run_phi s block h]
    exact edges_selections _ _ _ _ _

theorem edges_phis (block : Int) : ∀ (ps : List Phi) (s : MaskState),
    ((ps.forM (phi block)).run s).2.edges = s.edges := by
  intro ps
  induction ps with
  | nil => exact fun s => rfl
  | cons p ps ih => exact fun s => (ih _).trans (edges_phi block p s)

/-- A phi is fed a value: its operands stand under masks, and those whose mask holds have that value. -/
structure Feeds (n₀ : TempCounter) (block : Int) (T : Label → Prop) (s : MaskState) (fr : Frame) (p : Phi)
    (c : Cell) : Prop where
  masks : ∀ e ∈ p.incoming, fr.Masks n₀ s.temps (s.entry block e).2 (T e.2)
  reads : ∀ e ∈ p.incoming, ∃ d, fr.Reads e.1 d ∧ (T e.2 → d = c)
  taken : ∃ e ∈ p.incoming, T e.2

variable {block : Int} {T : Label → Prop} {p : Phi} {ps : List Phi}

theorem Feeds.keep (h : Feeds n₀ block T s fr p c) (hle : s.temps ≤ s'.temps) (hedges : s'.edges = s.edges)
    (hkeeps : Frame.KeepsBut s.temps s'.temps ts fr fr') (hts : ∀ t ∈ ts, ¬ t.Fresh n₀ s.temps)
    (hreads : ∀ e ∈ p.incoming, ∀ t, e.1 = .temp t → t ∉ ts ∧ ¬ t.Fresh s.temps s'.temps) :
    Feeds n₀ block T s' fr' p c where
  masks e he := by
    have hmask := h.masks e he
    have hentry : s'.entry block e = s.entry block e := congrArg _ (MaskState.edge_of_edges hedges _ _)
    rw [hentry]
    cases hm : (s.entry block e).2 with
    | none => rwa [hm] at hmask
    | some v =>
      rw [hm] at hmask
      obtain ⟨t, rfl, ht, hlook⟩ := hmask
      exact ⟨t, rfl, ht.mono hle, by rwa [hkeeps t (fun hmem => hts t hmem ht) ht.not_later]⟩
  reads e he := by
    obtain ⟨d, hd, hwanted⟩ := h.reads e he
    exact ⟨d, hd.congr fun t ht => hkeeps t (hreads e he t ht).1 (hreads e he t ht).2, hwanted⟩
  taken := h.taken

theorem Feeds.offers (h : Feeds n₀ block T s fr p c) {e : Value × Label} (he : e ∈ p.incoming) :
    fr.Offers c (s.entry block e) ∧ (T e.2 → fr.Admits (s.entry block e).2) := by
  obtain ⟨d, hd, hwanted⟩ := h.reads e he
  have hmask := h.masks e he
  unfold Frame.Offers
  cases hm : (s.entry block e).2 with
  | none =>
    rw [hm] at hmask
    exact ⟨⟨d, hd, nofun, fun _ => hwanted hmask⟩, fun _ => trivial⟩
  | some v =>
    rw [hm] at hmask
    obtain ⟨x, hx, hT⟩ := hmask.read
    refine ⟨⟨d, hd, fun m hm => ⟨x, Option.some.inj hm ▸ hx⟩, fun hadmits => hwanted ?_⟩, fun hT' => ⟨x, hx, ?_⟩⟩
    · obtain ⟨y, hy, hne⟩ := hadmits
      obtain rfl : x = y := by simpa using hx.symm.trans hy
      exact (hT.resolve_right fun h => hne h.2).1
    · rw [(hT.resolve_right fun h => h.1 hT').2]
      decide

/-- Selections set the target of a phi to the value that it is fed. -/
theorem emits_phi (h : Feeds n₀ block T s fr p c)
    (hnew : ∀ e ∈ p.incoming, ∀ t, e.1 = .temp t → ¬ t.Fresh s.temps ((phi block p).run s).2.temps) :
    ∃ s' fr', Emits call m (phi block p) s fr () s' fr' ∧ s'.edges = s.edges ∧
      fr'.lookup p.target = some [c] ∧ Frame.KeepsBut s.temps s'.temps [p.target] fr fr' := by
  obtain ⟨e₀, he₀, hT⟩ := h.taken
  obtain ⟨first, rest, hincoming⟩ : ∃ first rest, p.incoming = first :: rest :=
    List.exists_cons_of_ne_nil (List.ne_nil_of_mem he₀)
  have hrest : rest ⊆ p.incoming := hincoming ▸ List.subset_cons_self _ _
  have hfirst : first ∈ p.incoming := hincoming ▸ List.mem_cons_self
  obtain ⟨d, hd, hwanted⟩ := h.reads first hfirst
  -- what is left of the entries leads to the value that the phi is fed
  obtain ⟨c', hbase, hselects⟩ := Frame.selects_choices hd (.nil d)
    (show ∀ e ∈ rest.map (s.entry block), fr.Offers c e by
      intro e he
      obtain ⟨e', he', rfl⟩ := List.mem_map.mp he
      exact (h.offers (hrest he')).1)
    (by
      rcases List.mem_cons.mp (hincoming ▸ he₀) with rfl | he
      · exact .inl (hwanted hT)
      · exact .inr ⟨_, List.mem_map_of_mem he, (h.offers he₀).2 hT⟩)
  obtain ⟨hne, hpicks⟩ := Frame.selects_picksOf hbase hselects
  -- no operand and no mask is a name that is handed out now
  let Old (v : Value) : Prop := ∀ t, v = .temp t → ¬ t.Fresh s.temps ((phi block p).run s).2.temps
  have hold : ∀ e ∈ rest.map (s.entry block), Old e.1 ∧ ∀ m, e.2 = some m → Old m := by
    intro e he
    obtain ⟨e', he', rfl⟩ := List.mem_map.mp he
    refine ⟨hnew e' (hrest he'), fun m hm => ?_⟩
    rintro t rfl
    have hmask := h.masks e' (hrest he')
    rw [hm] at hmask
    obtain ⟨u, hu, hfresh, -⟩ := hmask
    obtain rfl := Value.temp.inj hu
    exact hfresh.not_later
  obtain ⟨holdBase, holdPicks⟩ := Frame.choices_all (M := Old) (V := Old) (hnew first hfirst)
    (List.forall_mem_nil _) hold
  have hrun := run_phi s block hincoming
  obtain ⟨s', fr', hemits, hedges, htarget, hkeeps⟩ := emits_selections call m hne hbase hpicks fun pick hpick t ht => by
      have hboth := Frame.picksOf_all holdBase (fun t ht => nomatch ht) holdPicks pick hpick
      rw [← hrun]
      exact ht.elim (hboth.1 t) (hboth.2 t)
  exact ⟨s', fr', ⟨hrun.trans hemits.1, hemits.2⟩, hedges, htarget, hkeeps⟩

/-- Selections set the targets of all phis of a block as if their operands were read at once. -/
theorem emits_phis {value : Phi → Cell} : ∀ {ps : List Phi} {s : MaskState} {fr : Frame}, n₀ ≤ s.temps →
    (∀ p ∈ ps, Feeds n₀ block T s fr p (value p)) → (ps.map (·.target)).Nodup →
    (∀ p ∈ ps, ∀ e ∈ p.incoming, ∀ t, e.1 = .temp t → t ∉ ps.map (·.target)) →
    (∀ p ∈ ps, ∀ t, (t = p.target ∨ ∃ e ∈ p.incoming, e.1 = .temp t) →
      ¬ t.Fresh n₀ ((ps.forM (phi block)).run s).2.temps) →
      ∃ s' fr', Emits call m (ps.forM (phi block)) s fr () s' fr' ∧ s'.edges = s.edges ∧
        (∀ p ∈ ps, fr'.lookup p.target = some [value p]) ∧
        Frame.KeepsBut s.temps s'.temps (ps.map (·.target)) fr fr' := by
  intro ps
  induction ps with
  | nil => exact fun {s fr} _ _ _ _ _ => ⟨s, fr, emits_pure () s fr, rfl, by simp, fun _ _ _ => rfl⟩
  | cons p ps ih =>
    intro s fr hle hfeeds hnodup hself hnew
    obtain ⟨hp, hps⟩ := List.forall_mem_cons.mp hfeeds
    obtain ⟨htarget, hnodup⟩ := List.nodup_cons.mp hnodup
    have hgrows := (grows_forM (grows_phi block) ps ((phi block p).run s).2).1
    have hfinal : ((ps.forM (phi block)).run ((phi block p).run s).2).2.temps =
        (((p :: ps).forM (phi block)).run s).2.temps := rfl
    rw [hfinal] at hgrows
    obtain ⟨s₁, fr₁, hemits, hedges, hlook, hkeeps⟩ := emits_phi call m hp
      fun e he t ht hfresh => hnew p List.mem_cons_self t (.inr ⟨e, he, ht⟩) ((hfresh.mono_left hle).mono hgrows)
    have hle₁ := hemits.temps_le (grows_phi block p)
    have hfinal₁ : ((ps.forM (phi block)).run s₁).2.temps = (((p :: ps).forM (phi block)).run s).2.temps := by
      rw [← hfinal, hemits.1]
    have hnew₁ : ∀ q ∈ p :: ps, ∀ t, (t = q.target ∨ ∃ e ∈ q.incoming, e.1 = .temp t) → ¬ t.Fresh n₀ s₁.temps :=
      fun q hq t ht hfresh => hnew q hq t ht (hfresh.mono (hfinal₁ ▸ (grows_forM (grows_phi block) ps s₁).1))
    obtain ⟨s', fr', hemits', hedges', hlooks, hkeeps'⟩ := ih (Nat.le_trans hle hle₁)
      (fun q hq => (hps q hq).keep hle₁ hedges hkeeps (fun t ht hfresh => by
        obtain rfl := List.mem_singleton.mp ht
        exact hnew₁ p List.mem_cons_self _ (.inl rfl) (hfresh.mono hle₁)) fun e he t ht => ⟨fun hmem => by
          obtain rfl := List.mem_singleton.mp hmem
          exact hself q (List.mem_cons_of_mem _ hq) e he _ ht List.mem_cons_self, fun hfresh =>
            hnew₁ q (List.mem_cons_of_mem _ hq) t (.inr ⟨e, he, ht⟩) (hfresh.mono_left hle)⟩)
      hnodup
      (fun q hq e he t ht hmem => hself q (List.mem_cons_of_mem _ hq) e he t ht (List.mem_cons_of_mem _ hmem))
      fun q hq t ht => hfinal₁ ▸ hnew q (List.mem_cons_of_mem _ hq) t ht
    have hle' := hemits'.temps_le (grows_forM (grows_phi block) ps)
    refine ⟨s', fr', hemits.bind hemits', hedges'.trans hedges, ?_, fun t ht hfresh => ?_⟩
    · refine List.forall_mem_cons.mpr ⟨?_, hlooks⟩
      rw [hkeeps' _ htarget fun hfresh => ?_, hlook]
      refine hnew p List.mem_cons_self _ (.inl rfl) ?_
      rw [← hfinal₁, hemits'.1]
      exact hfresh.mono_left (Nat.le_trans hle hle₁)
    · obtain ⟨hne, hmem⟩ := not_or.mp (List.mem_cons.not.mp ht)
      rw [hkeeps' t hmem fun h => hfresh (h.mono_left hle₁)]
      exact hkeeps t (by simpa using hne) fun h => hfresh (h.mono hle')

end Masking

end LoopLanes
