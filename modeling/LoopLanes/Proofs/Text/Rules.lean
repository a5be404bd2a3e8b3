/-
Rules and the texts they read.

`Reads r P cs rest` says that a rule reads the front of `cs` and stops at `rest`, with a result as `P`
says, whatever the position; `Fails r cs` that it does not match at all.  The lemmas follow the ways
in which rules are put together.  What comes after a text matters: a name ends where something else
starts (`Stops`), and blanks are skipped down to what is none (`Solid`).

* `many_reads` — pieces read one after the other, by induction on the pieces;
* `reads_commaSeparated`, `reads_star` — lists as they are written.
-/
import LoopLanes.Proofs.Basic.Success
import LoopLanes.Text.Grammar

namespace LoopLanes.Text

variable {α β ι : Type} {r r' : Rule α} {P P' : α → Prop} {Q : β → Prop} {g : α → Rule β}
  {cs mid rest : List Char}

/-- A rule reads the front of a text, and answers what `P` says. -/
def Reads (r : Rule α) (P : α → Prop) (cs rest : List Char) : Prop :=
  ∀ line col, ∃ a line' col', r ⟨cs, line, col⟩ = some (a, ⟨rest, line', col'⟩) ∧ P a

/-- A rule does not match a text. -/
def Fails (r : Rule α) (cs : List Char) : Prop := ∀ line col, r ⟨cs, line, col⟩ = none

/-! ### One after the other, and one or the other -/

theorem reads_pure (a : α) (cs : List Char) : Reads (pure a) (· = a) cs cs :=
  fun line col => ⟨a, line, col, rfl, rfl⟩

theorem Reads.mono (h : Reads r P cs rest) (hP : ∀ a, P a → P' a) : Reads r P' cs rest := by
  intro line col
  obtain ⟨a, line', col', hr, ha⟩ := h line col
  exact ⟨a, line', col', hr, hP a ha⟩

theorem Reads.bind (h : Reads r P cs mid) (hg : ∀ a, P a → Reads (g a) Q mid rest) :
    Reads (r >>= g) Q cs rest := by
  intro line col
  obtain ⟨a, line₁, col₁, hr, ha⟩ := h line col
  obtain ⟨b, line', col', hb, hQ⟩ := hg a ha line₁ col₁
  refine ⟨b, line', col', ?_, hQ⟩
  show (r ⟨cs, line, col⟩).bind (fun p => g p.1 p.2) = _
  rw [hr]
  exact hb

/-- Where the first part has one result only. -/
theorem Reads.bind_eq {a : α} (h : Reads r (· = a) cs mid) (hg : Reads (g a) Q mid rest) :
    Reads (r >>= g) Q cs rest := by
  refine h.bind fun b hb => ?_
  subst hb
  exact hg

theorem Fails.bind (h : Fails r cs) (g : α → Rule β) : Fails (r >>= g) cs := by
  intro line col
  show (r ⟨cs, line, col⟩).bind (fun p => g p.1 p.2) = _
  rw [h line col]
  rfl

/-- A rule fails where its second part does. -/
theorem Reads.bind_fails (h : Reads r P cs mid) (hg : ∀ a, P a → Fails (g a) mid) :
    Fails (r >>= g) cs := by
  intro line col
  obtain ⟨a, line₁, col₁, hr, ha⟩ := h line col
  show (r ⟨cs, line, col⟩).bind (fun p => g p.1 p.2) = _
  rw [hr]
  exact hg a ha line₁ col₁

theorem Reads.orElse (h : Reads r P cs rest) (r' : Rule α) : Reads (r <|> r') P cs rest := by
  intro line col
  obtain ⟨a, line', col', hr, ha⟩ := h line col
  refine ⟨a, line', col', ?_, ha⟩
  show (r ⟨cs, line, col⟩ <|> r' ⟨cs, line, col⟩) = _
  rw [hr]
  rfl

theorem Fails.orElse (h : Fails r cs) (h' : Reads r' P cs rest) : Reads (r <|> r') P cs rest := by
  intro line col
  obtain ⟨a, line', col', hr, ha⟩ := h' line col
  refine ⟨a, line', col', ?_, ha⟩
  show (r ⟨cs, line, col⟩ <|> r' ⟨cs, line, col⟩) = _
  rw [h line col]
  exact hr

theorem Fails.orElse_fails (h : Fails r cs) (h' : Fails r' cs) : Fails (r <|> r') cs := by
  intro line col
  show (r ⟨cs, line, col⟩ <|> r' ⟨cs, line, col⟩) = _
  rw [h line col]
  exact h' line col

theorem Reads.option (h : Reads r P cs rest) : Reads (option r) (∃ a ∈ ·, P a) cs rest := by
  intro line col
  obtain ⟨a, line', col', hr, ha⟩ := h line col
  exact ⟨some a, line', col', by rw [Text.option, hr], a, rfl, ha⟩

theorem Fails.option (h : Fails r cs) : Reads (option r) (· = none) cs cs :=
  fun line col => ⟨none, line, col, by rw [Text.option, h line col], rfl⟩

/-! ### Words and characters -/

theorem reads_here (cs : List Char) : Reads here (fun _ => True) cs cs :=
  fun line col => ⟨⟨line, col⟩, line, col, rfl, trivial⟩

theorem reads_word (w : String) (rest : List Char) :
    Reads (word w) (fun _ => True) (w.toList ++ rest) rest := by
  intro line col
  refine ⟨(), line, col + w.length, ?_, trivial⟩
  rw [word, if_pos (List.isPrefixOf_iff_prefix.mpr (List.prefix_append _ _)), Cursor.advance,
    ← String.length_toList, List.drop_left]

theorem fails_word {w : String} (h : w.toList.isPrefixOf cs = false) : Fails (word w) cs := by
  intro line col
  rw [word, h]
  rfl

/-- Where something else starts than characters of a class. -/
def Stops (p : Char → Bool) (rest : List Char) : Prop := ∀ c ∈ rest.head?, p c = false

theorem takeWhile_append_of_stops {p : Char → Bool} (hcs : ∀ c ∈ cs, p c = true) (hrest : Stops p rest) :
    (cs ++ rest).takeWhile p = cs := by
  rw [List.takeWhile_append_of_pos hcs]
  cases rest with
  | nil => simp
  | cons c rest => rw [List.takeWhile_cons_of_neg (by simp [hrest c rfl]), List.append_nil]

theorem reads_charsWhile {p : Char → Bool} (hcs : ∀ c ∈ cs, p c = true) (hrest : Stops p rest) :
    Reads (charsWhile p) (· = cs) (cs ++ rest) rest := by
  intro line col
  refine ⟨cs, line, col + cs.length, ?_, rfl⟩
  rw [charsWhile, takeWhile_append_of_stops hcs hrest, Cursor.advance, List.drop_left]

theorem reads_chars1 {p : Char → Bool} (hne : cs ≠ []) (hcs : ∀ c ∈ cs, p c = true)
    (hrest : Stops p rest) : Reads (chars1 p) (· = cs) (cs ++ rest) rest := by
  intro line col
  refine ⟨cs, line, col + cs.length, ?_, rfl⟩
  rw [chars1, takeWhile_append_of_stops hcs hrest, if_neg (by simpa using hne), Cursor.advance,
    List.drop_left]

theorem fails_chars1 {p : Char → Bool} (h : Stops p cs) : Fails (chars1 p) cs := by
  intro line col
  have htake : ([] ++ cs).takeWhile p = [] := takeWhile_append_of_stops (fun _ => nofun) h
  rw [List.nil_append] at htake
  rw [chars1, htake]
  rfl

theorem reads_charIf {p : Char → Bool} {c : Char} (h : p c = true) (rest : List Char) :
    Reads (charIf p) (· = c) (c :: rest) rest :=
  fun line col => ⟨c, line, col + 1, if_pos h, rfl⟩

theorem fails_charIf {p : Char → Bool} (h : Stops p cs) : Fails (charIf p) cs := by
  intro line col
  cases cs with
  | nil => rfl
  | cons c cs => exact if_neg (by simp [h c rfl])

/-! ### Blanks -/

/-- What does not start with a blank or a comment. -/
def Solid (rest : List Char) : Prop := ∀ c ∈ rest.head?, Cursor.isBlank c = false ∧ c ≠ ';'

theorem reads_skip (bs : List Char) (hbs : bs.all Cursor.isBlank) (hrest : Solid rest) :
    Reads skip (fun _ => True) (bs ++ rest) rest := by
  induction bs with
  | nil =>
    intro line col
    refine ⟨(), line, col, ?_, trivial⟩
    show some ((), Cursor.skip ⟨rest, line, col⟩) = _
    cases rest with
    | nil => rfl
    | cons c rest =>
      obtain ⟨hc, hcomment⟩ := hrest c rfl
      have hnewline : c ≠ '\n' := by
        rintro rfl
        cases hc
      simp [Cursor.skip, Cursor.skipFrom, hc, hcomment, hnewline]
  | cons b bs ih =>
    obtain ⟨hb, hbs⟩ := Bool.and_eq_true_iff.mp hbs
    intro line col
    show ∃ a line' col', some ((), Cursor.skip ⟨b :: (bs ++ rest), line, col⟩) = _ ∧ _
    have hskip : ∃ line₁ col₁, Cursor.skip ⟨b :: (bs ++ rest), line, col⟩ =
        Cursor.skip ⟨bs ++ rest, line₁, col₁⟩ := by
      by_cases hnewline : b = '\n'
      · exact ⟨line + 1, 1, by simp [Cursor.skip, Cursor.skipFrom, hnewline]⟩
      · exact ⟨line, col + 1, by simp [Cursor.skip, Cursor.skipFrom, hnewline, hb]⟩
    obtain ⟨line₁, col₁, e⟩ := hskip
    rw [e]
    exact ih hbs line₁ col₁

/-- Nothing to skip. -/
theorem reads_skip_nil (h : Solid rest) : Reads skip (fun _ => True) rest rest :=
  reads_skip [] rfl h

/-- One blank between parts. -/
theorem reads_skip_blank (h : Solid rest) : Reads skip (fun _ => True) (' ' :: rest) rest :=
  reads_skip [' '] rfl h

/-! ### Lists -/

/-- Items read one after the other, where `S is cs` says that `cs` spells the items that are left. -/
theorem many_reads {P : ι → α → Prop} {S : List ι → List Char → Prop}
    (hnil : ∀ cs, S [] cs → Fails r cs)
    (hcons : ∀ i is cs, S (i :: is) cs →
      ∃ cs', S is cs' ∧ cs'.length < cs.length ∧ Reads r (P i) cs cs') :
    ∀ {is : List ι} {cs : List Char}, S is cs → ∃ rest, S [] rest ∧ ∀ line col, ∃ as line' col',
      many r ⟨cs, line, col⟩ = (as, ⟨rest, line', col'⟩) ∧ List.Forall₂ P is as := by
  intro is
  induction is with
  | nil =>
    intro cs h
    refine ⟨cs, h, fun line col => ⟨[], line, col, ?_, .nil⟩⟩
    rw [many_eq, hnil cs h line col]
  | cons i is ih =>
    intro cs h
    obtain ⟨cs', h', hshorter, hread⟩ := hcons i is cs h
    obtain ⟨rest, hrest, hmany⟩ := ih h'
    refine ⟨rest, hrest, fun line col => ?_⟩
    obtain ⟨a, line₁, col₁, hr, ha⟩ := hread line col
    obtain ⟨as, line', col', has, hall⟩ := hmany line₁ col₁
    refine ⟨a :: as, line', col', ?_, .cons ha hall⟩
    rw [many_eq, hr]
    simp only [if_pos hshorter, has]

theorem reads_star_nil (h : Fails r cs) : Reads (star r) (· = []) cs cs :=
  fun line col => ⟨[], line, col, by rw [star, h line col], rfl⟩

/-- A first item, and others behind blanks. -/
theorem reads_star_cons {P : ι → α → Prop} {S : List ι → List Char → Prop}
    (hnil : ∀ cs, S [] cs → Fails (skip *> r) cs)
    (hcons : ∀ i is cs, S (i :: is) cs →
      ∃ cs', S is cs' ∧ cs'.length < cs.length ∧ Reads (skip *> r) (P i) cs cs')
    {i : ι} {is : List ι} (hfirst : Reads r (P i) cs mid) (h : S is mid) :
    ∃ rest, S [] rest ∧ Reads (star r) (List.Forall₂ P (i :: is)) cs rest := by
  obtain ⟨rest, hrest, hmany⟩ := many_reads hnil hcons h
  refine ⟨rest, hrest, fun line col => ?_⟩
  obtain ⟨a, line₁, col₁, hr, ha⟩ := hfirst line col
  obtain ⟨as, line', col', has, hall⟩ := hmany line₁ col₁
  refine ⟨a :: as, line', col', ?_, .cons ha hall⟩
  rw [star, hr]
  simp only [has]

/-- Parts behind a first one, as they are written. -/
theorem toList_intercalate_cons (sep s : String) (ss : List String) :
    (sep.intercalate (s :: ss)).toList = s.toList ++ ss.flatMap fun t => sep.toList ++ t.toList := by
  induction ss generalizing s with
  | nil => simp
  | cons t ss ih =>
    rw [String.intercalate_cons_cons, String.toList_append, String.toList_append, ih,
      List.flatMap_cons, List.append_assoc, List.append_assoc]

/-- A text whose first character is neither a blank nor the start of a comment, and no comma. -/
def Starts (cs : List Char) : Prop :=
  ∃ c ∈ cs.head?, Cursor.isBlank c = false ∧ c ≠ ';' ∧ c ≠ ','

theorem Starts.append (h : Starts cs) (rest : List Char) : Starts (cs ++ rest) := by
  obtain ⟨c, hc, hstart⟩ := h
  exact ⟨c, by rw [List.head?_append, hc]; rfl, hstart⟩

theorem Starts.solid (h : Starts cs) (rest : List Char) : Solid (cs ++ rest) := by
  obtain ⟨c, hc, hblank, hcomment, -⟩ := h.append rest
  intro d hd
  obtain rfl : c = d := Option.some.inj (hc.symm.trans hd)
  exact ⟨hblank, hcomment⟩

/-- Behind blanks, what comes first is not a comma. -/
def NoComma (rest : List Char) : Prop :=
  ∃ bs rest', rest = bs ++ rest' ∧ bs.all Cursor.isBlank ∧ Solid rest' ∧
    rest'.head? ≠ some ','

theorem NoComma.fails (h : NoComma rest) (r : Unit → Rule α) :
    Fails (skip >>= fun _ => word "," >>= r) rest := by
  obtain ⟨bs, rest, rfl, hbs, hsolid, hne⟩ := h
  refine (reads_skip bs hbs hsolid).bind_fails fun _ _ => Fails.bind (fails_word ?_) _
  cases rest with
  | nil => rfl
  | cons c rest =>
    have hc : ',' ≠ c := fun e => hne (by rw [e]; rfl)
    simp [List.isPrefixOf, hc]

/-- Parts with commas between. -/
theorem reads_commaSeparated {P : ι → α → Prop} {part : ι → String} {is : List ι} (hne : is ≠ [])
    (hrest : NoComma rest)
    (h : ∀ i ∈ is, Starts (part i).toList ∧ ∀ t, t.head? = some ',' ∨ t = rest →
      Reads r (P i) ((part i).toList ++ t) t) :
    Reads (commaSeparated r) (List.Forall₂ P is) ((", ".intercalate (is.map part)).toList ++ rest)
      rest := by
  obtain ⟨i, is, rfl⟩ := List.exists_cons_of_ne_nil hne
  obtain ⟨⟨-, hfirst⟩, his⟩ := List.forall_mem_cons.mp h
  -- what is left is spelled with a comma in front of each part
  let spelling (js : List ι) : List Char := (js.map part).flatMap fun t => ", ".toList ++ t.toList
  have hfollows : ∀ js, (spelling js ++ rest).head? = some ',' ∨ spelling js ++ rest = rest := by
    intro js
    cases js with
    | nil => exact .inr rfl
    | cons j js => exact .inl rfl
  have hall : ∃ rest', ([] ⊆ is ∧ rest' = spelling [] ++ rest) ∧ ∀ line col, ∃ as line' col',
      many (do skip; word ","; skip; r) ⟨spelling is ++ rest, line, col⟩ =
        (as, ⟨rest', line', col'⟩) ∧ List.Forall₂ P is as := by
    refine many_reads (S := fun js cs => js ⊆ is ∧ cs = spelling js ++ rest) ?_ ?_
      ⟨List.Subset.refl _, rfl⟩
    · rintro _ ⟨-, rfl⟩
      exact hrest.fails _
    rintro j js _ ⟨hsub, rfl⟩
    obtain ⟨hj, hjs⟩ := List.cons_subset.mp hsub
    obtain ⟨hstarts, hread⟩ := his j hj
    refine ⟨spelling js ++ rest, ⟨hjs, rfl⟩, ?_, ?_⟩
    · simp [spelling]
      omega
    · have e : spelling (j :: js) ++ rest =
          ",".toList ++ ' ' :: ((part j).toList ++ (spelling js ++ rest)) := by
        simp [spelling]
      rw [e]
      refine (reads_skip_nil ?_).bind fun _ _ => (reads_word "," _).bind fun _ _ =>
        (reads_skip_blank (hstarts.solid _)).bind fun _ _ => hread _ (hfollows js)
      rintro _ ⟨⟩
      exact ⟨rfl, by decide⟩
  obtain ⟨rest', ⟨-, hrest'⟩, hmany⟩ := hall
  rw [show rest' = rest from hrest'] at hmany
  intro line col
  obtain ⟨a, line₁, col₁, hr, ha⟩ := hfirst (spelling is ++ rest) (hfollows is) line col
  obtain ⟨as, line', col', has, hall⟩ := hmany line₁ col₁
  refine ⟨a :: as, line', col', ?_, .cons ha hall⟩
  rw [List.map_cons, toList_intercalate_cons, List.append_assoc, commaSeparated, hr]
  simp only [has]

end LoopLanes.Text
