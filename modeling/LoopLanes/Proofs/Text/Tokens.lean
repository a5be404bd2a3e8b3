/-
Tokens as they are written.

Names, types, integers and decimals are read back from their text wherever something follows that is
no part of them.  For operands it is said at once what becomes of them: `Means v s` says that the
spelling `s` is read as the operand `v`, at every type that `v` fits.

* `reads_localName`, `reads_type`, `reads_integer`, `reads_decimal` — tokens;
* `Value.reads_text` — operands.
-/
import LoopLanes.Proofs.Text.Decimal
import LoopLanes.Proofs.Text.Parsed
import LoopLanes.Proofs.Text.Rules

namespace LoopLanes

namespace Text

variable {cs ds rest : List Char} {n : String} {ty : Ty}

/-! ### Names -/

/-- A name of the grammar. -/
def IsName (n : String) : Prop := n.toList ≠ [] ∧ ∀ c ∈ n.toList, isNameChar c = true

theorem starts_of_isNameChar {c : Char} (h : isNameChar c = true) (cs : List Char) :
    Starts (c :: cs) := by
  refine ⟨c, rfl, Bool.eq_false_iff.mpr fun hblank => ?_, ?_, ?_⟩
  · simp only [Cursor.isBlank, Bool.or_eq_true, decide_eq_true_eq] at hblank
    rcases hblank with ((rfl | rfl) | rfl) | rfl <;> cases h
  · rintro rfl
    cases h
  · rintro rfl
    cases h

theorem IsName.starts (h : IsName n) : Starts n.toList := by
  obtain ⟨hne, hall⟩ := h
  obtain ⟨c, cs, hcs⟩ := List.exists_cons_of_ne_nil hne
  rw [hcs]
  exact starts_of_isNameChar (hall c (hcs ▸ List.mem_cons_self)) cs

theorem reads_name (h : IsName n) (hrest : Stops isNameChar rest) :
    Reads name (· = n) (n.toList ++ rest) rest := by
  refine (reads_chars1 h.1 h.2 hrest).bind_eq ?_
  rw [String.ofList_toList]
  exact reads_pure n rest

theorem reads_localName (h : IsName n) (hrest : Stops isNameChar rest) :
    Reads localName (· = n) ('%' :: n.toList ++ rest) rest :=
  (reads_word "%" _).bind fun _ _ => reads_name h hrest

theorem reads_globalName (h : IsName n) (hrest : Stops isNameChar rest) :
    Reads globalName (· = n) ('@' :: n.toList ++ rest) rest :=
  (reads_word "@" _).bind fun _ _ => reads_name h hrest

/-! ### Types -/

theorem starts_type (ty : Ty) : Starts ty.text.toList := by
  cases ty <;> exact ⟨_, rfl, by decide⟩

/-- A type that begins with the name of `base`: behind a scalar, a star makes it a pointer. -/
def starred (base : Ty) : Rule Ty := do
  if base = .void then return base
  match ← option (word "*") with
  | some _ => return base.toPtr
  | none => return base

theorem reads_type (ty : Ty) (hrest : rest.head? ≠ some '*') :
    Reads type (· = ty) (ty.text.toList ++ rest) rest := by
  have hfails : Fails (word "*") rest := by
    refine fails_word ?_
    cases rest with
    | nil => rfl
    | cons c rest =>
      have hc : '*' ≠ c := fun e => hrest (by rw [e]; rfl)
      simp [List.isPrefixOf, hc]
  have hscalar : ∀ base : Ty, base ≠ .void → Reads (starred base) (· = base) rest rest := by
    intro base hbase
    simp only [starred, if_neg hbase]
    exact hfails.option.bind_eq (reads_pure base rest)
  have hpointer : ∀ base : Ty, base ≠ .void → Reads (starred base) (· = base.toPtr) ("*".toList ++ rest) rest := by
    intro base hbase
    simp only [starred, if_neg hbase]
    refine (reads_word "*" rest).option.bind fun o ho => ?_
    obtain ⟨_, rfl, -⟩ := ho
    exact reads_pure base.toPtr rest
  have hbase : ∀ (base : Ty) (rest : List Char), base ∈ [Ty.i32, .f32, .void] →
      Reads (oneOf [("i32", Ty.i32), ("f32", Ty.f32), ("void", Ty.void)]) (· = base)
        (base.text.toList ++ rest) rest := by
    intro base rest hmem line col
    simp only [List.mem_cons, List.not_mem_nil, or_false] at hmem
    rcases hmem with rfl | rfl | rfl <;> exact ⟨_, _, _, rfl, rfl⟩
  cases ty with
  | i32 => exact (hbase .i32 _ (by decide)).bind_eq (hscalar _ (by decide))
  | f32 => exact (hbase .f32 _ (by decide)).bind_eq (hscalar _ (by decide))
  | i32Ptr => exact (hbase .i32 _ (by decide)).bind_eq (hpointer _ (by decide))
  | f32Ptr => exact (hbase .f32 _ (by decide)).bind_eq (hpointer _ (by decide))
  | void => exact (hbase .void _ (by decide)).bind_eq (reads_pure _ _)

/-! ### Numbers -/

/-- Digits behind an optional minus sign. -/
def IsSigned (sign ds : List Char) : Prop :=
  (sign = [] ∨ sign = ['-']) ∧ ds ≠ [] ∧ ∀ c ∈ ds, isDigit c = true

/-- A decimal in its parts. -/
def IsDecimal (cs : List Char) : Prop := ∃ sign whole fraction tail, IsSigned sign whole ∧
  IsSigned [] fraction ∧ cs = sign ++ whole ++ '.' :: fraction ++ tail ∧
  (tail = [] ∨ ∃ e sign' ds, (e = 'e' ∨ e = 'E') ∧ (sign' = [] ∨ sign' = ['+'] ∨ sign' = ['-']) ∧
    IsSigned [] ds ∧ tail = e :: sign' ++ ds)

theorem isDigit_of_isNameChar {c : Char} (h : isNameChar c = false) : isDigit c = false := by
  simp only [isNameChar, Bool.or_eq_false_iff] at h
  exact h.1.1.2

theorem Stops.digit (h : Stops isNameChar rest) : Stops isDigit rest :=
  fun c hc => isDigit_of_isNameChar (h c hc)

theorem ne_minus_of_isDigit {c : Char} (h : isDigit c = true) : c ≠ '-' := by
  rintro rfl
  cases h

theorem isNameChar_of_isDigit {c : Char} (h : isDigit c = true) : isNameChar c = true := by
  simp [isNameChar, h]

theorem IsSigned.starts {sign : List Char} (h : IsSigned sign ds) : Starts (sign ++ ds) := by
  obtain ⟨hsign, hne, hds⟩ := h
  rcases hsign with rfl | rfl
  · obtain ⟨c, cs, rfl⟩ := List.exists_cons_of_ne_nil hne
    exact starts_of_isNameChar (isNameChar_of_isDigit (hds c List.mem_cons_self)) cs
  · exact ⟨'-', rfl, by decide⟩

theorem reads_minus {sign : List Char} (h : IsSigned sign ds) (rest : List Char) :
    Reads minus (· = sign) (sign ++ (ds ++ rest)) (ds ++ rest) := by
  obtain ⟨rfl | rfl, hne, hds⟩ := h
  · obtain ⟨c, cs, rfl⟩ := List.exists_cons_of_ne_nil hne
    have hc := ne_minus_of_isDigit (hds c List.mem_cons_self)
    have hfails : Fails (charIf (· = '-')) (c :: cs ++ rest) := by
      refine fails_charIf ?_
      rintro _ ⟨⟩
      simpa using hc
    exact hfails.option.bind_eq (reads_pure _ _)
  · have hreads : Reads (charIf (· = '-')) (· = '-') ('-' :: (ds ++ rest)) (ds ++ rest) :=
      reads_charIf rfl _
    refine hreads.option.bind ?_
    rintro _ ⟨_, rfl, rfl⟩
    exact reads_pure _ _

theorem reads_integer {sign : List Char} (h : IsSigned sign ds) (hrest : Stops isDigit rest) :
    Reads integer (· = sign ++ ds) (sign ++ ds ++ rest) rest := by
  rw [List.append_assoc]
  exact (reads_minus h rest).bind_eq ((reads_chars1 h.2.1 h.2.2 hrest).bind_eq (reads_pure _ _))

/-- Digits without a point behind them are no decimal. -/
theorem fails_decimal {sign : List Char} (h : IsSigned sign ds) (hrest : Stops isNameChar rest) :
    Fails decimal (sign ++ ds ++ rest) := by
  rw [List.append_assoc]
  refine (reads_minus h rest).bind_fails fun _ _ =>
    (reads_chars1 h.2.1 h.2.2 hrest.digit).bind_fails fun _ _ => Fails.bind (fails_word ?_) _
  cases rest with
  | nil => rfl
  | cons c rest =>
    have hc : '.' ≠ c := by
      rintro rfl
      cases hrest '.' rfl
    simp [List.isPrefixOf, hc]

/-- A number needs a digit or a sign. -/
theorem fails_number (cs : List Char) : Fails decimal ('%' :: cs) ∧ Fails integer ('%' :: cs) :=
  ⟨fun _ _ => rfl, fun _ _ => rfl⟩

theorem reads_exponent {e : Char} {sign' : List Char} (he : e = 'e' ∨ e = 'E')
    (hsign : sign' = [] ∨ sign' = ['+'] ∨ sign' = ['-']) (h : IsSigned [] ds)
    (hrest : Stops isDigit rest) :
    Reads exponent (· = e :: sign' ++ ds) (e :: sign' ++ ds ++ rest) rest := by
  have hletter : (fun c => c = 'e' || c = 'E' : Char → Bool) e = true := by
    rcases he with rfl | rfl <;> rfl
  have hsigned : Reads (option (charIf fun c => c = '+' || c = '-')) (fun o => o.toList = sign')
      (sign' ++ (ds ++ rest)) (ds ++ rest) := by
    rcases hsign with rfl | rfl | rfl
    · obtain ⟨c, cs, rfl⟩ := List.exists_cons_of_ne_nil h.2.1
      have hc := h.2.2 c List.mem_cons_self
      have hfails : Fails (charIf fun c => c = '+' || c = '-') (c :: cs ++ rest) := by
        refine fails_charIf ?_
        rintro _ ⟨⟩
        have hplus : c ≠ '+' := by
          rintro rfl
          cases hc
        simp [hplus, ne_minus_of_isDigit hc]
      exact hfails.option.mono fun _ e => by rw [e]; rfl
    · exact (reads_charIf (p := fun c => c = '+' || c = '-') rfl _).option.mono
        fun _ ⟨_, ho, e⟩ => by rw [ho, e]; rfl
    · exact (reads_charIf (p := fun c => c = '+' || c = '-') rfl _).option.mono
        fun _ ⟨_, ho, e⟩ => by rw [ho, e]; rfl
  rw [List.cons_append, List.cons_append, List.append_assoc]
  refine (reads_charIf hletter _).bind_eq (hsigned.bind fun o ho => ?_)
  rw [← ho]
  exact (reads_chars1 h.2.1 h.2.2 hrest).bind_eq (reads_pure _ _)

theorem reads_decimal (h : IsDecimal cs) (hrest : Stops isNameChar rest) :
    Reads decimal (· = cs) (cs ++ rest) rest := by
  obtain ⟨sign, whole, fraction, tail, hwhole, hfraction, rfl, htail⟩ := h
  have hafter : Reads (option exponent) (fun o => o.getD [] = tail) (tail ++ rest) rest := by
    rcases htail with rfl | ⟨e, sign', ds, he, hsign, hds, rfl⟩
    · have hfails : Fails exponent rest := by
        refine Fails.bind (fails_charIf fun c hc => ?_) _
        have hname := hrest c hc
        have he : c ≠ 'e' := by
          rintro rfl
          cases hname
        have hE : c ≠ 'E' := by
          rintro rfl
          cases hname
        simp [he, hE]
      exact hfails.option.mono fun _ e => by rw [e]; rfl
    · exact (reads_exponent he hsign hds hrest.digit).option.mono
        fun _ ⟨_, ho, e⟩ => by rw [ho, e]; rfl
  have hstops : Stops isDigit (tail ++ rest) := by
    rcases htail with rfl | ⟨e, sign', ds, he, -, -, rfl⟩
    · exact hrest.digit
    · rintro _ ⟨⟩
      rcases he with rfl | rfl <;> rfl
  have hpoint : Stops isDigit ('.' :: (fraction ++ (tail ++ rest))) := by
    rintro _ ⟨⟩
    rfl
  simp only [List.append_assoc, List.cons_append]
  refine (reads_minus hwhole _).bind_eq ((reads_chars1 hwhole.2.1 hwhole.2.2 hpoint).bind_eq ?_)
  refine (reads_word "." _).bind fun _ _ => ?_
  refine (reads_chars1 hfraction.2.1 hfraction.2.2 hstops).bind_eq (hafter.bind fun o ho => ?_)
  subst ho
  exact (reads_pure _ _).mono fun _ e => by simpa using e

theorem isDigit_of_mem_toDigits {m : Nat} {c : Char} (h : c ∈ Nat.toDigits 10 m) : isDigit c = true := by
  have hdigit := Nat.isDigit_of_mem_toDigits (by omega) (by omega) h
  simpa [isDigit, Char.isDigit, Char.le_def] using hdigit

/-- Integers are written with a sign and digits. -/
theorem isSigned_toString (n : Int) : ∃ sign ds, IsSigned sign ds ∧ (toString n).toList = sign ++ ds := by
  rw [Int.toString_eq_repr, Int.repr_eq_if]
  split
  · exact ⟨[], _, ⟨.inl rfl, Nat.toDigits_ne_nil, fun _ => isDigit_of_mem_toDigits⟩,
      by rw [Nat.toList_repr, List.nil_append]⟩
  · exact ⟨['-'], _, ⟨.inr rfl, Nat.toDigits_ne_nil, fun _ => isDigit_of_mem_toDigits⟩,
      by rw [String.toList_append, Nat.toList_repr]; rfl⟩

/-- Fresh temporaries have names of the grammar. -/
theorem isName_toString (m : Nat) : IsName (toString m) := by
  rw [IsName, Nat.toString_eq_repr, Nat.toList_repr]
  exact ⟨Nat.toDigits_ne_nil, fun c hc => isNameChar_of_isDigit (isDigit_of_mem_toDigits hc)⟩

end Text

/-! ### Operands -/

open Text

/-- A constant whose text is a decimal of the grammar, and one that stands for the constant. -/
def Text.ReadsBack (x : Float32) : Prop :=
  IsDecimal (Binary32.constantText x).toList ∧
    Reading.single (Binary32.constantText x).toList = x

namespace Value

/-- An operand that program text can spell. -/
def Readable : Value → Prop
  | int _ => True
  | float x => ReadsBack x
  | temp t => t.isGlobal = false ∧ IsName t.name

/-- An operand that is read as itself where a value of a type is wanted. -/
def Fits (ty : Ty) : Value → Prop
  | int _ => ty ≠ .f32
  | float _ => True
  | temp t => t.ty = ty

theorem fits_ty (v : Value) : v.Fits v.ty := by
  cases v with
  | int => exact nofun
  | float => trivial
  | temp => rfl

theorem Fits.of_ty {v : Value} {ty : Ty} (h : v.ty = ty) : v.Fits ty := h ▸ v.fits_ty

/-- A spelling that is read as an operand, at every type that the operand fits. -/
def Means (v : Value) (s : Spelled) : Prop :=
  ∀ ty n, v.Fits ty → ∃ n', Gives (Reading.value ty s) n v n'

theorem starts_text {v : Value} (h : v.Readable) : Starts v.text.toList := by
  cases v with
  | int n =>
    obtain ⟨sign, ds, hsigned, e⟩ := isSigned_toString n.toInt
    rw [text, e]
    exact hsigned.starts
  | float x =>
    obtain ⟨sign, whole, fraction, tail, hwhole, -, e, -⟩ := h.1
    rw [text, e, List.append_assoc]
    exact hwhole.starts.append _
  | temp t =>
    rw [text, Temp.text, h.1]
    exact ⟨'%', by simp, by decide⟩

/-- Operands are read back from their text. -/
theorem reads_text {v : Value} (h : v.Readable) {rest : List Char} (hrest : Stops isNameChar rest) :
    Reads spelled v.Means (v.text.toList ++ rest) rest := by
  refine (reads_here _).bind fun pos _ => ?_
  cases v with
  | int n =>
    obtain ⟨sign, ds, hsigned, e⟩ := isSigned_toString n.toInt
    have hread : readInteger i32Min i32Max (sign ++ ds) = .ok n.toInt :=
      e ▸ readInteger_toString (by decide) n.le_toInt (Int.le_of_lt_add_one n.toInt_lt)
    rw [text, e]
    refine Fails.orElse (Fails.bind (fails_decimal hsigned hrest) _) (Reads.orElse ?_ _)
    refine (reads_integer hsigned hrest.digit).bind_eq ((reads_pure _ _).mono ?_)
    rintro _ rfl ty m hfits
    refine ⟨m, ?_⟩
    rw [Reading.value, if_neg hfits, hread]
    exact gives_pure.mpr ⟨by rw [ofInt, Int32.ofInt_toInt], rfl⟩
  | float x =>
    refine Reads.orElse ?_ _
    refine (reads_decimal h.1 hrest).bind_eq ((reads_pure _ _).mono ?_)
    rintro _ rfl ty m -
    exact ⟨m, gives_pure.mpr ⟨congrArg float h.2, rfl⟩⟩
  | temp t =>
    obtain ⟨hlocal, hname⟩ := h
    have e : (temp t).text.toList ++ rest = '%' :: t.name.toList ++ rest := by
      rw [text, Temp.text, hlocal]
      simp
    rw [e]
    refine Fails.orElse (Fails.bind (fails_number _).1 _) (Fails.orElse (Fails.bind (fails_number _).2 _) ?_)
    refine (reads_localName hname hrest).bind_eq ((reads_pure _ _).mono ?_)
    rintro _ rfl ty m hfits
    refine ⟨m.reserve t.name, ?_⟩
    have ht : Temp.ofLocal t.name ty = t := by
      rw [Temp.ofLocal, ← hfits, ← hlocal]
    refine gives_bind.mpr ⟨t, m.reserve t.name, ?_, gives_pure.mpr ⟨rfl, rfl⟩⟩
    exact gives_bind.mpr ⟨(), m.reserve t.name, rfl, gives_pure.mpr ⟨ht, rfl⟩⟩

end Value

end LoopLanes
