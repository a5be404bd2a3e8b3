/-
Integers that have to fit a machine word.

Some operations refuse to leave the word (`fitI32?`), others wrap around: what
is kept of a result is its remainder, signed (`wrapI64`) or not (`wrapU32`,
`wrapU64`).

* `wrapI64_of_mem`, `wrapU32_of_lt`, `wrapU64_of_lt` — what fits is kept as it
  is.
-/

namespace LoopLanes

/-- Bounds of a signed word of 32 bits. -/
def i32Min : Int := -2147483648
@[inherit_doc i32Min]
def i32Max : Int := 2147483647
/-- Bounds of a signed word of 64 bits. -/
def i64Min : Int := -9223372036854775808
@[inherit_doc i64Min]
def i64Max : Int := 9223372036854775807
/-- The largest unsigned word of 32 bits. -/
def u32Max : Int := 4294967295

/-- The value itself when it fits a signed 32-bit word: the outcome of an
operation that refuses to overflow. -/
def fitI32? (x : Int) : Option Int :=
  if i32Min ≤ x ∧ x ≤ i32Max then some x else none

/-- The signed 64-bit word that a result leaves. -/
def wrapI64 (x : Int) : Int := x.bmod 18446744073709551616

/-- The unsigned 32-bit word that a result leaves. -/
def wrapU32 (x : Nat) : Nat := x % 4294967296

/-- The unsigned 64-bit word that a result leaves. -/
def wrapU64 (x : Nat) : Nat := x % 18446744073709551616

theorem wrapI64_of_mem {x : Int} (lo : i64Min ≤ x) (hi : x ≤ i64Max) : wrapI64 x = x := by
  unfold i64Min at lo
  unfold i64Max at hi
  exact Int.bmod_eq_of_le (by omega) (by omega)

theorem wrapU32_of_lt {x : Nat} (h : x < 4294967296) : wrapU32 x = x := Nat.mod_eq_of_lt h

theorem wrapU64_of_lt {x : Nat} (h : x < 18446744073709551616) : wrapU64 x = x := Nat.mod_eq_of_lt h

end LoopLanes
