/-
Why files cannot be read or written.

The system numbers its causes; messages give the reason and the number.
-/

namespace LoopLanes

/-- Why a path cannot be read or written. -/
inductive AccessError
  | notFound
  | notPermitted
  | notDirectory
  | isDirectory
  | noSpace
  | nameTooLong
  /-- what was read is no text -/
  | notText
  /-- any other cause, in the words of the system -/
  | other (reason : String) (code : Nat)
  deriving DecidableEq, Repr

namespace AccessError

/-- A cause as the system reports it. -/
def ofCode (reason : String) (code : Nat) : AccessError :=
  match code with
  | 2 => notFound
  | 13 => notPermitted
  | 20 => notDirectory
  | 21 => isDirectory
  | 28 => noSpace
  | 36 => nameTooLong
  | n => other reason n

/-- The wording of each cause. -/
def message : AccessError → String
  | notFound => "No such file or directory (os error 2)"
  | notPermitted => "Permission denied (os error 13)"
  | notDirectory => "Not a directory (os error 20)"
  | isDirectory => "Is a directory (os error 21)"
  | noSpace => "No space left on device (os error 28)"
  | nameTooLong => "File name too long (os error 36)"
  | notText => "stream did not contain valid UTF-8"
  | other reason code => s!"{reason} (os error {code})"

end AccessError

end LoopLanes
