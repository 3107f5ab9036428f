import Mathlib.Data.Nat.Notation

/-! # Calls that raise, in loops that run out of fuel

The result of such a call is `none` where the fuel did not do, an error that is
raised through every caller, or a value to go on with.
-/

namespace Mongolite

variable {ε α β : Type*} {a : α} {e : ε} {k : α → Option (Except ε β)}

/-- Go on with the value of a call that returned. -/
def andThen : Option (Except ε α) → (α → Option (Except ε β)) → Option (Except ε β)
  | none, _ => none
  | some (.error e), _ => some (.error e)
  | some (.ok a), k => k a

@[simp] theorem andThen_error : andThen (some (.error e)) k = some (.error e) := rfl

@[simp] theorem andThen_ok : andThen (some (.ok a)) k = k a := rfl

end Mongolite
