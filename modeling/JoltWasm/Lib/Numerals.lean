import Mathlib.Data.Nat.Cast.Defs

/-!
# Numerals

Instances that the numerals of the definitions find by name.
-/

namespace JoltWasm.Lib

instance atLeastTwo_two : Nat.AtLeastTwo 2 := ⟨by decide⟩

instance atLeastTwo_eight : Nat.AtLeastTwo 8 := ⟨by decide⟩

end JoltWasm.Lib
