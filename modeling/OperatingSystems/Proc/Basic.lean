import Mathlib.Algebra.Ring.Nat

/-!
# The process table

The size of the table and the states of a slot, as `param.h` and `proc.h` have them.
-/

namespace OperatingSystems

def nproc : ℕ := 64

instance : NeZero nproc := ⟨Nat.succ_ne_zero 63⟩

def initproc : Fin nproc := ⟨0, by decide⟩

inductive ProcState
  | unused
  | embryo
  | sleeping
  | runnable
  | running
  | zombie
  deriving DecidableEq, Repr

end OperatingSystems
