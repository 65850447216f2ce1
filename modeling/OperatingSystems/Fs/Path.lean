import Mathlib.Data.List.Basic

/-!
# Path names

A path is a string of bytes, without its terminating zero. `skipelem` cuts off one element at a
time; an element is cut to the `DIRSIZ` bytes that a directory entry has room for, and two names are
compared by `namecmp` over these bytes only, so a name here is the list of the bytes before the
first zero.
-/

namespace OperatingSystems

/-- A string, without the zero that ends it. -/
abbrev Bytes := List UInt8

def dirsiz : ℕ := 14

def slash : UInt8 := 47

def dot : Bytes := [46]

def dotdot : Bytes := [46, 46]

theorem dotdot_ne_dot : dotdot ≠ dot := by decide

/-- A name that is neither `"."` nor `".."`. -/
def Proper (name : Bytes) : Prop := name ≠ dot ∧ name ≠ dotdot

instance (name : Bytes) : Decidable (Proper name) := inferInstanceAs (Decidable (_ ∧ _))

/-- The first element of a path and the path behind it, which has no leading slashes. -/
def skipelem (path : Bytes) : Option (Bytes × Bytes) :=
  match path.dropWhile (· == slash) with
  | [] => none
  | c :: path =>
    some (((c :: path).takeWhile (· != slash)).take dirsiz,
      ((c :: path).dropWhile (· != slash)).dropWhile (· == slash))

theorem length_lt_of_skipelem {path name rest : Bytes} (h : skipelem path = some (name, rest)) :
    rest.length < path.length := by
  rw [skipelem] at h
  split at h
  · cases h
  · rename_i c tail hpath
    obtain ⟨rfl, rfl⟩ := Prod.mk.inj (Option.some.inj h)
    have hc : c ≠ slash := by
      have hhead := List.head?_dropWhile_not (· == slash) path
      rw [hpath] at hhead
      simpa using hhead
    -- The first byte belongs to the element, so the rest lies within the tail.
    have hdrop : (c :: tail).dropWhile (· != slash) = tail.dropWhile (· != slash) := by
      rw [List.dropWhile_cons, if_pos (by simpa using hc)]
    calc (((c :: tail).dropWhile (· != slash)).dropWhile (· == slash)).length
        ≤ ((c :: tail).dropWhile (· != slash)).length := (List.dropWhile_sublist _).length_le
      _ = (tail.dropWhile (· != slash)).length := by rw [hdrop]
      _ ≤ tail.length := (List.dropWhile_sublist _).length_le
      _ < (c :: tail).length := Nat.lt_succ_self _
      _ = (path.dropWhile (· == slash)).length := by rw [hpath]
      _ ≤ path.length := (List.dropWhile_sublist _).length_le

-- The examples that the source gives, with `/` = 47, `a` = 97, `b` = 98 and `c` = 99.
example : skipelem [97, 47, 98, 98, 47, 99] = some ([97], [98, 98, 47, 99]) ∧
    skipelem [47, 47, 47, 97, 47, 47, 98, 98] = some ([97], [98, 98]) ∧
    skipelem [97] = some ([97], []) ∧ skipelem [] = none ∧ skipelem [47, 47, 47, 47] = none := by
  decide

end OperatingSystems
