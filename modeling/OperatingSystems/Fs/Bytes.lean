import OperatingSystems.Fs.Holding

/-!
# An inode as an array of bytes

What the users of an inode see of it: an array of bytes that is read and overwritten in pieces.
These functions say what `readi` and `writei` are for.
-/

namespace OperatingSystems

/-- The content of a file, whose size is a `uint`. -/
structure FileData where
  bytes : List (BitVec 8)
  size_lt : bytes.length < 2 ^ 32

namespace FileBytes

/-- `s` in place of the bytes from `off` on. -/
def splice (c : List (BitVec 8)) (off : ℕ) (s : List (BitVec 8)) : List (BitVec 8) :=
  c.take off ++ s ++ c.drop (off + s.length)

/-- `readi`: the bytes from `off` on, at most `n` of them. -/
def readi (c : List (BitVec 8)) (off n : Word) : Option (List (BitVec 8)) :=
  if c.length < off.toNat ∨ 2 ^ 32 ≤ off.toNat + n.toNat then none
  else some ((c.drop off.toNat).take n.toNat)

/-- `writei` of the `n` bytes `s`: what the content becomes, if the bytes are accepted. -/
def writei (c : List (BitVec 8)) (off n : Word) (s : List (BitVec 8)) : Option (List (BitVec 8)) :=
  if c.length < off.toNat ∨ 2 ^ 32 ≤ off.toNat + n.toNat ∨
      maxFile * bSize < off.toNat + n.toNat then
    none
  else some (splice c off.toNat s)

theorem length_readi {c bs : List (BitVec 8)} {off n : Word} (h : readi c off n = some bs) :
    bs.length = min n.toNat (c.length - off.toNat) := by
  rw [readi] at h
  split at h
  · cases h
  · rw [← Option.some.inj h, List.length_take, List.length_drop]

variable {c s : List (BitVec 8)} {off : ℕ}

theorem length_splice (h : off ≤ c.length) :
    (splice c off s).length = max c.length (off + s.length) := by
  rw [splice, List.length_append, List.length_append, List.length_take, List.length_drop]
  omega

theorem getElem?_splice (h : off ≤ c.length) (x : ℕ) :
    (splice c off s)[x]? = if off ≤ x ∧ x < off + s.length then s[x - off]? else (c)[x]? := by
  have htake : (c.take off).length = off := by
    rw [List.length_take]
    omega
  rw [splice, List.append_assoc]
  rcases lt_or_ge x off with hlt | hge
  · rw [if_neg (by omega), List.getElem?_append_left (by omega), List.getElem?_take_of_lt hlt]
  · rw [List.getElem?_append_right (by omega), htake]
    by_cases hin : x < off + s.length
    · rw [if_pos ⟨hge, hin⟩, List.getElem?_append_left (by omega)]
    · rw [if_neg fun h ↦ hin h.2, List.getElem?_append_right (by omega), List.getElem?_drop]
      congr 1
      omega

theorem splice_splice (h : off ≤ c.length) (s' : List (BitVec 8)) :
    splice (splice c off s) (off + s.length) s' = splice c off (s ++ s') := by
  have hle : off + s.length ≤ (splice c off s).length := by
    rw [length_splice h]
    exact le_max_right _ _
  refine List.ext_getElem? fun x ↦ ?_
  rw [getElem?_splice hle, getElem?_splice h, getElem?_splice h, List.length_append]
  by_cases hsecond : off + s.length ≤ x ∧ x < off + s.length + s'.length
  · rw [if_pos hsecond, if_pos (by omega), List.getElem?_append_right (by omega)]
    congr 1
    omega
  · rw [if_neg hsecond]
    by_cases hfirst : off ≤ x ∧ x < off + s.length
    · rw [if_pos hfirst, if_pos (by omega), List.getElem?_append_left (by omega)]
    · rw [if_neg hfirst, if_neg (by omega)]

theorem splice_length (c s : List (BitVec 8)) : splice c c.length s = c ++ s := by
  rw [splice, List.take_length, List.drop_eq_nil_of_le (Nat.le_add_right _ _), List.append_nil]

theorem splice_nil (c : List (BitVec 8)) (off : ℕ) : splice c off [] = c := by
  rw [splice, List.append_nil, List.length_nil, Nat.add_zero, List.take_append_drop]

end FileBytes

end OperatingSystems
