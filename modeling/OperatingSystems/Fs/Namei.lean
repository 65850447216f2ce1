import Mathlib.Data.List.TakeWhile
import OperatingSystems.Fs.Format

/-!
# Looking up a name on the disk

The directory layer of `fs.c` over the bytes of the disk: `dirlookup` reads one `struct dirent`
after the other through `readi`, and `namex` goes from directory to directory along a path. A
reference to an inode is the only one here, so `iput` frees an inode without links.

The functions work on the first `n` inodes of the disk. A directory entry with another number makes
them give up; the kernel would go on with whatever is stored behind the inode blocks.
-/

namespace OperatingSystems

/-- Why a lookup does not come to an end. -/
inductive DirPanic
  | block (why : BlockPanic)
  /-- `panic("dirlookup not DIR")` -/
  | notDir
  /-- `panic("dirlookup read")` -/
  | read
  /-- The number of an entry is that of no inode. -/
  | noInode
  deriving DecidableEq, Repr

/-! ## Names -/

/-- `strncmp`, where a string that is too short reads as zero. -/
def strncmp : ℕ → Bytes → Bytes → ℤ
  | 0, _, _ => 0
  | n + 1, p, q =>
    if p.headD 0 ≠ 0 ∧ p.headD 0 = q.headD 0 then strncmp n p.tail q.tail
    else (p.headD 0).toNat - (q.headD 0).toNat

def namecmp (s t : Bytes) : ℤ := strncmp dirsiz s t

/-- The string in the first `n` bytes. -/
def cstring (n : ℕ) (p : Bytes) : Bytes := (p.take n).takeWhile (· != 0)

theorem cstring_succ (n : ℕ) (p : Bytes) :
    cstring (n + 1) p = if p.headD 0 = 0 then [] else p.headD 0 :: cstring n p.tail := by
  cases p with
  | nil => rfl
  | cons c p =>
    rw [cstring, List.take_succ_cons, List.takeWhile_cons]
    by_cases hc : c = 0
    · subst hc
      rfl
    · have hb : (c != 0) = true := bne_iff_ne.2 hc
      rw [if_pos hb, List.headD_cons, if_neg hc]
      rfl

theorem strncmp_eq_zero_iff (n : ℕ) :
    ∀ p q : Bytes, strncmp n p q = 0 ↔ cstring n p = cstring n q := by
  induction n with
  | zero => exact fun p q ↦ iff_of_true rfl rfl
  | succ n ih =>
    intro p q
    rw [strncmp, cstring_succ, cstring_succ]
    by_cases hp : p.headD 0 = 0
    · rw [if_neg fun h ↦ h.1 hp, if_pos hp, hp]
      by_cases hq : q.headD 0 = 0
      · rw [if_pos hq, hq]
        exact iff_of_true rfl rfl
      · have hpos : (q.headD 0).toNat ≠ 0 := fun h ↦ hq (UInt8.toNat_inj.1 h)
        rw [if_neg hq]
        refine iff_of_false (fun h ↦ hpos ?_) (List.cons_ne_nil _ _).symm
        rw [UInt8.toNat_zero] at h
        omega
    · rw [if_neg hp]
      by_cases hpq : p.headD 0 = q.headD 0
      · have hq : q.headD 0 ≠ 0 := hpq ▸ hp
        rw [if_pos ⟨hp, hpq⟩, if_neg hq, ih, hpq]
        exact ⟨congrArg _, fun h ↦ (List.cons.inj h).2⟩
      · rw [if_neg fun h ↦ hpq h.2]
        refine iff_of_false (fun h ↦ hpq (UInt8.toNat_inj.1 (by omega))) fun h ↦ hpq ?_
        by_cases hq : q.headD 0 = 0
        · rw [if_pos hq] at h
          exact absurd h (List.cons_ne_nil _ _)
        · rw [if_neg hq] at h
          exact (List.cons.inj h).1

theorem cstring_of_notMem {n : ℕ} {p : Bytes} (h : (0 : UInt8) ∉ p) : cstring n p = p.take n := by
  rw [cstring, List.takeWhile_eq_self_iff]
  intro c hc
  exact bne_iff_ne.2 fun hc₀ ↦ h (hc₀ ▸ List.mem_of_mem_take hc)

namespace FsDisk

variable {n : ℕ} (L : Layout) (d : FsDisk n)

/-! ## Directories -/

def direntInum (de : List (BitVec 8)) : ℕ := (de.getD 0 0).toNat + 256 * (de.getD 1 0).toNat

def direntName (de : List (BitVec 8)) : Bytes := (de.drop 2).map UInt8.ofBitVec

/-- The loop of `dirlookup` from offset `off` on. -/
def dirlookupLoop (name : Bytes) :
    ℕ → FsDisk n → Dinode → Word → Except DirPanic (FsDisk n × Dinode × Option ℕ)
  | 0, d, dp, _ => .ok (d, dp, none)
  | fuel + 1, d, dp, off =>
    if off < dp.size then do
      let r ← (d.readi L dp off (BitVec.ofNat 32 direntSize)).mapError .block
      match r.2.2 with
      | none => .error .read
      | some de =>
        if de.length ≠ direntSize then .error .read
        else if direntInum de = 0 then
          dirlookupLoop name fuel r.1 r.2.1 (off + BitVec.ofNat 32 direntSize)
        else if namecmp name (direntName de) = 0 then .ok (r.1, r.2.1, some (direntInum de))
        else dirlookupLoop name fuel r.1 r.2.1 (off + BitVec.ofNat 32 direntSize)
    else .ok (d, dp, none)

/-- `dirlookup`: the number in the first entry with this name. A read behind the last entry panics,
so the offset does not wrap and there is at most one round for every entry. -/
def dirlookup (dp : Dinode) (name : Bytes) : Except DirPanic (FsDisk n × Dinode × Option ℕ) :=
  if dp.type ≠ tDir then .error .notDir
  else dirlookupLoop L name (dp.size.toNat / direntSize + 1) d dp 0

/-! ## Paths -/

/-- `ilock` of an inode that is not in the cache. -/
def ilock (i : Fin n) : Except DirPanic Dinode :=
  if (d.dinode i).type = 0 then .error (.block .noType) else .ok (d.dinode i)

/-- `iput` of the only reference. -/
def iput (i : Fin n) (ip : Dinode) : Except DirPanic (FsDisk n) :=
  if ip.nlink = 0 then do
    let r ← (d.itrunc i ip).mapError .block
    .ok (r.1.iupdate i { r.2 with type := 0 })
  else .ok d

def iget (n inum : ℕ) : Except DirPanic (Fin n) :=
  if h : 0 < inum ∧ inum - 1 < n then .ok ⟨inum - 1, h.2⟩ else .error .noInode

/-- The loop of `namex`, called by `namei`. Every element of the path takes a byte, so there are at
most as many rounds. -/
def namexLoop :
    ℕ → FsDisk n → Fin n → Bytes → Except DirPanic (FsDisk n × Option (Fin n))
  | 0, d, i, _ => .ok (d, some i)
  | fuel + 1, d, i, path =>
    match skipelem path with
    | none => .ok (d, some i)
    | some (name, rest) => do
      let ip ← d.ilock i
      if ip.type ≠ tDir then
        let d ← d.iput i ip
        .ok (d, none)
      else
        let r ← d.dirlookup L ip name
        match r.2.2 with
        | none =>
          let d ← r.1.iput i r.2.1
          .ok (d, none)
        | some inum =>
          let next ← iget n inum
          let d ← r.1.iput i r.2.1
          namexLoop fuel d next rest

/-- `namei` for a process in the directory `cwd`: the index of the inode, if there is one. -/
def namei [NeZero n] (cwd : Fin n) (path : Bytes) :
    Except DirPanic (FsDisk n × Option (Fin n)) :=
  namexLoop L path.length d (if path.head? = some slash then 0 else cwd) path

end FsDisk

end OperatingSystems
