import OperatingSystems.Fs.Path
import OperatingSystems.Lib.Count
import OperatingSystems.Lib.Slots

/-!
# Inodes and directories

The inodes of one device. An inode is kept as one value: `iupdate` writes every change of the cached
copy through to the disk before the inode's lock is released. Numbers are counted from 0, so the
index `i` stands for the inode number `i + 1`; inode number 0 marks a free slot of a directory.

The contents of a directory are its slots. The contents of other files are not represented.

Two fields are not in the source: an inode counts how often it has been freed, and a directory entry
remembers this count as it was when the entry was written. No function looks at them; they tell an
inode apart from a later one with the same number.
-/

namespace OperatingSystems

open Function

/-- `T_DIR`, `T_FILE` and `T_DEV`. Type 0, a free inode, is the missing type. -/
inductive FileType
  | dir
  | file
  | dev
  deriving DecidableEq, Repr

/-- `struct dirent`, in use. -/
structure Dirent (n : ℕ) where
  inum : Fin n
  name : Bytes
  gen : ℕ
  deriving DecidableEq

structure Inode (n : ℕ) where
  type : Option FileType
  major : BitVec 16
  minor : BitVec 16
  nlink : ℤ
  ents : List (Option (Dirent n))
  gen : ℕ

/-- Arithmetic on a `short`. -/
def short (x : ℤ) : ℤ := x.bmod (2 ^ 16)

theorem short_eq {x : ℤ} (h₀ : 0 ≤ x) (h₁ : x < 2 ^ 15) : short x = x := by
  rw [short, Int.bmod_eq_of_le] <;> omega

def direntsPerBlock : ℕ := 32

def maxDirents : ℕ := 140 * direntsPerBlock

def fssize : ℕ := 1000

inductive FsPanic
  | ilock
  /-- `"ilock: no type"` -/
  | ilockNoType
  /-- `"iget: no inodes"` -/
  | igetNoInodes
  /-- `"ialloc: no inodes"` -/
  | iallocNoInodes
  /-- `"balloc: out of blocks"` -/
  | ballocOutOfBlocks
  /-- `"dirlookup not DIR"` -/
  | dirlookupNotDir
  | dirlink
  /-- `"unlink: nlink < 1"` -/
  | unlinkNlink
  /-- `"create dots"` -/
  | createDots
  /-- `"create: dirlink"` -/
  | createDirlink
  | filedup
  | fileclose
  deriving DecidableEq, Repr

/-- Why a step is not taken: it waits for a lock, or the kernel panics. -/
inductive FsStop
  | blocked
  | panic (why : FsPanic)
  deriving DecidableEq, Repr

variable {n : ℕ}

namespace Inode

/-- The search of `dirlookup`: the first entry with this name, and its offset in slots. -/
def dirlookup (dp : Inode n) (name : Bytes) : Option (ℕ × Dirent n) :=
  Slots.find (fun e ↦ e.name == name) dp.ents

/-- `isdirempty`: only the slots behind the first two are looked at. -/
def isdirempty (dp : Inode n) : Bool := (dp.ents.drop 2).all Option.isNone

def init (ip : Inode n) (major minor : BitVec 16) : Inode n :=
  { ip with major := major, minor := minor, nlink := 1 }

end Inode

abbrev Inodes (n : ℕ) := Fin n → Inode n

namespace Inodes

variable (I : Inodes n)

def dirBlocks : ℕ := ∑ d, ((I d).ents.length + (direntsPerBlock - 1)) / direntsPerBlock

/-- Change the link count of one inode, with `iupdate`. -/
def addLink (i : Fin n) (x : ℤ) : Inodes n :=
  update I i { I i with nlink := short ((I i).nlink + x) }

def setEnts (d : Fin n) (l : List (Option (Dirent n))) : Inodes n :=
  update I d { I d with ents := l }

/-- Directory `d` with an entry for inode `i`, in the first free slot. -/
abbrev addEntry (d : Fin n) (name : Bytes) (i : Fin n) : Inodes n :=
  I.setEnts d (Slots.fill ⟨i, name, (I i).gen⟩ (I d).ents)

/-- Directory `d` with slot `off` freed. -/
abbrev clearEntry (d : Fin n) (off : ℕ) : Inodes n := I.setEnts d ((I d).ents.set off none)

/-- The second half of `dirlink`, which looks for an empty entry and writes the new one there. A
directory that has to grow can be as large as a file can get, or need a block when the disk has
none: `full` says that the blocks which are not taken by directories are in use as well. -/
def writeEntry (full : Bool) (d : Fin n) (name : Bytes) (i : Fin n) : Except FsStop (Inodes n) :=
  let slots := (I d).ents
  if none ∈ slots then .ok (I.addEntry d name i)
  else if maxDirents ≤ slots.length then .error (.panic .dirlink)
  else if slots.length % direntsPerBlock = 0 ∧ (full ∨ fssize ≤ I.dirBlocks) then
    .error (.panic .ballocOutOfBlocks)
  else .ok (I.addEntry d name i)

/-- `dirlink`, in the callers that panic when the name is already present. -/
def dirlink (why : FsPanic) (full : Bool) (d : Fin n) (name : Bytes) (i : Fin n) :
    Except FsStop (Inodes n) :=
  if (I d).type ≠ some .dir then .error (.panic .dirlookupNotDir)
  else if ((I d).dirlookup name).isSome then .error (.panic why)
  else I.writeEntry full d name i

/-- The search of `ialloc` for a free inode. -/
def free : Option (Fin n) := (List.finRange n).find? fun i ↦ (I i).type.isNone

/-- `ialloc` marks inode `i` as allocated: everything but the type is zero. -/
def ialloc (i : Fin n) (type : FileType) : Inodes n :=
  update I i
    { type := some type, major := 0, minor := 0, nlink := 0, ents := [], gen := (I i).gen }

def ifree (i : Fin n) : Inodes n :=
  update I i { I i with type := none, ents := [], gen := (I i).gen + 1 }

/-! ### Fields that stay the same -/

variable (i j : Fin n)

@[simp] theorem type_addLink (x : ℤ) : (I.addLink i x j).type = (I j).type :=
  view_update Inode.type (by rfl) j

@[simp] theorem ents_addLink (x : ℤ) : (I.addLink i x j).ents = (I j).ents :=
  view_update Inode.ents (by rfl) j

@[simp] theorem gen_addLink (x : ℤ) : (I.addLink i x j).gen = (I j).gen :=
  view_update Inode.gen (by rfl) j

@[simp] theorem type_setEnts (l : List (Option (Dirent n))) :
    (I.setEnts i l j).type = (I j).type :=
  view_update Inode.type (by rfl) j

@[simp] theorem nlink_setEnts (l : List (Option (Dirent n))) :
    (I.setEnts i l j).nlink = (I j).nlink :=
  view_update Inode.nlink (by rfl) j

@[simp] theorem gen_setEnts (l : List (Option (Dirent n))) :
    (I.setEnts i l j).gen = (I j).gen :=
  view_update Inode.gen (by rfl) j

variable {I} {I' : Inodes n} {d : Fin n} {name : Bytes} {full : Bool} {i}

theorem eq_of_writeEntry (h : I.writeEntry full d name i = .ok I') :
    I' = I.addEntry d name i := by
  rw [writeEntry] at h
  split_ifs at h <;> exact (Except.ok.inj h).symm

theorem writeEntry_of_dirlink {why : FsPanic} (h : I.dirlink why full d name i = .ok I') :
    (I d).type = some .dir ∧ (I d).dirlookup name = none ∧ I.writeEntry full d name i = .ok I' := by
  rw [dirlink] at h
  split_ifs at h with hdir hfind
  exact ⟨not_not.mp hdir, by simpa using hfind, h⟩

end Inodes

end OperatingSystems
