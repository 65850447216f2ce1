import OperatingSystems.Fs.Image
import OperatingSystems.Lib.Transition

/-!
# File-system calls, section by section

The calls of `sysfile.c` with the functions of `fs.c` and `file.c` that they use, for any number of
processes at a time. A step is either the entry of a process into a call or the next critical
section of a process that is in one. A step that has to wait for a sleep-lock is blocked; a panic
ends the run.

Every call runs inside a transaction of the log. All inodes are on one device.
-/

namespace OperatingSystems

open Function

namespace Fs

variable {n : ℕ} (s : Fs n) (p : Fin nproc)

/-! ## Paths -/

/-- The start of `namex`: at the root, or at the current directory. -/
def namex [NeZero n] (k : Caller n) (path : Bytes) : Except FsStop (Fs n) :=
  if path.head? = some slash then do
    let s ← s.iget rootino
    return s.setPc p (.walk k rootino path)
  else
    match (s.proc p).cwd with
    | none => .error .blocked
    | some cwd => .ok ((s.idup cwd).setPc p (.walk k cwd path))

def walk (k : Caller n) (ip : Fin n) (path : Bytes) : Except FsStop (Fs n) :=
  match skipelem path with
  | none => .ok (s.setPc p (if k.parent then .iput ip k.fail else k.found ip []))
  | some (name, rest) => do
    let s ← s.ilock ip
    if (s.inode ip).type ≠ some .dir then return s.setPc p (.iput ip k.fail)
    else if k.parent ∧ rest = [] then return s.setPc p (k.found ip name)
    else
      match (s.inode ip).dirlookup name with
      | none => return s.setPc p (.iput ip k.fail)
      | some (_, e) =>
        let s ← s.iget e.inum
        return s.setPc p (.iput ip (.walk k e.inum rest))

/-! ## `open`, `exec` and `chdir` -/

/-- The end of `sys_open`, which allocates a file and a descriptor for the locked inode `ip`. -/
def openFile (ip : Fin n) : Fs n :=
  match s.filealloc, s.fdalloc p with
  | some f, some fd =>
    { s with
      file := update s.file f ⟨1, ip⟩
      proc := update s.proc p
        { s.proc p with
          ofile := update (s.proc p).ofile fd (some f)
          pc := .ret (fd : ℕ) } }
  | _, _ => s.setPc p (.iput ip (.ret (-1)))

def openLock (ip : Fin n) (omode : BitVec 32) : Except FsStop (Fs n) := do
  let s ← s.ilock ip
  if (s.inode ip).type = some .dir ∧ omode ≠ 0 then return s.setPc p (.iput ip (.ret (-1)))
  else return s.openFile p ip

/-- `exec` reads the file under its lock, which `consoleread` releases while it waits. -/
def execLock (ip : Fin n) (reads : ℕ) (ok : Bool) : Except FsStop (Fs n) := do
  let s ← s.ilock ip
  match reads, (s.inode ip).type with
  | reads + 1, some .dev => return s.setPc p (.execLock ip reads ok)
  | _, _ => return s.setPc p (.iput ip (.ret (if ok then 0 else -1)))

/-- The end of `sys_chdir`. The process's `cwd` is set before the `iput` of the old one, which does
not look at it. -/
def chdirLock (ip : Fin n) : Except FsStop (Fs n) := do
  let s ← s.ilock ip
  if (s.inode ip).type ≠ some .dir then return s.setPc p (.iput ip (.ret (-1)))
  else
    match (s.proc p).cwd with
    | none => .error .blocked
    | some cwd =>
      return { s with
        proc := update s.proc p
          { s.proc p with cwd := some ip, pc := .iput cwd (.ret 0) } }

/-! ## `link` -/

def linkLock (ip : Fin n) (new : Bytes) : Except FsStop (Fs n) := do
  let s ← s.ilock ip
  if (s.inode ip).type = some .dir then return s.setPc p (.iput ip (.ret (-1)))
  else return (s.setInodes (s.inode.addLink ip 1)).setPc p (.namex (.linkNew ip) new)

/-- `ilock(dp)` and `dirlink`. When the name is present, `dirlink` drops the inode it found while
`dp` is locked. -/
def linkDir (full : Bool) (ip dp : Fin n) (name : Bytes) : Except FsStop (Fs n) := do
  let s ← s.ilock dp
  if (s.inode dp).type ≠ some .dir then .error (.panic .dirlookupNotDir)
  else
    match (s.inode dp).dirlookup name with
    | some (_, e) =>
      let s ← s.iget e.inum
      return (s.keep p dp).setPc p (.iput e.inum (.linkUndo ip dp))
    | none =>
      let I ← s.inode.writeEntry full dp name ip
      return (s.setInodes I).setPc p (.iput dp (.iput ip (.ret 0)))

def linkUndo (ip dp : Fin n) : Fs n := (s.iunlock dp).setPc p (.iput dp (.linkBad ip))

def linkBad (ip : Fin n) : Except FsStop (Fs n) := do
  let s ← s.ilock ip
  return (s.setInodes (s.inode.addLink ip (-1))).setPc p (.iput ip (.ret (-1)))

/-! ## `unlink` -/

def unlinkDir (dp : Fin n) (name : Bytes) : Except FsStop (Fs n) := do
  let s ← s.ilock dp
  if name = dot ∨ name = dotdot then return s.setPc p (.iput dp (.ret (-1)))
  else if (s.inode dp).type ≠ some .dir then .error (.panic .dirlookupNotDir)
  else
    match (s.inode dp).dirlookup name with
    | none => return s.setPc p (.iput dp (.ret (-1)))
    | some (off, e) =>
      let s ← s.iget e.inum
      return (s.keep p dp).setPc p (.unlinkIp dp e.inum off)

/-- The inodes after the entry at `off` has been erased from `dp`; a directory takes its link to
`dp` with it. -/
def erased (I : Inodes n) (dp ip : Fin n) (off : ℕ) : Inodes n :=
  if (I ip).type = some .dir then (I.clearEntry dp off).addLink dp (-1) else I.clearEntry dp off

def unlinkIp (dp ip : Fin n) (off : ℕ) : Except FsStop (Fs n) := do
  let s ← s.ilock ip
  if (s.inode ip).nlink < 1 then .error (.panic .unlinkNlink)
  else if (s.inode ip).type = some .dir ∧ !(s.inode ip).isdirempty then
    return s.setPc p (.iput ip (.unlinkBad dp))
  else
    return (((s.setInodes (erased s.inode dp ip off)).iunlock dp).keep p ip).setPc p
      (.iput dp (.unlinkDec ip))

def unlinkBad (dp : Fin n) : Fs n := (s.iunlock dp).setPc p (.iput dp (.ret (-1)))

def unlinkDec (ip : Fin n) : Fs n :=
  ((s.setInodes (s.inode.addLink ip (-1))).iunlock ip).setPc p (.iput ip (.ret 0))

/-! ## `create` -/

def createDir (m : Make) (dp : Fin n) (name : Bytes) : Except FsStop (Fs n) := do
  let s ← s.ilock dp
  if (s.inode dp).type ≠ some .dir then .error (.panic .dirlookupNotDir)
  else
    match (s.inode dp).dirlookup name with
    | some (_, e) =>
      let s ← s.iget e.inum
      return s.setPc p (.iput dp (.createFound m e.inum))
    | none =>
      match s.inode.free with
      | none => .error (.panic .iallocNoInodes)
      | some i =>
        let s ← (s.setInodes (s.inode.ialloc i m.type)).iget i
        return (s.keep p dp).setPc p (.createNew m dp name i)

def createFound (m : Make) (ip : Fin n) : Except FsStop (Fs n) := do
  let s ← s.ilock ip
  if m.type = .file ∧ (s.inode ip).type = some .file then return s.openFile p ip
  else return s.setPc p (.iput ip (.ret (-1)))

/-- `create` sets the fields of the new inode. -/
def initialised (I : Inodes n) (m : Make) (ip : Fin n) : Inodes n :=
  update I ip ((I ip).init m.major m.minor)

/-- The entries `"."` and `".."` of a new directory. -/
def withDots (full : Bool) (I : Inodes n) (dp ip : Fin n) : Except FsStop (Inodes n) := do
  let I ← (I.addLink dp 1).dirlink .createDots full ip dot ip
  I.dirlink .createDots full ip dotdot dp

/-- The inodes after `create` has initialised `ip` and entered it into `dp`. When one of the names
is present already, this is a panic, whatever becomes of the inode that was found. -/
def entered (full : Bool) (I : Inodes n) (m : Make) (dp : Fin n) (name : Bytes) (ip : Fin n) :
    Except FsStop (Inodes n) :=
  if m.type = .dir then do
    let I ← withDots full (initialised I m ip) dp ip
    I.dirlink .createDirlink full dp name ip
  else (initialised I m ip).dirlink .createDirlink full dp name ip

def createNew (full : Bool) (m : Make) (dp : Fin n) (name : Bytes) (ip : Fin n) :
    Except FsStop (Fs n) := do
  let s ← s.ilock ip
  let I ← entered full s.inode m dp name ip
  return (((s.setInodes I).iunlock dp).keep p ip).setPc p (.iput dp (.created m ip))

/-- What the callers of `create` do with the locked inode it returned. -/
def created (m : Make) (ip : Fin n) : Fs n :=
  match m with
  | .open => (s.iunlock ip).openFile p ip
  | _ => (s.iunlock ip).setPc p (.iput ip (.ret 0))

/-! ## `close` and `exit` -/

/-- `--f->ref` -/
def decFile (f : Fin nfile) : Fs n :=
  { s with file := update s.file f ⟨(s.file f).ref - 1, (s.file f).ip⟩ }

/-- `fileclose`, which is followed by `t`. -/
def fileclose (f : Fin nfile) (t : Pc n) : Except FsStop (Fs n) :=
  if (s.file f).ref < 1 then .error (.panic .fileclose)
  else .ok ((s.decFile f).setPc p (if 0 < (s.file f).ref - 1 then t else .iput (s.file f).ip t))

def clearFd (fd : Fin nofile) : Fs n :=
  { s with
    proc := update s.proc p
      { s.proc p with ofile := update (s.proc p).ofile fd none } }

def exit : Except FsStop (Fs n) :=
  match (List.finRange nofile).findSome? fun fd ↦ ((s.proc p).ofile fd).map fun f ↦ (fd, f) with
  | some (fd, f) => (s.clearFd p fd).fileclose p f .exit
  | none =>
    match (s.proc p).cwd with
    | none => .error .blocked
    | some cwd =>
      .ok { s with
        proc := update s.proc p { s.proc p with cwd := none, pc := .iput cwd .dead } }

/-! ## The machine -/

def go [NeZero n] (full : Bool) : Except FsStop (Fs n) :=
  match (s.proc p).pc with
  | .ret _ | .dead => .error .blocked
  | .namex k path => s.namex p k path
  | .walk k ip path => s.walk p k ip path
  | .iput i t => do
    let s ← s.iputSection i
    return s.setPc p (.drop i t)
  | .drop i t => .ok ((s.decRef i).setPc p t)
  | .openLock ip omode => s.openLock p ip omode
  | .execLock ip reads ok => s.execLock p ip reads ok
  | .chdirLock ip => s.chdirLock p ip
  | .linkLock ip new => s.linkLock p ip new
  | .linkDir ip dp name => s.linkDir p full ip dp name
  | .linkUndo ip dp => .ok (s.linkUndo p ip dp)
  | .linkBad ip => s.linkBad p ip
  | .unlinkDir dp name => s.unlinkDir p dp name
  | .unlinkIp dp ip off => s.unlinkIp p dp ip off
  | .unlinkBad dp => .ok (s.unlinkBad p dp)
  | .unlinkDec ip => .ok (s.unlinkDec p ip)
  | .createDir m dp name => s.createDir p m dp name
  | .createFound m ip => s.createFound p m ip
  | .createNew m dp name ip => s.createNew p full m dp name ip
  | .created m ip => .ok (s.created p m ip)
  | .exit => s.exit p

end Fs

inductive FsCall
  | open (path : Bytes) (omode : BitVec 32)
  | mkdir (path : Bytes)
  | mknod (path : Bytes) (major minor : BitVec 32)
  | link (old new : Bytes)
  | unlink (path : Bytes)
  | chdir (path : Bytes)
  | exec (path : Bytes) (reads : ℕ) (ok : Bool)
  | close (fd : Fin nofile)
  | dup (fd : Fin nofile)
  | fork (child : Fin nproc)
  | exit

def oCreate : BitVec 32 := 0x200

namespace Fs

variable {n : ℕ} (s : Fs n) (p : Fin nproc)

def close (fd : Fin nofile) : Except FsStop (Fs n) :=
  match (s.proc p).ofile fd with
  | none => .ok (s.setPc p (.ret (-1)))
  | some f => (s.clearFd p fd).fileclose p f (.ret 0)

def dup (fd : Fin nofile) : Except FsStop (Fs n) :=
  match (s.proc p).ofile fd, s.fdalloc p with
  | some f, some new =>
    if (s.file f).ref < 1 then .error (.panic .filedup)
    else .ok { s with
      file := update s.file f ⟨(s.file f).ref + 1, (s.file f).ip⟩
      proc := update s.proc p
        { s.proc p with
          ofile := update (s.proc p).ofile new (some f)
          pc := .ret (new : ℕ) } }
  | _, _ => .ok (s.setPc p (.ret (-1)))

def descriptors (f : Fin nfile) : ℕ :=
  (List.finRange nofile).countP fun fd ↦ (s.proc p).ofile fd = some f

/-- The part of `fork` that is about files: the child shares them, and the current directory. What
the call returns to the parent is not kept. -/
def fork (child : Fin nproc) : Except FsStop (Fs n) :=
  match (s.proc child).pc, (s.proc child).cwd, (s.proc p).cwd with
  | .dead, none, some cwd =>
    if (List.finRange nfile).any fun f ↦ 0 < s.descriptors p f && (s.file f).ref < 1 then
      .error (.panic .filedup)
    else .ok { s.idup cwd with
      file := fun f ↦ ⟨(s.file f).ref + s.descriptors p f, (s.file f).ip⟩
      proc := update s.proc child { s.proc p with pc := .ret 0 } }
  | _, _, _ => .error .blocked

def enter : FsCall → Except FsStop (Fs n)
  | .open path omode =>
    .ok (s.setPc p (.namex (if omode &&& oCreate ≠ 0 then .create .open else .open omode) path))
  | .mkdir path => .ok (s.setPc p (.namex (.create .mkdir) path))
  | .mknod path major minor => .ok (s.setPc p (.namex (.create (.mknod major minor)) path))
  | .link old new => .ok (s.setPc p (.namex (.linkOld new) old))
  | .unlink path => .ok (s.setPc p (.namex .unlink path))
  | .chdir path => .ok (s.setPc p (.namex .chdir path))
  | .exec path reads ok => .ok (s.setPc p (.namex (.exec reads ok) path))
  | .close fd => s.close p fd
  | .dup fd => s.dup p fd
  | .fork child => s.fork p child
  | .exit => .ok (s.setPc p .exit)

end Fs

/-- A call by a process, or its next section; `full` says whether the disk has run out of blocks. -/
inductive FsAct
  | call (p : Fin nproc) (c : FsCall)
  | go (p : Fin nproc) (full : Bool)

def Pc.isIdle {n : ℕ} : Pc n → Bool
  | .ret _ | .dead => true
  | _ => false

namespace Fs

variable {n : ℕ} [NeZero n]

def act (s : Fs n) : FsAct → Except FsStop (Fs n)
  | .call p c =>
    match (s.proc p).pc with
    | .ret _ => s.enter p c
    | _ => .error .blocked
  | .go p full => s.go p full

/-- The system after `userinit`: one process, in the root directory. -/
def boot (I : Inodes n) : Fs n where
  inode := I
  ref i := if i = rootino then 1 else 0
  valid _ := false
  lock _ := none
  file _ := ⟨0, rootino⟩
  proc := update (fun _ ↦ ⟨none, fun _ ↦ none, .dead⟩) initproc
    ⟨some rootino, fun _ ↦ none, .ret 0⟩

def Quiescent (s : Fs n) : Prop := ∀ p, (∃ r, (s.proc p).pc = .ret r) ∨ (s.proc p).pc = .dead

omit [NeZero n] in
theorem quiescent_iff {s : Fs n} : s.Quiescent ↔ ∀ p, (s.proc p).pc.isIdle = true := by
  refine forall_congr' fun p ↦ ?_
  cases (s.proc p).pc <;> simp [Pc.isIdle]

instance (s : Fs n) : Decidable s.Quiescent := decidable_of_iff _ quiescent_iff.symm

/-- A call of `p`, for `k` sections. -/
def script (p : Fin nproc) (c : FsCall) (k : ℕ) : List FsAct :=
  .call p c :: List.replicate k (.go p false)

end Fs

/-- The file system from `userinit` on, started from any consistent image. -/
def fileSystem (n : ℕ) [NeZero n] : Machine (Fs n) FsAct where
  init s := ∃ I : Inodes n, I.Consistent ∧ s = Fs.boot I
  step s a := (s.act a).toOption

end OperatingSystems
