import OperatingSystems.Fs.Calls
import OperatingSystems.Lib.Result

/-!
# What a step of the file system does

Each program counter stands for references and locks that its process holds, and for link counts
that it has yet to correct. `Did s p s'` says everything about a step of process `p` that the
invariants of the file system need: the reference counts and locks follow the program counter, and
the inodes change in one of ten ways.
-/

namespace OperatingSystems

open Function

variable {n : ℕ}

/-! ## What a program counter stands for -/

def Caller.refs : Caller n → List (Fin n)
  | .linkNew ip => [ip]
  | _ => []

/-- The inode whose link count `sys_link` has raised while the new entry is not written. -/
def Caller.linking : Caller n → Option (Fin n)
  | .linkNew ip => some ip
  | _ => none

namespace Pc

def refs : Pc n → List (Fin n)
  | .ret _ | .dead | .exit => []
  | .namex k _ => k.refs
  | .walk k ip _ => ip :: k.refs
  | .iput i t | .drop i t => i :: t.refs
  | .openLock ip _ | .execLock ip _ _ | .chdirLock ip | .linkLock ip _ | .linkBad ip => [ip]
  | .linkDir ip dp _ | .linkUndo ip dp => [ip, dp]
  | .unlinkDir dp _ | .unlinkBad dp | .createDir _ dp _ => [dp]
  | .unlinkIp dp ip _ | .createNew _ dp _ ip => [dp, ip]
  | .unlinkDec ip | .createFound _ ip | .created _ ip => [ip]

/-- The references that the process may still use: not the one it is about to drop. -/
def uses : Pc n → List (Fin n)
  | .drop _ t => t.refs
  | pc => pc.refs

def locks : Pc n → List (Fin n)
  | .iput _ t | .drop _ t => t.locks
  | .linkUndo _ dp | .unlinkIp dp _ _ | .unlinkBad dp | .createNew _ dp _ _ => [dp]
  | .unlinkDec ip | .created _ ip => [ip]
  | _ => []

/-- The inode whose link count is raised for an entry that is not written yet. -/
def linking : Pc n → Option (Fin n)
  | .namex k _ | .walk k _ _ => k.linking
  | .iput _ t | .drop _ t => t.linking
  | .linkDir ip _ _ | .linkUndo ip _ | .linkBad ip => some ip
  | _ => none

/-- The inode whose link count has yet to be lowered for an entry that has been erased. -/
def unlinking : Pc n → Option (Fin n)
  | .iput _ t | .drop _ t => t.unlinking
  | .unlinkDec ip => some ip
  | _ => none

/-- Not between the two locks of `unlink` or `create`. -/
def Plain : Pc n → Prop
  | .iput _ t | .drop _ t => t.Plain
  | .unlinkIp _ _ _ | .createNew _ _ _ _ => False
  | _ => True

def Leaving : Pc n → Prop
  | .dead => True
  | .iput _ t | .drop _ t => t.Leaving
  | _ => False

/-- The continuations of `iput` are plain. -/
def Wf (pc : Pc n) : Prop :=
  pc.Plain ∨ (∃ dp ip off, pc = .unlinkIp dp ip off) ∨ ∃ m dp name ip, pc = .createNew m dp name ip

theorem Wf.plain_of_iput {i : Fin n} {t : Pc n} (h : Wf (.iput i t)) : t.Plain := by
  rcases h with h | ⟨_, _, _, h⟩ | ⟨_, _, _, _, h⟩
  · exact h
  · cases h
  · cases h

theorem Wf.plain_of_drop {i : Fin n} {t : Pc n} (h : Wf (.drop i t)) : t.Plain := by
  rcases h with h | ⟨_, _, _, h⟩ | ⟨_, _, _, _, h⟩
  · exact h
  · cases h
  · cases h

theorem uses_subset_refs (pc : Pc n) : pc.uses ⊆ pc.refs := by
  cases pc <;> first | exact List.Subset.refl _ | exact List.subset_cons_self _ _

end Pc

namespace Caller

variable (k : Caller n) (ip : Fin n) (name : Bytes)

theorem refs_fail : k.fail.refs = k.refs := by cases k <;> rfl

theorem locks_fail : k.fail.locks = [] := by cases k <;> rfl

theorem linking_fail : k.fail.linking = k.linking := by cases k <;> rfl

theorem unlinking_fail : k.fail.unlinking = none := by cases k <;> rfl

theorem count_refs_found (i : Fin n) :
    (k.found ip name).refs.count i = (ip :: k.refs).count i := by
  cases k <;> first | rfl | exact (List.Perm.swap _ _ []).count_eq i

theorem mem_uses_found {i : Fin n} : i ∈ (k.found ip name).uses ↔ i = ip ∨ i ∈ k.refs := by
  cases k <;> simp [Caller.found, Pc.uses, Pc.refs, Caller.refs, or_comm]

theorem locks_found : (k.found ip name).locks = [] := by cases k <;> rfl

theorem linking_found : (k.found ip name).linking = k.linking := by cases k <;> rfl

theorem unlinking_found : (k.found ip name).unlinking = none := by cases k <;> rfl

theorem plain_fail : k.fail.Plain := by cases k <;> trivial

theorem plain_found : (k.found ip name).Plain := by cases k <;> trivial

end Caller

namespace FsProc

/-- How many references to `i` a process holds. -/
def holds (x : FsProc n) (i : Fin n) : ℕ := x.cwd.toList.count i + x.pc.refs.count i

def uses (x : FsProc n) : List (Fin n) := x.cwd.toList ++ x.pc.uses

end FsProc

namespace Fs

variable (s : Fs n) (p : Fin nproc)

/-- How many open files refer to `i`. -/
def opened (i : Fin n) : ℕ := ∑ f, if 0 < (s.file f).ref ∧ (s.file f).ip = i then 1 else 0

def OpenAt (i : Fin n) : Prop := ∃ f, 0 < (s.file f).ref ∧ (s.file f).ip = i

/-- The directory and the name that the next section of `p` gives to `dirlookup`. -/
def looksUp : Option (Fin n × Bytes) :=
  match (s.proc p).pc with
  | .walk k ip path =>
    match skipelem path with
    | none => none
    | some (name, rest) => if k.parent ∧ rest = [] then none else some (ip, name)
  | .linkDir _ dp name | .createDir _ dp name => some (dp, name)
  | .unlinkDir dp name => if Proper name then some (dp, name) else none
  | _ => none

/-- The directory that the next section of `p` writes an entry to. -/
def addsTo : Option (Fin n) :=
  match (s.proc p).pc with
  | .linkDir _ dp name => if ((s.inode dp).dirlookup name).isNone then some dp else none
  | .createNew _ dp _ _ => some dp
  | _ => none

/-- What `p` uses after a step it used before, or took over from an open file, or is `new`; and a
file is open for an inode that was open before or that `p` used. -/
structure Grows (s' : Fs n) (new : Fin n → Prop) : Prop where
  uses : ∀ i ∈ (s'.proc p).uses, i ∈ (s.proc p).uses ∨ s.OpenAt i ∨ new i
  files : ∀ i, s'.OpenAt i → s.OpenAt i ∨ i ∈ (s.proc p).uses

/-- The current directory of a process that is not in a call. -/
def IdleCwd (i : Fin n) : Prop :=
  ∃ q r, (s.proc q).pc = .ret r ∧ (s.proc q).cwd = some i

/-- A section on `i` may start: the lock is free and the inode can be read. -/
structure Ready (i : Fin n) : Prop where
  lock : s.lock i = none
  type : s.valid i = true ∨ (s.inode i).type ≠ none

/-- How a step of `p` changes the inodes. -/
inductive Effect [NeZero n] (s' : Fs n) : Prop
  | quiet (inode : s'.inode = s.inode)
      (grows : s.Grows p s' fun i ↦ i = rootino ∨ s.IdleCwd i)
      (linking : (s'.proc p).pc.linking = (s.proc p).pc.linking)
      (unlinking : (s'.proc p).pc.unlinking = (s.proc p).pc.unlinking)
      (plain : (s'.proc p).pc.Plain)
  | found (d : Fin n) (off : ℕ) (e : Dirent n) (inode : s'.inode = s.inode)
      (look : s.looksUp p = some (d, e.name)) (dir : (s.inode d).type = some .dir)
      (lock : s.lock d = none) (use : d ∈ (s.proc p).uses)
      (slot : (s.inode d).ents[off]? = some (some e))
      (grows : s.Grows p s' (· = e.inum))
      (linking : (s'.proc p).pc.linking = (s.proc p).pc.linking)
      (unlinking : (s'.proc p).pc.unlinking = (s.proc p).pc.unlinking)
      (next : (s'.proc p).pc.Plain ∨
        (s'.proc p).pc = .unlinkIp d e.inum off ∧ Proper e.name)
  | alloc (m : Make) (d : Fin n) (name : Bytes) (i : Fin n)
      (pc : (s.proc p).pc = .createDir m d name) (lock : s.lock d = none)
      (dir : (s.inode d).type = some .dir) (absent : (s.inode d).dirlookup name = none)
      (free : (s.inode i).type = none) (inode : s'.inode = s.inode.ialloc i m.type)
      (proc : s'.proc p = (s.proc p).goto (.createNew m d name i)) (file : s'.file = s.file)
  | create (full : Bool) (m : Make) (d : Fin n) (name : Bytes) (i : Fin n)
      (pc : (s.proc p).pc = .createNew m d name i) (lock : s.lock i = none)
      (inode : entered full s.inode m d name i = .ok s'.inode)
      (proc : s'.proc p = (s.proc p).goto (.iput d (.created m i))) (file : s'.file = s.file)
  | raise (i : Fin n) (new : Bytes) (pc : (s.proc p).pc = .linkLock i new) (ready : s.Ready i)
      (type : (s.inode i).type ≠ some .dir) (inode : s'.inode = s.inode.addLink i 1)
      (proc : s'.proc p = (s.proc p).goto (.namex (.linkNew i) new)) (file : s'.file = s.file)
  | link (full : Bool) (i d : Fin n) (name : Bytes) (pc : (s.proc p).pc = .linkDir i d name)
      (lock : s.lock d = none) (dir : (s.inode d).type = some .dir)
      (absent : (s.inode d).dirlookup name = none)
      (inode : s.inode.writeEntry full d name i = .ok s'.inode)
      (proc : s'.proc p = (s.proc p).goto (.iput d (.iput i (.ret 0))))
      (file : s'.file = s.file)
  | lower (i : Fin n) (pc : (s.proc p).pc = .linkBad i) (lock : s.lock i = none)
      (inode : s'.inode = s.inode.addLink i (-1))
      (proc : s'.proc p = (s.proc p).goto (.iput i (.ret (-1)))) (file : s'.file = s.file)
  | erase (d i : Fin n) (off : ℕ) (pc : (s.proc p).pc = .unlinkIp d i off) (lock : s.lock i = none)
      (nlink : 1 ≤ (s.inode i).nlink)
      (empty : (s.inode i).type = some .dir → (s.inode i).isdirempty)
      (inode : s'.inode = erased s.inode d i off)
      (proc : s'.proc p = (s.proc p).goto (.iput d (.unlinkDec i))) (file : s'.file = s.file)
  | dec (i : Fin n) (pc : (s.proc p).pc = .unlinkDec i) (inode : s'.inode = s.inode.addLink i (-1))
      (proc : s'.proc p = (s.proc p).goto (.iput i (.ret 0))) (file : s'.file = s.file)
  | free (i : Fin n) (t : Pc n) (pc : (s.proc p).pc = .iput i t) (lock : s.lock i = none)
      (nlink : (s.inode i).nlink = 0) (ref : s.ref i = 1) (inode : s'.inode = s.inode.ifree i)
      (proc : s'.proc p = (s.proc p).goto (.drop i t)) (file : s'.file = s.file)

/-- Everything that a step of `p` from `s` to `s'` did. -/
structure Did [NeZero n] (s' : Fs n) : Prop where
  others : ∀ q, q ≠ p → s'.proc q = s.proc q
  ref : ∀ i, s'.ref i + ((s.proc p).holds i + s.opened i)
    = s.ref i + ((s'.proc p).holds i + s'.opened i)
  held : ∀ i ∈ (s'.proc p).pc.locks,
    s'.lock i = some p ∨ i ∈ (s.proc p).pc.locks ∧ s'.lock i = s.lock i
  freed : ∀ i, i ∉ (s'.proc p).pc.locks →
    s'.lock i = if i ∈ (s.proc p).pc.locks then none else s.lock i
  locked : ∀ i ∈ (s'.proc p).pc.locks, i ∈ (s.proc p).pc.locks ∨ s.lock i = none
  valid : ∀ i, s'.valid i = true → (s'.inode i).type = none →
    s.valid i = true ∧ (s.inode i).type = none
  effect : s.Effect p s'

/-- A process gives up its current directory only to leave. -/
def Stays (s' : Fs n) : Prop := (s'.proc p).cwd = none →
  (s.proc p).cwd = none ∧ ((s.proc p).pc.Leaving → (s'.proc p).pc.Leaving) ∨
    (s'.proc p).pc.Leaving

/-- What is known of a section of `p`. Where `ilock` misses a type, `p` uses an inode without
one. -/
abbrev Runs [NeZero n] : Except FsStop (Fs n) → Prop :=
  Outcome (fun s' ↦ s.Did p s' ∧ s.Stays p s') fun e ↦ e = .panic .ilockNoType →
    ∃ i ∈ (s.proc p).pc.uses, (s.inode i).type = none

end Fs

/-! ## Small steps inside a section -/

namespace Outcome

variable {α : Type} {n : ℕ} {s : Fs n} {i d : Fin n} {P : α → Prop} {E : FsStop → Prop}
  {f : Fs n → Except FsStop α} {full : Bool} {name : Bytes}

theorem ilock (hpanic : E (.panic .ilock)) (hblocked : s.lock i ≠ none → E .blocked)
    (htype : (s.inode i).type = none → E (.panic .ilockNoType))
    (h : s.Ready i → Outcome P E (f (s.load i))) : Outcome P E (s.ilock i >>= f) := by
  rw [Fs.ilock]
  split_ifs with _ hlock hty
  · exact .error hpanic
  · exact .error (hblocked (Option.isSome_iff_ne_none.mp hlock))
  · rw [Bool.and_eq_true, Option.isNone_iff_eq_none] at hty
    exact .error (htype hty.2)
  · refine h ⟨by simpa using hlock, ?_⟩
    rw [Bool.and_eq_true, not_and_or, Bool.not_eq_true, Bool.not_eq_false'] at hty
    exact hty.imp_right fun hty hnone ↦ hty (Option.isNone_iff_eq_none.mpr hnone)

theorem iget (hpanic : E (.panic .igetNoInodes)) (h : Outcome P E (f (s.got i))) :
    Outcome P E (s.iget i >>= f) := by
  rw [Fs.iget]
  split_ifs
  · exact .error hpanic
  · exact h

theorem writeEntry {I : Inodes n} (h₁ : E (.panic .dirlink)) (h₂ : E (.panic .ballocOutOfBlocks)) :
    Outcome (· = I.addEntry d name i) E (I.writeEntry full d name i) := by
  rw [Inodes.writeEntry]
  split_ifs
  · exact .ok rfl
  · exact .error h₁
  · exact .error h₂
  · exact .ok rfl

theorem dirlink {I : Inodes n} {why : FsPanic} (h₁ : E (.panic .dirlink))
    (h₂ : E (.panic .ballocOutOfBlocks))
    (h₃ : (I d).type ≠ some .dir → E (.panic .dirlookupNotDir))
    (h₄ : (I d).dirlookup name ≠ none → E (.panic why)) :
    Outcome (· = I.addEntry d name i) E (I.dirlink why full d name i) := by
  rw [Inodes.dirlink]
  split_ifs with hdir hfind
  · exact .error (h₃ hdir)
  · exact .error (h₄ (Option.isSome_iff_ne_none.mp hfind))
  · exact writeEntry h₁ h₂

end Outcome

namespace Fs

variable {s s₁ s' : Fs n} {p : Fin nproc} {i : Fin n}

theorem valid_of_load (hr : s.Ready i) (j : Fin n) (hv : (s.load i).valid j = true)
    (ht : (s.inode j).type = none) : s.valid j = true := by
  by_cases hj : j = i
  · subst hj
    exact hr.type.resolve_right fun h ↦ h ht
  · rw [load] at hv
    dsimp only at hv
    rwa [update_of_ne hj] at hv

theorem valid_of_got (j : Fin n) (hv : (s.got i).valid j = true) : s.valid j = true := by
  rw [got] at hv
  dsimp only at hv
  split_ifs at hv
  · by_cases hj : j = i
    · rw [hj, update_self] at hv
      cases hv
    · rwa [update_of_ne hj] at hv
  · exact hv

@[simp] theorem proc_setPc (pc : Pc n) :
    (s.setPc p pc).proc p = (s.proc p).goto pc := update_self ..

theorem proc_setPc_of_ne (pc : Pc n) {q : Fin nproc} (h : q ≠ p) :
    (s.setPc p pc).proc q = s.proc q := update_of_ne h ..

theorem valid_of_types {I : Inodes n} (hr : s.Ready i) (htype : ∀ j, (I j).type = (s.inode j).type)
    (j : Fin n) (hv : (s.load i).valid j = true) (ht : (I j).type = none) :
    s.valid j = true ∧ (s.inode j).type = none := by
  rw [htype] at ht
  exact ⟨valid_of_load hr j hv ht, ht⟩

theorem mem_uses_of_pc {x : FsProc n} {i : Fin n} (h : i ∈ x.pc.uses) : i ∈ x.uses :=
  List.mem_append_right _ h

theorem mem_uses {pc₀ : Pc n} (hpc : (s.proc p).pc = pc₀) (h : i ∈ pc₀.uses) :
    i ∈ (s.proc p).uses := mem_uses_of_pc (hpc ▸ h)

section Move

variable [NeZero n] {pc pc₀ : Pc n}

theorem Did.of_setPc (hpc : (s.proc p).pc = pc₀) (hproc : s₁.proc = s.proc)
    (hfile : s₁.file = s.file)
    (href : ∀ i, s₁.ref i + pc₀.refs.count i = s.ref i + pc.refs.count i)
    (hheld : ∀ i ∈ pc.locks, s₁.lock i = some p ∨ i ∈ pc₀.locks ∧ s₁.lock i = s.lock i)
    (hfreed : ∀ i, i ∉ pc.locks → s₁.lock i = if i ∈ pc₀.locks then none else s.lock i)
    (hlocked : ∀ i ∈ pc.locks, i ∈ pc₀.locks ∨ s.lock i = none)
    (hvalid : ∀ i, s₁.valid i = true → (s₁.inode i).type = none →
      s.valid i = true ∧ (s.inode i).type = none)
    (heffect : s.Effect p (s₁.setPc p pc)) : s.Did p (s₁.setPc p pc) where
  others q hq := by rw [proc_setPc_of_ne pc hq, hproc]
  ref i := by
    have hopened : (s₁.setPc p pc).opened i = s.opened i := by
      rw [opened, opened, setPc]
      simp only [hfile]
    have hi := href i
    rw [hopened, proc_setPc, FsProc.holds, FsProc.holds, hproc, hpc]
    simp only [setPc, FsProc.goto] at hi ⊢
    omega
  held := by
    rw [proc_setPc, hpc]
    exact hheld
  freed := by
    rw [proc_setPc, hpc]
    exact hfreed
  locked := by
    rw [proc_setPc, hpc]
    exact hlocked
  valid := hvalid
  effect := heffect

end Move

/-- `s₁` differs from `s` in reference counts and in what is cached. -/
structure Near (s s₁ : Fs n) : Prop where
  proc : s₁.proc = s.proc
  file : s₁.file = s.file
  inode : s₁.inode = s.inode
  lock : s₁.lock = s.lock
  valid : ∀ i, s₁.valid i = true → (s.inode i).type = none → s.valid i = true

theorem Near.refl (s : Fs n) : Near s s := ⟨rfl, rfl, rfl, rfl, fun _ h _ ↦ h⟩

theorem Near.load (hr : s.Ready i) : Near s (s.load i) :=
  ⟨rfl, rfl, rfl, rfl, valid_of_load hr⟩

theorem Near.idup (h : Near s s₁) (i : Fin n) : Near s (s₁.idup i) :=
  ⟨h.proc, h.file, h.inode, h.lock, h.valid⟩

theorem Near.decRef (h : Near s s₁) (i : Fin n) : Near s (s₁.decRef i) :=
  ⟨h.proc, h.file, h.inode, h.lock, h.valid⟩

theorem Near.got (h : Near s s₁) (i : Fin n) : Near s (s₁.got i) :=
  ⟨h.proc, h.file, h.inode, h.lock, fun j hv ht ↦ h.valid j (valid_of_got j hv) ht⟩

theorem ref_got (s : Fs n) (i j : Fin n) : (s.got i).ref j = s.ref j + [i].count j := by
  rw [got]
  dsimp only
  by_cases hj : j = i
  · rw [hj, update_self, List.count_singleton_self]
  · rw [update_of_ne hj, List.count_eq_zero.mpr (by simpa using hj), Nat.add_zero]

theorem ref_idup (s : Fs n) (i j : Fin n) : (s.idup i).ref j = s.ref j + [i].count j :=
  ref_got s i j

theorem Grows.of_setPc {pc : Pc n} {new : Fin n → Prop} (hproc : s₁.proc = s.proc)
    (hfile : s₁.file = s.file) (h : ∀ i ∈ pc.uses, i ∈ (s.proc p).uses ∨ new i) :
    s.Grows p (s₁.setPc p pc) new where
  uses i hi := by
    rw [proc_setPc, FsProc.uses, hproc, List.mem_append] at hi
    rcases hi with hi | hi
    · exact .inl (List.mem_append_left _ hi)
    · exact (h i hi).imp_right .inr
  files i hi := by
    obtain ⟨f, hf⟩ := hi
    exact .inl ⟨f, hfile ▸ hf⟩

/-- `pc` stands for the same locks and link counts as `pc₀`. -/
structure Pc.Like (pc₀ pc : Pc n) : Prop where
  locks : pc.locks = pc₀.locks
  linking : pc.linking = pc₀.linking
  unlinking : pc.unlinking = pc₀.unlinking
  plain : pc.Plain

section Near

variable [NeZero n] {pc pc₀ : Pc n}

theorem Did.of_near (hpc : (s.proc p).pc = pc₀) (h : Near s s₁)
    (href : ∀ i, s₁.ref i + pc₀.refs.count i = s.ref i + pc.refs.count i)
    (hlocks : pc.locks = pc₀.locks) (heffect : s.Effect p (s₁.setPc p pc)) :
    s.Did p (s₁.setPc p pc) := by
  refine .of_setPc hpc h.proc h.file href (fun i hi ↦ .inr ⟨hlocks ▸ hi, congrFun h.lock i⟩)
    (fun i hi ↦ ?_) (fun i hi ↦ .inl (hlocks ▸ hi)) (fun i hv ht ↦ ?_) heffect
  · rw [h.lock, ← hlocks, if_neg hi]
  · rw [h.inode] at ht
    exact ⟨h.valid i hv ht, ht⟩

theorem Effect.of_quiet (hpc : (s.proc p).pc = pc₀) (hproc : s₁.proc = s.proc)
    (hfile : s₁.file = s.file) (hinode : s₁.inode = s.inode)
    (huses : ∀ i ∈ pc.uses, i ∈ (s.proc p).uses ∨ i = rootino)
    (hlink : pc.linking = pc₀.linking) (hunlink : pc.unlinking = pc₀.unlinking)
    (hplain : pc.Plain) : s.Effect p (s₁.setPc p pc) := by
  refine .quiet hinode ?_ ?_ ?_ ?_
  · exact .of_setPc hproc hfile fun i hi ↦ (huses i hi).imp_right .inl
  all_goals
    rw [proc_setPc]
    try rw [hpc]
    assumption

theorem Did.quiet (hpc : (s.proc p).pc = pc₀) (h : Near s s₁)
    (href : ∀ i, s₁.ref i + pc₀.refs.count i = s.ref i + pc.refs.count i)
    (huses : ∀ i ∈ pc.uses, i ∈ (s.proc p).uses ∨ i = rootino) (hlike : Pc.Like pc₀ pc) :
    s.Did p (s₁.setPc p pc) :=
  .of_near hpc h href hlike.locks (.of_quiet hpc h.proc h.file h.inode huses hlike.linking
    hlike.unlinking hlike.plain)

end Near

end Fs

end OperatingSystems
