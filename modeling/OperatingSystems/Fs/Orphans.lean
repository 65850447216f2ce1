import OperatingSystems.Fs.Links

/-!
# Crashes and orphaned inodes

The file system with its log, and with crashes. Every call is a transaction: what it changes reaches
the disk when the log commits, which it does when no call is in progress, and all at once. A crash
loses the memory of the kernel; recovery brings back the inodes of the last commit, and a new kernel
boots from them. It does not look for inodes that nobody can free any more.

`unlink` removes the name of an inode that is still open, and the last `iput` frees it in another
transaction. A crash between the two leaves an inode that is allocated and has no name. This is the
only way in which one gets lost: after a crash, the allocated inodes that have a name in the tree
are those whose link count is not zero.
-/

namespace OperatingSystems

open Function

namespace Inodes

variable {n off : ℕ} [NeZero n] {I I' : Inodes n} {d i x : Fin n} {e : Dirent n}

/-! ## What a path can reach -/

/-- Everything that has a name can be reached from the root. -/
def Rooted (I : Inodes n) : Prop := ∀ i, I.Live i → I.Reach i

theorem Reach.live (h : I.Reach i) : I.Live i := by
  cases h with
  | root => exact .inl rfl
  | step _ he => exact .inr ⟨_, _, he, rfl⟩

theorem Reach.mono (hnames : ∀ d e, I.Names d e → I'.Names d e) (h : I.Reach i) : I'.Reach i := by
  induction h with
  | root => exact .root
  | step _ he ih => exact .step ih (hnames _ _ he)

theorem Consistent.rooted (h : I.Consistent) : I.Rooted := fun i hi ↦
  h.reach i fun hnone ↦ h.tree.not_live_of_free hnone hi

theorem Rooted.congr (h : I.Rooted) (hnames : ∀ d e, I'.Names d e ↔ I.Names d e) : I'.Rooted := by
  intro i hi
  refine (h i (hi.imp_right ?_)).mono fun d e ↦ (hnames d e).mpr
  rintro ⟨x, e, he, rfl⟩
  exact ⟨x, e, (hnames x e).mp he, rfl⟩

theorem Rooted.of_nil (h : I.Rooted) (htree : I.Tree) {v : Inode n} (hlive : ¬I.Live i)
    (hents : v.ents = []) : Rooted (update I i v) := by
  refine h.congr fun d e ↦ ?_
  by_cases hd : d = i
  · subst hd
    refine iff_of_false (fun he ↦ ?_) (htree.bare d hlive e)
    have hmem := he.1
    rw [update_self, hents] at hmem
    cases hmem
  · exact names_congr (by rw [update_of_ne hd])

theorem Rooted.fill {name : Bytes} (h : I.Rooted) (hd : I.Live d) (hp : Proper name) :
    (I.addEntry d name i).Rooted := by
  have hmono : ∀ x, I.Reach x → (I.addEntry d name i).Reach x := fun x ↦
    Reach.mono fun y e he ↦ names_fill.mpr (.inl he)
  intro x hx
  rcases (live_fill hp).mp hx with hx | rfl
  · exact hmono x (h x hx)
  · exact .step (hmono d (h d hd)) (names_fill.mpr (.inr ⟨rfl, rfl, hp⟩))

theorem Reach.clear (htree : I.Tree) (htree' : (I.clearEntry d off).Tree) (h : I.Reach x)
    (hdir : (I x).type = some .dir) (hlive : (I.clearEntry d off).Live x) :
    (I.clearEntry d off).Reach x := by
  induction h with
  | root => exact .root
  | @step y e _ he ih =>
    rcases hlive with hroot | ⟨z, e', he', hinum⟩
    · exact absurd hroot (htree.root_names y e he)
    -- A directory has one parent, so the name that it keeps is in the directory the path comes
    -- from.
    have hyz : z = y := Dots.par_eq ((htree.target z e' (names_of_clear he')).2.2 (hinum ▸ hdir))
      (hinum ▸ (htree.target y e he).2.2 hdir)
    subst hyz
    rw [← hinum]
    exact .step (ih (htree.dir_of_mem he.1) (htree'.live_of_names he')) he'

theorem Rooted.clear (h : I.Rooted) (htree : I.Tree) (htree' : (I.clearEntry d off).Tree) :
    (I.clearEntry d off).Rooted := by
  rintro x (rfl | ⟨y, e, he, rfl⟩)
  · exact .root
  · have hy := htree'.live_of_names he
    have hdir := htree.dir_of_mem (names_of_clear he).1
    exact .step ((h y (live_of_clear hy)).clear htree htree' hdir hy) he

/-- A file system that a kernel can boot from and run on: a tree with the right link counts. There
may be inodes in it that are allocated and have no name. -/
structure Sane (I : Inodes n) : Prop where
  tree : I.Tree
  rooted : I.Rooted
  self : ∀ d e, I.Names d e → e.inum ≠ d
  count : ∀ i, (I i).type ≠ none → (I i).nlink = I.links i
  size : I.dirBlocks ≤ fssize

theorem Sane.reach_iff (h : I.Sane) (hi : (I i).type ≠ none) : I.Reach i ↔ (I i).nlink ≠ 0 := by
  rw [h.count i hi, Nat.cast_ne_zero]
  constructor
  · intro hreach
    exact (h.tree.links_pos hreach.live).ne'
  · intro hlinks
    refine h.rooted i ?_
    by_contra hlive
    exact hlinks (h.tree.links_eq_zero hlive)

end Inodes

namespace Fs

variable {n : ℕ} [NeZero n] {s s' : Fs n} {p : Fin nproc}

theorem rooted_prepared {I : Inodes n} {m : Make} {d i : Fin n} (h : I.Rooted)
    (hents : (I i).ents = []) : (prepared I m d i).Rooted := by
  refine h.congr fun x e ↦ ?_
  rw [prepared]
  split_ifs
  · refine Iff.trans (Inodes.names_congr ?_) (Inodes.names_newDots hents (d := d))
    by_cases hx : x = i
    · rw [hx, Inodes.ents_setEnts_self, Inodes.ents_setEnts_self]
    · rw [Inodes.setEnts_of_ne _ hx, Inodes.setEnts_of_ne _ hx, Inodes.ents_addLink,
        ents_initialised]
  · exact Inodes.names_congr (ents_initialised I m i x)

theorem Sound.rooted_of_did (h : s.Sound) (hd : s.Did p s') (hg : s.CarefulAt p)
    (hr : s.inode.Rooted) : s'.inode.Rooted := by
  cases hd.effect with
  | quiet hinode => rw [hinode]; exact hr
  | found _ _ _ hinode => rw [hinode]; exact hr
  | alloc m d name j _ _ _ _ hfree hinode =>
    rw [hinode]
    exact hr.of_nil h.tree (h.tree.not_live_of_free hfree) rfl
  | create full m d name j hpc _ hinode =>
    have hents := (h.fresh p m d name j hpc).ents
    rw [entered_eq hents hinode]
    exact (rooted_prepared hr hents).fill ((live_prepared hents).mpr (h.live_of_createNew hg hpc))
      (h.proper_of_createNew hg hpc)
  | raise j new _ _ _ hinode =>
    rw [hinode]
    exact hr.congr fun _ _ ↦ Inodes.names_addLink
  | link full j d name hpc hlock hdir habsent hinode =>
    rw [Inodes.eq_of_writeEntry hinode]
    exact hr.fill (h.live_of_linkDir hg hpc hlock hdir habsent)
      (h.proper_of_linkDir hg hpc hdir habsent)
  | lower j _ _ hinode =>
    rw [hinode]
    exact hr.congr fun _ _ ↦ Inodes.names_addLink
  | erase d j off hpc _ _ hempty hinode =>
    obtain ⟨e, hslot, rfl, he⟩ := h.names_of_unlinkIp hpc
    have hclear := hr.clear h.tree (h.tree.clear hslot he.2 (h.not_names_of_isdirempty hempty))
    rw [hinode, erased]
    split_ifs
    · exact hclear.congr fun _ _ ↦ Inodes.names_addLink
    · exact hclear
  | dec j _ hinode =>
    rw [hinode]
    exact hr.congr fun _ _ ↦ Inodes.names_addLink
  | free j t hpc _ hzero _ hinode =>
    rw [hinode]
    refine hr.of_nil h.tree (h.not_live_of_nlink_eq_zero (h.used p j ?_) hzero) rfl
    exact mem_uses_of_pc (by rw [hpc]; exact List.mem_cons_self)

theorem Sound.rooted_of_step (h : s.Sound) {a : FsAct} (hg : s.Careful a) (ha : s.act a = .ok s')
    (hr : s.inode.Rooted) : s'.inode.Rooted := by
  obtain ⟨p, hd, hp⟩ := h.base.exists_careful_did hg ha
  exact h.rooted_of_did hd hp hr

/-! ## Commits and crashes -/

end Fs

/-- Between `begin_op` and `end_op`. The descriptors that `exit` closes are separate operations. -/
def Pc.inOp {n : ℕ} : Pc n → Bool
  | .ret _ | .dead | .exit => false
  | _ => true

theorem Pc.owes_of_not_inOp {n : ℕ} {pc : Pc n} (h : pc.inOp = false) (i : Fin n) :
    pc.owes i = 0 := by
  cases pc with
  | ret | dead | exit => rfl
  | _ => cases h

/-- The file system as the kernel sees it, and the inodes that recovery would find on the disk. -/
structure Journaled (n : ℕ) where
  fs : Fs n
  disk : Inodes n

inductive JournalAct
  | fs (a : FsAct)
  /-- The header of the log is written. -/
  | commit
  /-- The machine stops and boots again; `initlog` recovers from the log. -/
  | crash

namespace Journaled

variable {n : ℕ} [NeZero n]

/-- `commit` runs when the last operation ends, and no other one starts before it is done. -/
def act (s : Journaled n) : JournalAct → Option (Journaled n)
  | .fs a => (s.fs.act a).toOption.map fun fs ↦ { s with fs := fs }
  | .commit =>
      if ∀ p, (s.fs.proc p).pc.inOp = false then some { s with disk := s.fs.inode } else none
  | .crash => some { s with fs := .boot s.disk }

def Careful (s : Journaled n) : JournalAct → Prop
  | .fs a => s.fs.Careful a
  | _ => True

instance (s : Journaled n) (a : JournalAct) : Decidable (s.Careful a) :=
  match a with
  | .fs a => inferInstanceAs (Decidable (s.fs.Careful a))
  | .commit | .crash => inferInstanceAs (Decidable True)

end Journaled

/-- The file system with its log, started from any consistent image. -/
def journaled (n : ℕ) [NeZero n] : Machine (Journaled n) JournalAct where
  init s := ∃ I : Inodes n, I.Consistent ∧ s = ⟨.boot I, I⟩
  step s a := s.act a

namespace Journaled

variable {n : ℕ} [NeZero n] {s s' : Journaled n}

structure Inv (s : Journaled n) : Prop where
  sound : s.fs.Sound
  rooted : s.fs.inode.Rooted
  disk : s.disk.Sane

theorem Inv.of_boot {I : Inodes n} (h : I.Sane) : Inv ⟨.boot I, I⟩ :=
  ⟨.of_image h.tree h.self h.count h.size, h.rooted, h⟩

theorem sane_of_consistent {I : Inodes n} (h : I.Consistent) : I.Sane where
  tree := h.tree
  rooted := h.rooted
  self _ _ := h.self
  count i hi := by rw [h.nlink i hi, Fs.links_of_consistent h, Nat.cast_sum]
  size := h.size

theorem Inv.sane (h : s.Inv) (hop : ∀ p, (s.fs.proc p).pc.inOp = false) : s.fs.inode.Sane where
  tree := h.sound.tree
  rooted := h.rooted
  self := h.sound.base.self
  count i hi := by
    have hpending : s.fs.pending i = 0 :=
      Fs.pending_eq_zero_of fun p ↦ Pc.owes_of_not_inOp (hop p) i
    rw [h.sound.count i hi, hpending, Nat.cast_zero, add_zero]
  size := h.sound.size

theorem Inv.act (h : s.Inv) {a : JournalAct} (hg : s.Careful a) (ha : s.act a = some s') :
    s'.Inv := by
  cases a with
  | fs a =>
    obtain ⟨fs, hfs, rfl⟩ := Option.map_eq_some_iff.mp ha
    have hfs := toOption_eq_some_iff.mp hfs
    exact ⟨h.sound.of_step hg hfs, h.sound.rooted_of_step hg hfs h.rooted, h.disk⟩
  | commit =>
    obtain ⟨hop, hs⟩ := Option.ite_none_right_eq_some.mp ha
    obtain rfl := Option.some.inj hs
    exact ⟨h.sound, h.rooted, h.sane hop⟩
  | crash =>
    obtain rfl := Option.some.inj ha
    exact .of_boot h.disk

theorem inv_of_reachable (h : (journaled n).ReachableUnder Careful s) : s.Inv := by
  refine h.invariant (fun s hs ↦ ?_) fun s a s' _ hI hg hs ↦ hI.act hg hs
  obtain ⟨I, hI, rfl⟩ := hs
  exact .of_boot (sane_of_consistent hI)

/-- **Inodes after a crash.** Let no step look up `".."` in a directory without links or write an
entry to one. Whenever the machine crashes, in the middle of any calls and for the first time or
not, then after the recovery an inode that is allocated has a name that can be reached from the root
if and only if its link count is not zero. -/
theorem reach_iff_after_crash (h : (journaled n).ReachableUnder Careful s)
    (hcrash : (journaled n).step s .crash = some s') (i : Fin n)
    (hi : (s'.fs.inode i).type ≠ none) : s'.fs.inode.Reach i ↔ (s'.fs.inode i).nlink ≠ 0 := by
  obtain rfl := Option.some.inj hcrash
  exact (inv_of_reachable h).disk.reach_iff hi

/-- A process creates a file; the file survives a crash. -/
theorem reach_iff_after_crash_open : ∃ s s' : Journaled 199,
    (journaled 199).ReachableUnder Careful s ∧ (journaled 199).step s .crash = some s' ∧
      (s'.fs.inode 1).type ≠ none ∧ (s'.fs.inode.Reach 1 ↔ (s'.fs.inode 1).nlink ≠ 0) := by
  obtain ⟨s, hs, hend⟩ := Machine.exists_reachableUnder_of_run (M := journaled 199) (G := Careful)
    ((Fs.script 0 (.open [97] oCreate) 7).map .fs ++ [.commit])
    (fun s ↦ (s.disk 1).type ≠ none) ⟨Inodes.mkfs, Inodes.consistent_mkfs, rfl⟩ (by decide +kernel)
  have hi := of_decide_eq_true hend
  exact ⟨s, ⟨.boot s.disk, s.disk⟩, hs, rfl, hi, reach_iff_after_crash hs rfl 1 hi⟩

/-- A process creates a file and removes it while it is open, and then the machine crashes. The
inode of the file is still allocated, and no entry names it. -/
theorem exists_orphan_after_crash : ∃ s s' : Journaled 199, (journaled 199).Reachable s ∧
    (journaled 199).step s .crash = some s' ∧
      ∃ i, (s'.fs.inode i).type ≠ none ∧ ¬s'.fs.inode.Reach i := by
  obtain ⟨s, hs, hend⟩ := Machine.exists_reachable_of_run (M := journaled 199)
    ((Fs.script 0 (.open [97] oCreate) 7).map .fs ++ [.commit] ++
      (Fs.script 0 (.unlink [97]) 9).map .fs ++ [.commit])
    (fun s ↦ (s.disk 1).type ≠ none ∧ ∀ d, Slots.count (·.names 1) (s.disk d).ents = 0)
    ⟨Inodes.mkfs, Inodes.consistent_mkfs, rfl⟩ (by decide +kernel)
  obtain ⟨hi, hnone⟩ := of_decide_eq_true hend
  refine ⟨s, ⟨.boot s.disk, s.disk⟩, hs, rfl, 1, hi, fun hreach ↦ ?_⟩
  rcases hreach.live with hroot | ⟨d, e, he, hinum⟩
  · exact absurd hroot (by decide)
  · have hcount := Slots.count_eq_zero_iff.mp (hnone d) e he.1
    rw [Inodes.names_iff.mpr ⟨he.2, hinum⟩] at hcount
    cases hcount

end Journaled

end OperatingSystems
