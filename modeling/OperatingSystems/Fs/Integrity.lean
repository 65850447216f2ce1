import OperatingSystems.Fs.Orphans

/-!
# The integrity of the file system

Whatever way a call takes, it gives back the locks and the references that it took. The directories
form a tree, also when the machine crashes.
-/

namespace OperatingSystems

namespace Fs

variable {n : ℕ} [NeZero n] {s : Fs n}

omit [NeZero n] in
theorem Quiescent.idle (hq : s.Quiescent) (p : Fin nproc) : Pc.Idle (s.proc p).pc := by
  rcases hq p with ⟨r, hpc⟩ | hpc <;> rw [hpc]
  · exact Pc.idle_ret r
  · exact Pc.idle_dead

/-- **Nothing is leaked.** In every run, whenever no call is in progress, no inode is locked, and
its reference count is the number of processes that have it as current directory and of open files
on it. -/
theorem ref_eq_of_quiescent (h : (fileSystem n).Reachable s) (hq : s.Quiescent) (i : Fin n) :
    s.lock i = none ∧ s.ref i = (Finset.univ.filter fun p ↦ (s.proc p).cwd = some i).card +
      (Finset.univ.filter fun f ↦ 0 < (s.file f).ref ∧ (s.file f).ip = i).card := by
  have hbase := base_of_reachable h
  constructor
  · by_contra hlock
    obtain ⟨p, hp⟩ := Option.ne_none_iff_exists'.mp hlock
    have hmem := (hbase.lock i p).mp hp
    rw [(hq.idle p).locks] at hmem
    cases hmem
  · have hcwd : ∀ p, (s.proc p).holds i = if (s.proc p).cwd = some i then 1 else 0 := fun p ↦ by
      rw [FsProc.holds, (hq.idle p).refs, List.count_nil, Nat.add_zero]
      cases (s.proc p).cwd with
      | none => rfl
      | some j =>
        rw [Option.toList_some, List.count_singleton]
        simp only [beq_iff_eq, Option.some.injEq]
    rw [hbase.ref i, Finset.sum_congr rfl fun p _ ↦ hcwd p, Finset.card_filter, Finset.card_filter,
      opened]

/-- The first process makes a directory, changes into it, creates a file there, opens it once more
and forks: two processes have the directory as current directory, and two open files are on the
file. -/
theorem ref_eq_of_quiescent_chdir : ∃ s : Fs 199, s.Quiescent ∧
    (s.proc 0).cwd = some 1 ∧ (s.proc 1).cwd = some 1 ∧ s.ref 1 = 2 ∧ s.ref 2 = 2 ∧
    ∀ i, s.lock i = none ∧ s.ref i = (Finset.univ.filter fun p ↦ (s.proc p).cwd = some i).card +
      (Finset.univ.filter fun f ↦ 0 < (s.file f).ref ∧ (s.file f).ip = i).card := by
  obtain ⟨s, hs, hend⟩ := Machine.exists_reachable_of_run (M := fileSystem 199)
    (script 0 (.mkdir [97]) 9 ++ script 0 (.chdir [97]) 8 ++ script 0 (.open [98] oCreate) 7 ++
      script 0 (.open [98] 0) 6 ++ script 0 (.fork 1) 0)
    (fun s ↦ s.Quiescent ∧ (s.proc 0).cwd = some 1 ∧ (s.proc 1).cwd = some 1 ∧
      s.ref 1 = 2 ∧ s.ref 2 = 2)
    ⟨Inodes.mkfs, Inodes.consistent_mkfs, rfl⟩ (by decide +kernel)
  obtain ⟨hq, hcwd, hcwd', hdir, hfile⟩ := of_decide_eq_true hend
  exact ⟨s, hq, hcwd, hcwd', hdir, hfile, ref_eq_of_quiescent hs hq⟩

end Fs

namespace Journaled

variable {n : ℕ} [NeZero n] {s : Journaled n}

/-- **The directories form a tree**, at every moment and after any crashes. What an entry names is
allocated and can be reached from the root. A directory other than the root that can be reached has
one entry in one directory, which is its `".."`. One that cannot be reached is empty. -/
theorem tree_of_reachable (h : (journaled n).ReachableUnder Careful s) :
    (∀ d e, s.fs.inode.Names d e →
      (s.fs.inode e.inum).type ≠ none ∧ s.fs.inode.Reach e.inum) ∧
    (∀ i, (s.fs.inode i).type = some .dir → s.fs.inode.Reach i → i ≠ rootino →
      ∃ d, s.fs.inode.Reach d ∧ s.fs.inode.Dots i d (s.fs.inode d).gen ∧
        ∀ x, Slots.count (·.names i) (s.fs.inode x).ents = if x = d then 1 else 0) ∧
    ∀ d, ¬s.fs.inode.Reach d → ∀ e, ¬s.fs.inode.Names d e := by
  obtain ⟨hsound, hrooted, -⟩ := inv_of_reachable h
  have htree := hsound.tree
  refine ⟨fun d e he ↦ ⟨(htree.target d e he).1, hrooted _ (.inr ⟨d, e, he, rfl⟩)⟩,
    fun i hdir hreach hroot ↦ ?_, fun d hd ↦ htree.bare d fun hlive ↦ hd (hrooted d hlive)⟩
  obtain ⟨d, e, he, rfl⟩ := hreach.live.resolve_left hroot
  have hdots := (htree.target d e he).2.2 hdir
  refine ⟨d, hrooted d (htree.live_of_names he), hdots, fun x ↦ ?_⟩
  split_ifs with hx
  · rw [hx]
    exact le_antisymm (htree.once _ d hdir)
      (Slots.count_pos_iff.mpr ⟨e, he.1, Inodes.names_iff.mpr ⟨he.2, rfl⟩⟩)
  · -- another directory that named it would be its parent as well
    refine Slots.count_eq_zero_iff.mpr fun e' he' ↦ Bool.eq_false_iff.mpr fun hnames ↦ hx ?_
    obtain ⟨hproper, hinum⟩ := Inodes.names_iff.mp hnames
    have hdots' := (htree.target x e' ⟨he', hproper⟩).2.2 (hinum ▸ hdir)
    exact Inodes.Dots.par_eq (hinum ▸ hdots') hdots

/-- A process makes a directory, and the machine crashes. -/
theorem tree_of_reachable_mkdir : ∃ s : Journaled 199, (s.disk 1).type = some .dir ∧
    ∀ d, ¬s.fs.inode.Reach d → ∀ e, ¬s.fs.inode.Names d e := by
  obtain ⟨s, hs, hend⟩ := Machine.exists_reachableUnder_of_run (M := journaled 199) (G := Careful)
    ((Fs.script 0 (.mkdir [97]) 9).map .fs ++ [.commit, .crash])
    (fun s ↦ (s.disk 1).type = some .dir) ⟨Inodes.mkfs, Inodes.consistent_mkfs, rfl⟩
    (by decide +kernel)
  exact ⟨s, of_decide_eq_true hend, (tree_of_reachable hs).2.2⟩

end Journaled

end OperatingSystems
