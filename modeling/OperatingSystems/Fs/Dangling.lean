import OperatingSystems.Fs.Links

/-!
# Lookups find allocated inodes

In a careful run, an entry that `dirlookup` returns names an allocated inode that has not been freed
since the entry was written, `ilock` does not find an inode without type, and an inode stays the
same for as long as a process uses it.
-/

namespace OperatingSystems

open Function

namespace Fs

variable {n : ℕ} {s s' s₁ : Fs n} {p : Fin nproc} {i : Fin n}

/-! ## An inode in use is not replaced -/

variable [NeZero n]

theorem Base.gen_of_uses (h : s.Base) (hd : s.Did p s') {q : Fin nproc} (hi : i ∈ (s.proc q).uses)
    (hi' : i ∈ (s'.proc q).uses) : (s'.inode i).gen = (s.inode i).gen := by
  cases hd.effect.touched i with
  | same hi => rw [hi]
  | changed _ _ hgen => exact hgen
  | allocated _ hgen => exact hgen
  | freed t hpc _ href hproc =>
    obtain ⟨ht, hcwd, hothers, -⟩ := h.sole_user hpc href
    by_cases hq : q = p
    · rw [hq, hproc] at hi'
      rcases List.mem_append.mp hi' with hi' | hi'
      · exact absurd (Option.mem_toList.mp hi') hcwd
      · exact absurd hi' ht
    · exact absurd (hothers q hq) (holds_pos_of_uses hi).ne'

/-! ## Lookups -/

theorem Sound.hasType_act (h : s.Sound) (a : FsAct) : s.act a ≠ .error (.panic .ilockNoType) := by
  intro ha
  obtain ⟨p, hr, -⟩ := h.base.runs_act a
  obtain ⟨i, hi, hnone⟩ := hr.of_error ha rfl
  exact h.used p i (mem_uses_of_pc hi) hnone

/-- **No dangling entries.** In a run in which no `".."` is looked up in a directory without links
and no entry is written to one: what a lookup finds in a directory that it has locked is allocated
and has not been freed since the entry was written; `ilock` finds a type; and what a process goes on
using is not replaced by another inode of the same number. -/
theorem lookup_alive (h : (fileSystem n).ReachableUnder Careful s) (a : FsAct) (hg : s.Careful a) :
    (∀ p full d name off e, a = .go p full → s.looksUp p = some (d, name) → s.lock d = none →
      (s.inode d).dirlookup name = some (off, e) →
        (s.inode e.inum).type ≠ none ∧ (s.inode e.inum).gen = e.gen) ∧
    s.act a ≠ .error (.panic .ilockNoType) ∧
    ∀ s', s.act a = .ok s' → ∀ q i, i ∈ (s.proc q).uses → i ∈ (s'.proc q).uses →
      (s'.inode i).gen = (s.inode i).gen := by
  have hs := sound_of_reachable h
  refine ⟨fun p full d name off e ha hlook hlock hfind ↦ ?_, hs.hasType_act a,
    fun s' ha q i hi hi' ↦ ?_⟩
  · subst ha
    obtain ⟨hslot, rfl⟩ := slot_of_dirlookup hfind
    have hdir := hs.tree.dir_of_mem (List.mem_of_getElem? hslot)
    obtain ⟨hty, hgen, -⟩ := hs.found_alive hg hlook hdir hlock hslot
    exact ⟨hty, hgen⟩
  · obtain ⟨p, hd, -⟩ := hs.base.exists_did ha
    exact hs.base.gen_of_uses hd hi hi'

theorem lookup_alive_chdir : ∃ s : Fs 199, (fileSystem 199).ReachableUnder Careful s ∧
    s.looksUp 0 = some (0, [97]) ∧ ∃ e, (s.inode 0).dirlookup [97] = some (2, e) ∧
      (s.inode e.inum).type ≠ none ∧ (s.inode e.inum).gen = e.gen := by
  obtain ⟨s, hs, hend⟩ := Machine.exists_reachableUnder_of_run (M := fileSystem 199) (G := Careful)
    (script 0 (.mkdir [97]) 9 ++ script 0 (.chdir [97]) 1)
    (fun s ↦ s.looksUp 0 = some (0, [97]) ∧ s.lock 0 = none ∧
      ((s.inode 0).dirlookup [97]).map Prod.fst = some 2 ∧ s.CarefulAt 0)
    ⟨Inodes.mkfs, Inodes.consistent_mkfs, rfl⟩ (by decide +kernel)
  obtain ⟨hlook, hlock, hfind, hg⟩ := of_decide_eq_true hend
  obtain ⟨⟨off, e⟩, hfind, rfl⟩ := Option.map_eq_some_iff.mp hfind
  exact ⟨s, hs, hlook, e, hfind,
    (lookup_alive hs (.go 0 false) hg).1 0 false 0 [97] _ e rfl hlook hlock hfind⟩

/-- On an empty file system, a process makes `a` and `a/b`, changes into `a/b`, and removes both by
their absolute paths. The inode of `a` is free then, and `chdir("..")` finds its number. -/
theorem exists_ilock_no_type : ∃ s : Fs 199, (fileSystem 199).Reachable s ∧
    s.act (.go 0 false) = .error (.panic .ilockNoType) := by
  obtain ⟨s, hs, hend⟩ := Machine.exists_reachable_of_run (M := fileSystem 199)
    (script 0 (.mkdir [97]) 9 ++ script 0 (.mkdir [97, 47, 98]) 12 ++
      script 0 (.chdir [97, 47, 98]) 11 ++ script 0 (.unlink [47, 97, 47, 98]) 12 ++
      script 0 (.unlink [47, 97]) 9 ++ script 0 (.chdir dotdot) 5)
    (fun s ↦ match s.act (.go 0 false) with
      | .ok _ => false
      | .error e => e = .panic .ilockNoType)
    ⟨Inodes.mkfs, Inodes.consistent_mkfs, rfl⟩ (by decide +kernel)
  refine ⟨s, hs, ?_⟩
  cases hgo : s.act (.go 0 false) with
  | ok t => rw [hgo] at hend; cases hend
  | error e => rw [hgo] at hend; rw [of_decide_eq_true hend]

end Fs

end OperatingSystems
