import Mathlib.Algebra.BigOperators.Ring.Finset
import OperatingSystems.Fs.Base
import OperatingSystems.Fs.Tree

/-!
# Link counts while calls are in progress

`Sound` extends the tree of a consistent image to the states in between: every inode that is in use
is allocated, a link count is the number of links plus the corrections that calls in progress still
owe, a new inode is known to its creator only, and the entry that `unlink` is about to erase is
still there.

Steps keep this as long as they are `Careful`: no `".."` is looked up in a directory without links,
and no entry is written to one. Nothing in the source makes sure of that.
-/

namespace OperatingSystems

open Function

/-! ## Room on the disk -/

variable {name : Bytes} {n : ℕ}

namespace Inodes

variable {n : ℕ} {I I' : Inodes n}

theorem dirBlocks_of_le (h : ∀ d, (I' d).ents.length ≤ (I d).ents.length) :
    I'.dirBlocks ≤ I.dirBlocks := by
  refine Finset.sum_le_sum fun d _ ↦ Nat.div_le_div_right ?_
  have hd := h d
  omega

theorem dirBlocks_of_writeEntry {full : Bool} {d i : Fin n} (hI : I.dirBlocks ≤ fssize)
    (h : I.writeEntry full d name i = .ok I') : I'.dirBlocks ≤ fssize := by
  have hsum := sum_update_add I d { I d with ents := (I.addEntry d name i d).ents }
    fun x ↦ (x.ents.length + (direntsPerBlock - 1)) / direntsPerBlock
  rw [ents_setEnts_self] at hsum
  have hnew : I'.dirBlocks + ((I d).ents.length + (direntsPerBlock - 1)) / direntsPerBlock =
      I.dirBlocks + ((Slots.fill ⟨i, name, (I i).gen⟩ (I d).ents).length + (direntsPerBlock - 1))
        / direntsPerBlock := by
    rw [eq_of_writeEntry h]
    exact hsum
  rw [writeEntry] at h
  split_ifs at h with hfree hmax hfull
  · rw [Slots.length_fill_of_mem hfree] at hnew
    omega
  · rw [Slots.length_fill_of_notMem hfree] at hnew
    rw [not_and_or, not_or, Nat.not_le] at hfull
    simp only [direntsPerBlock] at hnew hfull
    omega

variable [NeZero n]

theorem links_le (I : Inodes n) (i : Fin n) : I.links i ≤ direntsPerBlock * I.dirBlocks := by
  rw [links, dirBlocks, Finset.mul_sum]
  refine Finset.sum_le_sum fun d _ ↦ ?_
  have hweight : I.weight i d ≤ (I d).ents.length := by
    by_cases hd : I.Live d
    · rw [weight_of_live hd]
      exact Slots.count_le_length
    · rw [weight_of_not_live hd]
      exact Nat.zero_le _
  simp only [direntsPerBlock]
  omega

end Inodes

/-! ## Corrections that are due -/

/-- What the link count of `i` is ahead of the links, on account of one process. -/
def Pc.owes {n : ℕ} (pc : Pc n) (i : Fin n) : ℕ :=
  (if pc.linking = some i then 1 else 0) + if pc.unlinking = some i then 1 else 0

theorem Pc.owes_le (pc : Pc n) (i : Fin n) : pc.owes i ≤ 2 := by
  rw [Pc.owes]
  split_ifs <;> omega

theorem Pc.mem_refs_of_unlinking {pc : Pc n} {i : Fin n} (h : pc.unlinking = some i) :
    i ∈ pc.refs := by
  induction pc with
  | iput j t ih => exact List.mem_cons_of_mem _ (ih h)
  | drop j t ih => exact List.mem_cons_of_mem _ (ih h)
  | unlinkDec ip => exact Option.some.inj h ▸ List.mem_singleton_self _
  | _ => cases h

theorem Pc.mem_uses_of_owes {pc : Pc n} {i : Fin n} (h : pc.owes i ≠ 0) : i ∈ pc.uses := by
  have hcases : pc.linking = some i ∨ pc.unlinking = some i := by
    rw [Pc.owes] at h
    by_contra hno
    rw [not_or] at hno
    rw [if_neg hno.1, if_neg hno.2] at h
    exact h rfl
  cases pc with
  | drop j t =>
    change t.linking = some i ∨ t.unlinking = some i at hcases
    exact hcases.elim mem_refs_of_linking mem_refs_of_unlinking
  | _ => exact hcases.elim mem_refs_of_linking mem_refs_of_unlinking

namespace Fs

variable {n : ℕ} {s s' : Fs n} {p q : Fin nproc} {m : Make} {x : FsProc n}

/-- What the link count of `i` is ahead of the links. -/
def pending (s : Fs n) (i : Fin n) : ℕ := ∑ p, (s.proc p).pc.owes i

theorem pending_le (s : Fs n) (i : Fin n) : s.pending i ≤ 2 * nproc := by
  calc s.pending i ≤ ∑ _p : Fin nproc, 2 := Finset.sum_le_sum fun p _ ↦ (s.proc p).pc.owes_le i
    _ = 2 * nproc := by
      rw [Finset.sum_const_nat fun _ _ ↦ rfl, Finset.card_univ, Fintype.card_fin, Nat.mul_comm]

theorem pending_eq_zero_of {i : Fin n} (h : ∀ p, (s.proc p).pc.owes i = 0) : s.pending i = 0 :=
  Finset.sum_eq_zero fun p _ ↦ h p

theorem pending_add [NeZero n] (hd : s.Did p s') (i : Fin n) :
    s'.pending i + (s.proc p).pc.owes i = s.pending i + (s'.proc p).pc.owes i :=
  sum_add_of_eq_off (w := fun q ↦ (s.proc q).pc.owes i) (v := fun q ↦ (s'.proc q).pc.owes i) p
    fun q hq ↦ by rw [hd.others q hq]

/-! ## The invariant -/

/-- The inode `i` that `p` has allocated is unknown to everyone else, and `d` has no entry of the
name yet. -/
structure Fresh (s : Fs n) (p : Fin nproc) (m : Make) (d : Fin n) (name : Bytes) (i : Fin n) :
    Prop where
  type : (s.inode i).type = some m.type
  nlink : (s.inode i).nlink = 0
  ents : (s.inode i).ents = []
  user : ∀ q, i ∈ (s.proc q).uses → q = p
  closed : ¬s.OpenAt i
  dir : (s.inode d).type = some .dir
  absent : (s.inode d).dirlookup name = none
  ne : i ≠ d

/-- The entry that `unlink` has found. -/
def Doomed (s : Fs n) (d i : Fin n) (off : ℕ) : Prop :=
  ∃ e, (s.inode d).ents[off]? = some (some e) ∧ e.inum = i ∧ Proper e.name

structure Sound [NeZero n] (s : Fs n) : Prop where
  base : s.Base
  tree : s.inode.Tree
  used : ∀ p, ∀ i ∈ (s.proc p).uses, (s.inode i).type ≠ none
  opened : ∀ i, s.OpenAt i → (s.inode i).type ≠ none
  fresh : ∀ p m d name i, (s.proc p).pc = .createNew m d name i → s.Fresh p m d name i
  doomed : ∀ p d i off, (s.proc p).pc = .unlinkIp d i off → s.Doomed d i off
  count : ∀ i, (s.inode i).type ≠ none → (s.inode i).nlink = s.inode.links i + s.pending i
  size : s.inode.dirBlocks ≤ fssize

/-- The next section of `p` looks up no `".."` in a directory without links and writes no entry to
one. -/
def CarefulAt (s : Fs n) (p : Fin nproc) : Prop :=
  (∀ d, s.looksUp p = some (d, dotdot) → 0 < (s.inode d).nlink) ∧
    ∀ d, s.addsTo p = some d → 0 < (s.inode d).nlink

namespace Sound

variable [NeZero n] (h : s.Sound) {i d : Fin n}

include h

theorem nlink_nonneg (hi : (s.inode i).type ≠ none) : 0 ≤ (s.inode i).nlink := by
  rw [h.count i hi]
  omega

theorem nlink_lt (hi : (s.inode i).type ≠ none) : (s.inode i).nlink + 1 < 2 ^ 15 := by
  have hlinks := s.inode.links_le i
  have hpending := s.pending_le i
  have hsize := h.size
  rw [h.count i hi]
  simp only [direntsPerBlock, fssize, nproc] at *
  omega

theorem live_of_nlink_pos (hdir : (s.inode d).type = some .dir) (hpos : 0 < (s.inode d).nlink)
    (hun : ∀ q, (s.proc q).pc.unlinking ≠ some d) : s.inode.Live d := by
  by_contra hlive
  have hpending : s.pending d = 0 := by
    refine pending_eq_zero_of fun q ↦ ?_
    rw [Pc.owes, if_neg (hun q), if_neg fun hl ↦ (h.base.linking q d hl).2 hdir]
  rw [h.count d (by rw [hdir]; exact Option.some_ne_none _), h.tree.links_eq_zero hlive, hpending]
    at hpos
  exact absurd hpos (lt_irrefl _)

theorem unlinking_ne (hlock : s.lock d = none) (q : Fin nproc) :
    (s.proc q).pc.unlinking ≠ some d := by
  intro hu
  rw [(h.base.lock d q).mpr (Pc.mem_locks_of_unlinking hu)] at hlock
  cases hlock

theorem unlinking_ne_of_createNew (hpc : (s.proc p).pc = .createNew m d name i) (q : Fin nproc) :
    (s.proc q).pc.unlinking ≠ some d := by
  intro hu
  have hq := (h.base.lock d q).mpr (Pc.mem_locks_of_unlinking hu)
  have hp := (h.base.lock d p).mpr (by rw [hpc]; exact List.mem_singleton_self _)
  rw [hq, Option.some.injEq] at hp
  rw [hp, hpc] at hu
  cases hu

theorem found_alive (hg : s.CarefulAt p) {off : ℕ} {e : Dirent n}
    (hlook : s.looksUp p = some (d, e.name)) (hdir : (s.inode d).type = some .dir)
    (hlock : s.lock d = none) (hslot : (s.inode d).ents[off]? = some (some e)) :
    (s.inode e.inum).type ≠ none ∧ (s.inode e.inum).gen = e.gen ∧
      (s.inode.Live e.inum ∨ e.inum = d) := by
  have he : some e ∈ (s.inode d).ents := List.mem_of_getElem? hslot
  by_cases hp : Proper e.name
  · obtain ⟨hty, hgen, -⟩ := h.tree.target d e ⟨he, hp⟩
    exact ⟨hty, hgen, .inl (.inr ⟨d, e, ⟨he, hp⟩, rfl⟩)⟩
  · obtain ⟨par, g, hdots⟩ := h.tree.dots_of_mem he
    rcases Inodes.not_proper_iff.mp hp with hname | hname
    · obtain ⟨hinum, hgen⟩ := hdots.dot_self he hname
      rw [hinum, hdir, hgen]
      exact ⟨Option.some_ne_none _, rfl, .inr rfl⟩
    · -- The directory has links, so it has a name, and its parent is still the same.
      obtain ⟨hinum, hgen⟩ := hdots.dotdot he hname
      have hlive := h.live_of_nlink_pos hdir (hg.1 d (hname ▸ hlook)) (h.unlinking_ne hlock)
      obtain ⟨hpar, hty, hpgen⟩ := h.tree.parent_of_live hlive hdots
      rw [hinum, hty, hgen]
      exact ⟨Option.some_ne_none _, hpgen, .inl hpar⟩

theorem not_live_of_nlink_eq_zero (hty : (s.inode i).type ≠ none) (hzero : (s.inode i).nlink = 0) :
    ¬s.inode.Live i := by
  intro hlive
  have hpos := h.tree.links_pos hlive
  have hcount := h.count i hty
  omega

theorem pending_eq_zero_of_nlink (hty : (s.inode i).type ≠ none) (hzero : (s.inode i).nlink = 0) :
    s.pending i = 0 := by
  have hcount := h.count i hty
  omega

end Sound

/-! ## What a step leaves alone -/

section Untouched

variable [NeZero n] {x : Fin n}

theorem inode_eq_of_not_used (he : s.Effect p s') (hx : x ∉ (s.proc p).uses)
    (hty : (s.inode x).type ≠ none) : s'.inode x = s.inode x := by
  cases he.touched x with
  | same h => exact h
  | changed huse => exact absurd (mem_uses_of_pc huse) hx
  | allocated hfree => exact absurd hfree hty
  | freed t hpc => exact absurd (mem_uses_of_pc (by rw [hpc]; exact List.mem_cons_self)) hx

theorem ents_eq_of_locked (h : s.Base) (he : s.Effect p s') (hq : q ≠ p)
    (hlock : s.lock x = some q) (hty : (s.inode x).type ≠ none) :
    (s'.inode x).ents = (s.inode x).ents := by
  cases he.touched x with
  | same h => rw [h]
  | changed _ _ _ hents =>
    rcases hents with hents | hnone | hheld
    · exact hents
    · rw [hlock] at hnone
      cases hnone
    · rw [(h.lock x p).mpr hheld, Option.some.injEq] at hlock
      exact absurd hlock.symm hq
  | allocated hfree => exact absurd hfree hty
  | freed t _ hnone =>
    rw [hlock] at hnone
    cases hnone

end Untouched

/-! ## What is in use stays allocated -/

theorem mem_uses_of_goto {x' : FsProc n} {pc pc' : Pc n} {i : Fin n} (hproc : x' = x.goto pc')
    (hpc : x.pc = pc) (hi : i ∈ x'.uses) (hsub : pc'.uses ⊆ pc.uses) : i ∈ x.uses := by
  rw [hproc] at hi
  rcases List.mem_append.mp hi with hi | hi
  · exact List.mem_append_left _ hi
  · exact mem_uses_of_pc (hpc ▸ hsub hi)

theorem holds_pos_of_uses {i : Fin n} (hi : i ∈ x.uses) : 0 < x.holds i := by
  rcases List.mem_append.mp hi with hi | hi
  · exact Nat.add_pos_left (List.count_pos_iff.mpr hi) _
  · exact FsProc.holds_pos (x.pc.uses_subset_refs hi)

theorem opened_pos {i : Fin n} (h : s.OpenAt i) : s.opened i ≠ 0 := by
  obtain ⟨f, hf⟩ := h
  intro hzero
  have := Finset.sum_eq_zero_iff.mp hzero f (Finset.mem_univ f)
  rw [if_pos hf] at this
  cases this

theorem openAt_of_effect [NeZero n] (he : s.Effect p s') {i : Fin n} (ho : s'.OpenAt i) :
    s.OpenAt i ∨ i ∈ (s.proc p).uses ∧ s'.inode = s.inode := by
  have hsame : s'.file = s.file → s.OpenAt i := fun hfile ↦ by rwa [OpenAt, hfile] at ho
  cases he with
  | quiet hinode hgrows => exact (hgrows.files i ho).imp_right fun hi ↦ ⟨hi, hinode⟩
  | found _ _ _ hinode _ _ _ _ _ hgrows =>
    exact (hgrows.files i ho).imp_right fun hi ↦ ⟨hi, hinode⟩
  | alloc _ _ _ _ _ _ _ _ _ _ _ hfile => exact .inl (hsame hfile)
  | create _ _ _ _ _ _ _ _ _ hfile => exact .inl (hsame hfile)
  | raise _ _ _ _ _ _ _ hfile => exact .inl (hsame hfile)
  | link _ _ _ _ _ _ _ _ _ _ hfile => exact .inl (hsame hfile)
  | lower _ _ _ _ _ hfile => exact .inl (hsame hfile)
  | erase _ _ _ _ _ _ _ _ _ hfile => exact .inl (hsame hfile)
  | dec _ _ _ _ hfile => exact .inl (hsame hfile)
  | free _ _ _ _ _ _ _ _ hfile => exact .inl (hsame hfile)

namespace Sound

variable [NeZero n] (h : s.Sound) {i d : Fin n}

include h

/-- Where a process gets the inodes from that it uses: it has them already, or from a process that
forks, from an open file, by their name, or newly allocated. -/
theorem origin (hd : s.Did p s') (hg : s.CarefulAt p) (hi : i ∈ (s'.proc p).uses) :
    i ∈ (s.proc p).uses ∨ s.IdleCwd i ∨ s.OpenAt i ∨ s.inode.Live i ∨
      ∃ t, (s.inode i).type = none ∧ s'.inode = s.inode.ialloc i t := by
  cases hd.effect with
  | quiet _ hgrows =>
    rcases hgrows.uses i hi with hold | hopen | hroot | hidle
    · exact .inl hold
    · exact .inr (.inr (.inl hopen))
    · exact .inr (.inr (.inr (.inl (.inl hroot))))
    · exact .inr (.inl hidle)
  | found d off e _ hlook hdir hlock huse hslot hgrows =>
    rcases hgrows.uses i hi with hold | hopen | rfl
    · exact .inl hold
    · exact .inr (.inr (.inl hopen))
    · obtain ⟨-, -, hlive | hself⟩ := h.found_alive hg hlook hdir hlock hslot
      · exact .inr (.inr (.inr (.inl hlive)))
      · exact .inl (hself ▸ huse)
  | alloc m d name j hpc _ _ _ hfree hinode hproc _ =>
    rw [hproc] at hi
    by_cases hij : i = j
    · subst hij
      exact .inr (.inr (.inr (.inr ⟨m.type, hfree, hinode⟩)))
    · rcases List.mem_append.mp hi with hi | hi
      · exact .inl (List.mem_append_left _ hi)
      · rcases List.mem_cons.mp hi with rfl | hi
        · exact .inl (mem_uses_of_pc (by rw [hpc]; exact List.mem_singleton_self _))
        · exact absurd (List.mem_singleton.mp hi) hij
  | create _ _ _ _ _ hpc _ _ hproc _ =>
    exact .inl (mem_uses_of_goto hproc hpc hi (List.Subset.refl _))
  | raise _ _ hpc _ _ _ hproc _ =>
    exact .inl (mem_uses_of_goto hproc hpc hi (List.Subset.refl _))
  | link _ _ _ _ hpc _ _ _ _ hproc _ =>
    exact .inl (mem_uses_of_goto hproc hpc hi (List.Perm.swap _ _ []).subset)
  | lower _ hpc _ _ hproc _ =>
    exact .inl (mem_uses_of_goto hproc hpc hi (List.Subset.refl _))
  | erase _ _ _ hpc _ _ _ _ hproc _ =>
    exact .inl (mem_uses_of_goto hproc hpc hi (List.Subset.refl _))
  | dec _ hpc _ hproc _ =>
    exact .inl (mem_uses_of_goto hproc hpc hi (List.Subset.refl _))
  | free _ _ hpc _ _ _ _ hproc _ =>
    exact .inl (mem_uses_of_goto hproc hpc hi (List.subset_cons_self _ _))

theorem type_of_live (hi : s.inode.Live i) : (s.inode i).type ≠ none := fun hnone ↦
  h.tree.not_live_of_free hnone hi

theorem type_of_idleCwd (hi : s.IdleCwd i) : (s.inode i).type ≠ none := by
  obtain ⟨q, -, -, hcwd⟩ := hi
  exact h.used q i (List.mem_append_left _ (by rw [hcwd]; exact List.mem_singleton_self _))

theorem used_of_did (hd : s.Did p s') (hg : s.CarefulAt p) (q : Fin nproc) (i : Fin n)
    (hi : i ∈ (s'.proc q).uses) : (s'.inode i).type ≠ none := by
  have hkeep : (s.inode i).type ≠ none → (s'.inode i).type ≠ none := by
    intro hty
    cases hd.effect.touched i with
    | same hsame => rwa [hsame]
    | changed _ hsame => rwa [hsame]
    | allocated hnone => exact absurd hnone hty
    | freed t hpc _ href hproc =>
      -- The inode is freed only when its last reference goes.
      obtain ⟨ht, hcwd, hothers, -⟩ := h.base.sole_user hpc href
      by_cases hq : q = p
      · rw [hq, hproc] at hi
        rcases List.mem_append.mp hi with hi | hi
        · exact absurd (Option.mem_toList.mp hi) hcwd
        · exact absurd hi ht
      · rw [hd.others q hq] at hi
        exact absurd (hothers q hq) (holds_pos_of_uses hi).ne'
  by_cases hq : q = p
  · subst hq
    rcases h.origin hd hg hi with hold | hidle | hopen | hlive | ⟨t, -, hinode⟩
    · exact hkeep (h.used q i hold)
    · exact hkeep (h.type_of_idleCwd hidle)
    · exact hkeep (h.opened i hopen)
    · exact hkeep (h.type_of_live hlive)
    · rw [hinode, Inodes.ialloc, update_self]
      exact Option.some_ne_none _
  · exact hkeep (h.used q i (hd.others q hq ▸ hi))

theorem opened_of_did (hd : s.Did p s') (i : Fin n) (ho : s'.OpenAt i) :
    (s'.inode i).type ≠ none := by
  rcases openAt_of_effect hd.effect ho with hopen | ⟨huse, hinode⟩
  · have hty := h.opened i hopen
    cases hd.effect.touched i with
    | same hsame => rwa [hsame]
    | changed _ hsame => rwa [hsame]
    | allocated hnone => exact absurd hnone hty
    | freed t hpc _ href => exact absurd (h.base.sole_user hpc href).2.2.2 (opened_pos hopen)
  · rw [hinode]
    exact h.used p i huse

/-! ## Between the two locks of `create` and `unlink` -/

theorem fresh_of_other (hd : s.Did p s') (hg : s.CarefulAt p) (hq : q ≠ p)
    (hpc : (s.proc q).pc = .createNew m d name i) : s'.Fresh q m d name i := by
  have hf := h.fresh q m d name i hpc
  have hty : (s.inode i).type ≠ none := by
    rw [hf.type]
    exact Option.some_ne_none _
  have hnot : i ∉ (s.proc p).uses := fun hi ↦ hq (hf.user p hi).symm
  have hsame := inode_eq_of_not_used hd.effect hnot hty
  have hdtype : (s.inode d).type ≠ none := by
    rw [hf.dir]
    exact Option.some_ne_none _
  have hents := ents_eq_of_locked h.base hd.effect hq
    ((h.base.lock d q).mpr (by rw [hpc]; exact List.mem_singleton_self _)) hdtype
  refine ⟨?_, ?_, ?_, fun r hr ↦ ?_, fun ho ↦ ?_, ?_, ?_, hf.ne⟩
  · rw [hsame]
    exact hf.type
  · rw [hsame]
    exact hf.nlink
  · rw [hsame]
    exact hf.ents
  · by_cases hrp : r = p
    · -- There is nowhere that `p` could have got it from.
      subst hrp
      rcases h.origin hd hg hr with hold | ⟨r', c, hret, hcwd⟩ | hopen | hlive | ⟨-, hfree, -⟩
      · exact hf.user r hold
      · obtain rfl :=
          hf.user r' (List.mem_append_left _ (by rw [hcwd]; exact List.mem_singleton_self _))
        rw [hpc] at hret
        cases hret
      · exact absurd hopen hf.closed
      · exact absurd hlive (h.not_live_of_nlink_eq_zero hty hf.nlink)
      · exact absurd hfree hty
    · exact hf.user r (hd.others r hrp ▸ hr)
  · rcases openAt_of_effect hd.effect ho with hopen | ⟨huse, -⟩
    · exact hf.closed hopen
    · exact hnot huse
  · have hholds : 0 < (s.proc q).holds d := FsProc.holds_pos (by rw [hpc]; exact List.mem_cons_self)
    rw [h.base.type_eq_of_holds hd hdtype (fun _ ↦ hholds) fun _ hqp ↦ absurd hqp hq]
    exact hf.dir
  · rw [Inode.dirlookup, hents]
    exact hf.absent

theorem fresh_of_did (hd : s.Did p s') (hg : s.CarefulAt p) (q : Fin nproc) (m : Make) (d : Fin n)
    (name : Bytes) (i : Fin n) (hpc : (s'.proc q).pc = .createNew m d name i) :
    s'.Fresh q m d name i := by
  by_cases hq : q = p
  · subst hq
    rcases hd.effect.next (h.base.wf q) with
      hplain | ⟨_, _, _, hpc', -⟩ | ⟨m', d', name', j, hproc, hdir, habsent, hfree, hinode, hfile⟩
    · rw [hpc] at hplain
      exact hplain.elim
    · rw [hpc] at hpc'
      cases hpc'
    · rw [hproc, FsProc.goto, Pc.createNew.injEq] at hpc
      obtain ⟨rfl, rfl, rfl, rfl⟩ := hpc
      have hne : j ≠ d' := by
        rintro rfl
        rw [hdir] at hfree
        cases hfree
      have hself : s'.inode j = ⟨some m'.type, 0, 0, 0, [], (s.inode j).gen⟩ := by
        rw [hinode, Inodes.ialloc, update_self]
      have hother : s'.inode d' = s.inode d' := by
        rw [hinode, Inodes.ialloc, update_of_ne hne.symm]
      refine ⟨by rw [hself], by rw [hself], by rw [hself], fun r hr ↦ ?_, fun ho ↦ ?_,
        by rw [hother, hdir], by rw [hother, habsent], hne⟩
      · by_contra hrq
        rw [hd.others r hrq] at hr
        exact h.used r j hr hfree
      · rw [OpenAt, hfile] at ho
        exact h.opened j ho hfree
  · exact h.fresh_of_other hd hg hq (hd.others q hq ▸ hpc)

theorem doomed_of_did (hd : s.Did p s') (q : Fin nproc) (d i : Fin n) (off : ℕ)
    (hpc : (s'.proc q).pc = .unlinkIp d i off) : s'.Doomed d i off := by
  by_cases hq : q = p
  · subst hq
    rcases hd.effect.next (h.base.wf q) with
      hplain | ⟨d', off', e, hpc', hinode, hslot, hproper⟩ | ⟨_, _, _, _, hproc, -⟩
    · rw [hpc] at hplain
      exact hplain.elim
    · rw [hpc, Pc.unlinkIp.injEq] at hpc'
      obtain ⟨rfl, rfl, rfl⟩ := hpc'
      rw [Doomed, hinode]
      exact ⟨e, hslot, rfl, hproper⟩
    · rw [hproc] at hpc
      cases hpc
  · rw [hd.others q hq] at hpc
    have hdtype := h.used q d (mem_uses_of_pc (by rw [hpc]; exact List.mem_cons_self))
    rw [Doomed, ents_eq_of_locked h.base hd.effect hq
      ((h.base.lock d q).mpr (by rw [hpc]; exact List.mem_singleton_self _)) hdtype]
    exact h.doomed q d i off hpc

end Sound

end Fs

end OperatingSystems
