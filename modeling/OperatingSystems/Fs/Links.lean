import OperatingSystems.Fs.Sound

/-!
# Link counts

A careful step keeps `Sound`. So in a run of careful steps, whenever no call is in progress, the
link count of every inode is the number of entries that name it.
-/

namespace OperatingSystems

open Function

variable {name : Bytes}

namespace Inodes

variable {n g : ℕ} {I : Inodes n} {d i x par : Fin n}

theorem nlink_addLink_self (y : ℤ) : (I.addLink i y i).nlink = short ((I i).nlink + y) := by
  rw [addLink, update_self]

theorem addLink_of_ne (y : ℤ) (h : x ≠ i) : I.addLink i y x = I x := update_of_ne h ..

theorem Dots.proper_of_absent (h : I.Dots d par g) (habsent : (I d).dirlookup name = none) :
    Proper name := by
  obtain ⟨rest, hents, -⟩ := h
  have hmem : ∀ e, some e ∈ (I d).ents → e.name ≠ name := by
    intro e he hname
    have hfalse := Slots.not_of_find_eq_none habsent he
    rw [beq_eq_false_iff_ne] at hfalse
    exact hfalse hname
  rw [hents] at hmem
  exact ⟨(hmem ⟨d, dot, _⟩ List.mem_cons_self).symm,
    (hmem ⟨par, OperatingSystems.dotdot, g⟩ (List.mem_cons_of_mem _ List.mem_cons_self)).symm⟩

theorem Dots.rest_of_isdirempty (h : I.Dots d par g) (hempty : (I d).isdirempty = true) :
    ∃ rest,
      (I d).ents = some ⟨d, dot, (I d).gen⟩ :: some ⟨par, OperatingSystems.dotdot, g⟩ :: rest ∧
      ∀ e, some e ∉ rest := by
  obtain ⟨rest, hents, -⟩ := h
  refine ⟨rest, hents, fun e he ↦ ?_⟩
  rw [Inode.isdirempty, hents] at hempty
  exact absurd (List.all_eq_true.mp hempty _ he) Bool.false_ne_true

theorem Dots.count_of_isdirempty (h : I.Dots d par g) (hempty : (I d).isdirempty = true) :
    Slots.count (·.links x) (I d).ents = if par = x then 1 else 0 := by
  obtain ⟨rest, hents, hrest⟩ := h.rest_of_isdirempty hempty
  have hdot : ¬(⟨d, dot, (I d).gen⟩ : Dirent n).links x = true := fun h ↦ (links_iff.mp h).1 rfl
  have hzero : Slots.count (·.links x) rest = 0 :=
    Slots.count_eq_zero_iff.mpr fun e he ↦ absurd he (hrest e)
  rw [hents, Slots.count_cons_some, Slots.count_cons_some, if_neg hdot, hzero, Nat.zero_add,
    Nat.add_zero]
  exact if_congr (links_iff.trans (and_iff_right dotdot_ne_dot)) rfl rfl

theorem Tree.ents_ne_nil [NeZero n] (h : I.Tree) (hdir : (I d).type = some .dir)
    (hnlink : (I d).nlink ≠ 0) : (I d).ents ≠ [] := by
  rcases h.dots d hdir with ⟨-, hzero⟩ | ⟨par, g, hdots⟩
  · exact absurd hzero hnlink
  · exact hdots.ents_ne_nil

end Inodes

namespace Fs

variable {n : ℕ} {s s' : Fs n} {p : Fin nproc} {i d x : Fin n} {m : Make} {a : FsAct} {I : Inodes n}

/-! ## The new inode of `create` -/

section Create

variable {I I' : Inodes n} {m : Make} {name : Bytes} {full : Bool}

/-- The inodes when `create` is about to enter `i` into `d`. -/
def prepared (I : Inodes n) (m : Make) (d i : Fin n) : Inodes n :=
  if m.type = .dir then ((initialised I m i).addLink d 1).setEnts i (I.newDots d i)
  else initialised I m i

theorem type_prepared (x : Fin n) : (prepared I m d i x).type = (I x).type := by
  rw [prepared]
  split_ifs
  · rw [Inodes.type_setEnts, Inodes.type_addLink, type_initialised]
  · rw [type_initialised]

theorem gen_prepared (x : Fin n) : (prepared I m d i x).gen = (I x).gen := by
  rw [prepared]
  split_ifs
  · rw [Inodes.gen_setEnts, Inodes.gen_addLink, gen_initialised]
  · rw [gen_initialised]

theorem ents_prepared_of_ne (hx : x ≠ i) : (prepared I m d i x).ents = (I x).ents := by
  rw [prepared]
  split_ifs
  · rw [Inodes.setEnts_of_ne _ hx, Inodes.ents_addLink, ents_initialised]
  · rw [ents_initialised]

theorem entered_eq (hents : (I i).ents = []) (h : entered full I m d name i = .ok I') :
    I' = (prepared I m d i).addEntry d name i := by
  rw [entered] at h
  split_ifs at h with hm
  · obtain ⟨I₂, hdots, h⟩ := bind_eq_ok_iff.mp h
    obtain ⟨I₁, hdot, hdotdot⟩ := bind_eq_ok_iff.mp hdots
    have h₁ := Inodes.eq_of_writeEntry (Inodes.writeEntry_of_dirlink hdot).2.2
    have h₂ := Inodes.eq_of_writeEntry (Inodes.writeEntry_of_dirlink hdotdot).2.2
    have hprep : I₂ = prepared I m d i := by
      rw [h₂, h₁, prepared, if_pos hm, Inodes.addEntry, Inodes.addEntry, Inodes.ents_setEnts_self,
        Inodes.gen_setEnts, Inodes.ents_addLink, ents_initialised, hents, Inodes.gen_addLink,
        Inodes.gen_addLink, gen_initialised, gen_initialised, Inodes.setEnts, Inodes.setEnts,
        Inodes.setEnts, update_self, update_idem]
      rfl
    rw [Inodes.eq_of_writeEntry (Inodes.writeEntry_of_dirlink h).2.2, hprep]
  · rw [Inodes.eq_of_writeEntry (Inodes.writeEntry_of_dirlink h).2.2, prepared, if_neg hm]

theorem dirBlocks_of_entered (hI : I.dirBlocks ≤ fssize) (h : entered full I m d name i = .ok I') :
    I'.dirBlocks ≤ fssize := by
  have hinit : (initialised I m i).dirBlocks ≤ fssize :=
    (Inodes.dirBlocks_of_le fun x ↦ (congrArg _ (ents_initialised I m i x)).le).trans hI
  rw [entered] at h
  split_ifs at h
  · obtain ⟨I₂, hdots, h⟩ := bind_eq_ok_iff.mp h
    obtain ⟨I₁, hdot, hdotdot⟩ := bind_eq_ok_iff.mp hdots
    have hlink : ((initialised I m i).addLink d 1).dirBlocks ≤ fssize :=
      (Inodes.dirBlocks_of_le fun x ↦ (congrArg _ (Inodes.ents_addLink ..)).le).trans hinit
    have h₁ := Inodes.dirBlocks_of_writeEntry hlink (Inodes.writeEntry_of_dirlink hdot).2.2
    have h₂ := Inodes.dirBlocks_of_writeEntry h₁ (Inodes.writeEntry_of_dirlink hdotdot).2.2
    exact Inodes.dirBlocks_of_writeEntry h₂ (Inodes.writeEntry_of_dirlink h).2.2
  · exact Inodes.dirBlocks_of_writeEntry hinit (Inodes.writeEntry_of_dirlink h).2.2

theorem nlink_prepared_self (hid : i ≠ d) : (prepared I m d i i).nlink = 1 := by
  have hinit : (initialised I m i i).nlink = 1 := by
    rw [initialised, update_self]
    rfl
  rw [prepared]
  split_ifs
  · rw [Inodes.nlink_setEnts, Inodes.addLink_of_ne _ hid, hinit]
  · exact hinit

theorem nlink_prepared_dir (hid : i ≠ d) : (prepared I m d i d).nlink =
    if m.type = .dir then short ((I d).nlink + 1) else (I d).nlink := by
  have hinit : initialised I m i d = I d := update_of_ne hid.symm ..
  rw [prepared]
  split_ifs
  · rw [Inodes.nlink_setEnts, Inodes.nlink_addLink_self, hinit]
  · rw [hinit]

theorem nlink_prepared_of_ne (hxi : x ≠ i) (hxd : x ≠ d) :
    (prepared I m d i x).nlink = (I x).nlink := by
  have hinit : initialised I m i x = I x := update_of_ne hxi ..
  rw [prepared]
  split_ifs
  · rw [Inodes.nlink_setEnts, Inodes.addLink_of_ne _ hxd, hinit]
  · rw [hinit]

variable [NeZero n]

theorem tree_prepared (h : I.Tree) (hty : (I i).type = some m.type) (hents : (I i).ents = [])
    (hlive : ¬I.Live i) (hid : i ≠ d) (hd : (I d).ents ≠ []) : (prepared I m d i).Tree := by
  have hzero : ∀ x, (I x).type = some .dir → (I x).ents = [] → (I x).nlink = 0 := by
    intro x hx hnil
    rcases h.dots x hx with ⟨-, hzero⟩ | ⟨par, g, hdots⟩
    · exact hzero
    · exact absurd hnil hdots.ents_ne_nil
  by_cases hm : m.type = .dir
  · refine (h.newDots (hm ▸ hty) hents (d := d)).congr (fun x ↦ ?_) (fun x ↦ ?_) (fun x ↦ ?_)
      fun x hx hnil ↦ ?_
    · by_cases hx : x = i
      · rw [prepared, if_pos hm, hx, Inodes.ents_setEnts_self, Inodes.ents_setEnts_self]
      · rw [ents_prepared_of_ne hx, Inodes.setEnts_of_ne _ hx]
    · rw [gen_prepared, Inodes.gen_setEnts]
    · rw [type_prepared, Inodes.type_setEnts]
    · have hxi : x ≠ i := by
        rintro rfl
        exact Inodes.dots_newDots.ents_ne_nil hnil
      rw [Inodes.type_setEnts] at hx
      rw [Inodes.setEnts_of_ne _ hxi] at hnil
      have hxd : x ≠ d := by
        rintro rfl
        exact hd hnil
      rw [nlink_prepared_of_ne hxi hxd]
      exact hzero x hx hnil
  · rw [prepared, if_neg hm]
    refine h.congr (ents_initialised I m i) (gen_initialised I m i) (type_initialised I m i)
      fun x hx hnil ↦ ?_
    have hxi : x ≠ i := by
      rintro rfl
      rw [hty, Option.some.injEq] at hx
      exact hm hx
    rw [initialised, update_of_ne hxi]
    exact hzero x hx hnil

theorem live_prepared (hents : (I i).ents = []) : (prepared I m d i).Live x ↔ I.Live x := by
  rw [prepared]
  split_ifs
  · refine Iff.trans (Inodes.live_congr fun y ↦ ?_) (Inodes.live_newDots hents (d := d))
    by_cases hy : y = i
    · rw [hy, Inodes.ents_setEnts_self, Inodes.ents_setEnts_self]
    · rw [Inodes.setEnts_of_ne _ hy, Inodes.setEnts_of_ne _ hy, Inodes.ents_addLink,
        ents_initialised]
  · exact Inodes.live_congr (ents_initialised I m i)

theorem links_prepared (hents : (I i).ents = []) (hlive : ¬I.Live i) (x : Fin n) :
    (prepared I m d i).links x = I.links x := by
  refine Finset.sum_congr rfl fun y _ ↦ ?_
  by_cases hy : y = i
  · rw [hy, Inodes.weight_of_not_live hlive,
      Inodes.weight_of_not_live fun hl ↦ hlive ((live_prepared hents).mp hl)]
  · exact Inodes.weight_congr (live_prepared hents) (ents_prepared_of_ne hy)

end Create

/-! ## The tree after a step -/

theorem CarefulAt.pos_of_createNew (hg : s.CarefulAt p)
    (hpc : (s.proc p).pc = .createNew m d name i) : 0 < (s.inode d).nlink := by
  refine hg.2 d ?_
  rw [addsTo, hpc]

theorem CarefulAt.pos_of_linkDir (hg : s.CarefulAt p) (hpc : (s.proc p).pc = .linkDir i d name)
    (habsent : (s.inode d).dirlookup name = none) : 0 < (s.inode d).nlink := by
  refine hg.2 d ?_
  rw [addsTo, hpc]
  exact if_pos (by rw [habsent]; rfl)

namespace Sound

variable [NeZero n] (h : s.Sound)

include h

theorem dots_of_nlink_pos (hdir : (s.inode d).type = some .dir) (hpos : 0 < (s.inode d).nlink) :
    ∃ par g, s.inode.Dots d par g := by
  rcases h.tree.dots d hdir with ⟨-, hzero⟩ | hdots
  · exact absurd hzero hpos.ne'
  · exact hdots

section Create

variable {m : Make} {name : Bytes} (hg : s.CarefulAt p)
  (hpc : (s.proc p).pc = .createNew m d name i)

include hpc

theorem not_live_of_createNew : ¬s.inode.Live i := by
  have hf := h.fresh p m d name i hpc
  refine h.not_live_of_nlink_eq_zero ?_ hf.nlink
  rw [hf.type]
  exact Option.some_ne_none _

theorem not_live_prepared : ¬(prepared s.inode m d i).Live i := fun hl ↦
  h.not_live_of_createNew hpc ((live_prepared (h.fresh p m d name i hpc).ents).mp hl)

include hg

theorem live_of_createNew : s.inode.Live d :=
  h.live_of_nlink_pos (h.fresh p m d name i hpc).dir (hg.pos_of_createNew hpc)
    (h.unlinking_ne_of_createNew hpc)

theorem proper_of_createNew : Proper name := by
  obtain ⟨par, g, hdots⟩ := h.dots_of_nlink_pos (h.fresh p m d name i hpc).dir
    (hg.pos_of_createNew hpc)
  exact hdots.proper_of_absent (h.fresh p m d name i hpc).absent

theorem tree_prepared : (prepared s.inode m d i).Tree := by
  have hf := h.fresh p m d name i hpc
  exact Fs.tree_prepared h.tree hf.type hf.ents (h.not_live_of_createNew hpc) hf.ne
    (h.tree.ents_ne_nil hf.dir (hg.pos_of_createNew hpc).ne')

theorem tree_of_create : ((prepared s.inode m d i).addEntry d name i).Tree := by
  have hf := h.fresh p m d name i hpc
  refine (h.tree_prepared hg hpc).fill ?_ ?_ (h.proper_of_createNew hg hpc) ?_ ?_ fun hty ↦ ?_
  · exact (live_prepared hf.ents).mpr (h.live_of_createNew hg hpc)
  · rw [ents_prepared_of_ne hf.ne.symm]
    exact h.tree.ents_ne_nil hf.dir (hg.pos_of_createNew hpc).ne'
  · rw [type_prepared, hf.type]
    exact Option.some_ne_none _
  · exact fun hi ↦ h.not_live_of_createNew hpc (.inl hi)
  · refine ⟨?_, h.not_live_prepared hpc⟩
    rw [type_prepared, hf.type, Option.some.injEq] at hty
    rw [gen_prepared, prepared, if_pos hty]
    refine (Inodes.dots_congr ?_ ?_).mpr Inodes.dots_newDots
    · rw [Inodes.ents_setEnts_self, Inodes.ents_setEnts_self]
    · rw [Inodes.gen_setEnts, Inodes.gen_setEnts, Inodes.gen_addLink, gen_initialised]

theorem links_of_create (x : Fin n) : ((prepared s.inode m d i).addEntry d name i).links x =
    s.inode.links x + (if i = x then 1 else 0) + if m.type = .dir ∧ d = x then 1 else 0 := by
  have hf := h.fresh p m d name i hpc
  rw [Inodes.links_fill (h.tree_prepared hg hpc)
    ((live_prepared hf.ents).mpr (h.live_of_createNew hg hpc)) (h.proper_of_createNew hg hpc) hf.ne
    fun _ ↦ h.not_live_prepared hpc, links_prepared hf.ents (h.not_live_of_createNew hpc),
    type_prepared, hf.type]
  congr 1
  by_cases hm : m.type = .dir
  · rw [if_pos (congrArg some hm), prepared, if_pos hm, Inodes.ents_setEnts_self,
      Inodes.count_newDots]
    exact if_congr (and_iff_right hm).symm rfl rfl
  · rw [if_neg fun hm' ↦ hm (Option.some.inj hm'), if_neg fun hmd ↦ hm hmd.1]
    rfl

end Create

section Link

variable {name : Bytes} (hg : s.CarefulAt p) (hpc : (s.proc p).pc = .linkDir i d name)
  (hlock : s.lock d = none) (hdir : (s.inode d).type = some .dir)
  (habsent : (s.inode d).dirlookup name = none)

include hg hpc hdir habsent

theorem proper_of_linkDir : Proper name := by
  obtain ⟨par, g, hdots⟩ := h.dots_of_nlink_pos hdir (hg.pos_of_linkDir hpc habsent)
  exact hdots.proper_of_absent habsent

include hlock

theorem live_of_linkDir : s.inode.Live d :=
  h.live_of_nlink_pos hdir (hg.pos_of_linkDir hpc habsent) (h.unlinking_ne hlock)

theorem tree_of_link : (s.inode.addEntry d name i).Tree := by
  obtain ⟨hnone, hnotdir⟩ := h.base.linking p i (by rw [hpc]; rfl)
  refine h.tree.fill (h.live_of_linkDir hg hpc hlock hdir habsent) ?_
    (h.proper_of_linkDir hg hpc hdir habsent) hnone ?_ fun hty ↦ absurd hty hnotdir
  · exact h.tree.ents_ne_nil hdir (hg.pos_of_linkDir hpc habsent).ne'
  · rintro rfl
    exact hnotdir h.tree.root_dir

theorem links_of_link (x : Fin n) : (s.inode.addEntry d name i).links x =
    s.inode.links x + if i = x then 1 else 0 := by
  have hnotdir := (h.base.linking p i (by rw [hpc]; rfl)).2
  have hid : i ≠ d := by
    rintro rfl
    exact hnotdir hdir
  rw [Inodes.links_fill h.tree (h.live_of_linkDir hg hpc hlock hdir habsent)
    (h.proper_of_linkDir hg hpc hdir habsent) hid fun hty ↦ absurd hty hnotdir,
    if_neg hnotdir]
  rfl

end Link

section Erase

theorem not_names_of_isdirempty
    (hempty : (s.inode i).type = some .dir → (s.inode i).isdirempty = true) (e' : Dirent n) :
    ¬s.inode.Names i e' := by
  intro he
  have hdir := h.tree.dir_of_mem he.1
  obtain ⟨par, g, hdots⟩ := h.tree.dots_of_mem he.1
  obtain ⟨rest, hents, hrest⟩ := hdots.rest_of_isdirempty (hempty hdir)
  obtain ⟨he, hp⟩ := he
  rw [hents, List.mem_cons, List.mem_cons] at he
  rcases he with he | he | he
  · obtain rfl := Option.some.inj he
    exact hp.1 rfl
  · obtain rfl := Option.some.inj he
    exact hp.2 rfl
  · exact hrest e' he

variable {off : ℕ} (hpc : (s.proc p).pc = .unlinkIp d i off)
  (hempty : (s.inode i).type = some .dir → (s.inode i).isdirempty = true)

include hpc

theorem names_of_unlinkIp : ∃ e, (s.inode d).ents[off]? = some (some e) ∧ e.inum = i ∧
    s.inode.Names d e := by
  obtain ⟨e, hslot, hinum, hp⟩ := h.doomed p d i off hpc
  exact ⟨e, hslot, hinum, List.mem_of_getElem? hslot, hp⟩

include hempty

theorem tree_of_erase : (erased s.inode d i off).Tree := by
  obtain ⟨e, hslot, rfl, he⟩ := h.names_of_unlinkIp hpc
  have htree := h.tree.clear hslot he.2 (h.not_names_of_isdirempty hempty)
  rw [erased]
  split_ifs
  · refine htree.addLink (fun _ hnil ↦ ?_) _
    rw [Inodes.ents_setEnts_self, List.set_eq_nil_iff] at hnil
    rw [hnil] at hslot
    cases hslot
  · exact htree

theorem links_of_erase (x : Fin n) : (erased s.inode d i off).links x + (if i = x then 1 else 0) +
    (if (s.inode i).type = some .dir ∧ d = x then 1 else 0) = s.inode.links x := by
  obtain ⟨e, hslot, rfl, he⟩ := h.names_of_unlinkIp hpc
  have hlinks : (erased s.inode d e.inum off).links x = (s.inode.clearEntry d off).links x := by
    rw [erased]
    split_ifs
    · exact Inodes.links_congr fun y ↦ Inodes.ents_addLink ..
    · rfl
  rw [hlinks, ← Inodes.links_clear h.tree hslot he.2 (h.base.self d e he)]
  congr 1
  by_cases hdir : (s.inode e.inum).type = some .dir
  · rw [if_pos hdir, ((h.tree.target d e he).2.2 hdir).count_of_isdirempty (hempty hdir)]
    exact if_congr (and_iff_right hdir) rfl rfl
  · rw [if_neg hdir, if_neg fun hmd ↦ hdir hmd.1]
    rfl

end Erase

theorem tree_of_did (hd : s.Did p s') (hg : s.CarefulAt p) : s'.inode.Tree := by
  cases hd.effect with
  | quiet hinode => rw [hinode]; exact h.tree
  | found _ _ _ hinode => rw [hinode]; exact h.tree
  | alloc m d name j _ _ _ _ hfree hinode => rw [hinode]; exact h.tree.ialloc hfree _
  | create full m d name j hpc _ hinode =>
    rw [entered_eq (h.fresh p m d name j hpc).ents hinode]
    exact h.tree_of_create hg hpc
  | raise j new _ _ hty hinode =>
    rw [hinode]
    exact h.tree.addLink (fun hdir ↦ absurd hdir hty) _
  | link full j d name hpc hlock hdir habsent hinode =>
    rw [Inodes.eq_of_writeEntry hinode]
    exact h.tree_of_link hg hpc hlock hdir habsent
  | lower j hpc _ hinode =>
    rw [hinode]
    exact h.tree.addLink (fun hdir ↦ absurd hdir (h.base.linking p j (by rw [hpc]; rfl)).2) _
  | erase d j off hpc _ _ hempty hinode =>
    rw [hinode]
    exact h.tree_of_erase hpc hempty
  | dec j hpc hinode =>
    rw [hinode]
    refine h.tree.addLink (fun hdir ↦ h.tree.ents_ne_nil hdir fun hzero ↦ ?_) _
    -- The count is still ahead by one.
    have hpending := h.pending_eq_zero_of_nlink (by rw [hdir]; exact Option.some_ne_none _) hzero
    have howes := Finset.sum_eq_zero_iff.mp hpending p (Finset.mem_univ p)
    rw [hpc, Pc.owes] at howes
    simp [Pc.unlinking] at howes
  | free j t hpc _ hzero _ hinode =>
    rw [hinode]
    refine h.tree.ifree (h.not_live_of_nlink_eq_zero (h.used p j ?_) hzero)
    exact mem_uses_of_pc (by rw [hpc]; exact List.mem_cons_self)

theorem size_of_did (hd : s.Did p s') : s'.inode.dirBlocks ≤ fssize := by
  have hle : (∀ d, (s'.inode d).ents.length ≤ (s.inode d).ents.length) →
      s'.inode.dirBlocks ≤ fssize := fun hle ↦ (Inodes.dirBlocks_of_le hle).trans h.size
  have hsame : (∀ d, (s'.inode d).ents = (s.inode d).ents) → s'.inode.dirBlocks ≤ fssize :=
    fun hsame ↦ hle fun d ↦ (congrArg _ (hsame d)).le
  have hupdate : ∀ {j v}, s'.inode = update s.inode j v → v.ents = [] →
      s'.inode.dirBlocks ≤ fssize := by
    intro j v hinode hv
    refine hle fun x ↦ ?_
    rw [hinode, update_apply]
    split_ifs
    · rw [hv]
      exact Nat.zero_le _
    · exact le_rfl
  cases hd.effect with
  | quiet hinode => rw [hinode]; exact h.size
  | found _ _ _ hinode => rw [hinode]; exact h.size
  | alloc m d name j _ _ _ _ _ hinode => exact hupdate hinode rfl
  | create full m d name j _ _ hinode => exact dirBlocks_of_entered h.size hinode
  | raise j new _ _ _ hinode => exact hsame fun x ↦ by rw [hinode, Inodes.ents_addLink]
  | link full j d name _ _ _ _ hinode => exact Inodes.dirBlocks_of_writeEntry h.size hinode
  | lower j _ _ hinode => exact hsame fun x ↦ by rw [hinode, Inodes.ents_addLink]
  | erase d j off _ _ _ _ hinode =>
    refine hle fun x ↦ ?_
    by_cases hx : x = d
    · have hents : (erased s.inode d j off x).ents = (s.inode x).ents.set off none := by
        rw [erased, hx]
        split_ifs
        · rw [Inodes.ents_addLink, Inodes.ents_setEnts_self]
        · rw [Inodes.ents_setEnts_self]
      rw [hinode, hents, List.length_set]
    · rw [hinode, erased_of_ne hx]
  | dec j _ hinode => exact hsame fun x ↦ by rw [hinode, Inodes.ents_addLink]
  | free j t _ _ _ _ hinode => exact hupdate hinode rfl

/-! ## Counts after a step -/

theorem count_of_addLink {j : Fin n} {y : ℤ} (hinode : s'.inode = s.inode.addLink j y)
    (hx : (s.inode x).type ≠ none) (hy : y ≤ 1)
    (hp : (s'.pending x : ℤ) = s.pending x + if x = j then y else 0) :
    (s'.inode x).nlink = s'.inode.links x + s'.pending x := by
  have hlinks : s'.inode.links x = s.inode.links x := by
    rw [hinode]
    exact Inodes.links_congr fun d ↦ Inodes.ents_addLink ..
  have hcount := h.count x hx
  have hlt := h.nlink_lt hx
  rw [hlinks, hp, hinode]
  by_cases hxj : x = j
  · subst hxj
    rw [if_pos rfl] at hp ⊢
    rw [Inodes.nlink_addLink_self, short_eq] <;> omega
  · rw [if_neg hxj, Inodes.addLink_of_ne _ hxj]
    omega

theorem pending_eq_zero_of_free (hi : (s.inode i).type = none) : s.pending i = 0 := by
  refine pending_eq_zero_of fun q ↦ ?_
  by_contra howes
  exact h.used q i (mem_uses_of_pc (Pc.mem_uses_of_owes howes)) hi

theorem count_of_create (hg : s.CarefulAt p) (hpc : (s.proc p).pc = .createNew m d name i)
    (hx : (s.inode x).type ≠ none) : (prepared s.inode m d i x).nlink =
      ((prepared s.inode m d i).addEntry d name i).links x + s.pending x := by
  have hf := h.fresh p m d name i hpc
  have hcount := h.count x hx
  have hlt := h.nlink_lt hx
  have hnonneg := h.nlink_nonneg hx
  rw [h.links_of_create hg hpc]
  by_cases hxi : x = i
  · subst hxi
    rw [nlink_prepared_self hf.ne, if_pos rfl, if_neg fun hd ↦ hf.ne hd.2.symm]
    have hzero := hf.nlink
    omega
  · rw [if_neg fun hix ↦ hxi hix.symm]
    by_cases hxd : x = d
    · subst hxd
      rw [nlink_prepared_dir hf.ne]
      by_cases hm : m.type = .dir
      · rw [if_pos hm, if_pos ⟨hm, rfl⟩, short_eq] <;> omega
      · rw [if_neg hm, if_neg fun hmd ↦ hm hmd.1]
        omega
    · rw [nlink_prepared_of_ne hxi hxd, if_neg fun hmd ↦ hxd hmd.2.symm]
      omega

theorem count_of_erase {off : ℕ} (hpc : (s.proc p).pc = .unlinkIp d i off)
    (hempty : (s.inode i).type = some .dir → (s.inode i).isdirempty = true)
    (hx : (s.inode x).type ≠ none) : (erased s.inode d i off x).nlink =
      (erased s.inode d i off).links x + (s.pending x + if i = x then 1 else 0) := by
  have hcount := h.count x hx
  have hlt := h.nlink_lt hx
  have hlinks := h.links_of_erase hpc hempty x
  -- The parent of an erased directory loses a link, and everything else keeps its count.
  have hnlink : (erased s.inode d i off x).nlink =
      (s.inode x).nlink - if (s.inode i).type = some .dir ∧ d = x then 1 else 0 := by
    by_cases hxd : x = d
    · subst hxd
      rw [erased]
      by_cases hm : (s.inode i).type = some .dir
      · have hboth : (s.inode i).type = some .dir ∧ x = x := ⟨hm, rfl⟩
        rw [if_pos hboth] at hlinks ⊢
        rw [if_pos hm, Inodes.nlink_addLink_self, Inodes.nlink_setEnts, short_eq] <;> omega
      · rw [if_neg hm, Inodes.nlink_setEnts, if_neg (not_and_of_not_left _ hm), sub_zero]
    · rw [erased_of_ne hxd, if_neg (not_and_of_not_right _ (Ne.symm hxd)), sub_zero]
  rw [hnlink]
  split_ifs at hlinks ⊢ <;> omega

omit h in
theorem pending_of_owes (hd : s.Did p s') (hx : (s'.proc p).pc.owes x = (s.proc p).pc.owes x) :
    s'.pending x = s.pending x := by
  have hpend := pending_add hd x
  omega

theorem count_of_did (hd : s.Did p s') (hg : s.CarefulAt p) (x : Fin n)
    (hx : (s'.inode x).type ≠ none) : (s'.inode x).nlink = s'.inode.links x + s'.pending x := by
  have hpend := pending_add hd x
  cases hd.effect with
  | quiet hinode _ hlink hunlink =>
    rw [hinode] at hx ⊢
    rw [pending_of_owes hd (by rw [Pc.owes, Pc.owes, hlink, hunlink])]
    exact h.count x hx
  | found _ _ _ hinode _ _ _ _ _ _ hlink hunlink =>
    rw [hinode] at hx ⊢
    rw [pending_of_owes hd (by rw [Pc.owes, Pc.owes, hlink, hunlink])]
    exact h.count x hx
  | alloc m d name j hpc _ _ _ hfree hinode hproc _ =>
    have hlive := h.tree.not_live_of_free hfree
    have hlinks : s'.inode.links x = s.inode.links x := by
      rw [hinode]
      exact Inodes.links_of_nil h.tree hlive rfl
    rw [hlinks, pending_of_owes hd (by rw [hpc, hproc]; rfl)]
    by_cases hxj : x = j
    · subst hxj
      rw [h.tree.links_eq_zero hlive, h.pending_eq_zero_of_free hfree, hinode, Inodes.ialloc,
        update_self]
      rfl
    · rw [hinode, Inodes.ialloc, update_of_ne hxj] at hx ⊢
      exact h.count x hx
  | create full m d name j hpc _ hinode hproc _ =>
    rw [(same_of_entered hinode _).1] at hx
    rw [entered_eq (h.fresh p m d name j hpc).ents hinode, Inodes.nlink_setEnts,
      pending_of_owes hd (by rw [hpc, hproc]; rfl)]
    exact h.count_of_create hg hpc hx
  | raise j new hpc _ _ hinode hproc _ =>
    rw [hinode, Inodes.type_addLink] at hx
    refine h.count_of_addLink hinode hx le_rfl ?_
    simp only [hpc, hproc, FsProc.goto, Pc.owes, Pc.linking, Pc.unlinking, Caller.linking,
      Option.some.injEq, reduceCtorEq, if_false, eq_comm (a := j)] at hpend
    split_ifs at hpend ⊢ <;> omega
  | link full j d name hpc hlock hdir habsent hinode hproc _ =>
    rw [Inodes.eq_of_writeEntry hinode] at hx ⊢
    rw [Inodes.type_setEnts] at hx
    have hcount := h.count x hx
    rw [Inodes.nlink_setEnts, h.links_of_link hg hpc hlock hdir habsent]
    simp only [hpc, hproc, FsProc.goto, Pc.owes, Pc.linking, Pc.unlinking, Option.some.injEq,
      reduceCtorEq, if_false] at hpend
    split_ifs at hpend ⊢ <;> omega
  | lower j hpc _ hinode hproc _ =>
    rw [hinode, Inodes.type_addLink] at hx
    refine h.count_of_addLink hinode hx (by omega) ?_
    simp only [hpc, hproc, FsProc.goto, Pc.owes, Pc.linking, Pc.unlinking, Option.some.injEq,
      reduceCtorEq, if_false, eq_comm (a := j)] at hpend
    split_ifs at hpend ⊢ <;> omega
  | erase d j off hpc _ _ hempty hinode hproc _ =>
    rw [hinode] at hx ⊢
    rw [type_erased] at hx
    rw [h.count_of_erase hpc hempty hx]
    simp only [hpc, hproc, FsProc.goto, Pc.owes, Pc.linking, Pc.unlinking, Option.some.injEq,
      reduceCtorEq, if_false] at hpend
    split_ifs at hpend ⊢ <;> omega
  | dec j hpc hinode hproc _ =>
    rw [hinode, Inodes.type_addLink] at hx
    refine h.count_of_addLink hinode hx (by omega) ?_
    simp only [hpc, hproc, FsProc.goto, Pc.owes, Pc.linking, Pc.unlinking, Option.some.injEq,
      reduceCtorEq, if_false, eq_comm (a := j)] at hpend
    split_ifs at hpend ⊢ <;> omega
  | free j t hpc _ hzero _ hinode hproc _ =>
    have hxj : x ≠ j := by
      rintro rfl
      rw [hinode, Inodes.ifree, update_self] at hx
      exact hx rfl
    have hlive := h.not_live_of_nlink_eq_zero
      (h.used p j (mem_uses_of_pc (by rw [hpc]; exact List.mem_cons_self))) hzero
    have hlinks : s'.inode.links x = s.inode.links x := by
      rw [hinode]
      exact Inodes.links_of_nil h.tree hlive rfl
    rw [hlinks, pending_of_owes hd (by rw [hpc, hproc]; rfl), hinode, Inodes.ifree,
      update_of_ne hxj]
    rw [hinode, Inodes.ifree, update_of_ne hxj] at hx
    exact h.count x hx

theorem of_did (hd : s.Did p s') (hg : s.CarefulAt p) : s'.Sound :=
  ⟨h.base.of_did hd, h.tree_of_did hd hg, h.used_of_did hd hg, h.opened_of_did hd,
    h.fresh_of_did hd hg, h.doomed_of_did hd, h.count_of_did hd hg, h.size_of_did hd⟩

end Sound

/-! ## Careful runs -/

instance (s : Fs n) (p : Fin nproc) : Decidable (s.CarefulAt p) :=
  inferInstanceAs (Decidable (_ ∧ _))

/-- No step looks up `".."` in a directory without links or writes an entry to one. -/
def Careful (s : Fs n) : FsAct → Prop
  | .call _ _ => True
  | .go p _ => s.CarefulAt p

instance (s : Fs n) (a : FsAct) : Decidable (s.Careful a) :=
  match a with
  | .call _ _ => inferInstanceAs (Decidable True)
  | .go p _ => inferInstanceAs (Decidable (s.CarefulAt p))

variable [NeZero n]

theorem Base.exists_careful_did (h : s.Base) (hg : s.Careful a) (ha : s.act a = .ok s') :
    ∃ p, s.Did p s' ∧ s.CarefulAt p := by
  obtain ⟨p, hd, ⟨full, rfl⟩ | ⟨hlook, hadd⟩⟩ := h.exists_did ha
  · exact ⟨p, hd, hg⟩
  · refine ⟨p, hd, fun d hd' ↦ ?_, fun d hd' ↦ ?_⟩
    · rw [hlook] at hd'
      cases hd'
    · rw [hadd] at hd'
      cases hd'

theorem Sound.of_step (h : s.Sound) (hg : s.Careful a) (ha : s.act a = .ok s') : s'.Sound := by
  obtain ⟨p, hd, hp⟩ := h.base.exists_careful_did hg ha
  exact h.of_did hd hp

theorem links_of_consistent (h : I.Consistent) (i : Fin n) :
    I.links i = ∑ d, Slots.count (·.links i) (I d).ents := by
  refine Finset.sum_congr rfl fun d _ ↦ ?_
  by_cases hd : I.Live d
  · exact Inodes.weight_of_live hd
  · rw [Inodes.weight_of_not_live hd, h.leaf d fun hdir ↦ hd ?_]
    · rfl
    · cases h.reach d (by rw [hdir]; exact Option.some_ne_none _) with
      | root => exact .inl rfl
      | step _ he => exact .inr ⟨_, _, he, rfl⟩

theorem Sound.of_image (htree : I.Tree) (hself : ∀ d e, I.Names d e → e.inum ≠ d)
    (hcount : ∀ i, (I i).type ≠ none → (I i).nlink = I.links i) (hsize : I.dirBlocks ≤ fssize) :
    (boot I).Sound := by
  have hidle : ∀ p, Pc.Idle ((boot I).proc p).pc := fun p ↦ by
    rw [Base.proc_boot]
    split_ifs
    · exact Pc.idle_ret 0
    · exact Pc.idle_dead
  have hplain : ∀ p, ((boot I).proc p).pc.Plain := fun p ↦ (hidle p).plain
  refine ⟨.of_boot hself, htree, fun p i hi ↦ ?_, fun i hi ↦ ?_,
    fun p m d name i hpc ↦ ?_, fun p d i off hpc ↦ ?_, fun i hi ↦ ?_, hsize⟩
  · rw [FsProc.uses, (hidle p).uses, List.append_nil, Base.proc_boot] at hi
    split_ifs at hi
    · obtain rfl := List.mem_singleton.mp hi
      change (I rootino).type ≠ none
      rw [htree.root_dir]
      exact Option.some_ne_none _
    · cases hi
  · obtain ⟨f, hf, -⟩ := hi
    exact absurd hf (lt_irrefl 0)
  · have hp := hplain p
    rw [hpc] at hp
    exact hp.elim
  · have hp := hplain p
    rw [hpc] at hp
    exact hp.elim
  · have hpending : (boot I).pending i = 0 := by
      refine pending_eq_zero_of fun p ↦ ?_
      rw [Pc.owes, (hidle p).linking, (hidle p).unlinking]
      rfl
    change (I i).nlink = (I.links i : ℤ) + _
    rw [hpending, hcount i hi, Nat.cast_zero, add_zero]

theorem Sound.of_boot (h : I.Consistent) : (boot I).Sound := by
  refine .of_image h.tree (fun d e he ↦ h.self he) (fun i hi ↦ ?_) h.size
  rw [h.nlink i hi, links_of_consistent h, Nat.cast_sum]

theorem sound_of_reachable (h : (fileSystem n).ReachableUnder Careful s) : s.Sound := by
  refine h.invariant (fun s hs ↦ ?_) fun s a s' _ hI hg hs ↦ hI.of_step hg (act_of_step hs)
  obtain ⟨I, hI, rfl⟩ := hs
  exact .of_boot hI

/-! ## Link counts between calls -/

omit [NeZero n] in
theorem pending_of_quiescent (hq : s.Quiescent) (i : Fin n) : s.pending i = 0 := by
  refine pending_eq_zero_of fun p ↦ ?_
  rcases hq p with ⟨r, hpc⟩ | hpc <;> rw [hpc] <;> rfl

theorem Sound.nlink_pos_iff (h : s.Sound) (hq : s.Quiescent) (hdir : (s.inode d).type = some .dir) :
    0 < (s.inode d).nlink ↔ s.inode.Live d := by
  have hcount := h.count d (by rw [hdir]; exact Option.some_ne_none _)
  rw [pending_of_quiescent hq] at hcount
  constructor
  · intro hpos
    by_contra hlive
    rw [h.tree.links_eq_zero hlive] at hcount
    omega
  · intro hlive
    have hpos := h.tree.links_pos hlive
    omega

/-- **Link counts.** In a run in which no `".."` is looked up in a directory without links and no
entry is written to one, whenever no call is in progress the link count of an allocated inode is the
number of entries other than `"."` that name it in directories with links. -/
theorem nlink_eq_linkCount (h : (fileSystem n).ReachableUnder Careful s) (hq : s.Quiescent)
    (i : Fin n)
    (hi : (s.inode i).type ≠ none) : (s.inode i).nlink = s.inode.linkCount i := by
  have hs := sound_of_reachable h
  rw [hs.count i hi, pending_of_quiescent hq, Nat.cast_zero, add_zero, Nat.cast_inj]
  refine Finset.sum_congr rfl fun d _ ↦ ?_
  by_cases hdir : (s.inode d).type = some .dir
  · by_cases hlive : s.inode.Live d
    · rw [Inodes.weight_of_live hlive, if_pos ((hs.nlink_pos_iff hq hdir).mpr hlive)]
    · rw [Inodes.weight_of_not_live hlive,
        if_neg fun hpos ↦ hlive ((hs.nlink_pos_iff hq hdir).mp hpos)]
  · rw [hs.tree.leaf d hdir, Slots.count_nil, ite_self, Inodes.weight, hs.tree.leaf d hdir,
      Slots.count_nil, ite_self]

theorem nlink_eq_linkCount_mkdir : ∃ s : Fs 199, (fileSystem 199).ReachableUnder Careful s ∧
    s.Quiescent ∧ (s.inode 1).type = some .dir ∧ (s.inode 1).nlink = s.inode.linkCount 1 := by
  obtain ⟨s, hs, hend⟩ := Machine.exists_reachableUnder_of_run (M := fileSystem 199) (G := Careful)
    (script 0 (.mkdir [97]) 9) (fun s ↦ s.Quiescent ∧ (s.inode 1).type = some .dir)
    ⟨Inodes.mkfs, Inodes.consistent_mkfs, rfl⟩ (by decide +kernel)
  obtain ⟨hq, hdir⟩ := of_decide_eq_true hend
  exact ⟨s, hs, hq, hdir, nlink_eq_linkCount hs hq 1 (by rw [hdir]; exact Option.some_ne_none _)⟩

/-- On an empty file system, a process makes a directory, changes into it, removes it by its
absolute path and creates a file. The file has one link in its inode, and none in a directory with
links. -/
theorem exists_nlink_ne_linkCount : ∃ s : Fs 199, (fileSystem 199).Reachable s ∧ s.Quiescent ∧
    ∃ i, (s.inode i).type ≠ none ∧ (s.inode i).nlink ≠ s.inode.linkCount i := by
  obtain ⟨s, hs, hend⟩ := Machine.exists_reachable_of_run (M := fileSystem 199)
    (script 0 (.mkdir [97]) 9 ++ script 0 (.chdir [97]) 8 ++ script 0 (.unlink [47, 97]) 9 ++
      script 0 (.open [98] oCreate) 7)
    (fun s ↦ s.Quiescent ∧ (s.inode 2).type ≠ none ∧ (s.inode 2).nlink ≠ s.inode.linkCount 2)
    ⟨Inodes.mkfs, Inodes.consistent_mkfs, rfl⟩ (by decide +kernel)
  obtain ⟨hq, hi⟩ := of_decide_eq_true hend
  exact ⟨s, hs, hq, 2, hi⟩

end Fs

end OperatingSystems
