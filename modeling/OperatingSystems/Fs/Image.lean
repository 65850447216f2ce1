import OperatingSystems.Fs.State

/-!
# Consistent images

What a file system looks like that nobody has damaged: a tree of directories with correct link
counts. This is what `mkfs` writes and what a run starts from.
-/

namespace OperatingSystems

open Function

/-- An entry that counts as a link to inode `i`: any but `"."`. -/
def Dirent.links {n : ℕ} (i : Fin n) (e : Dirent n) : Bool := e.name ≠ dot ∧ e.inum = i

/-- An entry that gives inode `i` a proper name. -/
def Dirent.names {n : ℕ} (i : Fin n) (e : Dirent n) : Bool := Proper e.name ∧ e.inum = i

namespace Inodes

variable {n off g : ℕ} (I : Inodes n) {name : Bytes} {par : Fin n}

/-- Directory `d` holds entry `e`, which is neither `"."` nor `".."`. -/
def Names (d : Fin n) (e : Dirent n) : Prop := some e ∈ (I d).ents ∧ Proper e.name

/-- The slots of directory `d` start with `"."` and `".."`, which is `par`; the other names are
proper ones. -/
def Dots (d par : Fin n) (g : ℕ) : Prop :=
  ∃ rest, (I d).ents = some ⟨d, dot, (I d).gen⟩ :: some ⟨par, dotdot, g⟩ :: rest ∧
    ∀ e, some e ∈ rest → Proper e.name

/-- The number of entries other than `"."` that name `i` in directories whose own link count is
greater than zero. -/
def linkCount (i : Fin n) : ℕ :=
  ∑ d, if 0 < (I d).nlink then Slots.count (·.links i) (I d).ents else 0

inductive Reach [NeZero n] : Fin n → Prop
  | root : Reach rootino
  | step {d : Fin n} {e : Dirent n} : Reach d → I.Names d e → Reach e.inum

structure Consistent [NeZero n] : Prop where
  /-- Only directories have entries. -/
  leaf : ∀ i, (I i).type ≠ some .dir → (I i).ents = []
  dots : ∀ d, (I d).type = some .dir → ∃ par, I.Dots d par (I par).gen
  root_dir : (I rootino).type = some .dir
  root_dots : I.Dots rootino rootino (I rootino).gen
  /-- The root has no other name. -/
  root_names : ∀ d e, I.Names d e → e.inum ≠ rootino
  /-- An entry names an inode that is allocated, and a directory that it names has it as parent. -/
  target : ∀ d e, I.Names d e → (I e.inum).type ≠ none ∧ (I e.inum).gen = e.gen ∧
    ((I e.inum).type = some .dir → I.Dots e.inum d (I d).gen)
  /-- Everything that is allocated is somewhere in the tree. -/
  reach : ∀ i, (I i).type ≠ none → I.Reach i
  /-- A directory has no two names. -/
  once : ∀ i d, (I i).type = some .dir → Slots.count (·.names i) (I d).ents ≤ 1
  nlink : ∀ i, (I i).type ≠ none → (I i).nlink = ∑ d, (Slots.count (·.links i) (I d).ents : ℤ)
  size : I.dirBlocks ≤ fssize

/-! ## Entries after a change -/

variable {I} {I' : Inodes n} {d x i : Fin n} {e e' : Dirent n}

theorem ents_setEnts_self (l : List (Option (Dirent n))) : (I.setEnts d l d).ents = l := by
  rw [setEnts, update_self]

theorem setEnts_of_ne (l : List (Option (Dirent n))) (h : x ≠ d) : I.setEnts d l x = I x :=
  update_of_ne h ..

theorem addEntry_of_ne (h : x ≠ d) : I.addEntry d name i x = I x :=
  setEnts_of_ne _ h

theorem clearEntry_of_ne (h : x ≠ d) : I.clearEntry d off x = I x := setEnts_of_ne _ h

theorem names_congr (h : (I' d).ents = (I d).ents) : I'.Names d e ↔ I.Names d e := by
  rw [Names, Names, h]

theorem names_addLink {y : ℤ} : (I.addLink i y).Names d e ↔ I.Names d e :=
  names_congr (ents_addLink I i d y)

theorem names_fill : (I.setEnts d (Slots.fill e' (I d).ents)).Names x e ↔
    I.Names x e ∨ x = d ∧ e = e' ∧ Proper e'.name := by
  by_cases hx : x = d
  · subst hx
    rw [Names, ents_setEnts_self, Slots.mem_fill, Names]
    constructor
    · rintro ⟨rfl | h, hp⟩
      · exact .inr ⟨rfl, rfl, hp⟩
      · exact .inl ⟨h, hp⟩
    · rintro (⟨h, hp⟩ | ⟨-, rfl, hp⟩)
      · exact ⟨.inr h, hp⟩
      · exact ⟨.inl rfl, hp⟩
  · rw [Names, setEnts_of_ne _ hx, Names]
    exact ⟨.inl, fun h ↦ h.resolve_right fun h ↦ hx h.1⟩

theorem names_of_clear (h : (I.setEnts d ((I d).ents.set off none)).Names x e) : I.Names x e := by
  obtain ⟨hmem, hp⟩ := h
  by_cases hx : x = d
  · subst hx
    rw [ents_setEnts_self] at hmem
    exact ⟨Slots.mem_of_mem_clear hmem, hp⟩
  · rw [setEnts_of_ne _ hx] at hmem
    exact ⟨hmem, hp⟩

theorem dots_congr (hents : (I' d).ents = (I d).ents) (hgen : (I' d).gen = (I d).gen) :
    I'.Dots d par g ↔ I.Dots d par g := by
  rw [Dots, Dots, hents, hgen]

theorem Dots.ents_ne_nil (h : I.Dots d par g) : (I d).ents ≠ [] := by
  obtain ⟨rest, hents, -⟩ := h
  rw [hents]
  exact List.cons_ne_nil _ _

theorem Dots.fill (h : I.Dots x par g) (hp : Proper e.name) :
    (I.setEnts d (Slots.fill e (I d).ents)).Dots x par g := by
  by_cases hx : x = d
  · subst hx
    obtain ⟨rest, hents, hproper⟩ := h
    refine ⟨Slots.fill e rest, ?_, fun e' he' ↦ ?_⟩
    · rw [ents_setEnts_self, hents, gen_setEnts]
      rfl
    · rcases Slots.mem_fill.mp he' with rfl | he'
      · exact hp
      · exact hproper e' he'
  · exact (dots_congr (by rw [setEnts_of_ne _ hx]) (gen_setEnts ..)).mpr h

theorem Dots.clear (h : I.Dots x par g) (hslot : (I d).ents[off]? = some (some e))
    (hp : Proper e.name) : (I.setEnts d ((I d).ents.set off none)).Dots x par g := by
  by_cases hx : x = d
  · subst hx
    obtain ⟨rest, hents, hproper⟩ := h
    rw [hents] at hslot
    match off, hslot with
    | 0, hslot =>
      obtain rfl := Option.some.inj (Option.some.inj hslot)
      exact absurd rfl hp.1
    | 1, hslot =>
      obtain rfl := Option.some.inj (Option.some.inj hslot)
      exact absurd rfl hp.2
    | off + 2, hslot =>
      refine ⟨rest.set off none, ?_, fun e' he' ↦ hproper e' (Slots.mem_of_mem_clear he')⟩
      rw [ents_setEnts_self, hents, gen_setEnts]
      rfl
  · exact (dots_congr (by rw [setEnts_of_ne _ hx]) (gen_setEnts ..)).mpr h

theorem Dots.par_eq {par' : Fin n} {g' : ℕ} (h : I.Dots d par g) (h' : I.Dots d par' g') :
    par = par' := by
  obtain ⟨rest, h, -⟩ := h
  obtain ⟨rest', h', -⟩ := h'
  rw [h] at h'
  simp only [List.cons.injEq, Option.some.injEq, Dirent.mk.injEq] at h'
  exact h'.2.1.1

theorem Dots.dotdot (h : I.Dots d par g) (he : some e ∈ (I d).ents) (hname : e.name = dotdot) :
    e.inum = par ∧ e.gen = g := by
  obtain ⟨rest, hents, hproper⟩ := h
  rw [hents, List.mem_cons, List.mem_cons] at he
  rcases he with he | he | he
  · obtain rfl := Option.some.inj he
    cases hname
  · obtain rfl := Option.some.inj he
    exact ⟨rfl, rfl⟩
  · exact absurd hname (hproper e he).2

theorem Dots.dot_self (h : I.Dots d par g) (he : some e ∈ (I d).ents) (hname : e.name = dot) :
    e.inum = d ∧ e.gen = (I d).gen := by
  obtain ⟨rest, hents, hproper⟩ := h
  rw [hents, List.mem_cons, List.mem_cons] at he
  rcases he with he | he | he
  · obtain rfl := Option.some.inj he
    exact ⟨rfl, rfl⟩
  · obtain rfl := Option.some.inj he
    cases hname
  · exact absurd hname (hproper e he).1

theorem not_proper_iff : ¬Proper name ↔ name = dot ∨ name = dotdot := by
  rw [Proper, not_and_or, not_not, not_not]

theorem links_iff : e.links i = true ↔ e.name ≠ dot ∧ e.inum = i :=
  decide_eq_true_iff

theorem names_iff : e.names i = true ↔ Proper e.name ∧ e.inum = i := decide_eq_true_iff

theorem Consistent.self [NeZero n] (h : I.Consistent) (he : I.Names d e) : e.inum ≠ d := by
  intro hself
  have hdir : (I d).type = some .dir := by
    by_contra hne
    have hmem := he.1
    rw [h.leaf d hne] at hmem
    cases hmem
  -- Its only name is its own entry, so no path from the root gets there.
  have hne : ∀ x, I.Reach x → x ≠ d := by
    intro x hx
    induction hx with
    | root => exact fun hroot ↦ h.root_names d e he (hself.trans hroot.symm)
    | step _ he' ih =>
      rintro rfl
      exact ih
        (Dots.par_eq ((h.target _ _ he').2.2 hdir) (hself ▸ (h.target _ _ he).2.2 (hself ▸ hdir)))
  exact hne d (h.reach d (hdir ▸ Option.some_ne_none _)) rfl

theorem not_proper_dot : ¬Proper dot := fun h ↦ h.1 rfl

theorem not_proper_dotdot : ¬Proper dotdot := fun h ↦ h.2 rfl

/-! ## The empty file system -/

section Mkfs

variable [NeZero n]

/-- What `mkfs` writes when it is given no files: a root directory. -/
def mkfs : Inodes n :=
  update (fun _ ↦ ⟨none, 0, 0, 0, [], 0⟩) rootino
    ⟨some .dir, 0, 0, 1, [some ⟨rootino, dot, 0⟩, some ⟨rootino, dotdot, 0⟩], 0⟩

theorem mkfs_rootino : (mkfs : Inodes n) rootino = ⟨some .dir, 0, 0, 1,
    [some ⟨rootino, dot, 0⟩, some ⟨rootino, dotdot, 0⟩], 0⟩ :=
  update_self ..

theorem mkfs_of_ne (h : i ≠ rootino) : (mkfs : Inodes n) i = ⟨none, 0, 0, 0, [], 0⟩ :=
  update_of_ne h ..

theorem eq_rootino_of_mkfs (h : ((mkfs : Inodes n) i).type ≠ none) : i = rootino := by
  by_contra hi
  rw [mkfs_of_ne hi] at h
  exact h rfl

theorem not_names_mkfs : ¬(mkfs : Inodes n).Names d e := by
  rintro ⟨he, hp⟩
  by_cases hd : d = rootino
  · rw [hd, mkfs_rootino] at he
    simp only [List.mem_cons, Option.some.injEq, List.not_mem_nil, or_false] at he
    rcases he with rfl | rfl
    · exact hp.1 rfl
    · exact hp.2 rfl
  · rw [mkfs_of_ne hd] at he
    cases he

theorem dots_mkfs : (mkfs : Inodes n).Dots rootino rootino ((mkfs : Inodes n) rootino).gen :=
  ⟨[], by rw [mkfs_rootino], fun _ he ↦ by cases he⟩

theorem consistent_mkfs : (mkfs : Inodes n).Consistent where
  leaf i hi := by
    have hne : i ≠ rootino := by
      rintro rfl
      rw [mkfs_rootino] at hi
      exact hi rfl
    rw [mkfs_of_ne hne]
  dots d hd := by
    obtain rfl := eq_rootino_of_mkfs (i := d) (by rw [hd]; exact Option.some_ne_none _)
    exact ⟨rootino, dots_mkfs⟩
  root_dir := by rw [mkfs_rootino]
  root_dots := dots_mkfs
  root_names _ _ he := absurd he not_names_mkfs
  target _ _ he := absurd he not_names_mkfs
  reach i hi := by
    obtain rfl := eq_rootino_of_mkfs hi
    exact .root
  once i d _ := by
    rw [Slots.count_eq_zero_iff.mpr]
    · exact Nat.zero_le _
    · intro e he
      by_contra hnot
      rw [Bool.not_eq_false, names_iff] at hnot
      exact not_names_mkfs ⟨he, hnot.1⟩
  nlink i hi := by
    obtain rfl := eq_rootino_of_mkfs hi
    rw [Finset.sum_eq_single_of_mem rootino (Finset.mem_univ _) fun d _ hd ↦ by
      rw [mkfs_of_ne hd]; rfl, mkfs_rootino]
    have hdot : ¬(⟨rootino, dot, 0⟩ : Dirent n).links rootino = true :=
      fun h ↦ (links_iff.mp h).1 rfl
    have hdotdot : (⟨rootino, dotdot, 0⟩ : Dirent n).links rootino = true :=
      links_iff.mpr ⟨dotdot_ne_dot, rfl⟩
    rw [Slots.count_cons_some, Slots.count_cons_some, if_neg hdot, if_pos hdotdot]
    rfl
  size := by
    have hzero : ∀ d, d ≠ rootino → (((mkfs : Inodes n) d).ents.length + (direntsPerBlock - 1))
        / direntsPerBlock = 0 := fun d hd ↦ by
      rw [mkfs_of_ne hd]
      exact (by decide : (0 + (direntsPerBlock - 1)) / direntsPerBlock = 0)
    rw [dirBlocks, Finset.sum_eq_single_of_mem rootino (Finset.mem_univ _) fun d _ ↦ hzero d,
      mkfs_rootino]
    exact (by decide : (2 + (direntsPerBlock - 1)) / direntsPerBlock ≤ fssize)

end Mkfs

end Inodes

end OperatingSystems
