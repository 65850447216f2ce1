import OperatingSystems.Fs.Image

/-!
# The tree of directories

`Tree` is what a run keeps of a consistent image while calls are in progress: a directory may have
lost its name, and then it is empty; a new one has no entries yet. The links that are counted are
those in directories that have a name. Each change that the calls make to the inodes keeps the tree,
and has a known effect on the counts.
-/

namespace OperatingSystems

open Function

namespace Inodes

variable {n : ℕ} [NeZero n] {I I' : Inodes n} {d i j x : Fin n} {e : Dirent n} {v : Inode n}

/-- The root, and what has a proper name in some directory. -/
def Live (I : Inodes n) (d : Fin n) : Prop := d = rootino ∨ ∃ x e, I.Names x e ∧ e.inum = d

open Classical in
/-- The links to `i` in directory `d`, if `d` has a name. -/
noncomputable def weight (I : Inodes n) (i d : Fin n) : ℕ :=
  if I.Live d then Slots.count (·.links i) (I d).ents else 0

/-- The links to `i` in all directories that have a name. -/
noncomputable def links (I : Inodes n) (i : Fin n) : ℕ := ∑ d, I.weight i d

theorem weight_of_live (h : I.Live d) : I.weight i d = Slots.count (·.links i) (I d).ents :=
  if_pos h

theorem weight_of_not_live (h : ¬I.Live d) : I.weight i d = 0 := if_neg h

theorem weight_congr (hlive : I'.Live d ↔ I.Live d) (hents : (I' d).ents = (I d).ents) :
    I'.weight i d = I.weight i d := by
  by_cases h : I.Live d
  · rw [weight_of_live h, weight_of_live (hlive.mpr h), hents]
  · rw [weight_of_not_live h, weight_of_not_live fun h' ↦ h (hlive.mp h')]

structure Tree (I : Inodes n) : Prop where
  leaf : ∀ i, (I i).type ≠ some .dir → (I i).ents = []
  /-- A directory without entries has not been initialised. -/
  dots : ∀ d, (I d).type = some .dir →
    (I d).ents = [] ∧ (I d).nlink = 0 ∨ ∃ par g, I.Dots d par g
  root_dir : (I rootino).type = some .dir
  root_dots : I.Dots rootino rootino (I rootino).gen
  root_names : ∀ d e, I.Names d e → e.inum ≠ rootino
  target : ∀ d e, I.Names d e → (I e.inum).type ≠ none ∧ (I e.inum).gen = e.gen ∧
    ((I e.inum).type = some .dir → I.Dots e.inum d (I d).gen)
  once : ∀ i d, (I i).type = some .dir → Slots.count (·.names i) (I d).ents ≤ 1
  /-- A directory that has lost its name is empty. -/
  bare : ∀ d, ¬I.Live d → ∀ e, ¬I.Names d e

theorem Consistent.tree (h : I.Consistent) : I.Tree where
  leaf := h.leaf
  dots d hd := .inr ((h.dots d hd).imp fun par hpar ↦ ⟨_, hpar⟩)
  root_dir := h.root_dir
  root_dots := h.root_dots
  root_names := h.root_names
  target := h.target
  once := h.once
  bare d hd e he := by
    have hty : (I d).type ≠ none := fun hnone ↦ by
      have hmem := he.1
      rw [h.leaf d (by rw [hnone]; exact fun h ↦ by cases h)] at hmem
      cases hmem
    cases h.reach d hty with
    | root => exact hd (.inl rfl)
    | step _ hnames => exact hd (.inr ⟨_, _, hnames, rfl⟩)

/-! ## Counting links -/

namespace Tree

variable (h : I.Tree)

include h

theorem dir_of_mem (he : some e ∈ (I d).ents) : (I d).type = some .dir := by
  by_contra hne
  rw [h.leaf d hne] at he
  cases he

theorem dots_of_mem (he : some e ∈ (I d).ents) : ∃ par g, I.Dots d par g := by
  rcases h.dots d (h.dir_of_mem he) with ⟨hnil, -⟩ | hdots
  · rw [hnil] at he
    cases he
  · exact hdots

theorem live_of_names (he : I.Names d e) : I.Live d := by
  by_contra hd
  exact h.bare d hd e he

theorem parent_of_live {par : Fin n} {g : ℕ} (hd : I.Live d) (hdots : I.Dots d par g) :
    I.Live par ∧ (I par).type = some .dir ∧ (I par).gen = g := by
  rcases hd with rfl | ⟨x, e', he', rfl⟩
  · obtain rfl := hdots.par_eq h.root_dots
    obtain ⟨rest, hents, -⟩ := hdots
    refine ⟨.inl rfl, h.root_dir, ?_⟩
    have hmem : some ⟨rootino, dotdot, g⟩ ∈ (I rootino).ents := by
      rw [hents]
      exact List.mem_cons_of_mem _ List.mem_cons_self
    exact (h.root_dots.dotdot hmem rfl).2.symm
  · obtain ⟨rest, hents, hproper⟩ := hdots
    have hmem : some ⟨par, dotdot, g⟩ ∈ (I e'.inum).ents := by
      rw [hents]
      exact List.mem_cons_of_mem _ List.mem_cons_self
    obtain ⟨rfl, hgen⟩ := ((h.target x e' he').2.2 (h.dir_of_mem hmem)).dotdot hmem rfl
    exact ⟨h.live_of_names he', h.dir_of_mem he'.1, hgen.symm⟩

theorem links_eq_zero (hd : ¬I.Live d) : I.links d = 0 := by
  refine Finset.sum_eq_zero fun x _ ↦ ?_
  by_cases hx : I.Live x
  · rw [weight_of_live hx]
    refine Slots.count_eq_zero_iff.mpr fun e he ↦ ?_
    by_contra hlinks
    rw [Bool.not_eq_false, links_iff] at hlinks
    obtain ⟨hname, rfl⟩ := hlinks
    by_cases hp : Proper e.name
    · exact hd (.inr ⟨x, e, ⟨he, hp⟩, rfl⟩)
    · -- The entry is `".."` of a live directory, whose parent is live.
      obtain ⟨par, g, hdots⟩ := h.dots_of_mem he
      have hdotdot := (not_proper_iff.mp hp).resolve_left hname
      rw [(hdots.dotdot he hdotdot).1] at hd
      exact hd (h.parent_of_live hx hdots).1
  · exact weight_of_not_live hx

omit h in
theorem weight_pos (hx : I.Live x) (he : some e ∈ (I x).ents) (hname : e.name ≠ dot) :
    0 < I.weight e.inum x := by
  rw [weight_of_live hx]
  exact Slots.count_pos_iff.mpr ⟨e, he, links_iff.mpr ⟨hname, rfl⟩⟩

omit h in
theorem links_pos_of_weight (hw : 0 < I.weight i x) : 0 < I.links i := by
  rw [links, ← Finset.add_sum_erase _ _ (Finset.mem_univ x)]
  omega

theorem links_pos (hd : I.Live d) : 0 < I.links d := by
  rcases hd with rfl | ⟨x, e, he, rfl⟩
  · obtain ⟨rest, hents, -⟩ := h.root_dots
    refine links_pos_of_weight
      (weight_pos (e := ⟨rootino, dotdot, (I rootino).gen⟩) (.inl rfl) ?_ ?_)
    · rw [hents]
      exact List.mem_cons_of_mem _ List.mem_cons_self
    · exact dotdot_ne_dot
  · exact links_pos_of_weight (weight_pos (h.live_of_names he) he.1 he.2.1)

end Tree

/-! ## Changes of the inodes -/

theorem live_congr (h : ∀ d, (I' d).ents = (I d).ents) : I'.Live x ↔ I.Live x := by
  simp only [Live, names_congr (h _)]

theorem links_congr (h : ∀ d, (I' d).ents = (I d).ents) : I'.links i = I.links i :=
  Finset.sum_congr rfl fun d _ ↦ weight_congr (live_congr h) (h d)

theorem Tree.congr (h : I.Tree) (hents : ∀ i, (I' i).ents = (I i).ents)
    (hgen : ∀ i, (I' i).gen = (I i).gen) (htype : ∀ i, (I' i).type = (I i).type)
    (hnlink : ∀ d, (I d).type = some .dir → (I d).ents = [] → (I' d).nlink = 0) : I'.Tree := by
  have hnames : ∀ d e, I'.Names d e ↔ I.Names d e := fun d e ↦ names_congr (hents d)
  have hdots : ∀ d par g, I'.Dots d par g ↔ I.Dots d par g := fun d par g ↦
    dots_congr (hents d) (hgen d)
  refine ⟨fun i hi ↦ ?_, fun d hd ↦ ?_, ?_, ?_, fun d e he ↦ ?_, fun d e he ↦ ?_, fun i d hi ↦ ?_,
    fun d hd e he ↦ ?_⟩
  · rw [hents]
    exact h.leaf i (htype i ▸ hi)
  · rw [htype] at hd
    rcases h.dots d hd with ⟨hnil, -⟩ | ⟨par, g, hd⟩
    · exact .inl ⟨(hents d).trans hnil, hnlink d hd hnil⟩
    · exact .inr ⟨par, g, (hdots d par g).mpr hd⟩
  · rw [htype]
    exact h.root_dir
  · rw [hgen]
    exact (hdots _ _ _).mpr h.root_dots
  · exact h.root_names d e ((hnames d e).mp he)
  · rw [htype, hgen, hgen, hdots]
    exact h.target d e ((hnames d e).mp he)
  · rw [hents]
    exact h.once i d (htype i ▸ hi)
  · exact h.bare d (fun hl ↦ hd ((live_congr hents).mpr hl)) e ((hnames d e).mp he)

theorem Tree.addLink (h : I.Tree) (hi : (I i).type = some .dir → (I i).ents ≠ []) (y : ℤ) :
    (I.addLink i y).Tree := by
  refine h.congr (I.ents_addLink i · y) (I.gen_addLink i · y) (I.type_addLink i · y)
    fun d hd hnil ↦ ?_
  have hne : d ≠ i := by
    rintro rfl
    exact hi hd hnil
  rw [Inodes.addLink, update_of_ne hne]
  rcases h.dots d hd with ⟨-, hnlink⟩ | ⟨par, g, hdots⟩
  · exact hnlink
  · exact absurd hnil hdots.ents_ne_nil

theorem Tree.of_nil (h : I.Tree) (hlive : ¬I.Live i) (hents : v.ents = [])
    (hdir : v.type = some .dir → v.nlink = 0) : Tree (update I i v) := by
  have hroot : i ≠ rootino := fun hi ↦ hlive (.inl hi)
  have hnames : ∀ {d e}, Names (update I i v) d e → I.Names d e ∧ d ≠ i := by
    intro d e he
    have hne : d ≠ i := by
      rintro rfl
      rw [Names, update_self, hents] at he
      cases he.1
    exact ⟨by rwa [Names, update_of_ne hne] at he, hne⟩
  have hinum : ∀ {d e}, I.Names d e → e.inum ≠ i := fun he hi ↦ hlive (.inr ⟨_, _, he, hi⟩)
  have hdots : ∀ {d par g}, d ≠ i → I.Dots d par g → Dots (update I i v) d par g := by
    intro d par g hd hI
    rwa [Dots, update_of_ne hd]
  refine ⟨fun x hx ↦ ?_, fun d hd ↦ ?_, ?_, ?_, fun d e he ↦ ?_, fun d e he ↦ ?_, fun x d hx ↦ ?_,
    fun d hd e he ↦ ?_⟩
  · by_cases hxi : x = i
    · rw [hxi, update_self, hents]
    · rw [update_of_ne hxi] at hx ⊢
      exact h.leaf x hx
  · by_cases hdi : d = i
    · rw [hdi, update_self] at hd ⊢
      exact .inl ⟨hents, hdir hd⟩
    · rw [update_of_ne hdi] at hd ⊢
      rcases h.dots d hd with hnil | ⟨par, g, hI⟩
      · exact .inl hnil
      · exact .inr ⟨par, g, hdots hdi hI⟩
  · rw [update_of_ne hroot.symm]
    exact h.root_dir
  · rw [update_of_ne hroot.symm]
    exact hdots hroot.symm h.root_dots
  · exact h.root_names d e (hnames he).1
  · obtain ⟨he, hd⟩ := hnames he
    rw [update_of_ne (hinum he), update_of_ne hd]
    exact (h.target d e he).imp_right (.imp_right fun hI hty ↦ hdots (hinum he) (hI hty))
  · by_cases hdi : d = i
    · rw [hdi, update_self, hents]
      exact Nat.zero_le _
    · rw [update_of_ne hdi]
      by_cases hxi : x = i
      · -- Nothing names the inode.
        rw [Slots.count_eq_zero_iff.mpr]
        · exact Nat.zero_le _
        · intro e he
          by_contra hnot
          rw [Bool.not_eq_false, names_iff] at hnot
          exact hinum ⟨he, hnot.1⟩ (hnot.2.trans hxi)
      · rw [update_of_ne hxi] at hx
        exact h.once x d hx
  · obtain ⟨he, hdi⟩ := hnames he
    refine h.bare d (fun hl ↦ hd ?_) e he
    obtain rfl | ⟨x, e', he', rfl⟩ := hl
    · exact .inl rfl
    refine .inr ⟨x, e', ?_, rfl⟩
    have hx : x ≠ i := by
      rintro rfl
      exact h.bare _ hlive e' he'
    rwa [Names, update_of_ne hx]

theorem links_of_nil (h : I.Tree) (hlive : ¬I.Live i) (hents : v.ents = []) :
    links (update I i v) j = I.links j := by
  have hiff : Live (update I i v) = I.Live := by
    refine funext fun d ↦ propext ⟨fun hl ↦ hl.imp_right ?_, fun hl ↦ hl.imp_right ?_⟩
    · rintro ⟨x, e, he, hd'⟩
      have hx : x ≠ i := by
        rintro rfl
        rw [Names, update_self, hents] at he
        cases he.1
      exact ⟨x, e, by rwa [Names, update_of_ne hx] at he, hd'⟩
    · rintro ⟨x, e, he, hd'⟩
      have hx : x ≠ i := by
        rintro rfl
        exact h.bare _ hlive e he
      exact ⟨x, e, by rwa [Names, update_of_ne hx], hd'⟩
  refine Finset.sum_congr rfl fun d _ ↦ ?_
  by_cases hd : d = i
  · rw [hd, weight_of_not_live hlive, weight_of_not_live (hiff ▸ hlive)]
  · exact weight_congr (by rw [hiff]) (by rw [update_of_ne hd])

theorem Tree.not_live_of_free (h : I.Tree) (hi : (I i).type = none) : ¬I.Live i := by
  rintro (rfl | ⟨x, e, he, rfl⟩)
  · rw [h.root_dir] at hi
    cases hi
  · exact (h.target x e he).1 hi

theorem Tree.ialloc (h : I.Tree) (hi : (I i).type = none) (t : FileType) : (I.ialloc i t).Tree :=
  h.of_nil (h.not_live_of_free hi) rfl fun _ ↦ rfl

theorem Tree.ifree (h : I.Tree) (hi : ¬I.Live i) : (I.ifree i).Tree :=
  h.of_nil hi rfl fun hdir ↦ by cases hdir

/-- New entries of a directory keep the tree if its `"."` and `".."` stay, or come where there were
none, and what is named was named before or is fit to be named. -/
theorem Tree.setEnts (h : I.Tree) {l : List (Option (Dirent n))} (hdir : (I d).type = some .dir)
    (hdots : ∀ {x par g}, I.Dots x par g → (I.setEnts d l).Dots x par g)
    (hnew : (I d).ents = [] → ∃ par g, (I.setEnts d l).Dots d par g)
    (hnames : ∀ {x e}, (I.setEnts d l).Names x e → I.Names x e ∨ x = d ∧ e.inum ≠ rootino ∧
      (I e.inum).type ≠ none ∧ (I e.inum).gen = e.gen ∧
        ((I e.inum).type = some .dir → I.Dots e.inum d (I d).gen))
    (honce : ∀ x, (I x).type = some .dir → Slots.count (·.names x) l ≤ 1)
    (hbare : ∀ x, ¬(I.setEnts d l).Live x → ∀ e, ¬(I.setEnts d l).Names x e) :
    (I.setEnts d l).Tree := by
  refine ⟨fun x hx ↦ ?_, fun x hx ↦ ?_, ?_, ?_, fun x e he ↦ ?_, fun x e he ↦ ?_, fun x y hx ↦ ?_,
    hbare⟩
  · rw [type_setEnts] at hx
    have hxd : x ≠ d := fun hxd ↦ hx (hxd ▸ hdir)
    rw [setEnts_of_ne _ hxd]
    exact h.leaf x hx
  · rw [type_setEnts] at hx
    rcases h.dots x hx with hnil | ⟨par, g, hI⟩
    · by_cases hxd : x = d
      · exact .inr (hxd ▸ hnew (hxd ▸ hnil.1))
      · rw [setEnts_of_ne _ hxd]
        exact .inl hnil
    · exact .inr ⟨par, g, hdots hI⟩
  · rw [type_setEnts]
    exact h.root_dir
  · rw [gen_setEnts]
    exact hdots h.root_dots
  · exact (hnames he).elim (h.root_names x e) fun hnew ↦ hnew.2.1
  · rw [type_setEnts, gen_setEnts, gen_setEnts]
    rcases hnames he with he | ⟨rfl, -, htype, hgen, hI⟩
    · exact (h.target x e he).imp_right (.imp_right fun hI hty ↦ hdots (hI hty))
    · exact ⟨htype, hgen, fun hty ↦ hdots (hI hty)⟩
  · rw [type_setEnts] at hx
    by_cases hyd : y = d
    · rw [hyd, ents_setEnts_self]
      exact honce x hx
    · rw [setEnts_of_ne _ hyd]
      exact h.once x y hx

/-! ### A new entry -/

section Fill

variable {name : Bytes}

theorem live_fill (hp : Proper name) : (I.addEntry d name i).Live x ↔ I.Live x ∨ x = i := by
  simp only [Live, names_fill]
  constructor
  · rintro (rfl | ⟨y, e, he | ⟨rfl, rfl, -⟩, rfl⟩)
    · exact .inl (.inl rfl)
    · exact .inl (.inr ⟨y, e, he, rfl⟩)
    · exact .inr rfl
  · rintro ((rfl | ⟨y, e, he, rfl⟩) | rfl)
    · exact .inl rfl
    · exact .inr ⟨y, e, .inl he, rfl⟩
    · exact .inr ⟨d, _, .inr ⟨rfl, rfl, hp⟩, rfl⟩

theorem Tree.fill (h : I.Tree) (hd : I.Live d) (hents : (I d).ents ≠ []) (hp : Proper name)
    (hi : (I i).type ≠ none) (hroot : i ≠ rootino)
    (hdir : (I i).type = some .dir → I.Dots i d (I d).gen ∧ ¬I.Live i) :
    (I.addEntry d name i).Tree := by
  have hdtype : (I d).type = some .dir := by
    by_contra hne
    exact hents (h.leaf d hne)
  refine h.setEnts hdtype (fun hI ↦ hI.fill hp) (fun hnil ↦ absurd hnil hents) (fun he ↦ ?_)
    (fun x hx ↦ ?_) fun x hx e he ↦ ?_
  · rcases names_fill.mp he with he | ⟨rfl, rfl, -⟩
    · exact .inl he
    · exact .inr ⟨rfl, hroot, hi, rfl, fun hty ↦ (hdir hty).1⟩
  · rw [Slots.count_fill]
    by_cases hxi : x = i
    · -- A directory gets its first name.
      subst hxi
      have hzero : Slots.count (·.names x) (I d).ents = 0 := by
        refine Slots.count_eq_zero_iff.mpr fun e he ↦ ?_
        by_contra hnot
        rw [Bool.not_eq_false, names_iff] at hnot
        exact (hdir hx).2 (.inr ⟨d, e, ⟨he, hnot.1⟩, hnot.2⟩)
      rw [hzero]
      split_ifs <;> omega
    · rw [if_neg fun hn ↦ hxi (names_iff.mp hn).2.symm]
      exact h.once x d hx
  · rw [live_fill hp, not_or] at hx
    rcases names_fill.mp he with he | ⟨rfl, -, -⟩
    · exact h.bare x hx.1 e he
    · exact hx.1 hd

theorem links_fill (h : I.Tree) (hd : I.Live d) (hp : Proper name) (hid : i ≠ d)
    (hdir : (I i).type = some .dir → ¬I.Live i) :
    (I.addEntry d name i).links j = I.links j + (if i = j then 1 else 0) +
      Slots.count (·.links j) (if (I i).type = some .dir then (I i).ents else []) := by
  have hoff :=
    sum_add_of_eq_off_pair (w := I.weight j) (v := (I.addEntry d name i).weight j) hid.symm
    fun x hxd hxi ↦ weight_congr ((live_fill hp).trans (or_iff_left hxi))
      (by rw [addEntry_of_ne hxd])
  have hwd : (I.addEntry d name i).weight j d = I.weight j d + if i = j then 1 else 0 := by
    rw [weight_of_live ((live_fill hp).mpr (.inl hd)), weight_of_live hd, ents_setEnts_self,
      Slots.count_fill]
    exact congrArg _ (if_congr (links_iff.trans (and_iff_right hp.1)) rfl rfl)
  have hwi : (I.addEntry d name i).weight j i = I.weight j i +
      Slots.count (·.links j) (if (I i).type = some .dir then (I i).ents else []) := by
    rw [weight_of_live ((live_fill hp).mpr (.inr rfl)), addEntry_of_ne hid]
    split_ifs with hty
    · rw [weight_of_not_live (hdir hty), Nat.zero_add]
    · by_cases hl : I.Live i
      · rw [weight_of_live hl]
        rfl
      · rw [weight_of_not_live hl, h.leaf i hty]
        rfl
  rw [links, links]
  omega

end Fill

/-! ### An erased entry -/

section Clear

variable {off : ℕ}

theorem live_of_clear (hx : (I.clearEntry d off).Live x) : I.Live x :=
  hx.imp_right fun ⟨y, e, he, hxe⟩ ↦ ⟨y, e, names_of_clear he, hxe⟩

theorem live_clear (hslot : (I d).ents[off]? = some (some e)) (hxe : x ≠ e.inum) :
    (I.clearEntry d off).Live x ↔ I.Live x := by
  refine ⟨live_of_clear, fun hx ↦ hx.imp_right ?_⟩
  rintro ⟨y, e', he', rfl⟩
  refine ⟨y, e', ?_, rfl⟩
  by_cases hyd : y = d
  · subst hyd
    refine ⟨?_, he'.2⟩
    rw [ents_setEnts_self]
    obtain ⟨k, hk⟩ := List.getElem?_of_mem he'.1
    have hne : off ≠ k := by
      rintro rfl
      rw [hslot, Option.some.injEq, Option.some.injEq] at hk
      exact hxe (by rw [hk])
    exact List.mem_of_getElem? (by rwa [List.getElem?_set_ne hne])
  · rwa [Names, clearEntry_of_ne hyd]

omit [NeZero n] in
theorem count_names_clear (hslot : (I d).ents[off]? = some (some e)) (i : Fin n) :
    Slots.count (·.names i) (I.clearEntry d off d).ents + (if e.names i then 1 else 0)
      = Slots.count (·.names i) (I d).ents := by
  rw [ents_setEnts_self]
  exact Slots.count_clear hslot

theorem Tree.clear (h : I.Tree) (hslot : (I d).ents[off]? = some (some e)) (hp : Proper e.name)
    (hempty : ∀ e', ¬I.Names e.inum e') : (I.clearEntry d off).Tree := by
  refine h.setEnts (h.dir_of_mem (List.mem_of_getElem? hslot)) (fun hI ↦ hI.clear hslot hp)
    (fun hnil ↦ ?_) (fun he ↦ .inl (names_of_clear he)) (fun x hx ↦ ?_) fun x hx e' he ↦ ?_
  · rw [hnil] at hslot
    cases hslot
  · exact (Nat.le_add_right _ _).trans (Slots.count_clear hslot ▸ h.once x d hx)
  · have hold := names_of_clear he
    by_cases hxe : x = e.inum
    · exact hempty e' (hxe ▸ hold)
    · exact h.bare x (fun hl ↦ hx ((live_clear hslot hxe).mpr hl)) e' hold

theorem Tree.not_live_clear (h : I.Tree) (hslot : (I d).ents[off]? = some (some e))
    (hp : Proper e.name) (hdir : (I e.inum).type = some .dir) :
    ¬(I.clearEntry d off).Live e.inum := by
  have he : I.Names d e := ⟨List.mem_of_getElem? hslot, hp⟩
  rintro (hroot | ⟨y, e', he', hinum⟩)
  · exact h.root_names d e he hroot
  · have hyd : y = d := Dots.par_eq ((h.target y e' (names_of_clear he')).2.2 (hinum ▸ hdir))
      (hinum ▸ (h.target d e he).2.2 hdir)
    subst hyd
    have hcount := count_names_clear hslot e.inum
    rw [if_pos (names_iff.mpr ⟨hp, rfl⟩)] at hcount
    have hpos : 0 < Slots.count (·.names e.inum) (I.clearEntry y off y).ents :=
      Slots.count_pos_iff.mpr ⟨e', he'.1, names_iff.mpr ⟨he'.2, hinum⟩⟩
    have hold := h.once e.inum y hdir
    omega

theorem links_clear (h : I.Tree) (hslot : (I d).ents[off]? = some (some e)) (hp : Proper e.name)
    (hid : e.inum ≠ d) :
    (I.clearEntry d off).links j + (if e.inum = j then 1 else 0) + Slots.count (·.links j)
      (if (I e.inum).type = some .dir then (I e.inum).ents else []) = I.links j := by
  have he : I.Names d e := ⟨List.mem_of_getElem? hslot, hp⟩
  have hd : I.Live d := h.live_of_names he
  have hoff :=
    sum_add_of_eq_off_pair (w := I.weight j) (v := (I.clearEntry d off).weight j) hid.symm
    fun x hxd hxi ↦ weight_congr (live_clear hslot hxi) (by rw [clearEntry_of_ne hxd])
  have hwd : (I.clearEntry d off).weight j d + (if e.inum = j then 1 else 0) = I.weight j d := by
    rw [weight_of_live ((live_clear hslot hid.symm).mpr hd), weight_of_live hd, ents_setEnts_self,
      ← Slots.count_clear hslot]
    exact congrArg _ (if_congr (links_iff.trans (and_iff_right hp.1)).symm rfl rfl)
  have hwi : (I.clearEntry d off).weight j e.inum + Slots.count (·.links j)
      (if (I e.inum).type = some .dir then (I e.inum).ents else []) = I.weight j e.inum := by
    rw [weight_of_live (.inr ⟨d, e, he, rfl⟩)]
    split_ifs with hty
    · rw [weight_of_not_live (h.not_live_clear hslot hp hty), Nat.zero_add]
    · rw [h.leaf e.inum hty]
      by_cases hl : (I.clearEntry d off).Live e.inum
      · rw [weight_of_live hl, clearEntry_of_ne hid, h.leaf e.inum hty]
        rfl
      · rw [weight_of_not_live hl]
        rfl
  rw [links, links]
  omega

end Clear

/-! ### A new directory -/

/-- The entries of a new directory `i` in `d`. -/
def newDots (I : Inodes n) (d i : Fin n) : List (Option (Dirent n)) :=
  [some ⟨i, dot, (I i).gen⟩, some ⟨d, dotdot, (I d).gen⟩]

omit [NeZero n] in
theorem dots_newDots : (I.setEnts i (I.newDots d i)).Dots i d (I d).gen := by
  refine ⟨[], ?_, fun e he ↦ by cases he⟩
  rw [ents_setEnts_self, gen_setEnts]
  rfl

omit [NeZero n] in
theorem names_newDots (hnil : (I i).ents = []) :
    (I.setEnts i (I.newDots d i)).Names x e ↔ I.Names x e := by
  by_cases hx : x = i
  · subst hx
    rw [Names, Names, ents_setEnts_self, hnil]
    constructor
    swap
    · rintro ⟨he, -⟩
      cases he
    rintro ⟨he, hp⟩
    simp only [newDots, List.mem_cons, Option.some.injEq, List.not_mem_nil, or_false] at he
    rcases he with rfl | rfl
    · exact absurd hp not_proper_dot
    · exact absurd hp not_proper_dotdot
  · rw [Names, Names, setEnts_of_ne _ hx]

theorem live_newDots (hnil : (I i).ents = []) :
    (I.setEnts i (I.newDots d i)).Live x ↔ I.Live x := by
  simp only [Live, names_newDots hnil]

theorem Tree.newDots (h : I.Tree) (hdir : (I i).type = some .dir) (hnil : (I i).ents = []) :
    (I.setEnts i (I.newDots d i)).Tree := by
  refine h.setEnts hdir (fun {x _ _} hI ↦ ?_) (fun _ ↦ ⟨d, _, dots_newDots⟩)
    (fun he ↦ .inl ((names_newDots hnil).mp he)) (fun x _ ↦ ?_) fun x hx e he ↦ ?_
  · have hx : x ≠ i := fun hx ↦ hI.ents_ne_nil (hx ▸ hnil)
    exact (dots_congr (by rw [setEnts_of_ne _ hx]) (gen_setEnts ..)).mpr hI
  · have hzero : Slots.count (·.names x) (I.newDots d i) = 0 := by
      refine Slots.count_eq_zero_iff.mpr fun e he ↦ ?_
      by_contra hnot
      rw [Bool.not_eq_false, names_iff] at hnot
      simp only [Inodes.newDots, List.mem_cons, Option.some.injEq, List.not_mem_nil, or_false] at he
      rcases he with rfl | rfl
      · exact not_proper_dot hnot.1
      · exact not_proper_dotdot hnot.1
    exact hzero ▸ Nat.zero_le 1
  · exact h.bare x (fun hl ↦ hx ((live_newDots hnil).mpr hl)) e ((names_newDots hnil).mp he)

omit [NeZero n] in
theorem count_newDots (I : Inodes n) (d i j : Fin n) :
    Slots.count (·.links j) (I.newDots d i) = if d = j then 1 else 0 := by
  have hdot : ¬(⟨i, dot, (I i).gen⟩ : Dirent n).links j = true := fun h ↦ (links_iff.mp h).1 rfl
  rw [Inodes.newDots, Slots.count_cons_some, Slots.count_cons_some, Slots.count_nil, if_neg hdot,
    Nat.zero_add, Nat.add_zero]
  exact if_congr (links_iff.trans (and_iff_right dotdot_ne_dot)) rfl rfl

end Inodes

end OperatingSystems
