import OperatingSystems.Buf.Lru

/-!
# The buffer cache refines the disk

A block's bytes are in its buffer, or on disk if it has none. They stay what the last user of the
block has left: a buffer that differs from the disk is dirty or in use, and neither kind is
recycled.

The drive of a block is `dev & 1`. Two device numbers with the same drive have different buffers for
one place on disk, and what is written through one of them is not seen through the other until its
buffer is recycled. So the bytes are those of the last user only as long as no two of the device
numbers in use select the same drive.
-/

namespace OperatingSystems

open Function

namespace Bcache

variable {π : Type} [Fintype π] [DecidableEq π] {U : Dev → Prop} {s s' : Bcache π} {p : π}
  {i : Fin nbuf} {dev : Dev} {b : BlockNo}

/-! ## The contents -/

/-- What is true of the bytes in the buffers, on the disk, and left by the last user of a block. -/
structure Contents (U : Dev → Prop) (s : Bcache π) : Prop where
  clean : ∀ i, U (s.buf i).dev → (s.buf i).valid = true → (s.buf i).dirty = false →
    s.touched i = false → (s.buf i).data = s.disk (drive (s.buf i).dev) (s.buf i).blockno
  released : ∀ i, U (s.buf i).dev → (s.buf i).valid = true → s.lock i = none →
    s.left (s.buf i).dev (s.buf i).blockno = some (s.buf i).data
  unread : ∀ i, U (s.buf i).dev → (s.buf i).valid = false →
    ∀ c, s.left (s.buf i).dev (s.buf i).blockno = some c →
      c = s.disk (drive (s.buf i).dev) (s.buf i).blockno
  touched : ∀ i, s.touched i = true → s.lock i ≠ none
  absent : ∀ dev b, U dev → (∀ i, (s.buf i).key ≠ (dev, b)) → ∀ c, s.left dev b = some c →
    c = s.disk (drive dev) b

/-- No two of the device numbers in use select the same drive. -/
def OneDrive (U : Dev → Prop) : Prop :=
  ∀ dev dev', U dev → U dev' → drive dev = drive dev' → dev = dev'

variable {c : Buf} {o : Option π} {k : BufPc} {t : Bool}

omit [Fintype π] in
/-- A step keeps what is true of the bytes if that holds of its buffer afterwards, if the places of
the other buffers are left alone, and if the blocks without a buffer are as they were left. -/
theorem Contents.edit (h : s.Contents U) (he : s.Edit s' p i c o k t)
    (hdisk : ∀ j ≠ i, U (s.buf j).dev → s'.disk (drive (s.buf j).dev) (s.buf j).blockno
      = s.disk (drive (s.buf j).dev) (s.buf j).blockno)
    (hleft : ∀ j ≠ i, s'.left (s.buf j).dev (s.buf j).blockno =
      s.left (s.buf j).dev (s.buf j).blockno)
    (hclean : U c.dev → c.valid = true → c.dirty = false → t = false →
      c.data = s'.disk (drive c.dev) c.blockno)
    (hreleased : U c.dev → c.valid = true → o = none → s'.left c.dev c.blockno = some c.data)
    (hunread : U c.dev → c.valid = false → ∀ x, s'.left c.dev c.blockno = some x →
      x = s'.disk (drive c.dev) c.blockno)
    (htouched : t = true → o ≠ none)
    (habsent : ∀ dev b, U dev → c.key ≠ (dev, b) → (∀ j ≠ i, (s.buf j).key ≠ (dev, b)) → ∀ x,
      s'.left dev b = some x → x = s'.disk (drive dev) b) : s'.Contents U := by
  refine ⟨?_, ?_, ?_, ?_, ?_⟩
  · intro j
    rw [he.buf, he.touched]
    by_cases hj : j = i
    · simpa only [hj, update_self] using hclean
    · simp only [update_of_ne hj]
      exact fun hU ↦ hdisk j hj hU ▸ h.clean j hU
  · intro j
    rw [he.buf, he.lock]
    by_cases hj : j = i
    · simpa only [hj, update_self] using hreleased
    · simp only [update_of_ne hj, hleft j hj]
      exact h.released j
  · intro j
    rw [he.buf]
    by_cases hj : j = i
    · simpa only [hj, update_self] using hunread
    · simp only [update_of_ne hj, hleft j hj]
      exact fun hU ↦ hdisk j hj hU ▸ h.unread j hU
  · intro j
    rw [he.touched, he.lock]
    by_cases hj : j = i
    · simpa only [hj, update_self] using htouched
    · simpa only [update_of_ne hj] using h.touched j
  · intro dev b hU hno
    rw [he.buf] at hno
    refine habsent dev b hU ?_ fun j hj ↦ ?_
    · simpa only [update_self] using hno i
    · simpa only [update_of_ne hj] using hno j

omit [Fintype π] in
theorem Contents.edit_key (h : s.Contents U) (he : s.Edit s' p i c o k t) (hdisk : s'.disk = s.disk)
    (hleft : s'.left = s.left) (hkey : c.key = (s.buf i).key)
    (hclean : U c.dev → c.valid = true → c.dirty = false → t = false →
      c.data = s.disk (drive c.dev) c.blockno)
    (hreleased : U c.dev → c.valid = true → o = none → s.left c.dev c.blockno = some c.data)
    (hunread : U c.dev → c.valid = false → ∀ x, s.left c.dev c.blockno = some x →
      x = s.disk (drive c.dev) c.blockno)
    (htouched : t = true → o ≠ none) : s'.Contents U := by
  rw [← hdisk] at hclean hunread
  rw [← hleft] at hreleased hunread
  refine h.edit he (fun _ _ _ ↦ by rw [hdisk]) (fun _ _ ↦ by rw [hleft]) hclean hreleased hunread
    htouched fun dev b hU hc hno ↦ ?_
  rw [hdisk, hleft]
  refine h.absent dev b hU fun j ↦ ?_
  by_cases hj : j = i
  · exact hj ▸ hkey ▸ hc
  · exact hno j hj

/-! ## One step -/

omit [Fintype π] [DecidableEq π] in
theorem bwrite_ok (h : s.bwrite i = .ok s') :
    s' = { (s.setBuf i { s.buf i with valid := true, dirty := false }).setTouched i false with
      disk := update s.disk (drive (s.buf i).dev)
        (update (s.disk (drive (s.buf i).dev)) (s.buf i).blockno (s.buf i).data) } := by
  simp only [bwrite, iderw, setTouched_buf, setBuf_buf, update_self] at h
  rw [if_neg (by simp)] at h
  split at h
  · cases h
  · rw [if_pos trivial] at h
    rw [← Except.ok.inj h]
    simp only [setBuf, setTouched, update_idem]

omit [Fintype π] in
theorem enter_ok (hd : (s.buf i).dirty = true → (s.buf i).valid = true)
    (h : s.enter p i = .ok s') :
    (s.buf i).valid = true ∧ s' = (s.setLock i (some p)).setPc p .idle ∨
    (s.buf i).valid = false ∧ s' = ((s.setLock i (some p)).setPc p .idle).setBuf i
      { s.buf i with valid := true, data := s.disk (drive (s.buf i).dev) (s.buf i).blockno } := by
  simp only [enter, iderw, setPc_buf, setLock_buf] at h
  cases hv : (s.buf i).valid with
  | true =>
    rw [if_pos hv] at h
    exact .inl ⟨rfl, (Except.ok.inj h).symm⟩
  | false =>
    have hd' : (s.buf i).dirty = false := Bool.eq_false_iff.mpr fun hd' ↦ by simp [hd hd'] at hv
    rw [if_neg (by simp [hv]), if_neg (by simp [hv])] at h
    split at h
    · cases h
    · rw [if_neg (by simp [hd'])] at h
      exact .inr ⟨rfl, (Except.ok.inj h).symm⟩

/-- The step keeps what is true of the buffers, and of the bytes. -/
structure Keeps (U : Dev → Prop) (s s' : Bcache π) : Prop where
  shape : s'.Shape U
  contents : OneDrive U → s.Contents U → s'.Contents U
  key : ∀ i, (s'.buf i).key ≠ (s.buf i).key → (s.buf i).refcnt = 0 ∧ (s.buf i).dirty = false

omit [Fintype π] in
theorem Edit.key (he : s.Edit s' p i c o k t) (hkey : c.key = (s.buf i).key) (j : Fin nbuf)
    (hj : (s'.buf j).key ≠ (s.buf j).key) : (s.buf j).refcnt = 0 ∧ (s.buf j).dirty = false := by
  rw [he.buf] at hj
  exact absurd ((Function.forall_update_iff s.buf fun j x ↦ x.key = (s.buf j).key).mpr
    ⟨hkey, fun _ _ ↦ rfl⟩ j) hj

theorem keeps_hit (h : s.Shape U) (hp : s.pc p = .idle) (hi : (s.buf i).key = (dev, b))
    (hU : U dev) :
    Keeps U s ((s.setBuf i { s.buf i with refcnt := (s.buf i).refcnt + 1 }).setPc p
      (.wait i dev b)) := by
  have he :
      s.Edit ((s.setBuf i { s.buf i with refcnt := (s.buf i).refcnt + 1 }).setPc p (.wait i dev b))
        p i { s.buf i with refcnt := (s.buf i).refcnt + 1 } (s.lock i) (.wait i dev b)
        (s.touched i) :=
    ⟨rfl, (update_eq_self ..).symm, rfl, (update_eq_self ..).symm⟩
  refine ⟨?_, fun _ hc ↦ ?_, he.key rfl⟩
  · refine h.edit he h.ring (.inl rfl) (h.dev i) ?_ ?_ ?_ ?_ ?_ (h.dirty i)
    · simp [hp, BufPc.buf]
    · simp [BufPc.buf]
    · simp [uses, hp, BufPc.buf]
      omega
    · rintro _ _ ⟨⟩
      exact ⟨hi, hU⟩
    · intro hl
      obtain ⟨q, hq⟩ := Option.ne_none_iff_exists'.mp hl
      exact h.held i q hq
  · exact hc.edit_key he rfl rfl rfl (hc.clean i) (hc.released i) (hc.unread i) (hc.touched i)

theorem keeps_recycle (h : s.Shape U) (hp : s.pc p = .idle) (href : (s.buf i).refcnt = 0)
    (hd : (s.buf i).dirty = false) (hno : ∀ j, (s.buf j).key ≠ (dev, b)) (hU : U dev) (x : Block) :
    Keeps U s ((s.setBuf i ⟨false, false, dev, b, 1, x⟩).setPc p (.wait i dev b)) := by
  have he : s.Edit ((s.setBuf i ⟨false, false, dev, b, 1, x⟩).setPc p (.wait i dev b))
      p i ⟨false, false, dev, b, 1, x⟩ (s.lock i) (.wait i dev b) (s.touched i) :=
    ⟨rfl, (update_eq_self ..).symm, rfl, (update_eq_self ..).symm⟩
  have hl := h.unlocked_of_refcnt href
  refine ⟨?_, fun _ hc ↦ ?_, fun j hj ↦ ?_⟩
  · refine h.edit he h.ring (.inr ⟨href, hno⟩) (.inr hU) ?_ ?_ ?_ ?_ ?_ (by simp)
    · simp [hp, BufPc.buf]
    · simp [BufPc.buf]
    · simp [uses, hp, hl, href, BufPc.buf]
    · rintro _ _ ⟨⟩
      exact ⟨rfl, hU⟩
    · exact fun hne ↦ absurd hl hne
  · refine hc.edit he (fun _ _ _ ↦ rfl) (fun _ _ ↦ rfl) (by simp) (by simp)
      (fun _ _ ↦ hc.absent dev b hU hno) (hc.touched i) fun dev' b' hU' _ hno' x' hx' ↦ ?_
    by_cases hold : (s.buf i).key = (dev', b')
    · -- the block that has just lost its buffer
      obtain ⟨rfl, rfl⟩ := Prod.mk.inj hold
      have ht : s.touched i = false := Bool.eq_false_iff.mpr fun ht ↦ hc.touched i ht hl
      cases hv : (s.buf i).valid with
      | true =>
        rw [← Option.some.inj ((hc.released i hU' hv hl).symm.trans hx')]
        exact hc.clean i hU' hv hd ht
      | false => exact hc.unread i hU' hv x' hx'
    · refine hc.absent dev' b' hU' (fun j ↦ ?_) x' hx'
      by_cases hj : j = i
      · exact hj ▸ hold
      · exact hno' j hj
  · by_cases hji : j = i
    · exact hji ▸ ⟨href, hd⟩
    · rw [he.buf, update_of_ne hji] at hj
      exact absurd rfl hj

theorem keeps_bget (h : s.Shape U) (hp : s.pc p = .idle) (hU : U dev)
    (hs : s.bget p dev b = .ok s') : Keeps U s s' := by
  unfold bget at hs
  split at hs
  · next i hi =>
    rw [← Except.ok.inj hs]
    exact keeps_hit h hp (h.key_of_cached hi) hU
  · next hno =>
    split at hs
    · next i hi =>
      obtain ⟨href, hd⟩ := h.of_unusedBuf hi
      rw [← Except.ok.inj hs]
      exact keeps_recycle h hp href hd (h.key_ne_of_cached hno) hU _
    · cases hs

omit [Fintype π] in
theorem Edit.of_holder (hp : s.pc p = .idle ∧ s.lock i = some p)
    (hbuf : s'.buf = update s.buf i c) (hlock : s'.lock = s.lock) (hpc : s'.pc = s.pc)
    (htouched : s'.touched = update s.touched i t) : s.Edit s' p i c (some p) .idle t := by
  refine ⟨hbuf, ?_, ?_, htouched⟩
  · rw [hlock, ← hp.2, update_eq_self]
  · rw [hpc, ← hp.1, update_eq_self]

theorem Shape.hold (h : s.Shape U) (he : s.Edit s' p i c (some p) .idle t)
    (hp : s.pc p = .idle ∧ s.lock i = some p ∨ s.lock i = none ∧ ∃ dev b, s.pc p = .wait i dev b)
    (hlinks : s'.links = s.links) (hkey : c.key = (s.buf i).key)
    (href : c.refcnt = (s.buf i).refcnt)
    (hv : c.valid = true) : s'.Shape U ∧ U c.dev := by
  have hU : U c.dev := by
    rw [(Prod.mk.inj hkey).1]
    rcases hp with ⟨-, hl⟩ | ⟨-, dev, b, hp⟩
    · exact (h.held i p hl).1
    · obtain ⟨hk, hU⟩ := h.wait p i dev b hp
      exact (Prod.mk.inj hk).1 ▸ hU
  refine ⟨h.edit he (hlinks ▸ h.ring) (.inl hkey) (.inr hU) ?_ ?_ ?_ ?_ (fun _ ↦ ⟨hU, hv⟩)
    fun _ ↦ hv, hU⟩
  · rcases hp with ⟨hp, -⟩ | ⟨-, dev, b, hp⟩ <;> simp [hp, BufPc.buf, eq_comm]
  · simp [BufPc.buf]
  · rcases hp with ⟨hp, hl⟩ | ⟨hl, dev, b, hp⟩ <;> simp [uses, hp, hl, href, BufPc.buf]
  · rintro _ _ ⟨⟩

theorem keeps_work (h : s.Shape U) (he : s.Edit s' p i c (some p) .idle t)
    (hp : s.pc p = .idle ∧ s.lock i = some p ∨ s.lock i = none ∧ ∃ dev b, s.pc p = .wait i dev b)
    (hlinks : s'.links = s.links) (hdisk : s'.disk = s.disk) (hleft : s'.left = s.left)
    (hkey : c.key = (s.buf i).key) (href : c.refcnt = (s.buf i).refcnt) (hv : c.valid = true)
    (hclean : s.Contents U → U c.dev → c.dirty = false → t = false →
      c.data = s.disk (drive c.dev) c.blockno) : Keeps U s s' := by
  obtain ⟨hsh, hU⟩ := h.hold he hp hlinks hkey href hv
  exact ⟨hsh, fun _ hc ↦ hc.edit_key he hdisk hleft hkey (fun _ _ ↦ hclean hc hU) (by simp)
    (by simp [hv]) (by simp), he.key hkey⟩

theorem keeps_enter (h : s.Shape U) (hp : s.pc p = .wait i dev b) (hl : s.lock i = none)
    (hs : s.enter p i = .ok s') : Keeps U s s' := by
  obtain ⟨hv, rfl⟩ | ⟨hv, rfl⟩ := enter_ok (h.dirty i) hs
  · refine keeps_work (c := s.buf i) (t := s.touched i) h ⟨(update_eq_self ..).symm, rfl, rfl,
      (update_eq_self ..).symm⟩ (.inr ⟨hl, dev, b, hp⟩) rfl rfl rfl rfl rfl hv fun hc hU ↦ ?_
    exact hc.clean i hU hv
  · exact keeps_work (t := s.touched i) h ⟨rfl, rfl, rfl, (update_eq_self ..).symm⟩
      (.inr ⟨hl, dev, b, hp⟩) rfl rfl rfl rfl rfl rfl fun _ _ _ _ ↦ rfl

omit [DecidableEq π] in
theorem Shape.eq_of_key (h : s.Shape U) (hU₀ : ¬U 0) (hl : s.lock i = some p) {j : Fin nbuf}
    (hj : (s.buf j).key = (s.buf i).key) : j = i :=
  (h.unique i j (fun h₀ ↦ hU₀ (h₀ ▸ (h.held i p hl).1)) hj.symm).symm

theorem keeps_bwrite (hU₀ : ¬U 0) (h : s.Shape U) (hp : s.pc p = .idle ∧ s.lock i = some p)
    (hs : s.bwrite i = .ok s') : Keeps U s s' := by
  have hs' := bwrite_ok hs
  have he : s.Edit s' p i { s.buf i with valid := true, dirty := false } (some p) .idle false := by
    rw [hs']
    exact .of_holder hp rfl rfl rfl rfl
  have hdisk : s'.disk = update s.disk (drive (s.buf i).dev)
      (update (s.disk (drive (s.buf i).dev)) (s.buf i).blockno (s.buf i).data) := by rw [hs']
  obtain ⟨hsh, hU⟩ := h.hold he (.inl hp) (by rw [hs']; rfl) rfl rfl rfl
  refine ⟨hsh, fun hone hc ↦ ?_, he.key rfl⟩
  have hleft : s'.left = s.left := by rw [hs']; rfl
  have helse : ∀ dev b, U dev → (dev, b) ≠ (s.buf i).key →
      s'.disk (drive dev) b = s.disk (drive dev) b := by
    intro dev b hUd hne
    rw [hdisk]
    by_cases hdr : drive dev = drive (s.buf i).dev
    · obtain rfl := hone dev _ hUd hU hdr
      have hb : b ≠ (s.buf i).blockno := fun hb ↦ hne (hb ▸ rfl)
      rw [update_self, update_of_ne hb]
    · rw [update_of_ne hdr]
  refine hc.edit he (fun j hj hUj ↦ helse _ _ hUj fun hk ↦ hj (h.eq_of_key hU₀ hp.2 hk))
    (fun _ _ ↦ by rw [hleft]) (fun _ _ _ _ ↦ ?_) (by simp) (by simp) (by simp)
    fun dev b hUd hi hno ↦ ?_
  · rw [hdisk, update_self, update_self]
  · rw [hleft, helse dev b hUd (Ne.symm hi)]
    refine hc.absent dev b hUd fun j ↦ ?_
    by_cases hj : j = i
    · exact hj ▸ hi
    · exact hno j hj

theorem keeps_brelse (hU₀ : ¬U 0) (h : s.Shape U) (hp : s.pc p = .idle) (hl : s.lock i = some p)
    (ht : s.touched i = false) : Keeps U s (s.brelse p i) := by
  have he : s.Edit (s.brelse p i) p i (s.buf i) none (.drop i) (s.touched i) :=
    ⟨(update_eq_self ..).symm, rfl, rfl, (update_eq_self ..).symm⟩
  obtain ⟨hU, hv⟩ := h.held i p hl
  have helse : ∀ dev b, (dev, b) ≠ (s.buf i).key → (s.brelse p i).left dev b = s.left dev b := by
    intro dev b hne
    simp only [brelse]
    by_cases hdev : dev = (s.buf i).dev
    · have hb : b ≠ (s.buf i).blockno := fun hb ↦ hne (Prod.ext hdev hb)
      rw [hdev, update_self, update_of_ne hb]
    · rw [update_of_ne hdev]
  refine ⟨?_, fun _ hc ↦ ?_, he.key rfl⟩
  · refine h.edit he h.ring (.inl rfl) (h.dev i) ?_ ?_ ?_ ?_ (by simp) (h.dirty i)
    · simp [hp, BufPc.buf]
    · simp [BufPc.buf]
    · simp [uses, hp, hl, BufPc.buf]
    · rintro _ _ ⟨⟩
  · refine hc.edit he (fun _ _ _ ↦ rfl) (fun j hj ↦ helse _ _ fun hk ↦ hj (h.eq_of_key hU₀ hl hk))
      (hc.clean i) (fun _ _ _ ↦ ?_) (by simp [hv]) (by simp [ht]) fun dev b hUd hi hno ↦ ?_
    · simp only [brelse, update_self]
    · rw [helse dev b (Ne.symm hi)]
      refine hc.absent dev b hUd fun j ↦ ?_
      by_cases hj : j = i
      · exact hj ▸ hi
      · exact hno j hj

theorem keeps_drop (h : s.Shape U) (hp : s.pc p = .drop i) : Keeps U s (s.drop p i) := by
  have he : s.Edit (s.drop p i) p i { s.buf i with refcnt := (s.buf i).refcnt - 1 } (s.lock i) .idle
      (s.touched i) := by
    unfold Bcache.drop
    split <;> exact ⟨rfl, (update_eq_self ..).symm, rfl, (update_eq_self ..).symm⟩
  have hsame : (s.drop p i).disk = s.disk ∧ (s.drop p i).left = s.left := by
    unfold Bcache.drop
    split <;> exact ⟨rfl, rfl⟩
  refine ⟨?_, fun _ hc ↦ ?_, he.key rfl⟩
  · refine h.edit he ?_ (.inl rfl) (h.dev i) ?_ ?_ ?_ ?_ ?_ (h.dirty i)
    · obtain ⟨l, hnd, hall, hr⟩ := h.ring
      unfold Bcache.drop
      split
      · obtain ⟨l₁, l₂, rfl⟩ := List.append_of_mem (hall i)
        have hperm : (l₁ ++ i :: l₂).Perm (i :: (l₁ ++ l₂)) := List.perm_middle
        refine ⟨i :: (l₁ ++ l₂), hperm.nodup_iff.mp hnd, fun j ↦ hperm.mem_iff.mp (hall j), ?_⟩
        rw [List.map_append, List.map_cons] at hr
        rw [List.map_cons, List.map_append]
        exact hr.moveFront
      · exact ⟨l, hnd, hall, hr⟩
    · simp [hp, BufPc.buf, eq_comm]
    · simp [BufPc.buf]
    · have hpos : (s.buf i).refcnt ≠ 0 := fun h₀ ↦ h.pc_ne_of_refcnt h₀ p (by rw [hp, BufPc.buf])
      simp [uses, hp, BufPc.buf]
      omega
    · rintro _ _ ⟨⟩
    · intro hl
      obtain ⟨q, hq⟩ := Option.ne_none_iff_exists'.mp hl
      exact h.held i q hq
  · exact hc.edit_key he hsame.1 hsame.2 rfl (hc.clean i) (hc.released i) (hc.unread i)
      (hc.touched i)

omit [DecidableEq π] in
theorem keeps_log (h : s.Shape U) (lh : List BlockNo) (outstanding : ℕ) :
    Keeps U s { s with lh := lh, outstanding := outstanding } :=
  ⟨⟨h.ring, h.unique, h.dev, h.count, h.wait, h.held, h.dirty⟩,
    fun _ hc ↦ ⟨hc.clean, hc.released, hc.unread, hc.touched, hc.absent⟩, fun _ hj ↦ absurd rfl hj⟩

theorem Shape.act [DecidablePred U] {size : ℕ} {a : BufAct π} (hU₀ : ¬U 0) (h : s.Shape U)
    (hs : s.act U size a = .ok s') : Keeps U s s' := by
  cases a with
  | bget p dev b =>
    obtain ⟨hp, hs⟩ := ite_eq_ok_iff.mp hs
    exact keeps_bget h hp.1 hp.2 hs
  | enter p =>
    rw [Bcache.act] at hs
    split at hs
    · next i dev b hp =>
      obtain ⟨hl, hs⟩ := ite_eq_ok_iff.mp hs
      exact keeps_enter h hp hl hs
    · cases hs
  | modify p i c =>
    obtain ⟨hp, hs⟩ := ite_eq_ok_iff.mp hs
    rw [← Except.ok.inj hs]
    exact keeps_work h (.of_holder hp rfl rfl rfl rfl) (.inl hp) rfl rfl rfl rfl rfl
      (h.held i p hp.2).2 (by simp)
  | logWrite p i =>
    obtain ⟨hp, hs⟩ := ite_eq_ok_iff.mp hs
    obtain ⟨-, hs⟩ := ite_error_eq_ok_iff.mp hs
    obtain ⟨-, hs⟩ := ite_error_eq_ok_iff.mp hs
    rw [← Except.ok.inj hs]
    exact keeps_work h (.of_holder hp rfl rfl rfl rfl) (.inl hp) rfl rfl rfl rfl rfl
      (h.held i p hp.2).2 (by simp)
  | bwrite p i =>
    obtain ⟨hp, hs⟩ := ite_eq_ok_iff.mp hs
    exact keeps_bwrite hU₀ h hp hs
  | brelse p i =>
    obtain ⟨hp, hs⟩ := ite_eq_ok_iff.mp hs
    exact Except.ok.inj hs ▸ keeps_brelse hU₀ h hp.1 hp.2.1 hp.2.2
  | drop p =>
    rw [Bcache.act] at hs
    split at hs
    · next i hp => exact Except.ok.inj hs ▸ keeps_drop h hp
    · cases hs
  | beginOp =>
    obtain ⟨-, hs⟩ := ite_eq_ok_iff.mp hs
    exact Except.ok.inj hs ▸ keeps_log h s.lh (s.outstanding + 1)
  | endOp =>
    obtain ⟨-, hs⟩ := ite_eq_ok_iff.mp hs
    exact Except.ok.inj hs ▸ keeps_log h s.lh (s.outstanding - 1)
  | erase =>
    obtain ⟨-, hs⟩ := ite_eq_ok_iff.mp hs
    exact Except.ok.inj hs ▸ keeps_log h [] s.outstanding

/-! ## Whole runs -/

omit [Fintype π] [DecidableEq π] in
theorem ring_foldl {L : Links BufNode} (is acc : List (Fin nbuf))
    (hr : L.Ring none (acc.map some)) (hnd : (is.reverse ++ acc).Nodup) :
    (is.foldl (fun L i ↦ L.pushFront none (some i)) L).Ring none
      ((is.reverse ++ acc).map some) := by
  induction is generalizing L acc with
  | nil => exact hr
  | cons i is ih =>
    rw [List.reverse_cons, List.append_assoc, List.singleton_append] at hnd ⊢
    have hi : some i ∉ none :: acc.map some := by
      have hi : i ∉ acc := (List.nodup_cons.mp (List.nodup_append.mp hnd).2.1).1
      simpa using hi
    exact ih (i :: acc) (hr.pushFront hi) hnd

omit [Fintype π] [DecidableEq π] in
theorem ring_binit : binit.Ring none ((List.finRange nbuf).reverse.map some) := by
  have hempty : Links.Ring (⟨fun _ ↦ none, fun _ ↦ none⟩ : Links BufNode) none [] :=
    ⟨List.isChain_pair.mpr ⟨rfl, rfl⟩, List.nodup_singleton _⟩
  have hring := ring_foldl (List.finRange nbuf) [] hempty
    (by rw [List.append_nil]; exact List.nodup_reverse.mpr (List.nodup_finRange nbuf))
  rwa [List.append_nil] at hring

omit [DecidableEq π] in
theorem shape_boot (disk : Bool → Disk) : (boot disk : Bcache π).Shape U := by
  refine ⟨⟨_, List.nodup_reverse.mpr (List.nodup_finRange nbuf), fun i ↦ ?_, ring_binit⟩, ?_, ?_,
    ?_, ?_, ?_, ?_⟩
  · exact List.mem_reverse.mpr (List.mem_finRange i)
  · exact fun i j hi ↦ absurd rfl hi
  · exact fun i ↦ .inl rfl
  · intro i
    simp [users, boot, Buf.unused, BufPc.buf]
  · intro p i dev b hp
    cases hp
  · intro i p hp
    cases hp
  · intro i hi
    cases hi

omit [Fintype π] [DecidableEq π] in
theorem contents_boot (hU₀ : ¬U 0) (disk : Bool → Disk) : (boot disk : Bcache π).Contents U := by
  refine ⟨fun i hU ↦ absurd hU hU₀, fun i hU ↦ absurd hU hU₀, fun i hU ↦ absurd hU hU₀, ?_, ?_⟩
  · intro i hi
    cases hi
  · intro dev b _ _ c hc
    cases hc

variable [DecidablePred U] {size : ℕ}

theorem shape_of_reachable (hU₀ : ¬U 0) (h : (bcache π U size).Reachable s) : s.Shape U := by
  refine h.invariant (fun s hs ↦ ?_) fun s a s' hI hs ↦ ?_
  · obtain ⟨disk, rfl⟩ := hs
    exact shape_boot disk
  · exact (hI.act hU₀ (toOption_eq_some_iff.mp hs)).shape

theorem contents_of_reachable (hU₀ : ¬U 0) (hone : OneDrive U)
    (h : (bcache π U size).Reachable s) : s.Contents U := by
  refine (Machine.Reachable.invariant (I := fun s ↦ s.Shape U ∧ s.Contents U) (fun s hs ↦ ?_)
    (fun s a s' hI hs ↦ ?_) h).2
  · obtain ⟨disk, rfl⟩ := hs
    exact ⟨shape_boot disk, contents_boot hU₀ disk⟩
  · have hk := hI.1.act hU₀ (toOption_eq_some_iff.mp hs)
    exact ⟨hk.shape, hk.contents hone hI.2⟩

/-- **The buffer cache refines the disk.** In every run on devices other than 0: the links form one
ring through all the buffers; no two buffers of these devices have the same number; a buffer gets
another number only when it has no references and is not dirty; and, as long as no two of the device
numbers select the same drive, `bread` returns the bytes last left in the buffer for the block, or
else those on disk. -/
theorem cache_refines_disk (hU₀ : ¬U 0) (h : (bcache π U size).Reachable s) :
    (∃ l : List (Fin nbuf), l.Nodup ∧ (∀ i, i ∈ l) ∧ s.links.Ring none (l.map some)) ∧
    (∀ i j, (s.buf i).dev ≠ 0 → (s.buf i).key = (s.buf j).key → i = j) ∧
    (∀ a s', (bcache π U size).step s a = some s' → ∀ i, (s'.buf i).key ≠ (s.buf i).key →
      (s.buf i).refcnt = 0 ∧ (s.buf i).dirty = false) ∧
    (OneDrive U → ∀ p i dev b s', s.pc p = .wait i dev b →
      (bcache π U size).step s (.enter p) = some s' →
      s'.lock i = some p ∧ (s'.buf i).key = (dev, b) ∧
      (s'.buf i).data = (s.left dev b).getD (s.disk (drive dev) b)) := by
  have hsh := shape_of_reachable hU₀ h
  refine ⟨hsh.ring, hsh.unique, fun a s' hs ↦ (hsh.act hU₀ (toOption_eq_some_iff.mp hs)).key, ?_⟩
  intro hone p i dev b s' hp hs
  have hco := contents_of_reachable hU₀ hone h
  obtain ⟨hkey, hU⟩ := hsh.wait p i dev b hp
  obtain ⟨rfl, rfl⟩ := Prod.mk.inj hkey
  have hact := toOption_eq_some_iff.mp hs
  rw [act, hp] at hact
  dsimp only at hact
  split at hact
  · next hl =>
    obtain ⟨hv, rfl⟩ | ⟨hv, rfl⟩ := enter_ok (hsh.dirty i) hact
    · refine ⟨update_self .., rfl, ?_⟩
      rw [hco.released i hU hv hl, Option.getD_some]
      rfl
    · refine ⟨update_self .., by rw [setBuf_buf, update_self]; rfl, ?_⟩
      rw [setBuf_buf, update_self]
      cases hleft : s.left (s.buf i).dev (s.buf i).blockno with
      | none => rfl
      | some c =>
        rw [Option.getD_some]
        exact (hco.unread i hU hv c hleft).symm
  · cases hact

/-- A block is changed in a transaction and read again. -/
theorem cache_refines_disk_logWrite : ∃ s s' : Bcache Unit,
    (bcache Unit (· = 1) 30).Reachable s ∧
    (bcache Unit (· = 1) 30).step s (.enter ()) = some s' ∧
    (s'.buf 0).data = (s.left 1 5).getD (s.disk (drive 1) 5) ∧ (s'.buf 0).data.word 0 = 7 := by
  obtain ⟨s, hs, hend⟩ := Machine.exists_reachable_of_run (M := bcache Unit (· = 1) 30)
    (s := .boot fun _ _ _ ↦ 0)
    [.beginOp, .bget () 1 5, .enter (), .modify () 0 fun _ ↦ 7, .logWrite () 0, .brelse () 0,
      .drop (), .endOp, .bget () 1 5]
    (fun s ↦ decide (s.pc () = .wait 0 1 5) &&
      ((bcache Unit (· = 1) 30).step s (.enter ())).any fun (s' : Bcache Unit) ↦
        decide ((s'.buf 0).data.word 0 = 7))
    ⟨_, rfl⟩ (by decide +kernel)
  rw [Bool.and_eq_true, decide_eq_true_iff, Option.any_eq_true] at hend
  obtain ⟨hpc, s', hs', hdata⟩ := hend
  have hone : OneDrive (· = 1) := fun dev dev' h h' _ ↦ h.trans h'.symm
  exact ⟨s, s', hs, hs', ((cache_refines_disk (by decide) hs).2.2.2 hone () 0 1 5 s' hpc hs').2.2,
    of_decide_eq_true hdata⟩

def crowd : List (BufAct (Fin 31)) :=
  (List.range 29).map fun k ↦ .bget (Fin.ofNat 31 (k + 1)) 1 (BitVec.ofNat 32 (100 + k))

/-- After `binit` all buffers have the number (0, 0). And a block that is changed through device 3
has changed behind the buffer that device 1 had for it: when this buffer has been recycled, `bread`
returns other bytes than were last left in it. -/
theorem exists_same_key_and_foreign_bytes :
    (∃ s, (bcache (Fin 31) (· ≠ 0) 30).Reachable s ∧
      ∃ i j, i ≠ j ∧ (s.buf i).key = (s.buf j).key) ∧
    ∃ s s', (bcache (Fin 31) (· ≠ 0) 30).Reachable s ∧
      (bcache (Fin 31) (· ≠ 0) 30).step s (.enter 0) = some s' ∧ s.pc 0 = .wait 1 1 5 ∧
      ∃ c, s.left 1 5 = some c ∧ (s'.buf 1).data ≠ c := by
  refine ⟨⟨_, .init ⟨fun _ _ _ ↦ 0, rfl⟩, 0, 1, by decide, rfl⟩, ?_⟩
  obtain ⟨s, hs, hend⟩ := Machine.exists_reachable_of_run (M := bcache (Fin 31) (· ≠ 0) 30)
    (s := .boot fun _ _ _ ↦ 0)
    ([.bget 0 1 5, .enter 0, .brelse 0 0, .drop 0, .bget 0 3 5, .enter 0, .modify 0 1 fun _ ↦ 7,
      .bwrite 0 1, .brelse 0 1, .drop 0] ++ crowd ++ [.bget 0 1 5])
    (fun s ↦ decide (s.pc 0 = .wait 1 1 5) &&
      (((bcache (Fin 31) (· ≠ 0) 30).step s (.enter 0)).any fun (s' : Bcache (Fin 31)) ↦
        (s.left 1 5).any fun c ↦ decide ((s'.buf 1).data.word 0 ≠ c.word 0)))
    ⟨_, rfl⟩ (by decide +kernel)
  rw [Bool.and_eq_true, decide_eq_true_iff, Option.any_eq_true] at hend
  obtain ⟨hpc, s', hs', hany⟩ := hend
  rw [Option.any_eq_true] at hany
  obtain ⟨c, hc, hne⟩ := hany
  refine ⟨s, s', hs, hs', hpc, c, hc, fun heq ↦ of_decide_eq_true hne ?_⟩
  rw [heq]

end Bcache

end OperatingSystems
