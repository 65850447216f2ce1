import OperatingSystems.Vm.Frames

/-!
# Which pages are written to

A function that takes pages from the allocator writes to those pages only, and one that gives pages
back to those it gives back. So a page that is in use before and afterwards is as it was:
`Untouched`. In between, `allocuvm` has cleared the pages that it maps, and `copyuvm` has copied
them.

It is not enough that each step writes to pages of its own: a page that was given back may be taken
again. But none of the functions does both in this order.
-/

namespace OperatingSystems

open Function

variable {s : Pool} {mem : BitVec 32}

namespace Ram

variable {r r₁ r₂ r' : Ram}

structure Takes (r r' : Ram) : Prop where
  suffix : r'.pool.free <:+ r.pool.free
  frame : ∀ v, v ∉ r.pool.free → r'.frame v = r.frame v

structure Frees (r r' : Ram) : Prop where
  suffix : r.pool.free <:+ r'.pool.free
  frame : ∀ v, v ∉ r'.pool.free → r'.frame v = r.frame v

/-- Only pages that are free before or afterwards are written to. -/
def Untouched (r r' : Ram) : Prop :=
  ∀ v, v ∉ r.pool.free → v ∉ r'.pool.free → r'.frame v = r.frame v

theorem Takes.refl (r : Ram) : Takes r r := ⟨List.suffix_rfl, fun _ _ ↦ rfl⟩

theorem Frees.refl (r : Ram) : Frees r r := ⟨List.suffix_rfl, fun _ _ ↦ rfl⟩

theorem Takes.trans (h : Takes r r₁) (h' : Takes r₁ r₂) : Takes r r₂ := by
  refine ⟨h'.suffix.trans h.suffix, fun v hv ↦ ?_⟩
  rw [h'.frame v fun hmem ↦ hv (h.suffix.subset hmem), h.frame v hv]

theorem Frees.trans (h : Frees r r₁) (h' : Frees r₁ r₂) : Frees r r₂ := by
  refine ⟨h.suffix.trans h'.suffix, fun v hv ↦ ?_⟩
  rw [h'.frame v hv, h.frame v fun hmem ↦ hv (h'.suffix.subset hmem)]

theorem Takes.untouched (h : Takes r r') : Untouched r r' := fun v hv _ ↦ h.frame v hv

theorem Frees.untouched (h : Frees r r') : Untouched r r' := fun v _ hv ↦ h.frame v hv

theorem Takes.trans_untouched (h : Takes r r₁) (h' : Untouched r₁ r₂) : Untouched r r₂ := by
  intro v hv hv'
  rw [h' v (fun hmem ↦ hv (h.suffix.subset hmem)) hv', h.frame v hv]

theorem Untouched.trans_frees (h : Untouched r r₁) (h' : Frees r₁ r₂) : Untouched r r₂ := by
  intro v hv hv'
  rw [h'.frame v hv', h v hv fun hmem ↦ hv' (h'.suffix.subset hmem)]

theorem Takes.withPool (h : s.free <:+ r.pool.free) : Takes r (r.withPool s) :=
  ⟨h, fun _ _ ↦ rfl⟩

theorem Takes.kalloc (h : r.pool.kalloc = (some mem, s)) (c : ℕ → Byte) :
    Takes r ((r.store mem c).withPool s) := by
  have hfree := Pool.free_of_kalloc h
  refine ⟨?_, fun v hv ↦ ?_⟩
  · rw [withPool_pool, hfree]
    exact List.suffix_cons mem s.free
  · rw [withPool_frame, store_frame, update_of_ne]
    rintro rfl
    exact hv (hfree ▸ List.mem_cons_self)

/-! ## Giving pages back -/

section Free

variable {kend v : BitVec 32} {pd pd' : PageDir} {n oldsz newsz size : ℕ}

theorem frees_kfree (h : r.kfree kend v = .ok r') : Frees r r' := by
  obtain ⟨s, hs, h⟩ := bind_eq_ok_iff.mp h
  cases h
  have hfree := Pool.kfree_eq_ok hs
  refine ⟨?_, fun w hw ↦ ?_⟩
  · rw [withPool_pool, hfree]
    exact List.suffix_cons v r.pool.free
  · rw [withPool_frame, store_frame, update_of_ne]
    rintro rfl
    exact hw (hfree ▸ List.mem_cons_self)

theorem frees_deallocLoop (h : deallocLoop kend oldsz pd n r = .ok (pd', r')) : Frees r r' := by
  fun_induction deallocLoop kend oldsz pd n r with
  | case1 pd n r hlt htable ih => exact ih h
  | case2 pd n r hlt htable hnone ih => exact ih h
  | case3 pd n r hlt htable e he hpa => cases h
  | case4 pd n r hlt htable e he hpa ih =>
    obtain ⟨r₁, hr₁, h⟩ := bind_eq_ok_iff.mp h
    exact (frees_kfree hr₁).trans (ih r₁ h)
  | case5 pd n r hge =>
    cases h
    exact .refl _

theorem frees_deallocuvm (h : r.deallocuvm kend pd oldsz newsz = .ok (size, pd', r')) :
    Frees r r' := by
  rw [deallocuvm] at h
  split at h
  · cases h
    exact .refl _
  · obtain ⟨⟨pd₁, r₁⟩, hloop, h⟩ := bind_eq_ok_iff.mp h
    cases h
    exact frees_deallocLoop hloop

theorem frees_freeTables {is : List ℕ} (h : freeTables kend pd r is = .ok r') : Frees r r' := by
  induction is generalizing r with
  | nil =>
    cases h
    exact .refl _
  | cons i is ih =>
    rw [freeTables] at h
    split at h
    · exact ih h
    · obtain ⟨r₁, hr₁, h⟩ := bind_eq_ok_iff.mp h
      exact (frees_kfree hr₁).trans (ih h)

theorem frees_freevm (h : r.freevm kend pd = .ok r') : Frees r r' := by
  obtain ⟨⟨size, pd₁, r₁⟩, hdealloc, h⟩ := bind_eq_ok_iff.mp h
  obtain ⟨r₂, htables, h⟩ := bind_eq_ok_iff.mp h
  exact ((frees_deallocuvm hdealloc).trans (frees_freeTables htables)).trans (frees_kfree h)

end Free

end Ram

/-! ## Mapping takes pages for tables -/

namespace PageDir

variable {pd pd' : PageDir} {s s' : Pool} {n k : ℕ} {b : Bool} {pa : BitVec 32} {perm : Perm}

theorem free_suffix_mapLoop (h : pd.mapLoop n pa perm s k = .ok (b, pd', s')) :
    s'.free <:+ s.free := by
  refine mapLoop_keeps (P := fun _ _ s' ↦ s'.free <:+ s.free) (fun _ _ hw h ↦ ?_)
    (fun _ _ _ h ↦ h) List.suffix_rfl h
  rcases walkpgdir_cases hw with ⟨-, hfree, -⟩ | ⟨t, -, hfree, -⟩
  · rwa [hfree]
  · rw [hfree] at h
    exact (List.suffix_cons t _).trans h

theorem free_suffix_mapKernel {ks : List Kmap} (h : mapKernel pd s ks = .ok (b, pd', s')) :
    s'.free <:+ s.free :=
  mapKernel_keeps (P := fun _ _ s' ↦ s'.free <:+ s.free)
    (fun _ _ _ _ _ _ _ hmap h ↦ (free_suffix_mapLoop hmap).trans h) List.suffix_rfl h

end PageDir

namespace Ram

variable {img : KernelImage} {r r' : Ram} {pd pd' d d' src : PageDir} {n oldsz newsz size sz : ℕ}
  {o : Option PageDir} {perm : Perm} {s₁ : Pool} {b : Bool}

/-! ## Building up -/

theorem takes_setupkvm (h : setupkvm img r = .ok (some pd, r')) : Takes r r' := by
  rw [setupkvm] at h
  rcases r.pool.kalloc_cases with ⟨s, hs, -⟩ | ⟨p, s, hs, hfree⟩
  · simp only [hs] at h
    cases h
  · simp only [hs] at h
    split at h
    · cases h
    · obtain ⟨⟨b, pd₁, s₁⟩, hmap, h⟩ := bind_eq_ok_iff.mp h
      cases b with
      | true =>
        cases h
        refine .withPool ((PageDir.free_suffix_mapKernel hmap).trans ?_)
        rw [hfree]
        exact List.suffix_cons p _
      | false =>
        obtain ⟨r₁, -, h⟩ := bind_eq_ok_iff.mp h
        cases h

theorem untouched_setupkvm (h : setupkvm img r = .ok (o, r')) : Untouched r r' := by
  cases o with
  | some pd => exact (takes_setupkvm h).untouched
  | none =>
    rw [setupkvm] at h
    rcases r.pool.kalloc_cases with ⟨s, hs, hfree⟩ | ⟨p, s, hs, hfree⟩
    · simp only [hs] at h
      cases h
      exact (Takes.withPool (by rw [hfree])).untouched
    · simp only [hs] at h
      split at h
      · cases h
      · obtain ⟨⟨b, pd₁, s₁⟩, hmap, h⟩ := bind_eq_ok_iff.mp h
        cases b with
        | true => cases h
        | false =>
          obtain ⟨r₁, hfreevm, h⟩ := bind_eq_ok_iff.mp h
          cases h
          have htakes : Takes r (r.withPool s₁) := by
            refine .withPool ((PageDir.free_suffix_mapKernel hmap).trans ?_)
            rw [hfree]
            exact List.suffix_cons p _
          exact htakes.untouched.trans_frees (frees_freevm hfreevm)

theorem takes_map {c : ℕ → Byte} (hs : r.pool.kalloc = (some mem, s))
    (hmap : pd.mappages (n * pgSize) pgSize (v2p mem) perm s = .ok (b, pd', s₁)) :
    Takes r ((r.store mem c).withPool s₁) :=
  (Takes.kalloc hs c).trans (.withPool (PageDir.free_suffix_mapLoop hmap))

theorem notMem_of_map (hnodup : r.pool.free.Nodup) (hs : r.pool.kalloc = (some mem, s))
    (hmap : pd.mappages (n * pgSize) pgSize (v2p mem) perm s = .ok (b, pd', s₁)) :
    mem ∉ s₁.free := by
  rw [Pool.free_of_kalloc hs] at hnodup
  exact fun hmem ↦ (List.nodup_cons.mp hnodup).1 ((PageDir.free_suffix_mapLoop hmap).subset hmem)

theorem nodup_of_suffix (hnodup : r.pool.free.Nodup) (h : s.free <:+ r.pool.free) :
    s.free.Nodup := hnodup.sublist h.sublist

/-- **What `allocuvm` leaves in the pages**: those it maps are the user's and zero, and if it fails,
all that stay in use are as they were. -/
theorem allocLoop_contents (hsz : newsz ≤ kernBase) (hnodup : r.pool.free.Nodup)
    (h : allocLoop img oldsz newsz pd n r = .ok (size, pd', r')) :
    (size = newsz ∧ Takes r r' ∧ PageDir.Fills n newsz pd pd' fun _ e ↦
      e.perm = ⟨true, true⟩ ∧ r'.frame (p2v e.pa) = fun _ ↦ 0) ∨
    size = 0 ∧ Untouched r r' := by
  fun_induction allocLoop img oldsz newsz pd n r with
  | case1 pd n r hlt s hs =>
    obtain ⟨⟨size₁, pd₁, r₁⟩, hdealloc, h⟩ := bind_eq_ok_iff.mp h
    cases h
    have htakes : Takes r (r.withPool s) := .withPool (by rw [Pool.free_of_kalloc_none hs])
    exact .inr ⟨rfl, htakes.untouched.trans_frees (frees_deallocuvm hdealloc)⟩
  | case2 pd n r hlt mem s hs r₁ ih =>
    obtain ⟨⟨b, pd₁, s₁⟩, hmap, h⟩ := bind_eq_ok_iff.mp h
    have htakes : Takes r (r₁.withPool s₁) := takes_map hs hmap
    have hpte := PageDir.pte_of_mappages (PageDir.lt_vpages (PageDir.lt_userPages hlt hsz)) hmap
    cases b with
    | false =>
      obtain ⟨⟨size₁, pd₂, r₂⟩, hdealloc, h⟩ := bind_eq_ok_iff.mp h
      obtain ⟨r₃, hkfree, h⟩ := bind_eq_ok_iff.mp h
      cases h
      exact .inr ⟨rfl, (htakes.untouched.trans_frees (frees_deallocuvm hdealloc)).trans_frees
        (frees_kfree hkfree)⟩
    | true =>
      rw [if_pos rfl] at hpte
      rcases ih pd₁ s₁ (nodup_of_suffix hnodup htakes.suffix) h with ⟨hsize, hrest, hall⟩
        | ⟨h0, hrest⟩
      · refine .inl ⟨hsize, htakes.trans hrest, hall.round hlt hpte ⟨rfl, ?_⟩⟩
        -- the page of this round is not written to again
        rw [p2v_v2p, hrest.frame mem (notMem_of_map hnodup hs hmap)]
        exact update_self ..
      · exact .inr ⟨h0, htakes.trans_untouched hrest⟩
  | case3 pd n r hge =>
    cases h
    exact .inl ⟨rfl, .refl _, .done hge⟩

theorem untouched_allocuvm (hnodup : r.pool.free.Nodup)
    (h : r.allocuvm img pd oldsz newsz = .ok (size, pd', r')) : Untouched r r' := by
  rw [allocuvm] at h
  split at h
  · cases h
    exact (Takes.refl _).untouched
  · next hsz =>
    split at h
    · cases h
      exact (Takes.refl _).untouched
    · rcases allocLoop_contents (not_le.mp hsz).le hnodup h with ⟨-, htakes, -⟩ | ⟨-, hun⟩
      · exact htakes.untouched
      · exact hun

/-- **What `copyuvm` leaves in the pages**: those of the copy are equal, where the pages that are
copied are in use. If it fails, all that stay in use are as they were. -/
theorem copyLoop_contents (h : copyLoop img src sz d n r = .ok (o, r')) :
    Untouched r r' ∧ ∀ d', o = some d' → sz ≤ kernBase → r.pool.free.Nodup →
      (∀ m e, m * pgSize < sz → src.pte m = some e → p2v e.pa ∉ r.pool.free) →
      Takes r r' ∧ PageDir.Fills n sz d d' fun m e' ↦ ∃ e, src.pte m = some e ∧
        e'.perm = e.perm ∧ r'.frame (p2v e'.pa) = r.frame (p2v e.pa) := by
  fun_induction copyLoop img src sz d n r with
  | case1 d n r hlt htable => cases h
  | case2 d n r hlt htable hpte => cases h
  | case3 d n r hlt htable e he s hs =>
    obtain ⟨r₁, hfreevm, h⟩ := bind_eq_ok_iff.mp h
    cases h
    have htakes : Takes r (r.withPool s) := .withPool (by rw [Pool.free_of_kalloc_none hs])
    exact ⟨htakes.untouched.trans_frees (frees_freevm hfreevm), fun _ h ↦ by cases h⟩
  | case4 d n r hlt htable e he mem s hs r₁ ih =>
    obtain ⟨⟨b, d₁, s₁⟩, hmap, h⟩ := bind_eq_ok_iff.mp h
    have htakes : Takes r (r₁.withPool s₁) := takes_map hs hmap
    cases b with
    | false =>
      obtain ⟨r₂, hkfree, h⟩ := bind_eq_ok_iff.mp h
      obtain ⟨r₃, hfreevm, h⟩ := bind_eq_ok_iff.mp h
      cases h
      exact ⟨(htakes.untouched.trans_frees (frees_kfree hkfree)).trans_frees (frees_freevm hfreevm),
        fun _ h ↦ by cases h⟩
    | true =>
      obtain ⟨hun, hcopy⟩ := ih d₁ s₁ h
      refine ⟨htakes.trans_untouched hun, fun d' hd' hsz hnodup hsrc ↦ ?_⟩
      have hpte := PageDir.pte_of_mappages (PageDir.lt_vpages (PageDir.lt_userPages hlt hsz)) hmap
      obtain ⟨hrest, hall⟩ := hcopy d' hd' hsz (nodup_of_suffix hnodup htakes.suffix)
        fun m e hm he hmem ↦ hsrc m e hm he (htakes.suffix.subset hmem)
      refine ⟨htakes.trans hrest, PageDir.Fills.round (fun m ↦ ?_) hlt hpte ⟨e, he, rfl, ?_⟩⟩
      · rcases hall m with hsame | ⟨hin, e', he', e₁, he₁, hperm, hframe⟩
        · exact .inl hsame
        · rw [htakes.frame _ (hsrc m e₁ hin.2 he₁)] at hframe
          exact .inr ⟨hin, e', he', e₁, he₁, hperm, hframe⟩
      · rw [p2v_v2p, hrest.frame mem (notMem_of_map hnodup hs hmap)]
        exact update_self ..
  | case5 d n r hge =>
    cases h
    refine ⟨(Takes.refl _).untouched, fun d' hd' _ _ _ ↦ ?_⟩
    cases hd'
    exact ⟨.refl _, .done hge⟩

end Ram

end OperatingSystems
