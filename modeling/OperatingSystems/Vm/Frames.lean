import OperatingSystems.Vm.Layout

/-!
# The contents of pages

`vm.c` once more, with what is in the pages. A page is named by its kernel address, and `Ram` is the
allocator together with the bytes of every page. The functions are those of the model without
contents, with the stores they make: `kfree` fills a page with junk and links it in at its start,
`allocuvm` clears what it maps, and `copyuvm` copies. The entries of a directory and of its tables
are in the `PageDir`, and the bytes of the pages that hold them are not represented.

Each function does the same to the directory and to the allocator as the one it extends, which is
what the lemmas `*_pool` say: whatever was shown without contents carries over.
-/

namespace OperatingSystems

structure Ram where
  pool : Pool
  frame : BitVec 32 → ℕ → Byte

namespace Ram

def withPool (r : Ram) (s : Pool) : Ram := { r with pool := s }

@[simp] theorem withPool_pool (r : Ram) (s : Pool) : (r.withPool s).pool = s := rfl

@[simp] theorem withPool_frame (r : Ram) (s : Pool) : (r.withPool s).frame = r.frame := rfl

/-- Other contents of page `v`. -/
def store (r : Ram) (v : BitVec 32) (c : ℕ → Byte) : Ram :=
  { r with frame := Function.update r.frame v c }

@[simp] theorem store_frame (r : Ram) (v : BitVec 32) (c : ℕ → Byte) :
    (r.store v c).frame = Function.update r.frame v c := rfl

/-- What `kfree` leaves in a page: the link to the next free page, and junk. -/
def junk (next : BitVec 32) (i : ℕ) : Byte := if i < 4 then next.extractLsb' (8 * i) 8 else 1

def kfree (kend v : BitVec 32) (r : Ram) : Except VmPanic Ram := do
  let s ← r.pool.kfree kend v
  return (r.store v (junk (r.pool.free.headD 0))).withPool s

/-! ## Taking user pages out -/

def deallocLoop (kend : BitVec 32) (oldsz : ℕ) (pd : PageDir) (n : ℕ) (r : Ram) :
    Except VmPanic (PageDir × Ram) :=
  if n * pgSize < oldsz then
    if (pd.table (n / npdEntries)).isNone then
      deallocLoop kend oldsz pd ((n / npdEntries + 1) * npdEntries) r
    else
      match pd.pte n with
      | none => deallocLoop kend oldsz pd (n + 1) r
      | some e =>
        if e.pa = 0 then .error .kfree
        else do
          let r ← r.kfree kend (p2v e.pa)
          deallocLoop kend oldsz (pd.setPte n none) (n + 1) r
  else .ok (pd, r)
termination_by oldsz - n * pgSize
decreasing_by
  all_goals simp only [pgSize, npdEntries] at *; omega

def deallocuvm (kend : BitVec 32) (pd : PageDir) (oldsz newsz : ℕ) (r : Ram) :
    Except VmPanic (ℕ × PageDir × Ram) :=
  if newsz ≥ oldsz then .ok (oldsz, pd, r)
  else do
    let (pd, r) ← deallocLoop kend oldsz pd ((newsz + pgSize - 1) / pgSize) r
    return (newsz, pd, r)

def freeTables (kend : BitVec 32) (pd : PageDir) (r : Ram) : List ℕ → Except VmPanic Ram
  | [] => .ok r
  | i :: is =>
    match pd.table i with
    | none => freeTables kend pd r is
    | some t => do
      let r ← r.kfree kend t
      freeTables kend pd r is

def freevm (kend : BitVec 32) (pd : PageDir) (r : Ram) : Except VmPanic Ram := do
  let (_, pd, r) ← r.deallocuvm kend pd kernBase 0
  let r ← freeTables kend pd r (List.range npdEntries)
  r.kfree kend pd.page

/-! ## Building up -/

variable (img : KernelImage)

def setupkvm (r : Ram) : Except VmPanic (Option PageDir × Ram) :=
  match r.pool.kalloc with
  | (none, s) => .ok (none, r.withPool s)
  | (some p, s) =>
    if kernBase + physTop > devSpace then .error .physTop
    else do
      match ← PageDir.mapKernel (.empty p) s (kmap img) with
      | (true, pd, s) => return (some pd, r.withPool s)
      | (false, pd, s) =>
        let r ← (r.withPool s).freevm img.kend pd
        return (none, r)

def allocLoop (oldsz newsz : ℕ) (pd : PageDir) (n : ℕ) (r : Ram) :
    Except VmPanic (ℕ × PageDir × Ram) :=
  if n * pgSize < newsz then
    match r.pool.kalloc with
    | (none, s) => do
      let (_, pd, r) ← (r.withPool s).deallocuvm img.kend pd newsz oldsz
      return (0, pd, r)
    | (some mem, s) => do
      let r := r.store mem fun _ ↦ 0
      match ← pd.mappages (n * pgSize) pgSize (v2p mem) ⟨true, true⟩ s with
      | (false, pd, s) =>
        let (_, pd, r) ← (r.withPool s).deallocuvm img.kend pd newsz oldsz
        let r ← r.kfree img.kend mem
        return (0, pd, r)
      | (true, pd, s) => allocLoop oldsz newsz pd (n + 1) (r.withPool s)
  else .ok (newsz, pd, r)
termination_by newsz - n * pgSize
decreasing_by
  simp only [pgSize] at *; omega

def allocuvm (pd : PageDir) (oldsz newsz : ℕ) (r : Ram) : Except VmPanic (ℕ × PageDir × Ram) :=
  if newsz ≥ kernBase then .ok (0, pd, r)
  else if newsz < oldsz then .ok (oldsz, pd, r)
  else allocLoop img oldsz newsz pd ((oldsz + pgSize - 1) / pgSize) r

/-- The loop of `copyuvm`, at page `n`, into directory `d`. -/
def copyLoop (src : PageDir) (sz : ℕ) (d : PageDir) (n : ℕ) (r : Ram) :
    Except VmPanic (Option PageDir × Ram) :=
  if n * pgSize < sz then
    if (src.table (n / npdEntries)).isNone then .error .pteShouldExist
    else
      match src.pte n with
      | none => .error .pageNotPresent
      | some e =>
        match r.pool.kalloc with
        | (none, s) => do
          let r ← (r.withPool s).freevm img.kend d
          return (none, r)
        | (some mem, s) => do
          let r := r.store mem (r.frame (p2v e.pa))
          match ← d.mappages (n * pgSize) pgSize (v2p mem) e.perm s with
          | (false, d, s) =>
            let r ← (r.withPool s).kfree img.kend mem
            let r ← r.freevm img.kend d
            return (none, r)
          | (true, d, s) => copyLoop src sz d (n + 1) (r.withPool s)
  else .ok (some d, r)
termination_by sz - n * pgSize
decreasing_by
  simp only [pgSize] at *; omega

def copyuvm (pd : PageDir) (sz : ℕ) (r : Ram) : Except VmPanic (Option PageDir × Ram) := do
  match ← setupkvm img r with
  | (none, r) => return (none, r)
  | (some d, r) => copyLoop img pd sz d 0 r

/-! ## Without contents -/

variable {img} {kend v : BitVec 32} {r : Ram} {pd d src : PageDir} {n oldsz newsz sz : ℕ}

theorem kfree_pool : (r.kfree kend v).map Ram.pool = r.pool.kfree kend v := by
  rw [kfree]
  cases r.pool.kfree kend v <;> rfl

theorem deallocLoop_pool : (deallocLoop kend oldsz pd n r).map (Prod.map id Ram.pool)
    = PageDir.deallocLoop kend oldsz pd n r.pool := by
  fun_induction deallocLoop kend oldsz pd n r with
  | case1 pd n r hlt htable ih =>
    rw [PageDir.deallocLoop.eq_def kend oldsz pd n, if_pos hlt, if_pos htable]
    exact ih
  | case2 pd n r hlt htable hnone ih =>
    rw [PageDir.deallocLoop.eq_def kend oldsz pd n, if_pos hlt, if_neg htable, hnone]
    exact ih
  | case3 pd n r hlt htable e he hpa =>
    rw [PageDir.deallocLoop, if_pos hlt, if_neg htable, he]
    exact (if_pos hpa).symm
  | case4 pd n r hlt htable e he hpa ih =>
    rw [PageDir.deallocLoop, if_pos hlt, if_neg htable, he]
    refine (map_bind_of kfree_pool ih).trans ?_
    exact (if_neg hpa).symm
  | case5 pd n r hge =>
    rw [PageDir.deallocLoop, if_neg hge]
    rfl

theorem deallocuvm_pool :
    (r.deallocuvm kend pd oldsz newsz).map (Prod.map id (Prod.map id Ram.pool))
    = pd.deallocuvm kend oldsz newsz r.pool := by
  rw [deallocuvm, PageDir.deallocuvm]
  split
  · rfl
  · exact map_bind_of deallocLoop_pool fun _ ↦ rfl

theorem freeTables_pool {is : List ℕ} :
    (freeTables kend pd r is).map Ram.pool = PageDir.freeTables kend pd r.pool is := by
  induction is generalizing r with
  | nil => rfl
  | cons i is ih =>
    rw [freeTables, PageDir.freeTables]
    cases pd.table i with
    | none => exact ih
    | some t => exact map_bind_of kfree_pool fun _ ↦ ih

theorem freevm_pool : (r.freevm kend pd).map Ram.pool = pd.freevm kend r.pool :=
  map_bind_of deallocuvm_pool fun _ ↦ map_bind_of freeTables_pool fun _ ↦ kfree_pool

theorem setupkvm_pool : (setupkvm img r).map (Prod.map id Ram.pool)
    = PageDir.setupkvm img r.pool := by
  rw [setupkvm, PageDir.setupkvm]
  obtain ⟨⟨p, s⟩, hs⟩ : ∃ x, r.pool.kalloc = x := ⟨_, rfl⟩
  rw [hs]
  cases p with
  | none => rfl
  | some p =>
    dsimp only
    split
    · rfl
    · refine map_bind_congr fun x ↦ ?_
      rcases x with ⟨b, pd, s₁⟩
      cases b with
      | true => rfl
      | false => exact map_bind_of freevm_pool fun _ ↦ rfl

theorem allocLoop_pool : (allocLoop img oldsz newsz pd n r).map (Prod.map id (Prod.map id Ram.pool))
    = PageDir.allocLoop img oldsz newsz pd n r.pool := by
  fun_induction allocLoop img oldsz newsz pd n r with
  | case1 pd n r hlt s hs =>
    rw [PageDir.allocLoop, if_pos hlt, hs]
    exact map_bind_of deallocuvm_pool fun _ ↦ rfl
  | case2 pd n r hlt mem s hs r₁ ih =>
    rw [PageDir.allocLoop, if_pos hlt, hs]
    refine map_bind_congr fun x ↦ ?_
    rcases x with ⟨b, pd₁, s₁⟩
    cases b with
    | true => exact ih pd₁ s₁
    | false => exact map_bind_of deallocuvm_pool fun _ ↦ map_bind_of kfree_pool fun _ ↦ rfl
  | case3 pd n r hge =>
    rw [PageDir.allocLoop, if_neg hge]
    rfl

theorem allocuvm_pool : (r.allocuvm img pd oldsz newsz).map (Prod.map id (Prod.map id Ram.pool))
    = pd.allocuvm img oldsz newsz r.pool := by
  rw [allocuvm, PageDir.allocuvm]
  split
  · rfl
  · split
    · rfl
    · exact allocLoop_pool

theorem copyLoop_pool : (copyLoop img src sz d n r).map (Prod.map id Ram.pool)
    = PageDir.copyLoop img src sz d n r.pool := by
  fun_induction copyLoop img src sz d n r with
  | case1 d n r hlt htable =>
    rw [PageDir.copyLoop, if_pos hlt, if_pos htable]
    rfl
  | case2 d n r hlt htable hpte =>
    rw [PageDir.copyLoop, if_pos hlt, if_neg htable, hpte]
    rfl
  | case3 d n r hlt htable e he s hs =>
    rw [PageDir.copyLoop, if_pos hlt, if_neg htable, he]
    dsimp only
    rw [hs]
    exact map_bind_of freevm_pool fun _ ↦ rfl
  | case4 d n r hlt htable e he mem s hs r₁ ih =>
    rw [PageDir.copyLoop, if_pos hlt, if_neg htable, he]
    dsimp only
    rw [hs]
    refine map_bind_congr fun x ↦ ?_
    rcases x with ⟨b, d₁, s₁⟩
    cases b with
    | true => exact ih d₁ s₁
    | false => exact map_bind_of kfree_pool fun _ ↦ map_bind_of freevm_pool fun _ ↦ rfl
  | case5 d n r hge =>
    rw [PageDir.copyLoop, if_neg hge]
    rfl

theorem copyuvm_pool : (r.copyuvm img pd sz).map (Prod.map id Ram.pool)
    = pd.copyuvm img sz r.pool := by
  refine map_bind_of setupkvm_pool fun x ↦ ?_
  rcases x with ⟨d, r₁⟩
  cases d with
  | none => rfl
  | some d => exact copyLoop_pool

end Ram

end OperatingSystems
