import OperatingSystems.Vm.Lineage
import OperatingSystems.Vm.Untouched

/-!
# Copying to user addresses

`copyout` stores a buffer at a user address of a directory that need not be the current one, page by
page. For every page it asks `uva2ka` where that is, and stops at the first one that is not present
or not the user's. As nothing at or above `KERNBASE` is the user's, it never gets as far as to the
end of the address space.

`uva2ka` looks at the entry that `walkpgdir` finds, and does not ask whether it found one. Where the
table is missing there is none. The addresses that `exec` copies to are below the size of the new
program by the length of the arguments, and with 36 megabytes of them wrap around to the gap below
the devices, where no directory has tables.
-/

namespace OperatingSystems

open Function

/-- `uva2ka`: the kernel address of user page `n`, or 0. -/
def PageDir.uva2ka (pd : PageDir) (n : ℕ) : Except VmPanic (BitVec 32) :=
  if (pd.table (n / npdEntries)).isNone then .error .nullPte
  else
    match pd.pte n with
    | none => .ok 0
    | some e => if !e.perm.u then .ok 0 else .ok (p2v e.pa)

namespace Ram

/-- Store `bs` in page `v` from `off` on. -/
def memmove (r : Ram) (v : BitVec 32) (off : ℕ) (bs : List Byte) : Ram :=
  r.store v fun i ↦ if off ≤ i then (bs[i - off]?).getD (r.frame v i) else r.frame v i

/-- `copyout`: store `buf` at user address `va`; `false` if it does not all get there. -/
def copyout (pd : PageDir) (va : BitVec 32) (buf : List Byte) (r : Ram) :
    Except VmPanic (Bool × Ram) :=
  if 0 < buf.length then do
    let pa0 ← pd.uva2ka (va.toNat / pgSize)
    if pa0 = 0 then return (false, r)
    else
      -- as much as there is room for in the page
      let n := min (pgSize - va.toNat % pgSize) buf.length
      copyout pd (BitVec.ofNat 32 ((va.toNat / pgSize + 1) * pgSize)) (buf.drop n)
        (r.memmove pa0 (va.toNat % pgSize) (buf.take n))
  else .ok (true, r)
termination_by buf.length
decreasing_by
  simp only [pgSize, List.length_drop] at *; omega

/-- The byte at user address `a`. -/
def user (r : Ram) (pd : PageDir) (a : ℕ) : Option Byte :=
  (pd.pte (a / pgSize)).map fun e ↦ r.frame (p2v e.pa) (a % pgSize)

end Ram

/-! ## The pages of a range -/

/-- Page `m` has addresses in the range of `len` bytes from `va` on. -/
def Overlaps (va len m : ℕ) : Prop := ∃ a, va ≤ a ∧ a < va + len ∧ a / pgSize = m

variable {m : ℕ}

theorem overlaps_iff {va len : ℕ} :
    Overlaps va len m ↔ 0 < len ∧ va / pgSize ≤ m ∧ m * pgSize < va + len := by
  constructor
  · rintro ⟨a, hle, hlt, rfl⟩
    rw [pgSize]
    omega
  · rintro ⟨hlen, hle, hlt⟩
    refine ⟨max va (m * pgSize), le_max_left _ _, max_lt (by omega) hlt, ?_⟩
    rw [pgSize] at *
    omega

namespace PageDir

variable {kend : BitVec 32} {pd : PageDir} {n m : ℕ} {e e' : Pte}

/-- Page `n` is present and accessible to the user. -/
def IsUser (pd : PageDir) (n : ℕ) : Prop := ∃ e, pd.pte n = some e ∧ e.perm.u = true

theorem KernelOnly.lt_of_isUser (h : pd.KernelOnly) (hn : pd.IsUser n) : n < userPages := by
  obtain ⟨e, he, hu⟩ := hn
  by_contra hge
  rw [h n (not_lt.mp hge) e he] at hu
  cases hu

theorem eq_of_pa_eq (h : Ledger kend pd.pages) (hn : n < userPages) (hm : m < userPages)
    (he : pd.pte n = some e) (he' : pd.pte m = some e') (hpa : e'.pa = e.pa) : m = n := by
  have hnodup := Multiset.nodup_of_le (Multiset.le_add_left _ _) h.nodup
  have hat : ∀ {n e}, n < userPages → pd.pte n = some e →
      (if n < userPages then (pd.pte n).map fun e ↦ p2v e.pa else none) = some (p2v e.pa) := by
    intro n e hn he
    rw [if_pos hn, he]
    rfl
  have heq := pd.placed_user.unique hnodup (x := (m, ())) (y := (n, ()))
    ((hat hm he').trans (by rw [hpa])) (hat hn he)
  exact congrArg Prod.fst heq

theorem ne_zero_of_pte (h : Ledger kend pd.pages) (hn : n < userPages) (he : pd.pte n = some e) :
    p2v e.pa ≠ 0 := by
  intro h0
  have hpage := h.isPage _ (mem_pages_of_pte hn he)
  rw [h0] at hpage
  exact absurd hpage.2.2 (by decide)

theorem uva2ka_of_isUser (h : Ledger kend pd.pages) (hn : n < userPages) (he : pd.pte n = some e)
    (hu : e.perm.u = true) : pd.uva2ka n = .ok (p2v e.pa) ∧ p2v e.pa ≠ 0 := by
  refine ⟨?_, ne_zero_of_pte h hn he⟩
  have htable : ¬(pd.table (n / npdEntries)).isNone := by
    rw [Option.isNone_iff_eq_none]
    intro hnone
    rw [pd.absent n hnone] at he
    cases he
  rw [uva2ka, if_neg htable, he]
  dsimp only
  rw [hu]
  rfl

theorem uva2ka_of_not_isUser (hn : ¬pd.IsUser n) (htable : (pd.table (n / npdEntries)).isSome) :
    pd.uva2ka n = .ok 0 := by
  have hsome : ¬(pd.table (n / npdEntries)).isNone := by
    rwa [Option.isNone_iff_eq_none, ← ne_eq, ← Option.isSome_iff_ne_none]
  rw [uva2ka, if_neg hsome]
  cases he : pd.pte n with
  | none => rfl
  | some e =>
    cases hu : e.perm.u with
    | false =>
      dsimp only
      rw [hu]
      rfl
    | true => exact (hn ⟨e, he, hu⟩).elim

theorem isUser_of_uva2ka {p : BitVec 32} (h : pd.uva2ka n = .ok p) (hp : p ≠ 0) :
    ∃ e, pd.pte n = some e ∧ e.perm.u = true ∧ p = p2v e.pa := by
  rw [uva2ka] at h
  split at h
  · cases h
  · split at h
    · cases h
      exact (hp rfl).elim
    · next e he =>
      split at h
      · cases h
        exact (hp rfl).elim
      · next hu =>
        refine ⟨e, he, ?_, (Except.ok.inj h).symm⟩
        rwa [Bool.not_eq_true', Bool.not_eq_false] at hu

end PageDir

/-! ## A whole copy -/

namespace Ram

variable {kend va : BitVec 32} {pd : PageDir} {buf : List Byte} {r r' r₁ : Ram} {b : Bool} {n : ℕ}
  {e : Pte}

theorem memmove_frame_of_ne {v w : BitVec 32} (h : w ≠ v) (off : ℕ) (bs : List Byte) :
    (r.memmove v off bs).frame w = r.frame w := update_of_ne h _ _

theorem memmove_frame_self (v : BitVec 32) (off : ℕ) (bs : List Byte) (i : ℕ) :
    (r.memmove v off bs).frame v i
      = if off ≤ i then (bs[i - off]?).getD (r.frame v i) else r.frame v i := by
  rw [memmove, store_frame, update_self]

/-- `buf` is at user address `va`, and nothing else has changed. -/
structure Copied (pd : PageDir) (va : ℕ) (buf : List Byte) (r r' : Ram) : Prop where
  pool : r'.pool = r.pool
  user : ∀ i, i < buf.length → r'.user pd (va + i) = buf[i]?
  kept : ∀ v k, (∀ i e, i < buf.length → pd.pte ((va + i) / pgSize) = some e →
    ¬(v = p2v e.pa ∧ k = (va + i) % pgSize)) → r'.frame v k = r.frame v k

theorem Copied.refl (pd : PageDir) (va : ℕ) (r : Ram) : Copied pd va [] r r :=
  ⟨rfl, fun _ hi ↦ absurd hi (Nat.not_lt_zero _), fun _ _ _ ↦ rfl⟩

theorem Copied.cons {va : ℕ} (hl : Ledger kend pd.pages) (hk : pd.KernelOnly)
    (he : pd.pte (va / pgSize) = some e) (hm : va / pgSize < userPages)
    (hn : n = min (pgSize - va % pgSize) buf.length)
    (huser : ∀ m, Overlaps ((va / pgSize + 1) * pgSize) (buf.length - n) m → pd.IsUser m)
    (h : Copied pd ((va / pgSize + 1) * pgSize) (buf.drop n)
      (r.memmove (p2v e.pa) (va % pgSize) (buf.take n)) r') : Copied pd va buf r r' := by
  -- a later page is another one
  have hother : ∀ i e', i < (buf.drop n).length →
      pd.pte (((va / pgSize + 1) * pgSize + i) / pgSize) = some e' → p2v e.pa ≠ p2v e'.pa := by
    intro i e' hi he' heq
    rw [List.length_drop] at hi
    have hlt := hk.lt_of_isUser (huser _ ⟨_, Nat.le_add_right _ i, by omega, rfl⟩)
    have hpage := PageDir.eq_of_pa_eq hl hm hlt he he' (add_right_cancel heq).symm
    rw [pgSize] at hpage
    omega
  refine ⟨h.pool, fun i hi ↦ ?_, fun v k hv ↦ ?_⟩
  · by_cases hin : i < n
    · have hpage : (va + i) / pgSize = va / pgSize ∧ (va + i) % pgSize = va % pgSize + i := by
        rw [pgSize] at *
        omega
      rw [Ram.user, hpage.1, hpage.2, he, Option.map_some,
        h.kept _ _ fun j e' hj he' heq ↦ hother j e' hj he' heq.1,
        memmove_frame_self, if_pos (Nat.le_add_right _ _), Nat.add_sub_cancel_left,
        List.getElem?_take_of_lt hin, List.getElem?_eq_getElem hi]
      rfl
    · have haddr : va + i = (va / pgSize + 1) * pgSize + (i - n) := by
        rw [pgSize] at *
        omega
      rw [haddr, h.user (i - n) (by rw [List.length_drop]; omega), List.getElem?_drop]
      congr 1
      omega
  · have hrest := h.kept v k fun i e' hi he' hvk ↦ by
      rw [List.length_drop] at hi
      have haddr : (va / pgSize + 1) * pgSize + i = va + (n + i) := by
        rw [pgSize] at *
        omega
      rw [haddr] at he' hvk
      exact hv (n + i) e' (by omega) he' hvk
    rw [hrest]
    by_cases hve : v = p2v e.pa
    · subst hve
      rw [memmove_frame_self]
      split
      · next hle =>
        rw [List.getElem?_eq_none]
        · rfl
        · rw [List.length_take]
          by_contra hlt
          have hpage : (va + (k - va % pgSize)) / pgSize = va / pgSize ∧
              (va + (k - va % pgSize)) % pgSize = k := by
            rw [pgSize] at *
            omega
          exact hv (k - va % pgSize) e (by omega) (hpage.1 ▸ he) ⟨rfl, hpage.2.symm⟩
      · rfl
    · rw [memmove_frame_of_ne hve]

theorem Copied.user_of_not_mem {va a : ℕ} (h : Copied pd va buf r r') (hl : Ledger kend pd.pages)
    (hk : pd.KernelOnly) (huser : ∀ m, Overlaps va buf.length m → pd.IsUser m)
    (ha : a / pgSize < userPages) (hout : ¬(va ≤ a ∧ a < va + buf.length)) :
    r'.user pd a = r.user pd a := by
  rw [Ram.user, Ram.user]
  cases he : pd.pte (a / pgSize) with
  | none => rfl
  | some e =>
    refine congrArg some (h.kept _ _ fun i e' hi he' hvk ↦ hout ?_)
    obtain ⟨hpa, hoff⟩ := hvk
    have hlt := hk.lt_of_isUser (huser _ ⟨va + i, Nat.le_add_right _ _, by omega, rfl⟩)
    have hpage := PageDir.eq_of_pa_eq hl ha hlt he he' (add_right_cancel hpa).symm
    have heq : va + i = a := by
      rw [← Nat.div_add_mod (va + i) pgSize, hpage, ← hoff, Nat.div_add_mod]
    omega

theorem copyout_nil (pd : PageDir) (va : BitVec 32) (r : Ram) :
    copyout pd va [] r = .ok (true, r) := by
  rw [copyout]
  exact if_neg (Nat.lt_irrefl 0)

theorem copyout_of_isUser (hl : Ledger kend pd.pages) (hbuf : 0 < buf.length)
    (hm : va.toNat / pgSize < userPages) (he : pd.pte (va.toNat / pgSize) = some e)
    (hu : e.perm.u = true) : copyout pd va buf r =
      copyout pd (BitVec.ofNat 32 ((va.toNat / pgSize + 1) * pgSize))
        (buf.drop (min (pgSize - va.toNat % pgSize) buf.length))
        (r.memmove (p2v e.pa) (va.toNat % pgSize)
          (buf.take (min (pgSize - va.toNat % pgSize) buf.length))) := by
  obtain ⟨huva, hne⟩ := PageDir.uva2ka_of_isUser hl hm he hu
  rw [copyout, if_pos hbuf, huva, ok_bind, if_neg hne]

theorem copyout_of_table (hbuf : 0 < buf.length)
    (htable : pd.table (va.toNat / pgSize / npdEntries) = none) :
    copyout pd va buf r = .error .nullPte := by
  rw [copyout, if_pos hbuf, PageDir.uva2ka, if_pos (by rw [htable]; rfl)]
  rfl

theorem toNat_nextPage (h : n < userPages) :
    (BitVec.ofNat 32 ((n + 1) * pgSize)).toNat = (n + 1) * pgSize := by
  rw [BitVec.toNat_ofNat, Nat.mod_eq_of_lt]
  rw [userPages, kernBase, pgSize] at *
  omega

/-- **The outcomes of `copyout`.** Every page of the range is the user's and the bytes are there, or
the first page that is not decides. -/
theorem copyout_cases (hl : Ledger kend pd.pages) (hk : pd.KernelOnly) (va : BitVec 32)
    (buf : List Byte) (r : Ram) :
    (∃ r', copyout pd va buf r = .ok (true, r') ∧ Copied pd va.toNat buf r r' ∧
      ∀ m, Overlaps va.toNat buf.length m → pd.IsUser m) ∨
    ∃ m, Overlaps va.toNat buf.length m ∧ ¬pd.IsUser m ∧
      (∀ m', va.toNat / pgSize ≤ m' → m' < m → pd.IsUser m') ∧
      ((pd.table (m / npdEntries)).isSome ∧ (∃ r', copyout pd va buf r = .ok (false, r')) ∨
        pd.table (m / npdEntries) = none ∧ copyout pd va buf r = .error .nullPte) := by
  induction hlen : buf.length using Nat.strong_induction_on generalizing va buf r with
  | h len ih =>
    subst hlen
    rcases Nat.eq_zero_or_pos buf.length with hbuf | hbuf
    · obtain rfl := List.length_eq_zero_iff.mp hbuf
      refine .inl ⟨r, copyout_nil pd va r, .refl pd _ r, fun m hm ↦ ?_⟩
      exact absurd (overlaps_iff.mp hm).1 (Nat.lt_irrefl 0)
    · have hfirst : Overlaps va.toNat buf.length (va.toNat / pgSize) := ⟨_, le_rfl, by omega, rfl⟩
      by_cases huser : pd.IsUser (va.toNat / pgSize)
      · have hm := hk.lt_of_isUser huser
        obtain ⟨e, he, hu⟩ := huser
        have hnext := toNat_nextPage hm
        obtain ⟨n, hn⟩ : ∃ n, n = min (pgSize - va.toNat % pgSize) buf.length := ⟨_, rfl⟩
        have hpos : 0 < n := by
          rw [pgSize] at hn
          omega
        -- the pages behind the first one
        have hover : ∀ m, va.toNat / pgSize < m → (Overlaps va.toNat buf.length m ↔
            Overlaps ((va.toNat / pgSize + 1) * pgSize) (buf.length - n) m) := by
          intro m hlt
          rw [overlaps_iff, overlaps_iff]
          rw [pgSize] at *
          omega
        have hrest := ih (buf.length - n) (by omega)
          (BitVec.ofNat 32 ((va.toNat / pgSize + 1) * pgSize)) (buf.drop n)
          (r.memmove (p2v e.pa) (va.toNat % pgSize) (buf.take n)) (List.length_drop)
        rw [hnext, Nat.mul_div_cancel _ (by decide)] at hrest
        rw [copyout_of_isUser hl hbuf hm he hu, ← hn]
        rcases hrest with ⟨r', hcopy, hcopied, hall⟩ | ⟨m, hm', hnot, hbefore, hcase⟩
        · refine .inl ⟨r', hcopy, hcopied.cons hl hk he hm hn hall, fun m hm' ↦ ?_⟩
          rcases Nat.lt_or_eq_of_le (overlaps_iff.mp hm').2.1 with hlt | rfl
          · exact hall m ((hover m hlt).mp hm')
          · exact ⟨e, he, hu⟩
        · have hlt : va.toNat / pgSize < m := by
            have hle := (overlaps_iff.mp hm').2.1
            rwa [Nat.mul_div_cancel _ (by decide)] at hle
          refine .inr ⟨m, (hover m hlt).mpr hm', hnot, fun m' hle hlt' ↦ ?_, hcase⟩
          rcases Nat.lt_or_eq_of_le hle with hgt | rfl
          · exact hbefore m' hgt hlt'
          · exact ⟨e, he, hu⟩
      · refine .inr ⟨_, hfirst, huser, fun m' hle hlt ↦ absurd hlt (not_lt.mpr hle), ?_⟩
        by_cases htable : (pd.table (va.toNat / pgSize / npdEntries)).isSome
        · refine .inl ⟨htable, r, ?_⟩
          rw [copyout, if_pos hbuf, PageDir.uva2ka_of_not_isUser huser htable]
          rfl
        · rw [Option.not_isSome_iff_eq_none] at htable
          exact .inr ⟨htable, copyout_of_table hbuf htable⟩

theorem copied_of_copyout (hl : Ledger kend pd.pages) (hk : pd.KernelOnly)
    (h : copyout pd va buf r = .ok (true, r')) :
    Copied pd va.toNat buf r r' ∧ ∀ m, Overlaps va.toNat buf.length m → pd.IsUser m := by
  rcases copyout_cases hl hk va buf r with ⟨r₁, hcopy, hcopied⟩
    | ⟨m, -, -, -, ⟨-, r₁, hcopy⟩ | ⟨-, hcopy⟩⟩
  all_goals
    rw [h] at hcopy
    cases hcopy
  exact hcopied

theorem exists_copyout (hl : Ledger kend pd.pages) (hk : pd.KernelOnly) (r : Ram)
    (h : ∀ m, Overlaps va.toNat buf.length m → pd.IsUser m) :
    ∃ r', copyout pd va buf r = .ok (true, r') := by
  rcases copyout_cases hl hk va buf r with ⟨r₁, hcopy, -⟩ | ⟨m, hm, hnot, -⟩
  · exact ⟨r₁, hcopy⟩
  · exact absurd (h m hm) hnot

theorem copyout_within (hk : pd.KernelOnly) (h : copyout pd va buf r = .ok (b, r')) :
    r'.pool = r.pool ∧ ∀ v, v ∉ pd.pages → r'.frame v = r.frame v := by
  fun_induction copyout pd va buf r with
  | case1 va buf r hbuf ih =>
    obtain ⟨pa0, huva, h⟩ := bind_eq_ok_iff.mp h
    split at h
    · cases h
      exact ⟨rfl, fun _ _ ↦ rfl⟩
    · next hne =>
      obtain ⟨e, he, hu, rfl⟩ := PageDir.isUser_of_uva2ka huva hne
      have hmem := PageDir.mem_pages_of_pte (hk.lt_of_isUser ⟨e, he, hu⟩) he
      obtain ⟨hpool, hframe⟩ := ih _ h
      refine ⟨hpool, fun v hv ↦ (hframe v hv).trans (memmove_frame_of_ne ?_ _ _)⟩
      rintro rfl
      exact hv hmem
  | case2 va buf r hbuf =>
    cases h
    exact ⟨rfl, fun _ _ ↦ rfl⟩

/-- A call of `copyout` does what it is for: it returns, with success if all pages of the range are
the user's and it does not wrap around, and then the bytes are there and no others have changed. -/
def CopiesExactly (pd : PageDir) (va : BitVec 32) (buf : List Byte) (r : Ram) : Prop :=
  ∃ b r', copyout pd va buf r = .ok (b, r') ∧
    (b = true ↔ (∀ m, Overlaps va.toNat buf.length m → pd.IsUser m) ∧
      va.toNat + buf.length ≤ 2 ^ 32) ∧
    (b = true → Copied pd va.toNat buf r r')

theorem le_of_overlaps (hk : pd.KernelOnly)
    (h : ∀ m, Overlaps va.toNat buf.length m → pd.IsUser m) :
    va.toNat + buf.length ≤ 2 ^ 32 := by
  rcases Nat.eq_zero_or_pos buf.length with hbuf | hbuf
  · omega
  · have hlast := hk.lt_of_isUser (h _ ⟨va.toNat + buf.length - 1, by omega, by omega, rfl⟩)
    rw [userPages, kernBase, pgSize] at hlast
    omega

end Ram

/-- **`copyout` is exact** where it finds a table for every page it gets to. -/
theorem copyout_exact_iff {img : KernelImage} {pd : PageDir} (hl : Ledger img.kend pd.pages)
    (hk : pd.KernelOnly) (va : BitVec 32) (buf : List Byte) (r : Ram) :
    Ram.CopiesExactly pd va buf r ↔
      ∀ m, Overlaps va.toNat buf.length m →
        (∀ m', va.toNat / pgSize ≤ m' → m' < m → pd.IsUser m') →
        (pd.table (m / npdEntries)).isSome := by
  rcases Ram.copyout_cases hl hk va buf r with ⟨r', hcopy, hcopied, hall⟩ |
      ⟨m, hm, hnot, hbefore, hcase⟩
  · refine ⟨fun _ m hm _ ↦ ?_, fun _ ↦ ⟨true, r', hcopy, ?_, fun _ ↦ hcopied⟩⟩
    · obtain ⟨e, he, -⟩ := hall m hm
      rw [Option.isSome_iff_ne_none]
      intro hnone
      rw [pd.absent m hnone] at he
      cases he
    · exact ⟨fun _ ↦ ⟨hall, Ram.le_of_overlaps hk hall⟩, fun _ ↦ rfl⟩
  · rcases hcase with ⟨htable, r', hcopy⟩ | ⟨hnone, hcopy⟩
    · refine ⟨fun _ m₁ hm₁ hbefore₁ ↦ ?_, fun _ ↦ ⟨false, r', hcopy, ?_,
        fun h ↦ (Bool.false_ne_true h).elim⟩⟩
      · -- a page that is got to is not behind the one where it stops
        rcases lt_trichotomy m₁ m with hlt | rfl | hgt
        · obtain ⟨e, he, -⟩ := hbefore m₁ (overlaps_iff.mp hm₁).2.1 hlt
          rw [Option.isSome_iff_ne_none]
          intro hnone
          rw [pd.absent m₁ hnone] at he
          cases he
        · exact htable
        · exact absurd (hbefore₁ m (overlaps_iff.mp hm).2.1 hgt) hnot
      · exact ⟨fun h ↦ (Bool.false_ne_true h).elim, fun h ↦ absurd (h.1 m hm) hnot⟩
    · constructor
      · rintro ⟨b, r', hcopy', -⟩
        rw [hcopy] at hcopy'
        cases hcopy'
      · intro hreach
        have hsome := hreach m hm hbefore
        rw [hnone] at hsome
        cases hsome

/-! ## The gap -/

namespace PageDir

variable {img : KernelImage} {pd pd' : PageDir} {s s' : Pool} {b : Bool}
  {n k i size oldsz newsz : ℕ}
  {pa : BitVec 32} {perm : Perm}

/-- The tables between the kernel's memory and the devices. -/
def InGap (i : ℕ) : Prop := (kernBase + physTop) / pgSize / npdEntries ≤ i ∧
  i < devSpace / pgSize / npdEntries

theorem table_mapLoop (h : pd.mapLoop n pa perm s k = .ok (b, pd', s'))
    (hi : ∀ m, n ≤ m → m < n + k → m / npdEntries ≠ i) : pd'.table i = pd.table i := by
  refine mapLoop_keeps (P := fun _ pd' _ ↦ pd'.table i = pd.table i) (fun hm hm' hw h ↦ ?_)
    (fun _ _ _ h ↦ h) rfl h
  rcases walkpgdir_cases hw with ⟨rfl, -⟩ | ⟨t, -, -, rfl⟩
  · exact h
  · exact (update_of_ne (hi _ hm hm').symm _ _).trans h

theorem not_inGap_of_mem_kmap {k : Kmap} (hk : k ∈ kmap img) (hm : k.virt / pgSize ≤ m)
    (hm' : m < k.virt / pgSize + (k.last - k.virt / pgSize + 1)) : ¬InGap (m / npdEntries) := by
  have hlt : kernLink < img.data.toNat := img.lt_data
  have haligned := img.data_aligned
  have hend : img.data.toNat < kernBase + physTop :=
    lt_of_le_of_lt (BitVec.le_def.mp img.data_le) img.kend_lt
  have hio : (BitVec.ofNat 32 extMem - 0).toNat = extMem := by decide
  have hdev : (0 - BitVec.ofNat 32 devSpace).toNat = 0x2000000 := by decide
  simp only [kmap, List.mem_cons, List.not_mem_nil, or_false] at hk
  rcases hk with rfl | rfl | rfl | rfl
  all_goals
    simp only [Kmap.last, hio, size_text, size_data, hdev] at *
    generalize img.data.toNat = data at *
    simp only [InGap, kernLink, kernBase, physTop, extMem, devSpace, pgSize, npdEntries] at *
    omega

theorem table_setupkvm (h : setupkvm img s = .ok (some pd, s')) (hi : InGap i) :
    pd.table i = none :=
  setupkvm_keeps (P := fun pd _ ↦ pd.table i = none) (fun _ _ _ ↦ rfl) (fun _ hk _ _ _ _ _ hmap h ↦
    (table_mapLoop hmap fun _ hm hm' heq ↦ not_inGap_of_mem_kmap hk hm hm' (heq ▸ hi)).trans h) h

theorem InGap.ne (hi : InGap i) (hn : n < userPages) : n / npdEntries ≠ i := by
  obtain ⟨hi, -⟩ := hi
  rw [userPages, kernBase, physTop, pgSize, npdEntries] at *
  omega

theorem table_allocuvm (h : pd.allocuvm img oldsz newsz s = .ok (size, pd', s')) (hi : InGap i) :
    pd'.table i = pd.table i := by
  refine allocuvm_keeps (P := fun pd' ↦ pd'.table i = pd.table i) (fun hm hmap h ↦ ?_)
    (fun hsz hd h ↦ by rw [(deallocuvm_spec hsz hd).2.2.1, h]) rfl h
  rw [mappages_one (lt_vpages hm)] at hmap
  exact (table_mapLoop hmap fun m' _ hm' ↦ hi.ne (by omega)).trans h

theorem table_clearpteu (h : pd.clearpteu n = .ok pd') : pd'.table = pd.table := by
  rw [clearpteu] at h
  split at h
  · cases h
  · cases h
    rfl

end PageDir

namespace Kernel

variable {img : KernelImage} {s s' : Pool} {pd : PageDir} {sz i : ℕ}

theorem table_execSpace (h : execSpace img emptyFile s = .ok (some (sz, pd), s'))
    (hi : PageDir.InGap i) : pd.table i = none := by
  obtain ⟨⟨o, s₁⟩, hsetup, h⟩ := bind_eq_ok_iff.mp h
  cases o with
  | none => cases h
  | some pd₀ =>
    obtain ⟨⟨o, pd₁, s₂⟩, hload, h⟩ := bind_eq_ok_iff.mp h
    cases hload
    obtain ⟨⟨o, pd₂, s₃⟩, hstack, h⟩ := bind_eq_ok_iff.mp h
    obtain ⟨⟨size, pd₃, s₄⟩, halloc, hstack⟩ := bind_eq_ok_iff.mp hstack
    have h₃ : pd₃.table i = none :=
      (PageDir.table_allocuvm halloc hi).trans (PageDir.table_setupkvm hsetup hi)
    dsimp only at hstack
    split at hstack
    · cases hstack
      obtain ⟨s₅, -, h⟩ := bind_eq_ok_iff.mp h
      cases h
    · obtain ⟨pd₄, hclear, hstack⟩ := bind_eq_ok_iff.mp hstack
      cases hstack
      cases h
      rw [PageDir.table_clearpteu hclear, h₃]

end Kernel

/-- A buffer is copied to the stack of a program. -/
theorem copyout_exact_stack : ∃ (img : KernelImage) (pd : PageDir) (r : Ram),
    Ledger img.kend pd.pages ∧ Ram.CopiesExactly pd 4096 [1, 2, 3] r := by
  obtain ⟨pd, s, hspace, hexec⟩ := Kernel.exists_space
  have hl : Ledger Kernel.someImage.kend pd.pages := hspace.ledger.mono (Multiset.le_add_left _ _)
  have hk : pd.KernelOnly := (((Kernel.execSpace_outcome _ _ _).of_ok hexec).2 _ rfl).1
  refine ⟨Kernel.someImage, pd, ⟨s, fun _ _ ↦ 0⟩, hl, ?_⟩
  refine (copyout_exact_iff hl hk 4096 [1, 2, 3] _).mpr fun m hm _ ↦ ?_
  refine hspace.laid.table hspace.size ?_
  obtain ⟨a, -, hlt, rfl⟩ := hm
  have hlt : a < 4096 + 3 := hlt
  rw [pgSize]
  omega

def longArg : List Byte := List.replicate 37756927 97

/-- A program of two pages is given an argument so long that it would start in the gap. -/
theorem copyout_nullPte : ∃ (img : KernelImage) (pd : PageDir) (r : Ram) (va : BitVec 32),
    Ledger img.kend pd.pages ∧ pd.KernelOnly ∧ 0 ∉ longArg ∧
    va = (BitVec.ofNat 32 (2 * pgSize) - BitVec.ofNat 32 (longArg.length + 1)) &&& ~~~3 ∧
    r.copyout pd va (longArg ++ [0]) = .error .nullPte ∧
    ¬Ram.CopiesExactly pd va (longArg ++ [0]) r := by
  obtain ⟨pd, s, hspace, hexec⟩ := Kernel.exists_space
  have hl : Ledger Kernel.someImage.kend pd.pages := hspace.ledger.mono (Multiset.le_add_left _ _)
  have hk : pd.KernelOnly := (((Kernel.execSpace_outcome _ _ _).of_ok hexec).2 _ rfl).1
  have hva : BitVec.ofNat 32 (1015 * 1024 * 4096)
      = (BitVec.ofNat 32 (2 * pgSize) - BitVec.ofNat 32 (longArg.length + 1)) &&& ~~~3 := by
    rw [longArg, List.length_replicate]
    decide
  have hcopy : Ram.copyout pd (BitVec.ofNat 32 (1015 * 1024 * 4096)) (longArg ++ [0])
      ⟨s, fun _ _ ↦ 0⟩ = .error .nullPte := by
    refine Ram.copyout_of_table ?_ (Kernel.table_execSpace hexec ?_)
    · rw [List.length_append, List.length_singleton]
      omega
    · rw [PageDir.InGap, npdEntries]
      decide
  refine ⟨Kernel.someImage, pd, ⟨s, fun _ _ ↦ 0⟩, _, hl, hk, fun hmem ↦ ?_, hva, hcopy, ?_⟩
  · exact absurd (List.eq_of_mem_replicate hmem) (by decide)
  · rintro ⟨b, r', hcopy', -⟩
    rw [hcopy] at hcopy'
    cases hcopy'

end OperatingSystems
