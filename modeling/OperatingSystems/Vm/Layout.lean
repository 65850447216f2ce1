import OperatingSystems.Vm.Fault

/-!
# The layout of an address space

A process of size `sz` has the pages below `sz`, rounded up to whole pages, and no other pages below
`KERNBASE`. `PageDir.Laid` says so. `allocuvm` and `deallocuvm` bring a directory from one such
layout to another, also where they run out of memory, and in a directory that is laid out nothing
that they, `copyuvm`, `loaduvm` or `clearpteu` are afraid of comes up: no page is mapped twice, and
none is missing.

`Space` is a directory that is laid out, beside the free pages it adds up with. The functions on it
are total.
-/

namespace OperatingSystems

open Function

def pgRoundUp (sz : ℕ) : ℕ := (sz + pgSize - 1) / pgSize * pgSize

theorem mul_pgSize_lt_pgRoundUp {n sz : ℕ} : n * pgSize < pgRoundUp sz ↔ n * pgSize < sz := by
  rw [pgRoundUp, pgSize]
  omega

theorem le_pgRoundUp (sz : ℕ) : sz ≤ pgRoundUp sz := by
  rw [pgRoundUp, pgSize]
  omega

theorem pgRoundUp_le_kernBase {sz : ℕ} (h : sz ≤ kernBase) : pgRoundUp sz ≤ kernBase := by
  rw [pgRoundUp, pgSize]
  rw [kernBase] at *
  omega

namespace PageDir

variable {img : KernelImage} {pd pd' d src : PageDir} {s s' : Pool}
  {n oldsz newsz size sz : ℕ}

/-- The pages below `sz` are present, and no others below `KERNBASE`. -/
def Laid (pd : PageDir) (sz : ℕ) : Prop := ∀ n < userPages, (pd.pte n).isSome ↔ n * pgSize < sz

theorem Laid.round (h : pd.Laid sz) : pd.Laid (pgRoundUp sz) := fun n hn ↦
  (h n hn).trans mul_pgSize_lt_pgRoundUp.symm

theorem laid_zero (h : ∀ m, m < userPages → pd.pte m = none) : pd.Laid 0 := fun n hn ↦ by
  rw [h n hn]
  exact ⟨fun h ↦ (Bool.false_ne_true h).elim, fun h ↦ absurd h (Nat.not_lt_zero _)⟩

theorem Laid.table (h : pd.Laid sz) (hsz : sz ≤ kernBase) (hn : n * pgSize < sz) :
    (pd.table (n / npdEntries)).isSome := by
  have hsome := (h n (lt_userPages hn hsz)).mpr hn
  rw [Option.isSome_iff_ne_none] at hsome ⊢
  exact fun hnone ↦ hsome (pd.absent n hnone)

/-! ## What the loops leave -/

theorem laid_copyuvm (hl : Ledger img.kend s.free) (hsz : sz ≤ kernBase)
    (h : pd.copyuvm img sz s = .ok (some d, s')) : d.Laid sz := by
  obtain ⟨r, s₁, hsetup, hempty⟩ := exists_setupkvm_of_ledger hl
  obtain ⟨r', hsetup', h⟩ := bind_eq_ok_iff.mp h
  rw [hsetup] at hsetup'
  cases hsetup'
  cases r with
  | none => cases h
  | some d₀ =>
    intro m hm
    rcases ((copyLoop_outcome hsz).of_ok h).2 d rfl m with ⟨heq, hnot⟩ | ⟨hin, e', he', -⟩
    · rw [heq, hempty d₀ rfl m hm]
      exact ⟨fun h ↦ (Bool.false_ne_true h).elim, fun hlt ↦ absurd ⟨Nat.zero_le m, hlt⟩ hnot⟩
    · rw [he']
      exact ⟨fun _ ↦ hin.2, fun _ ↦ rfl⟩

theorem Laid.deallocuvm (h : pd.Laid oldsz) (hsz : oldsz ≤ kernBase)
    (hd : pd.deallocuvm img.kend oldsz newsz s = .ok (size, pd', s')) : pd'.Laid size := by
  have hpte := (deallocuvm_spec hsz hd).2.2.2
  have hsize : size = oldsz ∧ oldsz ≤ newsz ∨ size = newsz ∧ newsz < oldsz := by
    rw [PageDir.deallocuvm] at hd
    split at hd
    · next hge =>
      cases hd
      exact .inl ⟨rfl, hge⟩
    · next hlt =>
      obtain ⟨⟨pd₁, s₁⟩, -, hd⟩ := bind_eq_ok_iff.mp hd
      cases hd
      exact .inr ⟨rfl, not_le.mp hlt⟩
  intro m hm
  rw [hpte m]
  split
  · next hin =>
    refine ⟨fun h ↦ (Bool.false_ne_true h).elim, fun hlt ↦ ?_⟩
    rw [pgSize] at hin hlt
    omega
  · next hout =>
    rw [h m hm]
    rw [pgSize] at hout ⊢
    omega

end PageDir

/-! ## Spaces -/

/-- A directory that is laid out for a size, beside the free pages. -/
structure Space (img : KernelImage) (sz : ℕ) (pd : PageDir) (s : Pool) : Prop where
  ledger : Ledger img.kend (pd.account s)
  laid : pd.Laid sz
  size : sz ≤ kernBase

namespace Space

variable {img : KernelImage} {pd pd' : PageDir} {s s' : Pool} {n oldsz newsz size sz : ℕ}

/-- **`allocuvm` on a space**: it grows, or it is as it was. -/
theorem allocuvm (h : Space img sz pd s) (newsz : ℕ) : ∃ size pd' s',
    pd.allocuvm img sz newsz s = .ok (size, pd', s') ∧
      (size = 0 ∧ Space img sz pd' s' ∨ newsz ≤ size ∧ Space img size pd' s') := by
  obtain ⟨⟨size, pd', s'⟩, hr⟩ : ∃ r, pd.allocuvm img sz newsz s = .ok r := by
    cases hr : pd.allocuvm img sz newsz s with
    | ok r => exact ⟨r, rfl⟩
    | error e =>
      obtain ⟨-, m, hm, hle, hsome⟩ := PageDir.allocuvm_error h.ledger hr
      exact absurd ((h.laid m hm).mp hsome) (not_lt.mpr hle)
  have hledger : Ledger img.kend (pd'.account s') := (PageDir.allocuvm_spec hr).symm ▸ h.ledger
  have hbound := PageDir.allocuvm_size h.size hr
  refine ⟨size, pd', s', hr, ?_⟩
  rw [PageDir.allocuvm] at hr
  split at hr
  · cases hr
    exact .inl ⟨rfl, hledger, h.laid, h.size⟩
  · next hnew =>
    have hnew := (not_le.mp hnew).le
    split at hr
    · next hlt =>
      cases hr
      exact .inr ⟨hlt.le, hledger, h.laid, h.size⟩
    · next hge =>
      rcases ((PageDir.allocLoop_outcome hnew le_rfl).of_ok hr).2 with ⟨rfl, hall⟩ | ⟨rfl, hall⟩
      · refine .inr ⟨le_rfl, hledger, fun m hm ↦ ?_, hbound⟩
        rcases hall m with ⟨heq, hnot⟩ | ⟨hin, e, he, -⟩
        · rw [heq, h.laid m hm]
          rw [PageDir.InRange, pgSize] at hnot
          rw [pgSize]
          omega
        · exact ⟨fun _ ↦ hin.2, fun _ ↦ Option.isSome_of_eq_some he⟩
      · refine .inl ⟨rfl, hledger, fun m hm ↦ ?_, h.size⟩
        rw [hall m]
        split
        · next hin =>
          refine ⟨fun h ↦ (Bool.false_ne_true h).elim, fun hlt ↦ ?_⟩
          rw [pgSize] at hin hlt
          omega
        · exact h.laid m hm

theorem deallocuvm (h : Space img sz pd s) (newsz : ℕ) : ∃ size pd' s',
    pd.deallocuvm img.kend sz newsz s = .ok (size, pd', s') ∧ Space img size pd' s' := by
  obtain ⟨⟨size, pd', s'⟩, hr⟩ := PageDir.exists_deallocuvm newsz h.size h.ledger
  refine ⟨size, pd', s', hr, ?_, h.laid.deallocuvm h.size hr, PageDir.deallocuvm_size h.size hr⟩
  rw [(PageDir.deallocuvm_spec h.size hr).1]
  exact h.ledger

theorem clearpteu (h : Space img sz pd s) (hn : n * pgSize < sz) :
    ∃ pd', pd.clearpteu n = .ok pd' ∧ Space img sz pd' s := by
  have htable := h.laid.table h.size hn
  have hcleared : ∃ pd', pd.clearpteu n = .ok pd' := by
    rw [PageDir.clearpteu, if_neg]
    · exact ⟨_, rfl⟩
    · rw [Option.isNone_iff_eq_none]
      exact Option.isSome_iff_ne_none.mp htable
  obtain ⟨pd', hpd'⟩ := hcleared
  refine ⟨pd', hpd', ?_, fun m hm ↦ ?_, h.size⟩
  · rw [PageDir.account, PageDir.clearpteu_spec (PageDir.lt_userPages hn h.size) hpd']
    exact h.ledger
  · rw [← h.laid m hm]
    rw [PageDir.clearpteu] at hpd'
    split at hpd'
    · cases hpd'
    · cases hpd'
      rw [PageDir.pte_setPte htable]
      by_cases hmn : m = n
      · rw [hmn, update_self, Option.isSome_map]
      · rw [update_of_ne hmn]

theorem round (h : Space img sz pd s) : Space img (pgRoundUp sz) pd s :=
  ⟨h.ledger, h.laid.round, pgRoundUp_le_kernBase h.size⟩

theorem loadLoop (h : Space img sz pd s) {addr : BitVec 32} (reads : ℕ → Bool) {m j : ℕ}
    (hend : m = 0 ∨ addr.toNat + (j + m - 1) * pgSize < sz) :
    ∃ b, pd.loadLoop addr reads m j = .ok b := by
  induction m generalizing j with
  | zero => exact ⟨true, rfl⟩
  | succ m ih =>
    have hsz := h.size
    have hend := hend.resolve_left (Nat.succ_ne_zero m)
    rw [PageDir.loadLoop]
    have hn : (addr + BitVec.ofNat 32 (j * pgSize)).toNat / pgSize * pgSize < sz := by
      rw [BitVec.toNat_add, BitVec.toNat_ofNat]
      rw [pgSize, kernBase] at *
      omega
    rw [if_neg]
    · split
      · exact ⟨false, rfl⟩
      · refine ih (j := j + 1) ?_
        rcases Nat.eq_zero_or_pos m with hm | hm
        · exact .inl hm
        · refine .inr ?_
          rwa [show j + 1 + m - 1 = j + (m + 1) - 1 by omega]
    · rw [Option.isNone_iff_eq_none]
      exact Option.isSome_iff_ne_none.mp (h.laid.table h.size hn)

theorem loaduvm (h : Space img sz pd s) {addr filesz : BitVec 32} (reads : ℕ → Bool)
    (haligned : ¬addr.toNat % pgSize ≠ 0) (hend : addr.toNat + filesz.toNat ≤ sz) :
    ∃ b, pd.loaduvm addr filesz reads = .ok b := by
  rw [PageDir.loaduvm, if_neg haligned]
  refine h.loadLoop reads ?_
  rw [pgSize] at *
  omega

end Space

end OperatingSystems
