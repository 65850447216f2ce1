import OperatingSystems.Vm.ExecSpace

/-!
# The argument stack

`exec` pushes the argument strings one below the other, rounded down to whole words, and below them
the vector of pointers, its address, their number and a return address. It does not compute
beforehand whether all this fits into the one page of the stack. But what does not fit reaches into
the page below, which is not the user's, or if it is longer than the address space, into the
kernel's half; and then `copyout` fails.
-/

namespace OperatingSystems

open Function

/-! ## Words in memory -/

theorem length_wordBytes (w : Word) : (wordBytes w).length = 4 := rfl

theorem length_flatMap_wordBytes (ws : List Word) :
    (ws.flatMap wordBytes).length = 4 * ws.length := by
  induction ws with
  | nil => rfl
  | cons w ws ih =>
    rw [List.flatMap_cons, List.length_append, ih, length_wordBytes, List.length_cons]
    omega

variable {i a top j : ℕ} {w : Word} {pd : PageDir}

theorem getElem?_flatMap_wordBytes {ws : List Word} {t : ℕ} (ht : t < 4) (hw : ws[i]? = some w) :
    (ws.flatMap wordBytes)[4 * i + t]? = (wordBytes w)[t]? := by
  induction ws generalizing i with
  | nil => cases hw
  | cons v ws ih =>
    rw [List.flatMap_cons]
    cases i with
    | zero =>
      cases hw
      rw [Nat.mul_zero, Nat.zero_add, List.getElem?_append_left (by rw [length_wordBytes]; omega)]
    | succ i =>
      rw [List.getElem?_append_right (by rw [length_wordBytes]; omega), length_wordBytes,
        show 4 * (i + 1) + t - 4 = 4 * i + t by omega]
      exact ih hw

theorem append_extractLsb' (w : Word) :
    w.extractLsb' 24 8 ++ w.extractLsb' 16 8 ++ w.extractLsb' 8 8 ++ w.extractLsb' 0 8 = w := by
  rw [BitVec.extractLsb'_append_extractLsb'_eq_extractLsb' (by rfl),
    BitVec.extractLsb'_append_extractLsb'_eq_extractLsb' (by rfl),
    BitVec.extractLsb'_append_extractLsb'_eq_extractLsb' (by rfl)]
  exact BitVec.extractLsb'_eq_self

theorem toNat_and_not_three (w : Word) : (w &&& ~~~3).toNat = w.toNat / 4 * 4 := by
  have hthree : ∀ k < 32, (3 : Word).getLsbD k = decide (k < 2) := by decide
  have hshift : w &&& ~~~(3 : Word) = (w >>> 2) <<< 2 := by
    apply BitVec.eq_of_getLsbD_eq
    intro k hk
    rw [BitVec.getLsbD_and, BitVec.getLsbD_not, BitVec.getLsbD_shiftLeft,
      BitVec.getLsbD_ushiftRight, hthree k hk]
    by_cases h2 : k < 2
    · simp [h2]
    · simp [h2, hk, show 2 + (k - 2) = k by omega]
  have hlt := w.isLt
  rw [hshift, BitVec.toNat_shiftLeft, BitVec.toNat_ushiftRight, Nat.shiftLeft_eq,
    Nat.shiftRight_eq_div_pow]
  omega

/-- The word at user address `a`. -/
def Ram.userWord (r : Ram) (pd : PageDir) (a : ℕ) : Option Word := do
  let b₀ ← r.user pd a
  let b₁ ← r.user pd (a + 1)
  let b₂ ← r.user pd (a + 2)
  let b₃ ← r.user pd (a + 3)
  return b₃ ++ b₂ ++ b₁ ++ b₀

variable {r : Ram}

theorem Ram.userWord_of_bytes (h : ∀ t, t < 4 → r.user pd (a + t) = (wordBytes w)[t]?) :
    r.userWord pd a = some w := by
  have h₀ : r.user pd a = some (w.extractLsb' 0 8) := h 0 (by decide)
  have h₁ : r.user pd (a + 1) = some (w.extractLsb' 8 8) := h 1 (by decide)
  have h₂ : r.user pd (a + 2) = some (w.extractLsb' 16 8) := h 2 (by decide)
  have h₃ : r.user pd (a + 3) = some (w.extractLsb' 24 8) := h 3 (by decide)
  rw [userWord, h₀, h₁, h₂, h₃]
  exact congrArg some (append_extractLsb' w)

/-! ## The stack page -/

/-- The page below `top` is the stack, and the one below it is not the user's. -/
structure StackPage (pd : PageDir) (top : ℕ) : Prop where
  aligned : top % pgSize = 0
  two_le : 2 * pgSize ≤ top
  le_kernBase : top ≤ kernBase
  guard : ¬pd.IsUser (top / pgSize - 2)
  kernelOnly : pd.KernelOnly

/-- **What is pushed successfully stays on the stack page.** -/
theorem StackPage.room {sp len : ℕ} {va : Word} (h : StackPage pd top) (hlo : top - pgSize ≤ sp)
    (hhi : sp ≤ top) (hlen : 0 < len) (hmax : len ≤ kernBase)
    (hva : va.toNat = (2 ^ 32 + sp - len) % 2 ^ 32 / 4 * 4)
    (huser : ∀ m, Overlaps va.toNat len m → pd.IsUser m) :
    top - pgSize ≤ va.toNat ∧ va.toNat + len ≤ sp := by
  obtain ⟨haligned, htwo, htop, hguard, hk⟩ := h
  have hfirst := hk.lt_of_isUser (huser _ ⟨va.toNat, le_rfl, by omega, rfl⟩)
  rw [userPages, kernBase, pgSize] at hfirst
  rw [kernBase] at htop hmax
  -- it does not wrap around, as the kernel's half is not the user's
  have hle : len ≤ sp := by omega
  have hsum : va.toNat + len ≤ sp := by omega
  refine ⟨?_, hsum⟩
  by_contra hlt
  refine hguard (huser _ (overlaps_iff.mpr ⟨hlen, ?_, ?_⟩))
  · rw [pgSize] at *
    omega
  · rw [pgSize] at *
    omega

/-- The argument strings `done` are on the stack between `sp` and `top`, one below the other, with
pointers `ptrs` to them. -/
structure Pushed (pd : PageDir) (r : Ram) (sp top : ℕ) (done : List UserString) (ptrs : List Word) :
    Prop where
  length : ptrs.length = done.length
  text : ∀ (i : ℕ) (s : UserString) (p : Word), done[i]? = some s → ptrs[i]? = some p →
    ∀ k, k < s.text.length → r.user pd (p.toNat + k) = s.text[k]?
  above : ∀ (i : ℕ) (p : Word), ptrs[i]? = some p → sp ≤ p.toNat
  below : ∀ (i : ℕ) (s : UserString) (p : Word), done[i]? = some s → ptrs[i]? = some p →
    p.toNat + s.text.length ≤ top
  apart : ∀ (i j : ℕ) (s : UserString) (p p' : Word), i < j → done[j]? = some s →
    ptrs[j]? = some p → ptrs[i]? = some p' → p.toNat + s.text.length ≤ p'.toNat

theorem getElem?_concat_eq_some {α : Type*} {l : List α} {x y : α} (h : (l ++ [x])[i]? = some y) :
    l[i]? = some y ∨ i = l.length ∧ y = x := by
  rcases lt_trichotomy i l.length with hlt | rfl | hgt
  · rw [List.getElem?_append_left hlt] at h
    exact .inl h
  · rw [List.getElem?_concat_length] at h
    exact .inr ⟨rfl, (Option.some.inj h).symm⟩
  · rw [List.getElem?_eq_none (by rw [List.length_append, List.length_singleton]; omega)] at h
    cases h

section Push

variable {img : KernelImage} {r₀ r r' : Ram} {top : ℕ} {pd : PageDir} {done argv : List UserString}
  {ptrs ptrs' : List Word} {sp sp' va : Word} {s : UserString}

theorem UserString.length_text (s : UserString) : s.text.length = s.bytes.length + 1 :=
  List.length_append

theorem Pushed.copied {buf : List Byte} (h : Pushed pd r sp.toNat top done ptrs)
    (hb : Builds img r₀ top pd r) (hcopied : Ram.Copied pd va.toNat buf r r')
    (huser : ∀ m, Overlaps va.toNat buf.length m → pd.IsUser m)
    (hle : va.toNat + buf.length ≤ sp.toNat) : Pushed pd r' sp.toNat top done ptrs := by
  refine ⟨h.length, fun i s p hs hp k hk ↦ ?_, h.above, h.below, h.apart⟩
  have habove := h.above i p hp
  have hbelow := h.below i s p hs hp
  have hsz := hb.space.size
  have hpage : (p.toNat + k) / pgSize < userPages :=
    PageDir.lt_userPages (lt_of_le_of_lt (Nat.div_mul_le_self _ _) (by omega)) hsz
  rw [hcopied.user_of_not_mem hb.ledger hb.kernelOnly huser hpage (by omega)]
  exact h.text i s p hs hp k hk

theorem Pushed.push (h : Pushed pd r' sp.toNat top done ptrs) (hle : sp.toNat ≤ top)
    (hva : va.toNat + s.text.length ≤ sp.toNat)
    (htext : ∀ k, k < s.text.length → r'.user pd (va.toNat + k) = s.text[k]?) :
    Pushed pd r' va.toNat top (done ++ [s]) (ptrs ++ [va]) := by
  have hlen := h.length
  have hlt : ∀ {i p}, ptrs[i]? = some p → i < ptrs.length := fun hp ↦
    (List.getElem?_eq_some_iff.mp hp).1
  have hlt' : ∀ {i t}, done[i]? = some t → i < done.length := fun ht ↦
    (List.getElem?_eq_some_iff.mp ht).1
  refine ⟨?_, fun i t p ht hp ↦ ?_, fun i p hp ↦ ?_, fun i t p ht hp ↦ ?_,
    fun i j t p p' hij ht hp hp' ↦ ?_⟩
  · rw [List.length_append, List.length_append, hlen]
    rfl
  · rcases getElem?_concat_eq_some ht with ht | ⟨hi, rfl⟩ <;>
      rcases getElem?_concat_eq_some hp with hp | ⟨hi', rfl⟩
    · exact h.text i t p ht hp
    · have := hlt' ht
      omega
    · have := hlt hp
      omega
    · exact htext
  · rcases getElem?_concat_eq_some hp with hp | ⟨-, rfl⟩
    · have := h.above i p hp
      omega
    · exact le_rfl
  · rcases getElem?_concat_eq_some ht with ht | ⟨hi, rfl⟩ <;>
      rcases getElem?_concat_eq_some hp with hp | ⟨hi', rfl⟩
    · exact h.below i t p ht hp
    · have := hlt' ht
      omega
    · have := hlt hp
      omega
    · omega
  · rcases getElem?_concat_eq_some hp' with hold | ⟨hi, rfl⟩
    · rcases getElem?_concat_eq_some ht with ht | ⟨hj, rfl⟩ <;>
        rcases getElem?_concat_eq_some hp with hp | ⟨hj', rfl⟩
      · exact h.apart i j t p p' hij ht hp hold
      · have := hlt' ht
        omega
      · have := hlt hp
        omega
      · exact hva.trans (h.above i p' hold)
    · -- the new string is the last one
      have hj := (List.getElem?_eq_some_iff.mp ht).1
      rw [List.length_append, List.length_singleton] at hj
      omega

theorem pushArgs_pushed (hb : Builds img r₀ top pd r) (hstack : StackPage pd top)
    (h : Pushed pd r sp.toNat top done ptrs) (hlo : top - pgSize ≤ sp.toNat) (hhi : sp.toNat ≤ top)
    (halign : sp.toNat % 4 = 0) (hmax : ptrs.length ≤ maxArg)
    (hpush : r.pushArgs pd argv sp ptrs = .ok (some (sp', ptrs'), r')) :
    Pushed pd r' sp'.toNat top (done ++ argv) ptrs' ∧ Builds img r₀ top pd r' ∧
      top - pgSize ≤ sp'.toNat ∧ sp'.toNat ≤ top ∧ sp'.toNat % 4 = 0 ∧ ptrs'.length ≤ maxArg ∧
      ∀ a, a < top - pgSize → r'.user pd a = r.user pd a := by
  induction argv generalizing sp ptrs r done with
  | nil =>
    cases hpush
    rw [List.append_nil]
    exact ⟨h, hb, hlo, hhi, halign, hmax, fun _ _ ↦ rfl⟩
  | cons s argv ih =>
    rw [Ram.pushArgs] at hpush
    split at hpush
    · cases hpush
    · next hargs =>
      obtain ⟨⟨copied, r₁⟩, hcopy, hpush⟩ := bind_eq_ok_iff.mp hpush
      cases copied with
      | false => cases hpush
      | true =>
        obtain ⟨va, hva⟩ :
            ∃ va, va = (sp - BitVec.ofNat 32 (s.bytes.length + 1)) &&& ~~~3 := ⟨_, rfl⟩
        rw [← hva] at hcopy hpush
        obtain ⟨hcopied, huser⟩ := Ram.copied_of_copyout hb.ledger hb.kernelOnly hcopy
        have hshort := s.short
        have hvan : va.toNat = (2 ^ 32 + sp.toNat - s.text.length) % 2 ^ 32 / 4 * 4 := by
          rw [hva, toNat_and_not_three, BitVec.toNat_sub, BitVec.toNat_ofNat, s.length_text]
          rw [kernBase] at hshort
          omega
        obtain ⟨hroom, hsum⟩ := hstack.room hlo hhi (by rw [s.length_text]; omega)
          (by rw [s.length_text]; omega) hvan huser
        have hpushed := (h.copied hb hcopied huser hsum).push hhi hsum hcopied.user
        have hlen : (ptrs ++ [va]).length ≤ maxArg := by
          rw [List.length_append, List.length_singleton]
          omega
        obtain ⟨hp, hb', hlo', hhi', halign', hmax', hbelow⟩ := ih (hb.copyout hcopy) hpushed hroom
          (by omega) (by omega) hlen hpush
        rw [List.append_assoc, List.singleton_append] at hp
        refine ⟨hp, hb', hlo', hhi', halign', hmax', fun a ha ↦ (hbelow a ha).trans ?_⟩
        have hsz := hb.space.size
        have hpage : a / pgSize < userPages :=
          PageDir.lt_userPages (lt_of_le_of_lt (Nat.div_mul_le_self _ _) (by omega)) hsz
        exact hcopied.user_of_not_mem hb.ledger hb.kernelOnly huser hpage (by omega)

/-- The stack page of a program that is about to start: at `esp` a return address, the number of the
arguments, and the address of the vector of pointers, which is behind it and ends with a null; above
them the argument strings. -/
structure StackBuilt (pd : PageDir) (r : Ram) (esp : Word) (top : ℕ) (argv : List UserString)
    (ptrs : List Word) : Prop where
  align : esp.toNat % 4 = 0
  low : top - pgSize ≤ esp.toNat
  high : esp.toNat + 16 + 4 * argv.length ≤ top
  user : pd.IsUser (top / pgSize - 1)
  argc : r.userWord pd (esp.toNat + 4) = some (BitVec.ofNat 32 argv.length)
  vector : r.userWord pd (esp.toNat + 8) = some (BitVec.ofNat 32 (esp.toNat + 12))
  ptr : ∀ (i : ℕ) (p : Word), ptrs[i]? = some p → r.userWord pd (esp.toNat + 12 + 4 * i) = some p
  null : r.userWord pd (esp.toNat + 12 + 4 * argv.length) = some 0
  pushed : Pushed pd r (esp.toNat + 16 + 4 * argv.length) top argv ptrs

theorem length_ustack (sp : Word) (ptrs : List Word) :
    (Ram.ustack sp ptrs).length = 3 + ptrs.length + 1 := by
  rw [Ram.ustack, List.length_append, List.length_append]
  rfl

theorem getElem?_ustack (sp : Word) (ptrs : List Word) (i : ℕ) :
    (Ram.ustack sp ptrs)[3 + i]? = (ptrs ++ [0])[i]? := by
  rw [Ram.ustack, List.append_assoc, List.getElem?_append_right (Nat.le_add_right 3 i)]
  congr 1
  exact Nat.add_sub_cancel_left 3 i

theorem Pushed.nil (pd : PageDir) (r : Ram) (sp top : ℕ) : Pushed pd r sp top [] [] where
  length := rfl
  text _ _ _ h := by cases h
  above _ _ h := by cases h
  below _ _ _ h := by cases h
  apart _ _ _ _ _ _ h := by cases h

theorem execArgs_built (hb : Builds img r₀ top pd r) (hstack : StackPage pd top)
    (hargs : r.execArgs pd argv top = .ok (some sp, r')) :
    (∃ ptrs, StackBuilt pd r' sp top argv ptrs) ∧
      ∀ a, a < top - pgSize → r'.user pd a = r.user pd a := by
  have htop := hstack.le_kernBase
  have htwo := hstack.two_le
  have haligned := hstack.aligned
  have htoNat : (BitVec.ofNat 32 top).toNat = top := by
    rw [BitVec.toNat_ofNat, Nat.mod_eq_of_lt]
    rw [kernBase] at htop
    omega
  obtain ⟨⟨o, r₁⟩, hpush, hargs⟩ := bind_eq_ok_iff.mp hargs
  cases o with
  | none => cases hargs
  | some x =>
    obtain ⟨sp₁, ptrs⟩ := x
    obtain ⟨⟨copied, r₂⟩, hcopy, hargs⟩ := bind_eq_ok_iff.mp hargs
    cases copied with
    | false => cases hargs
    | true =>
      cases hargs
      obtain ⟨hp, hb₁, hlo, hhi, halign, hmax, hbelow⟩ := pushArgs_pushed hb hstack (.nil _ _ _ _)
        (by omega) (by omega) (by rw [htoNat]; rw [pgSize] at haligned; omega) (Nat.zero_le _) hpush
      rw [List.nil_append] at hp
      have hlen := hp.length
      obtain ⟨hcopied, huser⟩ := Ram.copied_of_copyout hb₁.ledger hb₁.kernelOnly hcopy
      have hbuf : ((Ram.ustack sp₁ ptrs).flatMap wordBytes).length = 4 * (3 + ptrs.length + 1) := by
        rw [length_flatMap_wordBytes, length_ustack]
      obtain ⟨esp, hesp⟩ :
          ∃ esp, esp = sp₁ - BitVec.ofNat 32 ((3 + ptrs.length + 1) * 4) := ⟨_, rfl⟩
      rw [← hesp] at hcopied huser ⊢
      rw [hbuf] at huser
      have hespn : esp.toNat
          = (2 ^ 32 + sp₁.toNat - 4 * (3 + ptrs.length + 1)) % 2 ^ 32 / 4 * 4 := by
        rw [hesp, BitVec.toNat_sub, BitVec.toNat_ofNat]
        rw [maxArg] at hmax
        omega
      obtain ⟨hroom, hsum⟩ := hstack.room hlo hhi (by omega)
        (by rw [maxArg] at hmax; rw [kernBase]; omega) hespn huser
      -- nothing is lost by rounding
      have hsp₁ : sp₁.toNat = esp.toNat + 16 + 4 * argv.length := by
        have := sp₁.isLt
        omega
      have hword : ∀ {i w}, (Ram.ustack sp₁ ptrs)[i]? = some w →
          r'.userWord pd (esp.toNat + 4 * i) = some w := by
        intro i w hw
        refine Ram.userWord_of_bytes fun t ht ↦ ?_
        have hi := (List.getElem?_eq_some_iff.mp hw).1
        rw [length_ustack] at hi
        rw [Nat.add_assoc, hcopied.user (4 * i + t) (by rw [hbuf]; omega),
          getElem?_flatMap_wordBytes ht hw]
      have hvector : sp₁ - BitVec.ofNat 32 ((ptrs.length + 1) * 4)
          = BitVec.ofNat 32 (esp.toNat + 12) := by
        apply BitVec.eq_of_toNat_eq
        rw [BitVec.toNat_sub, BitVec.toNat_ofNat, BitVec.toNat_ofNat]
        rw [maxArg] at hmax
        omega
      rw [← hbuf] at huser
      refine ⟨⟨ptrs, ?_, hroom, by omega, ?_, ?_, ?_, fun i p hi ↦ ?_, ?_, ?_⟩, fun a ha ↦ ?_⟩
      · omega
      · refine huser _ ⟨esp.toNat, le_rfl, by omega, ?_⟩
        rw [pgSize] at *
        omega
      · rw [← hlen]
        exact hword (i := 1) rfl
      · rw [← hvector]
        exact hword (i := 2) rfl
      · have hptr : (Ram.ustack sp₁ ptrs)[3 + i]? = some p := by
          rw [getElem?_ustack, List.getElem?_append_left (List.getElem?_eq_some_iff.mp hi).1, hi]
        have := hword hptr
        rwa [Nat.mul_add, ← Nat.add_assoc] at this
      · have hnull : (Ram.ustack sp₁ ptrs)[3 + ptrs.length]? = some 0 := by
          rw [getElem?_ustack, List.getElem?_concat_length]
        have := hword hnull
        rwa [Nat.mul_add, ← Nat.add_assoc, hlen] at this
      · rw [← hsp₁]
        exact hp.copied hb₁ hcopied huser (by rw [hbuf]; omega)
      · refine (hcopied.user_of_not_mem hb₁.ledger hb₁.kernelOnly huser ?_ (by omega)).trans
          (hbelow a ha)
        have hsz := hb.space.size
        exact PageDir.lt_userPages (lt_of_le_of_lt (Nat.div_mul_le_self _ _) (by omega)) hsz

end Push

/-! ## The new program -/

theorem StackBuilt.congr {r' : Ram} {esp : Word} {argv : List UserString} {ptrs : List Word}
    (h : StackBuilt pd r esp top argv ptrs) (hr : ∀ a, a < top → r'.user pd a = r.user pd a) :
    StackBuilt pd r' esp top argv ptrs := by
  have hhigh := h.high
  have hword : ∀ {a}, a + 3 < top → r'.userWord pd a = r.userWord pd a := by
    intro a ha
    rw [Ram.userWord, Ram.userWord, hr a (by omega), hr (a + 1) (by omega), hr (a + 2) (by omega),
      hr (a + 3) ha]
  refine ⟨h.align, h.low, hhigh, h.user, ?_, ?_, fun i p hp ↦ ?_, ?_, h.pushed.length,
    fun i s p hs hp k hk ↦ ?_, h.pushed.above, h.pushed.below, h.pushed.apart⟩
  · rw [hword (by omega), h.argc]
  · rw [hword (by omega), h.vector]
  · have hi := (List.getElem?_eq_some_iff.mp hp).1
    rw [h.pushed.length] at hi
    rw [hword (by omega), h.ptr i p hp]
  · rw [hword (by omega), h.null]
  · have hbelow := h.pushed.below i s p hs hp
    rw [hr _ (by omega), h.pushed.text i s p hs hp k hk]

section Run

variable {img : KernelImage} {path : List Byte} {c : FileData} {argv : List UserString}
  {s s' : ExecState}

theorem ExecRun.user_eq (h : ExecRun img path c argv s s')
    (hl : Ledger img.kend (s.proc.pgdir.account s.ram.pool)) (ha : a < h.sz) :
    s'.ram.user h.pd a = h.r.user h.pd a := by
  obtain ⟨e, he⟩ := h.built.exists_pte ha
  have hpage : a / pgSize < userPages :=
    PageDir.lt_userPages (lt_of_le_of_lt (Nat.div_mul_le_self _ _) ha) h.built.space.size
  have hmem := PageDir.mem_pages_of_pte hpage he
  have hpool : s.proc.pgdir.freevm img.kend h.r.pool = .ok s'.ram.pool := by
    rw [← Ram.freevm_pool, h.free]
    rfl
  have hfree := PageDir.freevm_spec hpool
  -- the pages of the new program are not the old ones, and not free
  have hnodup := hl.nodup
  rw [PageDir.account, ← h.built.account, PageDir.account, add_right_comm] at hnodup
  have hdisj := (Multiset.nodup_add.mp hnodup).2.2
  rw [Ram.user, Ram.user, he]
  refine congrArg some (congrFun ((Ram.frees_freevm h.free).frame _ fun hin ↦ ?_) _)
  refine Multiset.disjoint_left.mp hdisj ?_ hmem
  rw [← Multiset.mem_coe, hfree] at hin
  exact hin

theorem ExecRun.stack_built (h : ExecRun img path c argv s s') :
    (∃ ptrs, StackBuilt h.pd h.r h.sp h.sz argv ptrs) ∧ h.sz % pgSize = 0 ∧
      (∃ e, h.pd.pte (h.sz / pgSize - 2) = some e ∧ e.perm.u = false) ∧
      h.sz = pgRoundUp h.sz₁ + 2 * pgSize ∧
      ∀ a, a < pgRoundUp h.sz₁ → h.r.user h.pd a = h.r₁.user h.pd₁ a := by
  obtain ⟨elf, pd₀, r₀, sz₁, pd₁, r₁, sz, sp, pd, r, -, -, -, -, h₁, hstack, -, -, -⟩ := h
  dsimp only
  rcases h₁.execStack_cases argv with ⟨pd₂, r₂, heq, -⟩
    | ⟨pd₂, pd₃, r₂, hcarries, h₂, h₃, hpte, heq⟩
  · rw [hstack] at heq
    cases heq
  · rw [hstack] at heq
    obtain ⟨⟨o, r₃⟩, hargs, heq⟩ := map_eq_ok_iff.mp heq.symm
    obtain ⟨ho, rfl, rfl⟩ : o.map (fun sp ↦ (pgRoundUp sz₁ + 2 * pgSize, sp)) = some (sz, sp) ∧
        pd₃ = pd ∧ r₃ = r := by
      simpa only [Prod.mk.injEq] using heq
    obtain ⟨sp', rfl, hx⟩ := Option.map_eq_some_iff.mp ho
    cases hx
    have hround : pgRoundUp sz₁ % pgSize = 0 := Nat.mul_mod_left _ _
    have hguard : (pgRoundUp sz₁ + 2 * pgSize) / pgSize - 2 = pgRoundUp sz₁ / pgSize := by
      rw [pgSize] at *
      omega
    obtain ⟨e, he⟩ := h₂.exists_pte (a := pgRoundUp sz₁) (by rw [pgSize]; omega)
    have hcleared : pd₃.pte (pgRoundUp sz₁ / pgSize)
        = some { e with perm := { e.perm with u := false } } := by
      rw [hpte, update_self, he]
      rfl
    have hpage : StackPage pd₃ (pgRoundUp sz₁ + 2 * pgSize) := by
      refine ⟨?_, Nat.le_add_left _ _, h₃.space.size, ?_, h₃.kernelOnly⟩
      · rw [pgSize] at *
        omega
      · rw [hguard]
        rintro ⟨e', he', hu⟩
        rw [hcleared] at he'
        cases he'
        cases hu
    obtain ⟨hbuilt, hbelow⟩ := execArgs_built h₃ hpage hargs
    refine ⟨hbuilt, hpage.aligned, ?_, rfl, fun a ha ↦ ?_⟩
    · rw [hguard]
      exact ⟨_, hcleared, rfl⟩
    · -- neither the guard page nor the arguments, and there before
      rw [hbelow a (by rw [pgSize]; omega), Ram.user, Ram.user, hpte, update_of_ne]
      · obtain ⟨e₁, he₁⟩ := h₁.round.exists_pte ha
        obtain ⟨e₂, he₂⟩ := h₂.exists_pte (a := a) (by omega)
        have hlt : a / pgSize < userPages := PageDir.lt_userPages
          (lt_of_le_of_lt (Nat.div_mul_le_self _ _) ha) h₁.round.space.size
        rcases hcarries _ e₂ hlt he₂ with ⟨heq₂, hframe⟩ | ⟨hnone, -⟩
        · rw [he₂, heq₂]
          exact congrArg some (congrFun hframe _)
        · rw [he₁] at hnone
          cases hnone
      · rw [pgSize] at *
        omega

end Run

/-! ## A program that is executed -/

theorem Ram.exists_allocuvm {n spare : ℕ} (img : KernelImage) (h : pd.Ready r.pool (spare + j))
    (hnodup : r.pool.free.Nodup) (hn : (n + j) * pgSize < kernBase)
    (hpte : ∀ m, n ≤ m → m < userPages → pd.pte m = none) : ∃ pd' r',
      r.allocuvm img pd (n * pgSize) ((n + j) * pgSize) = .ok ((n + j) * pgSize, pd', r') ∧
      pd'.Ready r'.pool spare ∧ (∀ m, n ≤ m → m < n + j → pd'.IsUser m) ∧
      ∀ m, n + j ≤ m → m < userPages → pd'.pte m = none := by
  have hpages : n + j ≤ userPages := by
    rw [userPages]
    rw [pgSize, kernBase] at *
    omega
  obtain ⟨pd', s', hpool, hready, hrest⟩ := h.allocLoop img (n * pgSize) hpages fun m hm hm' ↦
    hpte m hm (by omega)
  rw [← Ram.allocLoop_pool] at hpool
  obtain ⟨r', hloop, rfl⟩ := Ram.exists_of_pool hpool
  refine ⟨pd', r', ?_, hready, fun m hm hm' ↦ ?_, fun m hm hm' ↦ ?_⟩
  · rw [Ram.allocuvm, if_neg (not_le.mpr hn), if_neg (not_lt.mpr (by rw [pgSize]; omega))]
    rwa [show (n * pgSize + pgSize - 1) / pgSize = n by rw [pgSize]; omega]
  · rcases Ram.allocLoop_contents hn.le hnodup hloop with ⟨-, -, hall⟩ | ⟨h0, -⟩
    · rcases hall m with ⟨-, hnot⟩ | ⟨-, e, he, hperm, -⟩
      · exact absurd ⟨hm, Nat.mul_lt_mul_of_pos_right hm' (by decide)⟩ hnot
      · exact ⟨e, he, by rw [hperm]⟩
    · rw [pgSize] at h0
      omega
  · rw [hrest m hm, hpte m (by omega) hm']

/-- A program with a segment of one page, three bytes of which are in the file. -/
def someProgram : FileData where
  bytes :=
    [0x7F, 0x45, 0x4C, 0x46] ++ List.replicate 24 0 ++ [52, 0, 0, 0] ++ List.replicate 12 0 ++
    [1, 0] ++ List.replicate 6 0 ++ [1, 0, 0, 0, 84, 0, 0, 0] ++ List.replicate 8 0 ++
    [3, 0, 0, 0] ++
    [0, 16, 0, 0] ++ List.replicate 8 0 ++ [7, 8, 9]
  size_lt := by decide

def someArg : UserString := ⟨[97], by decide, by decide⟩

theorem readElfhdr_someProgram :
    readElfhdr someProgram.bytes = some ⟨elfMagic, 0, 52, 1⟩ := by rfl

theorem readProghdr_someProgram :
    readProghdr someProgram.bytes 52 = some ⟨elfProgLoad, 84, 0, 3, 4096⟩ := by rfl

section SomeProgram

variable {img : KernelImage} {r₀ r r' : Ram} {pd : PageDir}

theorem pool_of_loadLoop {addr offset sz : Word} {c : List Byte} {m : ℕ} {b : Bool}
    (h : Ram.loadLoop pd addr c offset sz m j r = .ok (b, r')) : r'.pool = r.pool := by
  induction m generalizing j r with
  | zero =>
    cases h
    rfl
  | succ m ih =>
    rw [Ram.loadLoop] at h
    dsimp only at h
    split at h
    · cases h
    · split at h
      · cases h
        rfl
      · split at h
        · cases h
          rfl
        · rw [ih h]
          rfl

theorem exists_loadSegments_someProgram (h : Builds img r₀ 0 pd r)
    (hready : pd.Ready r.pool (2 + 1))
    (hempty : ∀ m, m < userPages → pd.pte m = none) : ∃ pd' r',
      r.loadSegments img someProgram.bytes 1 52 0 pd = .ok (some 4096, pd', r') ∧
      Builds img r₀ 4096 pd' r' ∧ pd'.Ready r'.pool 2 ∧
      ∀ m, 1 ≤ m → m < userPages → pd'.pte m = none := by
  obtain ⟨pd₁, r₁, halloc, hready₁, -, hrest⟩ := Ram.exists_allocuvm (n := 0) (j := 1) img hready
    h.space.nodup_free (by decide) fun m _ hm ↦ hempty m hm
  have halloc : r.allocuvm img pd 0 4096 = .ok (4096, pd₁, r₁) := halloc
  obtain ⟨size, pd₂, r₂, halloc', -, hcase⟩ := h.allocuvm 4096
  rw [halloc] at halloc'
  cases halloc'
  have h₁ : Builds img r₀ 4096 pd₁ r₁ :=
    (hcase.resolve_right fun hbad ↦ absurd hbad.1 (by decide)).2
  have haligned : ¬(0 : Word).toNat % pgSize ≠ 0 := by decide
  have hend : (0 : Word).toNat + (3 : Word).toNat ≤ 4096 := by decide
  obtain ⟨b, r₂, hload, h₂, htrue⟩ := h₁.loaduvm (c := someProgram.bytes) haligned hend
  obtain rfl := htrue (show (84 : Word).toNat + (3 : Word).toNat ≤ _ by decide) (by decide)
  refine ⟨pd₁, r₂, ?_, h₂, ?_, hrest⟩
  · rw [Ram.loadSegments]
    simp only [readProghdr_someProgram]
    rw [if_neg (by decide), if_neg (by decide), if_neg (by decide)]
    refine bind_eq_ok_iff.mpr ⟨_, halloc, ?_⟩
    exact bind_eq_ok_iff.mpr ⟨_, hload, rfl⟩
  · rw [Ram.loaduvm, if_neg haligned] at hload
    rwa [pool_of_loadLoop hload]

theorem exists_execStack_someArg (h : Builds img r₀ 4096 pd r) (hready : pd.Ready r.pool (0 + 2))
    (hempty : ∀ m, 1 ≤ m → m < userPages → pd.pte m = none) : ∃ x pd' r',
      r.execStack img [someArg] 4096 pd = .ok (some x, pd', r') ∧ Builds img r₀ x.1 pd' r' := by
  obtain ⟨pd₁, r₁, halloc, -, huser, -⟩ := Ram.exists_allocuvm (n := 1) (j := 2) img hready
    h.space.nodup_free (by decide) hempty
  have halloc : r.allocuvm img pd 4096 12288 = .ok (12288, pd₁, r₁) := halloc
  obtain ⟨size, pd₂, r₂, halloc', -, hcase⟩ := h.allocuvm 12288
  rw [halloc] at halloc'
  cases halloc'
  have h₁ : Builds img r₀ 12288 pd₁ r₁ :=
    (hcase.resolve_right fun hbad ↦ absurd hbad.1 (by decide)).2
  obtain ⟨pd₂, hclear, h₂, hpte⟩ := h₁.clearpteu (n := 1) (by decide)
  -- all that is copied goes to the last page
  have hcopy : ∀ (va : Word) (buf : List Byte) (r : Ram), 8192 ≤ va.toNat →
      va.toNat + buf.length ≤ 12288 → ∃ r', r.copyout pd₂ va buf = .ok (true, r') := by
    intro va buf r hlow hhigh
    refine Ram.exists_copyout h₂.ledger h₂.kernelOnly r ?_
    rintro m ⟨a, hle, hlt, rfl⟩
    have hlast : a / pgSize = 2 := by
      rw [pgSize]
      omega
    obtain ⟨e, he, hu⟩ := huser 2 (by decide) (by decide)
    rw [hlast]
    refine ⟨e, ?_, hu⟩
    rw [hpte, update_of_ne (by decide), he]
  obtain ⟨r₂, harg⟩ := hcopy 12284 [97, 0] r₁ (by decide) (by decide)
  obtain ⟨r₃, hstack⟩ := hcopy 12264 ((Ram.ustack 12284 [12284]).flatMap wordBytes) r₂ (by decide)
    (by decide)
  have hargs : r₁.execArgs pd₂ [someArg] 12288 = .ok (some 12264, r₃) := by
    refine bind_eq_ok_iff.mpr ⟨(some (12284, [12284]), r₂), ?_, ?_⟩
    · rw [Ram.pushArgs, if_neg (by decide)]
      exact bind_eq_ok_iff.mpr ⟨_, harg, rfl⟩
    · exact bind_eq_ok_iff.mpr ⟨_, hstack, rfl⟩
  refine ⟨(12288, 12264), pd₂, r₃, ?_, h₂.execArgs hargs⟩
  refine bind_eq_ok_iff.mpr ⟨_, halloc, ?_⟩
  dsimp only
  rw [if_neg (by decide)]
  exact bind_eq_ok_iff.mpr ⟨_, hclear, bind_eq_ok_iff.mpr ⟨_, hargs, rfl⟩⟩

end SomeProgram

open Kernel in
theorem exists_exec_someProgram : ∃ s s' : ExecState,
    Ledger someImage.kend (s.proc.pgdir.account s.ram.pool) ∧
      exec someImage [] (some someProgram) [someArg] s = .ok (0, s') := by
  obtain ⟨p, l, hpages⟩ : ∃ p l, somePages = p :: l := by
    refine List.exists_cons_of_ne_nil fun hnil ↦ ?_
    have := length_somePages
    rw [hnil, List.length_nil] at this
    omega
  have hlen : npdEntries + (2 + 1) < l.length := by
    have := length_somePages
    rw [hpages, List.length_cons] at this
    omega
  obtain ⟨s, hs⟩ :
      ∃ s : ExecState, s = ⟨⟨⟨l, []⟩, fun _ _ ↦ 0⟩, ⟨.empty p, 0, [], 0, 0⟩, false, 1, 0⟩ :=
    ⟨_, rfl⟩
  have hl : Ledger someImage.kend (s.proc.pgdir.account s.ram.pool) := by
    have hsome := ledger_somePages
    rw [hs, PageDir.account, PageDir.pages_empty, add_comm]
    rwa [hpages] at hsome
  have hfree : Ledger someImage.kend s.ram.pool.free := hl.mono (Multiset.le_add_right _ _)
  have hdeny : s.ram.pool.deny = [] := by rw [hs]
  have hlen : npdEntries + (2 + 1) < s.ram.pool.free.length := by
    rw [hs]
    exact hlen
  obtain ⟨pd₀, s₀, hsetup, hready, hempty⟩ := PageDir.exists_setupkvm someImage hdeny hlen
  obtain ⟨o, r₀, hsetup', -, hbuilds⟩ := Builds.setupkvm hfree
  have hpool : (o, r₀.pool) = (some pd₀, s₀) := by
    rw [← Ram.setupkvm_pool, hsetup'] at hsetup
    exact Except.ok.inj hsetup
  cases hpool
  have h₀ := hbuilds pd₀ rfl
  obtain ⟨pd₁, r₁, hload, h₁, hready₁, hrest⟩ := exists_loadSegments_someProgram h₀ hready hempty
  obtain ⟨⟨sz, sp⟩, pd₂, r₂, hstack, h₂⟩ := exists_execStack_someArg h₁ hready₁ hrest
  obtain ⟨r₃, hr₃⟩ := h₂.exists_freevm hl
  refine ⟨s, { s.beginOp.nameiLock.iunlockput.endOp with
    ram := r₃, proc := ⟨pd₂, sz, (lastName []).take 15, 0, sp⟩ }, hl, ?_⟩
  rw [exec]
  simp only [readElfhdr_someProgram]
  refine bind_eq_ok_iff.mpr ⟨(some pd₀, r₀), hsetup', ?_⟩
  refine bind_eq_ok_iff.mpr ⟨(some 4096, pd₁, r₁), hload, ?_⟩
  refine bind_eq_ok_iff.mpr ⟨(some (sz, sp), pd₂, r₂), hstack, ?_⟩
  exact bind_eq_ok_iff.mpr ⟨_, hr₃, rfl⟩

/-- **`exec` builds the argument stack.** In the new address space `esp` is the start of a stack
that `main` finds its arguments on, all in the page below the size; and the page below that one is
present but not the user's. -/
theorem exec_argv {img : KernelImage} {path : List Byte} {file : Option FileData}
    {argv : List UserString} {s s' : ExecState}
    (hl : Ledger img.kend (s.proc.pgdir.account s.ram.pool))
    (h : exec img path file argv s = .ok (0, s')) :
    (∃ ptrs, StackBuilt s'.proc.pgdir s'.ram s'.proc.esp s'.proc.sz argv ptrs) ∧
    s'.proc.sz % pgSize = 0 ∧
    ∃ e, s'.proc.pgdir.pte (s'.proc.sz / pgSize - 2) = some e ∧ e.perm.u = false := by
  rcases exec_cases (hl.mono (Multiset.le_add_right _ _)) h with ⟨hret, -⟩ | ⟨-, c, -, ⟨hrun⟩⟩
  · exact absurd hret (by decide)
  · obtain ⟨⟨ptrs, hbuilt⟩, haligned, hguard, -, -⟩ := hrun.stack_built
    rw [hrun.proc]
    exact ⟨⟨ptrs, hbuilt.congr fun a ha ↦ hrun.user_eq hl ha⟩, haligned, hguard⟩

/-- The program finds its argument. -/
theorem exec_argv_someProgram : ∃ (s' : ExecState) (ptrs : List Word),
    StackBuilt s'.proc.pgdir s'.ram s'.proc.esp s'.proc.sz [someArg] ptrs := by
  obtain ⟨s, s', hl, hexec⟩ := exists_exec_someProgram
  obtain ⟨⟨ptrs, hbuilt⟩, -⟩ := exec_argv hl hexec
  exact ⟨s', ptrs, hbuilt⟩

end OperatingSystems
