import OperatingSystems.Log.Basic

/-!
# Crash atomicity of the redo log

The machine may stop between any two block writes of `commit()`, then any number of times inside
`recover_from_log`, and once a recovery runs to completion the home area holds either the state
before the transaction or the state with all of it installed.

## The argument

The writes of a commit are, in order, the copies into the log, the header, the copies home and the
cleared header. A disk that carries a prefix of them is in one of three conditions: the header is
still empty and the home area untouched; the header lists the transaction, the log holds its
contents, and the home area differs from the final one at most in blocks the header lists; or the
header is empty again and the home area is final. `Pending` is the middle one. Recovery issues the
copies home and the cleared header once more, so a stop inside it can only move a disk from the
second condition to the third, and completing it always does.
-/

namespace OperatingSystems

open Function

/-! ## The log area -/

/-- Block `b` lies in the log, the `size` blocks from `start` on. -/
def InLog (start : BlockNo) (size : ℤ) (b : BlockNo) : Prop := ((b - start).toNat : ℤ) < size

instance (start : BlockNo) (size : ℤ) (b : BlockNo) : Decidable (InLog start size b) :=
  inferInstanceAs (Decidable (_ < _))

def HomeEq (start : BlockNo) (size : ℤ) (d d' : Disk) : Prop :=
  ∀ b, ¬InLog start size b → d b = d' b

theorem HomeEq.refl (start : BlockNo) (size : ℤ) (d : Disk) : HomeEq start size d d :=
  fun _ _ ↦ rfl

variable {n i : ℕ} {lh : List BlockNo}

private theorem toNat_ofNat_of_le (h : n ≤ logSize) : (BitVec.ofNat 32 n).toNat = n := by
  rw [BitVec.toNat_ofNat, Nat.mod_eq_of_lt]
  have : logSize = 30 := rfl
  omega

private theorem offset_start (start : BlockNo) (h : n ≤ logSize) :
    (start + BitVec.ofNat 32 n - start).toNat = n := by
  rw [show start + BitVec.ofNat 32 n - start = BitVec.ofNat 32 n from by grind,
    toNat_ofNat_of_le h]

/-! ## Header blocks -/

namespace Block

theorem word_putHeader_zero (lh : List BlockNo) (b : Block) :
    (b.putHeader lh).word 0 = BitVec.ofNat 32 lh.length := rfl

theorem word_putHeader_succ (b : Block) (hi : i < lh.length) (hlen : lh.length ≤ logSize) :
    (b.putHeader lh).word (i + 1) = lh.getD i 0 := by
  have hlt : i + 1 < bSize / 4 := by
    have h1 : logSize = 30 := rfl
    have h2 : bSize / 4 = 128 := rfl
    omega
  rw [word, dif_pos hlt, putHeader, if_neg (Nat.succ_ne_zero i), Nat.add_sub_cancel,
    List.getD_eq_getElem _ _ hi, List.getD_eq_getElem _ _ hi]

theorem getHeader_putHeader (b : Block) (hlen : lh.length ≤ logSize) :
    (b.putHeader lh).getHeader = lh := by
  have hn : ((b.putHeader lh).word 0).toInt.toNat = lh.length := by
    rw [word_putHeader_zero, BitVec.toInt_eq_toNat_of_lt, toNat_ofNat_of_le hlen, Int.toNat_natCast]
    rw [toNat_ofNat_of_le hlen]
    have : logSize = 30 := rfl
    omega
  rw [getHeader, hn]
  refine List.ext_getElem (by simp) fun i hi hi' ↦ ?_
  rw [List.getElem_map, List.getElem_range, word_putHeader_succ b hi' hlen,
    List.getD_eq_getElem _ _ hi']

theorem getHeader_putHeader_nil (b : Block) : (b.putHeader []).getHeader = [] :=
  getHeader_putHeader b (Nat.zero_le _)

end Block

namespace LogState

/-! ## Transactions that fit in the log -/

/-- The logged blocks fit in the log and none of them lies in it. -/
structure Fits (k : LogState) : Prop where
  length_le : k.lh.length ≤ logSize
  length_lt : (k.lh.length : ℤ) < k.size
  outside : ∀ b ∈ k.lh, ¬InLog k.start k.size b

variable {k : LogState}

theorem inLog_logBlock (hk : k.Fits) (hi : i < k.lh.length) :
    InLog k.start k.size (k.logBlock i) := by
  have h1 := hk.length_le
  have h2 := hk.length_lt
  rw [InLog, logBlock, offset_start k.start (by omega)]
  omega

theorem inLog_start (hk : k.Fits) : InLog k.start k.size k.start := by
  have h := hk.length_lt
  rw [InLog, BitVec.sub_self]
  have : (0#32).toNat = 0 := rfl
  omega

theorem logBlock_ne_start (hk : k.Fits) (hi : i < k.lh.length) : k.logBlock i ≠ k.start := by
  have h1 := hk.length_le
  intro h
  have h2 := offset_start k.start (n := i + 1) (by omega)
  rw [← logBlock, h, BitVec.sub_self] at h2
  exact absurd h2 (by simp)

variable {j : ℕ} {b : BlockNo} {k' : LogState} {ops : List (BlockNo × Block)} {d' : Disk}

theorem logBlock_injective (hk : k.Fits) (hi : i < k.lh.length) (hj : j < k.lh.length)
    (h : k.logBlock i = k.logBlock j) : i = j := by
  have h1 := hk.length_le
  have h2 := offset_start k.start (n := i + 1) (by omega)
  have h3 := offset_start k.start (n := j + 1) (by omega)
  rw [← logBlock] at h2 h3
  rw [h, h3] at h2
  omega

theorem getD_mem_lh (hi : i < k.lh.length) : k.lh.getD i 0 ∈ k.lh := by
  rw [List.getD_eq_getElem _ _ hi]
  exact List.getElem_mem hi

theorem home_ne_logBlock (hk : k.Fits) (hb : b ∈ k.lh) (hi : i < k.lh.length) :
    b ≠ k.logBlock i := by
  rintro rfl
  exact hk.outside _ hb (inLog_logBlock hk hi)

theorem home_ne_start (hk : k.Fits) (hb : b ∈ k.lh) : b ≠ k.start := by
  rintro rfl
  exact hk.outside _ hb (inLog_start hk)

/-! ## The writes of each phase -/

def logCopies (k : LogState) : List (BlockNo × Block) :=
  (List.range k.lh.length).map fun i ↦ (k.logBlock i, k.buf (k.lh.getD i 0))

def installs (k : LogState) : List (BlockNo × Block) :=
  (List.range k.lh.length).map fun i ↦ (k.lh.getD i 0, k.buf (k.logBlock i))

theorem map_fst_logCopies (k : LogState) :
    k.logCopies.map Prod.fst = (List.range k.lh.length).map k.logBlock := by
  rw [logCopies, List.map_map]
  rfl

/-- The turns of a loop issue the writes `w 0, w 1, …` if none changes what a later one reads. -/
private theorem foldl_issue {f : LogState → ℕ → LogState} {w : ℕ → BlockNo × Block}
    (hf : ∀ m < n, f (k.issue ((List.range m).map w)) m
      = (k.issue ((List.range m).map w)).issue [w m]) :
    ∀ m ≤ n, (List.range m).foldl f k = k.issue ((List.range m).map w) := by
  intro m
  induction m with
  | zero => intro _; exact (issue_nil k).symm
  | succ m ih =>
    intro hm
    rw [List.range_succ, List.foldl_append, ih (by omega), List.foldl_cons, List.foldl_nil,
      hf m (by omega), issue_issue, List.map_append, List.map_cons, List.map_nil]

theorem writeLog_eq_issue (hk : k.Fits) : k.writeLog = k.issue k.logCopies := by
  refine foldl_issue (w := fun i ↦ (k.logBlock i, k.buf (k.lh.getD i 0))) (n := k.lh.length)
    (fun m hm ↦ ?_) _ le_rfl
  have hread : (k.issue ((List.range m).map fun i ↦ (k.logBlock i, k.buf (k.lh.getD i 0)))).buf
      (k.lh.getD m 0) = k.buf (k.lh.getD m 0) := by
    refine applyWrites_of_notMem ?_ _
    rw [List.map_map, List.mem_map]
    rintro ⟨i, hi, h⟩
    rw [List.mem_range] at hi
    exact home_ne_logBlock hk (getD_mem_lh hm) (by omega) h.symm
  rw [writeLogBlock, bread, issue_lh, hread, bwrite_eq_issue]
  rfl

theorem installTrans_eq_issue (hk : k.Fits) : k.installTrans = k.issue k.installs := by
  refine foldl_issue (w := fun i ↦ (k.lh.getD i 0, k.buf (k.logBlock i))) (n := k.lh.length)
    (fun m hm ↦ ?_) _ le_rfl
  have hread : (k.issue ((List.range m).map fun i ↦ (k.lh.getD i 0, k.buf (k.logBlock i)))).buf
      (k.logBlock m) = k.buf (k.logBlock m) := by
    refine applyWrites_of_notMem ?_ _
    rw [List.map_map, List.mem_map]
    rintro ⟨i, hi, h⟩
    rw [List.mem_range] at hi
    exact home_ne_logBlock hk (getD_mem_lh (k := k) (by omega)) hm h
  rw [installBlock, bread, issue_logBlock, hread, bwrite_eq_issue]
  rfl

theorem writeHead_eq_issue (k : LogState) :
    k.writeHead = k.issue [(k.start, (k.buf k.start).putHeader k.lh)] := rfl

theorem Fits.issue (hk : k.Fits) (ws : List (BlockNo × Block)) : (k.issue ws).Fits :=
  ⟨hk.length_le, hk.length_lt, hk.outside⟩

/-! ## The writes of a commit -/

/-- The copies home, with the contents that the buffers hold when the commit begins. -/
def homeWrites (k : LogState) : List (BlockNo × Block) := k.lh.map fun b ↦ (b, k.buf b)

def headBlock (k : LogState) : Block := (k.buf k.start).putHeader k.lh

theorem applyWrites_logCopies (hk : k.Fits) (hi : i < k.lh.length) (d : Disk) :
    applyWrites k.logCopies d (k.logBlock i) = k.buf (k.lh.getD i 0) := by
  have hnd : (k.logCopies.map Prod.fst).Nodup := by
    rw [map_fst_logCopies]
    refine List.Nodup.map_on (fun i hi j hj h ↦ ?_) List.nodup_range
    rw [List.mem_range] at hi hj
    exact logBlock_injective hk hi hj h
  exact applyWrites_of_mem hnd (w := (k.logBlock i, k.buf (k.lh.getD i 0)))
    (List.mem_map.mpr ⟨i, List.mem_range.mpr hi, rfl⟩) d

theorem start_notMem_logCopies (hk : k.Fits) : k.start ∉ k.logCopies.map Prod.fst := by
  rw [map_fst_logCopies, List.mem_map]
  rintro ⟨i, hi, h⟩
  exact logBlock_ne_start hk (List.mem_range.mp hi) h

theorem writeHead_writeLog (hk : k.Fits) :
    k.writeLog.writeHead = k.issue (k.logCopies ++ [(k.start, k.headBlock)]) := by
  have hstart : applyWrites k.logCopies k.buf k.start = k.buf k.start :=
    applyWrites_of_notMem (start_notMem_logCopies hk) _
  rw [writeLog_eq_issue hk, writeHead_eq_issue, ← issue_issue, headBlock, ← hstart]
  rfl

theorem installs_writeHead_writeLog (hk : k.Fits) :
    k.writeLog.writeHead.installs = k.homeWrites := by
  rw [writeHead_writeLog hk]
  refine List.ext_getElem (by simp [installs, homeWrites]) fun i hi hi' ↦ ?_
  have hi : i < k.lh.length := by simpa [installs] using hi
  have hread : applyWrites (k.logCopies ++ [(k.start, k.headBlock)]) k.buf (k.logBlock i)
      = k.buf (k.lh.getD i 0) := by
    rw [applyWrites_append, applyWrites_cons, applyWrites_nil,
      update_of_ne (logBlock_ne_start hk hi), applyWrites_logCopies hk hi]
  simp only [installs, homeWrites, List.getElem_map, List.getElem_range]
  refine Prod.ext ?_ ?_
  · exact List.getD_eq_getElem _ _ hi
  · refine hread.trans ?_
    rw [List.getD_eq_getElem _ _ hi]

/-- **The writes of a commit**, phase by phase. -/
theorem writes_commit (hk : k.Fits) (hne : k.lh ≠ []) : ∃ erased : Block,
    erased.getHeader = [] ∧
      k.commit.writes = k.writes ++ (k.logCopies ++ (k.start, k.headBlock) :: k.homeWrites
        ++ [(k.start, erased)]) := by
  have hfits : k.writeLog.writeHead.Fits := by
    rw [writeHead_writeLog hk]
    exact hk.issue _
  have hinst : k.writeLog.writeHead.installTrans
      = k.issue (k.logCopies ++ (k.start, k.headBlock) :: k.homeWrites) := by
    rw [installTrans_eq_issue hfits, installs_writeHead_writeLog hk, writeHead_writeLog hk,
      issue_issue, List.append_assoc, List.cons_append, List.nil_append]
  refine ⟨_, Block.getHeader_putHeader_nil
    (k.writeLog.writeHead.installTrans.buf k.start), ?_⟩
  rw [commit, if_pos (List.length_pos_of_ne_nil hne), writeHead_eq_issue, hinst]
  simp [LogState.issue, clear]

/-! ## Recording a transaction -/

theorem mem_lh_logWriteLocked (k : LogState) (b c : BlockNo) :
    c ∈ (k.logWriteLocked b).lh ↔ c = b ∨ c ∈ k.lh := by
  rw [logWriteLocked_eq]
  by_cases hb : b ∈ k.lh
  · simp only [if_pos hb]
    exact ⟨Or.inr, fun h ↦ h.elim (fun h ↦ h ▸ hb) id⟩
  · simp only [if_neg hb, List.mem_append, List.mem_singleton]
    exact or_comm

theorem length_logWriteLocked_le (k : LogState) (b : BlockNo) :
    (k.logWriteLocked b).lh.length ≤ k.lh.length + 1 := by
  rw [logWriteLocked_eq]
  by_cases hb : b ∈ k.lh
  · simp [if_pos hb]
  · simp [if_neg hb]

theorem logWrite_eq_ok (h : k.logWrite b = .ok k') :
    k' = k.logWriteLocked b ∧ k.lh.length < logSize ∧ (k.lh.length : ℤ) < k.size - 1 := by
  rw [logWrite, logWriteCheck] at h
  split at h
  · cases h
  · next hnone =>
    split at hnone
    · cases hnone
    · next hbig =>
      push Not at hbig
      cases h
      exact ⟨rfl, by exact_mod_cast hbig.1, hbig.2⟩

theorem recordAll_eq_ok : ∀ {k k' : LogState},
    k.recordAll ops = .ok k' → k.Fits → (∀ w ∈ ops, ¬InLog k.start k.size w.1) →
      k'.Fits ∧ k'.start = k.start ∧ k'.size = k.size ∧ k'.writes = k.writes ∧
        k'.disk = k.disk ∧ k'.buf = applyWrites ops k.buf ∧
        ∀ b, b ∈ k'.lh ↔ b ∈ k.lh ∨ b ∈ ops.map Prod.fst := by
  induction ops with
  | nil =>
    intro k k' h hk _
    cases h
    exact ⟨hk, rfl, rfl, rfl, rfl, rfl, by simp⟩
  | cons w ops ih =>
    obtain ⟨b, v⟩ := w
    intro k k' h hk hout
    rw [recordAll] at h
    split at h
    · cases h
    · next k₁ hw =>
      obtain ⟨rfl, h1, h2⟩ := logWrite_eq_ok hw
      have hb : ¬InLog k.start k.size b := hout (b, v) List.mem_cons_self
      have hlen := length_logWriteLocked_le (k.modify b v) b
      have hlh : (k.modify b v).lh = k.lh := rfl
      have hmem := mem_lh_logWriteLocked (k.modify b v) b
      rw [hlh] at hlen hmem h1 h2
      have hfits : ((k.modify b v).logWriteLocked b).Fits := by
        refine ⟨by omega, ?_, fun c hc ↦ ?_⟩
        · change _ < k.size
          have h2 : (k.lh.length : ℤ) < k.size - 1 := h2
          omega
        · rcases (hmem c).mp hc with rfl | hc
          · exact hb
          · exact hk.outside c hc
      obtain ⟨h3, h4, h5, h6, h7, h8, h9⟩ := ih h hfits fun w hw ↦
        hout w (List.mem_cons_of_mem _ hw)
      refine ⟨h3, h4, h5, h6, h7, h8, fun c ↦ ?_⟩
      rw [h9, hmem, List.map_cons, List.mem_cons]
      tauto

/-! ## Recovery -/

/-- The disk carries a committed transaction that is not yet cleared: the header lists `lh`, the log
holds the contents that `new` has for it, and the home area is `new` except possibly in blocks of
`lh`. -/
structure Pending (start : BlockNo) (size : ℤ) (lh : List BlockNo) (new d : Disk) : Prop where
  header : (d start).getHeader = lh
  logged : ∀ i < lh.length, d (start + BitVec.ofNat 32 (i + 1)) = new (lh.getD i 0)
  home : ∀ b, ¬InLog start size b → b ∉ lh → d b = new b

/-- The header is empty and the home area is `new`. -/
def Settled (start : BlockNo) (size : ℤ) (new d : Disk) : Prop :=
  (d start).getHeader = [] ∧ HomeEq start size d new

section Recovery

variable {sb : Superblock} {k : LogState} {d new : Disk}

theorem writes_recoverFromLog (hfits : (boot sb d).readHead.Fits) : ∃ erased : Block,
    erased.getHeader = [] ∧
      (boot sb d).recoverFromLog.writes = (boot sb d).readHead.installs ++ [(sb.logstart, erased)] ∧
      (boot sb d).recoverFromLog.disk
        = applyWrites ((boot sb d).readHead.installs ++ [(sb.logstart, erased)]) d := by
  refine ⟨_, Block.getHeader_putHeader_nil
    ((boot sb d).readHead.installTrans.buf sb.logstart), ?_, ?_⟩
  · rw [recoverFromLog, writeHead_eq_issue, installTrans_eq_issue hfits]
    simp [LogState.issue, clear, readHead, boot]
  · rw [recoverFromLog, writeHead_eq_issue, installTrans_eq_issue hfits]
    simp [LogState.issue, clear, readHead, boot, applyWrites_append]

/-- The log of `k` is the one that the super block describes. -/
def Of (sb : Superblock) (k : LogState) : Prop :=
  k.start = sb.logstart ∧ k.size = sb.nlog.toInt

theorem fits_readHead (hof : Of sb k) (hk : k.Fits) (hsub : lh = k.lh ∨ lh = [])
    (hd : (d k.start).getHeader = lh) : (boot sb d).readHead.Fits := by
  obtain ⟨hstart, hsize⟩ := hof
  have hlh : (boot sb d).readHead.lh = lh := by
    rw [readHead, bread, boot, ← hstart, hd]
  have h1 := hk.length_le
  have h2 := hk.length_lt
  have hle : lh.length ≤ k.lh.length := by
    rcases hsub with rfl | rfl
    · exact le_rfl
    · exact Nat.zero_le _
  refine ⟨by rw [hlh]; omega, ?_, fun b hb ↦ ?_⟩
  · rw [hlh, show (boot sb d).readHead.size = k.size from hsize.symm]
    omega
  · rw [hlh] at hb
    rw [show (boot sb d).readHead.start = k.start from hstart.symm,
      show (boot sb d).readHead.size = k.size from hsize.symm]
    rcases hsub with rfl | rfl
    · exact hk.outside b hb
    · exact absurd hb (by simp)

theorem installs_readHead_of_pending (hof : Of sb k)
    (h : Pending k.start k.size k.lh new d) :
    (boot sb d).readHead.installs = k.lh.map fun b ↦ (b, new b) := by
  have hlh : (boot sb d).readHead.lh = k.lh := by
    rw [readHead, bread, boot, ← hof.1, h.header]
  refine List.ext_getElem (by simp [installs, hlh]) fun i hi hi' ↦ ?_
  have hi' : i < k.lh.length := by simpa using hi'
  simp only [installs, List.getElem_map, List.getElem_range, hlh]
  rw [List.getD_eq_getElem _ _ hi']
  refine Prod.ext rfl ?_
  change d (sb.logstart + BitVec.ofNat 32 (i + 1)) = new k.lh[i]
  rw [← hof.1, h.logged i hi', List.getD_eq_getElem _ _ hi']

theorem installs_readHead_of_nil (hof : Of sb k) (h : (d k.start).getHeader = []) :
    (boot sb d).readHead.installs = [] := by
  have hlh : (boot sb d).readHead.lh = [] := by
    rw [readHead, bread, boot, ← hof.1, h]
  rw [installs, hlh]
  rfl

theorem Pending.applyWrites_take (hk : k.Fits) (h : Pending k.start k.size k.lh new d) (i : ℕ) :
    Pending k.start k.size k.lh new
      (applyWrites ((k.lh.map fun b ↦ (b, new b)).take i) d) := by
  have hkeep : ∀ b, b ∉ k.lh →
      applyWrites ((k.lh.map fun b ↦ (b, new b)).take i) d b = d b := fun b hb ↦ by
    refine applyWrites_of_notMem (fun hmem ↦ hb ?_) d
    rw [List.map_take, List.map_map] at hmem
    simpa using List.mem_of_mem_take hmem
  refine ⟨?_, fun j hj ↦ ?_, fun b hb hlh ↦ ?_⟩
  · rw [hkeep _ fun hmem ↦ home_ne_start hk hmem rfl]
    exact h.header
  · rw [← h.logged j hj]
    exact hkeep _ fun hmem ↦ home_ne_logBlock hk hmem hj rfl
  · rw [hkeep b hlh]
    exact h.home b hb hlh

theorem Pending.settled (hk : k.Fits) (h : Pending k.start k.size k.lh new d) {erased : Block}
    (he : erased.getHeader = []) :
    Settled k.start k.size new
      (applyWrites ((k.lh.map fun b ↦ (b, new b)) ++ [(k.start, erased)]) d) := by
  rw [applyWrites_append, applyWrites_cons, applyWrites_nil]
  refine ⟨by rw [update_self]; exact he, fun b hb ↦ ?_⟩
  have hne : b ≠ k.start := by
    rintro rfl
    exact hb (inLog_start hk)
  rw [update_of_ne hne]
  by_cases hlh : b ∈ k.lh
  · -- overwritten with `new b`, whatever the disk held
    have hmem : b ∈ (k.lh.map fun b ↦ (b, new b)).map Prod.fst := by
      rw [List.map_map]
      simpa using hlh
    rw [applyWrites_congr_of_mem hmem d new, applyWrites_map_self k.lh new new fun _ _ ↦ rfl]
  · rw [applyWrites_of_notMem _ d]
    · exact h.home b hb hlh
    · rw [List.map_map]
      simpa using hlh

theorem Settled.update_start (hk : k.Fits) (h : Settled k.start k.size new d) {erased : Block}
    (he : erased.getHeader = []) :
    Settled k.start k.size new (applyWrites [(k.start, erased)] d) := by
  rw [applyWrites_cons, applyWrites_nil]
  refine ⟨by rw [update_self]; exact he, fun b hb ↦ ?_⟩
  have hne : b ≠ k.start := by
    rintro rfl
    exact hb (inLog_start hk)
  rw [update_of_ne hne]
  exact h.2 b hb

/-- The disks left by a recovery that stops after `j` writes. -/
def recoveryStop (sb : Superblock) (d : Disk) (j : ℕ) : Disk :=
  applyWrites ((boot sb d).recoverFromLog.writes.take j) d

theorem Settled.recoveryStop (hof : Of sb k) (hk : k.Fits) (h : Settled k.start k.size new d)
    (j : ℕ) : Settled k.start k.size new (recoveryStop sb d j) := by
  obtain ⟨erased, he, hw, -⟩ :=
    writes_recoverFromLog (fits_readHead hof hk (Or.inr rfl) h.1)
  rw [LogState.recoveryStop, hw, installs_readHead_of_nil hof h.1, List.nil_append, ← hof.1]
  rcases j with - | j
  · exact h
  · rw [List.take_of_length_le (by simp)]
    exact h.update_start hk he

theorem Settled.recovered (hof : Of sb k) (hk : k.Fits) (h : Settled k.start k.size new d) :
    Settled k.start k.size new (boot sb d).recoverFromLog.disk := by
  obtain ⟨erased, he, -, hd⟩ :=
    writes_recoverFromLog (fits_readHead hof hk (Or.inr rfl) h.1)
  rw [hd, installs_readHead_of_nil hof h.1, List.nil_append, ← hof.1]
  exact h.update_start hk he

theorem Pending.recoveryStop (hof : Of sb k) (hk : k.Fits)
    (h : Pending k.start k.size k.lh new d) (j : ℕ) :
    Pending k.start k.size k.lh new (recoveryStop sb d j) ∨
      Settled k.start k.size new (recoveryStop sb d j) := by
  obtain ⟨erased, he, hw, -⟩ :=
    writes_recoverFromLog (fits_readHead hof hk (Or.inl rfl) h.header)
  rw [LogState.recoveryStop, hw, installs_readHead_of_pending hof h, ← hof.1]
  rcases take_append_singleton (k.lh.map fun b ↦ (b, new b)) (k.start, erased) j with ⟨i, hi⟩ | hi
  · rw [hi]
    exact Or.inl (h.applyWrites_take hk i)
  · rw [hi]
    exact Or.inr (h.settled hk he)

theorem Pending.recovered (hof : Of sb k) (hk : k.Fits) (h : Pending k.start k.size k.lh new d) :
    Settled k.start k.size new (boot sb d).recoverFromLog.disk := by
  obtain ⟨erased, he, -, hd⟩ :=
    writes_recoverFromLog (fits_readHead hof hk (Or.inl rfl) h.header)
  rw [hd, installs_readHead_of_pending hof h, ← hof.1]
  exact h.settled hk he

/-- The disks reached from `d` by any number of recoveries each of which stops somewhere. -/
inductive RecoveryStops (sb : Superblock) (d : Disk) : Disk → Prop
  | none : RecoveryStops sb d d
  | stop {d' : Disk} (j : ℕ) : RecoveryStops sb d d' → RecoveryStops sb d (recoveryStop sb d' j)

theorem RecoveryStops.settled (hof : Of sb k) (hk : k.Fits) (hs : RecoveryStops sb d d')
    (h : Settled k.start k.size new d) : Settled k.start k.size new d' := by
  induction hs with
  | none => exact h
  | stop j _ ih => exact ih.recoveryStop hof hk j

theorem RecoveryStops.pending (hof : Of sb k) (hk : k.Fits) (hs : RecoveryStops sb d d')
    (h : Pending k.start k.size k.lh new d) :
    Pending k.start k.size k.lh new d' ∨ Settled k.start k.size new d' := by
  induction hs with
  | none => exact Or.inl h
  | stop j _ ih =>
    rcases ih with ih | ih
    · exact ih.recoveryStop hof hk j
    · exact Or.inr (ih.recoveryStop hof hk j)

end Recovery

/-! ## Stops inside the commit -/

section Commit

variable {sb : Superblock} {k : LogState} {d : Disk}

/-- The disk left by a commit that stops after `j` of its block writes. -/
def commitStop (k : LogState) (d : Disk) (j : ℕ) : Disk := applyWrites (k.commit.writes.take j) d

theorem settled_commitStop (hk : k.Fits) (hw : k.writes = []) (hd : (d k.start).getHeader = [])
    (hj : j ≤ k.lh.length) : Settled k.start k.size d (commitStop k d j) := by
  by_cases hne : k.lh = []
  · have hcommit : k.commit = k := by
      rw [commit, if_neg]
      rw [hne]
      exact lt_irrefl 0
    rw [commitStop, hcommit, hw, List.take_nil]
    exact ⟨hd, HomeEq.refl _ _ _⟩
  · obtain ⟨erased, -, hwc⟩ := writes_commit hk hne
    have hlen : k.logCopies.length = k.lh.length := by simp [logCopies]
    have htake : k.commit.writes.take j = k.logCopies.take j := by
      rw [hwc, hw, List.nil_append, List.append_assoc, List.take_append_of_le_length (by omega)]
    have hkeep : ∀ b, b ∉ k.logCopies.map Prod.fst → commitStop k d j b = d b := fun b hb ↦ by
      rw [commitStop, htake]
      refine applyWrites_of_notMem (fun hmem ↦ hb ?_) d
      rw [List.map_take] at hmem
      exact List.mem_of_mem_take hmem
    refine ⟨by rw [hkeep _ (start_notMem_logCopies hk)]; exact hd, fun b hb ↦ hkeep b ?_⟩
    rw [map_fst_logCopies, List.mem_map]
    rintro ⟨i, hi, rfl⟩
    exact hb (inLog_logBlock hk (List.mem_range.mp hi))

theorem pending_of_header (hk : k.Fits) (hhome : ∀ b, b ∉ k.lh → d b = k.buf b) :
    Pending k.start k.size k.lh k.buf
      (applyWrites (k.logCopies ++ [(k.start, k.headBlock)]) d) := by
  rw [applyWrites_append, applyWrites_cons, applyWrites_nil]
  refine ⟨?_, fun i hi ↦ ?_, fun b hb hlh ↦ ?_⟩
  · rw [update_self, headBlock, Block.getHeader_putHeader _ hk.length_le]
  · change update _ k.start _ (k.logBlock i) = _
    rw [update_of_ne (logBlock_ne_start hk hi), applyWrites_logCopies hk hi]
  · have hne : b ≠ k.start := by
      rintro rfl
      exact hb (inLog_start hk)
    rw [update_of_ne hne, applyWrites_of_notMem _ d, hhome b hlh]
    rw [map_fst_logCopies, List.mem_map]
    rintro ⟨i, hi, rfl⟩
    exact hb (inLog_logBlock hk (List.mem_range.mp hi))

theorem pending_commitStop (hk : k.Fits) (hw : k.writes = []) (hne : k.lh ≠ [])
    (hhome : ∀ b, b ∉ k.lh → d b = k.buf b) (hj : k.lh.length < j) :
    Pending k.start k.size k.lh k.buf (commitStop k d j) ∨
      Settled k.start k.size k.buf (commitStop k d j) := by
  obtain ⟨erased, he, hwc⟩ := writes_commit hk hne
  have hlen : k.logCopies.length < j := by simpa [logCopies] using hj
  have hp := pending_of_header hk hhome
  have hsplit : ∀ ws : List (BlockNo × Block),
      applyWrites (k.logCopies ++ (k.start, k.headBlock) :: ws) d
        = applyWrites ws (applyWrites (k.logCopies ++ [(k.start, k.headBlock)]) d) := fun ws ↦ by
    rw [← applyWrites_append, List.append_assoc, List.singleton_append]
  rw [commitStop, hwc, hw, List.nil_append, List.append_assoc, List.cons_append,
    take_append_cons_of_lt hlen, hsplit]
  rcases take_append_singleton k.homeWrites (k.start, erased) (j - k.logCopies.length - 1)
    with ⟨i, hi⟩ | hi
  · rw [hi]
    exact Or.inl (hp.applyWrites_take hk i)
  · rw [hi]
    exact Or.inr (hp.settled hk he)

end Commit

/-! ## A log without room

A super block that gives the log no block at all leaves no transaction to record, and recovery
rewrites the empty header with what it already holds. -/

section NoRoom

variable {sb : Superblock} {d : Disk}

theorem getHeader_of_word_zero {b : Block} (h : b.word 0 = 0) : b.getHeader = [] := by
  rw [Block.getHeader, h]
  rfl

theorem putHeader_nil_of_word_zero {b : Block} (h : b.word 0 = 0) : b.putHeader [] = b := by
  funext i
  rw [Block.putHeader]
  split
  · next hi =>
    have hi : i = ⟨0, by decide⟩ := Fin.ext hi
    rw [hi]
    exact h.symm
  · rfl

theorem recoverFromLog_of_word_zero (h : (d sb.logstart).word 0 = 0) :
    (boot sb d).recoverFromLog.writes = [(sb.logstart, d sb.logstart)] ∧
      (boot sb d).recoverFromLog.disk = d := by
  have hread : (boot sb d).readHead.installTrans = (boot sb d).readHead := by
    rw [installTrans, show (boot sb d).readHead.lh = [] from getHeader_of_word_zero h]
    rfl
  rw [recoverFromLog, hread, writeHead]
  have hput : ((boot sb d).readHead.clear.bread (boot sb d).readHead.clear.start).putHeader
      (boot sb d).readHead.clear.lh = d sb.logstart := putHeader_nil_of_word_zero h
  rw [hput]
  exact ⟨rfl, update_eq_self _ _⟩

theorem RecoveryStops.eq_of_word_zero (h : (d sb.logstart).word 0 = 0)
    (hs : RecoveryStops sb d d') :
    d' = d := by
  induction hs with
  | none => rfl
  | stop j _ ih =>
    subst ih
    rw [recoveryStop, (recoverFromLog_of_word_zero h).1]
    rcases j with - | j
    · rfl
    · rw [List.take_of_length_le (by simp), applyWrites_cons, applyWrites_nil,
        update_eq_self]

theorem recordAll_of_size_nonpos (hk : k.size ≤ 0) (h : k.recordAll ops = .ok k') :
    ops = [] ∧ k' = k := by
  cases ops with
  | nil =>
    cases h
    exact ⟨rfl, rfl⟩
  | cons w ops =>
    exfalso
    obtain ⟨b, v⟩ := w
    rw [recordAll] at h
    split at h
    · cases h
    · next hw =>
      obtain ⟨-, -, h2⟩ := logWrite_eq_ok hw
      have h2 : ((k.modify b v).lh.length : ℤ) < k.size - 1 := h2
      omega

end NoRoom

end LogState

/-! ## The theorem -/

open LogState in
/-- **Crash atomicity.** On a disk with an empty log header, a transaction recorded by `log_write`
is committed; the machine stops after `j` block writes of the commit, then any number of times
inside recovery. When a recovery finally completes, the home area is as before the transaction or
has all of it, and it has all of it whenever the stop came after the first `write_head`, that is,
when more block writes than those of `write_log` were made. -/
theorem recoverFromLog_atomic (sb : Superblock) (d : Disk) (ops : List (BlockNo × Block))
    (k : LogState) (hempty : (d sb.logstart).word 0 = 0)
    (hhome : ∀ w ∈ ops, ¬InLog sb.logstart sb.nlog.toInt w.1)
    (hrec : recordAll { boot sb d with outstanding := 1 } ops = .ok k) (j : ℕ) (d' : Disk)
    (hstops : RecoveryStops sb (commitStop k d j) d') :
    (HomeEq sb.logstart sb.nlog.toInt (boot sb d').recoverFromLog.disk d ∨
      HomeEq sb.logstart sb.nlog.toInt (boot sb d').recoverFromLog.disk (applyWrites ops d)) ∧
    (k.writeLog.writes.length < j →
      HomeEq sb.logstart sb.nlog.toInt (boot sb d').recoverFromLog.disk (applyWrites ops d)) := by
  rcases le_or_gt sb.nlog.toInt 0 with hsize | hsize
  · -- no room in the log: nothing was recorded, and nothing happens
    obtain ⟨rfl, rfl⟩ := recordAll_of_size_nonpos hsize hrec
    have hd' : d' = d := by
      have hcommit : commitStop { boot sb d with outstanding := 1 } d j = d := by
        rw [commitStop, commit, if_neg (by exact lt_irrefl 0)]
        exact congrArg (applyWrites · d) List.take_nil
      rw [hcommit] at hstops
      exact hstops.eq_of_word_zero hempty
    subst hd'
    rw [(recoverFromLog_of_word_zero hempty).2]
    exact ⟨Or.inl (HomeEq.refl _ _ _), fun _ ↦ HomeEq.refl _ _ _⟩
  · have hfits₀ : ({ boot sb d with outstanding := 1 } : LogState).Fits :=
      ⟨Nat.zero_le _, hsize, fun b hb ↦ absurd hb List.not_mem_nil⟩
    obtain ⟨hk, hstart, hsz, hw, -, hbuf, hmem⟩ := recordAll_eq_ok hrec hfits₀ hhome
    have hof : Of sb k := ⟨hstart, hsz⟩
    have hw : k.writes = [] := hw
    have hbuf : k.buf = applyWrites ops d := hbuf
    have hout : ∀ b, b ∉ k.lh → d b = k.buf b := fun b hb ↦ by
      rw [hbuf, applyWrites_of_notMem]
      exact fun hb' ↦ hb ((hmem b).mpr (Or.inr hb'))
    have hhdr : (d k.start).getHeader = [] := by
      rw [hstart]
      exact getHeader_of_word_zero hempty
    have hlen : k.writeLog.writes.length = k.lh.length := by
      rw [writeLog_eq_issue hk]
      simp [issue, hw, logCopies]
    rw [← hbuf, hlen, ← hof.1, ← hof.2]
    rcases Nat.lt_or_ge k.lh.length j with hj | hj
    · -- the header reached the disk
      have hnew : HomeEq k.start k.size (boot sb d').recoverFromLog.disk k.buf := by
        by_cases hne : k.lh = []
        · -- an empty transaction writes nothing, and the buffers are the disk
          have hcommit : commitStop k d j = d := by
            rw [commitStop, commit, if_neg (by rw [hne]; exact lt_irrefl 0), hw, List.take_nil]
            rfl
          have hsettled : Settled k.start k.size k.buf d :=
            ⟨hhdr, fun b _ ↦ hout b (by rw [hne]; exact List.not_mem_nil)⟩
          rw [hcommit] at hstops
          exact ((hstops.settled hof hk hsettled).recovered hof hk).2
        · rcases pending_commitStop hk hw hne hout hj with h | h
          · rcases hstops.pending hof hk h with h' | h'
            · exact (h'.recovered hof hk).2
            · exact (h'.recovered hof hk).2
          · exact ((hstops.settled hof hk h).recovered hof hk).2
      exact ⟨Or.inr hnew, fun _ ↦ hnew⟩
    · have hold := settled_commitStop hk hw hhdr hj
      exact ⟨Or.inl ((hstops.settled hof hk hold).recovered hof hk).2, fun h ↦ by omega⟩

open LogState in
/-- The log of a freshly made file system, two blocks logged, and a stop right after the header was
written followed by one inside recovery. -/
theorem recoverFromLog_atomic_two_blocks : ∃ k : LogState,
    recordAll { boot ⟨30, 2⟩ (fun _ _ ↦ 0) with outstanding := 1 }
      [(70, fun _ ↦ 1), (71, fun _ ↦ 2)] = .ok k ∧ k.writeLog.writes.length < 3 ∧
    HomeEq 2 30
      (boot ⟨30, 2⟩ (recoveryStop ⟨30, 2⟩ (commitStop k (fun _ _ ↦ 0) 3) 1)).recoverFromLog.disk
      (applyWrites [(70, fun _ ↦ 1), (71, fun _ ↦ 2)] fun _ _ ↦ 0) :=
  have hhome : ∀ w ∈ [((70 : BlockNo), fun _ ↦ (1 : Word)), (71, fun _ ↦ 2)],
      ¬InLog 2 (30 : Word).toInt w.1 :=
    List.forall_mem_cons.mpr ⟨by decide, List.forall_mem_singleton.mpr (by decide)⟩
  ⟨_, rfl, by decide, (recoverFromLog_atomic ⟨30, 2⟩ (fun _ _ ↦ 0)
    [(70, fun _ ↦ 1), (71, fun _ ↦ 2)] _ rfl hhome rfl 3 _ (.stop 1 .none)).2 (by decide)⟩

end OperatingSystems
