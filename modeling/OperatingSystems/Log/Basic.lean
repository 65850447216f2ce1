import Mathlib.Data.BitVec
import Mathlib.Data.List.GetD
import OperatingSystems.Lib.Writes

/-!
# The redo log

The model of `log.c`. Blocks are seen as the 32-bit words the log code reads and writes: it either
moves a whole block or goes through `struct logheader`, whose fields are all words.

The state carries two stores. `buf` is what `bread` returns, the contents of the buffer cache where
a block is cached and of the disk elsewhere; `disk` is what survives a stop of the machine. `bwrite`
is the only operation that changes `disk`, and it records the write, so that the points at which the
machine can stop are the prefixes of `writes`.

The in-memory header is the list `lh` of the entries `block[0..n)`; the entries of the array at and
above `n` are never read.
-/

namespace OperatingSystems

open Function

/-! ## Parameters and the on-disk format -/

def bSize : ℕ := 512

def maxOpBlocks : ℕ := 10

def logSize : ℕ := maxOpBlocks * 3

abbrev Word := BitVec 32

abbrev BlockNo := BitVec 32

abbrev Block := Fin (bSize / 4) → Word

abbrev Disk := BlockNo → Block

structure Superblock where
  nlog : Word
  logstart : Word

namespace Block

def word (b : Block) (i : ℕ) : Word := if h : i < bSize / 4 then b ⟨i, h⟩ else 0

/-- `struct logheader` read out of a block: `n`, then `block[0..n)`. A negative `n` makes every loop
over the header empty. -/
def getHeader (b : Block) : List BlockNo :=
  (List.range (b.word 0).toInt.toNat).map fun i ↦ b.word (i + 1)

/-- `struct logheader` stored into a block. Only `n` entries are copied, so the words behind them
keep what an earlier transaction left there. -/
def putHeader (lh : List BlockNo) (b : Block) : Block := fun i ↦
  if i.val = 0 then BitVec.ofNat 32 lh.length else lh.getD (i.val - 1) (b i)

end Block

/-- The panics of `log.c` that a caller can run into. -/
inductive LogPanic
  /-- `panic("too big a transaction")` -/
  | tooBig
  /-- `panic("log_write outside of trans")` -/
  | outsideTrans
  /-- `panic("log.committing")` -/
  | committing
  deriving DecidableEq, Repr

/-! ## The state -/

/-- `struct log` together with the stores it works on. -/
structure LogState where
  start : BlockNo
  size : ℤ
  outstanding : ℤ
  committing : Bool
  lh : List BlockNo
  /-- What `bread` returns. -/
  buf : Disk
  disk : Disk
  /-- The block writes issued so far, oldest first. -/
  writes : List (BlockNo × Block)

namespace LogState

variable (k : LogState)

def bread (b : BlockNo) : Block := k.buf b

/-- Leave `v` in the buffer of block `b` and write it to the disk. -/
def bwrite (b : BlockNo) (v : Block) : LogState :=
  { k with
    buf := update k.buf b v
    disk := update k.disk b v
    writes := k.writes ++ [(b, v)] }

/-- The caller of `log_write` changes the contents of the buffer in place first. -/
def modify (b : BlockNo) (v : Block) : LogState := { k with buf := update k.buf b v }

/-- The log block for entry `tail`, `log.start+tail+1`. -/
def logBlock (tail : ℕ) : BlockNo := k.start + BitVec.ofNat 32 (tail + 1)

/-! ## Committing and recovering -/

def installBlock (tail : ℕ) : LogState := k.bwrite (k.lh.getD tail 0) (k.bread (k.logBlock tail))

def installTrans : LogState := (List.range k.lh.length).foldl installBlock k

def readHead : LogState := { k with lh := (k.bread k.start).getHeader }

/-- Write in-memory log header to disk. This is the true point at which the current transaction
commits. -/
def writeHead : LogState := k.bwrite k.start ((k.bread k.start).putHeader k.lh)

/-- `log.lh.n = 0` -/
def clear : LogState := { k with lh := [] }

def recoverFromLog : LogState := k.readHead.installTrans.clear.writeHead

def writeLogBlock (tail : ℕ) : LogState := k.bwrite (k.logBlock tail) (k.bread (k.lh.getD tail 0))

def writeLog : LogState := (List.range k.lh.length).foldl writeLogBlock k

def commit : LogState :=
  if k.lh.length > 0 then k.writeLog.writeHead.installTrans.clear.writeHead else k

/-- The state of a machine that has just started on a disk: nothing cached, nothing logged.
`initlog` copies the log's place from the super block and then recovers. -/
def boot (sb : Superblock) (d : Disk) : LogState where
  start := sb.logstart
  size := sb.nlog.toInt
  outstanding := 0
  committing := false
  lh := []
  buf := d
  disk := d
  writes := []

def initlog (sb : Superblock) (d : Disk) : LogState := (boot sb d).recoverFromLog

/-! ## The operations of a file system call -/

/-- The test of `begin_op` and its increment; no result means that the caller sleeps. -/
def beginOp : Option LogState :=
  if k.committing then none
  else if (k.lh.length : ℤ) + (k.outstanding + 1) * maxOpBlocks > logSize then none
  else some { k with outstanding := k.outstanding + 1 }

/-- The first critical section of `end_op`: the state it leaves, and whether the caller has to
commit or ran into the panic. -/
def endOp : LogState × Except LogPanic Bool :=
  let k' := { k with outstanding := k.outstanding - 1 }
  if k'.committing then (k', .error .committing)
  else if k'.outstanding = 0 then ({ k' with committing := true }, .ok true)
  else (k', .ok false)

/-- The second critical section of `end_op`, after `commit()`. -/
def endCommit : LogState := { k with committing := false }

/-- The two tests that `log_write` makes before it takes the lock. -/
def logWriteCheck : Option LogPanic :=
  if (k.lh.length : ℤ) ≥ logSize ∨ (k.lh.length : ℤ) ≥ k.size - 1 then some .tooBig
  else if k.outstanding < 1 then some .outsideTrans
  else none

/-- The critical section of `log_write`: `i` is where the loop stops, the first entry for the block
(log absorption) or `n`. -/
def logWriteLocked (b : BlockNo) : LogState :=
  let i := k.lh.idxOf b
  { k with lh := if i = k.lh.length then k.lh ++ [b] else k.lh.set i b }

def logWrite (b : BlockNo) : Except LogPanic LogState :=
  match k.logWriteCheck with
  | some e => .error e
  | none => .ok (k.logWriteLocked b)

/-- A sequence of in-place changes, each followed by `log_write` of the buffer. -/
def recordAll : LogState → List (BlockNo × Block) → Except LogPanic LogState
  | k, [] => .ok k
  | k, (b, v) :: ops =>
    match (k.modify b v).logWrite b with
    | .error e => .error e
    | .ok k' => recordAll k' ops

/-! ## What the operations leave alone -/

theorem logWriteLocked_eq (b : BlockNo) :
    k.logWriteLocked b = { k with lh := if b ∈ k.lh then k.lh else k.lh ++ [b] } := by
  have hset : b ∈ k.lh → k.lh.set (k.lh.idxOf b) b = k.lh := fun hb ↦ by
    have hlt := List.idxOf_lt_length_of_mem hb
    refine List.ext_getElem (by simp) fun j hj hj' ↦ ?_
    rw [List.getElem_set]
    split
    · next h =>
      subst h
      exact (List.getElem_idxOf hlt).symm
    · rfl
  rw [logWriteLocked]
  by_cases hb : b ∈ k.lh
  · rw [if_neg (List.idxOf_lt_length_of_mem hb).ne, if_pos hb, hset hb]
  · rw [if_pos (List.idxOf_eq_length_iff.mpr hb), if_neg hb]

theorem beginOp_eq_some {k k' : LogState} (h : k.beginOp = some k') :
    k.committing = false ∧ (k.lh.length : ℤ) + (k.outstanding + 1) * maxOpBlocks ≤ logSize ∧
      k' = { k with outstanding := k.outstanding + 1 } := by
  rw [beginOp] at h
  split at h
  · cases h
  · next hc =>
    split at h
    · cases h
    · next hspace =>
      rw [Option.some.injEq] at h
      exact ⟨Bool.not_eq_true _ ▸ hc, not_lt.mp hspace, h.symm⟩

theorem logWriteCheck_eq_some {k : LogState} {e : LogPanic} (h : k.logWriteCheck = some e) :
    e = .tooBig ∨ e = .outsideTrans := by
  rw [logWriteCheck] at h
  split at h
  · exact Or.inl (Option.some.inj h).symm
  · split at h
    · exact Or.inr (Option.some.inj h).symm
    · cases h

theorem endOp_cases (k : LogState) :
    (k.committing = true ∧ k.endOp = ({ k with outstanding := k.outstanding - 1 },
      .error .committing)) ∨
    (k.committing = false ∧ k.outstanding - 1 = 0 ∧
      k.endOp = ({ k with outstanding := k.outstanding - 1, committing := true }, .ok true)) ∨
    (k.committing = false ∧ k.outstanding - 1 ≠ 0 ∧
      k.endOp = ({ k with outstanding := k.outstanding - 1 }, .ok false)) := by
  rw [endOp]
  by_cases hc : k.committing = true
  · exact Or.inl ⟨hc, if_pos hc⟩
  · refine Or.inr ?_
    by_cases ho : k.outstanding - 1 = 0
    · exact Or.inl ⟨Bool.not_eq_true _ ▸ hc, ho, by simp only [if_neg hc, if_pos ho]⟩
    · exact Or.inr ⟨Bool.not_eq_true _ ▸ hc, ho, by simp only [if_neg hc, if_neg ho]⟩

theorem size_installTrans (k : LogState) : k.installTrans.size = k.size :=
  List.foldlRecOn (motive := fun k' : LogState ↦ k'.size = k.size) _ _ rfl fun _ hk _ _ ↦ hk

/-- The block writes `ws`, issued one after the other. -/
def issue (ws : List (BlockNo × Block)) : LogState :=
  { k with
    buf := applyWrites ws k.buf
    disk := applyWrites ws k.disk
    writes := k.writes ++ ws }

theorem bwrite_eq_issue (b : BlockNo) (v : Block) : k.bwrite b v = k.issue [(b, v)] := rfl

theorem issue_nil : k.issue [] = k := by
  rw [issue, applyWrites_nil, applyWrites_nil, List.append_nil]

theorem issue_issue (ws vs : List (BlockNo × Block)) :
    (k.issue ws).issue vs = k.issue (ws ++ vs) := by
  rw [issue, issue, issue, applyWrites_append, applyWrites_append, List.append_assoc]

/-- From `k` to `k'` the blocks `bs` were written to the disk, in this order, and nothing else. -/
def Wrote (k' : LogState) (bs : List BlockNo) : Prop :=
  ∃ ws, k'.writes = k.writes ++ ws ∧ k'.disk = applyWrites ws k.disk ∧ ws.map Prod.fst = bs

theorem wrote_nil {k k' : LogState} (hw : k'.writes = k.writes) (hd : k'.disk = k.disk) :
    k.Wrote k' [] := ⟨[], by rw [hw, List.append_nil], hd, rfl⟩

theorem wrote_bwrite (b : BlockNo) (v : Block) : k.Wrote (k.bwrite b v) [b] :=
  ⟨[(b, v)], rfl, rfl, rfl⟩

variable {k} in
theorem Wrote.trans {k₁ k₂ : LogState} {bs cs : List BlockNo} (h : k.Wrote k₁ bs)
    (h' : k₁.Wrote k₂ cs) : k.Wrote k₂ (bs ++ cs) := by
  obtain ⟨ws, hw, hd, rfl⟩ := h
  obtain ⟨vs, hv, he, rfl⟩ := h'
  refine ⟨ws ++ vs, ?_, ?_, List.map_append⟩
  · rw [hv, hw, List.append_assoc]
  · rw [he, hd, applyWrites_append]

theorem logBlock_congr {k k' : LogState} (h : k'.start = k.start) : k'.logBlock = k.logBlock := by
  funext tail
  rw [logBlock, h, logBlock]

/-- The blocks that `commit()` writes when it installs `W`: those of the log, the header, the home
blocks, and the header once more. -/
def commitBlocks (W : List BlockNo) : List BlockNo :=
  if W = [] then [] else (List.range W.length).map k.logBlock ++ k.start :: (W ++ [k.start])

@[simp] theorem issue_lh (ws : List (BlockNo × Block)) : (k.issue ws).lh = k.lh := rfl

@[simp] theorem issue_logBlock (ws : List (BlockNo × Block)) (i : ℕ) :
    (k.issue ws).logBlock i = k.logBlock i := rfl

end LogState

end OperatingSystems
