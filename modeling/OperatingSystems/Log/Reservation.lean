import Mathlib.Algebra.Order.BigOperators.Group.Finset
import OperatingSystems.Log.Isolation

/-!
# Reservation of log space

`begin_op` admits an operation only if the log would still have room were every admitted operation
to log `MAXOPBLOCKS` blocks. `Reserve` is the invariant behind this test: the header, together with
what the running operations may still add to it, fits into `LOGSIZE` entries. So the header never
outgrows `struct logheader`, although `log_write` makes its tests before it takes the lock. A
process that is not admitted sleeps, and there is always another one that will wake it.

`log_write` itself tests against a smaller bound. With the super block that `mkfs` writes,
`log.size` is `LOGSIZE`, and the test `log.lh.n >= log.size - 1` leaves one entry of the reservation
unusable: it fires when `LOGSIZE - 1` blocks are logged, also for a block that would have been
absorbed.
-/

namespace OperatingSystems

open Function

/-- The super block of `mkfs`: `LOGSIZE` log blocks behind the boot block and the super block. -/
def mkfsSuperblock : Superblock where
  nlog := BitVec.ofNat 32 logSize
  logstart := 2

variable {P : Type*} [DecidableEq P]

/-- The shared log, set up by `initlog` on a disk made by `mkfs`. -/
def mkfsLog (P : Type*) [DecidableEq P] : Machine (GroupLog P) (LogAct P) where
  init g := g.Initial ∧ ∃ d, g.k = LogState.initlog mkfsSuperblock d
  step := GroupLog.step

def LogPc.busy (c : LogPc) : Bool := c.active || c.committer

namespace GroupLog

/-- The caller of `log_write` keeps to its reservation: at most `MAXOPBLOCKS` distinct blocks
between `begin_op` and `end_op`. -/
def Reserved (g : GroupLog P) : LogAct P → Prop
  | .logWrite p b _ => (b :: g.logged p).toFinset.card ≤ maxOpBlocks
  | _ => True

instance (g : GroupLog P) (a : LogAct P) : Decidable (g.Reserved a) :=
  match a with
  | .logWrite p b _ => inferInstanceAs (Decidable ((b :: g.logged p).toFinset.card ≤ maxOpBlocks))
  | .beginOp _ | .grant _ | .wake _ | .absorb _ | .endOp _ | .commit _ => isTrue trivial

variable {g g' : GroupLog P} {p : P} {a : LogAct P}

variable {G : GroupLog P → LogAct P → Prop} {b : BlockNo}

theorem reachable_of_mkfsLog (h : (mkfsLog P).ReachableUnder G g) : (groupCommit P).Reachable g :=
  h.mono (M := mkfsLog P) (N := groupCommit P) (fun _ ↦ And.left) rfl fun _ _ _ ↦ trivial

theorem size_of_step (hs : g.step a = some g') : g'.k.size = g.k.size := by
  cases effect_of_step hs with
  | move _ _ _ hsize => exact hsize
  | _ => rfl

theorem size_eq_logSize (h : (mkfsLog P).ReachableUnder G g) : g.k.size = logSize :=
  h.invariant (I := fun g : GroupLog P ↦ g.k.size = (logSize : ℤ))
    (fun g hg ↦ by
      obtain ⟨-, d, hd⟩ := hg
      rw [hd, LogState.initlog, LogState.recoverFromLog, LogState.writeHead]
      exact LogState.size_installTrans _)
    fun _ _ _ _ hI _ hs ↦ (size_of_step hs).trans hI

/-! ## The header fits -/

/-- How many blocks an admitted operation may still add. -/
def credit (g : GroupLog P) (p : P) : ℕ :=
  if (g.pc p).active then maxOpBlocks - (g.logged p).toFinset.card else 0

/-- The header and what the running operations may still add to it fit into the log. -/
structure Reserve [Fintype P] (g : GroupLog P) : Prop where
  bound : g.k.lh.length + ∑ p, g.credit p ≤ logSize
  logging : ∀ p b, g.pc p = .logging b → (b :: g.logged p).toFinset.card ≤ maxOpBlocks

section Reserve

variable [Fintype P]

omit [DecidableEq P] in
theorem reserve_of_initial (h : g.Initial) : g.Reserve where
  bound := by
    have hzero : ∀ p, g.credit p = 0 := fun p ↦ by rw [credit, h.pc p]; rfl
    rw [h.lh, Finset.sum_eq_zero fun p _ ↦ hzero p]
    exact Nat.zero_le _
  logging p b hp := by
    rw [h.pc p] at hp
    cases hp

/-- At `c`, process `p` has no more credit than where it is, and a call of `log_write` is
reserved. -/
def Within (g : GroupLog P) (p : P) (c : LogPc) : Prop :=
  (c.active → (g.pc p).active) ∧
    ∀ b, c = .logging b → (b :: g.logged p).toFinset.card ≤ maxOpBlocks

omit [DecidableEq P] [Fintype P] in
theorem Within.awake {c : LogPc} (h : g.Within p c) : g.Within p c.awake := by
  cases c with
  | sleeping => exact ⟨nofun, nofun⟩
  | _ => exact h

theorem Reserve.within_update (h : g.Reserve) {c : LogPc} (hc : g.Within p c) (q : P) :
    g.Within q (update g.pc p c q) :=
  (forall_update_iff g.pc g.Within).mpr ⟨hc, fun q _ ↦ ⟨id, h.logging q⟩⟩ q

omit [DecidableEq P] in
theorem Reserve.of_within (h : g.Reserve) (hlogged : g'.logged = g.logged)
    (hlh : g'.k.lh.length ≤ g.k.lh.length) (hpc : ∀ q, g.Within q (g'.pc q)) : g'.Reserve := by
  refine ⟨(Nat.add_le_add hlh (Finset.sum_le_sum fun q _ ↦ ?_)).trans h.bound, fun q b hq ↦ ?_⟩
  · rw [credit, credit, hlogged]
    split_ifs with hq hq'
    · exact le_rfl
    · exact absurd ((hpc q).1 hq) hq'
    all_goals exact Nat.zero_le _
  · rw [hlogged]
    exact (hpc q).2 b hq

theorem Reserve.logging_update (h : g.Reserve) (hpc : g'.pc = update g.pc p .inOp)
    (hlogged : ∀ q, q ≠ p → g'.logged q = g.logged q) (q : P) (b : BlockNo)
    (hq : g'.pc q = .logging b) : (b :: g'.logged q).toFinset.card ≤ maxOpBlocks := by
  by_cases hqp : q = p
  · rw [hqp, hpc, update_self] at hq
    cases hq
  · rw [hpc, update_of_ne hqp] at hq
    exact hlogged q hqp ▸ h.logging q b hq

theorem Reserve.grant (h : g.Reserve) (hg : g'.Control) (hlh : g'.k.lh = g.k.lh)
    (ho : g'.k.outstanding = g.k.outstanding + 1) (hpc : g'.pc = update g.pc p .inOp)
    (hlogged : g'.logged = update g.logged p [])
    (hspace : (g.k.lh.length : ℤ) + (g.k.outstanding + 1) * maxOpBlocks ≤ logSize) :
    g'.Reserve := by
  refine ⟨?_, h.logging_update hpc fun q hq ↦ by rw [hlogged, update_of_ne hq]⟩
  have hcredits : ∑ q, g'.credit q ≤ (Finset.univ.filter fun q ↦ (g'.pc q).active).card
      * maxOpBlocks := by
    refine (Finset.sum_filter ..).symm.trans_le (Finset.sum_le_card_nsmul _ _ _ fun q _ ↦ ?_)
    exact Nat.sub_le _ _
  rw [← hlh, ← ho, hg.outstanding] at hspace
  exact (Nat.add_le_add_left hcredits _).trans (by exact_mod_cast hspace)

theorem Reserve.absorb (h : g.Reserve) (hh : g.History) (hp : g.pc p = .logging b)
    (hnone : ∀ q, ¬(g.pc q).cleared) : (g.absorb p b).Reserve := by
  have hact : (g.pc p).active := by rw [hp]; rfl
  have hself : (g.absorb p b).credit p = maxOpBlocks - (b :: g.logged p).toFinset.card := by
    rw [credit, show (g.absorb p b).pc p = .inOp from update_self .., if_pos (by rfl),
      show (g.absorb p b).logged p = b :: g.logged p from update_self ..]
  have hother : ∀ q, q ≠ p → (g.absorb p b).credit q = g.credit q := fun q hq ↦ by
    simp only [credit, GroupLog.absorb, GroupLog.goto, update_of_ne hq]
  have hsum := sum_add_of_eq_off p hother
  have hcredit : g.credit p = maxOpBlocks - (g.logged p).toFinset.card := if_pos hact
  have hroom := h.logging p b hp
  have hbound := h.bound
  have hlh : (g.absorb p b).k.lh = if b ∈ g.k.lh then g.k.lh else g.k.lh ++ [b] :=
    congrArg LogState.lh (LogState.logWriteLocked_eq g.k b)
  refine ⟨?_, h.logging_update rfl fun q hq ↦ update_of_ne hq ..⟩
  by_cases hb : b ∈ g.k.lh
  · have hmono : (g.logged p).toFinset.card ≤ (b :: g.logged p).toFinset.card :=
      Finset.card_le_card (by rw [List.toFinset_cons]; exact Finset.subset_insert _ _)
    rw [hlh, if_pos hb]
    omega
  · have hnew : b ∉ (g.logged p).toFinset := fun hmem ↦
      hb ((hh.holds hnone b).mpr (Or.inr ⟨p, hact, List.mem_toFinset.mp hmem⟩))
    rw [List.toFinset_cons, Finset.card_insert_of_notMem hnew] at hself hroom
    rw [hlh, if_neg hb, List.length_append, List.length_singleton]
    omega

theorem Reserve.step (h : g.Reserve) (hg : g.Control) (hh : g.History) (hres : g.Reserved a)
    (hs : g.step a = some g') : g'.Reserve := by
  cases effect_of_step hs with
  | move hlh _ _ _ hact _ _ _ _ hchecked =>
    refine h.of_within rfl (congrArg List.length hlh).le
      (h.within_update ⟨fun hc ↦ hact ▸ hc, fun b hb ↦ ?_⟩)
    obtain ⟨v, rfl⟩ := hchecked b hb
    exact hres
  | grant _ _ hspace => exact h.grant (hg.step hs) rfl rfl rfl rfl hspace
  | absorb hp =>
    exact h.absorb hh hp fun q hq ↦
      hg.exclusive q _ (LogPc.committer_of_cleared hq) (by rw [hp]; rfl)
  | endPanic | endLast | skip | install =>
    exact h.of_within rfl le_rfl (h.within_update ⟨nofun, nofun⟩)
  | clear => exact h.of_within rfl (Nat.zero_le _) (h.within_update ⟨nofun, nofun⟩)
  | @endOp p | @finish p =>
    exact h.of_within rfl le_rfl
      fun q ↦ (h.within_update (p := p) (c := .idle) ⟨nofun, nofun⟩ q).awake

end Reserve

/-- **The reservation is sufficient for the header.** As long as every operation keeps to
`MAXOPBLOCKS` distinct blocks, the header with the credit of the running operations has at most
`LOGSIZE` entries: `log.lh.block` is never indexed past its end. -/
theorem reserve_of_reachableUnder [Fintype P] (h : (groupCommit P).ReachableUnder Reserved g) :
    g.Reserve :=
  h.invariant (fun _ ↦ reserve_of_initial) fun _ _ _ hr hI hres hs ↦
    hI.step (control_of_reachable hr.reachable) (history_of_reachable hr.reachable) hres hs

/-- Two operations have each logged a block. -/
theorem reserve_of_reachableUnder_two_ops :
    ∃ g : GroupLog (Fin 2), g.k.lh = [70, 71] ∧ g.Reserve := by
  obtain ⟨g, hg, hlh⟩ :=
    Machine.exists_reachableUnder_of_run (M := groupCommit (Fin 2)) (G := Reserved)
    [.beginOp 0, .grant 0, .beginOp 1, .grant 1, .logWrite 0 70 fun _ ↦ 1, .absorb 0,
      .logWrite 1 71 fun _ ↦ 2, .absorb 1]
    (fun g ↦ g.k.lh == [70, 71]) (initial_start ⟨30, 2⟩) (by decide)
  exact ⟨g, beq_iff_eq.mp hlh, reserve_of_reachableUnder hg⟩

/-! ## Waiting for room -/

section Waiting

variable [Fintype P]

def AtRest (g : GroupLog P) : Prop := ∀ p, (g.pc p).busy = false

def Rested (g : GroupLog P) : Prop := g.AtRest → g.k.lh = [] ∧ ∀ p, g.pc p ≠ .sleeping

omit [DecidableEq P] in
theorem Control.outstanding_eq_zero (h : g.Control) (hrest : g.AtRest) : g.k.outstanding = 0 := by
  rw [h.outstanding, Finset.filter_false_of_mem fun p _ ↦
    Bool.eq_false_iff.mp (Bool.or_eq_false_iff.mp (hrest p)).1]
  rfl

omit [DecidableEq P] in
theorem Control.beginOp_ne_none (h : g.Control) (hrest : g.AtRest) (hlh : g.k.lh = []) :
    g.k.beginOp ≠ none := by
  have hcom : ¬g.k.committing = true := fun hcom ↦ by
    obtain ⟨p, hp⟩ := h.committing.mp hcom
    exact Bool.eq_false_iff.mp (Bool.or_eq_false_iff.mp (hrest p)).2 hp
  rw [LogState.beginOp, if_neg hcom, hlh, h.outstanding_eq_zero hrest, if_neg (by decide)]
  exact Option.some_ne_none _

theorem Control.ne_sleeping_of_step (h : g.Control) (hrest : g.AtRest) (hlh : g.k.lh = [])
    (hawake : ∀ p, g.pc p ≠ .sleeping) (hs : g.step a = some g') (q : P) : g'.pc q ≠ .sleeping := by
  have hidle : ∀ {p c}, g.pc p = c → c.busy = false := fun hp ↦ hp ▸ hrest _
  have hgoto : ∀ p c, c ≠ .sleeping → ∀ q, update g.pc p c q ≠ .sleeping := fun p c hc ↦
    forall_update (· ≠ LogPc.sleeping) hc fun q _ ↦ hawake q
  cases a with
  | beginOp p | wake p =>
    obtain ⟨-, hs⟩ := Option.ite_none_right_eq_some.mp hs
    cases hs
    exact hgoto p .entering (by decide) q
  | grant p =>
    obtain ⟨-, hs⟩ := Option.ite_none_right_eq_some.mp hs
    cases hs
    rw [GroupLog.grant]
    split
    · next hk => exact absurd hk (h.beginOp_ne_none hrest hlh)
    · exact hgoto p .inOp (by decide) q
  | logWrite p | endOp p => cases hidle (Option.ite_none_right_eq_some.mp hs).1
  | absorb p =>
    rw [GroupLog.step] at hs
    split at hs
    · next b hp => cases hidle hp
    · cases hs
  | commit p =>
    rw [GroupLog.step] at hs
    cases hp : g.pc p with
    | idle | entering | sleeping | inOp | logging | panicked =>
      rw [hp] at hs
      cases hs
    | _ => cases hidle hp

theorem Rested.step (h : g.Rested) (hc : g.Control) (hh : g.History) (hs : g.step a = some g') :
    g'.Rested := by
  intro hrest
  have hself : ∀ {p c}, g'.pc p = c → c.busy = false := fun hp ↦ hp ▸ hrest _
  cases effect_of_step hs with
  | @move _ p c _ hlh _ _ _ hact hcom =>
    have hbusy : c.busy = (g.pc p).busy := congrArg₂ or hact hcom
    have hbefore : g.AtRest := fun q ↦ (view_update LogPc.busy hbusy q).symm.trans (hrest q)
    obtain ⟨hnil, hawake⟩ := h hbefore
    exact ⟨hlh.trans hnil, hc.ne_sleeping_of_step hbefore hnil hawake hs⟩
  | grant | absorb | endLast | skip | install | clear => cases hself (update_self ..)
  | endPanic hp hcom =>
    rw [hc.committing_eq_false (by rw [hp]; rfl)] at hcom
    cases hcom
  | @endOp p hp =>
    -- the last operation to end commits
    have hnone := hc.committing_eq_false (p := p) (by rw [hp]; rfl)
    have hlast : g.k.outstanding - 1 = 0 := (hc.step hs).outstanding_eq_zero hrest
    rw [GroupLog.step, if_pos hp, GroupLog.endOp] at hs
    rcases LogState.endOp_cases g.k with ⟨hcom, -⟩ | ⟨-, -, he⟩ | ⟨-, hne, -⟩
    · rw [hnone] at hcom
      cases hcom
    · rw [he] at hs
      have hcom : true = g.k.committing := congrArg (·.k.committing) (Option.some.inj hs)
      rw [hnone] at hcom
      cases hcom
    · exact absurd hlast hne
  | @finish p hp =>
    exact ⟨(hh.cleared p (by rw [hp]; rfl)).1, fun q ↦ by
      change (update g.pc p .idle q).awake ≠ .sleeping
      cases update g.pc p .idle q <;> rintro ⟨⟩⟩

theorem rested_of_reachable (h : (groupCommit P).Reachable g) : g.Rested :=
  Machine.ReachableUnder.invariant (M := groupCommit P)
    (fun g hg _ ↦ ⟨hg.lh, fun p ↦ by rw [hg.pc p]; nofun⟩)
    (fun _ _ _ hr hI _ hs ↦ hI.step (control_of_reachable hr) (history_of_reachable hr) hs) h

/-- **No process is left asleep in `begin_op`.** In every run, while a process waits for room,
another one is in an operation or commits, and the end of that wakes it. Otherwise the log is empty,
and `begin_op` admits an operation. -/
theorem begin_op_wakes (h : (groupCommit P).Reachable g) :
    (∀ p, g.pc p = .sleeping → ∃ q, (g.pc q).busy) ∧
    (g.AtRest → g.k.lh = [] ∧ g.k.beginOp ≠ none) := by
  have hrested := rested_of_reachable h
  refine ⟨fun p hp ↦ ?_, fun hrest ↦ ?_⟩
  · by_contra hnone
    exact (hrested fun q ↦ Bool.eq_false_iff.mpr fun hq ↦ hnone ⟨q, hq⟩).2 p hp
  · have hlh := (hrested hrest).1
    exact ⟨hlh, (control_of_reachable h).beginOp_ne_none hrest hlh⟩

/-- Three operations are admitted, the fourth one waits. -/
theorem begin_op_wakes_fourth :
    ∃ g : GroupLog (Fin 4), g.pc 3 = .sleeping ∧ ∃ q, (g.pc q).busy := by
  obtain ⟨g, hg, hp⟩ := Machine.exists_reachable_of_run (M := groupCommit (Fin 4))
    [.beginOp 0, .grant 0, .beginOp 1, .grant 1, .beginOp 2, .grant 2, .beginOp 3, .grant 3]
    (fun g ↦ decide (g.pc 3 = .sleeping)) (initial_start ⟨30, 2⟩) (by decide)
  exact ⟨g, of_decide_eq_true hp, (begin_op_wakes hg).1 3 (of_decide_eq_true hp)⟩

end Waiting

/-! ## The panic -/

/-- The distinct blocks passed to `log_write` since the last commit. -/
def loggedBlocks [Fintype P] (g : GroupLog P) : Finset BlockNo :=
  ((g.ended.filter fun r ↦ r.ended = g.epoch).flatMap OpRecord.blocks).toFinset ∪
    (Finset.univ.filter fun p ↦ (g.pc p).active).biUnion fun p ↦ (g.logged p).toFinset

omit [DecidableEq P] in
theorem mem_loggedBlocks [Fintype P] : b ∈ g.loggedBlocks ↔ g.Logged b := by
  simp only [loggedBlocks, Logged, Finset.mem_union, List.mem_toFinset, List.mem_flatMap,
    List.mem_filter, decide_eq_true_eq, Finset.mem_biUnion, Finset.mem_filter, Finset.mem_univ,
    true_and, and_assoc]

omit [DecidableEq P] in
theorem length_lh_eq_card [Fintype P] (hg : g.Control) (hh : g.History) (hp : (g.pc p).active) :
    g.k.lh.length = g.loggedBlocks.card := by
  have hnone : ∀ q, ¬(g.pc q).cleared := fun q hq ↦
    hg.exclusive q p (LogPc.committer_of_cleared hq) hp
  rw [← List.toFinset_card_of_nodup hh.nodup]
  congr 1
  ext b
  rw [List.mem_toFinset, mem_loggedBlocks, hh.holds hnone b]

/-- The call of `log_write` comes while fewer than `LOGSIZE - 1` distinct blocks are logged. -/
def Room [Fintype P] (g : GroupLog P) : LogAct P → Prop
  | .logWrite _ _ _ => g.loggedBlocks.card < logSize - 1
  | _ => True

instance [Fintype P] (g : GroupLog P) (a : LogAct P) : Decidable (g.Room a) :=
  match a with
  | .logWrite _ _ _ => inferInstanceAs (Decidable (g.loggedBlocks.card < logSize - 1))
  | .beginOp _ | .grant _ | .wake _ | .absorb _ | .endOp _ | .commit _ => isTrue trivial

theorem logWriteCheck_eq_tooBig_iff {k : LogState} (hsize : k.size = logSize) :
    k.logWriteCheck = some .tooBig ↔ logSize - 1 ≤ k.lh.length := by
  have hbound : ((k.lh.length : ℤ) ≥ logSize ∨ (k.lh.length : ℤ) ≥ k.size - 1)
      ↔ logSize - 1 ≤ k.lh.length := by
    rw [hsize, logSize, maxOpBlocks]
    omega
  rw [← hbound, LogState.logWriteCheck]
  split
  · next hbig => exact ⟨fun _ ↦ hbig, fun _ ↦ rfl⟩
  · next hbig =>
    refine ⟨fun h ↦ ?_, fun h ↦ absurd h hbig⟩
    split at h <;> cases h

theorem ne_tooBig_of_step [Fintype P] (hc : g.Control) (hh : g.History)
    (hsize : g.k.size = logSize) (hroom : g.Room a) (h : ∀ p, g.pc p ≠ .panicked .tooBig)
    (hs : g.step a = some g') : ∀ p, g'.pc p ≠ .panicked .tooBig := by
  have hgoto : ∀ p c, c ≠ .panicked .tooBig →
      ∀ q, update g.pc p c q ≠ .panicked .tooBig := fun p c hne ↦
    forall_update (· ≠ LogPc.panicked .tooBig) hne fun q _ ↦ h q
  have hwake : ∀ c : LogPc, c ≠ .panicked .tooBig → c.awake ≠ .panicked .tooBig := fun c hne ↦ by
    cases c <;> first | exact hne | nofun
  cases effect_of_step hs with
  | @move _ p c k' _ _ _ _ _ _ _ _ _ _ htooBig =>
    refine hgoto p c fun hbig ↦ ?_
    obtain ⟨b, v, rfl, hp, hcheck⟩ := htooBig hbig
    rw [logWriteCheck_eq_tooBig_iff hsize,
      length_lh_eq_card hc hh (p := p) (by rw [hp]; rfl)] at hcheck
    exact absurd hroom (not_lt.mpr hcheck)
  | grant | absorb | endPanic | endLast | skip | install | clear => exact hgoto _ _ nofun
  | endOp | finish => exact fun q ↦ hwake _ (hgoto _ .idle nofun q)

theorem pc_logWrite {v : Block} :
    (g.logWrite p b v).pc p = g.k.logWriteCheck.elim (.logging b) .panicked := by
  rw [GroupLog.logWrite]
  cases g.k.logWriteCheck with
  | none => exact update_self ..
  | some e => exact update_self ..

end GroupLog

/-- **When the reservation is enough for `log_write`.** Let every operation keep to its reservation.
If moreover each call of `log_write` comes while fewer than `LOGSIZE - 1` distinct blocks have been
logged since the last commit, no process ever panics with "too big a transaction"; and a call that
comes later than that does panic. -/
theorem logWrite_tooBig_iff_no_room (P : Type*) [DecidableEq P] [Fintype P] :
    (∀ g, (mkfsLog P).ReachableUnder (fun g a ↦ g.Reserved a ∧ g.Room a) g →
      ∀ p, g.pc p ≠ .panicked .tooBig) ∧
    ∀ g p b v, (mkfsLog P).ReachableUnder GroupLog.Reserved g → g.pc p = .inOp →
      ((∃ g', g.step (.logWrite p b v) = some g' ∧ g'.pc p = .panicked .tooBig) ↔
        ¬g.Room (.logWrite p b v)) := by
  refine ⟨fun g h ↦ ?_, fun g p b v h hp ↦ ?_⟩
  · exact h.invariant (I := fun g : GroupLog P ↦ ∀ p, g.pc p ≠ .panicked .tooBig)
      (fun g hg p ↦ by rw [hg.1.pc p]; nofun) fun g a g' hr hI hG hs ↦
        GroupLog.ne_tooBig_of_step
          (GroupLog.control_of_reachable (GroupLog.reachable_of_mkfsLog hr))
          (GroupLog.history_of_reachable (GroupLog.reachable_of_mkfsLog hr))
          (GroupLog.size_eq_logSize hr) hG.2 hI hs
  · have hc := GroupLog.control_of_reachable (GroupLog.reachable_of_mkfsLog h)
    have hh := GroupLog.history_of_reachable (GroupLog.reachable_of_mkfsLog h)
    have hcheck := GroupLog.logWriteCheck_eq_tooBig_iff (GroupLog.size_eq_logSize h)
    rw [GroupLog.length_lh_eq_card hc hh (p := p) (by rw [hp]; rfl)] at hcheck
    rw [show (¬g.Room (.logWrite p b v)) ↔ logSize - 1 ≤ g.loggedBlocks.card from not_lt, ← hcheck]
    have hstep : g.step (.logWrite p b v) = some (g.logWrite p b v) := if_pos hp
    rw [hstep]
    constructor
    · rintro ⟨g', hg', hpc⟩
      cases hg'
      rw [GroupLog.pc_logWrite] at hpc
      cases he : g.k.logWriteCheck with
      | none =>
        rw [he] at hpc
        cases hpc
      | some e =>
        rw [he] at hpc
        cases hpc
        rfl
    · intro hbig
      exact ⟨_, rfl, by rw [GroupLog.pc_logWrite, hbig]; rfl⟩

private theorem init_mkfsLog (P : Type*) [DecidableEq P] : (mkfsLog P).init
    { GroupLog.start P mkfsSuperblock with k := LogState.initlog mkfsSuperblock fun _ _ ↦ 0 } :=
  ⟨⟨rfl, rfl, rfl, fun _ ↦ rfl, rfl, rfl, rfl, rfl⟩, _, rfl⟩

/-- Two operations that each log a block keep to the condition. -/
theorem logWrite_tooBig_iff_no_room_two_ops : ∃ g : GroupLog (Fin 2),
    (mkfsLog (Fin 2)).ReachableUnder (fun g a ↦ g.Reserved a ∧ g.Room a) g ∧
    g.k.lh = [70, 71] ∧ ∀ p, g.pc p ≠ .panicked .tooBig := by
  obtain ⟨g, hg, hlh⟩ := Machine.exists_reachableUnder_of_run
    (G := fun (g : GroupLog (Fin 2)) a ↦ g.Reserved a ∧ g.Room a)
    [.beginOp 0, .grant 0, .beginOp 1, .grant 1, .logWrite 0 70 fun _ ↦ 1, .absorb 0,
      .logWrite 1 71 fun _ ↦ 2, .absorb 1]
    (fun g ↦ g.k.lh == [70, 71]) (init_mkfsLog (Fin 2)) (by decide)
  exact ⟨g, hg, beq_iff_eq.mp hlh, (logWrite_tooBig_iff_no_room (Fin 2)).1 g hg⟩

/-- Process `p` logs the ten blocks from `b` on. -/
private def logTen (p : Fin 3) (b : BlockNo) : List (LogAct (Fin 3)) :=
  (List.range maxOpBlocks).flatMap fun i ↦
    [.logWrite p (b + BitVec.ofNat 32 i) fun _ ↦ 0, .absorb p]

/-- Three operations are admitted side by side and each logs ten blocks of its own: the thirtieth
call of `log_write` panics, although every operation kept to its reservation. -/
theorem three_full_ops_tooBig : ∃ g : GroupLog (Fin 3),
    (mkfsLog (Fin 3)).ReachableUnder GroupLog.Reserved g ∧ g.pc 2 = .panicked .tooBig := by
  obtain ⟨g, hg, hpc⟩ := Machine.exists_reachableUnder_of_run (G := GroupLog.Reserved)
    ([.beginOp 0, .beginOp 1, .beginOp 2, .grant 0, .grant 1, .grant 2] ++ logTen 0 100 ++
      logTen 1 200 ++ (logTen 2 300).dropLast)
    (fun g ↦ decide (g.pc 2 = .panicked .tooBig)) (init_mkfsLog (Fin 3)) (by decide)
  exact ⟨g, hg, of_decide_eq_true hpc⟩

end OperatingSystems
