import OperatingSystems.Lib.Count
import OperatingSystems.Lib.Transition
import OperatingSystems.Log.Basic

/-!
# Group commit

Any number of processes run file system operations between `begin_op` and `end_op`, and the last one
to end commits what all of them logged. The critical sections under `log.lock` are single steps.
Everything the code does without the lock is cut at the points where another process can come in
between: the two tests of `log_write` run before its critical section, and `commit()` runs block by
block after the lock was dropped, reading `log.lh` again on each turn of its loops.

Three components of the state only record history. `began` and `logged` belong to the operation a
process is executing, `ended` keeps the operations that have ended, and `commits` the home blocks
that each finished commit wrote. Time is counted in finished commits, the `epoch`.
-/

namespace OperatingSystems

open Function

inductive LogPc
  | idle
  /-- In `begin_op`, about to take the lock and test. -/
  | entering
  /-- Asleep on `&log` in `begin_op`. -/
  | sleeping
  /-- Between `begin_op` and `end_op`. -/
  | inOp
  /-- Past the tests of `log_write`, about to take the lock. -/
  | logging (b : BlockNo)
  /-- `end_op` has set `committing`; about to call `commit()`. -/
  | commitStart
  | writeLog (tail : ℕ)
  | writeHead
  | install (tail : ℕ)
  | clear
  | eraseHead
  /-- `commit()` has returned; about to take the lock again. -/
  | endCommit
  | panicked (e : LogPanic)
  deriving DecidableEq, Repr

namespace LogPc

/-- The process was admitted by `begin_op` and its operation has not ended. -/
def active : LogPc → Bool
  | inOp | logging _ | panicked .tooBig | panicked .outsideTrans => true
  | _ => false

def committer : LogPc → Bool
  | commitStart | writeLog _ | writeHead | install _ | clear | eraseHead | endCommit => true
  | _ => false

/-- `commit()` has set `log.lh.n = 0` and has not yet been left. -/
def cleared : LogPc → Bool
  | eraseHead | endCommit => true
  | _ => false

/-- `wakeup(&log)` -/
def awake : LogPc → LogPc
  | sleeping => entering
  | c => c

@[simp] theorem active_awake (c : LogPc) : c.awake.active = c.active := by cases c <;> rfl

@[simp] theorem committer_awake (c : LogPc) : c.awake.committer = c.committer := by
  cases c <;> rfl

@[simp] theorem cleared_awake (c : LogPc) : c.awake.cleared = c.cleared := by cases c <;> rfl

theorem committer_of_cleared {c : LogPc} (h : c.cleared) : c.committer := by
  cases c <;> first | rfl | cases h

end LogPc

/-- A finished operation: the epochs in which it began and ended, and the blocks it logged. -/
structure OpRecord where
  began : ℕ
  ended : ℕ
  blocks : List BlockNo
  deriving DecidableEq, Repr

/-- The log, the processes that use it, and the history. -/
structure GroupLog (P : Type*) where
  k : LogState
  pc : P → LogPc
  epoch : ℕ
  began : P → ℕ
  logged : P → List BlockNo
  ended : List OpRecord
  /-- The home blocks that the commit in progress has written. -/
  installed : List BlockNo
  commits : List (List BlockNo)

inductive LogAct (P : Type*)
  | beginOp (p : P)
  /-- One pass through the loop of `begin_op`. -/
  | grant (p : P)
  /-- Be woken while asleep, by a `wakeup(&log)` or by `kill`. -/
  | wake (p : P)
  /-- Change the buffer of block `b` to `v` and call `log_write` on it. -/
  | logWrite (p : P) (b : BlockNo) (v : Block)
  /-- The critical section of `log_write`. -/
  | absorb (p : P)
  | endOp (p : P)
  /-- The next step of `commit()`, or the second critical section of `end_op`. -/
  | commit (p : P)

namespace GroupLog

variable {P : Type*} [DecidableEq P] (g : GroupLog P)

def goto (p : P) (c : LogPc) : GroupLog P := { g with pc := update g.pc p c }

def wakeup : GroupLog P := { g with pc := fun q ↦ (g.pc q).awake }

def grant (p : P) : GroupLog P :=
  match g.k.beginOp with
  | none => g.goto p .sleeping
  | some k' =>
    { g.goto p .inOp with
      k := k'
      began := update g.began p g.epoch
      logged := update g.logged p [] }

/-- The unlocked part of `log_write`, after the caller's change to the buffer. -/
def logWrite (p : P) (b : BlockNo) (v : Block) : GroupLog P :=
  match g.k.logWriteCheck with
  | some e => { g.goto p (.panicked e) with k := g.k.modify b v }
  | none => { g.goto p (.logging b) with k := g.k.modify b v }

def absorb (p : P) (b : BlockNo) : GroupLog P :=
  { g.goto p .inOp with
    k := g.k.logWriteLocked b
    logged := update g.logged p (b :: g.logged p) }

/-- The record that `end_op` leaves of the operation of `p`. -/
def record (p : P) : OpRecord := ⟨g.began p, g.epoch, g.logged p⟩

def endOp (p : P) : GroupLog P :=
  match g.k.endOp with
  | (k', .error e) => { g.goto p (.panicked e) with k := k' }
  | (k', .ok true) => { g.goto p .commitStart with k := k', ended := g.record p :: g.ended }
  | (k', .ok false) =>
    { (g.goto p .idle).wakeup with k := k', ended := g.record p :: g.ended }

def finish (p : P) : GroupLog P :=
  { (g.goto p .idle).wakeup with
    k := g.k.endCommit
    epoch := g.epoch + 1
    installed := []
    commits := g.commits ++ [g.installed] }

def commitStep (p : P) : LogPc → Option (GroupLog P)
  | .commitStart => some (g.goto p (if g.k.lh.length > 0 then .writeLog 0 else .endCommit))
  | .writeLog tail =>
    if tail < g.k.lh.length then
      some { g.goto p (.writeLog (tail + 1)) with k := g.k.writeLogBlock tail }
    else some (g.goto p .writeHead)
  | .writeHead => some { g.goto p (.install 0) with k := g.k.writeHead }
  | .install tail =>
    if tail < g.k.lh.length then
      some { g.goto p (.install (tail + 1)) with
        k := g.k.installBlock tail
        installed := g.installed ++ [g.k.lh.getD tail 0] }
    else some (g.goto p .clear)
  | .clear => some { g.goto p .eraseHead with k := g.k.clear }
  | .eraseHead => some { g.goto p .endCommit with k := g.k.writeHead }
  | .endCommit => some (g.finish p)
  | _ => none

def step : LogAct P → Option (GroupLog P)
  | .beginOp p => if g.pc p = .idle then some (g.goto p .entering) else none
  | .grant p => if g.pc p = .entering then some (g.grant p) else none
  | .wake p => if g.pc p = .sleeping then some (g.goto p .entering) else none
  | .logWrite p b v => if g.pc p = .inOp then some (g.logWrite p b v) else none
  | .absorb p =>
    match g.pc p with
    | .logging b => some (g.absorb p b)
    | _ => none
  | .endOp p => if g.pc p = .inOp then some (g.endOp p) else none
  | .commit p => g.commitStep p (g.pc p)

def InstallOk (g : GroupLog P) : LogPc → Prop
  | .commitStart => g.installed = []
  | .writeLog tail => g.installed = [] ∧ g.k.lh ≠ [] ∧ tail ≤ g.k.lh.length
  | .writeHead => g.installed = [] ∧ g.k.lh ≠ []
  | .install tail => g.installed = g.k.lh.take tail ∧ g.k.lh ≠ []
  | .clear => g.installed = g.k.lh ∧ g.k.lh ≠ []
  | .eraseHead => g.installed ≠ []
  | _ => True

/-- The blocks that the commit in progress has written to the disk when the committer is at a given
place. -/
def underway (g : GroupLog P) : LogPc → List BlockNo
  | .writeLog tail => (List.range tail).map g.k.logBlock
  | .writeHead => (List.range g.k.lh.length).map g.k.logBlock
  | .install _ | .clear => (List.range g.k.lh.length).map g.k.logBlock ++ g.k.start :: g.installed
  | .eraseHead => (List.range g.installed.length).map g.k.logBlock ++ g.k.start :: g.installed
  | .endCommit => g.k.commitBlocks g.installed
  | _ => []

/-- What a step amounts to. Most of them only move one process along; those that admit, log, end,
install or clear something are listed one by one. -/
inductive Effect : LogAct P → GroupLog P → Prop
  | move {a : LogAct P} {p : P} {c : LogPc} {k' : LogState} (lh : k'.lh = g.k.lh)
      (outstanding : k'.outstanding = g.k.outstanding) (committing : k'.committing = g.k.committing)
      (size : k'.size = g.k.size) (active : c.active = (g.pc p).active)
      (committer : c.committer = (g.pc p).committer) (cleared : c.cleared = (g.pc p).cleared)
      (installs : g.InstallOk (g.pc p) → g.InstallOk c) (noPanic : c ≠ .panicked .committing)
      (checked : ∀ b, c = .logging b → ∃ v, a = .logWrite p b v)
      (tooBig : c = .panicked .tooBig → ∃ b v, a = .logWrite p b v ∧ g.pc p = .inOp ∧
        g.k.logWriteCheck = some .tooBig)
      (start : k'.start = g.k.start) (wrote : g.InstallOk (g.pc p) → ∃ bs, g.k.Wrote k' bs ∧
        g.underway c = g.underway (g.pc p) ++ bs) :
      Effect a { g.goto p c with k := k' }
  | grant {p : P} (hp : g.pc p = .entering) (committing : g.k.committing = false)
      (space : (g.k.lh.length : ℤ) + (g.k.outstanding + 1) * maxOpBlocks ≤ logSize) :
      Effect (.grant p) { g.goto p .inOp with
        k := { g.k with outstanding := g.k.outstanding + 1 }
        began := update g.began p g.epoch
        logged := update g.logged p [] }
  | absorb {p : P} {b : BlockNo} (hp : g.pc p = .logging b) : Effect (.absorb p) (g.absorb p b)
  | endPanic {p : P} (hp : g.pc p = .inOp) (committing : g.k.committing = true) :
      Effect (.endOp p) { g.goto p (.panicked .committing) with
        k := { g.k with outstanding := g.k.outstanding - 1 } }
  | endOp {p : P} (hp : g.pc p = .inOp) :
      Effect (.endOp p) (wakeup { g.goto p .idle with
        k := { g.k with outstanding := g.k.outstanding - 1 }
        ended := g.record p :: g.ended })
  | endLast {p : P} (hp : g.pc p = .inOp) (last : g.k.outstanding - 1 = 0) :
      Effect (.endOp p) { g.goto p .commitStart with
        k := { g.k with outstanding := g.k.outstanding - 1, committing := true }
        ended := g.record p :: g.ended }
  | skip {p : P} (hp : g.pc p = .commitStart) (empty : g.k.lh = []) :
      Effect (.commit p) (g.goto p .endCommit)
  | install {p : P} {tail : ℕ} (hp : g.pc p = .install tail) (lt : tail < g.k.lh.length) :
      Effect (.commit p) { g.goto p (.install (tail + 1)) with
        k := g.k.installBlock tail
        installed := g.installed ++ [g.k.lh.getD tail 0] }
  | clear {p : P} (hp : g.pc p = .clear) :
      Effect (.commit p) { g.goto p .eraseHead with k := g.k.clear }
  | finish {p : P} (hp : g.pc p = .endCommit) : Effect (.commit p) (wakeup { g.goto p .idle with
      k := g.k.endCommit
      epoch := g.epoch + 1
      installed := []
      commits := g.commits ++ [g.installed] })

section Effect

variable {g} {g' : GroupLog P} {p : P} {c : LogPc} {a : LogAct P}

private theorem Effect.of_goto (k' : LogState) (hk : k'.lh = g.k.lh)
    (ho : k'.outstanding = g.k.outstanding) (hc : k'.committing = g.k.committing)
    (hsize : k'.size = g.k.size) (hstart : k'.start = g.k.start) {c₀ : LogPc} (hp : g.pc p = c₀)
    (hact : c.active = c₀.active) (hcom : c.committer = c₀.committer)
    (hclr : c.cleared = c₀.cleared) (hlog : ∀ b, c ≠ .logging b) (hpanic : ∀ e, c ≠ .panicked e)
    (hins : g.InstallOk c₀ → g.InstallOk c)
    (hw : g.InstallOk c₀ → ∃ bs, g.k.Wrote k' bs ∧ g.underway c = g.underway c₀ ++ bs) :
    g.Effect a { g.goto p c with k := k' } :=
  .move hk ho hc hsize (hp ▸ hact) (hp ▸ hcom) (hp ▸ hclr) (hp ▸ hins) (hpanic _)
    (fun b hb ↦ absurd hb (hlog b)) (fun hb ↦ absurd hb (hpanic _)) hstart (hp ▸ hw)

private theorem effect_commitStep (hs : g.commitStep p (g.pc p) = some g') :
    g.Effect (.commit p) g' := by
  cases hp : g.pc p with
  | idle | entering | sleeping | inOp | logging b | panicked e =>
    rw [hp] at hs
    cases hs
  | commitStart =>
    rw [hp] at hs
    cases hs
    split
    · next hlen =>
      refine .of_goto g.k rfl rfl rfl rfl rfl hp rfl rfl rfl nofun nofun (fun h ↦ ?_) fun _ ↦ ?_
      · exact ⟨h, List.length_pos_iff.mp hlen, Nat.zero_le _⟩
      · exact ⟨[], LogState.wrote_nil rfl rfl, rfl⟩
    · next hlen => exact .skip hp (List.length_eq_zero_iff.mp (by omega))
  | writeLog tail =>
    rw [hp, commitStep] at hs
    split at hs <;> cases hs
    · next hlt =>
      refine .of_goto _ rfl rfl rfl rfl rfl hp rfl rfl rfl nofun nofun
        (fun h ↦ ⟨h.1, h.2.1, hlt⟩) fun _ ↦ ⟨_, g.k.wrote_bwrite _ _, ?_⟩
      rw [underway, underway, List.range_succ, List.map_append]
      rfl
    · next hge =>
      refine .of_goto g.k rfl rfl rfl rfl rfl hp rfl rfl rfl nofun nofun (fun h ↦ ⟨h.1, h.2.1⟩)
        fun h ↦ ⟨[], LogState.wrote_nil rfl rfl, ?_⟩
      rw [underway, underway, List.append_nil, Nat.le_antisymm h.2.2 (Nat.not_lt.mp hge)]
  | writeHead =>
    rw [hp] at hs
    cases hs
    refine .of_goto _ rfl rfl rfl rfl rfl hp rfl rfl rfl nofun nofun id
      fun h ↦ ⟨_, g.k.wrote_bwrite _ _, ?_⟩
    rw [underway, underway, h.1]
  | install tail =>
    rw [hp, commitStep] at hs
    split at hs <;> cases hs
    · next hlt => exact .install hp hlt
    · next hge =>
      refine .of_goto g.k rfl rfl rfl rfl rfl hp rfl rfl rfl nofun nofun (fun h ↦ ⟨?_, h.2⟩)
        fun _ ↦ ⟨[], LogState.wrote_nil rfl rfl, (List.append_nil _).symm⟩
      exact h.1.trans (List.take_of_length_le (by omega))
  | clear =>
    rw [hp] at hs
    cases hs
    exact .clear hp
  | eraseHead =>
    rw [hp] at hs
    cases hs
    refine .of_goto _ rfl rfl rfl rfl rfl hp rfl rfl rfl nofun nofun (fun _ ↦ trivial)
      fun h ↦ ⟨_, g.k.wrote_bwrite _ _, ?_⟩
    rw [underway, underway, LogState.commitBlocks, if_neg h, List.append_assoc]
    rfl
  | endCommit =>
    rw [hp] at hs
    cases hs
    exact .finish hp

theorem effect_of_step (hs : g.step a = some g') : g.Effect a g' := by
  cases a with
  | beginOp p | wake p =>
    obtain ⟨hp, hs⟩ := Option.ite_none_right_eq_some.mp hs
    cases hs
    exact .of_goto g.k rfl rfl rfl rfl rfl hp rfl rfl rfl nofun nofun id fun _ ↦
      ⟨[], LogState.wrote_nil rfl rfl, rfl⟩
  | grant p =>
    obtain ⟨hp, hs⟩ := Option.ite_none_right_eq_some.mp hs
    cases hs
    rw [GroupLog.grant]
    split
    · exact .of_goto g.k rfl rfl rfl rfl rfl hp rfl rfl rfl nofun nofun id fun _ ↦
        ⟨[], LogState.wrote_nil rfl rfl, rfl⟩
    · next k' hk =>
      obtain ⟨hc, hspace, rfl⟩ := LogState.beginOp_eq_some hk
      exact .grant hp hc hspace
  | logWrite p b v =>
    obtain ⟨hp, hs⟩ := Option.ite_none_right_eq_some.mp hs
    cases hs
    have hw : g.underway (g.pc p) = [] := by
      rw [hp]
      rfl
    have hnone : g.k.Wrote (g.k.modify b v) [] := LogState.wrote_nil rfl rfl
    rw [GroupLog.logWrite]
    split
    · next e he =>
      rcases LogState.logWriteCheck_eq_some he with rfl | rfl
      · exact .move rfl rfl rfl rfl (by rw [hp]; rfl) (by rw [hp]; rfl) (by rw [hp]; rfl)
          (fun _ ↦ trivial) nofun nofun (fun _ ↦ ⟨b, v, rfl, hp, he⟩) rfl
          fun _ ↦ ⟨[], hnone, by rw [hw]; rfl⟩
      · exact .move rfl rfl rfl rfl (by rw [hp]; rfl) (by rw [hp]; rfl) (by rw [hp]; rfl)
          (fun _ ↦ trivial) nofun nofun nofun rfl fun _ ↦ ⟨[], hnone, by rw [hw]; rfl⟩
    · exact .move rfl rfl rfl rfl (by rw [hp]; rfl) (by rw [hp]; rfl) (by rw [hp]; rfl)
        (fun _ ↦ trivial) nofun (fun c hc ↦ ⟨v, by cases hc; rfl⟩) nofun rfl
        fun _ ↦ ⟨[], hnone, by rw [hw]; rfl⟩
  | absorb p =>
    rw [GroupLog.step] at hs
    split at hs
    · next b hp =>
      cases hs
      exact .absorb hp
    · cases hs
  | endOp p =>
    obtain ⟨hp, hs⟩ := Option.ite_none_right_eq_some.mp hs
    cases hs
    rw [GroupLog.endOp]
    rcases LogState.endOp_cases g.k with ⟨hc, he⟩ | ⟨-, ho, he⟩ | ⟨-, -, he⟩
    · rw [he]
      exact .endPanic hp hc
    · rw [he]
      exact .endLast hp ho
    · rw [he]
      exact .endOp hp
  | commit p => exact effect_commitStep hs

end Effect

structure Initial : Prop where
  lh : g.k.lh = []
  outstanding : g.k.outstanding = 0
  committing : g.k.committing = false
  pc : ∀ p, g.pc p = .idle
  epoch : g.epoch = 0
  ended : g.ended = []
  installed : g.installed = []
  commits : g.commits = []

end GroupLog

def groupCommit (P : Type*) [DecidableEq P] : Machine (GroupLog P) (LogAct P) where
  init := GroupLog.Initial
  step := GroupLog.step

end OperatingSystems
