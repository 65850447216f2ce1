import Mathlib.Data.BitVec
import OperatingSystems.Lib.Monitor

/-!
# Sleep-locks

`acquiresleep`, `releasesleep` and `holdingsleep` of `sleeplock.c` as the code of a monitor: the
spin lock `lk->lk` is its lock, and processes sleep on `lk`. The processes have distinct `pid`s, and
only the process that has the sleep-lock calls `releasesleep`; otherwise any process may call any of
the functions at any time, also `acquiresleep` when it has the lock already (it sleeps for good
then).
-/

namespace OperatingSystems

structure SleepLock where
  locked : Bool
  pid : BitVec 32
  deriving DecidableEq

/-- What processes sleep on: `lk`. -/
inductive SleepChan
  | lk
  deriving DecidableEq, Repr

/-- Where a process is; `owner` says whether it has come out of `acquiresleep` and has not called
`releasesleep` since. -/
inductive SleepPc
  /-- Outside; what the last call returned, if it was `holdingsleep`. -/
  | out (owner : Bool) (ret : Option Bool)
  /-- `acquiresleep`, in `acquire(&lk->lk)`. -/
  | acquire (owner : Bool)
  | loop (owner : Bool)
  /-- Before `sleep(lk, &lk->lk)`. -/
  | sleep (owner : Bool)
  /-- In `sleep`, before it takes `lk->lk` again. -/
  | slept (owner : Bool)
  | acquired
  /-- `releasesleep`, in `acquire(&lk->lk)`. -/
  | release
  | unlock
  | released
  /-- `holdingsleep`, in `acquire(&lk->lk)`. -/
  | holding (owner : Bool)
  | test (owner : Bool)
  | tested (owner r : Bool)
  deriving DecidableEq, Repr

inductive SleepInput
  | go
  | acquiresleep
  | releasesleep
  | holdingsleep
  deriving DecidableEq, Repr

namespace SleepPc

/-- Between a completed `acquiresleep` and `releasesleep`. -/
def owns : SleepPc → Bool
  | out o _ | acquire o | loop o | sleep o | slept o | holding o | test o | tested o _ => o
  | acquired | release | unlock => true
  | released => false

def holds : SleepPc → Bool
  | loop _ | sleep _ | acquired | unlock | released | test _ | tested .. => true
  | _ => false

/-- What `holdingsleep` found, or returned. -/
def found : SleepPc → Option Bool
  | out _ ret => ret
  | tested _ r => some r
  | _ => none

end SleepPc

namespace SleepLock

variable {π : Type} (pid : π → BitVec 32)

def code : MonitorCode π SleepInput SleepPc SleepChan SleepLock := fun p x pc _ s ↦
  match x, pc with
  | .acquiresleep, .out o _ => some (.call (.acquire o))
  | .releasesleep, .out true _ => some (.call .release)
  | .holdingsleep, .out o _ => some (.call (.holding o))
  | .go, .acquire o => some (.acquire (.loop o))
  | .go, .loop o =>
    if s.locked then some (.go s (.sleep o)) else some (.go ⟨true, pid p⟩ .acquired)
  | .go, .sleep o => some (.sleep .lk (.slept o))
  | .go, .slept o => some (.acquire (.loop o))
  | .go, .acquired => some (.release s (.out true none))
  | .go, .release => some (.acquire .unlock)
  | .go, .unlock => some (.wakeup .lk ⟨false, 0⟩ .released)
  | .go, .released => some (.release s (.out false none))
  | .go, .holding o => some (.acquire (.test o))
  | .go, .test o => some (.go s (.tested o (s.locked && s.pid == pid p)))
  | .go, .tested o r => some (.release s (.out o (some r)))
  | _, _ => none

/-- What `initsleeplock` makes; nobody has called anything yet. -/
structure Initial (m : Monitor π SleepPc SleepChan SleepLock) : Prop where
  locked : m.data.locked = false
  lock : m.lock = none
  pc : ∀ p, (m.thread p).pc = .out false none
  chan : ∀ p, (m.thread p).chan = none

def init : Monitor π SleepPc SleepChan SleepLock where
  data := ⟨false, 0⟩
  lock := none
  thread := fun _ ↦ ⟨.out false none, none, false⟩

theorem initial_init : Initial (init : Monitor π SleepPc SleepChan SleepLock) :=
  ⟨rfl, rfl, fun _ ↦ rfl, fun _ ↦ rfl⟩

end SleepLock

def sleepLock {π : Type} [DecidableEq π] (pid : π ↪ BitVec 32) :
    Machine (Monitor π SleepPc SleepChan SleepLock) (MonitorAct π SleepInput) where
  init := SleepLock.Initial
  step := Monitor.step (SleepLock.code pid)

namespace SleepLock

variable {π : Type} {pid : π ↪ BitVec 32} {s : SleepLock} {p q : π} {x : SleepInput}
  {pc : SleepPc} {k : Bool} {i : Instr SleepPc SleepChan SleepLock}

inductive Move (pid : π ↪ BitVec 32) (p : π) (s : SleepLock) :
    SleepPc → Instr SleepPc SleepChan SleepLock → Prop
  | callAcquire {o : Bool} {ret : Option Bool} : Move pid p s (.out o ret) (.call (.acquire o))
  | callRelease {ret : Option Bool} : Move pid p s (.out true ret) (.call .release)
  | callHolding {o : Bool} {ret : Option Bool} : Move pid p s (.out o ret) (.call (.holding o))
  | acquire (o : Bool) : Move pid p s (.acquire o) (.acquire (.loop o))
  | wait {o : Bool} (hlocked : s.locked = true) : Move pid p s (.loop o) (.go s (.sleep o))
  | lock {o : Bool} (hlocked : s.locked = false) :
      Move pid p s (.loop o) (.go ⟨true, pid p⟩ .acquired)
  | sleep (o : Bool) : Move pid p s (.sleep o) (.sleep .lk (.slept o))
  | again (o : Bool) : Move pid p s (.slept o) (.acquire (.loop o))
  | acquired : Move pid p s .acquired (.release s (.out true none))
  | release : Move pid p s .release (.acquire .unlock)
  | unlock : Move pid p s .unlock (.wakeup .lk ⟨false, 0⟩ .released)
  | released : Move pid p s .released (.release s (.out false none))
  | holding (o : Bool) : Move pid p s (.holding o) (.acquire (.test o))
  | test (o : Bool) : Move pid p s (.test o) (.go s (.tested o (s.locked && s.pid == pid p)))
  | tested (o r : Bool) : Move pid p s (.tested o r) (.release s (.out o (some r)))

theorem move_of_code (h : code pid p x pc k s = some i) : Move pid p s pc i := by
  unfold code at h
  split at h
  case h_5 =>
    split at h
    · rename_i hlocked
      exact Option.some.inj h ▸ .wait hlocked
    · rename_i hlocked
      exact Option.some.inj h ▸ .lock (Bool.not_eq_true _ ▸ hlocked)
  case h_15 => exact absurd h.symm (Option.some_ne_none _)
  all_goals
    obtain rfl := Option.some.inj h
    constructor

theorem Move.fits (h : Move pid p s pc i) : i.Fits (fun pc ↦ pc.holds = true) pc := by
  cases h <;> simp [Instr.Fits, SleepPc.holds]

/-- A process sleeps only after it found the lock held. -/
def At (pc : SleepPc) (s : SleepLock) : Prop :=
  match pc with
  | .sleep _ => s.locked = true
  | _ => True

theorem Move.keeps (h : Move pid p s pc i) : i.Keeps (fun _ ↦ True) (fun _ ↦ At) p pc s := by
  cases h with
  | wait hlocked => exact fun _ ↦ hlocked
  | callAcquire | callRelease | callHolding => trivial
  | _ => exact fun _ ↦ trivial

theorem Move.wakes (h : Move pid p s pc i) (hat : At pc s) {sleeps : SleepChan → Prop} :
    i.Wakes (fun _ s ↦ s.locked = true) (fun _ _ ↦ False) pc s sleeps := by
  cases h with
  | callAcquire | callRelease | callHolding | acquire | again | release | holding => trivial
  | wait | test => exact fun c _ hc ↦ hc
  | lock => exact fun c _ _ ↦ .inl rfl
  | sleep o => exact ⟨hat, fun c _ hc ↦ hc.resolve_right id⟩
  | acquired | released | tested => exact fun c _ hc ↦ hc.resolve_right id
  | unlock => exact fun c _ hne ↦ absurd rfl hne

/-- A process has the sleep-lock exactly if the fields say so, and that is what `holdingsleep`
finds. -/
def Tells (pid : π ↪ BitVec 32) (p : π) (pc : SleepPc) (s : SleepLock) : Prop :=
  (pc.owns = true ↔ s.locked = true ∧ s.pid = pid p) ∧ ∀ r, pc.found = some r → r = pc.owns

theorem Move.tells (h : Move pid p s pc i) (hs : Tells pid p pc s) :
    Tells pid p i.next (i.data s) := by
  cases h with
  | lock hlocked => exact ⟨iff_of_true rfl ⟨rfl, rfl⟩, fun r hr ↦ (by cases hr)⟩
  | unlock => exact ⟨iff_of_false Bool.false_ne_true fun hc ↦ Bool.false_ne_true hc.1,
      fun r hr ↦ (by cases hr)⟩
  | test o =>
    refine ⟨hs.1, fun r hr ↦ ?_⟩
    obtain rfl := Option.some.inj hr
    rw [Bool.eq_iff_iff, Bool.and_eq_true, beq_iff_eq]
    exact hs.1.symm
  | tested o r => exact hs
  | _ => exact ⟨hs.1, fun r hr ↦ (by cases hr)⟩

theorem Move.tells_of_ne {pcq : SleepPc} (h : Move pid p s pc i) (hp : Tells pid p pc s)
    (hq : q ≠ p)
    (hs : Tells pid q pcq s) : Tells pid q pcq (i.data s) := by
  have hpid : pid p ≠ pid q := fun heq ↦ hq (pid.injective heq).symm
  cases h with
  | lock hlocked =>
    refine ⟨iff_of_false (fun howns ↦ ?_) fun hc ↦ hpid hc.2, hs.2⟩
    rw [(hs.1.mp howns).1] at hlocked
    exact Bool.noConfusion hlocked
  | unlock =>
    refine ⟨iff_of_false (fun howns ↦ ?_) fun hc ↦ Bool.false_ne_true hc.1, hs.2⟩
    exact hpid ((hp.1.mp rfl).2.symm.trans (hs.1.mp howns).2)
  | _ => exact hs

variable {m m' : Monitor π SleepPc SleepChan SleepLock}

structure Inv (pid : π ↪ BitVec 32) (m : Monitor π SleepPc SleepChan SleepLock) : Prop where
  outline : m.Outline (fun pc ↦ pc.holds = true) (fun _ ↦ True) fun _ ↦ At
  attended : m.Attended (fun _ s ↦ s.locked = true) fun _ _ ↦ False
  tells : ∀ p, Tells pid p (m.thread p).pc m.data

theorem Inv.of_initial (h : Initial m) : Inv pid m := by
  refine ⟨.of_outside h.lock (fun p ↦ ?_) trivial, fun q c hc ↦ ?_, fun p ↦ ⟨?_, ?_⟩⟩
  · rw [h.pc]
    exact Bool.false_ne_true
  · rw [h.chan] at hc
    exact absurd hc.symm (Option.some_ne_none c)
  · rw [h.pc, h.locked]
    exact iff_of_false Bool.false_ne_true fun hc ↦ Bool.false_ne_true hc.1
  · rw [h.pc]
    exact fun r hr ↦ (by cases hr)

variable [DecidableEq π]

theorem Inv.step {a : MonitorAct π SleepInput} (h : Inv pid m)
    (hs : m.step (code pid) a = some m') : Inv pid m' := by
  refine ⟨h.outline.step hs fun p x i _ hi ↦ ?_, h.attended.step h.outline hs fun p x i _ hi ↦ ?_,
    Monitor.forall_local_step h.tells hs fun p x i hi ↦ ?_⟩
  · exact ⟨(move_of_code hi).fits, (move_of_code hi).keeps⟩
  · refine ⟨(move_of_code hi).fits, (move_of_code hi).wakes ?_⟩
    refine h.outline.at_pc p fun pc hout ↦ ?_
    cases pc with
    | sleep o => exact absurd rfl hout
    | _ => trivial
  · exact ⟨(move_of_code hi).tells (h.tells p), fun q hq ↦
      (move_of_code hi).tells_of_ne (h.tells p) hq (h.tells q)⟩

/-- **A sleep-lock is held by one process at a time**, `holdingsleep` returns true exactly for it,
and nobody sleeps on a free sleep-lock. -/
theorem sleepLock_exclusive (h : (sleepLock pid).Reachable m) :
    (∀ p q, (m.thread p).pc.owns = true → (m.thread q).pc.owns = true → p = q) ∧
    (∀ p r, (m.thread p).pc.found = some r → (r = true ↔ (m.thread p).pc.owns = true)) ∧
    ∀ p, (m.thread p).chan = some .lk → m.data.locked = true := by
  have hI : Inv pid m := h.invariant (fun _ ↦ .of_initial) fun _ _ _ hI hs ↦ hI.step hs
  refine ⟨fun p q hp hq ↦ ?_, fun p r hr ↦ ?_, fun p hp ↦ ?_⟩
  · have hpid := ((hI.tells p).1.mp hp).2.symm.trans ((hI.tells q).1.mp hq).2
    exact pid.injective hpid
  · rw [(hI.tells p).2 r hr]
  · refine (hI.attended p .lk hp).resolve_right ?_
    rintro ⟨-, -, hfalse⟩
    exact hfalse

/-- One process has the lock, and the other one sleeps. -/
theorem sleepLock_exclusive_two : ∃ m, (sleepLock
    (⟨fun p ↦ BitVec.ofNat 32 p, by decide⟩ : Fin 2 ↪ BitVec 32)).Reachable m ∧
    (m.thread 1).chan = some .lk ∧ (m.thread 0).pc.owns = true ∧
    (m.thread 0).pc.found = some true ∧ m.data.locked = true := by
  obtain ⟨m, hm, hrun⟩ := Machine.exists_reachable_of_run
    (M := sleepLock (⟨fun p ↦ BitVec.ofNat 32 p, by decide⟩ : Fin 2 ↪ BitVec 32))
    ([.go 0 .acquiresleep, .go 0 .go, .go 0 .go, .go 0 .go, .go 1 .acquiresleep, .go 1 .go,
      .go 1 .go, .go 1 .go, .go 0 .holdingsleep, .go 0 .go, .go 0 .go, .go 0 .go])
    (fun m ↦ (m.thread 1).chan = some .lk ∧ (m.thread 0).pc.owns = true ∧
      (m.thread 0).pc.found = some true) initial_init (by decide +kernel)
  obtain ⟨hchan, howns, hfound⟩ := of_decide_eq_true hrun
  exact ⟨m, hm, hchan, howns, hfound, (sleepLock_exclusive hm).2.2 1 hchan⟩

end SleepLock

end OperatingSystems
