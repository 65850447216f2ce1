import OperatingSystems.Lib.Transition

/-!
# Monitors with `sleep` and `wakeup`

Threads that share some data behind one lock. A thread takes the lock, works on the data, may
release the lock and go to sleep on a channel in one step, and wakes all threads that sleep on a
channel. A thread that was woken has to take the lock again. Besides, any thread may be killed at
any time: it is marked, and woken if it sleeps.

The code of the threads is a function that says which instruction comes next. Four rules reduce what
holds in every state of every interleaving to what each instruction does:

* `Outline.step`: a thread has the lock exactly at the places where its code says so; the data
  satisfy an invariant while the lock is free, and an assertion that depends on the place while it
  is held;
* `forall_local_step`: an assertion about each thread that the others do not interfere with;
* `Attended.step`: nobody sleeps on a channel whose condition to go on holds, unless the thread in
  the lock still owes a `wakeup`;
* `Heeding.step`: nobody sleeps who was killed, unless the kill came between test and `sleep`.
-/

namespace OperatingSystems

open Function

inductive Instr (Pc χ D : Type*)
  /-- Outside of the lock: go on at `pc`. -/
  | call (pc : Pc)
  /-- Outside of the lock: change data that the lock does not protect. -/
  | free (d : D) (pc : Pc)
  /-- Take the lock as soon as it is free. -/
  | acquire (pc : Pc)
  /-- In the lock: change the data. -/
  | go (d : D) (pc : Pc)
  /-- In the lock: change the data and wake all threads that sleep on a channel. -/
  | wakeup (c : χ) (d : D) (pc : Pc)
  /-- Release the lock and sleep. -/
  | sleep (c : χ) (pc : Pc)
  /-- Change the data and release the lock. -/
  | release (d : D) (pc : Pc)

namespace Instr

variable {π Pc χ D : Type*}

def next : Instr Pc χ D → Pc
  | call pc | free _ pc | acquire pc | go _ pc | wakeup _ _ pc | sleep _ pc | release _ pc => pc

def data (d : D) : Instr Pc χ D → D
  | call _ | acquire _ | sleep _ _ => d
  | free d' _ | go d' _ | wakeup _ d' _ | release d' _ => d'

/-! What the rules ask of an instruction of a thread that is at `pc` while the data are `d`. -/

/-- It is one for a thread in the lock, or one for a thread outside of it, as `holds` says. -/
def Fits (holds : Pc → Prop) (pc : Pc) : Instr Pc χ D → Prop
  | call pc' | free _ pc' => ¬holds pc ∧ ¬holds pc'
  | acquire pc' => ¬holds pc ∧ holds pc'
  | go _ pc' | wakeup _ _ pc' => holds pc ∧ holds pc'
  | sleep _ pc' | release _ pc' => holds pc ∧ ¬holds pc'

/-- It keeps the invariant `I` of the data while the lock is free, and the assertions `At` while it
is held. -/
def Keeps (I : D → Prop) (At : π → Pc → D → Prop) (p : π) (pc : Pc) (d : D) :
    Instr Pc χ D → Prop
  | call _ => True
  | free d' _ => (I d → I d') ∧ ∀ q pcq, At q pcq d → At q pcq d'
  | acquire pc' => I d → At p pc' d
  | go d' pc' | wakeup _ d' pc' => At p pc d → At p pc' d'
  | sleep _ _ => At p pc d → I d
  | release d' _ => At p pc d → I d'

/-- If somebody sleeps on a channel, which is so for those in `sleeps`, then either the condition
`S` to sleep holds, or the code `Owes` a `wakeup`; all is paid when the lock is released. -/
def Wakes (S : χ → D → Prop) (Owes : Pc → χ → Prop) (pc : Pc) (d : D) (sleeps : χ → Prop) :
    Instr Pc χ D → Prop
  | call _ | acquire _ => True
  | free d' _ => ∀ c, sleeps c → S c d → S c d'
  | go d' pc' => ∀ c, sleeps c → S c d ∨ Owes pc c → S c d' ∨ Owes pc' c
  | wakeup c₀ d' pc' => ∀ c, sleeps c → c ≠ c₀ → S c d ∨ Owes pc c → S c d' ∨ Owes pc' c
  | sleep c₀ _ => S c₀ d ∧ ∀ c, sleeps c → S c d ∨ Owes pc c → S c d
  | release d' _ => ∀ c, sleeps c → S c d ∨ Owes pc c → S c d'

/-- It sleeps only inside of `gap`, which is entered only by a thread that is not killed. -/
def Tests (gap : Pc → Prop) (pc : Pc) (killed : Bool) (i : Instr Pc χ D) : Prop :=
  (∀ c pc', i = sleep c pc' → gap pc) ∧ (gap i.next → gap pc ∨ killed = false)

end Instr

structure Thread (Pc χ : Type*) where
  pc : Pc
  /-- The channel, if the thread sleeps. -/
  chan : Option χ
  killed : Bool

structure Monitor (π Pc χ D : Type*) where
  data : D
  lock : Option π
  thread : π → Thread Pc χ

/-- The code of the threads, which are given some input `X` at each step. Nothing means that the
thread has no step for that input. -/
abbrev MonitorCode (π X Pc χ D : Type*) := π → X → Pc → Bool → D → Option (Instr Pc χ D)

inductive MonitorAct (π X : Type*)
  | go (p : π) (x : X)
  | kill (p : π)
  deriving DecidableEq

namespace Monitor

variable {π X Pc χ D : Type*} {c : χ}

section Threads

variable [DecidableEq π] {m : Monitor π Pc χ D} {p q : π}

def setThread (m : Monitor π Pc χ D) (p : π) (t : Thread Pc χ) : Monitor π Pc χ D :=
  { m with thread := update m.thread p t }

theorem setThread_self (m : Monitor π Pc χ D) (p : π) (t : Thread Pc χ) :
    (m.setThread p t).thread p = t := update_self ..

theorem setThread_of_ne (hq : q ≠ p) (t : Thread Pc χ) :
    (m.setThread p t).thread q = m.thread q := update_of_ne hq ..

def goto (m : Monitor π Pc χ D) (p : π) (pc : Pc) : Monitor π Pc χ D :=
  m.setThread p { m.thread p with pc := pc }

theorem goto_pc_self (m : Monitor π Pc χ D) (p : π) (pc : Pc) :
    ((m.goto p pc).thread p).pc = pc := by
  rw [goto, setThread_self]

theorem goto_of_ne (hq : q ≠ p) (pc : Pc) : (m.goto p pc).thread q = m.thread q :=
  setThread_of_ne hq _

theorem goto_chan (m : Monitor π Pc χ D) (p q : π) (pc : Pc) :
    ((m.goto p pc).thread q).chan = (m.thread q).chan := by
  by_cases hq : q = p
  · rw [goto, hq, setThread_self]
  · rw [goto_of_ne hq]

theorem goto_killed (m : Monitor π Pc χ D) (p q : π) (pc : Pc) :
    ((m.goto p pc).thread q).killed = (m.thread q).killed := by
  by_cases hq : q = p
  · rw [goto, hq, setThread_self]
  · rw [goto_of_ne hq]

/-- Thread `p` releases the lock and sleeps. -/
def sleep (m : Monitor π Pc χ D) (p : π) (c : χ) (pc : Pc) : Monitor π Pc χ D :=
  { m.setThread p { m.thread p with pc := pc, chan := some c } with lock := none }

theorem sleep_self (m : Monitor π Pc χ D) (p : π) (c : χ) (pc : Pc) :
    (m.sleep p c pc).thread p = { m.thread p with pc := pc, chan := some c } :=
  setThread_self m p _

theorem sleep_of_ne (hq : q ≠ p) (c : χ) (pc : Pc) : (m.sleep p c pc).thread q = m.thread q :=
  setThread_of_ne hq _

/-- Thread `p` is marked, and woken if it sleeps. -/
def kill (m : Monitor π Pc χ D) (p : π) : Monitor π Pc χ D :=
  m.setThread p { m.thread p with chan := none, killed := true }

theorem kill_self (m : Monitor π Pc χ D) (p : π) :
    (m.kill p).thread p = { m.thread p with chan := none, killed := true } :=
  setThread_self m p _

theorem kill_of_ne (hq : q ≠ p) : (m.kill p).thread q = m.thread q := setThread_of_ne hq _

theorem kill_pc (m : Monitor π Pc χ D) (p q : π) :
    ((m.kill p).thread q).pc = (m.thread q).pc := by
  by_cases hq : q = p
  · rw [hq, kill_self]
  · rw [kill_of_ne hq]

theorem chan_of_kill (hc : ((m.kill p).thread q).chan = some c) :
    q ≠ p ∧ (m.thread q).chan = some c := by
  by_cases hq : q = p
  · rw [hq, kill_self] at hc
    exact absurd hc (Option.some_ne_none c).symm
  · rw [kill_of_ne hq] at hc
    exact ⟨hq, hc⟩

end Threads

section Wakeup

variable [DecidableEq χ] {m : Monitor π Pc χ D} {q : π}

/-- All threads that sleep on `c` are woken. -/
def wakeup (m : Monitor π Pc χ D) (c : χ) : Monitor π Pc χ D :=
  { m with thread := fun q ↦
      if (m.thread q).chan = some c then { m.thread q with chan := none } else m.thread q }

theorem wakeup_pc (m : Monitor π Pc χ D) (c : χ) (q : π) :
    ((m.wakeup c).thread q).pc = (m.thread q).pc := by
  rw [wakeup]
  dsimp only
  split <;> rfl

theorem wakeup_killed (m : Monitor π Pc χ D) (c : χ) (q : π) :
    ((m.wakeup c).thread q).killed = (m.thread q).killed := by
  rw [wakeup]
  dsimp only
  split <;> rfl

theorem chan_of_wakeup {c₀ : χ} (h : ((m.wakeup c₀).thread q).chan = some c) :
    (m.thread q).chan = some c ∧ c ≠ c₀ := by
  rw [wakeup] at h
  dsimp only at h
  split at h
  · exact absurd h (Option.some_ne_none c).symm
  · rename_i hne
    refine ⟨h, ?_⟩
    rintro rfl
    exact hne h

end Wakeup

variable [DecidableEq π] [DecidableEq χ]

def exec (m : Monitor π Pc χ D) (p : π) : Instr Pc χ D → Option (Monitor π Pc χ D)
  | .call pc => some (m.goto p pc)
  | .free d pc => some { m.goto p pc with data := d }
  | .acquire pc =>
    match m.lock with
    | none => some { m.goto p pc with lock := some p }
    | some _ => none
  | .go d pc => some { m.goto p pc with data := d }
  | .wakeup c d pc => some { (m.wakeup c).goto p pc with data := d }
  | .sleep c pc => some (m.sleep p c pc)
  | .release d pc => some { m.goto p pc with data := d, lock := none }

variable (code : MonitorCode π X Pc χ D)

def step (m : Monitor π Pc χ D) : MonitorAct π X → Option (Monitor π Pc χ D)
  | .go p x =>
    match (m.thread p).chan with
    | some _ => none
    | none => (code p x (m.thread p).pc (m.thread p).killed m.data).bind (m.exec p)
  | .kill p => some (m.kill p)

variable {code} {m m' : Monitor π Pc χ D} {p q : π} {i : Instr Pc χ D} {a : MonitorAct π X}

theorem step_cases (h : m.step code a = some m') :
    (∃ p, a = .kill p ∧ m' = m.kill p) ∨
    ∃ p x i, a = .go p x ∧ (m.thread p).chan = none ∧
      code p x (m.thread p).pc (m.thread p).killed m.data = some i ∧ m.exec p i = some m' := by
  cases a with
  | kill p => exact .inl ⟨p, rfl, (Option.some.inj h).symm⟩
  | go p x =>
    rw [step] at h
    split at h
    · exact absurd h.symm (Option.some_ne_none _)
    · rename_i hchan
      obtain ⟨i, hi, hexec⟩ := Option.bind_eq_some_iff.mp h
      exact .inr ⟨p, x, i, rfl, hchan, hi, hexec⟩

theorem step_go {x : X} (hchan : (m.thread p).chan = none)
    (hcode : code p x (m.thread p).pc (m.thread p).killed m.data = some i) :
    m.step code (.go p x) = m.exec p i := by
  rw [step, hchan, hcode]
  rfl

/-! ## What an instruction does -/

theorem exec_acquire {pc : Pc} (h : m.exec p (.acquire pc) = some m') :
    m.lock = none ∧ m' = { m.goto p pc with lock := some p } := by
  rw [exec] at h
  split at h
  · rename_i hlock
    exact ⟨hlock, (Option.some.inj h).symm⟩
  · exact absurd h.symm (Option.some_ne_none _)

theorem exec_data (h : m.exec p i = some m') : m'.data = i.data m.data := by
  cases i with
  | acquire pc => rw [(exec_acquire h).2]; rfl
  | _ => rw [← Option.some.inj h]; rfl

theorem exec_pc (h : m.exec p i = some m') : (m'.thread p).pc = i.next := by
  cases i with
  | acquire pc => rw [(exec_acquire h).2]; exact goto_pc_self m p pc
  | wakeup c d pc => rw [← Option.some.inj h]; exact goto_pc_self (m.wakeup c) p pc
  | call pc | free d pc | go d pc | release d pc =>
      rw [← Option.some.inj h]; exact goto_pc_self m p pc
  | sleep c pc =>
    rw [← Option.some.inj h]
    exact congrArg Thread.pc (sleep_self m p c pc)

theorem exec_pc_of_ne (h : m.exec p i = some m') (hq : q ≠ p) :
    (m'.thread q).pc = (m.thread q).pc := by
  cases i with
  | acquire pc => rw [(exec_acquire h).2]; exact congrArg Thread.pc (goto_of_ne hq pc)
  | wakeup c d pc =>
    rw [← Option.some.inj h]
    exact (congrArg Thread.pc (goto_of_ne hq pc)).trans (wakeup_pc m c q)
  | call pc | free d pc | go d pc | release d pc =>
    rw [← Option.some.inj h]
    exact congrArg Thread.pc (goto_of_ne hq pc)
  | sleep c pc =>
    rw [← Option.some.inj h]
    exact congrArg Thread.pc (sleep_of_ne hq c pc)

theorem exec_killed (h : m.exec p i = some m') (q : π) :
    (m'.thread q).killed = (m.thread q).killed := by
  cases i with
  | acquire pc => rw [(exec_acquire h).2]; exact goto_killed m p q pc
  | wakeup c d pc =>
    rw [← Option.some.inj h]
    exact (goto_killed (m.wakeup c) p q pc).trans (wakeup_killed m c q)
  | call pc | free d pc | go d pc | release d pc =>
      rw [← Option.some.inj h]; exact goto_killed m p q pc
  | sleep c pc =>
    rw [← Option.some.inj h]
    by_cases hq : q = p
    · rw [hq, sleep_self]
    · rw [sleep_of_ne hq]

theorem exec_chan (h : m.exec p i = some m') (hc : (m'.thread q).chan = some c) :
    (q = p ∧ ∃ pc, i = .sleep c pc) ∨
      ((m.thread q).chan = some c ∧ ∀ d pc, i ≠ .wakeup c d pc) := by
  cases i with
  | call pc | free d pc | go d pc | release d pc =>
    rw [← Option.some.inj h] at hc
    exact .inr ⟨(goto_chan m p q pc).symm.trans hc, fun _ _ heq ↦ by cases heq⟩
  | acquire pc =>
    rw [(exec_acquire h).2] at hc
    exact .inr ⟨(goto_chan m p q pc).symm.trans hc, fun _ _ heq ↦ by cases heq⟩
  | wakeup c₀ d pc =>
    rw [← Option.some.inj h] at hc
    obtain ⟨hq, hne⟩ := chan_of_wakeup ((goto_chan (m.wakeup c₀) p q pc).symm.trans hc)
    exact .inr ⟨hq, fun d' pc' heq ↦ hne (Instr.wakeup.inj heq).1.symm⟩
  | sleep c₀ pc =>
    rw [← Option.some.inj h] at hc
    by_cases hq : q = p
    · rw [hq, sleep_self] at hc
      obtain rfl : c₀ = c := Option.some.inj hc
      exact .inl ⟨hq, pc, rfl⟩
    · rw [sleep_of_ne hq] at hc
      exact .inr ⟨hc, fun _ _ heq ↦ by cases heq⟩

/-! ## The lock and what it protects -/

/-- The lock is with the thread whose code is inside, no thread inside sleeps, and the data are as
`I` says while the lock is free, and as `At` says for the place of the thread that has it. -/
structure Outline (holds : Pc → Prop) (I : D → Prop) (At : π → Pc → D → Prop)
    (m : Monitor π Pc χ D) : Prop where
  excl : ∀ p, holds (m.thread p).pc ↔ m.lock = some p
  awake : ∀ p, holds (m.thread p).pc → (m.thread p).chan = none
  free : m.lock = none → I m.data
  held : ∀ p, m.lock = some p → At p (m.thread p).pc m.data

section Outline

variable {holds : Pc → Prop} {I : D → Prop} {At : π → Pc → D → Prop}

omit [DecidableEq π] [DecidableEq χ] in
theorem Outline.lock_eq (h : Outline holds I At m) (hp : holds (m.thread p).pc) :
    m.lock = some p := (h.excl p).mp hp

omit [DecidableEq π] [DecidableEq χ] in
theorem Outline.at_pc (h : Outline holds I At m) (p : π)
    (hout : ∀ pc, ¬holds pc → At p pc m.data) : At p (m.thread p).pc m.data := by
  by_cases hp : holds (m.thread p).pc
  · exact h.held p (h.lock_eq hp)
  · exact hout _ hp

omit [DecidableEq π] [DecidableEq χ] in
theorem Outline.of_outside (hlock : m.lock = none) (hout : ∀ p, ¬holds (m.thread p).pc)
    (hI : I m.data) : Outline holds I At m where
  excl p := iff_of_false (hout p) (by rw [hlock]; exact (Option.some_ne_none p).symm)
  awake p hp := absurd hp (hout p)
  free _ := hI
  held p hp := absurd (hp.symm.trans hlock) (Option.some_ne_none p)

theorem exec_lock (h : Outline holds I At m) (hfits : i.Fits holds (m.thread p).pc)
    (hexec : m.exec p i = some m') :
    (holds i.next ↔ m'.lock = some p) ∧ ∀ q, q ≠ p → (m'.lock = some q ↔ m.lock = some q) := by
  have hnot {q : π} (hq : q ≠ p) (hp : holds (m.thread p).pc) : m.lock ≠ some q := fun hlock ↦
    hq (Option.some.inj (hlock.symm.trans (h.lock_eq hp)))
  cases i with
  | call pc | free d pc =>
    rw [← Option.some.inj hexec]
    refine ⟨iff_of_false hfits.2 fun hlock ↦ ?_, fun q _ ↦ Iff.rfl⟩
    exact hfits.1 ((h.excl p).mpr hlock)
  | acquire pc =>
    obtain ⟨hfree, rfl⟩ := exec_acquire hexec
    refine ⟨iff_of_true hfits.2 rfl, fun q hq ↦ ?_⟩
    rw [hfree]
    exact iff_of_false (fun heq ↦ hq (Option.some.inj heq).symm) (Option.some_ne_none q).symm
  | go d pc | wakeup c d pc =>
    rw [← Option.some.inj hexec]
    exact ⟨iff_of_true hfits.2 (h.lock_eq hfits.1), fun q _ ↦ Iff.rfl⟩
  | sleep c pc | release d pc =>
    rw [← Option.some.inj hexec]
    refine ⟨iff_of_false hfits.2 (Option.some_ne_none p).symm, fun q hq ↦ ?_⟩
    exact iff_of_false (Option.some_ne_none q).symm (hnot hq hfits.1)

/-- **The rule for the lock.** -/
theorem Outline.step (h : Outline holds I At m) (hs : m.step code a = some m')
    (hcode : ∀ p x i, a = .go p x →
      code p x (m.thread p).pc (m.thread p).killed m.data = some i →
        i.Fits holds (m.thread p).pc ∧ i.Keeps I At p (m.thread p).pc m.data) :
    Outline holds I At m' := by
  obtain ⟨p, rfl, rfl⟩ | ⟨p, x, i, rfl, hchan, hi, hexec⟩ := step_cases hs
  · refine ⟨fun q ↦ ?_, fun q hq ↦ ?_, h.free, fun q hq ↦ ?_⟩
    · rw [kill_pc]
      exact h.excl q
    · rw [kill_pc] at hq
      have hawake := h.awake q hq
      by_contra hne
      obtain ⟨c, hc⟩ := Option.ne_none_iff_exists'.mp hne
      rw [(chan_of_kill hc).2] at hawake
      exact Option.some_ne_none c hawake
    · rw [kill_pc]
      exact h.held q hq
  · obtain ⟨hfits, hkeeps⟩ := hcode p x i rfl hi
    obtain ⟨hself, hothers⟩ := exec_lock h hfits hexec
    refine ⟨fun q ↦ ?_, fun q hq ↦ ?_, fun hfree ↦ ?_, fun q hq ↦ ?_⟩
    · by_cases hqp : q = p
      · rw [hqp, exec_pc hexec]
        exact hself
      · rw [exec_pc_of_ne hexec hqp, hothers q hqp]
        exact h.excl q
    · by_contra hne
      obtain ⟨c, hc⟩ := Option.ne_none_iff_exists'.mp hne
      obtain ⟨rfl, pc, rfl⟩ | ⟨hc, -⟩ := exec_chan hexec hc
      · rw [exec_pc hexec] at hq
        exact hfits.2 hq
      · have hqp : q ≠ p := by
          rintro rfl
          rw [hchan] at hc
          exact Option.some_ne_none c hc.symm
        rw [exec_pc_of_ne hexec hqp] at hq
        rw [h.awake q hq] at hc
        exact Option.some_ne_none c hc.symm
    · rw [exec_data hexec]
      -- the lock is free after the step, so it was before, or it was released by it
      cases i with
      | call pc =>
        rw [← Option.some.inj hexec] at hfree
        exact h.free hfree
      | free d pc =>
        rw [← Option.some.inj hexec] at hfree
        exact hkeeps.1 (h.free hfree)
      | acquire pc =>
        rw [(exec_acquire hexec).2] at hfree
        exact absurd hfree (Option.some_ne_none p)
      | go d pc | wakeup c d pc =>
        rw [← Option.some.inj hexec] at hfree
        exact absurd ((h.lock_eq hfits.1).symm.trans hfree) (Option.some_ne_none p)
      | sleep c pc | release d pc => exact hkeeps (h.held p (h.lock_eq hfits.1))
    · by_cases hqp : q = p
      · subst hqp
        rw [exec_pc hexec, exec_data hexec]
        have hnext := hself.mpr hq
        cases i with
        | call pc | free d pc | sleep c pc | release d pc => exact absurd hnext hfits.2
        | acquire pc => exact hkeeps (h.free (exec_acquire hexec).1)
        | go d pc | wakeup c d pc => exact hkeeps (h.held q (h.lock_eq hfits.1))
      · rw [exec_pc_of_ne hexec hqp, exec_data hexec]
        have hlock := (hothers q hqp).mp hq
        have hout : ¬holds (m.thread p).pc := fun hp ↦
          hqp (Option.some.inj (hlock.symm.trans (h.lock_eq hp)))
        cases i with
        | call pc | acquire pc => exact h.held q hlock
        | free d pc => exact hkeeps.2 q _ (h.held q hlock)
        | go d pc | wakeup c d pc | sleep c pc | release d pc => exact absurd hfits.1 hout

/-! ## Nobody sleeps without a reason -/

variable {S : χ → D → Prop} {Owes : Pc → χ → Prop}

/-- Who sleeps on a channel does so while its condition `S` to sleep holds, or there is a thread in
the lock that owes a `wakeup`. -/
def Attended (S : χ → D → Prop) (Owes : Pc → χ → Prop) (m : Monitor π Pc χ D) : Prop :=
  ∀ q c, (m.thread q).chan = some c →
    S c m.data ∨ ∃ p, m.lock = some p ∧ Owes (m.thread p).pc c

/-- **The rule for sleepers.** -/
theorem Attended.step (h : Attended S Owes m) (ho : Outline holds I At m)
    (hs : m.step code a = some m')
    (hcode : ∀ p x i, a = .go p x →
      code p x (m.thread p).pc (m.thread p).killed m.data = some i →
        i.Fits holds (m.thread p).pc ∧ i.Wakes S Owes (m.thread p).pc m.data
          fun c ↦ ∃ q, (m.thread q).chan = some c) :
    Attended S Owes m' := by
  intro q c hc
  obtain ⟨p, rfl, rfl⟩ | ⟨p, x, i, rfl, hchan, hi, hexec⟩ := step_cases hs
  · refine (h q c (chan_of_kill hc).2).imp_right ?_
    rintro ⟨p', hlock, howes⟩
    exact ⟨p', hlock, by rwa [kill_pc]⟩
  · obtain ⟨hfits, hwakes⟩ := hcode p x i rfl hi
    have hpc := exec_pc hexec
    -- the debt of a thread that is in the lock is one of the thread that takes the step
    have howed (hp : holds (m.thread p).pc) (hq : (m.thread q).chan = some c) :
        S c m.data ∨ Owes (m.thread p).pc c := by
      refine (h q c hq).imp_right ?_
      rintro ⟨p', hlock, howes⟩
      obtain rfl : p = p' := Option.some.inj ((ho.lock_eq hp).symm.trans hlock)
      exact howes
    -- the debt of a thread that is in the lock stays what it is if another one takes the step
    have houtside : (¬holds (m.thread p).pc ∧ m'.lock = m.lock) →
        (∃ p, m.lock = some p ∧ Owes (m.thread p).pc c) →
          ∃ p, m'.lock = some p ∧ Owes (m'.thread p).pc c := by
      rintro ⟨hout, hsame⟩ ⟨p', hlock, howes⟩
      have hne : p' ≠ p := by
        rintro rfl
        exact hout ((ho.excl p').mpr hlock)
      exact ⟨p', hsame.trans hlock, by rwa [exec_pc_of_ne hexec hne]⟩
    obtain ⟨rfl, pc, rfl⟩ | ⟨hq, hne⟩ := exec_chan hexec hc
    · rw [exec_data hexec]
      exact .inl hwakes.1
    · rw [exec_data hexec]
      cases i with
      | call pc =>
        exact (h q c hq).imp_right (houtside ⟨hfits.1, by rw [← Option.some.inj hexec]; rfl⟩)
      | free d pc =>
        refine (h q c hq).imp (hwakes c ⟨q, hq⟩) (houtside ⟨hfits.1, ?_⟩)
        rw [← Option.some.inj hexec]
        rfl
      | acquire pc =>
        refine .inl ((h q c hq).resolve_right ?_)
        rintro ⟨p', hlock, -⟩
        rw [(exec_acquire hexec).1] at hlock
        exact Option.some_ne_none p' hlock.symm
      | go d pc =>
        refine (hwakes c ⟨q, hq⟩ (howed hfits.1 hq)).imp_right fun howes ↦ ⟨p, ?_, by rwa [hpc]⟩
        rw [← Option.some.inj hexec]
        exact ho.lock_eq hfits.1
      | wakeup c₀ d pc =>
        have hcc : c ≠ c₀ := by
          rintro rfl
          exact hne d pc rfl
        refine (hwakes c ⟨q, hq⟩ hcc (howed hfits.1 hq)).imp_right fun howes ↦
          ⟨p, ?_, by rwa [hpc]⟩
        rw [← Option.some.inj hexec]
        exact ho.lock_eq hfits.1
      | sleep c₀ pc => exact .inl (hwakes.2 c ⟨q, hq⟩ (howed hfits.1 hq))
      | release d pc => exact .inl (hwakes c ⟨q, hq⟩ (howed hfits.1 hq))

end Outline

/-! ## Assertions about single threads -/

/-- **The rule for what is said about each thread.** A step has to keep what is said about the
thread that takes it, and about all others. -/
theorem forall_local_step {L : π → Pc → D → Prop} (h : ∀ q, L q (m.thread q).pc m.data)
    (hs : m.step code a = some m')
    (hcode : ∀ p x i, code p x (m.thread p).pc (m.thread p).killed m.data = some i →
      L p i.next (i.data m.data) ∧ ∀ q, q ≠ p → L q (m.thread q).pc (i.data m.data)) (q : π) :
    L q (m'.thread q).pc m'.data := by
  obtain ⟨p, rfl, rfl⟩ | ⟨p, x, i, rfl, -, hi, hexec⟩ := step_cases hs
  · rw [kill_pc]
    exact h q
  · rw [exec_data hexec]
    by_cases hqp : q = p
    · rw [hqp, exec_pc hexec]
      exact (hcode p x i hi).1
    · rw [exec_pc_of_ne hexec hqp]
      exact (hcode p x i hi).2 q hqp

/-! ## Killed threads -/

/-- A thread that sleeps, or is at one of the places `gap` between its test and its `sleep`, is not
killed. -/
def Heeding (gap : Pc → Prop) (m : Monitor π Pc χ D) : Prop :=
  ∀ q, gap (m.thread q).pc ∨ (m.thread q).chan ≠ none → (m.thread q).killed = false

/-- No kill comes to a thread at one of the places `gap`. -/
def KillsOutside (gap : Pc → Prop) (m : Monitor π Pc χ D) (a : MonitorAct π X) : Prop :=
  ∀ p, a = .kill p → ¬gap (m.thread p).pc

/-- **The rule for kills**, if none comes between test and `sleep`. -/
theorem Heeding.step {gap : Pc → Prop} (h : Heeding gap m) (hs : m.step code a = some m')
    (hkill : KillsOutside gap m a)
    (hcode : ∀ p x i, code p x (m.thread p).pc (m.thread p).killed m.data = some i →
      i.Tests gap (m.thread p).pc (m.thread p).killed) : Heeding gap m' := by
  intro q hq
  obtain ⟨p, rfl, rfl⟩ | ⟨p, x, i, rfl, -, hi, hexec⟩ := step_cases hs
  · have hqp : q ≠ p := by
      rintro rfl
      rw [kill_pc] at hq
      refine hq.elim (hkill q rfl) fun hne ↦ ?_
      obtain ⟨c, hc⟩ := Option.ne_none_iff_exists'.mp hne
      exact (chan_of_kill hc).1 rfl
    rw [kill_of_ne hqp]
    rw [kill_pc] at hq
    refine h q (hq.imp_right fun hne ↦ ?_)
    obtain ⟨c, hc⟩ := Option.ne_none_iff_exists'.mp hne
    rw [(chan_of_kill hc).2]
    exact Option.some_ne_none c
  · rw [exec_killed hexec]
    rcases hq with hgap | hne
    · by_cases hqp : q = p
      · subst hqp
        rw [exec_pc hexec] at hgap
        exact ((hcode q x i hi).2 hgap).elim (fun hg ↦ h q (.inl hg)) id
      · rw [exec_pc_of_ne hexec hqp] at hgap
        exact h q (.inl hgap)
    · obtain ⟨c, hc⟩ := Option.ne_none_iff_exists'.mp hne
      obtain ⟨rfl, pc, rfl⟩ | ⟨hc, -⟩ := exec_chan hexec hc
      · exact h q (.inl ((hcode q x _ hi).1 c pc rfl))
      · exact h q (.inr (by rw [hc]; exact Option.some_ne_none c))

end Monitor

end OperatingSystems
