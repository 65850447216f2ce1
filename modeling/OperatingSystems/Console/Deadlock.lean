import Mathlib.Data.Fintype.Basic
import OperatingSystems.Console.Locks
import OperatingSystems.Lib.Deadlock

/-!
# `cps` against the console

`cps` holds `ptable.lock` while each of its lines takes `cons.lock`. `consoleintr` and `consoleread`
hold `cons.lock` while `wakeup` and `sleep` take `ptable.lock`. Two CPUs that do both at once are in
a deadlock, and the machine gets there.

There is no other way to get there. As long as no CPU that holds `cons.lock` starts to wait for
`ptable.lock` while another one is in `cps` with a line to print, and no CPU enters `cps` while
another one waits in this way, there is no deadlock in any state of the run.
-/

namespace OperatingSystems

open Function

/-- In `wakeup` or `sleep`, waiting for `ptable.lock` with `cons.lock` held. -/
def Cpu.waiter (pc : Cpu) : Bool := pc.waits = some .ptable && pc.holds .cons

namespace Console

variable {κ : Type} [DecidableEq κ] {s s' : Console κ} {c d : κ} {a : ConsoleAct} {pc : Cpu}
  {l : Lock} {S : Finset κ}

/-! ## Both ways of nesting -/

/-- In `cps` with a line still to print. -/
def inCps (s : Console κ) : Cpu → Bool
  | .cpsScan _ k => (List.range (nproc + 1)).any fun k' ↦ k ≤ k' && s.prints k'
  | .cpsLineAcquire _ _ => true
  | _ => false

/-- CPU `c` holds `cons.lock` and comes to `wakeup` or `sleep` now: a character completes the line,
or a reader that is not killed finds no line. -/
def startsWait (s : Console κ) (c : κ) (a : ConsoleAct) : Bool :=
  match s.cpu c, a with
  | .intrLoop _ _, .getc (some ch) => (s.input.put ch).2
  | .readLoop j n _, .go => n ≠ 0 && s.input.r = s.input.w && !(s.slots j).killed
  | _, _ => false

/-- CPU `c` is at the beginning of `cps` and `ptable.lock` is free. -/
def startsCps (s : Console κ) (c : κ) : Bool :=
  match s.cpu c with
  | .cpsAcquire _ => (s.lock .ptable).isNone
  | _ => false

/-! ## What a step does to the locks -/

/-- A lock is left alone, or taken by CPU `c`, or given back. -/
def LockMove (s s' : Console κ) (c : κ) (pc : Cpu) (l : Lock) : Prop :=
  (s'.lock l = s.lock l ∧ pc.holds l = (s.cpu c).holds l) ∨
  (s.lock l = none ∧ s'.lock l = some c ∧ pc.holds l = true) ∨
  ((s.cpu c).holds l = true ∧ s'.lock l = none ∧ pc.holds l = false)

/-- A step that takes CPU `c` to `pc`. -/
structure Effect (s s' : Console κ) (c : κ) (a : ConsoleAct) (pc : Cpu) : Prop where
  cpu : s'.cpu = update s.cpu c pc
  lock : ∀ l, LockMove s s' c pc l
  /-- The table is changed under `ptable.lock`. -/
  slots : s'.slots = s.slots ∨ (s.cpu c).holds .ptable = true ∨ s.lock .ptable = none
  waiter : pc.waiter = true → s.startsWait c a = true
  inCps : s'.inCps pc = true →
    s.inCps (s.cpu c) = true ∨ s.startsCps c = true ∨ (s.cpu c).holds .cons = true

omit [DecidableEq κ] in
theorem inCps_congr (h : s'.slots = s.slots) : s'.inCps pc = s.inCps pc := by
  have hprints : s'.prints = s.prints := by
    funext k
    cases k with
    | zero => rfl
    | succ i => rw [prints, prints, slot?, slot?, h]
  cases pc with
  | cpsScan j k => rw [inCps, inCps, hprints]
  | _ => rfl

section Effects

variable {t : Console κ} {l : Lock} {pc₀ : Cpu}

theorem Effect.of_goto (hcpu : t.cpu = s.cpu) (hlock : t.lock = s.lock)
    (hslots : t.slots = s.slots ∨ (s.cpu c).holds .ptable = true ∨ s.lock .ptable = none)
    (hp : pc.holds .ptable = (s.cpu c).holds .ptable)
    (hc : pc.holds .cons = (s.cpu c).holds .cons) (hw : pc.waiter = true → s.startsWait c a = true)
    (hi : t.inCps pc = true →
      s.inCps (s.cpu c) = true ∨ s.startsCps c = true ∨ (s.cpu c).holds .cons = true) :
    Effect s (t.goto c pc) c a pc where
  cpu := by rw [← hcpu]; rfl
  lock l := Or.inl ⟨by rw [← hlock]; rfl, by cases l; exacts [hp, hc]⟩
  slots := hslots
  waiter := hw
  inCps h := hi (inCps_congr rfl ▸ h)

theorem free_of_acquire (h : s.acquire c l pc = some s') : s.lock l = none := by
  rw [acquire] at h
  split at h
  · cases h
  · assumption

theorem Effect.of_acquire (h : s.acquire c l pc = some s') (hl : pc.holds l = true)
    (hrest : pc.holds l.other = (s.cpu c).holds l.other) (hw : pc.waiter = false)
    (hi : s.inCps pc = true → s.startsCps c = true) : Effect s s' c a pc := by
  rw [acquire] at h
  split at h
  · cases h
  · next hfree =>
    cases h
    refine ⟨rfl, fun l' ↦ ?_, Or.inl rfl, fun h ↦ ?_, fun h ↦ ?_⟩
    · by_cases hne : l' = l
      · subst hne
        exact Or.inr (Or.inl ⟨hfree, update_self .., hl⟩)
      · exact Or.inl ⟨update_of_ne hne .., Lock.eq_other hne ▸ hrest⟩
    · rw [hw] at h
      cases h
    · exact Or.inr (Or.inl (hi (inCps_congr rfl ▸ h)))

theorem Effect.of_release (hcpu : t.cpu = s.cpu) (hlock : t.lock = s.lock)
    (hslots : t.slots = s.slots ∨ (s.cpu c).holds .ptable = true) (hl : (s.cpu c).holds l = true)
    (hl' : pc.holds l = false) (hrest : pc.holds l.other = (s.cpu c).holds l.other)
    (hw : pc.waiter = false) (hi : t.inCps pc = true → (s.cpu c).holds .cons = true) :
    Effect s (t.release c l pc) c a pc where
  cpu := by rw [← hcpu]; rfl
  lock l' := by
    by_cases hne : l' = l
    · subst hne
      exact Or.inr (Or.inr ⟨hl, update_self .., hl'⟩)
    · refine Or.inl ⟨?_, Lock.eq_other hne ▸ hrest⟩
      rw [← hlock]
      exact update_of_ne hne ..
  slots := hslots.imp_right Or.inl
  waiter h := absurd h (Bool.eq_false_iff.mp hw)
  inCps h := Or.inr (Or.inr (hi (inCps_congr rfl ▸ h)))

/-- Neither in `cps` nor one that waits with `cons.lock` held. -/
def plain (pc : Cpu) : Bool :=
  match pc with
  | .cpsScan .. | .cpsLineAcquire .. | .sleepAcquire .. | .wakeupAcquire .. => false
  | _ => true

theorem waiter_of_plain (h : plain pc = true) : pc.waiter = false := by
  cases pc <;> first | rfl | cases h

omit [DecidableEq κ] in
theorem inCps_of_plain (h : plain pc = true) : s.inCps pc = false := by
  cases pc <;> first | rfl | cases h

theorem Effect.goto_plain (hpc : s.cpu c = pc₀) (hcpu : t.cpu = s.cpu) (hlock : t.lock = s.lock)
    (hslots : t.slots = s.slots ∨ pc₀.holds .ptable = true)
    (hp : pc.holds .ptable = pc₀.holds .ptable) (hc : pc.holds .cons = pc₀.holds .cons)
    (hplain : plain pc = true) : Effect s (t.goto c pc) c a pc := by
  subst hpc
  exact .of_goto hcpu hlock (hslots.imp_right Or.inl) hp hc
    (fun h ↦ absurd h (Bool.eq_false_iff.mp (waiter_of_plain hplain)))
    fun h ↦ absurd h (Bool.eq_false_iff.mp (inCps_of_plain hplain))

theorem Effect.acquire_plain (hpc : s.cpu c = pc₀) (h : s.acquire c l pc = some s')
    (hl : pc.holds l = true) (hrest : pc.holds l.other = pc₀.holds l.other)
    (hplain : plain pc = true) : Effect s s' c a pc := by
  subst hpc
  exact .of_acquire h hl hrest (waiter_of_plain hplain)
    fun h ↦ absurd h (Bool.eq_false_iff.mp (inCps_of_plain hplain))

theorem Effect.release_plain (hpc : s.cpu c = pc₀) (hcpu : t.cpu = s.cpu) (hlock : t.lock = s.lock)
    (hslots : t.slots = s.slots ∨ pc₀.holds .ptable = true) (hl : pc₀.holds l = true)
    (hl' : pc.holds l = false) (hrest : pc.holds l.other = pc₀.holds l.other)
    (hplain : plain pc = true) : Effect s (t.release c l pc) c a pc := by
  subst hpc
  exact .of_release hcpu hlock hslots hl hl' hrest (waiter_of_plain hplain)
    fun h ↦ absurd h (Bool.eq_false_iff.mp (inCps_of_plain hplain))

end Effects

theorem plain_iret (b : Interrupted) : plain (.iret b) = true := by
  rcases b with - | ⟨j, e⟩ <;> rfl

theorem holds_iret (b : Interrupted) (l : Lock) : (Cpu.iret b).holds l = false := by
  rcases b with - | ⟨j, e⟩ <;> cases l <;> rfl

omit [DecidableEq κ] in
theorem inCps_scan {j : Fin nproc} {k : ℕ} (hk : k ≤ nproc)
    (h : s.prints k = true ∨ s.inCps (.cpsScan j (k + 1)) = true) :
    s.inCps (.cpsScan j k) = true := by
  rw [inCps, List.any_eq_true]
  rcases h with h | h
  · exact ⟨k, List.mem_range.mpr (by omega), by simp [h]⟩
  · obtain ⟨k', hmem, hk'⟩ := List.any_eq_true.mp h
    simp only [Bool.and_eq_true, decide_eq_true_eq] at hk' ⊢
    exact ⟨k', hmem, by omega, hk'.2⟩

theorem effect_of_go (h : s.go c = some s') : ∃ pc, Effect s s' c .go pc := by
  rw [go] at h
  cases hpc : s.cpu c with
  | idle =>
    simp only [hpc] at h
    cases h
    exact ⟨_, .goto_plain hpc rfl rfl (Or.inl rfl) rfl rfl rfl⟩
  | schedAcquire | tableAcquire j | sleepAcquire j n target | wakeupAcquire d b
  | printAcquire j | readAcquire j n target | intrAcquire b | dumpAcquire i b
  | cpsLineAcquire j k =>
    simp only [hpc] at h
    exact ⟨_, .acquire_plain hpc h rfl rfl rfl⟩
  | cpsAcquire j =>
    simp only [hpc] at h
    exact ⟨_, .of_acquire h rfl (by rw [hpc]; rfl) rfl fun _ ↦ by
      rw [startsCps, hpc, free_of_acquire h]
      rfl⟩
  | schedScan i =>
    simp only [hpc] at h
    split at h
    · split at h
      · cases h
        exact ⟨_, .goto_plain hpc rfl rfl (Or.inr rfl) rfl rfl rfl⟩
      · cases h
        exact ⟨_, .goto_plain hpc rfl rfl (Or.inl rfl) rfl rfl rfl⟩
    · cases h
      exact ⟨_, .release_plain hpc rfl rfl (Or.inl rfl) rfl rfl rfl rfl⟩
  | resume j r =>
    cases r <;> simp only [hpc] at h <;> cases h <;>
      exact ⟨_, .release_plain hpc rfl rfl (Or.inr rfl) rfl rfl rfl rfl⟩
  | proc j e =>
    cases e <;> simp only [hpc] at h <;> cases h <;>
      exact ⟨_, .goto_plain hpc rfl rfl (Or.inl rfl) rfl rfl rfl⟩
  | yieldAcquire j e =>
    simp only [hpc] at h
    obtain ⟨t, ht, rfl⟩ := Option.map_eq_some_iff.mp h
    have heff : Effect s t c .go (.schedScan (j + 1)) := .acquire_plain hpc ht rfl rfl rfl
    exact ⟨_, heff.cpu, heff.lock, Or.inr (Or.inr (free_of_acquire ht)), heff.waiter, nofun⟩
  | printHeld j =>
    simp only [hpc] at h
    cases h
    exact ⟨_, .release_plain hpc rfl rfl (Or.inl rfl) rfl rfl rfl rfl⟩
  | cpsScan j k =>
    simp only [hpc] at h
    split at h
    · next hk =>
      split at h
      · next hprints =>
        cases h
        refine ⟨_, .of_goto rfl rfl (Or.inl rfl) (by rw [hpc]; rfl) (by rw [hpc]; rfl) nofun ?_⟩
        exact fun _ ↦ Or.inl (hpc ▸ inCps_scan hk (Or.inl hprints))
      · cases h
        refine ⟨_, .of_goto rfl rfl (Or.inl rfl) (by rw [hpc]; rfl) (by rw [hpc]; rfl) nofun ?_⟩
        exact fun hi ↦ Or.inl (hpc ▸ inCps_scan hk (Or.inr hi))
    · cases h
      exact ⟨_, .release_plain hpc rfl rfl (Or.inl rfl) rfl rfl rfl rfl⟩
  | cpsLine j k =>
    simp only [hpc] at h
    cases h
    exact ⟨_, .of_release rfl rfl (Or.inl rfl) (by rw [hpc]; rfl) rfl (by rw [hpc]; rfl) rfl
      fun _ ↦ by rw [hpc]; rfl⟩
  | readLoop j n target =>
    simp only [hpc] at h
    split at h
    · cases h
      exact ⟨_, .release_plain hpc rfl rfl (Or.inl rfl) rfl rfl rfl rfl⟩
    · next hn =>
      split at h
      · next hempty =>
        split at h
        · cases h
          exact ⟨_, .release_plain hpc rfl rfl (Or.inl rfl) rfl rfl rfl rfl⟩
        · next hkilled =>
          cases h
          refine ⟨_, .of_goto rfl rfl (Or.inl rfl) (by rw [hpc]; rfl) (by rw [hpc]; rfl) ?_ nofun⟩
          exact fun _ ↦ by simp [startsWait, hpc, hn, hempty, hkilled]
      · split at h
        · cases h
          exact ⟨_, .goto_plain hpc rfl rfl (Or.inl rfl) rfl rfl rfl⟩
        · cases h
          exact ⟨_, .release_plain hpc rfl rfl (Or.inl rfl) rfl rfl rfl rfl⟩
  | sleepHeld j n target | wakeupHeld d b =>
    simp only [hpc] at h
    cases h
    exact ⟨_, .release_plain hpc rfl rfl (Or.inr rfl) rfl rfl rfl rfl⟩
  | dump i b =>
    simp only [hpc] at h
    split at h
    · cases h
      exact ⟨_, .goto_plain hpc rfl rfl (Or.inl rfl) (holds_iret b _) (holds_iret b _)
        (plain_iret b)⟩
    · split at h
      · cases h
        exact ⟨_, .goto_plain hpc rfl rfl (Or.inl rfl) rfl rfl rfl⟩
      · cases h
        exact ⟨_, .goto_plain hpc rfl rfl (Or.inl rfl) rfl rfl rfl⟩
  | tableHeld j | intrLoop d b | dumpHeld i b =>
    simp only [hpc] at h
    cases h

theorem effect_of_step (h : s.step (c, a) = some s') : ∃ pc, Effect s s' c a pc := by
  cases a with
  | go => exact effect_of_go h
  | call r =>
    simp only [step] at h
    split at h
    · next j hpc =>
      cases h
      exact ⟨_, .goto_plain hpc rfl rfl (Or.inl rfl) rfl rfl rfl⟩
    · cases h
  | timer =>
    simp only [step] at h
    split at h
    · next j e hpc =>
      cases h
      exact ⟨_, .goto_plain hpc rfl rfl (Or.inl rfl) rfl rfl rfl⟩
    · cases h
  | keyboard =>
    simp only [step] at h
    split at h
    · next hpc =>
      cases h
      exact ⟨_, .goto_plain hpc rfl rfl (Or.inl rfl) rfl rfl rfl⟩
    · next j e hpc =>
      cases h
      exact ⟨_, .goto_plain hpc rfl rfl (Or.inl rfl) rfl rfl rfl⟩
    · cases h
  | getc ch =>
    cases ch with
    | none =>
      simp only [step] at h
      split at h
      · next d b hpc =>
        cases h
        cases d with
        | true => exact ⟨_, .release_plain hpc rfl rfl (Or.inl rfl) rfl rfl rfl rfl⟩
        | false =>
          exact ⟨_, .release_plain hpc rfl rfl (Or.inl rfl) rfl (holds_iret b _) (holds_iret b _)
            (plain_iret b)⟩
      · cases h
    | some ch =>
      simp only [step] at h
      split at h
      · next d b hpc =>
        cases h
        by_cases hwakes : (s.input.put ch).2 = true
        · rw [if_pos hwakes]
          refine ⟨_, .of_goto rfl rfl (Or.inl rfl) (by rw [hpc]; rfl) (by rw [hpc]; rfl) ?_ nofun⟩
          exact fun _ ↦ by simpa only [startsWait, hpc] using hwakes
        · rw [if_neg hwakes]
          exact ⟨_, .goto_plain hpc rfl rfl (Or.inl rfl) rfl rfl rfl⟩
      · cases h
  | change slots sched =>
    simp only [step] at h
    split at h
    · next j hpc =>
      cases h
      cases sched with
      | true => exact ⟨_, .goto_plain hpc rfl rfl (Or.inr rfl) rfl rfl rfl⟩
      | false => exact ⟨_, .release_plain hpc rfl rfl (Or.inr rfl) rfl rfl rfl rfl⟩
    · cases h
  | printed more =>
    simp only [step] at h
    split at h
    · next i b hpc =>
      cases h
      cases more <;> exact ⟨_, .release_plain hpc rfl rfl (Or.inl rfl) rfl rfl rfl rfl⟩
    · cases h

/-! ## The locks are held where the CPUs say so -/

def Locked (s : Console κ) : Prop := ∀ l c, s.lock l = some c ↔ (s.cpu c).holds l = true

theorem Locked.step (hs : s.Locked) (h : Effect s s' c a pc) : s'.Locked := by
  intro l d
  rw [h.cpu]
  by_cases hd : d = c
  · subst hd
    rw [update_self]
    rcases h.lock l with ⟨hl, hpc⟩ | ⟨-, hl, hpc⟩ | ⟨-, hl, hpc⟩
    · rw [hl, hpc, hs l d]
    · rw [hl, hpc]
      exact ⟨fun _ ↦ rfl, fun _ ↦ rfl⟩
    · rw [hl, hpc]
      exact ⟨nofun, nofun⟩
  · rw [update_of_ne hd, ← hs l d]
    rcases h.lock l with ⟨hl, -⟩ | ⟨hfree, hl, -⟩ | ⟨hheld, hl, -⟩
    · rw [hl]
    · rw [hl, hfree]
      exact ⟨fun heq ↦ absurd (Option.some.inj heq).symm hd, nofun⟩
    · rw [hl, (hs l c).mpr hheld]
      exact ⟨nofun, fun heq ↦ absurd (Option.some.inj heq).symm hd⟩

omit [DecidableEq κ] in
theorem Locked.unique (hs : s.Locked) (hc : (s.cpu c).holds l = true)
    (hd : (s.cpu d).holds l = true) : c = d :=
  Option.some.inj (((hs l c).mpr hc).symm.trans ((hs l d).mpr hd))

omit [DecidableEq κ] in
theorem locked_of_initial (h : s.Initial) : s.Locked := by
  intro l c
  rw [h.cpu, h.lock]
  exact ⟨nofun, by cases l <;> exact nofun⟩

/-! ## No crossing -/

/-- No CPU is in `cps` with a line to print while another one waits with `cons.lock` held. -/
def Apart (s : Console κ) : Prop := ∀ c d, s.inCps (s.cpu c) = true → (s.cpu d).waiter = false

/-- The condition on a step: `wakeup` and `sleep` are not entered with `cons.lock` held while
another CPU has a line of `cps` to print, and `cps` does not get `ptable.lock` while another CPU
waits in `wakeup` or `sleep`. -/
def Ordered (s : Console κ) (a : κ × ConsoleAct) : Prop :=
  (s.startsWait a.1 a.2 = true → ∀ d, s.inCps (s.cpu d) = false) ∧
  (s.startsCps a.1 = true → ∀ d, (s.cpu d).waiter = false)

instance [Fintype κ] (s : Console κ) (a : κ × ConsoleAct) : Decidable (Ordered s a) :=
  inferInstanceAs (Decidable (_ ∧ _))

omit [DecidableEq κ] in
theorem holds_of_inCps (h : s.inCps pc = true) : pc.holds .ptable = true := by
  cases pc <;> first | rfl | cases h

omit [DecidableEq κ] in
theorem waiter_of_inCps (h : s.inCps pc = true) : pc.waiter = false := by
  cases pc <;> first | rfl | cases h

theorem Cpu.holds_of_waiter (h : pc.waiter = true) : pc.holds .cons = true :=
  (Bool.and_eq_true_iff.mp h).2

theorem Apart.step (hl : s.Locked) (hs : s.Apart) (hg : Ordered s (c, a)) (h : Effect s s' c a pc) :
    s'.Apart := by
  intro x y hx
  by_contra hy
  rw [Bool.not_eq_false] at hy
  have hxy : x ≠ y := by
    rintro rfl
    rw [waiter_of_inCps hx] at hy
    cases hy
  rw [h.cpu] at hx hy
  by_cases hxc : x = c
  · -- the step leads into `cps` or on in it
    subst hxc
    rw [update_self] at hx
    rw [update_of_ne hxy.symm] at hy
    rcases h.inCps hx with hx | hstart | hcons
    · exact absurd hy (Bool.eq_false_iff.mp (hs x y hx))
    · exact absurd hy (Bool.eq_false_iff.mp (hg.2 hstart y))
    · exact hxy (hl.unique hcons (Cpu.holds_of_waiter hy))
  · rw [update_of_ne hxc] at hx
    -- `x` holds `ptable.lock`, so the table is not changed by another CPU
    have hslots : s'.slots = s.slots := by
      rcases h.slots with heq | hheld | hfree
      · exact heq
      · exact absurd (hl.unique (holds_of_inCps hx) hheld) hxc
      · rw [(hl .ptable x).mpr (holds_of_inCps hx)] at hfree
        cases hfree
    rw [inCps_congr hslots] at hx
    by_cases hyc : y = c
    · subst hyc
      rw [update_self] at hy
      exact absurd hx (Bool.eq_false_iff.mp (hg.1 (h.waiter hy) x))
    · rw [update_of_ne hyc] at hy
      exact absurd hy (Bool.eq_false_iff.mp (hs x y hx))

theorem locked_apart_of_reachableUnder (h : (console κ).ReachableUnder Ordered s) :
    s.Locked ∧ s.Apart := by
  refine h.invariant (I := fun s ↦ s.Locked ∧ s.Apart) (fun s hs ↦ ?_) ?_
  · refine ⟨locked_of_initial hs, fun c d hc ↦ ?_⟩
    rw [hs.cpu] at hc
    cases hc
  · rintro s ⟨c, a⟩ s' - ⟨hl, hs⟩ hg hstep
    obtain ⟨pc, heff⟩ := effect_of_step hstep
    exact ⟨hl.step heff, hs.step hl hg heff⟩

/-! ## Deadlocks -/

omit [DecidableEq κ] in
theorem not_holds_of_waits (h : pc.waits = some l) : pc.holds l = false := by
  cases pc <;> cases h <;> rfl

omit [DecidableEq κ] in
theorem inCps_of_waits_cons (h : pc.waits = some .cons) (hp : pc.holds .ptable = true) :
    s.inCps pc = true := by
  cases pc <;> trivial

omit [DecidableEq κ] in
theorem exists_nested (hl : s.Locked) (hdead : Deadlock (fun c ↦ (s.cpu c).waits) s.lock S)
    (l : Lock) : ∃ c, (s.cpu c).waits = some l ∧ (s.cpu c).holds l.other = true := by
  obtain ⟨c, -, m, m', hwaits, hholds, hrank⟩ :=
    hdead.exists_inversion fun m ↦ if m = l then 0 else 1
  have hholds : (s.cpu c).holds m' = true := (hl m' c).mp hholds
  have hne : m' ≠ m := by
    rintro rfl
    rw [not_holds_of_waits hwaits] at hholds
    cases hholds
  have hm : m = l := by
    by_contra hm
    rw [if_neg hm, Lock.eq_other hne, Lock.eq_other hm] at hrank
    cases l <;> exact absurd hrank (by decide)
  subst hm
  exact ⟨c, hwaits, Lock.eq_other hne ▸ hholds⟩

omit [DecidableEq κ] in
theorem Apart.not_deadlock (hl : s.Locked) (hs : s.Apart) :
    ¬Deadlock (fun c ↦ (s.cpu c).waits) s.lock S := by
  intro hdead
  obtain ⟨c, hc, hc'⟩ := exists_nested hl hdead .cons
  obtain ⟨d, hd, hd'⟩ := exists_nested hl hdead .ptable
  have hapart := hs c d (inCps_of_waits_cons hc hc')
  rw [Cpu.waiter, hd] at hapart
  exact absurd hd' (Bool.eq_false_iff.mp hapart)

end Console

open Console in
/-- **When `cps` and the console do not deadlock.** On any number of CPUs, with any contents of the
process table and any input: in every state of a run all of whose steps are ordered, there is no set
of CPUs each of which spins on a lock that another one of them holds. -/
theorem console_no_deadlock {κ : Type} [DecidableEq κ] {s : Console κ}
    (h : (console κ).ReachableUnder Ordered s) (S : Finset κ) :
    ¬Deadlock (fun c ↦ (s.cpu c).waits) s.lock S := by
  obtain ⟨hl, hs⟩ := locked_apart_of_reachableUnder h
  exact hs.not_deadlock hl

/-! ## Two CPUs -/

namespace Console

/-- One process that can run, and no input. -/
private def start : Console (Fin 2) where
  cpu _ := .idle
  lock _ := none
  slots j := ⟨if j.val = 0 then .runnable else .unused, false, none, .forked⟩
  input := ⟨fun _ ↦ 0, 0, 0, 0⟩

private theorem initial_start : start.Initial := ⟨fun _ ↦ rfl, fun _ ↦ rfl⟩

/-- The process runs on the first CPU and calls `cps`. -/
private def runCps : List (Fin 2 × ConsoleAct) :=
  [(0, .go), (0, .go), (0, .go), (0, .go), (0, .call .cps), (0, .go), (0, .go)]

/-- A newline is typed and handled by the second CPU. -/
private def typeNewline : List (Fin 2 × ConsoleAct) :=
  [(1, .keyboard), (1, .go), (1, .getc (some newline))]

/-- Each CPU holds one lock and waits for the other. -/
private def crossed (s : Console (Fin 2)) : Bool :=
  s.lock .ptable = some 0 && s.lock .cons = some 1 && (s.cpu 0).waits = some .cons &&
    (s.cpu 1).waits = some .ptable

private theorem deadlock_of_crossed {s : Console (Fin 2)} (h : crossed s = true) :
    Deadlock (fun c ↦ (s.cpu c).waits) s.lock Finset.univ := by
  simp only [crossed, Bool.and_eq_true, decide_eq_true_eq] at h
  obtain ⟨⟨⟨hp, hc⟩, h0⟩, h1⟩ := h
  refine ⟨Finset.univ_nonempty, fun c _ ↦ ?_⟩
  match c with
  | 0 => exact ⟨.cons, h0, 1, Finset.mem_univ _, by decide, hc⟩
  | 1 => exact ⟨.ptable, h1, 0, Finset.mem_univ _, by decide, hp⟩

end Console

open Console in
/-- A key pressed while `cps` prints its headings: the second CPU has to wait, for a lock whose
holder goes on. -/
theorem console_no_deadlock_headings : ∃ s : Console (Fin 2),
    (s.cpu 1).waits = some .cons ∧ s.lock .cons = some 0 ∧
    ∀ S, ¬Deadlock (fun c ↦ (s.cpu c).waits) s.lock S := by
  obtain ⟨s, hs, hp⟩ := Machine.exists_reachableUnder_of_run (M := console (Fin 2)) (G := Ordered)
    (runCps ++ [(0, .go), (0, .go), (1, .keyboard)])
    (fun s ↦ (s.cpu 1).waits = some .cons && s.lock .cons = some 0) initial_start (by decide)
  rw [Bool.and_eq_true, decide_eq_true_eq, decide_eq_true_eq] at hp
  exact ⟨s, hp.1, hp.2, console_no_deadlock hs⟩

open Console in
/-- A newline typed while `cps` is about to print its headings: both CPUs spin for ever. -/
theorem cps_newline_deadlock : ∃ s : Console (Fin 2), (console (Fin 2)).Reachable s ∧
    Deadlock (fun c ↦ (s.cpu c).waits) s.lock Finset.univ := by
  obtain ⟨s, hs, hcrossed⟩ := Machine.exists_reachable_of_run (M := console (Fin 2))
    (runCps ++ typeNewline ++ [(0, .go)]) crossed initial_start (by decide)
  exact ⟨s, hs, deadlock_of_crossed hcrossed⟩

end OperatingSystems
