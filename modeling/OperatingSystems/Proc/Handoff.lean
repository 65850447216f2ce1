import OperatingSystems.Proc.Family

/-!
# Exit and wait

What `wait` returns, for whom and how often. A zombie is reaped once, by the process that is its
parent then: the one that forked it or, when that one has exited, `initproc`. Nobody sleeps in
`wait` while it has a child that exited, because `exit` wakes the parent up before the process
becomes a zombie, and `initproc` when it adopts one.
-/

namespace OperatingSystems

def ProcEvent.returns : ProcEvent → Bool
  | .wait _ _ _ | .waitNone _ => true
  | _ => false

namespace ProcTable

variable {κ : Type} {s s' : ProcTable κ} {c : κ} {i j : Fin nproc} {f : ProcSlot → ProcSlot}
  {e : ProcEvent}

/-! ## Nobody sleeps through an exit -/

/-- Who sleeps in `wait` has no child that exited. -/
def Awake (s : ProcTable κ) : Prop :=
  ∀ j i, (s.slots j).state = .sleeping → (s.slots j).chan = some (.proc j) →
    (s.slots i).parent = some j → (s.slots i).state ≠ .zombie

namespace Awake

theorem of_slots (h : s.Awake) (hparent : ∀ i, (s'.slots i).parent = (s.slots i).parent)
    (hzombie : ∀ i, (s'.slots i).state = .zombie → (s.slots i).state = .zombie)
    (hsleep : ∀ j, (s'.slots j).state = .sleeping → (s'.slots j).chan = some (.proc j) →
      (s.slots j).state = .sleeping ∧ (s.slots j).chan = some (.proc j)) : s'.Awake := by
  intro j i hj hchan hi hz
  obtain ⟨hj, hchan⟩ := hsleep j hj hchan
  exact h j i hj hchan (hparent i ▸ hi) (hzombie i hz)

theorem setSlot (h : s.Awake) (hparent : (f (s.slots j)).parent = (s.slots j).parent)
    (hzombie : (f (s.slots j)).state = .zombie → (s.slots j).state = .zombie)
    (hsleep : (f (s.slots j)).state = .sleeping → (f (s.slots j)).chan = some (.proc j) →
      (s.slots j).state = .sleeping ∧ (s.slots j).chan = some (.proc j)) :
    (s.setSlot j f).Awake := by
  refine h.of_slots (fun i ↦ ?_) (fun i hi ↦ ?_) fun i hi hchan ↦ ?_
  · rw [slots_setSlot]
    split
    · next hij => rw [hij, hparent]
    · rfl
  · rw [slots_setSlot] at hi
    split at hi
    · next hij => exact hij ▸ hzombie (hij ▸ hi)
    · exact hi
  · rw [slots_setSlot] at hi hchan
    split at hi
    · next hij =>
      subst hij
      rw [if_pos rfl] at hchan
      exact hsleep hi hchan
    · next hij =>
      rw [if_neg hij] at hchan
      exact ⟨hi, hchan⟩

theorem wakeup1 (h : s.Awake) (ch : ProcChan) : (s.wakeup1 ch).Awake := by
  refine h.of_slots (fun i ↦ parent_wakeup1 ch) (fun i hi ↦ ?_) fun i hi hchan ↦ ?_
  · rw [slots_wakeup1] at hi
    split at hi
    · cases hi
    · exact hi
  · rw [slots_wakeup1] at hi hchan
    split at hi
    · cases hi
    · next hno =>
      rw [if_neg hno] at hchan
      exact ⟨hi, hchan⟩

theorem note (h : s.Awake) : (s.note e).Awake := h

theorem kill (h : s.Awake) (pid : BitVec 32) : (s.kill pid).Awake := by
  rw [ProcTable.kill]
  split
  · exact h.note
  · apply Awake.note
    refine h.setSlot rfl ?_ ?_
    · dsimp only
      split
      · exact fun hz ↦ ProcState.noConfusion hz
      · exact id
    · dsimp only
      split
      · exact fun hs ↦ ProcState.noConfusion hs
      · exact fun hs hchan ↦ ⟨hs, hchan⟩

theorem abandon (h : s.Awake) : (s.abandon j).Awake := by
  have hstate : ∀ i, ((s.reparent j).slots i).state = (s.slots i).state := by
    intro i
    rw [slots_reparent]
    split <;> rfl
  have hchan : ∀ i, ((s.reparent j).slots i).chan = (s.slots i).chan := by
    intro i
    rw [slots_reparent]
    split <;> rfl
  -- whoever is not `initproc` has no new children
  have hre : ∀ k i, k ≠ initproc → ((s.reparent j).slots k).state = .sleeping →
      ((s.reparent j).slots k).chan = some (.proc k) →
      ((s.reparent j).slots i).parent = some k → ((s.reparent j).slots i).state ≠ .zombie := by
    intro k i hk hsleep hch hi
    rw [hstate] at hsleep ⊢
    rw [hchan] at hch
    rw [slots_reparent] at hi
    split at hi
    · exact absurd (Option.some.inj hi).symm hk
    · exact h k i hsleep hch hi
  rw [ProcTable.abandon]
  split
  · intro k i hsleep hch hi hz
    rw [slots_wakeup1] at hsleep hch
    split at hsleep
    · cases hsleep
    · next hno =>
      rw [if_neg hno] at hch
      rw [parent_wakeup1] at hi
      rw [slots_wakeup1] at hz
      split at hz
      · cases hz
      · refine hre k i ?_ hsleep hch hi hz
        rintro rfl
        exact hno ⟨hsleep, hch⟩
  · next hnone =>
    intro k i hsleep hch hi hz
    by_cases hk : k = initproc
    · subst hk
      rw [slots_reparent] at hi
      split at hi
      · next hij =>
        rw [Bool.not_eq_true, Option.isSome_eq_false_iff, Option.isNone_iff_eq_none] at hnone
        exact not_zombie_of_zombieChild hnone i hij (hstate i ▸ hz)
      · exact h initproc i (hstate _ ▸ hsleep) (hchan _ ▸ hch) hi (hstate i ▸ hz)
    · exact hre k i hk hsleep hch hi hz

theorem reap (h : s.Awake) : (s.setSlot i fun p ↦
    { p with state := .unused, pid := 0, parent := none, killed := false }).Awake := by
  intro k l hsleep hch hl
  rw [slots_setSlot] at hsleep hch hl ⊢
  split at hsleep
  · cases hsleep
  · next hki =>
    rw [if_neg hki] at hch
    split at hl
    · cases hl
    · next hli =>
      rw [if_neg hli]
      exact h k l hsleep hch hl

theorem born (h : s.Awake) :
    (s.setSlot i fun p ↦ { p with state := .runnable, parent := some j }).Awake := by
  intro k l hsleep hch hl
  rw [slots_setSlot] at hsleep hch hl ⊢
  split at hsleep
  · cases hsleep
  · next hki =>
    rw [if_neg hki] at hch
    split at hl
    · next hli =>
      rw [if_pos hli]
      exact ProcState.noConfusion
    · next hli =>
      rw [if_neg hli]
      exact h k l hsleep hch hl

theorem exit (h : s.Awake) (hawake : ∀ p, (s.slots j).parent = some p →
      (s.slots p).state = .sleeping → (s.slots p).chan ≠ some (.proc p)) :
    (s.setSlot j fun p ↦ { p with state := .zombie }).Awake := by
  intro k l hsleep hch hl hz
  rw [slots_setSlot] at hsleep hch hl hz
  split at hsleep
  · cases hsleep
  · next hkj =>
    rw [if_neg hkj] at hch
    split at hl
    · next hlj => exact hawake k (hlj ▸ hl) hsleep hch
    · next hlj =>
      rw [if_neg hlj] at hz
      exact h k l hsleep hch hl hz

theorem sleepWait (h : s.Awake)
    (hchildren : ∀ i, (s.slots i).parent = some j → (s.slots i).state ≠ .zombie) :
    (s.setSlot j fun p ↦
      { p with state := .sleeping, chan := some (.proc j), pc := .waiting }).Awake := by
  intro k l hsleep hch hl hz
  rw [slots_setSlot] at hl hz
  have hz' : (s.slots l).state = .zombie := by
    split at hz
    · cases hz
    · exact hz
  have hl' : (s.slots l).parent = some k := by
    split at hl
    · exact hl
    · exact hl
  by_cases hkj : k = j
  · exact hchildren l (hkj ▸ hl') hz'
  · rw [slots_setSlot, if_neg hkj] at hsleep hch
    exact h k l hsleep hch hl' hz'

end Awake

theorem Change.awake [DecidableEq κ] (h : Change s s') (hA : s.Awake) : s'.Awake := by
  cases h with
  | wake ch => exact hA.wakeup1 ch
  | fault j run => exact hA.setSlot rfl id fun hs hch ↦ ⟨hs, hch⟩
  | goto j pc run => exact hA.setSlot rfl id fun hs hch ↦ ⟨hs, hch⟩
  | waitNone g => exact hA
  | yield c j cpu =>
    exact (hA.setSlot rfl (fun hz ↦ ProcState.noConfusion hz) fun hs ↦ ProcState.noConfusion hs :
      Awake (s.setSlot j fun p ↦ { p with state := .runnable }))
  | sleep c j a cpu =>
    refine (hA.setSlot rfl (fun hz ↦ ProcState.noConfusion hz) fun _ hch ↦ ?_ :
      Awake (s.setSlot j fun p ↦ { p with state := .sleeping, chan := some (.addr a) }))
    cases hch
  | sleepWait c j cpu children => exact hA.sleepWait children
  | sched c j _ ready =>
    exact (hA.setSlot rfl (fun hz ↦ ProcState.noConfusion hz) fun hs ↦ ProcState.noConfusion hs :
      Awake (s.setSlot j fun p ↦ { p with state := .running, chan := none }))
  | alloc i free =>
    exact (hA.setSlot rfl (fun hz ↦ ProcState.noConfusion hz) fun hs ↦ ProcState.noConfusion hs :
      Awake (s.setSlot i fun p ↦
        { p with state := .embryo, pid := s.nextpid, pc := .user, gen := s.allocs }))
  | born j i g _ _ _ => exact hA.born
  | exiting j _ _ => exact hA
  | abandon j _ _ => exact hA.abandon
  | exit c j _ _ _ _ hawake => exact hA.exit hawake
  | reap j i g _ _ _ _ => exact hA.reap

/-! ## The events of a process -/

/-- What has happened when `wait` returns the pid of `child` to `caller`: the child was forked with
this pid, by the caller or by a process that exited and left it to the first process; it has exited;
and it has not been returned before. -/
structure Justified (l : List ProcEvent) (caller child : ℕ) (pid : BitVec 32) : Prop where
  exited : .exit child ∈ l
  forked : ∃ creator, .fork creator child pid ∈ l ∧
    (caller = creator ∨ caller = 0 ∧ .exit creator ∈ l)
  once : ∀ c p, .wait c child p ∉ l

/-- All returns of `wait` are justified by what happened before them. -/
def History (l : List ProcEvent) : Prop :=
  ∀ l₁ l₂ caller child pid, l = l₂ ++ .wait caller child pid :: l₁ → Justified l₁ caller child pid

theorem History.cons {l : List ProcEvent} (h : History l)
    (he : ∀ caller child pid, e = .wait caller child pid → Justified l caller child pid) :
    History (e :: l) := by
  intro l₁ l₂ caller child pid heq
  cases l₂ with
  | nil =>
    obtain ⟨rfl, rfl⟩ := List.cons.inj heq
    exact he caller child pid rfl
  | cons e' l₂ => exact h l₁ l₂ caller child pid (List.cons.inj heq).2

/-- The events tell where the processes in the table come from. -/
structure Told (s : ProcTable κ) : Prop where
  init : (s.slots initproc).gen = 0
  /-- The parent of a process is its creator, or `initproc` once the creator has exited. -/
  forked : ∀ i, i ≠ initproc → (s.slots i).state.live = true ∨ (s.slots i).state = .zombie →
    ∃ creator, .fork creator (s.slots i).gen (s.slots i).pid ∈ s.log ∧
      ∀ p, (s.slots i).parent = some p →
        (s.slots p).gen = creator ∨ p = initproc ∧ .exit creator ∈ s.log
  exited : ∀ i, (s.slots i).state = .zombie → .exit (s.slots i).gen ∈ s.log
  /-- Who was returned by `wait` is not in the table any more. -/
  reaped : ∀ c g pid, .wait c g pid ∈ s.log → g < s.allocs ∧ pid = BitVec.ofNat 32 (g + 1) ∧
    ∀ i, (s.slots i).state ≠ .unused → (s.slots i).gen ≠ g
  history : History s.log

namespace Told

theorem of_steadily (h : s.Told) (hs : Steadily s s')
    (hlog : s'.log = s.log ∨ ∃ e, s'.log = e :: s.log ∧ ∀ c g pid, e ≠ .wait c g pid) :
    s'.Told := by
  have hmem : ∀ e, e ∈ s.log → e ∈ s'.log := by
    intro e he
    rcases hlog with heq | ⟨e', heq, -⟩ <;> rw [heq]
    · exact he
    · exact List.mem_cons_of_mem _ he
  have hwait : ∀ c g pid, .wait c g pid ∈ s'.log → .wait c g pid ∈ s.log := by
    intro c g pid he
    rcases hlog with heq | ⟨e', heq, hne⟩ <;> rw [heq] at he
    · exact he
    · exact (List.mem_cons.mp he).resolve_left fun heq ↦ hne c g pid heq.symm
  refine ⟨?_, fun i hi hthere ↦ ?_, fun i hi ↦ ?_, fun c g pid he ↦ ?_, ?_⟩
  · rw [(hs.slots _).gen, h.init]
  · obtain ⟨creator, hfork, hparent⟩ := h.forked i hi
      (hthere.imp (hs.slots i).live_iff.mp ((hs.slots i).state_iff rfl).mp)
    rw [(hs.slots i).gen, (hs.slots i).pid, (hs.slots i).parent]
    refine ⟨creator, hmem _ hfork, fun p hp ↦ ?_⟩
    rw [(hs.slots p).gen]
    exact (hparent p hp).imp_right (And.imp_right (hmem _))
  · rw [(hs.slots i).gen]
    exact hmem _ (h.exited i (((hs.slots i).state_iff rfl).mp hi))
  · obtain ⟨hlt, hpid, hno⟩ := h.reaped c g pid (hwait c g pid he)
    refine ⟨hs.allocs ▸ hlt, hpid, fun i hi ↦ ?_⟩
    rw [(hs.slots i).gen]
    exact hno i fun heq ↦ hi (((hs.slots i).state_iff rfl).mpr heq)
  · rcases hlog with heq | ⟨e', heq, hne⟩ <;> rw [heq]
    · exact h.history
    · exact h.history.cons fun c g pid heq ↦ absurd heq (hne c g pid)

theorem setCpu [DecidableEq κ] (h : s.Told) {p : Option (Fin nproc)} : (s.setCpu c p).Told :=
  ⟨h.init, h.forked, h.exited, h.reaped, h.history⟩

theorem alloc (h : s.Told) (hF : s.Family) (hi : (s.slots i).state = .unused) :
    (s.allocated i).Told := by
  have hne : ∀ k, (s.slots k).state.live = true → k ≠ i := by
    rintro k hk rfl
    rw [hi] at hk
    cases hk
  have hslot : ∀ k, k ≠ i → (s.allocated i).slots k = s.slots k := fun k hk ↦ by
    rw [slots_allocated, if_neg hk]
  have hself : ((s.allocated i).slots i).state = .embryo := by rw [slots_allocated, if_pos rfl]
  refine ⟨?_, fun k hk hthere ↦ ?_, fun k hk ↦ ?_, fun c g pid he ↦ ?_,
    h.history.cons fun _ _ _ heq ↦ by cases heq⟩
  · rw [hslot _ (hne _ hF.init)]
    exact h.init
  · have hki : k ≠ i := by
      rintro rfl
      rw [hself] at hthere
      rcases hthere with h | h <;> cases h
    rw [hslot k hki] at hthere ⊢
    obtain ⟨creator, hfork, hparent⟩ := h.forked k hk hthere
    obtain ⟨p, hp, hlp⟩ := hF.parent k hk hthere
    refine ⟨creator, List.mem_cons_of_mem _ hfork, fun q hq ↦ ?_⟩
    obtain rfl : p = q := Option.some.inj (hp.symm.trans hq)
    rw [hslot p (hne p hlp)]
    exact (hparent p hp).imp_right (And.imp_right (List.mem_cons_of_mem _))
  · have hki : k ≠ i := by
      rintro rfl
      rw [hself] at hk
      cases hk
    rw [hslot k hki] at hk ⊢
    exact List.mem_cons_of_mem _ (h.exited k hk)
  · obtain ⟨hlt, hpid, hno⟩ := h.reaped c g pid
      ((List.mem_cons.mp he).resolve_left fun heq ↦ by cases heq)
    refine ⟨hlt.trans (Nat.lt_succ_self _), hpid, fun k hk ↦ ?_⟩
    by_cases hki : k = i
    · rw [hki, slots_allocated, if_pos rfl]
      exact hlt.ne'
    · rw [hslot k hki] at hk ⊢
      exact hno k hk

theorem setUnused (h : s.Told) (hstate : (f (s.slots i)).state = .unused)
    (hgen : (f (s.slots i)).gen = (s.slots i).gen) : (s.setSlot i f).Told := by
  have hgens : ∀ k, ((s.setSlot i f).slots k).gen = (s.slots k).gen := by
    intro k
    rw [slots_setSlot]
    split
    · next hki => rw [hki, hgen]
    · rfl
  -- the slots in use are as before
  have hslot : ∀ k, ((s.setSlot i f).slots k).state ≠ .unused →
      (s.setSlot i f).slots k = s.slots k := by
    intro k hk
    rw [slots_setSlot] at hk ⊢
    split at hk
    · next hki => exact absurd (hki ▸ hstate) hk
    · next hki => rw [if_neg hki]
  refine ⟨(hgens _).trans h.init, fun k hk hthere ↦ ?_, fun k hk ↦ ?_, fun c g pid he ↦ ?_,
    h.history⟩
  · have hkey : (s.setSlot i f).slots k = s.slots k := by
      refine hslot k fun heq ↦ ?_
      rw [heq] at hthere
      rcases hthere with h | h <;> cases h
    rw [hkey] at hthere ⊢
    obtain ⟨creator, hfork, hparent⟩ := h.forked k hk hthere
    exact ⟨creator, hfork, fun p hp ↦ by rw [hgens]; exact hparent p hp⟩
  · have hkey : (s.setSlot i f).slots k = s.slots k := by
      refine hslot k fun heq ↦ ?_
      rw [heq] at hk
      cases hk
    rw [hkey] at hk ⊢
    exact h.exited k hk
  · obtain ⟨hlt, hpid, hno⟩ := h.reaped c g pid he
    refine ⟨hlt, hpid, fun k hk ↦ ?_⟩
    have hkey := hslot k hk
    rw [hkey] at hk ⊢
    exact hno k hk

theorem born (h : s.Told) (hi : (s.slots i).state = .embryo) :
    ((s.setSlot i fun p ↦ { p with state := .runnable, parent := some j }).note
      (.fork (s.slots j).gen (s.slots i).gen (s.slots i).pid)).Told := by
  have hgen : ∀ k, ((s.setSlot i fun p ↦ { p with state := .runnable, parent := some j }).slots
      k).gen = (s.slots k).gen := by
    intro k
    rw [slots_setSlot]
    split <;> rfl
  refine ⟨(hgen _).trans h.init, fun k hk hthere ↦ ?_, fun k hk ↦ ?_, fun c g pid he ↦ ?_,
    h.history.cons fun _ _ _ heq ↦ by cases heq⟩
  · rw [slots_note] at hthere ⊢
    by_cases hki : k = i
    · subst hki
      rw [slots_setSlot, if_pos rfl]
      refine ⟨(s.slots j).gen, List.mem_cons_self, fun p hp ↦ .inl ?_⟩
      rw [hgen, Option.some.inj hp]
    · rw [slots_setSlot, if_neg hki] at hthere ⊢
      obtain ⟨creator, hfork, hparent⟩ := h.forked k hk hthere
      refine ⟨creator, List.mem_cons_of_mem _ hfork, fun p hp ↦ ?_⟩
      rw [hgen]
      exact (hparent p hp).imp_right (And.imp_right (List.mem_cons_of_mem _))
  · rw [slots_note, slots_setSlot] at hk
    split at hk
    · cases hk
    · rw [slots_note, hgen]
      exact List.mem_cons_of_mem _ (h.exited k hk)
  · have he : .wait c g pid ∈ s.log := (List.mem_cons.mp he).resolve_left fun heq ↦ by cases heq
    obtain ⟨hlt, hpid, hno⟩ := h.reaped c g pid he
    refine ⟨hlt, hpid, fun k hk ↦ ?_⟩
    rw [slots_note, hgen]
    refine hno k fun hu ↦ hk ?_
    rw [slots_note, slots_setSlot, if_neg, hu]
    rintro rfl
    rw [hi] at hu
    cases hu

theorem abandon (h : s.Told) (hj : j ≠ initproc) (hexit : .exit (s.slots j).gen ∈ s.log) :
    (s.abandon j).Told := by
  have hre : (s.reparent j).Told := by
    have hgen : ∀ k, ((s.reparent j).slots k).gen = (s.slots k).gen := by
      intro k
      rw [slots_reparent]
      split <;> rfl
    have hpid : ∀ k, ((s.reparent j).slots k).pid = (s.slots k).pid := by
      intro k
      rw [slots_reparent]
      split <;> rfl
    have hstate : ∀ k, ((s.reparent j).slots k).state = (s.slots k).state := by
      intro k
      rw [slots_reparent]
      split <;> rfl
    refine ⟨(hgen _).trans h.init, fun k hk hthere ↦ ?_, fun k hk ↦ ?_, fun c g pid he ↦ ?_,
      h.history⟩
    · rw [hstate] at hthere
      rw [hgen, hpid]
      obtain ⟨creator, hfork, hparent⟩ := h.forked k hk hthere
      refine ⟨creator, hfork, fun p hp ↦ ?_⟩
      rw [hgen]
      rw [slots_reparent] at hp
      split at hp
      · next hkj =>
        refine .inr ⟨(Option.some.inj hp).symm, ?_⟩
        rcases hparent j hkj with heq | ⟨hinit, -⟩
        · exact heq ▸ hexit
        · exact absurd hinit hj
      · exact hparent p hp
    · rw [hstate] at hk
      rw [hgen]
      exact h.exited k hk
    · obtain ⟨hlt, hpid, hno⟩ := h.reaped c g pid he
      refine ⟨hlt, hpid, fun k hk ↦ ?_⟩
      rw [hgen]
      exact hno k (hstate k ▸ hk)
  rw [ProcTable.abandon]
  split
  · exact hre.of_steadily (steadily_wakeup1 _) (.inl rfl)
  · exact hre

theorem exit (h : s.Told) (hlive : (s.slots j).state.live = true)
    (hexit : .exit (s.slots j).gen ∈ s.log) :
    (s.setSlot j fun p ↦ { p with state := .zombie }).Told := by
  have hkeep : ∀ k, ((s.setSlot j fun p ↦ { p with state := .zombie }).slots k) =
      { s.slots k with state := if k = j then .zombie else (s.slots k).state } := by
    intro k
    rw [slots_setSlot]
    split <;> rfl
  refine ⟨?_, fun k hk hthere ↦ ?_, fun k hk ↦ ?_, fun c g pid he ↦ ?_, h.history⟩
  · rw [hkeep]
    exact h.init
  · simp only [hkeep] at hthere ⊢
    refine h.forked k hk ?_
    split at hthere
    · next hkj => exact .inl (hkj ▸ hlive)
    · exact hthere
  · simp only [hkeep] at hk ⊢
    split at hk
    · next hkj => exact hkj ▸ hexit
    · exact h.exited k hk
  · obtain ⟨hlt, hpid, hno⟩ := h.reaped c g pid he
    refine ⟨hlt, hpid, fun k hk ↦ ?_⟩
    simp only [hkeep] at hk ⊢
    refine hno k ?_
    split at hk
    · next hkj =>
      rintro hu
      rw [← hkj, hu] at hlive
      cases hlive
    · exact hk

theorem wait (h : s.Told) {caller child : ℕ} {pid : BitVec 32}
    (hj : Justified s.log caller child pid)
    (hlt : child < s.allocs) (hpid : pid = BitVec.ofNat 32 (child + 1))
    (hno : ∀ i, (s.slots i).state ≠ .unused → (s.slots i).gen ≠ child) :
    (s.note (.wait caller child pid)).Told := by
  refine ⟨h.init, fun k hk hthere ↦ ?_, fun k hk ↦ List.mem_cons_of_mem _ (h.exited k hk),
    fun c g p he ↦ ?_, h.history.cons fun c g p heq ↦ ?_⟩
  · obtain ⟨creator, hfork, hp⟩ := h.forked k hk hthere
    exact ⟨creator, List.mem_cons_of_mem _ hfork,
      fun p hp' ↦ (hp p hp').imp_right (And.imp_right (List.mem_cons_of_mem _))⟩
  · rcases List.mem_cons.mp he with heq | he
    · obtain ⟨rfl, rfl, rfl⟩ := ProcEvent.wait.inj heq
      exact ⟨hlt, hpid, hno⟩
    · exact h.reaped c g p he
  · obtain ⟨rfl, rfl, rfl⟩ := ProcEvent.wait.inj heq
    exact hj

theorem reap (h : s.Told) (hP : s.Pids) (hi : (s.slots i).state = .zombie) (hinit : i ≠ initproc)
    (hparent : (s.slots i).parent = some j) :
    ((s.setSlot i fun p ↦
      { p with state := .unused, pid := 0, parent := none, killed := false }).note
        (.wait (s.slots j).gen (s.slots i).gen (s.slots i).pid)).Told := by
  have hused : (s.slots i).state ≠ .unused := by
    rw [hi]
    exact ProcState.noConfusion
  have hset : (s.setSlot i fun p ↦
      { p with state := .unused, pid := 0, parent := none, killed := false }).Told :=
    h.setUnused rfl rfl
  obtain ⟨creator, hfork, hp⟩ := h.forked i hinit (.inr hi)
  refine hset.wait ⟨h.exited i hi, ⟨creator, hfork, ?_⟩, fun c p he ↦ ?_⟩ (hP.gen i)
    (hP.pid i hused) fun k hk hkey ↦ ?_
  · refine (hp j hparent).imp_right fun ⟨hj, hex⟩ ↦ ⟨?_, hex⟩
    rw [hj, h.init]
  · exact (h.reaped c _ p he).2.2 i hused rfl
  · rw [slots_setSlot] at hk hkey
    split at hk
    · exact hk rfl
    · next hki =>
      rw [if_neg hki] at hkey
      exact hki (hP.inj k i hk hused hkey)

end Told

theorem Change.told [DecidableEq κ] (h : Change s s') (hT : s.Told) (hF : s.Family) (hP : s.Pids)
    (hC : s.Cpus) : s'.Told := by
  have hlive : ∀ {c j}, s.cpu c = some j → (s.slots j).state.live = true :=
    fun hcpu ↦ live_of_running (hC.running _ _ hcpu)
  have hleave : ∀ {c j}, s.cpu c = some j → ∀ {f : ProcSlot → ProcSlot},
      Steady (s.slots j) (f (s.slots j)) → ((s.setSlot j f).setCpu c none).Told :=
    fun _ _ hf ↦ (hT.of_steadily (steadily_setSlot hf) (.inl rfl)).setCpu
  have hinit : ∀ {i}, (s.slots i).state = .zombie → i ≠ initproc := by
    rintro i hi rfl
    have hl := hF.init
    rw [hi] at hl
    cases hl
  cases h with
  | wake ch => exact hT.of_steadily (steadily_wakeup1 ch) (.inl rfl)
  | fault j run => exact hT.of_steadily (steadily_setSlot ⟨rfl, rfl, rfl, .inl rfl⟩) (.inl rfl)
  | goto j pc run => exact hT.of_steadily (steadily_setSlot ⟨rfl, rfl, rfl, .inl rfl⟩) (.inl rfl)
  | waitNone g => exact hT.of_steadily (steadily_note _) (.inr ⟨_, rfl, fun _ _ _ h ↦ by cases h⟩)
  | yield c j cpu => exact hleave cpu (steady_of_live rfl rfl rfl (hlive cpu) rfl)
  | sleep c j a cpu => exact hleave cpu (steady_of_live rfl rfl rfl (hlive cpu) rfl)
  | sleepWait c j cpu _ => exact hleave cpu (steady_of_live rfl rfl rfl (hlive cpu) rfl)
  | sched c j _ ready =>
    apply Told.setCpu
    exact hT.of_steadily (steadily_setSlot (steady_of_live rfl rfl rfl (by rw [ready]; rfl) rfl))
      (.inl rfl)
  | alloc i free => exact hT.alloc hF free
  | born j i g run embryo gen =>
    subst gen
    exact hT.born embryo
  | exiting j _ _ =>
    exact hT.of_steadily (steadily_note _) (.inr ⟨_, rfl, fun _ _ _ h ↦ by cases h⟩)
  | abandon j ne event => exact hT.abandon ne event
  | exit c j cpu _ event _ _ => exact (hT.exit (hlive cpu) event).setCpu
  | reap j i g _ zombie parent gen =>
    subst gen
    exact hT.reap hP zombie (hinit zombie) parent

/-! ## Every step -/

section Steps

variable [DecidableEq κ] {a : κ × ProcAct}

structure Handed (s : ProcTable κ) : Prop where
  orderly : s.Orderly
  awake : s.Awake
  told : s.Told

omit [DecidableEq κ] in
theorem handed_boot : (boot : ProcTable κ).Handed := by
  have hunused : ∀ i, i ≠ initproc → ((boot : ProcTable κ).slots i).state = .unused := by
    intro i hi
    change (if i = initproc then _ else _ : ProcSlot).state = _
    rw [if_neg hi]
  have hnot : ∀ i, ((boot : ProcTable κ).slots i).state ≠ .zombie := by
    intro i hz
    by_cases hi : i = initproc
    · subst hi
      cases hz
    · rw [hunused i hi] at hz
      cases hz
  refine ⟨orderly_boot, fun j i _ _ _ ↦ hnot i, rfl, fun i hi hthere ↦ ?_,
    fun i hi ↦ absurd hi (hnot i), fun _ _ _ he ↦ (by cases he), fun l₁ l₂ _ _ _ heq ↦ ?_⟩
  · rw [hunused i hi] at hthere
    rcases hthere with h | h <;> cases h
  · have hlen := congrArg List.length heq
    simp [boot] at hlen

omit [DecidableEq κ] in
theorem log_kill (pid : BitVec 32) : (s.kill pid).log = .kill pid :: s.log := by
  rw [kill]
  split <;> rfl

theorem Handed.step (h : s.Handed) (hs : s.step a = some s') : s'.Handed := by
  have hO := h.orderly
  have hboth : s'.Awake ∧ s'.Told := by
    rcases step_cases hO.inv hO.family.self hs with
      ⟨pid, -, rfl⟩ | ⟨j, i, -, -, -, rfl⟩ | hchanges
    · exact ⟨h.awake.kill pid, h.told.of_steadily (steadily_kill pid)
        (.inr ⟨_, log_kill pid, fun _ _ _ heq ↦ by cases heq⟩)⟩
    · have huser : Steadily s (s.setSlot j fun p ↦ { p with pc := .user }) :=
        steadily_setSlot ⟨rfl, rfl, rfl, .inl rfl⟩
      have hA : (s.setSlot j fun p ↦ { p with pc := .user }).Awake :=
        h.awake.setSlot rfl id fun hs hch ↦ ⟨hs, hch⟩
      rw [forkDone, if_neg Bool.false_ne_true]
      refine ⟨?_, (h.told.of_steadily huser (.inl rfl)).setUnused rfl rfl⟩
      exact hA.setSlot rfl (fun hz ↦ ProcState.noConfusion hz) fun hs ↦ ProcState.noConfusion hs
    · have hall : s'.Pids ∧ s'.Cpus ∧ s'.Family ∧ s'.Awake ∧ s'.Told := by
        refine hchanges.preserves (P := fun s ↦ s.Pids ∧ s.Cpus ∧ s.Family ∧ s.Awake ∧ s.Told) ?_
          ⟨hO.pids, hO.cpus, hO.family, h.awake, h.told⟩
        rintro s s' hch ⟨hP, hC, hF, hA, hT⟩
        exact ⟨hch.pids hP hC, hch.cpus hC, hch.family hF hC, hch.awake hA, hch.told hT hF hP hC⟩
      exact hall.2.2.2
  exact ⟨hO.step hs, hboth.1, hboth.2⟩

theorem handed_of_reachable (h : (procTable κ).Reachable s) : s.Handed := by
  refine h.invariant ?_ fun s a s' hI hs ↦ hI.step hs
  rintro _ rfl
  exact handed_boot

/-! ## What `wait` returns -/

/-- The process whose step it is: the one that runs on the CPU, or the one the scheduler takes
up. -/
def Takes (s : ProcTable κ) (a : κ × ProcAct) (j : Fin nproc) : Prop :=
  s.cpu a.1 = some j ∨ s.cpu a.1 = none ∧ a.2 = .sched j

/-- What a return of `wait` to the process in slot `j` says about the table: the process has a child
that exited, or it has no child or was killed. -/
def Returned (s : ProcTable κ) (j : Fin nproc) : ProcEvent → Prop
  | .wait caller child pid => (s.slots j).gen = caller ∧ ∃ i, (s.slots i).gen = child ∧
      (s.slots i).pid = pid ∧ (s.slots i).parent = some j ∧ (s.slots i).state = .zombie
  | .waitNone caller => (s.slots j).gen = caller ∧
      ((∀ i, (s.slots i).parent ≠ some j) ∨ (s.slots j).killed = true)
  | _ => True

theorem returned_waitScan (h : (s.waitScan c j).log = e :: s.log) : s.Returned j e := by
  rw [waitScan] at h
  split at h
  · next i hi =>
    obtain ⟨hparent, hzombie⟩ := zombieChild_spec hi
    obtain rfl := (List.cons.inj h).1
    exact ⟨rfl, i, rfl, rfl, hparent, hzombie⟩
  · split at h
    · next hcond =>
      obtain rfl := (List.cons.inj h).1
      refine ⟨rfl, (Bool.or_eq_true_iff.mp hcond).imp_left fun hnone i ↦ ?_⟩
      exact of_decide_eq_false (of_first_eq_none (Option.isNone_iff_eq_none.mp hnone) i)
    · exact absurd h (List.cons_ne_self _ _).symm

theorem Returned.of_sched
    (h : Returned ((s.setSlot j fun p ↦
      { p with state := .running, chan := none }).setCpu c (some j)) j e) : s.Returned j e := by
  have hslot : ∀ k, ((s.setSlot j fun p ↦ { p with state := .running, chan := none }).setCpu c
      (some j)).slots k = if k = j then { s.slots k with state := .running, chan := none }
        else s.slots k := fun k ↦ by rw [slots_setCpu, slots_setSlot]
  cases e with
  | wait caller child pid =>
    obtain ⟨hj, i, hi, hpid, hparent, hz⟩ := h
    have hij : i ≠ j := by
      rintro rfl
      rw [hslot, if_pos rfl] at hz
      cases hz
    rw [hslot, if_neg hij] at hi hpid hparent hz
    rw [hslot, if_pos rfl] at hj
    exact ⟨hj, i, hi, hpid, hparent, hz⟩
  | waitNone caller =>
    obtain ⟨hj, hcond⟩ := h
    rw [hslot, if_pos rfl] at hj hcond
    refine ⟨hj, hcond.imp_left fun hno i ↦ ?_⟩
    have hi := hno i
    rw [hslot] at hi
    split at hi <;> exact hi
  | _ => trivial

theorem returned_of_step (h : s.step a = some s') (he : e.returns = true)
    (hlog : s'.log = e :: s.log) : ∃ j, s.Takes a j ∧ s.Returned j e := by
  have hself : s.log ≠ e :: s.log := (List.cons_ne_self _ _).symm
  have hother : ∀ e' l, e'.returns = false → e' :: l ≠ e :: s.log := by
    rintro e' l hno heq
    rw [(List.cons.inj heq).1, he] at hno
    cases hno
  obtain ⟨c, act⟩ := a
  rw [step] at h
  split at h
  · next j hc =>
    cases act with
    | sched i => cases h
    | yield =>
      cases h
      exact absurd hlog hself
    | fork =>
      obtain ⟨-, h⟩ := Option.ite_none_right_eq_some.mp h
      cases h
      rw [fork] at hlog
      split at hlog
      · exact absurd hlog hself
      · next i t ht =>
        rw [allocproc] at ht
        split at ht
        · cases ht
        · cases ht
          exact absurd hlog (hother _ _ rfl)
    | forkDone ok =>
      simp only [ProcTable.act] at h
      split at h
      · cases h
        rw [forkDone] at hlog
        split at hlog
        · exact absurd hlog (hother _ _ rfl)
        · exact absurd hlog hself
      · cases h
    | exit =>
      obtain ⟨-, h⟩ := Option.ite_none_right_eq_some.mp h
      cases h
      have hexit : (s.exit c j).log = .exit (s.slots j).gen :: s.log := by
        change (((s.note _).wakeParent j).abandon j).log = _
        rw [log_abandon, wakeParent]
        split <;> rfl
      rw [hexit] at hlog
      exact absurd hlog (hother _ _ rfl)
    | wait =>
      obtain ⟨-, h⟩ := Option.ite_none_right_eq_some.mp h
      cases h
      exact ⟨j, .inl hc, returned_waitScan hlog⟩
    | kill pid =>
      obtain ⟨-, h⟩ := Option.ite_none_right_eq_some.mp h
      cases h
      rw [log_kill] at hlog
      exact absurd hlog (hother _ _ rfl)
    | fault =>
      obtain ⟨-, h⟩ := Option.ite_none_right_eq_some.mp h
      cases h
      exact absurd hlog hself
    | sleep a =>
      obtain ⟨-, h⟩ := Option.ite_none_right_eq_some.mp h
      cases h
      exact absurd hlog hself
    | wakeup a =>
      cases h
      exact absurd hlog hself
  · next hc =>
    cases act with
    | sched j =>
      obtain ⟨-, h⟩ := Option.ite_none_right_eq_some.mp h
      cases h
      rw [sched] at hlog
      split at hlog
      · exact ⟨j, .inr ⟨hc, rfl⟩, .of_sched (returned_waitScan hlog)⟩
      · exact absurd hlog hself
    | wakeup a =>
      cases h
      exact absurd hlog hself
    | _ => cases h

/-- **Exit and wait.** In every run, with any number of CPUs and processes: when `wait` has returned
the pid of a process, that process was forked with this pid, by the caller or by a process that has
exited since, in which case the caller is `initproc`; it has exited; and it was not returned before,
nor was its pid as long as `nextpid` has not wrapped. When a step makes `wait` return a pid, the
process is a child of the one whose step it is at that moment, and when it returns -1, that one has
no child or was killed. And nobody sleeps in `wait` while it has a child that is a zombie. -/
theorem exit_wait_handoff (h : (procTable κ).Reachable s) :
    (∀ l₁ l₂ caller child pid, s.log = l₂ ++ .wait caller child pid :: l₁ →
      Justified l₁ caller child pid ∧ (s.allocs ≤ 2 ^ 32 → ∀ c g, .wait c g pid ∉ l₁)) ∧
    (∀ a s' e, (procTable κ).step s a = some s' → e.returns = true → s'.log = e :: s.log →
      ∃ j, s.Takes a j ∧ s.Returned j e) ∧
    ∀ j i, (s.slots j).state = .sleeping → (s.slots j).chan = some (.proc j) →
      (s.slots i).parent = some j → (s.slots i).state ≠ .zombie := by
  obtain ⟨-, hA, hT⟩ := handed_of_reachable h
  refine ⟨fun l₁ l₂ caller child pid heq ↦ ?_,
    fun a s' e hs he hlog ↦ returned_of_step hs he hlog, hA⟩
  have hj := hT.history l₁ l₂ caller child pid heq
  refine ⟨hj, fun hallocs c g hmem ↦ ?_⟩
  -- before `nextpid` wraps, the pid tells which process it was
  have hmem' : .wait c g pid ∈ s.log := by
    rw [heq]
    exact List.mem_append_right _ (List.mem_cons_of_mem _ hmem)
  obtain ⟨hg, hpid, -⟩ := hT.reaped c g pid hmem'
  obtain ⟨hchild, hpid', -⟩ := hT.reaped caller child pid (by rw [heq]; simp)
  have hnat := congrArg BitVec.toNat (hpid.symm.trans hpid')
  rw [BitVec.toNat_ofNat, BitVec.toNat_ofNat] at hnat
  have hsame : g = child := by omega
  exact hj.once c pid (hsame ▸ hmem)

/-- The first process forks, the child exits, and `wait` returns it. -/
theorem exit_wait_handoff_reap : ∃ s : ProcTable Unit, (procTable Unit).Reachable s ∧
    s.log.head? = some (.wait 0 1 2) ∧ Justified s.log.tail 0 1 2 := by
  obtain ⟨s, hs, hend⟩ := Machine.exists_reachable_of_run (M := procTable Unit)
    [((), .sched 0), ((), .fork), ((), .forkDone true), ((), .wait), ((), .sched 1), ((), .exit),
      ((), .sched 0)]
    (fun s ↦ s.log.head? = some (.wait 0 1 2)) rfl (by decide +kernel)
  have hhead := of_decide_eq_true hend
  refine ⟨s, hs, hhead, ((exit_wait_handoff hs).1 s.log.tail [] 0 1 2 ?_).1⟩
  exact (List.cons_head?_tail hhead).symm

end Steps

end ProcTable

end OperatingSystems
