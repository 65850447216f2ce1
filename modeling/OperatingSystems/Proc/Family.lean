import OperatingSystems.Proc.Changes

/-!
# The process table between critical sections

Three invariants of the table, which every change of `Proc.Changes` keeps: pids are handed out in
order, so that those in use differ until `nextpid` wraps; a CPU runs a process exactly if the
process is `RUNNING`; and the parent of a process is alive, because a process that exits passes its
children to `initproc`, which does not exit.
-/

namespace OperatingSystems

namespace ProcTable

variable {κ : Type} {s s' : ProcTable κ} {c : κ} {i j : Fin nproc} {p p' : ProcSlot}
  {f : ProcSlot → ProcSlot} {e : ProcEvent}

/-! ## Changes that keep the family together -/

/-- The process in a slot stays the same one, and stays alive if it was. -/
structure Steady (p p' : ProcSlot) : Prop where
  pid : p'.pid = p.pid
  gen : p'.gen = p.gen
  parent : p'.parent = p.parent
  state : p'.state = p.state ∨ p.state.live = true ∧ p'.state.live = true

theorem Steady.refl (p : ProcSlot) : Steady p p := ⟨rfl, rfl, rfl, .inl rfl⟩

theorem Steady.live_iff (h : Steady p p') : p'.state.live = true ↔ p.state.live = true := by
  rcases h.state with heq | ⟨hp, hp'⟩
  · rw [heq]
  · exact iff_of_true hp' hp

theorem Steady.state_iff {x : ProcState} (h : Steady p p') (hx : x.live = false) :
    p'.state = x ↔ p.state = x := by
  rcases h.state with heq | ⟨hp, hp'⟩
  · rw [heq]
  · refine iff_of_false ?_ ?_
    · rintro rfl
      rw [hx] at hp'
      cases hp'
    · rintro rfl
      rw [hx] at hp
      cases hp

structure Steadily (s s' : ProcTable κ) : Prop where
  nextpid : s'.nextpid = s.nextpid
  allocs : s'.allocs = s.allocs
  slots : ∀ i, Steady (s.slots i) (s'.slots i)

theorem steadily_setSlot (h : Steady (s.slots j) (f (s.slots j))) : Steadily s (s.setSlot j f) := by
  refine ⟨rfl, rfl, fun i ↦ ?_⟩
  rw [slots_setSlot]
  split
  · next hij => exact hij ▸ h
  · exact .refl _

theorem Steadily.note (h : Steadily s s') (e : ProcEvent) : Steadily s (s'.note e) :=
  ⟨h.nextpid, h.allocs, h.slots⟩

theorem steadily_note (e : ProcEvent) : Steadily s (s.note e) := ⟨rfl, rfl, fun _ ↦ .refl _⟩

theorem steadily_wakeup1 (ch : ProcChan) : Steadily s (s.wakeup1 ch) := by
  refine ⟨rfl, rfl, fun i ↦ ?_⟩
  rw [slots_wakeup1]
  split
  · next h => exact ⟨rfl, rfl, rfl, .inr ⟨by rw [h.1]; rfl, rfl⟩⟩
  · exact .refl _

theorem steadily_kill (pid : BitVec 32) : Steadily s (s.kill pid) := by
  rw [kill]
  split
  · exact steadily_note _
  · next i hi =>
    apply Steadily.note
    refine steadily_setSlot ⟨rfl, rfl, rfl, ?_⟩
    dsimp only
    split
    · next hs => exact .inr ⟨by rw [hs]; rfl, rfl⟩
    · exact .inl rfl

theorem steady_of_live (hpid : p'.pid = p.pid) (hgen : p'.gen = p.gen)
    (hparent : p'.parent = p.parent) (h : p.state.live = true) (h' : p'.state.live = true) :
    Steady p p' :=
  ⟨hpid, hgen, hparent, .inr ⟨h, h'⟩⟩

theorem live_of_running (h : p.state = .running) : p.state.live = true := by
  rw [h]
  rfl

/-! ## Pids -/

/-- The process with allocation number `g` has pid `g + 1`, up to wrapping. -/
structure Pids (s : ProcTable κ) : Prop where
  next : s.nextpid = BitVec.ofNat 32 (s.allocs + 1)
  pid : ∀ i, (s.slots i).state ≠ .unused →
    (s.slots i).pid = BitVec.ofNat 32 ((s.slots i).gen + 1)
  gen : ∀ i, (s.slots i).gen < s.allocs
  inj : ∀ i j, (s.slots i).state ≠ .unused → (s.slots j).state ≠ .unused →
    (s.slots i).gen = (s.slots j).gen → i = j

namespace Pids

theorem of_slots (h : s.Pids) (hnext : s'.nextpid = s.nextpid) (hallocs : s'.allocs = s.allocs)
    (hgen : ∀ i, (s'.slots i).gen = (s.slots i).gen)
    (hused : ∀ i, (s'.slots i).state ≠ .unused →
      (s.slots i).state ≠ .unused ∧ (s'.slots i).pid = (s.slots i).pid) : s'.Pids where
  next := by rw [hnext, hallocs, h.next]
  pid i hi := by
    obtain ⟨hi, hpid⟩ := hused i hi
    rw [hpid, hgen, h.pid i hi]
  gen i := by
    rw [hgen, hallocs]
    exact h.gen i
  inj i j hi hj heq := by
    rw [hgen, hgen] at heq
    exact h.inj i j (hused i hi).1 (hused j hj).1 heq

theorem steadily (h : s.Pids) (hs : Steadily s s') : s'.Pids :=
  h.of_slots hs.nextpid hs.allocs (fun i ↦ (hs.slots i).gen) fun i hi ↦
    ⟨fun heq ↦ hi (((hs.slots i).state_iff rfl).mpr heq), (hs.slots i).pid⟩

theorem note (h : s.Pids) : (s.note e).Pids := ⟨h.next, h.pid, h.gen, h.inj⟩

theorem setCpu [DecidableEq κ] (h : s.Pids) {p : Option (Fin nproc)} : (s.setCpu c p).Pids :=
  ⟨h.next, h.pid, h.gen, h.inj⟩

theorem abandon (h : s.Pids) : (s.abandon j).Pids := by
  have hre : (s.reparent j).Pids := by
    refine h.of_slots rfl rfl (fun i ↦ ?_) fun i hi ↦ ?_
    · rw [slots_reparent]
      split <;> rfl
    · rw [slots_reparent] at hi ⊢
      split at hi
      · next hp => exact ⟨hi, by rw [if_pos hp]⟩
      · next hp => exact ⟨hi, by rw [if_neg hp]⟩
  rw [ProcTable.abandon]
  split
  · exact hre.steadily (steadily_wakeup1 _)
  · exact hre

theorem setSlot (h : s.Pids) (hused : (s.slots j).state ≠ .unused)
    (hgen : (f (s.slots j)).gen = (s.slots j).gen)
    (hpid : (f (s.slots j)).state ≠ .unused → (f (s.slots j)).pid = (s.slots j).pid) :
    (s.setSlot j f).Pids := by
  refine h.of_slots rfl rfl (fun i ↦ ?_) fun i hi ↦ ?_
  · rw [slots_setSlot]
    split
    · next hij => rw [hij, hgen]
    · rfl
  · rw [slots_setSlot] at hi ⊢
    split at hi
    · next hij =>
      subst hij
      rw [if_pos rfl]
      exact ⟨hused, hpid hi⟩
    · next hij =>
      rw [if_neg hij]
      exact ⟨hi, rfl⟩

theorem alloc (h : s.Pids) : (s.allocated i).Pids := by
  refine ⟨?_, fun k hk ↦ ?_, fun k ↦ ?_, fun k k' hk hk' heq ↦ ?_⟩
  · change s.nextpid + 1 = BitVec.ofNat 32 (s.allocs + 1 + 1)
    rw [h.next]
    exact (BitVec.ofNat_add (s.allocs + 1) 1).symm
  · rw [slots_allocated] at hk ⊢
    split at hk
    · next hki =>
      rw [if_pos hki]
      exact h.next
    · next hki =>
      rw [if_neg hki]
      exact h.pid k hk
  · rw [slots_allocated]
    split
    · exact Nat.lt_succ_self _
    · exact (h.gen k).trans (Nat.lt_succ_self _)
  · -- the new number is larger than all others
    rw [slots_allocated] at hk hk'
    rw [slots_allocated, slots_allocated] at heq
    by_cases hki : k = i <;> by_cases hki' : k' = i
    · rw [hki, hki']
    · rw [if_pos hki, if_neg hki'] at heq
      exact absurd heq (h.gen k').ne'
    · rw [if_neg hki, if_pos hki'] at heq
      exact absurd heq (h.gen k).ne
    · rw [if_neg hki, if_neg hki'] at heq
      rw [if_neg hki] at hk
      rw [if_neg hki'] at hk'
      exact h.inj k k' hk hk' heq

end Pids

/-! ## CPUs -/

/-- A process is `RUNNING` exactly if it runs on one CPU. -/
structure Cpus (s : ProcTable κ) : Prop where
  running : ∀ c j, s.cpu c = some j → (s.slots j).state = .running
  alone : ∀ c c' j, s.cpu c = some j → s.cpu c' = some j → c = c'
  busy : ∀ j, (s.slots j).state = .running → ∃ c, s.cpu c = some j

namespace Cpus

theorem of_running_iff (h : s.Cpus) (hcpu : s'.cpu = s.cpu)
    (hrun : ∀ i, (s'.slots i).state = .running ↔ (s.slots i).state = .running) : s'.Cpus where
  running c j hc := (hrun j).mpr (h.running c j (hcpu ▸ hc))
  alone c c' j hc hc' := h.alone c c' j (hcpu ▸ hc) (hcpu ▸ hc')
  busy j hj := by
    rw [hcpu]
    exact h.busy j ((hrun j).mp hj)

theorem setSlot (h : s.Cpus)
    (hf : (f (s.slots j)).state = .running ↔ (s.slots j).state = .running) :
    (s.setSlot j f).Cpus := by
  refine h.of_running_iff rfl fun i ↦ ?_
  rw [slots_setSlot]
  split
  · next hij => rw [hij, hf]
  · rfl

theorem wakeup1 (h : s.Cpus) (ch : ProcChan) : (s.wakeup1 ch).Cpus := by
  refine h.of_running_iff rfl fun i ↦ ?_
  rw [slots_wakeup1]
  split
  · next hs => simp [hs.1]
  · rfl

theorem note (h : s.Cpus) : (s.note e).Cpus := ⟨h.running, h.alone, h.busy⟩

theorem kill (h : s.Cpus) (pid : BitVec 32) : (s.kill pid).Cpus := by
  rw [ProcTable.kill]
  split
  · exact h.note
  · apply Cpus.note
    refine h.setSlot ?_
    dsimp only
    split
    · next hs => simp [hs]
    · rfl

theorem abandon (h : s.Cpus) : (s.abandon j).Cpus := by
  have hre : (s.reparent j).Cpus := by
    refine h.of_running_iff rfl fun i ↦ ?_
    rw [slots_reparent]
    split <;> rfl
  rw [ProcTable.abandon]
  split
  · exact hre.wakeup1 _
  · exact hre

variable [DecidableEq κ]

theorem cpu_setCpu (p : Option (Fin nproc)) (c' : κ) :
    (s.setCpu c p).cpu c' = if c' = c then p else s.cpu c' := Function.update_apply ..

theorem leave (h : s.Cpus) (hc : s.cpu c = some j) (hf : (f (s.slots j)).state ≠ .running) :
    ((s.setSlot j f).setCpu c none).Cpus where
  running c' k hc' := by
    rw [cpu_setCpu] at hc'
    split at hc'
    · cases hc'
    · next hne =>
      have hkj : k ≠ j := by
        rintro rfl
        exact hne (h.alone c' c k hc' hc)
      rw [slots_setCpu, slots_setSlot, if_neg hkj]
      exact h.running c' k hc'
  alone c₁ c₂ k h₁ h₂ := by
    rw [cpu_setCpu] at h₁ h₂
    split at h₁
    · cases h₁
    · split at h₂
      · cases h₂
      · exact h.alone c₁ c₂ k h₁ h₂
  busy k hk := by
    rw [slots_setCpu, slots_setSlot] at hk
    split at hk
    · next hkj => exact absurd (hkj ▸ hk) hf
    · next hkj =>
      obtain ⟨c', hc'⟩ := h.busy k hk
      refine ⟨c', ?_⟩
      have hne : c' ≠ c := by
        rintro rfl
        rw [hc] at hc'
        exact hkj (Option.some.inj hc').symm
      rw [cpu_setCpu, if_neg hne]
      exact hc'

theorem sched (h : s.Cpus) (hc : s.cpu c = none) (hj : (s.slots j).state = .runnable) :
    ((s.setSlot j fun p ↦ { p with state := .running, chan := none }).setCpu c (some j)).Cpus := by
  have hno : ∀ c', s.cpu c' ≠ some j := by
    intro c' hc'
    rw [h.running c' j hc'] at hj
    cases hj
  refine ⟨fun c' k hc' ↦ ?_, fun c₁ c₂ k h₁ h₂ ↦ ?_, fun k hk ↦ ?_⟩
  · rw [slots_setCpu, slots_setSlot]
    split
    · rfl
    · next hkj =>
      rw [cpu_setCpu] at hc'
      split at hc'
      · exact absurd (Option.some.inj hc').symm hkj
      · exact h.running c' k hc'
  · rw [cpu_setCpu] at h₁ h₂
    split at h₁ <;> split at h₂
    · next h₁' h₂' => rw [h₁', h₂']
    · exact absurd (Option.some.inj h₁ ▸ h₂) (hno c₂)
    · exact absurd (Option.some.inj h₂ ▸ h₁) (hno c₁)
    · exact h.alone c₁ c₂ k h₁ h₂
  · by_cases hkj : k = j
    · exact ⟨c, by rw [cpu_setCpu, if_pos rfl, hkj]⟩
    · rw [slots_setCpu, slots_setSlot, if_neg hkj] at hk
      obtain ⟨c', hc'⟩ := h.busy k hk
      refine ⟨c', ?_⟩
      have hne : c' ≠ c := by
        rintro rfl
        rw [hc] at hc'
        cases hc'
      rw [cpu_setCpu, if_neg hne]
      exact hc'

end Cpus

/-! ## Parents -/

/-- Every process but `initproc` has a parent that is alive. -/
structure Family (s : ProcTable κ) : Prop where
  init : (s.slots initproc).state.live = true
  root : (s.slots initproc).parent = none
  self : ∀ i, (s.slots i).parent ≠ some i
  parent : ∀ i, i ≠ initproc → (s.slots i).state.live = true ∨ (s.slots i).state = .zombie →
    ∃ p, (s.slots i).parent = some p ∧ (s.slots p).state.live = true

namespace Family

theorem of_slots (h : s.Family) (hparent : ∀ i, (s'.slots i).parent = (s.slots i).parent)
    (hlive : ∀ i, (s'.slots i).state.live = true ↔ (s.slots i).state.live = true)
    (hzombie : ∀ i, (s'.slots i).state = .zombie → (s.slots i).state = .zombie) : s'.Family where
  init := (hlive _).mpr h.init
  root := by rw [hparent, h.root]
  self i := by
    rw [hparent]
    exact h.self i
  parent i hi hthere := by
    obtain ⟨p, hp, hlp⟩ := h.parent i hi (hthere.imp (hlive i).mp (hzombie i))
    exact ⟨p, by rw [hparent, hp], (hlive p).mpr hlp⟩

theorem steadily (h : s.Family) (hs : Steadily s s') : s'.Family :=
  h.of_slots (fun i ↦ (hs.slots i).parent) (fun i ↦ (hs.slots i).live_iff)
    fun i ↦ ((hs.slots i).state_iff rfl).mp

theorem note (h : s.Family) : (s.note e).Family := ⟨h.init, h.root, h.self, h.parent⟩

theorem setCpu [DecidableEq κ] (h : s.Family) {p : Option (Fin nproc)} : (s.setCpu c p).Family :=
  ⟨h.init, h.root, h.self, h.parent⟩

theorem setSlot (h : s.Family) (hparent : (f (s.slots j)).parent = (s.slots j).parent)
    (hlive : (s.slots j).state.live = false) (hlive' : (f (s.slots j)).state.live = false)
    (hzombie : (f (s.slots j)).state ≠ .zombie) : (s.setSlot j f).Family := by
  refine h.of_slots (fun i ↦ ?_) (fun i ↦ ?_) fun i hi ↦ ?_
  · rw [slots_setSlot]
    split
    · next hij => rw [hij, hparent]
    · rfl
  · rw [slots_setSlot]
    split
    · next hij => rw [hij, hlive, hlive']
    · rfl
  · rw [slots_setSlot] at hi
    split at hi
    · next hij => exact absurd (hij ▸ hi) hzombie
    · exact hi

theorem alloc (h : s.Family) (hi : (s.slots i).state = .unused) : (s.allocated i).Family := by
  have hset : (s.setSlot i fun p ↦
      { p with state := .embryo, pid := s.nextpid, pc := .user, gen := s.allocs }).Family :=
    h.setSlot rfl (by rw [hi]; rfl) rfl ProcState.noConfusion
  exact ⟨hset.init, hset.root, hset.self, hset.parent⟩

theorem abandon (h : s.Family) : (s.abandon j).Family := by
  -- waking `initproc` up changes nothing here
  have hre : (s.reparent j).Family := by
    have hslot : ∀ i, ((s.reparent j).slots i).state = (s.slots i).state := by
      intro i
      rw [slots_reparent]
      split <;> rfl
    refine ⟨?_, ?_, fun i ↦ ?_, fun i hi hthere ↦ ?_⟩
    · rw [hslot]
      exact h.init
    · rw [slots_reparent, if_neg (by rw [h.root]; exact (Option.some_ne_none j).symm), h.root]
    · rw [slots_reparent]
      split
      · next hij =>
        rintro heq
        rw [← Option.some.inj heq, h.root] at hij
        cases hij
      · exact h.self i
    · rw [hslot] at hthere
      obtain ⟨p, hp, hlp⟩ := h.parent i hi hthere
      rw [slots_reparent]
      split
      · exact ⟨initproc, rfl, by rw [hslot]; exact h.init⟩
      · exact ⟨p, hp, by rw [hslot]; exact hlp⟩
  rw [ProcTable.abandon]
  split
  · exact hre.steadily (steadily_wakeup1 _)
  · exact hre

theorem born (h : s.Family) (hi : (s.slots i).state = .embryo)
    (hj : (s.slots j).state = .running) :
    (s.setSlot i fun p ↦ { p with state := .runnable, parent := some j }).Family := by
  have hij : i ≠ j := by
    rintro rfl
    rw [hi] at hj
    cases hj
  have hinit : i ≠ initproc := by
    rintro rfl
    have hlive := h.init
    rw [hi] at hlive
    cases hlive
  have hlive : ∀ k, (s.slots k).state.live = true →
      ((s.setSlot i fun p ↦ { p with state := .runnable, parent := some j }).slots k).state.live
        = true := by
    intro k hk
    rw [slots_setSlot]
    split
    · rfl
    · exact hk
  refine ⟨hlive _ h.init, ?_, fun k ↦ ?_, fun k hk hthere ↦ ?_⟩
  · rw [slots_setSlot, if_neg hinit.symm]
    exact h.root
  · rw [slots_setSlot]
    split
    · next hki => exact fun heq ↦ hij (hki ▸ (Option.some.inj heq).symm)
    · exact h.self k
  · rw [slots_setSlot] at hthere ⊢
    split at hthere
    · next hki =>
      rw [if_pos hki]
      exact ⟨j, rfl, hlive j (live_of_running hj)⟩
    · next hki =>
      rw [if_neg hki]
      obtain ⟨p, hp, hlp⟩ := h.parent k hk hthere
      exact ⟨p, hp, hlive p hlp⟩

theorem exit (h : s.Family) (hj : j ≠ initproc) (hlive : (s.slots j).state.live = true)
    (hchildless : ∀ i, (s.slots i).parent ≠ some j) :
    (s.setSlot j fun p ↦ { p with state := .zombie }).Family := by
  have hparent : ∀ k, ((s.setSlot j fun p ↦ { p with state := .zombie }).slots k).parent =
      (s.slots k).parent := by
    intro k
    rw [slots_setSlot]
    split <;> rfl
  refine ⟨?_, ?_, fun k ↦ ?_, fun k hk hthere ↦ ?_⟩
  · rw [slots_setSlot, if_neg hj.symm]
    exact h.init
  · rw [hparent]
    exact h.root
  · rw [hparent]
    exact h.self k
  · have hbefore : (s.slots k).state.live = true ∨ (s.slots k).state = .zombie := by
      rw [slots_setSlot] at hthere
      split at hthere
      · next hkj => exact .inl (hkj ▸ hlive)
      · exact hthere
    obtain ⟨p, hp, hlp⟩ := h.parent k hk hbefore
    have hpj : p ≠ j := by
      rintro rfl
      exact hchildless k hp
    refine ⟨p, by rw [hparent, hp], ?_⟩
    rw [slots_setSlot, if_neg hpj]
    exact hlp

theorem reap (h : s.Family) (hi : (s.slots i).state = .zombie) :
    (s.setSlot i fun p ↦
      { p with state := .unused, pid := 0, parent := none, killed := false }).Family := by
  have hne : ∀ k, (s.slots k).state.live = true → k ≠ i := by
    rintro k hk rfl
    rw [hi] at hk
    cases hk
  refine ⟨?_, ?_, fun k ↦ ?_, fun k hk hthere ↦ ?_⟩
  · rw [slots_setSlot, if_neg (hne _ h.init)]
    exact h.init
  · rw [slots_setSlot, if_neg (hne _ h.init)]
    exact h.root
  · rw [slots_setSlot]
    split
    · exact (Option.some_ne_none k).symm
    · exact h.self k
  · rw [slots_setSlot] at hthere ⊢
    split at hthere
    · rcases hthere with h | h <;> cases h
    · next hki =>
      rw [if_neg hki]
      obtain ⟨p, hp, hlp⟩ := h.parent k hk hthere
      refine ⟨p, hp, ?_⟩
      rw [slots_setSlot, if_neg (hne p hlp)]
      exact hlp

end Family

/-! ## Every step -/

section Steps

variable [DecidableEq κ]

theorem Change.pids (h : Change s s') (hP : s.Pids) (hc : s.Cpus) : s'.Pids := by
  -- a process that leaves its CPU
  have hleave : ∀ {c j}, s.cpu c = some j → ∀ {f : ProcSlot → ProcSlot},
      (f (s.slots j)).pid = (s.slots j).pid → (f (s.slots j)).gen = (s.slots j).gen →
      ((s.setSlot j f).setCpu c none).Pids := by
    intro c j hcpu f hpid hgen
    refine (hP.setSlot ?_ hgen fun _ ↦ hpid).setCpu
    rw [hc.running c j hcpu]
    exact ProcState.noConfusion
  cases h with
  | wake ch => exact hP.steadily (steadily_wakeup1 ch)
  | fault j run => exact hP.steadily (steadily_setSlot ⟨rfl, rfl, rfl, .inl rfl⟩)
  | goto j pc run => exact hP.steadily (steadily_setSlot ⟨rfl, rfl, rfl, .inl rfl⟩)
  | waitNone g => exact hP.note
  | yield c j cpu => exact hleave cpu rfl rfl
  | sleep c j a cpu => exact hleave cpu rfl rfl
  | sleepWait c j cpu _ => exact hleave cpu rfl rfl
  | sched c j _ ready =>
    apply Pids.setCpu
    exact hP.setSlot (by rw [ready]; exact ProcState.noConfusion) rfl fun _ ↦ rfl
  | alloc i free => exact hP.alloc
  | born j i g run embryo _ =>
    apply Pids.note
    exact hP.setSlot (by rw [embryo]; exact ProcState.noConfusion) rfl fun _ ↦ rfl
  | exiting j _ _ => exact hP.note
  | abandon j ne _ => exact hP.abandon
  | exit c j cpu _ _ _ _ => exact hleave cpu rfl rfl
  | reap j i g _ zombie _ _ =>
    apply Pids.note
    exact hP.setSlot (by rw [zombie]; exact ProcState.noConfusion) rfl fun hne ↦ absurd rfl hne

theorem Change.cpus (h : Change s s') (hC : s.Cpus) : s'.Cpus := by
  cases h with
  | wake ch => exact hC.wakeup1 ch
  | fault j run => exact hC.setSlot Iff.rfl
  | goto j pc run => exact hC.setSlot Iff.rfl
  | waitNone g => exact hC.note
  | yield c j cpu => exact hC.leave cpu ProcState.noConfusion
  | sleep c j a cpu => exact hC.leave cpu ProcState.noConfusion
  | sleepWait c j cpu _ => exact hC.leave cpu ProcState.noConfusion
  | sched c j cpu ready => exact hC.sched cpu ready
  | alloc i free =>
    refine hC.of_running_iff rfl fun k ↦ ?_
    rw [slots_allocated]
    split
    · next hki => simp [hki, free]
    · rfl
  | born j i g run embryo _ =>
    apply Cpus.note
    exact hC.setSlot (by simp [embryo])
  | exiting j _ _ => exact hC.note
  | abandon j ne _ => exact hC.abandon
  | exit c j cpu _ _ _ _ => exact hC.leave cpu ProcState.noConfusion
  | reap j i g _ zombie _ _ =>
    apply Cpus.note
    exact hC.setSlot (by simp [zombie])

theorem Change.family (h : Change s s') (hF : s.Family) (hc : s.Cpus) : s'.Family := by
  -- a process that leaves its CPU and stays alive
  have hleave : ∀ {c j}, s.cpu c = some j → ∀ {f : ProcSlot → ProcSlot},
      Steady (s.slots j) (f (s.slots j)) → ((s.setSlot j f).setCpu c none).Family :=
    fun _ _ hf ↦ (hF.steadily (steadily_setSlot hf)).setCpu
  have hlive : ∀ {c j}, s.cpu c = some j → (s.slots j).state.live = true :=
    fun hcpu ↦ live_of_running (hc.running _ _ hcpu)
  cases h with
  | wake ch => exact hF.steadily (steadily_wakeup1 ch)
  | fault j run => exact hF.steadily (steadily_setSlot ⟨rfl, rfl, rfl, .inl rfl⟩)
  | goto j pc run => exact hF.steadily (steadily_setSlot ⟨rfl, rfl, rfl, .inl rfl⟩)
  | waitNone g => exact hF.note
  | yield c j cpu => exact hleave cpu (steady_of_live rfl rfl rfl (hlive cpu) rfl)
  | sleep c j a cpu => exact hleave cpu (steady_of_live rfl rfl rfl (hlive cpu) rfl)
  | sleepWait c j cpu _ => exact hleave cpu (steady_of_live rfl rfl rfl (hlive cpu) rfl)
  | sched c j _ ready =>
    apply Family.setCpu
    exact hF.steadily (steadily_setSlot (steady_of_live rfl rfl rfl (by rw [ready]; rfl) rfl))
  | alloc i free => exact hF.alloc free
  | born j i g run embryo _ =>
    apply Family.note
    exact hF.born embryo run
  | exiting j _ _ => exact hF.note
  | abandon j ne _ => exact hF.abandon
  | exit c j cpu ne _ childless _ => exact (hF.exit ne (hlive cpu) childless).setCpu
  | reap j i g _ zombie _ _ =>
    apply Family.note
    exact hF.reap zombie

/-- What holds of the table whenever `ptable.lock` is free. -/
structure Orderly (s : ProcTable κ) : Prop where
  inv : s.Inv
  pids : s.Pids
  cpus : s.Cpus
  family : s.Family

omit [DecidableEq κ] in
theorem orderly_boot : (boot : ProcTable κ).Orderly := by
  have hslot : ∀ i : Fin nproc, (boot : ProcTable κ).slots i =
      if i = initproc then ⟨.runnable, 1, none, false, none, .user, 0⟩
      else ⟨.unused, 0, none, false, none, .user, 0⟩ := fun _ ↦ rfl
  have hused : ∀ i, ((boot : ProcTable κ).slots i).state ≠ .unused → i = initproc := by
    intro i hi
    by_contra hne
    rw [hslot, if_neg hne] at hi
    exact hi rfl
  refine ⟨inv_boot, ⟨rfl, fun i hi ↦ ?_, fun i ↦ inv_boot.gen i, fun i j hi hj _ ↦ ?_⟩,
    ⟨fun c j hc ↦ (by cases hc), fun c c' j hc ↦ (by cases hc), fun j hj ↦ ?_⟩,
    ⟨rfl, rfl, fun i ↦ ?_, fun i hi hthere ↦ ?_⟩⟩
  · rw [hused i hi]
    rfl
  · rw [hused i hi, hused j hj]
  · rw [hslot] at hj
    split at hj <;> cases hj
  · rw [hslot]
    split <;> exact (Option.some_ne_none i).symm
  · rw [hslot, if_neg hi] at hthere
    rcases hthere with h | h <;> cases h

theorem Orderly.step {a : κ × ProcAct} (h : s.Orderly) (hs : s.step a = some s') : s'.Orderly := by
  have hgood := (good_of_step h.inv hs).inv
  rcases step_cases h.inv h.family.self hs with ⟨pid, -, rfl⟩ | ⟨j, i, -, hc, hpc, rfl⟩ | hchanges
  · refine ⟨hgood, h.pids.steadily (steadily_kill pid), ?_, h.family.steadily (steadily_kill pid)⟩
    exact h.cpus.kill pid
  · have hembryo := h.inv.embryo j i hpc
    have hij : i ≠ j := by
      rintro rfl
      rw [h.cpus.running _ _ hc] at hembryo
      cases hembryo
    have huser : Steadily s (s.setSlot j fun p ↦ { p with pc := .user }) :=
      steadily_setSlot ⟨rfl, rfl, rfl, .inl rfl⟩
    have hslot : (s.setSlot j fun p ↦ { p with pc := .user }).slots i = s.slots i := by
      rw [slots_setSlot, if_neg hij]
    rw [forkDone, if_neg Bool.false_ne_true] at hgood ⊢
    refine ⟨hgood, ?_, ?_, ?_⟩
    · refine (h.pids.steadily huser).setSlot ?_ rfl fun hne ↦ absurd rfl hne
      rw [hslot, hembryo]
      exact ProcState.noConfusion
    · refine (h.cpus.setSlot Iff.rfl : Cpus (s.setSlot j fun p ↦ { p with pc := .user })).setSlot ?_
      simp [hslot, hembryo]
    · refine (h.family.steadily huser).setSlot rfl ?_ rfl ProcState.noConfusion
      rw [hslot, hembryo]
      rfl
  · have hall : s'.Pids ∧ s'.Cpus ∧ s'.Family := by
      refine hchanges.preserves (P := fun s ↦ s.Pids ∧ s.Cpus ∧ s.Family) ?_
        ⟨h.pids, h.cpus, h.family⟩
      rintro s s' hch ⟨hP, hC, hF⟩
      exact ⟨hch.pids hP hC, hch.cpus hC, hch.family hF hC⟩
    exact ⟨hgood, hall.1, hall.2.1, hall.2.2⟩

theorem orderly_of_reachable (h : (procTable κ).Reachable s) : s.Orderly := by
  refine h.invariant ?_ fun s a s' hI hs ↦ hI.step hs
  rintro _ rfl
  exact orderly_boot

/-- **The process table.** On any number of CPUs, whenever `ptable.lock` is free and while fewer
than `2 ^ 31 - 1` pids have been allocated: the pids of the slots in use are positive and differ
from each other; a process is `RUNNING` exactly if one CPU runs it; and every process but `initproc`
that is alive or a zombie has a parent that is alive. -/
theorem table_orderly (h : (procTable κ).Reachable s) (hpids : s.allocs < 2 ^ 31 - 1) :
    (∀ i, (s.slots i).state ≠ .unused → 0 < (s.slots i).pid.toInt) ∧
    (∀ i j, (s.slots i).state ≠ .unused → (s.slots j).state ≠ .unused →
      (s.slots i).pid = (s.slots j).pid → i = j) ∧
    (∀ i, (s.slots i).state = .running ↔ ∃! c, s.cpu c = some i) ∧
    ∀ i, i ≠ initproc → (s.slots i).state.live = true ∨ (s.slots i).state = .zombie →
      ∃ p, (s.slots i).parent = some p ∧ (s.slots p).state.live = true := by
  obtain ⟨-, hP, hC, hF⟩ := orderly_of_reachable h
  have hpid : ∀ i, (s.slots i).state ≠ .unused →
      (s.slots i).pid.toNat = (s.slots i).gen + 1 ∧ (s.slots i).gen + 1 < 2 ^ 31 := by
    intro i hi
    have hgen := hP.gen i
    rw [hP.pid i hi, BitVec.toNat_ofNat]
    omega
  refine ⟨fun i hi ↦ ?_, fun i j hi hj heq ↦ ?_, fun i ↦ ⟨fun hi ↦ ?_, ?_⟩, hF.parent⟩
  · obtain ⟨hnat, hlt⟩ := hpid i hi
    rw [BitVec.toInt_eq_toNat_of_lt (by omega), hnat]
    omega
  · have hnat := congrArg BitVec.toNat heq
    rw [(hpid i hi).1, (hpid j hj).1] at hnat
    exact hP.inj i j hi hj (Nat.succ.inj hnat)
  · obtain ⟨c, hc⟩ := hC.busy i hi
    exact ⟨c, hc, fun c' hc' ↦ hC.alone c' c i hc' hc⟩
  · rintro ⟨c, hc, -⟩
    exact hC.running c i hc

/-- The first process forks. -/
theorem table_orderly_fork : ∃ s : ProcTable Unit, (procTable Unit).Reachable s ∧
    s.allocs < 2 ^ 31 - 1 ∧ (s.slots 1).state = .runnable ∧
      ∃ p, (s.slots 1).parent = some p ∧ (s.slots p).state.live = true := by
  obtain ⟨s, hs, hend⟩ := Machine.exists_reachable_of_run (M := procTable Unit)
    [((), .sched 0), ((), .fork), ((), .forkDone true)]
    (fun s ↦ s.allocs < 2 ^ 31 - 1 ∧ (s.slots 1).state = .runnable) rfl (by decide +kernel)
  obtain ⟨hallocs, hrun⟩ := of_decide_eq_true hend
  refine ⟨s, hs, hallocs, hrun, (table_orderly hs hallocs).2.2.2 1 (by decide) (.inl ?_)⟩
  rw [hrun]
  rfl

end Steps

end ProcTable

end OperatingSystems
