import OperatingSystems.Proc.Table

/-!
# What happens to a slot

`Move` lists all that a step can do to a slot: it stays as it is, up to going to sleep, waking up or
running and to being adopted; or it is allocated, given back, started, or exits, or is reaped. That
a step does nothing else rests on `Inv`, which says how the slots of the table go together: each CPU
runs a process of its own, and each slot that is being set up by `fork` is set up by one process.
-/

namespace OperatingSystems

open Function

/-- `SLEEPING`, `RUNNABLE` or `RUNNING`. -/
def ProcState.live : ProcState → Bool
  | sleeping | runnable | running => true
  | _ => false

namespace ProcTable

variable {κ : Type} {s s' t : ProcTable κ} {c : κ} {i j k : Fin nproc} {p q r p' : ProcSlot} {n : ℕ}
  {f : ProcSlot → ProcSlot}

/-- Adoption by `initproc` is the only way in which a parent changes. -/
def Adopted (p p' : ProcSlot) : Prop :=
  p'.parent = p.parent ∨ p.parent ≠ some initproc ∧ p'.parent = some initproc

/-- A slot is as before, or its process goes from one of the three states of a live process to
another one. It may be killed or adopted. -/
structure Same (p p' : ProcSlot) : Prop where
  gen : p'.gen = p.gen
  killed : p.killed = true → p'.killed = true
  parent : Adopted p p'
  state : p'.state = p.state ∨ p.state.live = true ∧ p'.state.live = true

/-- What a step does to slot `i`, when `allocs` slots were allocated before it. -/
inductive Move (allocs : ℕ) (i : Fin nproc) (p p' : ProcSlot) : Prop
  | same (h : Same p p')
  | alloc (before : p.state = .unused) (after : p'.state = .embryo) (gen : p'.gen = allocs)
  | fail (before : p.state = .embryo) (after : p'.state = .unused) (gen : p'.gen = p.gen)
  | born (before : p.state = .embryo) (after : p'.state.live = true) (gen : p'.gen = p.gen)
  | exit (before : p.state.live = true) (after : p'.state = .zombie) (ne : i ≠ initproc)
      (gen : p'.gen = p.gen)
  | reap (before : p.state = .zombie) (after : p'.state = .unused) (gen : p'.gen = p.gen)

structure Inv (s : ProcTable κ) : Prop where
  running : ∀ c j, s.cpu c = some j → (s.slots j).state = .running
  alone : ∀ c c' j, s.cpu c = some j → s.cpu c' = some j → c = c'
  embryo : ∀ j i, (s.slots j).pc = .forking i → (s.slots i).state = .embryo
  forker : ∀ j j' i, (s.slots j).pc = .forking i → (s.slots j').pc = .forking i → j = j'
  init : (s.slots initproc).state.live = true
  gen : ∀ i, (s.slots i).gen < s.allocs

/-! ## Changes of one slot -/

theorem slots_setSlot (f : ProcSlot → ProcSlot) :
    (s.setSlot j f).slots i = if i = j then f (s.slots i) else s.slots i := by
  by_cases h : i = j
  · rw [if_pos h, h]
    exact update_self ..
  · rw [if_neg h]
    exact update_of_ne h ..

@[simp] theorem slots_note (e : ProcEvent) : (s.note e).slots = s.slots := rfl

theorem of_first {p : ProcSlot → Bool} (h : s.first p = some i) : p (s.slots i) = true :=
  List.find?_some (p := fun i ↦ p (s.slots i)) h

theorem of_first_eq_none {p : ProcSlot → Bool} (h : s.first p = none) (i : Fin nproc) :
    p (s.slots i) = false :=
  Bool.eq_false_of_not_eq_true (List.find?_eq_none.mp h i (List.mem_finRange i))

/-! ## Sequences of changes -/

theorem Adopted.trans (h : Adopted p q) (h' : Adopted q r) : Adopted p r := by
  rcases h' with heq | ⟨hne, heq⟩
  · rw [Adopted, heq]
    exact h
  · rcases h with heq' | ⟨-, heq'⟩
    · exact Or.inr ⟨heq' ▸ hne, heq⟩
    · exact absurd heq' hne

theorem Same.refl (p : ProcSlot) : Same p p := ⟨rfl, id, Or.inl rfl, Or.inl rfl⟩

theorem Same.live_iff (h : Same p q) : q.state.live = true ↔ p.state.live = true := by
  rcases h.state with heq | ⟨hp, hq⟩
  · rw [heq]
  · exact ⟨fun _ ↦ hp, fun _ ↦ hq⟩

theorem Same.state_eq_iff {x : ProcState} (h : Same p q) (hx : x.live = false) :
    q.state = x ↔ p.state = x := by
  rcases h.state with heq | ⟨hp, hq⟩
  · rw [heq]
  · constructor
    · rintro rfl
      rw [hx] at hq
      cases hq
    · rintro rfl
      rw [hx] at hp
      cases hp

theorem Same.trans (h : Same p q) (h' : Same q r) : Same p r where
  gen := h'.gen.trans h.gen
  killed := h'.killed ∘ h.killed
  parent := h.parent.trans h'.parent
  state := by
    rcases h'.state with heq | ⟨hq, hr⟩
    · rw [heq]
      exact h.state
    · exact Or.inr ⟨h.live_iff.mp hq, hr⟩

theorem same_of_running (hrun : p.state = .running) (hlive : p'.state.live = true)
    (hgen : p'.gen = p.gen) (hkilled : p'.killed = p.killed) (hparent : p'.parent = p.parent) :
    Same p p' :=
  ⟨hgen, fun h ↦ hkilled.trans h, Or.inl hparent, Or.inr ⟨by rw [hrun]; rfl, hlive⟩⟩

theorem Move.of_same (h : Same p q) (h' : Move n i q r) : Move n i p r := by
  cases h' with
  | same h' => exact .same (h.trans h')
  | alloc before after gen => exact .alloc ((h.state_eq_iff rfl).mp before) after gen
  | fail before after gen => exact .fail ((h.state_eq_iff rfl).mp before) after (gen.trans h.gen)
  | born before after gen => exact .born ((h.state_eq_iff rfl).mp before) after (gen.trans h.gen)
  | exit before after ne gen => exact .exit (h.live_iff.mp before) after ne (gen.trans h.gen)
  | reap before after gen => exact .reap ((h.state_eq_iff rfl).mp before) after (gen.trans h.gen)

theorem Move.then_same (h : Move n i p q) (h' : Same q r) : Move n i p r := by
  cases h with
  | same h => exact .same (h.trans h')
  | alloc before after gen =>
    exact .alloc before ((h'.state_eq_iff rfl).mpr after) (h'.gen.trans gen)
  | fail before after gen =>
    exact .fail before ((h'.state_eq_iff rfl).mpr after) (h'.gen.trans gen)
  | born before after gen => exact .born before (h'.live_iff.mpr after) (h'.gen.trans gen)
  | exit before after ne gen =>
    exact .exit before ((h'.state_eq_iff rfl).mpr after) ne (h'.gen.trans gen)
  | reap before after gen =>
    exact .reap before ((h'.state_eq_iff rfl).mpr after) (h'.gen.trans gen)

def Moves (s s' : ProcTable κ) : Prop := ∀ i, Move s.allocs i (s.slots i) (s'.slots i)

theorem moves_setSlot (h : Move s.allocs j (s.slots j) (f (s.slots j))) :
    Moves s (s.setSlot j f) := by
  intro i
  rw [slots_setSlot]
  split
  · next hi => exact hi ▸ h
  · exact .same (.refl _)

theorem Moves.then_setSlot (h : Moves s s') (hf : Same (s'.slots j) (f (s'.slots j))) :
    Moves s (s'.setSlot j f) := by
  intro i
  rw [slots_setSlot]
  split
  · next hi => exact (h i).then_same (hi ▸ hf)
  · exact h i

theorem moves_setSlot_setSlot {g : ProcSlot → ProcSlot} (hij : i ≠ j)
    (hj : Move s.allocs j (s.slots j) (f (s.slots j)))
    (hi : Move s.allocs i (s.slots i) (g (s.slots i))) : Moves s ((s.setSlot j f).setSlot i g) := by
  intro k
  rw [slots_setSlot]
  split
  · next hk =>
    subst hk
    rw [slots_setSlot, if_neg hij]
    exact hi
  · exact moves_setSlot hj k

/-! ## Waking up and adoption -/

/-- A slot is woken up, killed or adopted, or left as it is. -/
structure Soft (p p' : ProcSlot) : Prop where
  gen : p'.gen = p.gen
  pc : p'.pc = p.pc
  killed : p.killed = true → p'.killed = true
  parent : Adopted p p'
  state : p'.state = p.state ∨ p.state = .sleeping ∧ p'.state = .runnable

theorem Soft.refl (p : ProcSlot) : Soft p p := ⟨rfl, rfl, id, Or.inl rfl, Or.inl rfl⟩

theorem Soft.trans (h : Soft p q) (h' : Soft q r) : Soft p r where
  gen := h'.gen.trans h.gen
  pc := h'.pc.trans h.pc
  killed := h'.killed ∘ h.killed
  parent := h.parent.trans h'.parent
  state := by
    rcases h'.state with heq | ⟨hs, hr⟩
    · rw [heq]
      exact h.state
    · rcases h.state with heq | ⟨-, hr'⟩
      · exact Or.inr ⟨heq ▸ hs, hr⟩
      · rw [hr'] at hs
        cases hs

theorem Soft.same (h : Soft p p') : Same p p' := by
  refine ⟨h.gen, h.killed, h.parent, h.state.imp_right fun ⟨hs, hr⟩ ↦ ?_⟩
  rw [hs, hr]
  exact ⟨rfl, rfl⟩

structure SoftStep (s s' : ProcTable κ) : Prop where
  cpu : s'.cpu = s.cpu
  allocs : s'.allocs = s.allocs
  slots : ∀ i, Soft (s.slots i) (s'.slots i)

theorem SoftStep.refl (s : ProcTable κ) : SoftStep s s := ⟨rfl, rfl, fun _ ↦ .refl _⟩

theorem SoftStep.trans (h : SoftStep s s') (h' : SoftStep s' t) : SoftStep s t :=
  ⟨h'.cpu.trans h.cpu, h'.allocs.trans h.allocs, fun i ↦ (h.slots i).trans (h'.slots i)⟩

theorem SoftStep.moves (h : SoftStep s s') : Moves s s' := fun i ↦ .same (h.slots i).same

theorem softStep_wakeup1 (ch : ProcChan) : SoftStep s (s.wakeup1 ch) := by
  refine ⟨rfl, rfl, fun i ↦ ?_⟩
  rw [wakeup1]
  dsimp only
  split
  · next h => exact ⟨rfl, rfl, id, Or.inl rfl, Or.inr ⟨h.1, rfl⟩⟩
  · exact .refl _

theorem softStep_reparent (hj : j ≠ initproc) : SoftStep s (s.reparent j) := by
  refine ⟨rfl, rfl, fun i ↦ ?_⟩
  rw [reparent]
  dsimp only
  split
  · next h =>
    refine ⟨rfl, rfl, id, Or.inr ⟨?_, rfl⟩, Or.inl rfl⟩
    rw [h]
    exact fun heq ↦ hj (Option.some.inj heq)
  · exact .refl _

theorem SoftStep.note (h : SoftStep s s') (e : ProcEvent) : SoftStep s (s'.note e) :=
  ⟨h.cpu, h.allocs, h.slots⟩

theorem softStep_kill (pid : BitVec 32) : SoftStep s (s.kill pid) := by
  rw [kill]
  split
  · exact (SoftStep.refl s).note _
  · next i hi =>
    apply SoftStep.note
    refine ⟨rfl, rfl, fun i' ↦ ?_⟩
    rw [slots_setSlot]
    split
    · refine ⟨rfl, rfl, fun _ ↦ rfl, Or.inl rfl, ?_⟩
      dsimp only
      split
      · next hs => exact Or.inr ⟨hs, rfl⟩
      · exact Or.inl rfl
    · exact .refl _

theorem softStep_fault (j : Fin nproc) :
    SoftStep s (s.setSlot j fun p ↦ { p with killed := true }) := by
  refine ⟨rfl, rfl, fun i ↦ ?_⟩
  rw [slots_setSlot]
  split
  · exact ⟨rfl, rfl, fun _ ↦ rfl, Or.inl rfl, Or.inl rfl⟩
  · exact .refl _

theorem softStep_exit (hj : j ≠ initproc) : SoftStep s ((s.wakeParent j).abandon j) := by
  have hwake : SoftStep s (s.wakeParent j) := by
    rw [wakeParent]
    split
    · exact .refl s
    · exact softStep_wakeup1 _
  refine hwake.trans ?_
  rw [abandon]
  split
  · exact (softStep_reparent hj).trans (softStep_wakeup1 _)
  · exact softStep_reparent hj

theorem Inv.soft (hI : s.Inv) (h : SoftStep s s') : s'.Inv where
  running c j hc := by
    have hrun := hI.running c j (h.cpu ▸ hc)
    rcases (h.slots j).state with heq | ⟨hs, -⟩
    · rw [heq, hrun]
    · rw [hs] at hrun
      cases hrun
  alone c c' j hc hc' := hI.alone c c' j (h.cpu ▸ hc) (h.cpu ▸ hc')
  embryo j i hj := by
    have hembryo := hI.embryo j i ((h.slots j).pc ▸ hj)
    rcases (h.slots i).state with heq | ⟨hs, -⟩
    · rw [heq, hembryo]
    · rw [hs] at hembryo
      cases hembryo
  forker j j' i hj hj' := hI.forker j j' i ((h.slots j).pc ▸ hj) ((h.slots j').pc ▸ hj')
  init := (h.slots initproc).same.live_iff.mpr hI.init
  gen i := by
    rw [(h.slots i).gen, h.allocs]
    exact hI.gen i

/-! ## The invariant under single changes -/

theorem Inv.setSlot (hI : s.Inv)
    (hpc : ∀ i, (f (s.slots j)).pc = .forking i → (s.slots j).pc = .forking i)
    (hgen : (f (s.slots j)).gen < s.allocs)
    (hembryo : (s.slots j).state = .embryo →
      (f (s.slots j)).state = .embryo ∨ ∀ k, (s.slots k).pc ≠ .forking j)
    (hrunning : (s.slots j).state = .running →
      (f (s.slots j)).state = .running ∨ ∀ c, s.cpu c ≠ some j)
    (hinit : j = initproc → (f (s.slots j)).state.live = true) : (s.setSlot j f).Inv := by
  have hpc' : ∀ k i, ((s.setSlot j f).slots k).pc = .forking i → (s.slots k).pc = .forking i := by
    intro k i h
    rw [slots_setSlot] at h
    split at h
    · next hk => exact hk ▸ hpc i (hk ▸ h)
    · exact h
  refine ⟨fun c k hc ↦ ?_, hI.alone, fun k i h ↦ ?_, fun k k' i h h' ↦ ?_, ?_, fun i ↦ ?_⟩
  · rw [slots_setSlot]
    split
    · next hk =>
      subst hk
      exact (hrunning (hI.running c k hc)).resolve_right fun hno ↦ hno c hc
    · exact hI.running c k hc
  · have hi := hI.embryo k i (hpc' k i h)
    rw [slots_setSlot]
    split
    · next hij =>
      subst hij
      exact (hembryo hi).resolve_right fun hno ↦ hno k (hpc' k i h)
    · exact hi
  · exact hI.forker k k' i (hpc' k i h) (hpc' k' i h')
  · rw [slots_setSlot]
    split
    · next hj => exact hj.symm ▸ hinit hj.symm
    · exact hI.init
  · rw [slots_setSlot]
    split
    · next hij => exact hij ▸ hgen
    · exact hI.gen i

theorem Inv.setUser (hI : s.Inv) (hrun : (s.slots j).state = .running) :
    (s.setSlot j fun p ↦ { p with pc := .user }).Inv :=
  hI.setSlot nofun (hI.gen j) (fun h ↦ absurd (hrun.symm.trans h) nofun) (fun h ↦ Or.inl h)
    fun _ ↦ by
      change (s.slots j).state.live = true
      rw [hrun]
      rfl

theorem Inv.setForking (hI : s.Inv) (hi : (s.slots i).state = .embryo)
    (hno : ∀ k, (s.slots k).pc ≠ .forking i) :
    (s.setSlot j fun p ↦ { p with pc := .forking i }).Inv := by
  have hpc : ∀ k i', ((s.setSlot j fun p ↦ { p with pc := .forking i }).slots k).pc = .forking i' →
      k = j ∧ i' = i ∨ (s.slots k).pc = .forking i' := by
    intro k i' h
    rw [slots_setSlot] at h
    split at h
    · next hk =>
      rw [ProcPc.forking.injEq] at h
      exact Or.inl ⟨hk, h.symm⟩
    · exact Or.inr h
  have hslot : ∀ k, ((s.setSlot j fun p ↦ { p with pc := .forking i }).slots k).state
      = (s.slots k).state ∧ ((s.setSlot j fun p ↦ { p with pc := .forking i }).slots k).gen
      = (s.slots k).gen := by
    intro k
    rw [slots_setSlot]
    split <;> exact ⟨rfl, rfl⟩
  refine ⟨fun c k hc ↦ ?_, hI.alone, fun k i' h ↦ ?_, fun k k' i' h h' ↦ ?_, ?_, fun k ↦ ?_⟩
  · rw [(hslot k).1]
    exact hI.running c k hc
  · rw [(hslot i').1]
    rcases hpc k i' h with ⟨-, rfl⟩ | h
    · exact hi
    · exact hI.embryo k i' h
  · rcases hpc k i' h with ⟨hk, rfl⟩ | h <;> rcases hpc k' i' h' with ⟨hk', hi'⟩ | h'
    · rw [hk, hk']
    · exact absurd h' (hno k')
    · exact absurd (hi' ▸ h) (hno k)
    · exact hI.forker k k' i' h h'
  · rw [(hslot initproc).1]
    exact hI.init
  · rw [(hslot k).2]
    exact hI.gen k

theorem inv_boot : (boot : ProcTable κ).Inv where
  running _ _ h := by cases h
  alone _ _ _ h := by cases h
  embryo j i h := by
    change (if j = initproc then _ else _ : ProcSlot).pc = _ at h
    split at h <;> cases h
  forker j j' i h := by
    change (if j = initproc then _ else _ : ProcSlot).pc = _ at h
    split at h <;> cases h
  init := rfl
  gen i := by
    change (if i = initproc then _ else _ : ProcSlot).gen < 1
    split <;> exact Nat.one_pos

/-! ## The critical sections -/

structure Good (s s' : ProcTable κ) : Prop where
  inv : s'.Inv
  moves : Moves s s'
  allocs : s.allocs ≤ s'.allocs

theorem SoftStep.good (h : SoftStep s s') (hI : s.Inv) : Good s s' :=
  ⟨hI.soft h, h.moves, h.allocs.ge⟩

theorem Good.of_soft (h : SoftStep s t) (h' : Good t s') : Good s s' :=
  ⟨h'.inv, fun i ↦ .of_same (h.slots i).same (h.allocs ▸ h'.moves i), h.allocs ▸ h'.allocs⟩

theorem Good.note (h : Good s s') (e : ProcEvent) : Good s (s'.note e) :=
  ⟨h.inv.soft ((SoftStep.refl s').note e), h.moves, h.allocs⟩

theorem allocproc_spec (hI : s.Inv) (h : s.allocproc = some (i, s')) :
    Good s s' ∧ s'.cpu = s.cpu ∧ (s.slots i).state = .unused ∧ (s'.slots i).state = .embryo ∧
      (∀ k, (s'.slots k).pc ≠ .forking i) ∧ ∀ k, k ≠ i → s'.slots k = s.slots k := by
  rw [allocproc] at h
  split at h
  · cases h
  · next i' hi =>
    cases h
    have hunused : (s.slots i).state = .unused := of_decide_eq_true (of_first hi)
    have hI' : ({ s with nextpid := s.nextpid + 1, allocs := s.allocs + 1 } : ProcTable κ).Inv :=
      ⟨hI.running, hI.alone, hI.embryo, hI.forker, hI.init,
        fun i ↦ (hI.gen i).trans (Nat.lt_succ_self _)⟩
    have hmoves : Moves s (s.setSlot i fun p ↦
        { p with state := .embryo, pid := s.nextpid, pc := .user, gen := s.allocs }) :=
      moves_setSlot (.alloc hunused rfl rfl)
    refine ⟨?_, rfl, hunused, ?_, fun k hk ↦ ?_, fun k hk ↦ ?_⟩
    · apply Good.note
      refine ⟨?_, fun k ↦ hmoves k, Nat.le_succ _⟩
      refine hI'.setSlot (fun _ h ↦ ?_) (Nat.lt_succ_self _) (fun h ↦ ?_) (fun h ↦ ?_) fun h ↦ ?_
      · cases h
      · exact absurd (hunused.symm.trans h) nofun
      · exact absurd (hunused.symm.trans h) nofun
      · have := hI.init
        rw [← h, hunused] at this
        cases this
    · rw [slots_note, slots_setSlot, if_pos rfl]
    · rw [slots_note, slots_setSlot] at hk
      split at hk
      · cases hk
      · exact absurd (hunused.symm.trans (hI.embryo k i hk)) nofun
    · rw [slots_note, slots_setSlot, if_neg hk]

theorem good_fork (hI : s.Inv) (hc : s.cpu c = some j) : Good s (s.fork j) := by
  have hrun := hI.running c j hc
  rw [fork]
  split
  · exact ⟨hI, fun i ↦ .same (.refl _), le_rfl⟩
  · next i t ht =>
    obtain ⟨hgood, hcpu, hunused, hembryo, hno, hother⟩ := allocproc_spec hI ht
    have hji : j ≠ i := by
      rintro rfl
      rw [hrun] at hunused
      cases hunused
    refine ⟨hgood.inv.setForking hembryo hno, hgood.moves.then_setSlot ?_, hgood.allocs⟩
    have hrun' : (t.slots j).state = .running := by rw [hother j hji, hrun]
    exact same_of_running hrun' (by rw [hrun']; rfl) rfl rfl rfl

theorem good_forkDone (hI : s.Inv) (hc : s.cpu c = some j) (hpc : (s.slots j).pc = .forking i)
    (ok : Bool) : Good s (s.forkDone j i ok) := by
  have hrun := hI.running c j hc
  have hembryo := hI.embryo j i hpc
  have hij : i ≠ j := by
    rintro rfl
    rw [hrun] at hembryo
    cases hembryo
  have hslot : (s.setSlot j fun p ↦ { p with pc := .user }).slots i = s.slots i := by
    rw [slots_setSlot, if_neg hij]
  have huser : Same (s.slots j) { s.slots j with pc := .user } :=
    same_of_running hrun (by rw [hrun]; rfl) rfl rfl rfl
  -- whatever becomes of the child, process `j` was the only one to set it up
  have hinv : ∀ f : ProcSlot → ProcSlot, (∀ p, (f p).pc = p.pc ∧ (f p).gen = p.gen) →
      ((s.setSlot j fun p ↦ { p with pc := .user }).setSlot i f).Inv := by
    intro f hf
    refine (hI.setUser hrun).setSlot (fun k hk ↦ ?_) ?_ (fun _ ↦ Or.inr fun k hk ↦ ?_) ?_ ?_
    · rw [← hk]
      exact (hf _).1.symm
    · rw [(hf _).2]
      exact (hI.setUser hrun).gen i
    · rw [slots_setSlot] at hk
      split at hk
      · cases hk
      · next hkj => exact hkj (hI.forker k j i hk hpc)
    · rw [hslot, hembryo]
      exact nofun
    · rintro rfl
      have := hI.init
      rw [hembryo] at this
      cases this
  rw [forkDone]
  split
  · apply Good.note
    exact ⟨hinv _ fun _ ↦ ⟨rfl, rfl⟩,
      moves_setSlot_setSlot hij (.same huser) (.born hembryo rfl rfl), le_rfl⟩
  · exact ⟨hinv _ fun _ ↦ ⟨rfl, rfl⟩,
      moves_setSlot_setSlot hij (.same huser) (.fail hembryo rfl rfl), le_rfl⟩

theorem forking_of_setSlot (h : ((s.setSlot j f).slots k).pc = .forking i)
    (hf : ∀ p, (f p).pc = .forking i → p.pc = .forking i) : (s.slots k).pc = .forking i := by
  rw [slots_setSlot] at h
  split at h
  · exact hf _ h
  · exact h

section Cpus

variable [DecidableEq κ] {a : κ × ProcAct}

@[simp] theorem slots_setCpu (p : Option (Fin nproc)) : (s.setCpu c p).slots = s.slots := rfl

theorem Inv.setCpu_none (hI : s.Inv) (c : κ) : (s.setCpu c none).Inv := by
  have hcpu : ∀ {c' j}, (s.setCpu c none).cpu c' = some j → s.cpu c' = some j := by
    intro c' j h
    by_cases hc : c' = c
    · rw [hc, show (s.setCpu c none).cpu c = none from update_self ..] at h
      cases h
    · rwa [show (s.setCpu c none).cpu c' = s.cpu c' from update_of_ne hc ..] at h
  exact ⟨fun c' j h ↦ hI.running c' j (hcpu h),
    fun c₁ c₂ j h₁ h₂ ↦ hI.alone c₁ c₂ j (hcpu h₁) (hcpu h₂), hI.embryo, hI.forker, hI.init, hI.gen⟩

theorem Inv.setCpu_some (hI : s.Inv) (c : κ) (hrun : (s.slots j).state = .running)
    (hno : ∀ c', s.cpu c' ≠ some j) : (s.setCpu c (some j)).Inv := by
  have hcpu : ∀ {c' i}, (s.setCpu c (some j)).cpu c' = some i →
      c' = c ∧ i = j ∨ s.cpu c' = some i := by
    intro c' i h
    by_cases hc : c' = c
    · rw [hc, show (s.setCpu c (some j)).cpu c = some j from update_self ..] at h
      exact Or.inl ⟨hc, (Option.some.inj h).symm⟩
    · rw [show (s.setCpu c (some j)).cpu c' = s.cpu c' from update_of_ne hc ..] at h
      exact Or.inr h
  refine ⟨fun c' i h ↦ ?_, fun c₁ c₂ i h₁ h₂ ↦ ?_, hI.embryo, hI.forker, hI.init, hI.gen⟩
  · rcases hcpu h with ⟨-, rfl⟩ | h
    · exact hrun
    · exact hI.running c' i h
  · rcases hcpu h₁ with ⟨hc₁, rfl⟩ | h₁ <;> rcases hcpu h₂ with ⟨hc₂, hi⟩ | h₂
    · rw [hc₁, hc₂]
    · exact absurd h₂ (hno c₂)
    · exact absurd (hi ▸ h₁) (hno c₁)
    · exact hI.alone c₁ c₂ i h₁ h₂

theorem good_leave (hI : s.Inv) (hc : s.cpu c = some j)
    (hpc : ∀ i, (f (s.slots j)).pc = .forking i → (s.slots j).pc = .forking i)
    (hgen : (f (s.slots j)).gen = (s.slots j).gen)
    (hinit : j = initproc → (f (s.slots j)).state.live = true)
    (hmove : Move s.allocs j (s.slots j) (f (s.slots j))) :
    Good s ((s.setSlot j f).setCpu c none) := by
  have hrun := hI.running c j hc
  refine ⟨?_, moves_setSlot hmove, le_rfl⟩
  change ((s.setCpu c none).setSlot j f).Inv
  refine (hI.setCpu_none c).setSlot hpc (hgen ▸ hI.gen j) (fun h ↦ ?_) (fun _ ↦ Or.inr ?_) hinit
  · exact absurd (hrun.symm.trans h) nofun
  · intro c' hc'
    by_cases hcc : c' = c
    · rw [hcc, show (s.setCpu c none).cpu c = none from update_self ..] at hc'
      cases hc'
    · rw [show (s.setCpu c none).cpu c' = s.cpu c' from update_of_ne hcc ..] at hc'
      exact hcc (hI.alone c' c j hc' hc)

theorem good_waitScan (hI : s.Inv) (hc : s.cpu c = some j) : Good s (s.waitScan c j) := by
  have hrun := hI.running c j hc
  have huser : Same (s.slots j) { s.slots j with pc := .user } :=
    same_of_running hrun (by rw [hrun]; rfl) rfl rfl rfl
  rw [waitScan]
  split
  · next i hi =>
    have hzombie : (s.slots i).state = .zombie := by
      have := of_first hi
      rw [Bool.and_eq_true, decide_eq_true_eq, decide_eq_true_eq] at this
      exact this.2
    have hij : i ≠ j := by
      rintro rfl
      rw [hrun] at hzombie
      cases hzombie
    have hslot : (s.setSlot j fun p ↦ { p with pc := .user }).slots i = s.slots i := by
      rw [slots_setSlot, if_neg hij]
    apply Good.note
    refine ⟨(hI.setUser hrun).setSlot (fun _ ↦ id) ?_ ?_ ?_ ?_,
      moves_setSlot_setSlot hij (.same huser) (.reap hzombie rfl rfl), le_rfl⟩
    · exact (hI.setUser hrun).gen i
    · rw [hslot, hzombie]
      exact nofun
    · rw [hslot, hzombie]
      exact nofun
    · rintro rfl
      have := hI.init
      rw [hzombie] at this
      cases this
  · split
    · apply Good.note
      exact ⟨hI.setUser hrun, moves_setSlot (.same huser), le_rfl⟩
    · exact good_leave hI hc nofun rfl (fun _ ↦ rfl)
        (.same (same_of_running hrun rfl rfl rfl rfl))

theorem good_sched (hI : s.Inv) (hj : (s.slots j).state = .runnable) :
    Good s (s.sched c j) := by
  have hno : ∀ c', s.cpu c' ≠ some j := fun c' hc' ↦
    absurd ((hI.running c' j hc').symm.trans hj) nofun
  -- the switch itself
  have hset : (s.setSlot j fun p ↦ { p with state := .running, chan := none }).Inv :=
    hI.setSlot (fun _ ↦ id) (hI.gen j) (fun h ↦ absurd (hj.symm.trans h) nofun)
      (fun _ ↦ Or.inl rfl) fun _ ↦ rfl
  have hrun : ((s.setSlot j fun p ↦ { p with state := .running, chan := none }).slots j).state
      = .running := by
    rw [slots_setSlot, if_pos rfl]
  have hsame : Same (s.slots j) { s.slots j with state := .running, chan := none } :=
    ⟨rfl, id, Or.inl rfl, Or.inr ⟨by rw [hj]; rfl, rfl⟩⟩
  have hmoves : ∀ i, Same (s.slots i)
      ((s.setSlot j fun p ↦ { p with state := .running, chan := none }).slots i) := by
    intro i
    rw [slots_setSlot]
    split
    · next hi => exact hi ▸ hsame
    · exact .refl _
  have hinv := hset.setCpu_some c hrun hno
  rw [sched]
  split
  · -- a process in `wait` looks at the table again
    have hscan := good_waitScan hinv (c := c) (j := j) (update_self ..)
    exact ⟨hscan.inv, fun i ↦ .of_same (hmoves i) (hscan.moves i), hscan.allocs⟩
  · exact ⟨hinv, fun i ↦ .same (hmoves i), le_rfl⟩

theorem good_exit (hI : s.Inv) (hc : s.cpu c = some j) (hj : j ≠ initproc) :
    Good s (s.exit c j) := by
  have hsoft := ((SoftStep.refl s).note (.exit (s.slots j).gen)).trans (softStep_exit hj)
  have hIt := hI.soft hsoft
  have hct := (congrFun hsoft.cpu c).trans hc
  refine .of_soft hsoft (good_leave hIt hct (fun i ↦ id) rfl (fun h ↦ absurd h hj) ?_)
  refine .exit ?_ rfl hj rfl
  rw [hIt.running c j hct]
  rfl

theorem good_act {a : ProcAct} (hI : s.Inv) (hc : s.cpu c = some j) (h : s.act c j a = some s') :
    Good s s' := by
  have hrun := hI.running c j hc
  cases a with
  | sched i => cases h
  | yield =>
    cases h
    exact good_leave hI hc (fun i ↦ id) rfl (fun _ ↦ rfl)
      (.same (same_of_running hrun rfl rfl rfl rfl))
  | fork =>
    obtain ⟨-, h⟩ := Option.ite_none_right_eq_some.mp h
    cases h
    exact good_fork hI hc
  | forkDone ok =>
    rw [act] at h
    split at h
    · next i hpc =>
      cases h
      exact good_forkDone hI hc hpc ok
    · cases h
  | exit =>
    obtain ⟨⟨hpc, hj⟩, h⟩ := Option.ite_none_right_eq_some.mp h
    cases h
    exact good_exit hI hc hj
  | wait =>
    obtain ⟨-, h⟩ := Option.ite_none_right_eq_some.mp h
    cases h
    exact good_waitScan hI hc
  | kill pid =>
    obtain ⟨-, h⟩ := Option.ite_none_right_eq_some.mp h
    cases h
    exact (softStep_kill pid).good hI
  | fault =>
    obtain ⟨-, h⟩ := Option.ite_none_right_eq_some.mp h
    cases h
    exact (softStep_fault j).good hI
  | sleep a =>
    obtain ⟨-, h⟩ := Option.ite_none_right_eq_some.mp h
    cases h
    exact good_leave hI hc (fun i ↦ id) rfl (fun _ ↦ rfl)
      (.same (same_of_running hrun rfl rfl rfl rfl))
  | wakeup a =>
    cases h
    exact (softStep_wakeup1 _).good hI

/-- **Every step keeps the invariant and moves each slot in one of the ways listed.** -/
theorem good_of_step (hI : s.Inv) (h : s.step a = some s') : Good s s' := by
  rw [step] at h
  split at h
  · next j hc => exact good_act hI hc h
  · next hc =>
    split at h
    · next j =>
      obtain ⟨hj, h⟩ := Option.ite_none_right_eq_some.mp h
      cases h
      exact good_sched hI hj
    · cases h
      exact (softStep_wakeup1 _).good hI
    · cases h

/-! ## The way into `fork` -/

theorem forking_of_waitScan (h : ((s.waitScan c j).slots k).pc = .forking i) :
    (s.slots k).pc = .forking i := by
  rw [waitScan] at h
  split at h
  · rw [slots_note] at h
    exact forking_of_setSlot (forking_of_setSlot h fun _ ↦ id) fun _ h ↦ nomatch h
  · split at h
    · rw [slots_note] at h
      exact forking_of_setSlot h fun _ h ↦ nomatch h
    · rw [slots_setCpu] at h
      exact forking_of_setSlot h fun _ h ↦ nomatch h

theorem forking_of_act {a : ProcAct} (h : s.act c j a = some s')
    (hk : (s'.slots k).pc = .forking i) : (s.slots k).pc = .forking i ∨ a = .fork ∧ k = j := by
  cases a with
  | sched i => cases h
  | yield =>
    cases h
    rw [slots_setCpu] at hk
    exact Or.inl (forking_of_setSlot hk fun _ ↦ id)
  | fork =>
    obtain ⟨-, h⟩ := Option.ite_none_right_eq_some.mp h
    cases h
    by_cases hkj : k = j
    · exact Or.inr ⟨rfl, hkj⟩
    · rw [fork] at hk
      split at hk
      · exact Or.inl hk
      · next i' t ht =>
        rw [slots_setSlot, if_neg hkj] at hk
        rw [allocproc] at ht
        split at ht
        · cases ht
        · cases ht
          rw [slots_note] at hk
          have hk := forking_of_setSlot hk fun _ h ↦ nomatch h
          exact Or.inl hk
  | forkDone ok =>
    rw [act] at h
    split at h
    · cases h
      rw [forkDone] at hk
      split at hk
      · rw [slots_note] at hk
        exact Or.inl (forking_of_setSlot (forking_of_setSlot hk fun _ ↦ id) fun _ h ↦ nomatch h)
      · exact Or.inl (forking_of_setSlot (forking_of_setSlot hk fun _ ↦ id) fun _ h ↦ nomatch h)
    · cases h
  | exit =>
    obtain ⟨⟨-, hj⟩, h⟩ := Option.ite_none_right_eq_some.mp h
    cases h
    rw [exit, slots_setCpu] at hk
    have hk := forking_of_setSlot hk fun _ ↦ id
    have hsoft := ((SoftStep.refl s).note (.exit (s.slots j).gen)).trans (softStep_exit hj)
    exact Or.inl ((hsoft.slots k).pc ▸ hk)
  | wait =>
    obtain ⟨-, h⟩ := Option.ite_none_right_eq_some.mp h
    cases h
    exact Or.inl (forking_of_waitScan hk)
  | kill pid =>
    obtain ⟨-, h⟩ := Option.ite_none_right_eq_some.mp h
    cases h
    exact Or.inl (((softStep_kill pid).slots k).pc ▸ hk)
  | fault =>
    obtain ⟨-, h⟩ := Option.ite_none_right_eq_some.mp h
    cases h
    exact Or.inl (((softStep_fault j).slots k).pc ▸ hk)
  | sleep a =>
    obtain ⟨-, h⟩ := Option.ite_none_right_eq_some.mp h
    cases h
    rw [slots_setCpu] at hk
    exact Or.inl (forking_of_setSlot hk fun _ ↦ id)
  | wakeup a =>
    cases h
    exact Or.inl (((softStep_wakeup1 _).slots k).pc ▸ hk)

theorem forking_of_step (h : s.step a = some s') (hk : (s'.slots k).pc = .forking i) :
    (s.slots k).pc = .forking i ∨ a.2 = .fork ∧ s.cpu a.1 = some k := by
  rw [step] at h
  split at h
  · next j hc =>
    rcases forking_of_act h hk with hk | ⟨ha, rfl⟩
    · exact Or.inl hk
    · exact Or.inr ⟨ha, hc⟩
  · split at h
    · obtain ⟨-, h⟩ := Option.ite_none_right_eq_some.mp h
      cases h
      rw [sched] at hk
      split at hk
      · have hk := forking_of_waitScan hk
        rw [slots_setCpu] at hk
        exact Or.inl (forking_of_setSlot hk fun _ ↦ id)
      · rw [slots_setCpu] at hk
        exact Or.inl (forking_of_setSlot hk fun _ ↦ id)
    · cases h
      exact Or.inl (((softStep_wakeup1 _).slots k).pc ▸ hk)
    · cases h

end Cpus

end ProcTable

end OperatingSystems
