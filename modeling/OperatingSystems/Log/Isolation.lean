import OperatingSystems.Log.Group

/-!
# Isolation of group commits

Two invariants of the shared log, the second using the first.

`Control` is about who may be where: `outstanding` counts the admitted operations, `committing` says
that some process is inside `commit()`, that process is unique, and while it is there no operation
is admitted. It is what makes it safe that `commit()` runs without the lock.

`History` ties the in-memory header to the operations: up to the moment the header is cleared it
lists exactly the blocks logged by the operations of the current epoch, ended or not, each once. A
commit runs only when none is left unended, so what it installs is what the ended ones logged.
-/

namespace OperatingSystems

open Function

variable {P : Type*} [DecidableEq P]

/-! ## Control -/

namespace GroupLog

structure Control [Fintype P] (g : GroupLog P) : Prop where
  outstanding : g.k.outstanding = (Finset.univ.filter fun p ↦ (g.pc p).active).card
  committing : g.k.committing = true ↔ ∃ p, (g.pc p).committer
  unique : ∀ p q, (g.pc p).committer → (g.pc q).committer → p = q
  exclusive : ∀ p q, (g.pc p).committer → ¬(g.pc q).active
  noPanic : ∀ p, g.pc p ≠ .panicked .committing

variable {a : LogAct P} {b : BlockNo}

section Control

variable [Fintype P] {g g' : GroupLog P} {p : P} {c : LogPc}

private theorem noPanic_update (h : g.Control) (hpc : g'.pc = update g.pc p c)
    (hne : c ≠ .panicked .committing) : ∀ q, g'.pc q ≠ .panicked .committing := by
  rw [hpc]
  exact forall_update (· ≠ LogPc.panicked .committing) hne fun q _ ↦ h.noPanic q

omit [DecidableEq P] in
private theorem control_of_no_committer (ho : g'.k.outstanding
      = (Finset.univ.filter fun p ↦ (g'.pc p).active).card)
    (hc : g'.k.committing = false) (hnone : ∀ q, ¬(g'.pc q).committer)
    (hpanic : ∀ q, g'.pc q ≠ .panicked .committing) : g'.Control where
  outstanding := ho
  committing := by
    rw [hc]
    exact ⟨fun h ↦ absurd h Bool.false_ne_true, fun ⟨q, hq⟩ ↦ absurd hq (hnone q)⟩
  unique q _ hq := absurd hq (hnone q)
  exclusive q _ hq := absurd hq (hnone q)
  noPanic := hpanic

theorem Control.move (h : g.Control) (hpc : g'.pc = update g.pc p c)
    (ho : g'.k.outstanding = g.k.outstanding) (hc : g'.k.committing = g.k.committing)
    (hact : c.active = (g.pc p).active) (hcom : c.committer = (g.pc p).committer)
    (hne : c ≠ .panicked .committing) : g'.Control := by
  have hactive : ∀ q, (g'.pc q).active = (g.pc q).active := by
    rw [hpc]
    exact view_update LogPc.active hact
  have hcommit : ∀ q, (g'.pc q).committer = (g.pc q).committer := by
    rw [hpc]
    exact view_update LogPc.committer hcom
  refine ⟨?_, ?_, ?_, ?_, noPanic_update h hpc hne⟩
  · simp only [hactive, ho, h.outstanding]
  · simp only [hcommit, hc, h.committing]
  · simpa only [hcommit] using h.unique
  · simpa only [hcommit, hactive] using h.exclusive

omit [DecidableEq P] in
theorem Control.wakeup (h : g.Control) (hpc : ∀ q, g'.pc q = (g.pc q).awake)
    (ho : g'.k.outstanding = g.k.outstanding) (hc : g'.k.committing = g.k.committing) :
    g'.Control := by
  refine ⟨?_, ?_, ?_, ?_, fun q ↦ ?_⟩
  · simp only [hpc, LogPc.active_awake, ho, h.outstanding]
  · simp only [hpc, LogPc.committer_awake, hc, h.committing]
  · simpa only [hpc, LogPc.committer_awake] using h.unique
  · simpa only [hpc, LogPc.committer_awake, LogPc.active_awake] using h.exclusive
  · have := h.noPanic q
    rw [hpc]
    cases hq : g.pc q <;> simp_all [LogPc.awake]

omit [DecidableEq P] in
theorem Control.committing_eq_false (h : g.Control) (hp : (g.pc p).active) :
    g.k.committing = false := by
  rw [← Bool.not_eq_true, h.committing]
  rintro ⟨q, hq⟩
  exact h.exclusive q p hq hp

theorem Control.grant (h : g.Control) (hpc : g'.pc = update g.pc p .inOp)
    (ho : g'.k.outstanding = g.k.outstanding + 1) (hc : g'.k.committing = g.k.committing)
    (hidle : (g.pc p).active = false) (hcom : g.k.committing = false) : g'.Control := by
  have hnone : ∀ q, ¬(g.pc q).committer := fun q hq ↦ by
    have := h.committing.mpr ⟨q, hq⟩
    rw [hcom] at this
    cases this
  refine control_of_no_committer ?_ (hc.trans hcom) ?_ (noPanic_update h hpc nofun)
  · have hcard := card_filter_update_add (fun c : LogPc ↦ c.active = true) g.pc p .inOp
    rw [← hpc, hidle, if_neg Bool.false_ne_true, if_pos (by rfl)] at hcard
    rw [ho, h.outstanding]
    omega
  · rw [hpc]
    exact forall_update (¬LogPc.committer ·) Bool.false_ne_true fun q _ ↦ hnone q

private theorem card_after_endOp (h : g.Control) (hpc : g'.pc = update g.pc p c)
    (hact : (g.pc p).active) (hc : c.active = false) :
    ((Finset.univ.filter fun q ↦ (g'.pc q).active).card : ℤ) = g.k.outstanding - 1 := by
  have hcard := card_filter_update_add (fun c : LogPc ↦ c.active = true) g.pc p c
  rw [← hpc, hc, if_neg Bool.false_ne_true, if_pos hact] at hcard
  rw [h.outstanding]
  omega

theorem Control.endOp (h : g.Control) (hpc : g'.pc = update g.pc p .idle)
    (ho : g'.k.outstanding = g.k.outstanding - 1) (hc : g'.k.committing = g.k.committing)
    (hact : (g.pc p).active) : g'.Control := by
  refine control_of_no_committer ?_ (hc.trans (h.committing_eq_false hact)) ?_
    (noPanic_update h hpc nofun)
  · rw [ho, card_after_endOp h hpc hact rfl]
  · rw [hpc]
    exact forall_update (¬LogPc.committer ·) Bool.false_ne_true fun q _ hq ↦ h.exclusive q p hq hact

theorem Control.commitStart (h : g.Control) (hpc : g'.pc = update g.pc p .commitStart)
    (ho : g'.k.outstanding = g.k.outstanding - 1) (hc : g'.k.committing = true)
    (hlast : g.k.outstanding - 1 = 0) (hact : (g.pc p).active) : g'.Control := by
  have hcard := card_after_endOp h hpc hact rfl
  have hnone : ∀ q, ¬(g'.pc q).active :=
    not_of_card_filter_eq_zero (Q := fun c : LogPc ↦ c.active = true) (by omega)
  have honly : ∀ q, (g'.pc q).committer → q = p := by
    rw [hpc]
    exact (Function.forall_update_iff g.pc fun q c ↦ c.committer = true → q = p).mpr
      ⟨fun _ ↦ rfl, fun q _ hq ↦ absurd hact (h.exclusive q p hq)⟩
  have hself : g'.pc p = .commitStart := by rw [hpc, update_self]
  exact
    { outstanding := by rw [ho, hcard]
      committing := ⟨fun _ ↦ ⟨p, by rw [hself]; rfl⟩, fun _ ↦ hc⟩
      unique := fun q r hq hr ↦ (honly q hq).trans (honly r hr).symm
      exclusive := fun _ r _ ↦ hnone r
      noPanic := noPanic_update h hpc nofun }

theorem Control.finish (h : g.Control) (hpc : g'.pc = update g.pc p .idle)
    (ho : g'.k.outstanding = g.k.outstanding) (hc : g'.k.committing = false)
    (hcom : (g.pc p).committer) : g'.Control := by
  refine control_of_no_committer ?_ hc ?_ (noPanic_update h hpc nofun)
  · have hcard := card_filter_update_add (fun c : LogPc ↦ c.active = true) g.pc p .idle
    rw [← hpc, if_neg (h.exclusive p p hcom), if_neg (by exact Bool.false_ne_true)] at hcard
    rw [ho, h.outstanding]
    omega
  · rw [hpc]
    exact forall_update (¬LogPc.committer ·) Bool.false_ne_true fun q hq hq' ↦
      hq (h.unique q p hq' hcom)

omit [DecidableEq P] in
theorem control_of_initial (h : g.Initial) : g.Control := by
  refine control_of_no_committer ?_ h.committing (fun q ↦ ?_) fun q ↦ ?_
  · have hnone : (Finset.univ.filter fun p ↦ (g.pc p).active = true) = ∅ :=
      Finset.filter_eq_empty_iff.mpr fun p _ ↦ by rw [h.pc p]; exact Bool.false_ne_true
    rw [h.outstanding, hnone]
    rfl
  · rw [h.pc q]
    exact Bool.false_ne_true
  · rw [h.pc q]
    nofun

theorem Control.step (h : g.Control) (hs : g.step a = some g') : g'.Control := by
  cases effect_of_step hs with
  | move _ ho hc _ hact hcom _ _ hne => exact h.move rfl ho hc hact hcom hne
  | grant hp hc => exact h.grant rfl rfl rfl (by rw [hp]; rfl) hc
  | absorb hp => exact h.move rfl rfl rfl (by rw [hp]; rfl) (by rw [hp]; rfl) nofun
  | endPanic hp hc =>
    rw [h.committing_eq_false (by rw [hp]; rfl)] at hc
    cases hc
  | @endOp p hp =>
    have hend : ({ g.goto p .idle with
        k := { g.k with outstanding := g.k.outstanding - 1 }
        ended := g.record p :: g.ended } : GroupLog P).Control :=
      h.endOp rfl rfl rfl (by rw [hp]; rfl)
    exact hend.wakeup (fun _ ↦ rfl) rfl rfl
  | endLast hp ho => exact h.commitStart rfl rfl rfl ho (by rw [hp]; rfl)
  | skip hp | install hp | clear hp =>
    exact h.move rfl rfl rfl (by rw [hp]; rfl) (by rw [hp]; rfl) nofun
  | @finish p hp =>
    have hend : ({ g.goto p .idle with k := g.k.endCommit } : GroupLog P).Control :=
      h.finish rfl rfl rfl (by rw [hp]; rfl)
    exact hend.wakeup (fun _ ↦ rfl) rfl rfl

end Control

theorem control_of_reachable [Fintype P] {g : GroupLog P} (h : (groupCommit P).Reachable g) :
    g.Control :=
  h.invariant (fun _ ↦ control_of_initial) fun _ _ _ hg hs ↦ hg.step hs

/-! ## History -/

/-- Block `b` was logged in the current epoch, by an operation that has ended or by one that is
still running. -/
def Logged (g : GroupLog P) (b : BlockNo) : Prop :=
  (∃ r ∈ g.ended, r.ended = g.epoch ∧ b ∈ r.blocks) ∨ ∃ p, (g.pc p).active ∧ b ∈ g.logged p

/-- How the header, the commit in progress and the finished commits relate to the operations. -/
structure History (g : GroupLog P) : Prop where
  nodup : g.k.lh.Nodup
  began : ∀ p, (g.pc p).active → g.began p = g.epoch
  ended : ∀ r ∈ g.ended, r.began = r.ended ∧ r.ended ≤ g.epoch
  length : g.commits.length = g.epoch
  commits : ∀ e W, g.commits[e]? = some W →
    ∀ b, b ∈ W ↔ ∃ r ∈ g.ended, r.ended = e ∧ b ∈ r.blocks
  holds : (∀ p, ¬(g.pc p).cleared) → ∀ b, b ∈ g.k.lh ↔ g.Logged b
  cleared : ∀ p, (g.pc p).cleared → g.k.lh = [] ∧ ∀ b, b ∈ g.installed ↔ g.Logged b
  installs : ∀ p, g.InstallOk (g.pc p)
  rest : (∀ p, ¬(g.pc p).committer) → g.installed = []

section History

variable {g : GroupLog P} {p : P} {c : LogPc} {k' : LogState}

omit [DecidableEq P] in
theorem history_of_initial (h : g.Initial) : g.History where
  nodup := by rw [h.lh]; exact List.nodup_nil
  began q hq := by
    rw [h.pc q] at hq
    cases hq
  ended r hr := by
    rw [h.ended] at hr
    cases hr
  length := by rw [h.commits, h.epoch]; rfl
  commits e W hW := by
    rw [h.commits] at hW
    cases hW
  holds _ b := by
    have hnone : ¬g.Logged b := by
      rintro (⟨r, hr, -⟩ | ⟨q, hq, -⟩)
      · rw [h.ended] at hr
        cases hr
      · rw [h.pc q] at hq
        cases hq
    rw [h.lh]
    exact ⟨fun hb ↦ absurd hb List.not_mem_nil, fun hb ↦ absurd hb hnone⟩
  cleared q hq := by
    rw [h.pc q] at hq
    cases hq
  installs q := by
    rw [h.pc q]
    trivial
  rest _ := h.installed

omit [DecidableEq P] in
theorem History.wakeup (h : g.History) : g.wakeup.History := by
  have hlogged : ∀ b, g.wakeup.Logged b ↔ g.Logged b := fun b ↦ by
    simp only [Logged, GroupLog.wakeup, LogPc.active_awake]
  refine ⟨h.nodup, fun q hq ↦ h.began q ?_, h.ended, h.length, h.commits, fun hc b ↦ ?_,
    fun q hq ↦ ?_, fun q ↦ ?_, fun hq ↦ h.rest fun q ↦ ?_⟩
  · rwa [← LogPc.active_awake]
  · rw [hlogged]
    exact h.holds (fun q ↦ by rw [← LogPc.cleared_awake]; exact hc q) b
  · have hq : (g.pc q).awake.cleared = true := hq
    rw [LogPc.cleared_awake] at hq
    simp only [hlogged]
    exact h.cleared q hq
  · have hi := h.installs q
    change g.InstallOk (g.pc q).awake
    cases hpc : g.pc q with
    | sleeping => trivial
    | _ =>
      rw [hpc] at hi
      exact hi
  · rw [← LogPc.committer_awake]
    exact hq q

theorem History.move (h : g.History) (hlh : k'.lh = g.k.lh) (hact : c.active = (g.pc p).active)
    (hclr : c.cleared = (g.pc p).cleared) (hcom : c.committer = (g.pc p).committer)
    (hins : g.InstallOk c) : ({ g.goto p c with k := k' } : GroupLog P).History := by
  have hactive : ∀ q, (update g.pc p c q).active = (g.pc q).active :=
    view_update LogPc.active hact
  have hcleared : ∀ q, (update g.pc p c q).cleared = (g.pc q).cleared :=
    view_update LogPc.cleared hclr
  have hcommit : ∀ q, (update g.pc p c q).committer = (g.pc q).committer :=
    view_update LogPc.committer hcom
  have hlogged : ∀ b, ({ g.goto p c with k := k' } : GroupLog P).Logged b ↔ g.Logged b := fun b ↦ by
    simp only [Logged, goto, hactive]
  have hinstall : ∀ x, ({ g.goto p c with k := k' } : GroupLog P).InstallOk x ↔ g.InstallOk x := by
    intro x
    cases x <;> simp only [InstallOk, goto, hlh]
  refine ⟨?_, fun q hq ↦ h.began q ?_, h.ended, h.length, h.commits, fun hc b ↦ ?_,
    fun q hq ↦ ?_, fun q ↦ ?_, fun hq ↦ h.rest fun q ↦ ?_⟩
  · rw [show ({ g.goto p c with k := k' } : GroupLog P).k.lh = g.k.lh from hlh]
    exact h.nodup
  · rwa [← hactive]
  · rw [hlogged, show ({ g.goto p c with k := k' } : GroupLog P).k.lh = g.k.lh from hlh]
    exact h.holds (fun q ↦ by rw [← hcleared]; exact hc q) b
  · have hq : (update g.pc p c q).cleared = true := hq
    rw [hcleared] at hq
    simp only [hlogged]
    rw [show ({ g.goto p c with k := k' } : GroupLog P).k.lh = g.k.lh from hlh]
    exact h.cleared q hq
  · rw [hinstall]
    exact forall_update g.InstallOk hins (fun q _ ↦ h.installs q) q
  · rw [← hcommit]
    exact hq q

omit [DecidableEq P] in
private theorem installOk_of_not_committer (g : GroupLog P) (h : ¬c.committer) : g.InstallOk c := by
  cases c <;> trivial

omit [DecidableEq P] in
private theorem not_cleared_of_no_committer (h : ∀ q, ¬(g.pc q).committer) (q : P) :
    ¬(g.pc q).cleared :=
  fun hq ↦ h q (LogPc.committer_of_cleared hq)

omit [DecidableEq P] in
private theorem not_cleared_of_unique (huniq : ∀ q, (g.pc q).committer → q = p)
    (hp : ¬(g.pc p).cleared) (q : P) : ¬(g.pc q).cleared :=
  fun hq ↦ hp (huniq q (LogPc.committer_of_cleared hq) ▸ hq)

theorem History.grant (h : g.History) (hlh : k'.lh = g.k.lh) (hidle : (g.pc p).active = false)
    (hnone : ∀ q, ¬(g.pc q).committer) : ({ g.goto p .inOp with
        k := k'
        began := update g.began p g.epoch
        logged := update g.logged p [] } : GroupLog P).History := by
  set g' : GroupLog P := { g.goto p .inOp with
    k := k'
    began := update g.began p g.epoch
    logged := update g.logged p [] } with hg'
  have hnone' : ∀ q, ¬(g'.pc q).committer :=
    forall_update (¬LogPc.committer ·) Bool.false_ne_true fun q _ ↦ hnone q
  have hlogged : ∀ b, g'.Logged b ↔ g.Logged b := fun b ↦ by
    refine or_congr_right ⟨?_, ?_⟩
    · rintro ⟨q, hq, hb⟩
      by_cases hqp : q = p
      · rw [hqp, show g'.logged p = [] from update_self ..] at hb
        cases hb
      · simp only [hg', goto, update_of_ne hqp] at hq hb
        exact ⟨q, hq, hb⟩
    · rintro ⟨q, hq, hb⟩
      have hqp : q ≠ p := by
        rintro rfl
        rw [hidle] at hq
        cases hq
      refine ⟨q, ?_, ?_⟩ <;> simpa only [hg', goto, update_of_ne hqp]
  refine ⟨?_, fun q hq ↦ ?_, h.ended, h.length, h.commits, fun _ b ↦ ?_,
    fun q hq ↦ absurd hq (not_cleared_of_no_committer hnone' q), ?_, fun _ ↦ h.rest hnone⟩
  · rw [show g'.k.lh = g.k.lh from hlh]
    exact h.nodup
  · by_cases hqp : q = p
    · rw [hqp]
      exact update_self ..
    · simp only [hg', goto, update_of_ne hqp] at hq ⊢
      exact h.began q hq
  · rw [hlogged, show g'.k.lh = g.k.lh from hlh]
    exact h.holds (not_cleared_of_no_committer hnone) b
  · exact forall_update g'.InstallOk trivial fun q _ ↦ installOk_of_not_committer _ (hnone q)

theorem History.absorb (h : g.History) (hact : (g.pc p).active) (hnone : ∀ q, ¬(g.pc q).committer) :
    (g.absorb p b).History := by
  have hnone' : ∀ q, ¬((g.absorb p b).pc q).committer :=
    forall_update (¬LogPc.committer ·) Bool.false_ne_true fun q _ ↦ hnone q
  have hactive : ∀ q, ((g.absorb p b).pc q).active = (g.pc q).active :=
    view_update LogPc.active hact.symm
  have hlogged : ∀ c, (g.absorb p b).Logged c ↔ c = b ∨ g.Logged c := fun c ↦ by
    constructor
    · rintro (⟨r, hr⟩ | ⟨q, hq, hc⟩)
      · exact Or.inr (Or.inl ⟨r, hr⟩)
      · rw [hactive] at hq
        have hc : c ∈ update g.logged p (b :: g.logged p) q := hc
        by_cases hqp : q = p
        · rw [hqp, update_self] at hc
          rcases List.mem_cons.mp hc with rfl | hc
          · exact Or.inl rfl
          · exact Or.inr (Or.inr ⟨p, hact, hc⟩)
        · rw [update_of_ne hqp] at hc
          exact Or.inr (Or.inr ⟨q, hq, hc⟩)
    · have hself : (g.absorb p b).logged p = b :: g.logged p := update_self ..
      rintro (rfl | ⟨r, hr⟩ | ⟨q, hq, hc⟩)
      · exact Or.inr ⟨p, by rw [hactive]; exact hact, by rw [hself]; exact List.mem_cons_self⟩
      · exact Or.inl ⟨r, hr⟩
      · refine Or.inr ⟨q, by rw [hactive]; exact hq, ?_⟩
        by_cases hqp : q = p
        · rw [hqp, hself]
          exact List.mem_cons_of_mem _ (hqp ▸ hc)
        · rw [show (g.absorb p b).logged q = g.logged q from update_of_ne hqp ..]
          exact hc
  have hlh : (g.absorb p b).k.lh = if b ∈ g.k.lh then g.k.lh else g.k.lh ++ [b] :=
    congrArg LogState.lh (LogState.logWriteLocked_eq g.k b)
  refine ⟨?_, fun q hq ↦ h.began q (by rwa [← hactive]), h.ended, h.length, h.commits,
    fun _ c ↦ ?_, fun q hq ↦ absurd hq (not_cleared_of_no_committer hnone' q), ?_,
    fun _ ↦ h.rest hnone⟩
  · rw [hlh]
    split
    · exact h.nodup
    · next hb => exact List.nodup_append.mpr ⟨h.nodup, List.nodup_singleton b, by
        rintro c hc d hd rfl
        exact hb (List.mem_singleton.mp hd ▸ hc)⟩
  · have hbase := h.holds (not_cleared_of_no_committer hnone)
    rw [hlogged, ← hbase, hlh]
    split
    · next hb => exact ⟨Or.inr, fun hc ↦ hc.elim (fun hc ↦ hc ▸ hb) id⟩
    · rw [List.mem_append, List.mem_singleton, or_comm]
  · exact forall_update (g.absorb p b).InstallOk trivial fun q _ ↦
      installOk_of_not_committer _ (hnone q)

theorem History.endOp (h : g.History) (k' : LogState) (hlh : k'.lh = g.k.lh)
    (hact : (g.pc p).active) (hnone : ∀ q, ¬(g.pc q).committer)
    (hc : c = .idle ∨ c = .commitStart) :
    ({ g.goto p c with k := k', ended := g.record p :: g.ended } : GroupLog P).History := by
  set g' : GroupLog P := { g.goto p c with k := k', ended := g.record p :: g.ended } with hg'
  have hcact : c.active = false := by rcases hc with rfl | rfl <;> rfl
  have hclr : ∀ q, ¬(g'.pc q).cleared :=
    forall_update (¬LogPc.cleared ·) (by rcases hc with rfl | rfl <;> exact Bool.false_ne_true)
      fun q _ ↦ not_cleared_of_no_committer hnone q
  have hactive : ∀ q, (g'.pc q).active ↔ q ≠ p ∧ (g.pc q).active := fun q ↦ by
    by_cases hqp : q = p
    · simp only [hg', goto, hqp, update_self, hcact, ne_eq, not_true_eq_false,
        false_and, Bool.false_eq_true]
    · simp only [hg', goto, update_of_ne hqp, ne_eq, hqp, not_false_eq_true, true_and]
  have hrec : (g.record p).ended = g.epoch := rfl
  have hlogged : ∀ b, g'.Logged b ↔ g.Logged b := fun b ↦ by
    constructor
    · rintro (⟨r, hr, hre, hb⟩ | ⟨q, hq, hb⟩)
      · rcases List.mem_cons.mp hr with rfl | hr
        · exact Or.inr ⟨p, hact, hb⟩
        · exact Or.inl ⟨r, hr, hre, hb⟩
      · exact Or.inr ⟨q, ((hactive q).mp hq).2, hb⟩
    · rintro (⟨r, hr, hre, hb⟩ | ⟨q, hq, hb⟩)
      · exact Or.inl ⟨r, List.mem_cons_of_mem _ hr, hre, hb⟩
      · by_cases hqp : q = p
        · exact Or.inl ⟨g.record p, List.mem_cons_self, hrec, hqp ▸ hb⟩
        · exact Or.inr ⟨q, (hactive q).mpr ⟨hqp, hq⟩, hb⟩
  refine ⟨?_, fun q hq ↦ h.began q ((hactive q).mp hq).2, fun r hr ↦ ?_, h.length,
    fun e W hW b ↦ ?_, fun _ b ↦ ?_, fun q hq ↦ absurd hq (hclr q), ?_, fun _ ↦ h.rest hnone⟩
  · rw [show g'.k.lh = g.k.lh from hlh]
    exact h.nodup
  · rcases List.mem_cons.mp hr with rfl | hr
    · exact ⟨h.began p hact, le_rfl⟩
    · exact h.ended r hr
  · -- the finished commits are of earlier epochs
    have he : e < g.epoch := by
      rw [← h.length]
      exact (List.getElem?_eq_some_iff.mp hW).1
    rw [h.commits e W hW b]
    refine ⟨fun ⟨r, hr, hre⟩ ↦ ⟨r, List.mem_cons_of_mem _ hr, hre⟩, fun ⟨r, hr, hre, hb⟩ ↦ ?_⟩
    rcases List.mem_cons.mp hr with rfl | hr
    · rw [hrec] at hre
      omega
    · exact ⟨r, hr, hre, hb⟩
  · rw [hlogged, show g'.k.lh = g.k.lh from hlh]
    exact h.holds (not_cleared_of_no_committer hnone) b
  · refine forall_update g'.InstallOk ?_ fun q _ ↦ installOk_of_not_committer _ (hnone q)
    rcases hc with rfl | rfl
    · trivial
    · exact h.rest hnone

theorem History.install (h : g.History) {tail : ℕ} (hp : g.pc p = .install tail)
    (hlt : tail < g.k.lh.length) (huniq : ∀ q, (g.pc q).committer → q = p) (hlh : k'.lh = g.k.lh) :
    ({ g.goto p (.install (tail + 1)) with
        k := k'
        installed := g.installed ++ [g.k.lh.getD tail 0] } : GroupLog P).History := by
  have hmove := h.move (p := p) (c := .install tail) hlh (by rw [hp]) (by rw [hp]) (by rw [hp])
    (hp ▸ h.installs p)
  have hactive : ∀ q, (update g.pc p (.install (tail + 1)) q).active = (g.pc q).active :=
    view_update LogPc.active (by rw [hp]; rfl)
  have hother : ∀ q, q ≠ p → ¬(g.pc q).committer := fun q hq hc ↦ hq (huniq q hc)
  have hclr : ∀ q, ¬(update g.pc p (.install (tail + 1)) q).cleared :=
    forall_update (¬LogPc.cleared ·) Bool.false_ne_true fun q hq hc ↦
      hother q hq (LogPc.committer_of_cleared hc)
  refine ⟨hmove.nodup, fun q hq ↦ h.began q ((hactive q).symm ▸ hq), h.ended, h.length, h.commits,
    fun _ b ↦ ?_, fun q hq ↦ absurd hq (hclr q), ?_, fun hq ↦ ?_⟩
  · have hold := h.holds (not_cleared_of_unique huniq (by rw [hp]; exact Bool.false_ne_true)) b
    simp only [Logged, goto, hactive, hlh]
    exact hold
  · refine (Function.forall_update_iff g.pc fun _ c ↦
      ({ g.goto p (.install (tail + 1)) with
        k := k'
        installed := g.installed ++ [g.k.lh.getD tail 0] } : GroupLog P).InstallOk c).mpr
      ⟨?_, fun q hq ↦ installOk_of_not_committer _ (hother q hq)⟩
    have hin : g.InstallOk (.install tail) := hp ▸ h.installs p
    refine ⟨?_, ne_of_eq_of_ne hlh hin.2⟩
    change g.installed ++ [g.k.lh.getD tail 0] = k'.lh.take (tail + 1)
    rw [hin.1, hlh, List.take_add_one, List.getD_eq_getElem _ _ hlt,
      List.getElem?_eq_getElem hlt, Option.toList_some]
  · have := hq p
    simp only [goto, update_self] at this
    exact absurd rfl this

private theorem History.settle (h : g.History) (hlh : k'.lh = []) (hin : g.installed = g.k.lh)
    (hact : c.active = (g.pc p).active) (hcom : c.committer) (hc : c.cleared)
    (hp : ¬(g.pc p).cleared) (hok : ({ g.goto p c with k := k' } : GroupLog P).InstallOk c)
    (huniq : ∀ q, (g.pc q).committer → q = p) :
    ({ g.goto p c with k := k' } : GroupLog P).History := by
  set g' : GroupLog P := { g.goto p c with k := k' } with hg'
  have hactive : ∀ q, (g'.pc q).active = (g.pc q).active := view_update LogPc.active hact
  have hself : g'.pc p = c := update_self ..
  refine ⟨hlh ▸ List.nodup_nil, fun q hq ↦ h.began q ((hactive q).symm ▸ hq), h.ended, h.length,
    h.commits, fun hnone ↦ absurd (by rwa [hself]) (hnone p), fun q _ ↦ ⟨hlh, fun b ↦ ?_⟩, ?_,
    fun hnone ↦ absurd (by rwa [hself]) (hnone p)⟩
  · have hlogged : g'.Logged b ↔ g.Logged b := by
      simp only [Logged, hactive]
      rfl
    rw [hlogged, ← h.holds (not_cleared_of_unique huniq hp) b, ← hin]
    rfl
  · exact forall_update g'.InstallOk hok fun q hq ↦
      installOk_of_not_committer _ fun hc ↦ hq (huniq q hc)

theorem History.skip (h : g.History) (hp : g.pc p = .commitStart) (hlh : g.k.lh = [])
    (huniq : ∀ q, (g.pc q).committer → q = p) : (g.goto p .endCommit).History := by
  have hin := h.installs p
  rw [hp] at hin
  exact h.settle hlh (hin.trans hlh.symm) (by rw [hp]; rfl) rfl rfl
    (by rw [hp]; exact Bool.false_ne_true) trivial huniq

theorem History.clear (h : g.History) (hp : g.pc p = .clear)
    (huniq : ∀ q, (g.pc q).committer → q = p) :
    ({ g.goto p .eraseHead with k := g.k.clear } : GroupLog P).History := by
  have hin := h.installs p
  rw [hp] at hin
  exact h.settle rfl hin.1 (by rw [hp]; rfl) rfl rfl (by rw [hp]; exact Bool.false_ne_true)
    (ne_of_eq_of_ne hin.1 hin.2) huniq

theorem History.finish (h : g.History) (hp : g.pc p = .endCommit)
    (hnone : ∀ q, ¬(g.pc q).active) (huniq : ∀ q, (g.pc q).committer → q = p) :
    (g.finish p).History := by
  obtain ⟨hlh, hin⟩ := h.cleared p (by rw [hp]; rfl)
  set g' : GroupLog P := { g.goto p .idle with
    k := g.k.endCommit
    epoch := g.epoch + 1
    installed := []
    commits := g.commits ++ [g.installed] } with hg'
  have hnone' : ∀ q, ¬(g'.pc q).active :=
    forall_update (¬LogPc.active ·) Bool.false_ne_true fun q _ ↦ hnone q
  have hcom' : ∀ q, ¬(g'.pc q).committer :=
    forall_update (¬LogPc.committer ·) Bool.false_ne_true fun q hq hc ↦ hq (huniq q hc)
  have hlogged : ∀ b, ¬g'.Logged b := fun b ↦ by
    rintro (⟨r, hr, hre, -⟩ | ⟨q, hq, -⟩)
    · have h1 := (h.ended r hr).2
      have h2 : r.ended = g.epoch + 1 := hre
      omega
    · exact hnone' q hq
  refine History.wakeup (g := g') ⟨h.nodup, fun q hq ↦ absurd hq (hnone' q),
    fun r hr ↦ ⟨(h.ended r hr).1, Nat.le_succ_of_le (h.ended r hr).2⟩, ?_, fun e W hW b ↦ ?_,
    fun _ b ↦ ?_, fun q hq ↦ absurd hq (not_cleared_of_no_committer hcom' q),
    fun q ↦ installOk_of_not_committer _ (hcom' q), fun _ ↦ rfl⟩
  · change (g.commits ++ [g.installed]).length = g.epoch + 1
    rw [List.length_append, h.length, List.length_singleton]
  · have hW : (g.commits ++ [g.installed])[e]? = some W := hW
    rcases Nat.lt_or_ge e g.commits.length with he | he
    · rw [List.getElem?_append_left he] at hW
      exact h.commits e W hW b
    · rw [List.getElem?_append_right he, List.getElem?_singleton] at hW
      obtain ⟨he0, hW⟩ := Option.ite_none_right_eq_some.mp hW
      have hee : e = g.epoch := by
        rw [h.length] at he he0
        omega
      cases hW
      rw [hin b, hee]
      refine ⟨fun hb ↦ hb.resolve_right fun ⟨q, hq, _⟩ ↦ hnone q hq, Or.inl⟩
  · change b ∈ g.k.lh ↔ _
    rw [hlh]
    exact ⟨fun hb ↦ absurd hb List.not_mem_nil, fun hb ↦ absurd hb (hlogged b)⟩

theorem History.step [Fintype P] {g' : GroupLog P} (h : g.History) (hg : g.Control)
    (hs : g.step a = some g') : g'.History := by
  have hnone : ∀ {p}, (g.pc p).active → ∀ q, ¬(g.pc q).committer :=
    fun hp q hq ↦ hg.exclusive q _ hq hp
  have huniq : ∀ {p}, (g.pc p).committer → ∀ q, (g.pc q).committer → q = p :=
    fun hp q hq ↦ hg.unique q _ hq hp
  cases effect_of_step hs with
  | move hlh _ _ _ hact hcom hclr hins => exact h.move hlh hact hclr hcom (hins (h.installs _))
  | grant hp hc =>
    refine h.grant rfl (by rw [hp]; rfl) fun q hq ↦ ?_
    rw [← Bool.not_eq_true, hg.committing] at hc
    exact hc ⟨q, hq⟩
  | absorb hp => exact h.absorb (by rw [hp]; rfl) (hnone (by rw [hp]; rfl))
  | endPanic hp hc =>
    rw [hg.committing_eq_false (by rw [hp]; rfl)] at hc
    cases hc
  | endOp hp =>
    exact (h.endOp { g.k with outstanding := g.k.outstanding - 1 } rfl (by rw [hp]; rfl)
      (hnone (by rw [hp]; rfl)) (Or.inl rfl)).wakeup
  | endLast hp => exact h.endOp _ rfl (by rw [hp]; rfl) (hnone (by rw [hp]; rfl)) (Or.inr rfl)
  | skip hp hlh => exact h.skip hp hlh (huniq (by rw [hp]; rfl))
  | install hp hlt => exact h.install hp hlt (huniq (by rw [hp]; rfl)) rfl
  | clear hp => exact h.clear hp (huniq (by rw [hp]; rfl))
  | finish hp =>
    exact h.finish hp (fun q ↦ hg.exclusive _ q (by rw [hp]; rfl)) (huniq (by rw [hp]; rfl))

end History

theorem history_of_reachable [Fintype P] {g : GroupLog P} (h : (groupCommit P).Reachable g) :
    g.History :=
  (h.invariant (I := fun g : GroupLog P ↦ g.Control ∧ g.History)
    (fun _ h0 ↦ ⟨control_of_initial h0, history_of_initial h0⟩)
    fun _ _ _ hg hs ↦ ⟨hg.1.step hs, hg.2.step hg.1 hs⟩).2

/-! ## What is written -/

/-- The writes to the disk since `k₀` are those of the finished commits, one commit after the other,
and those of the commit in progress. -/
structure Issued (k₀ : LogState) (g : GroupLog P) : Prop where
  start : g.k.start = k₀.start
  wrote : ∃ bs, k₀.Wrote g.k (g.commits.flatMap k₀.commitBlocks ++ bs) ∧
    (∀ p, (g.pc p).committer → bs = g.underway (g.pc p)) ∧ ((∀ p, ¬(g.pc p).committer) → bs = [])

section Issued

variable {k₀ : LogState} {g g' : GroupLog P} {p : P} {c : LogPc} {bs : List BlockNo}

omit [DecidableEq P] in
theorem underway_of_not_committer (h : ¬c.committer) : g.underway c = [] := by
  cases c <;> first | rfl | exact absurd rfl h

omit [DecidableEq P] in
theorem underway_congr (hlh : g'.k.lh = g.k.lh) (hstart : g'.k.start = g.k.start)
    (hin : g'.installed = g.installed) (c : LogPc) : g'.underway c = g.underway c := by
  cases c <;>
    simp only [underway, LogState.commitBlocks, LogState.logBlock_congr hstart, hlh, hstart, hin]

theorem not_committer_update (hno : ∀ q, ¬(g.pc q).committer) (hc : ¬c.committer) (p q : P) :
    ¬(update g.pc p c q).committer :=
  forall_update (¬LogPc.committer ·) hc (fun q _ ↦ hno q) q

omit [DecidableEq P] in
theorem Issued.idle (h : Issued k₀ g) (hnone : ∀ q, ¬(g.pc q).committer) (hk : g.k.Wrote g'.k [])
    (hstart : g'.k.start = g.k.start) (hcommits : g'.commits = g.commits)
    (hnew : ∀ q, g'.underway (g'.pc q) = []) : Issued k₀ g' := by
  obtain ⟨bs, hw, -, hbs⟩ := h.wrote
  refine ⟨hstart.trans h.start, [], ?_, fun q _ ↦ (hnew q).symm, fun _ ↦ rfl⟩
  rw [hbs hnone, List.append_nil] at hw
  rw [hcommits]
  exact hw.trans hk

theorem Issued.commit (h : Issued k₀ g) (hp : (g.pc p).committer)
    (huniq : ∀ q, (g.pc q).committer → q = p) (hpc : g'.pc = update g.pc p c) (hc : c.committer)
    (hk : g.k.Wrote g'.k bs) (hstart : g'.k.start = g.k.start) (hcommits : g'.commits = g.commits)
    (hnew : g'.underway c = g.underway (g.pc p) ++ bs) : Issued k₀ g' := by
  obtain ⟨cs, hw, hcs, -⟩ := h.wrote
  have hself : g'.pc p = c := by rw [hpc, update_self]
  refine ⟨hstart.trans h.start, cs ++ bs, ?_, fun q hq ↦ ?_, fun hnone ↦ ?_⟩
  · rw [hcommits, ← List.append_assoc]
    exact hw.trans hk
  · have hqp : q = p := by
      by_contra hne
      rw [hpc, update_of_ne hne] at hq
      exact hne (huniq q hq)
    rw [hqp, hself, hnew, hcs p hp]
  · exact absurd hc (hself ▸ hnone p)

theorem Issued.move (h : Issued k₀ g) (hp : ¬(g.pc p).committer) (hpc : g'.pc = update g.pc p c)
    (hc : ¬c.committer) (hk : g.k.Wrote g'.k []) (hstart : g'.k.start = g.k.start)
    (hcommits : g'.commits = g.commits) (hsame : ∀ c, g'.underway c = g.underway c) :
    Issued k₀ g' := by
  obtain ⟨bs, hw, hbs, hnone⟩ := h.wrote
  have hcom : ∀ q, (g'.pc q).committer = (g.pc q).committer := by
    rw [hpc]
    refine view_update LogPc.committer ?_
    rw [Bool.eq_false_iff.2 hc, Bool.eq_false_iff.2 hp]
  refine ⟨hstart.trans h.start, bs, ?_, fun q hq ↦ ?_, fun hno ↦ hnone fun q ↦ hcom q ▸ hno q⟩
  · rw [hcommits, ← List.append_nil (_ ++ bs)]
    exact hw.trans hk
  · have hqp : q ≠ p := fun hqp ↦ hp (hqp ▸ hcom q ▸ hq)
    rw [hbs q (hcom q ▸ hq), hsame, hpc, update_of_ne hqp]

omit [DecidableEq P] in
theorem Issued.wakeup (h : Issued k₀ g) : Issued k₀ g.wakeup := by
  obtain ⟨bs, hw, hbs, hnone⟩ := h.wrote
  refine ⟨h.start, bs, hw, fun q hq ↦ ?_, fun hno ↦ hnone fun q ↦ ?_⟩
  · have hq : (g.pc q).awake.committer = true := hq
    rw [LogPc.committer_awake] at hq
    have hawake : g.wakeup.underway (g.pc q).awake = g.underway (g.pc q) := by
      cases g.pc q <;> rfl
    exact (hbs q hq).trans hawake.symm
  · rw [← LogPc.committer_awake]
    exact hno q

theorem Issued.finish (h : Issued k₀ g) (hp : g.pc p = .endCommit)
    (huniq : ∀ q, (g.pc q).committer → q = p) : Issued k₀ (g.finish p) := by
  obtain ⟨bs, hw, hbs, -⟩ := h.wrote
  have hblocks : g.k.commitBlocks = k₀.commitBlocks := by
    funext W
    simp only [LogState.commitBlocks, LogState.logBlock_congr h.start, h.start]
  have hlast : bs = k₀.commitBlocks g.installed := by
    rw [hbs p (by rw [hp]; rfl), hp, underway, hblocks]
  refine Issued.wakeup (g := { g.goto p .idle with
    k := g.k.endCommit
    epoch := g.epoch + 1
    installed := []
    commits := g.commits ++ [g.installed] }) ⟨h.start, [], ?_, fun q hq ↦ ?_, fun _ ↦ rfl⟩
  · rw [List.flatMap_append, List.flatMap_singleton, ← hlast, List.append_nil]
    exact hw
  · have hno : ∀ q, ¬(update g.pc p .idle q).committer :=
      forall_update (¬LogPc.committer ·) Bool.false_ne_true fun q hq hc ↦ hq (huniq q hc)
    exact absurd hq (hno q)

theorem Issued.step [Fintype P] {a : LogAct P} (h : Issued k₀ g) (hg : g.Control) (hh : g.History)
    (hs : g.step a = some g') : Issued k₀ g' := by
  have hnone : ∀ {p}, (g.pc p).active → ∀ q, ¬(g.pc q).committer :=
    fun hp q hq ↦ hg.exclusive q _ hq hp
  have huniq : ∀ {p}, (g.pc p).committer → ∀ q, (g.pc q).committer → q = p :=
    fun hp q hq ↦ hg.unique q _ hq hp
  cases effect_of_step hs with
  | @move _ p c k' hlh _ _ _ _ hcom _ _ _ _ _ hstart hwrote =>
    obtain ⟨bs, hk, hnew⟩ := hwrote (hh.installs p)
    have hsame : ∀ c', ({ g.goto p c with k := k' } : GroupLog P).underway c' = g.underway c' :=
      underway_congr hlh hstart rfl
    by_cases hp : (g.pc p).committer
    · exact h.commit hp (huniq hp) rfl (hcom ▸ hp) hk hstart rfl ((hsame c).trans hnew)
    · have hc : ¬c.committer := hcom ▸ hp
      rw [underway_of_not_committer hp, underway_of_not_committer hc, List.nil_append] at hnew
      subst hnew
      exact h.move hp rfl hc hk hstart rfl hsame
  | @grant p hp hc =>
    have hno : ∀ q, ¬(g.pc q).committer := by
      rw [← Bool.not_eq_true, hg.committing] at hc
      exact fun q hq ↦ hc ⟨q, hq⟩
    exact h.idle hno (LogState.wrote_nil rfl rfl) rfl rfl fun q ↦
      underway_of_not_committer (not_committer_update (c := .inOp) hno Bool.false_ne_true p q)
  | @absorb p b hp =>
    have hno := hnone (p := p) (by rw [hp]; rfl)
    exact h.idle hno (LogState.wrote_nil rfl rfl) rfl rfl fun q ↦
      underway_of_not_committer (not_committer_update (c := .inOp) hno Bool.false_ne_true p q)
  | endPanic hp hc =>
    rw [hg.committing_eq_false (by rw [hp]; rfl)] at hc
    cases hc
  | @endOp p hp =>
    have hno := hnone (p := p) (by rw [hp]; rfl)
    exact Issued.wakeup (h.idle hno (LogState.wrote_nil rfl rfl) rfl rfl fun q ↦
      underway_of_not_committer (not_committer_update (c := .idle) hno Bool.false_ne_true p q))
  | @endLast p hp =>
    have hno := hnone (p := p) (by rw [hp]; rfl)
    refine h.idle hno (LogState.wrote_nil rfl rfl) rfl rfl fun q ↦ ?_
    exact forall_update (fun c ↦ GroupLog.underway _ c = []) rfl
      (fun q _ ↦ underway_of_not_committer (hno q)) q
  | @skip p hp hlh =>
    have hp' : (g.pc p).committer := by rw [hp]; rfl
    have hin : g.InstallOk .commitStart := hp ▸ hh.installs p
    refine h.commit hp' (huniq hp') rfl rfl (LogState.wrote_nil rfl rfl) rfl rfl ?_
    rw [hp]
    exact if_pos hin
  | @install p tail hp hlt =>
    have hp' : (g.pc p).committer := by rw [hp]; rfl
    refine h.commit hp' (huniq hp') rfl rfl (g.k.wrote_bwrite _ _) rfl rfl ?_
    rw [hp]
    exact (List.append_assoc _ (_ :: _) _).symm
  | @clear p hp =>
    have hp' : (g.pc p).committer := by rw [hp]; rfl
    have hin : g.InstallOk .clear := hp ▸ hh.installs p
    refine h.commit hp' (huniq hp') rfl rfl (LogState.wrote_nil rfl rfl) rfl rfl ?_
    rw [hp, List.append_nil, underway, underway, ← hin.1]
    rfl
  | finish hp =>
    exact h.finish hp (huniq (by rw [hp]; rfl))

theorem issued_of_reachable [Fintype P] {g₀ : GroupLog P} (h₀ : g₀.Initial)
    (h : ((groupCommit P).startAt g₀).Reachable g) : Issued g₀.k g := by
  have hinv : g.Control ∧ g.History ∧ Issued g₀.k g := by
    refine h.invariant (I := fun g ↦ g.Control ∧ g.History ∧ Issued g₀.k g) ?_ fun g _ _ hg hs ↦
      ⟨hg.1.step hs, hg.2.1.step hg.1 hs, hg.2.2.step hg.1 hg.2.1 hs⟩
    rintro _ rfl
    refine ⟨control_of_initial h₀, history_of_initial h₀, rfl, [], ?_, fun p hp ↦ ?_, fun _ ↦ rfl⟩
    · rw [h₀.commits]
      exact LogState.wrote_nil rfl rfl
    · rw [h₀.pc p] at hp
      cases hp
  exact hinv.2.2

end Issued

/-! ## Isolation -/

/-- Block `b` was logged by an operation that both began and ended in epoch `e`, between the `e`-th
commit and the one before it. -/
def LoggedWithin (g : GroupLog P) (e : ℕ) (b : BlockNo) : Prop :=
  ∃ r ∈ g.ended, r.began = e ∧ r.ended = e ∧ b ∈ r.blocks

instance (g : GroupLog P) (e : ℕ) (b : BlockNo) : Decidable (g.LoggedWithin e b) :=
  inferInstanceAs (Decidable (∃ r ∈ g.ended, _))

omit [DecidableEq P] in
theorem History.loggedWithin_iff {g : GroupLog P} (h : g.History) {e : ℕ} :
    g.LoggedWithin e b ↔ ∃ r ∈ g.ended, r.ended = e ∧ b ∈ r.blocks :=
  ⟨fun ⟨r, hr, _, he, hb⟩ ↦ ⟨r, hr, he, hb⟩,
    fun ⟨r, hr, he, hb⟩ ↦ ⟨r, hr, (h.ended r hr).1.trans he, he, hb⟩⟩

omit [DecidableEq P] in
theorem loggedWithin_epoch_iff [Fintype P] {g : GroupLog P} (hc : g.Control) (h : g.History)
    {p : P} (hp : (g.pc p).committer) : g.LoggedWithin g.epoch b ↔ g.Logged b := by
  rw [h.loggedWithin_iff]
  exact ⟨Or.inl, fun hb ↦ hb.resolve_right fun ⟨q, hq, _⟩ ↦ hc.exclusive p q hp hq⟩

omit [DecidableEq P] in
theorem loggedWithin_of_mem_installed [Fintype P] {g : GroupLog P} (hc : g.Control) (h : g.History)
    (hb : b ∈ g.installed) : g.LoggedWithin g.epoch b := by
  obtain ⟨p, hp⟩ : ∃ p, (g.pc p).committer := by
    by_contra hnone
    rw [h.rest fun p hp ↦ hnone ⟨p, hp⟩] at hb
    cases hb
  rw [loggedWithin_epoch_iff hc h hp]
  by_cases hclr : (g.pc p).cleared
  · exact ((h.cleared p hclr).2 b).mp hb
  · refine (h.holds (not_cleared_of_unique (fun q hq ↦ hc.unique q p hq hp) hclr) b).mp ?_
    have hins := h.installs p
    cases hpc : g.pc p with
    | commitStart =>
      rw [hpc] at hins
      rw [show g.installed = [] from hins] at hb
      cases hb
    | writeLog _ | writeHead =>
      rw [hpc] at hins
      rw [hins.1] at hb
      cases hb
    | install tail =>
      rw [hpc] at hins
      rw [hins.1] at hb
      exact List.mem_of_mem_take hb
    | clear =>
      rw [hpc] at hins
      exact hins.1 ▸ hb
    | eraseHead | endCommit =>
      rw [hpc] at hclr
      exact absurd rfl hclr
    | _ =>
      rw [hpc] at hp
      cases hp

end GroupLog

/-- **Isolation of group commits.** In every reachable state of a log shared by any number of
processes: nobody is admitted while somebody commits and `end_op` never finds `committing` set; the
header has no duplicates; each finished commit wrote exactly the blocks logged by the operations
that began and ended in its epoch; the commit in progress has installed only such blocks; and an
operation that has not ended belongs to the current epoch, hence to no finished commit, while one
that has ended is contained in the commit of its epoch as soon as that is finished.

These are the blocks that went to the disk: what was written since the start is, commit by commit,
the log blocks, the header, the blocks of the commit in their homes and the header, and then what
the commit in progress has written so far. -/
theorem group_commit_isolation [Fintype P] {g₀ g : GroupLog P} (h₀ : g₀.Initial)
    (h : ((groupCommit P).startAt g₀).Reachable g) :
    (g.k.committing = true → g.k.outstanding = 0) ∧
    (∀ p, g.pc p ≠ .panicked .committing) ∧
    g.k.lh.Nodup ∧
    (∀ e W, g.commits[e]? = some W → ∀ b, b ∈ W ↔ g.LoggedWithin e b) ∧
    (∀ b ∈ g.installed, g.LoggedWithin g.epoch b) ∧
    (∀ p, (g.pc p).active → g.began p = g.commits.length) ∧
    (∀ r ∈ g.ended, r.ended < g.commits.length →
      ∃ W, g.commits[r.ended]? = some W ∧ ∀ b ∈ r.blocks, b ∈ W) ∧
    ∃ bs, g₀.k.Wrote g.k (g.commits.flatMap g₀.k.commitBlocks ++ bs) ∧
      (∀ p, (g.pc p).committer → bs = g.underway (g.pc p)) ∧
      ((∀ p, ¬(g.pc p).committer) → bs = []) := by
  have hr : (groupCommit P).Reachable g :=
    h.mono (M := (groupCommit P).startAt g₀) (by rintro _ rfl; exact h₀) rfl fun _ _ ↦ id
  have hc := GroupLog.control_of_reachable hr
  have hh := GroupLog.history_of_reachable hr
  refine ⟨fun hcom ↦ ?_, hc.noPanic, hh.nodup, fun e W hW b ↦ ?_,
    fun b ↦ GroupLog.loggedWithin_of_mem_installed hc hh,
    fun p hp ↦ (hh.began p hp).trans hh.length.symm, fun r hr hlt ↦ ?_,
    (GroupLog.issued_of_reachable h₀ h).wrote⟩
  · obtain ⟨p, hp⟩ := hc.committing.mp hcom
    rw [hc.outstanding, Finset.filter_false_of_mem fun q _ ↦ hc.exclusive p q hp]
    rfl
  · rw [hh.commits e W hW b, hh.loggedWithin_iff]
  · exact ⟨g.commits[r.ended], List.getElem?_eq_getElem hlt, fun b hb ↦
      (hh.commits _ _ (List.getElem?_eq_getElem hlt) b).mpr ⟨r, hr, rfl, hb⟩⟩

/-- The log as `initlog` leaves it on an empty disk, shared by processes that are not in a call. -/
def GroupLog.start (P : Type*) (sb : Superblock) : GroupLog P where
  k := LogState.boot sb fun _ _ ↦ 0
  pc _ := .idle
  epoch := 0
  began _ := 0
  logged _ := []
  ended := []
  installed := []
  commits := []

omit [DecidableEq P] in
theorem GroupLog.initial_start (sb : Superblock) : (GroupLog.start P sb).Initial :=
  ⟨rfl, rfl, rfl, fun _ ↦ rfl, rfl, rfl, rfl, rfl⟩

/-- Two operations overlap, log a common block, and are committed together. -/
theorem group_commit_isolation_two_ops : ∃ g : GroupLog (Fin 2),
    g.commits = [[70, 71]] ∧ g.LoggedWithin 0 70 ∧ g.LoggedWithin 0 71 ∧ g.k.lh.Nodup ∧
    (GroupLog.start (Fin 2) ⟨30, 2⟩).k.Wrote g.k [3, 4, 2, 70, 71, 2] := by
  obtain ⟨g, hg, hend⟩ := Machine.exists_reachable_of_run
    (M := (groupCommit (Fin 2)).startAt (GroupLog.start (Fin 2) ⟨30, 2⟩))
    [.beginOp 0, .grant 0, .logWrite 0 70 fun _ ↦ 1, .beginOp 1, .absorb 0, .grant 1,
      .logWrite 1 71 fun _ ↦ 2, .absorb 1, .logWrite 1 70 fun _ ↦ 3, .endOp 0, .absorb 1, .endOp 1,
      .commit 1, .commit 1, .commit 1, .commit 1, .commit 1, .commit 1, .commit 1, .commit 1,
      .commit 1, .commit 1, .commit 1]
    (fun g ↦ g.commits == [[70, 71]] && g.pc 0 == .idle && g.pc 1 == .idle) rfl (by decide)
  simp only [Bool.and_eq_true, beq_iff_eq] at hend
  obtain ⟨⟨hW, hidle⟩, hidle'⟩ := hend
  obtain ⟨-, -, hnodup, hcommits, -, -, -, bs, hwrote, -, hbs⟩ :=
    group_commit_isolation (GroupLog.initial_start ⟨30, 2⟩) hg
  have h0 := hcommits 0 [70, 71] (by rw [hW]; rfl)
  refine ⟨g, hW, (h0 70).mp (by decide), (h0 71).mp (by decide), hnodup, ?_⟩
  have hnone : ∀ p, ¬(g.pc p).committer := by
    rw [Fin.forall_fin_two, hidle, hidle']
    decide
  rw [hbs hnone, hW] at hwrote
  exact hwrote

end OperatingSystems
