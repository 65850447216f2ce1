import OperatingSystems.Ide.Basic

/-!
# The interrupt-driven disk refines the memory disk

The queue is first-in first-out: the requests that arrived are those that were completed and those
in the queue, in this order. The drive works on the first one in the queue, and only `ideintr` takes
it out, when the drive is done. At that point the disk and the buffer are what `iderw` of the memory
disk makes of them, so the run of the driver is one of the memory disk with the requests in the
order of completion.

What `idelock` protects is in `Base`, and `Runs` says which command the drive has; what each thread
can rely on while others work is in `Local`.
-/

namespace OperatingSystems

open Function

namespace IdePc

variable {β : Type}

def holds : IdePc β → Bool
  | append .. | start .. | loop .. | sleep .. | intr | intrWake _ | intrStart | intrDone => true
  | _ => false

end IdePc

namespace Ide

variable {π β : Type} {s s' : Ide π β} {t : IdeThread π} {x : IdeInput β} {pc : IdePc β} {k : Bool}
  {i : Instr (IdePc β) β (Ide π β)} {b : β} {c r : Buf} {p : π} {l : List β}

/-! ## What a thread can do -/

section Moves

variable [DecidableEq β] [Fintype β]

inductive Move (s : Ide π β) :
    IdeThread π → IdePc β → Instr (IdePc β) β (Ide π β) → Prop
  | enter {p : π} {pc : IdePc β} {b : β} {c : Buf}
      (hpc : pc = .idle ∨ ∃ b' c' r, pc = .returned b' c' r) (howner : s.owner b = none)
      (hreq : c.Request) : Move s (.proc p) pc (.free (s.enter p b c) (.acquire b c))
  | acquire {p : π} (b : β) (c : Buf) : Move s (.proc p) (.acquire b c) (.acquire (.append b c))
  | append {p : π} {b : β} {c : Buf} {s' : Ide π β} (h : s.append b = some s') :
      Move s (.proc p) (.append b c) (.go s' (.start b c))
  | first {p : π} {b : β} {c : Buf} {s' : Ide π β} (hhead : s.idequeue = some b)
      (h : s.idestart (some b) = some s') : Move s (.proc p) (.start b c) (.go s' (.loop b c))
  | later {p : π} {b : β} {c : Buf} (hhead : s.idequeue ≠ some b) :
      Move s (.proc p) (.start b c) (.go s (.loop b c))
  | ret {p : π} {b : β} {c : Buf} (h : (s.buf b).Synced) :
      Move s (.proc p) (.loop b c) (.release (s.leave b) (.returned b c (s.buf b)))
  | wait {p : π} {b : β} {c : Buf} (h : ¬(s.buf b).Synced) :
      Move s (.proc p) (.loop b c) (.go s (.sleep b c))
  | sleep {p : π} (b : β) (c : Buf) : Move s (.proc p) (.sleep b c) (.sleep b (.slept b c))
  | again {p : π} (b : β) (c : Buf) : Move s (.proc p) (.slept b c) (.acquire (.loop b c))
  | interrupt (h : s.done = true) : Move s .intr .idle (.call .intrAcquire)
  | intrAcquire : Move s .intr .intrAcquire (.acquire .intr)
  | spurious (h : s.idequeue = none) : Move s .intr .intr (.release s .idle)
  | pop {b : β} (h : s.idequeue = some b) : Move s .intr .intr (.go (s.pop b) (.intrWake b))
  | intrWake (b : β) : Move s .intr (.intrWake b) (.wakeup b s .intrStart)
  | intrLast (h : s.idequeue = none) : Move s .intr .intrStart (.go s .intrDone)
  | intrNext {b : β} {s' : Ide π β} (hhead : s.idequeue = some b)
      (h : s.idestart (some b) = some s') : Move s .intr .intrStart (.go s' .intrDone)
  | intrDone : Move s .intr .intrDone (.release s .idle)
  | complete {c : IdeCommand} (h : s.command = some c) (hdone : s.done = false) :
      Move s .drive .idle (.free (s.transfer c) .idle)

theorem move_enter (hpc : pc = .idle ∨ ∃ b' c' r, pc = .returned b' c' r)
    (h : (match s.owner b with
      | some _ => none
      | none => if c.Request then some (.free (s.enter p b c) (.acquire b c)) else none) = some i) :
    Move s (.proc p) pc i := by
  cases howner : s.owner b with
  | some q =>
    rw [howner] at h
    exact absurd h.symm (Option.some_ne_none i)
  | none =>
    rw [howner] at h
    obtain ⟨hreq, h⟩ := Option.ite_none_right_eq_some.mp h
    exact Option.some.inj h ▸ .enter hpc howner hreq

theorem move_of_code (h : code t x pc k s = some i) : Move s t pc i := by
  unfold code at h
  split at h
  case h_1 => exact move_enter (.inl rfl) h
  case h_2 => exact move_enter (.inr ⟨_, _, _, rfl⟩) h
  case h_4 =>
    obtain ⟨s', hs', rfl⟩ := Option.map_eq_some_iff.mp h
    exact .append hs'
  case h_5 =>
    split at h
    · rename_i hhead
      obtain ⟨s', hs', rfl⟩ := Option.map_eq_some_iff.mp h
      exact .first hhead hs'
    · rename_i hhead
      exact Option.some.inj h ▸ .later hhead
  case h_6 =>
    split at h
    · rename_i hsynced
      exact Option.some.inj h ▸ .ret hsynced
    · rename_i hsynced
      exact Option.some.inj h ▸ .wait hsynced
  case h_9 =>
    obtain ⟨hdone, h⟩ := Option.ite_none_right_eq_some.mp h
    exact Option.some.inj h ▸ .interrupt hdone
  case h_11 =>
    split at h
    · rename_i hhead
      exact Option.some.inj h ▸ .spurious hhead
    · rename_i b hhead
      exact Option.some.inj h ▸ .pop hhead
  case h_13 =>
    split at h
    · rename_i hhead
      exact Option.some.inj h ▸ .intrLast hhead
    · rename_i b hhead
      obtain ⟨s', hs', rfl⟩ := Option.map_eq_some_iff.mp h
      exact .intrNext hhead hs'
  case h_15 =>
    split at h
    · exact absurd h.symm (Option.some_ne_none i)
    · rename_i c hc
      obtain ⟨hdone, h⟩ := Option.ite_none_left_eq_some.mp h
      exact Option.some.inj h ▸ .complete hc (Bool.not_eq_true _ ▸ hdone)
  case h_16 => exact absurd h.symm (Option.some_ne_none i)
  all_goals
    obtain rfl := Option.some.inj h
    constructor

theorem Move.fits (h : Move s t pc i) : i.Fits (fun pc ↦ pc.holds = true) pc := by
  cases h with
  | enter hpc howner hreq =>
    obtain rfl | ⟨b', c', r, rfl⟩ := hpc <;> simp [Instr.Fits, IdePc.holds]
  | _ => simp [Instr.Fits, IdePc.holds]

end Moves

/-! ## What the lock protects -/

/-- What the disk will contain when the drive is done, if it contains `D` before. -/
def after (s : Ide π β) (D : Disk) : Disk :=
  match s.done, s.command with
  | true, some ⟨sector, some data⟩ => update D sector data
  | _, _ => D

/-- The drive has the command for the first of the buffers `l`, and none if there is no first. -/
def Runs (s : Ide π β) (l : List β) : Prop :=
  s.command = l.head?.map fun b ↦ commandFor (s.buf b)

structure Base (s : Ide π β) : Prop where
  linked : Threaded (follow s.qnext) none s.idequeue (s.queue.map some)
  nodup : s.queue.Nodup
  owned : ∀ b ∈ s.queue, s.owner b ≠ none
  request : ∀ b ∈ s.queue, (s.buf b).Request
  arrived : s.arrived = s.completed ++ s.queue.map fun b ↦ (b, s.buf b)
  done : s.done = true → s.command ≠ none
  memory : ∃ D, memRun s.start (s.completed.map Prod.snd) = some (D, s.results) ∧
    s.disk = s.after D ∧ ∀ c, s.done = true → s.command = some c → s.fetched = D c.sector

def At (pc : IdePc β) (s : Ide π β) : Prop :=
  s.Base ∧
    match pc with
    | .start b _ => ∃ l, s.queue = l ++ [b] ∧ s.Runs l
    | .intrWake _ | .intrStart => s.command = none
    | _ => s.Runs s.queue

theorem commandFor_eq (h : c.Request) :
    commandFor c = ⟨c.blockno, if c.dirty then some c.data else none⟩ := by
  rw [commandFor, mul_one, lba_eq h.2.2]

theorem Runs.congr (h : s.Runs l) (hcmd : s'.command = s.command)
    (hbuf : ∀ b ∈ l, s'.buf b = s.buf b) : s'.Runs l := by
  rw [Runs, hcmd, h]
  cases l with
  | nil => rfl
  | cons b l => rw [List.head?_cons, Option.map_some, Option.map_some, hbuf b List.mem_cons_self]

theorem At.congr (h : At pc s) (hbase : s'.Base) (hcmd : s'.command = s.command)
    (hqueue : s'.queue = s.queue) (hbuf : ∀ b ∈ s.queue, s'.buf b = s.buf b) : At pc s' := by
  refine ⟨hbase, ?_⟩
  obtain ⟨-, h⟩ := h
  cases pc with
  | start b c =>
    obtain ⟨l, hl, hruns⟩ := h
    exact ⟨l, hqueue.trans hl, hruns.congr hcmd fun b' hb' ↦
      hbuf b' (hl ▸ List.mem_append_left _ hb')⟩
  | intrWake b => exact hcmd.trans h
  | intrStart => exact hcmd.trans h
  | _ =>
    have hruns : s'.Runs s.queue := Runs.congr h hcmd hbuf
    rw [← hqueue] at hruns
    exact hruns

theorem not_mem_of_synced (h : s.Base) (hb : (s.buf b).Synced) : b ∉ s.queue := fun hmem ↦
  (h.request b hmem).2.1 hb

theorem Base.transfer {cmd : IdeCommand} (h : s.Base) (hcmd : s.command = some cmd)
    (hdone : s.done = false) : (s.transfer cmd).Base := by
  obtain ⟨D, hrun, hdisk, -⟩ := h.memory
  have hdisk : s.disk = D := by rw [hdisk, after, hdone]
  refine ⟨h.linked, h.nodup, h.owned, h.request, h.arrived, fun _ ↦ ?_, D, hrun, ?_, ?_⟩
  · rw [Ide.transfer, hcmd]
    exact Option.some_ne_none cmd
  · obtain ⟨sector, write⟩ := cmd
    unfold Ide.transfer after
    dsimp only
    rw [hcmd, hdisk]
    cases write <;> rfl
  · intro cmd' _ hcmd'
    obtain rfl : cmd = cmd' := Option.some.inj (hcmd.symm.trans hcmd')
    rw [Ide.transfer, hdisk]

theorem Base.idestart (h : s.Base) (hcmd : s.command = none)
    (hs' : s.idestart (some b) = some s') : s'.Base ∧ s'.command = some (commandFor (s.buf b)) ∧
      s'.queue = s.queue ∧ s'.buf = s.buf := by
  obtain rfl := idestart_eq_some hs'
  have hdone : s.done = false := by
    by_contra hne
    exact h.done (Bool.eq_true_of_not_eq_false hne) hcmd
  obtain ⟨D, hrun, hdisk, -⟩ := h.memory
  refine ⟨⟨h.linked, h.nodup, h.owned, h.request, h.arrived, fun hne ↦ ?_, D, hrun, ?_, ?_⟩, rfl,
    rfl, rfl⟩
  · exact absurd hne Bool.false_ne_true
  · rw [hdisk, after, hdone]
    rfl
  · exact fun _ hne ↦ absurd hne Bool.false_ne_true

theorem Base.exists_cons (h : s.Base) (hhead : s.idequeue = some b) : ∃ l, s.queue = b :: l := by
  have hlinked := h.linked
  cases hq : s.queue with
  | nil =>
    rw [hq] at hlinked
    exact absurd (hhead.symm.trans hlinked) (Option.some_ne_none b)
  | cons b' l =>
    rw [hq] at hlinked
    obtain rfl : b = b' := Option.some.inj (hhead.symm.trans hlinked.1)
    exact ⟨l, rfl⟩

/-- **The memory disk does in one step** what the drive has done when `ideintr` takes a buffer out
of the queue. -/
theorem memIderw_of_done {D : Disk} (hreq : c.Request) (hcmd : s.command = some (commandFor c))
    (hdone : s.done = true) (hfetched : ∀ c, s.done = true → s.command = some c →
      s.fetched = D c.sector) : memIderw fssize D c = some (s.after D, s.synced c) := by
  have hf := hfetched _ hdone hcmd
  rw [commandFor_eq hreq] at hcmd hf
  obtain ⟨hdev, hsync, hblock⟩ := hreq
  rw [memIderw, if_neg hsync, if_neg (not_not.mpr hdev), if_neg (Nat.not_le.mpr hblock), after,
    hdone, hcmd, synced]
  cases hdirty : c.dirty with
  | true => rfl
  | false =>
    rw [if_neg Bool.false_ne_true, if_neg Bool.false_ne_true, hf]
    rfl

theorem At.eq_singleton (h : At (.start b c) s) (hhead : s.idequeue = some b) :
    s.queue = [b] ∧ s.command = none := by
  obtain ⟨hbase, l, hq, hruns⟩ := h
  obtain ⟨l', hq'⟩ := hbase.exists_cons hhead
  have hnil : l = [] := by
    cases l with
    | nil => rfl
    | cons b' l =>
      have hnodup := hbase.nodup
      rw [hq] at hq' hnodup
      rw [← (List.cons.inj hq').1] at hnodup
      exact absurd (List.mem_append_right l List.mem_cons_self) (List.nodup_cons.mp hnodup).1
  rw [hnil] at hq hruns
  exact ⟨hq, hruns⟩

/-! ## What each thread can rely on -/

/-- A request for buffer `b` that found `c` in it was completed, and left `r`. -/
def Finished (s : Ide π β) (b : β) (c r : Buf) : Prop :=
  r.Synced ∧ ∃ k : ℕ, s.completed[k]? = some (b, c) ∧ s.results[k]? = some r

theorem Finished.mono (hcompleted : s.completed <+: s'.completed)
    (hresults : s.results <+: s'.results) (h : s.Finished b c r) : s'.Finished b c r := by
  have hkeep {α : Type} {l l' : List α} {k : ℕ} {a : α} (hl : l <+: l') (hk : l[k]? = some a) :
      l'[k]? = some a := by
    obtain ⟨rest, rfl⟩ := hl
    rw [List.getElem?_append_left (List.getElem?_eq_some_iff.mp hk).1, hk]
  obtain ⟨hsync, k, hk, hr⟩ := h
  exact ⟨hsync, k, hkeep hcompleted hk, hkeep hresults hr⟩

def Waiting (s : Ide π β) (p : π) (b : β) (c : Buf) : Prop :=
  s.owner b = some p ∧ ((b ∈ s.queue ∧ s.buf b = c) ∨ (b ∉ s.queue ∧ s.Finished b c (s.buf b)))

def Local (t : IdeThread π) (pc : IdePc β) (s : Ide π β) : Prop :=
  match t, pc with
  | .proc p, .acquire b c | .proc p, .append b c =>
    s.owner b = some p ∧ b ∉ s.queue ∧ s.buf b = c ∧ c.Request
  | .proc p, .start b c | .proc p, .loop b c | .proc p, .sleep b c | .proc p, .slept b c =>
    s.Waiting p b c
  | .proc _, .returned b c r => s.Finished b c r
  | .intr, .intrAcquire | .intr, .intr => s.done = true
  | _, _ => True

theorem Local.congr (h : Local t pc s)
    (hown : ∀ b p, t = .proc p → s.owner b = some p →
      s'.owner b = some p ∧ s'.buf b = s.buf b ∧ (b ∈ s'.queue ↔ b ∈ s.queue))
    (hcompleted : s.completed <+: s'.completed) (hresults : s.results <+: s'.results)
    (hdone : t = .intr → s.done = true → s'.done = true) : Local t pc s' := by
  have hcall {p : π} {b : β} {c : Buf} (ht : t = .proc p)
      (h : s.owner b = some p ∧ b ∉ s.queue ∧ s.buf b = c ∧ c.Request) :
      s'.owner b = some p ∧ b ∉ s'.queue ∧ s'.buf b = c ∧ c.Request := by
    obtain ⟨howner, hmem, hc, hreq⟩ := h
    obtain ⟨howner', hbuf, hmem'⟩ := hown b p ht howner
    exact ⟨howner', fun hb ↦ hmem (hmem'.mp hb), hbuf.trans hc, hreq⟩
  have hwaiting {p : π} {b : β} {c : Buf} (ht : t = .proc p) (h : s.Waiting p b c) :
      s'.Waiting p b c := by
    obtain ⟨howner, h⟩ := h
    obtain ⟨howner', hbuf, hmem'⟩ := hown b p ht howner
    rw [Waiting, hmem', hbuf]
    exact ⟨howner', h.imp_right (And.imp_right (Finished.mono hcompleted hresults))⟩
  cases t with
  | proc p =>
    cases pc with
    | acquire b c | append b c => exact hcall rfl h
    | start b c | loop b c | sleep b c | slept b c => exact hwaiting rfl h
    | returned b c r => exact Finished.mono hcompleted hresults h
    | _ => trivial
  | intr =>
    cases pc with
    | intrAcquire | intr => exact hdone rfl h
    | _ => trivial
  | drive => trivial

/-! ## The operations on the queue -/

variable [DecidableEq β]

theorem Base.enter (h : s.Base) (hb : s.owner b = none) :
    (s.enter p b c).Base ∧ ∀ b' ∈ s.queue, (s.enter p b c).buf b' = s.buf b' := by
  have hne : ∀ b' ∈ s.queue, b' ≠ b := by
    rintro b' hb' rfl
    exact h.owned b' hb' hb
  have hbuf : ∀ b' ∈ s.queue, (s.enter p b c).buf b' = s.buf b' := fun b' hb' ↦
    enter_buf_of_ne (hne b' hb')
  refine ⟨⟨h.linked, h.nodup, fun b' hb' ↦ ?_, fun b' hb' ↦ ?_, ?_, h.done, h.memory⟩, hbuf⟩
  · rw [enter_owner_of_ne (hne b' hb')]
    exact h.owned b' hb'
  · rw [hbuf b' hb']
    exact h.request b' hb'
  · refine h.arrived.trans (congrArg _ (List.map_congr_left fun b' hb' ↦ ?_))
    rw [hbuf b' hb']

theorem Base.leave (h : s.Base) (hb : b ∉ s.queue) : (s.leave b).Base := by
  refine ⟨h.linked, h.nodup, fun b' hb' ↦ ?_, h.request, h.arrived, h.done, h.memory⟩
  rw [leave_owner_of_ne (ne_of_mem_of_not_mem hb' hb)]
  exact h.owned b' hb'

theorem Base.pop (h : s.Base) (hq : s.queue = b :: l) (hruns : s.Runs s.queue)
    (hdone : s.done = true) : (s.pop b).Base := by
  have hnodup := h.nodup
  have hlinked := h.linked
  rw [hq] at hnodup hlinked
  obtain ⟨hbl, hnodup⟩ := List.nodup_cons.mp hnodup
  have hmem : ∀ {b'}, b' ∈ l → b' ∈ s.queue ∧ b' ≠ b := fun hb' ↦
    ⟨hq ▸ List.mem_cons_of_mem _ hb', ne_of_mem_of_not_mem hb' hbl⟩
  have htail : (s.pop b).queue = l := by rw [Ide.pop, hq]; rfl
  obtain ⟨D, hrun, hdisk, hfetched⟩ := h.memory
  have hcmd : s.command = some (commandFor (s.buf b)) := by
    rw [hruns, hq]
    rfl
  have hmem' := memIderw_of_done (h.request b (hq ▸ List.mem_cons_self)) hcmd hdone hfetched
  refine ⟨?_, ?_, ?_, ?_, ?_, fun hne ↦ absurd hne Bool.false_ne_true, s.after D, ?_, hdisk,
    fun _ hne ↦ absurd hne Bool.false_ne_true⟩
  · rw [htail]
    exact hlinked.2.2
  · rw [htail]
    exact hnodup
  · rw [htail]
    exact fun b' hb' ↦ h.owned b' (hmem hb').1
  · rw [htail]
    intro b' hb'
    rw [pop_buf_of_ne (hmem hb').2]
    exact h.request b' (hmem hb').1
  · rw [htail]
    have hmap : l.map (fun b' ↦ (b', (s.pop b).buf b')) = l.map fun b' ↦ (b', s.buf b') :=
      List.map_congr_left fun b' hb' ↦ by rw [pop_buf_of_ne (hmem hb').2]
    rw [hmap, Ide.pop, h.arrived, hq, List.map_cons, List.append_assoc, List.singleton_append]
  · rw [Ide.pop, List.map_append]
    exact memRun_concat hrun hmem'

theorem Base.waiting_pop {b₀ : β} (h : s.Base) (hq : s.queue = b₀ :: l) (hw : s.Waiting p b c) :
    (s.pop b₀).Waiting p b c := by
  have hcompleted : s.completed <+: (s.pop b₀).completed := List.prefix_append _ _
  have hresults : s.results <+: (s.pop b₀).results := List.prefix_append _ _
  have htail : (s.pop b₀).queue = l := by rw [Ide.pop, hq]; rfl
  have hnodup := h.nodup
  rw [hq] at hnodup
  obtain ⟨hnot, -⟩ := List.nodup_cons.mp hnodup
  obtain ⟨howner, hw⟩ := hw
  refine ⟨howner, ?_⟩
  rw [htail]
  by_cases hb : b = b₀
  · subst hb
    obtain ⟨-, hc⟩ | ⟨hmem, -⟩ := hw
    · refine .inr ⟨hnot, ?_⟩
      obtain ⟨D, hrun, -, -⟩ := h.memory
      have hlen : s.completed.length = s.results.length := by
        rw [← List.length_map Prod.snd]
        exact length_of_memRun hrun
      rw [pop_buf_self]
      refine ⟨⟨rfl, rfl⟩, s.completed.length, ?_, ?_⟩
      · rw [Ide.pop, List.getElem?_concat_length, hc]
      · rw [Ide.pop, hlen, List.getElem?_concat_length]
    · exact absurd (hq ▸ List.mem_cons_self) hmem
  · rw [pop_buf_of_ne hb]
    have hmem : b ∈ s.queue ↔ b ∈ l := by
      rw [hq, List.mem_cons]
      exact or_iff_right hb
    rw [← hmem]
    exact hw.imp_right (And.imp_right (Finished.mono hcompleted hresults))

variable [Fintype β]

theorem Base.append (h : s.Base) (hb : b ∉ s.queue) (hs' : s.append b = some s') :
    s' = s.link b s.queue.getLast? ∧
      Threaded (follow s'.qnext) none s'.idequeue ((s.queue ++ [b]).map some) := by
  have hkeep : ∀ o ∈ s.queue.map some,
      follow (update s.qnext b none) o = follow s.qnext o := by
    intro o ho
    obtain ⟨b', hb', rfl⟩ := List.mem_map.mp ho
    exact update_of_ne (ne_of_mem_of_not_mem hb' hb) ..
  have hthread := h.linked.congr hkeep
  have hlen : s.queue.length < Fintype.card β + 1 := Nat.lt_succ_of_le h.nodup.length_le_card
  rw [Ide.append, lastLink_eq hthread hlen, Option.or_none] at hs'
  obtain rfl := Option.some.inj hs'
  refine ⟨rfl, ?_⟩
  rcases s.queue.eq_nil_or_concat with hnil | ⟨l, last, hlast⟩
  · rw [hnil]
    exact ⟨rfl, Option.some_ne_none b, update_self ..⟩
  · rw [List.concat_eq_append] at hlast
    have hne : last ≠ b := by
      rintro rfl
      exact hb (by rw [hlast]; simp)
    have hnodup : last ∉ l := by
      have hn := h.nodup
      rw [hlast, List.nodup_append] at hn
      exact fun hmem ↦ hn.2.2 last hmem last (by simp) rfl
    rw [hlast] at hthread ⊢
    rw [List.map_append, List.map_append, List.map_singleton] at *
    rw [List.getLast?_append, List.getLast?_singleton]
    refine hthread.concat (Option.some_ne_none b) (fun o ho ↦ ?_) ?_ ?_
    · obtain ⟨b', hb', rfl⟩ := List.mem_map.mp ho
      exact update_of_ne (ne_of_mem_of_not_mem hb' hnodup) ..
    · exact update_self ..
    · exact (update_of_ne hne.symm ..).trans (update_self ..)

theorem Base.link (h : s.Base) (hb : b ∉ s.queue) (howner : s.owner b ≠ none)
    (hreq : (s.buf b).Request) (hs' : s.append b = some s') :
    s'.Base ∧ s' = s.link b s.queue.getLast? := by
  obtain ⟨rfl, hlinked⟩ := h.append hb hs'
  refine ⟨⟨hlinked, ?_, ?_, ?_, ?_, h.done, h.memory⟩, rfl⟩
  · exact List.nodup_append.mpr ⟨h.nodup, List.nodup_singleton b, fun x hx y hy ↦
      (List.mem_singleton.mp hy) ▸ ne_of_mem_of_not_mem hx hb⟩
  · intro b' hb'
    rcases List.mem_append.mp hb' with hb' | hb'
    · exact h.owned b' hb'
    · exact List.mem_singleton.mp hb' ▸ howner
  · intro b' hb'
    rcases List.mem_append.mp hb' with hb' | hb'
    · exact h.request b' hb'
    · exact List.mem_singleton.mp hb' ▸ hreq
  · have harrived : (s.link b s.queue.getLast?).arrived = s.arrived ++ [(b, s.buf b)] := rfl
    have hqueue : (s.link b s.queue.getLast?).queue = s.queue ++ [b] := rfl
    rw [harrived, hqueue, h.arrived, List.map_append, List.append_assoc]
    rfl

theorem Move.keeps (h : Move s t pc i) (hl : Local t pc s) :
    i.Keeps (fun s ↦ s.Base ∧ s.Runs s.queue) (fun _ ↦ At) t pc s := by
  cases h with
  | enter hpc howner hreq =>
    refine ⟨fun hI ↦ ?_, fun q pcq hat ↦ ?_⟩
    · obtain ⟨hbase, hbuf⟩ := hI.1.enter howner
      exact ⟨hbase, hI.2.congr rfl hbuf⟩
    · obtain ⟨hbase, hbuf⟩ := hat.1.enter howner
      exact hat.congr hbase rfl rfl hbuf
  | complete hcmd hdone =>
    refine ⟨fun hI ↦ ⟨hI.1.transfer hcmd hdone, hI.2⟩, fun q pcq hat ↦ ?_⟩
    exact hat.congr (hat.1.transfer hcmd hdone) rfl rfl fun _ _ ↦ rfl
  | interrupt hdone => trivial
  | acquire | again | intrAcquire => exact id
  | wait | sleep | spurious | intrWake | intrDone => exact id
  | append hs' =>
    obtain ⟨howner, hmem, hc, hreq⟩ := hl
    intro hat
    obtain ⟨hbase, rfl⟩ := hat.1.link hmem (howner ▸ Option.some_ne_none _) (hc ▸ hreq) hs'
    exact ⟨hbase, s.queue, rfl, hat.2⟩
  | first hhead hs' =>
    intro hat
    obtain ⟨hq, hnone⟩ := hat.eq_singleton hhead
    obtain ⟨hbase', hcmd, hqueue, hbuf⟩ := hat.1.idestart hnone hs'
    refine ⟨hbase', ?_⟩
    show _ = _
    rw [hcmd, hqueue, hq, hbuf]
    rfl
  | later hhead =>
    rintro ⟨hbase, l, hq, hruns⟩
    refine ⟨hbase, ?_⟩
    cases l with
    | nil =>
      have hlinked := hbase.linked
      rw [hq] at hlinked
      exact absurd hlinked.1 hhead
    | cons b' l =>
      show s.command = _
      rw [hq]
      exact hruns
  | ret hsync =>
    intro hat
    exact ⟨hat.1.leave (not_mem_of_synced hat.1 hsync), hat.2⟩
  | pop hhead =>
    intro hat
    obtain ⟨l, hq⟩ := hat.1.exists_cons hhead
    exact ⟨hat.1.pop hq hat.2 hl, rfl⟩
  | intrLast hhead =>
    rintro ⟨hbase, hcmd⟩
    refine ⟨hbase, ?_⟩
    have hnil := hbase.linked.eq_nil_iff.mpr hhead
    show s.command = _
    rw [List.map_eq_nil_iff.mp hnil, hcmd]
    rfl
  | intrNext hhead hs' =>
    rintro ⟨hbase, hcmd⟩
    obtain ⟨l, hq⟩ := hbase.exists_cons hhead
    obtain ⟨hbase', hcmd', hqueue, hbuf⟩ := hbase.idestart hcmd hs'
    refine ⟨hbase', ?_⟩
    show _ = _
    rw [hcmd', hqueue, hq, hbuf]
    rfl

theorem Move.local_self (h : Move s t pc i) (hbase : s.Base) (hl : Local t pc s) :
    Local t i.next (i.data s) := by
  cases h with
  | enter hpc howner hreq =>
    exact ⟨enter_owner_self, fun hmem ↦ hbase.owned _ hmem howner, enter_buf_self, hreq⟩
  | append hs' =>
    obtain ⟨howner, hmem, hc, hreq⟩ := hl
    obtain ⟨-, rfl⟩ := hbase.link hmem (howner ▸ Option.some_ne_none _) (hc ▸ hreq) hs'
    exact ⟨howner, .inl ⟨List.mem_append_right _ (List.mem_singleton_self _), hc⟩⟩
  | first hhead hs' =>
    obtain rfl := idestart_eq_some hs'
    exact hl
  | ret hsync =>
    obtain ⟨-, ⟨hmem, -⟩ | ⟨-, hfin⟩⟩ := hl
    · exact absurd hmem (not_mem_of_synced hbase hsync)
    · exact hfin
  | interrupt hdone => exact hdone
  | spurious | pop | intrWake | intrLast | intrNext | intrDone | complete => trivial
  | _ => exact hl

theorem Move.local_other {t' : IdeThread π} {pc' : IdePc β} (h : Move s t pc i) (hbase : s.Base)
    (hat : pc.holds = true → At pc s) (hl : Local t pc s) (hne : t' ≠ t) (hl' : Local t' pc' s) :
    Local t' pc' (i.data s) := by
  have hproc {p p' : π} {b b' : β} (hp : IdeThread.proc p' ≠ .proc p) (ho : s.owner b = some p)
      (ho' : s.owner b' = some p') : b' ≠ b := by
    rintro rfl
    exact hp (congrArg _ (Option.some.inj (ho'.symm.trans ho)))
  cases h with
  | enter hpc howner hreq =>
    refine hl'.congr (fun b' p' _ ho' ↦ ?_) List.prefix_rfl List.prefix_rfl fun _ hdone ↦ hdone
    have hb' := ne_of_apply_ne s.owner (ho'.trans_ne (howner ▸ Option.some_ne_none p'))
    exact ⟨(enter_owner_of_ne hb').trans ho', enter_buf_of_ne hb', Iff.rfl⟩
  | append hs' =>
    obtain ⟨howner, hmem, hc, hreq⟩ := hl
    obtain ⟨-, rfl⟩ := hbase.link hmem (howner ▸ Option.some_ne_none _) (hc ▸ hreq) hs'
    refine hl'.congr (fun b' p' ht' ho' ↦ ⟨ho', rfl, ?_⟩) List.prefix_rfl List.prefix_rfl
      fun _ hdone ↦ hdone
    have hb' := hproc (ht' ▸ hne) howner ho'
    exact List.mem_append.trans (or_iff_left fun hb ↦ hb' (List.mem_singleton.mp hb))
  | first hhead hs' =>
    obtain rfl := idestart_eq_some hs'
    refine hl'.congr (fun _ _ _ ho' ↦ ⟨ho', rfl, Iff.rfl⟩) List.prefix_rfl List.prefix_rfl
      fun _ hdone ↦ ?_
    exact absurd ((hat rfl).eq_singleton hhead).2 (hbase.done hdone)
  | ret hsync =>
    obtain ⟨howner, -⟩ := hl
    refine hl'.congr (fun b' p' ht' ho' ↦ ⟨?_, rfl, Iff.rfl⟩) List.prefix_rfl List.prefix_rfl
      fun _ hdone ↦ hdone
    exact (leave_owner_of_ne (hproc (ht' ▸ hne) howner ho')).trans ho'
  | pop hhead =>
    obtain ⟨l, hq⟩ := hbase.exists_cons hhead
    cases t' with
    | intr => exact absurd rfl hne
    | drive => trivial
    | proc p' =>
      cases pc' with
      | acquire b' c' | append b' c' =>
        obtain ⟨ho', hmem, hc', hreq⟩ := hl'
        refine ⟨ho', fun hb' ↦ hmem (List.mem_of_mem_tail hb'), ?_, hreq⟩
        rw [← hc']
        exact pop_buf_of_ne (ne_of_mem_of_not_mem (hq ▸ List.mem_cons_self) hmem).symm
      | start b' c' | loop b' c' | sleep b' c' | slept b' c' => exact hbase.waiting_pop hq hl'
      | returned b' c' r =>
        exact Finished.mono (List.prefix_append _ _) (List.prefix_append _ _) hl'
      | _ => trivial
  | intrNext hhead hs' =>
    obtain rfl := idestart_eq_some hs'
    exact hl'.congr (fun _ _ _ ho' ↦ ⟨ho', rfl, Iff.rfl⟩) List.prefix_rfl List.prefix_rfl
      fun ht' ↦ absurd ht' hne
  | complete hcmd hdone =>
    exact hl'.congr (fun _ _ _ ho' ↦ ⟨ho', rfl, Iff.rfl⟩) List.prefix_rfl List.prefix_rfl
      fun _ _ ↦ rfl
  | _ => exact hl'

/-! ## All interleavings -/

variable [DecidableEq π] {m m' : Monitor (IdeThread π) (IdePc β) β (Ide π β)}

structure Inv (m : Monitor (IdeThread π) (IdePc β) β (Ide π β)) : Prop where
  outline : m.Outline (fun pc ↦ pc.holds = true) (fun s ↦ s.Base ∧ s.Runs s.queue) fun _ ↦ At
  relies : ∀ t, Local t (m.thread t).pc m.data

omit [DecidableEq β] [Fintype β] [DecidableEq π] in
theorem Inv.base (h : Inv m) : m.data.Base := by
  cases hlock : m.lock with
  | none => exact (h.outline.free hlock).1
  | some t => exact (h.outline.held t hlock).1

omit [DecidableEq β] [Fintype β] [DecidableEq π] in
theorem Inv.of_initial (h : Initial m) : Inv m := by
  refine ⟨.of_outside h.lock (fun t ↦ ?_) ⟨⟨?_, ?_, ?_, ?_, ?_, ?_, m.data.disk, ?_, ?_, ?_⟩, ?_⟩,
    fun t ↦ ?_⟩
  · rw [h.pc]
    exact Bool.false_ne_true
  · rw [h.queue]
    exact h.idequeue
  · rw [h.queue]
    exact List.nodup_nil
  · rw [h.queue]
    exact fun b hb ↦ absurd hb List.not_mem_nil
  · rw [h.queue]
    exact fun b hb ↦ absurd hb List.not_mem_nil
  · rw [h.queue, h.arrived, h.completed]
    rfl
  · rw [h.done]
    exact fun hne ↦ absurd hne Bool.false_ne_true
  · rw [h.completed, h.results, h.start]
    rfl
  · rw [after, h.done]
  · rw [h.done]
    exact fun _ hne ↦ absurd hne Bool.false_ne_true
  · rw [Runs, h.queue, h.command]
    rfl
  · rw [h.pc]
    cases t <;> trivial

theorem Inv.step {a : MonitorAct (IdeThread π) (IdeInput β)} (h : Inv m)
    (hs : m.step code a = some m') : Inv m' := by
  refine ⟨h.outline.step hs fun t x i _ hi ↦ ?_, Monitor.forall_local_step h.relies hs ?_⟩
  · exact ⟨(move_of_code hi).fits, (move_of_code hi).keeps (h.relies t)⟩
  · intro t x i hi
    have hat : (m.thread t).pc.holds = true → At (m.thread t).pc m.data := fun hpc ↦
      h.outline.held t (h.outline.lock_eq hpc)
    exact ⟨(move_of_code hi).local_self h.base (h.relies t), fun t' hne ↦
      (move_of_code hi).local_other h.base hat (h.relies t) hne (h.relies t')⟩

/-- The driver refines the memory disk, in a state of any run. -/
structure Refines (m : Monitor (IdeThread π) (IdePc β) β (Ide π β)) : Prop where
  /-- The links from `idequeue` on go through the members of the queue, each once. -/
  queue : Threaded (follow m.data.qnext) none m.data.idequeue (m.data.queue.map some) ∧
    m.data.queue.Nodup
  /-- The drive works on the first of them. -/
  head : m.lock = none → m.data.command = m.data.queue.head?.map fun b ↦
    ⟨(m.data.buf b).blockno, if (m.data.buf b).dirty then some (m.data.buf b).data else none⟩
  /-- What arrived was completed, in order, or is in the queue. -/
  order : m.data.arrived = m.data.completed ++ m.data.queue.map fun b ↦ (b, m.data.buf b)
  /-- What a call has returned with is what its request was completed with. -/
  returned : ∀ p b c r, (m.thread (.proc p)).pc = .returned b c r →
    r.Synced ∧ ∃ k : ℕ, m.data.completed[k]? = some (b, c) ∧ m.data.results[k]? = some r
  /-- The memory disk does the same with the completed requests. -/
  memory : ∃ D, memRun m.data.start (m.data.completed.map Prod.snd) = some (D, m.data.results) ∧
    (m.data.done = false → m.data.disk = D)

/-- **The interrupt-driven driver refines the memory disk** for any interleaving of calls,
interrupts and what the drive does. -/
theorem refines_of_reachable (h : (ide π β).Reachable m) : Refines m := by
  have hI : Inv m := h.invariant (fun _ ↦ .of_initial) fun _ _ _ hI hs ↦ hI.step hs
  have hbase := hI.base
  refine ⟨⟨hbase.linked, hbase.nodup⟩, fun hlock ↦ ?_, hbase.arrived, fun p b c r hpc ↦ ?_, ?_⟩
  · have hruns : m.data.Runs m.data.queue := (hI.outline.free hlock).2
    rw [hruns]
    cases hq : m.data.queue with
    | nil => rfl
    | cons b l =>
      rw [List.head?_cons, Option.map_some, Option.map_some,
        commandFor_eq (hbase.request b (hq ▸ List.mem_cons_self))]
  · have hlocal := hI.relies (.proc p)
    rw [hpc] at hlocal
    exact hlocal
  · obtain ⟨D, hrun, hdisk, -⟩ := hbase.memory
    refine ⟨D, hrun, fun hdone ↦ ?_⟩
    rw [hdisk, after, hdone]

/-- One process writes a block while another one waits to read it. -/
theorem refines_of_reachable_two : ∃ m, (ide (Fin 2) (Fin 2)).Reachable m ∧
    (m.data.completed.map Prod.fst = [0, 1] ∧
      m.data.results.map (fun r ↦ Block.word r.data 0) = [7, 7]) ∧ Refines m := by
  obtain ⟨m, hm, hrun⟩ := Machine.exists_reachable_of_run (M := ide (Fin 2) (Fin 2))
    (.go (.proc 0) (.iderw 0 ⟨true, true, 1, 5, 1, fun _ ↦ 7⟩) ::
      List.replicate 5 (.go (.proc 0) .go) ++
      .go (.proc 1) (.iderw 1 ⟨false, false, 1, 5, 1, fun _ ↦ 0⟩) ::
      List.replicate 5 (.go (.proc 1) .go) ++
      .go .drive .complete :: .go .intr .interrupt :: List.replicate 5 (.go .intr .go) ++
      List.replicate 2 (.go (.proc 0) .go) ++
      .go .drive .complete :: .go .intr .interrupt :: List.replicate 5 (.go .intr .go) ++
      List.replicate 2 (.go (.proc 1) .go))
    (fun m ↦ m.data.completed.map Prod.fst = [0, 1] ∧
      m.data.results.map (fun r ↦ Block.word r.data 0) = [7, 7])
    initial_boot (by decide +kernel)
  exact ⟨m, hm, of_decide_eq_true hrun, refines_of_reachable hm⟩

end Ide

end OperatingSystems
