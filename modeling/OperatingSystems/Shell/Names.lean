import OperatingSystems.Shell.Session

/-!
# Relative names

A path names a place: a directory and a name in it. A relative path is followed from the working
directory of the process. `custom_cd` changes the shell's directory path, and no command ever
changes the working directory, so it is the one the shell was started in. `custom_cat`, `custom_cp`
and `custom_mv` hand their arguments to `fopen` and `remove` as they are.

The calls of a command are recorded with its files. Each of them goes to the place that its path
names from the working directory; so a command opens and removes the files of the directory path
just when the directory path still leads to the directory in which the shell was started.
-/

namespace OperatingSystems.Shell

open CArray

def Relative (f : Bytes) : Prop := f ≠ [] ∧ f.head? ≠ some slash

/-! ## Paths one behind the other -/

theorem elements_append (p f : Bytes) : ∀ cur,
    elements cur (p ++ slash :: f) = elements cur p ++ elements [] f := by
  induction p with
  | nil =>
    intro cur
    rw [List.nil_append]
    exact if_pos rfl
  | cons c p ih =>
    intro cur
    rw [List.cons_append, elements, elements]
    split
    · rw [ih, List.append_assoc]
    · rw [ih]

theorem elements_ne_nil (path : Bytes) : ∀ {cur : Bytes}, cur ≠ [] → elements cur path ≠ [] := by
  induction path with
  | nil =>
    intro cur h
    rw [elements, pending, if_neg h]
    exact List.cons_ne_nil _ _
  | cons c path ih =>
    intro cur h
    rw [elements, pending, if_neg h]
    split
    · exact List.cons_ne_nil _ _
    · exact ih (List.append_ne_nil_of_left_ne_nil h _)

variable {f : Bytes}

theorem Relative.elements_ne_nil (h : Relative f) : elements [] f ≠ [] := by
  match f with
  | [] => exact absurd rfl h.1
  | c :: f =>
    have hc : c ≠ slash := fun hc ↦ h.2 (congrArg some hc)
    rw [elements, if_neg hc]
    exact Shell.elements_ne_nil f (List.cons_ne_nil _ _)

section Place

variable {δ : Type} (t : Tree δ)

theorem walk_append (d : δ) (as bs : List Bytes) :
    t.walk d (as ++ bs) = (t.walk d as).bind fun d ↦ t.walk d bs := List.foldlM_append

theorem place_append (cwd : δ) (p : Bytes) (hf : Relative f) :
    t.place cwd (p ++ slash :: f) = (t.dirAt cwd p).bind fun d ↦ t.place d f := by
  have horigin : t.origin cwd (p ++ slash :: f) = t.origin cwd (p ++ [slash]) := by
    cases p <;> rfl
  have hrel : ∀ d, t.origin d f = d := fun d ↦ if_neg hf.2
  have hne := hf.elements_ne_nil
  unfold Tree.place Tree.dirAt
  rw [horigin, elements_append, List.getLast?_append_of_ne_nil _ hne,
    List.getLast?_eq_getLast_of_ne_nil hne, List.dropLast_append_of_ne_nil hne, walk_append]
  simp only [hrel, Option.map_bind]
  rfl

end Place

/-! ## The calls of a command -/

section Logged

variable {Λ κ : Type} {e : Env Λ κ} {s s' s'' : Files Λ κ}

def FileCall.At (e : Env Λ κ) : FileCall Λ → Prop
  | .read path l => l = e.locate path
  | .write path l => l = e.locate path
  | .remove path l => l = e.locate path

def Logged (e : Env Λ κ) (s s' : Files Λ κ) : Prop :=
  ∃ new, s'.calls = new ++ s.calls ∧ ∀ c ∈ new, c.At e

theorem Logged.of_eq (h : s'.calls = s.calls) : Logged e s s' :=
  ⟨[], h, fun _ hc ↦ absurd hc List.not_mem_nil⟩

theorem Logged.of_call {c : FileCall Λ} (hc : c.At e) (h : s'.calls = c :: s.calls) :
    Logged e s s' := ⟨[c], h, by rintro c' hc'; rwa [List.mem_singleton.1 hc']⟩

theorem Logged.trans (h : Logged e s s') (h' : Logged e s' s'') : Logged e s s'' := by
  obtain ⟨new, heq, hat⟩ := h
  obtain ⟨new', heq', hat'⟩ := h'
  refine ⟨new' ++ new, by rw [heq', heq, List.append_assoc], fun c hc ↦ ?_⟩
  exact (List.mem_append.1 hc).elim (hat' c) (hat c)

theorem logged_read (s : Files Λ κ) (path : Bytes) : Logged e s (s.fopenRead e path).2 :=
  .of_call (c := .read path (e.locate path)) rfl rfl

theorem logged_catAll {args : List Bytes} : ∀ {left : ℕ} {s : Files Λ κ} {out : Bytes},
    catAll e left args s = some (out, s') → Logged e s s' := by
  induction args with
  | nil =>
    intro left s out h
    cases left with
    | zero => cases h
    | succ left =>
      cases h
      exact .of_eq rfl
  | cons arg args ih =>
    intro left s out h
    cases left with
    | zero => cases h
    | succ left =>
      rw [catAll, Files.fopenRead] at h
      cases hr : s.readable e arg with
      | none =>
        rw [hr] at h
        cases h
        exact logged_read s arg
      | some file =>
        rw [hr] at h
        obtain ⟨r, hrest, hr'⟩ := Option.map_eq_some_iff.1 h
        cases hr'
        exact (logged_read s arg).trans (ih hrest)

theorem logged_customCat {args : List FileArg} {r : Bytes × Files Λ κ}
    (h : customCat e s args = some r) : Logged e s r.2 := by
  obtain ⟨⟨out, s'⟩, hall, rfl⟩ := Option.map_eq_some_iff.1 h
  exact logged_catAll hall

variable [DecidableEq Λ] [DecidableEq κ]

theorem calls_copyLoop {t : Stream} {file new : FileId Λ κ} (fuel : ℕ) :
    ∀ pos k pending (s : Files Λ κ),
      (Files.copyLoop t file new fuel pos k pending s).2.calls = s.calls := by
  induction fuel with
  | zero => exact fun _ _ _ _ ↦ rfl
  | succ fuel ih =>
    intro pos k pending s
    rw [Files.copyLoop]
    split
    · rfl
    · exact ih _ _ _ _

theorem logged_fopenWrite (s : Files Λ κ) (path : Bytes) : Logged e s (s.fopenWrite e path).2 := by
  refine .of_call (c := .write path (e.locate path)) rfl ?_
  rw [Files.fopenWrite]
  split <;> rfl

theorem logged_copyFile {tempPath arg : Bytes} {index : ℕ} {r : Files Λ κ × Bool}
    (h : copyFile e tempPath index arg s = some r) : Logged e s r.1 := by
  have hwrite := (logged_read s arg).trans (logged_fopenWrite (e := e) _ (newPath tempPath arg))
  rw [copyFile] at h
  dsimp only at h
  split at h
  · split at h
    next s' _ hw hr =>
      cases h
      rw [hw] at hwrite
      exact hwrite.trans (.of_eq (calls_copyLoop _ _ _ _ _))
    next hw _ =>
      cases h
      rw [hw] at hwrite
      exact hwrite
  · cases h

theorem logged_copyAll {finish : Bytes → Files Λ κ → Files Λ κ} {tempPath : Bytes}
    (hfinish : ∀ arg s, Logged e s (finish arg s)) (args : List Bytes) :
    ∀ {s : Files Λ κ} {r : Files Λ κ × Bool}, copyAll e finish tempPath args s = some r →
      Logged e s r.1 := by
  induction args with
  | nil =>
    intro s r h
    cases h
    exact .of_eq rfl
  | cons arg args ih =>
    intro s r h
    obtain ⟨r', hr', h⟩ := Option.bind_eq_some_iff.1 h
    have hcopy := logged_copyFile hr'
    split at h
    · exact hcopy.trans ((hfinish arg _).trans (ih h))
    · cases h
      exact hcopy

theorem logged_transfer {finish : Bytes → Files Λ κ → Files Λ κ}
    (hfinish : ∀ arg s, Logged e s (finish arg s)) {tempPath : Option (Resolved Bytes)}
    {args : List FileArg} {printed : Option Message}
    (h : transfer e finish tempPath args s = .returns s' printed) : Logged e s s' := by
  unfold transfer at h
  dsimp only at h
  split at h
  · split at h
    · cases h; exact .of_eq rfl
    · cases h
    · cases h
    · cases h; exact .of_eq rfl
    · split at h
      · cases hall : copyAll e finish _ (sources args).reverse s with
        | none =>
          rw [hall] at h
          cases h
        | some r =>
          rw [hall] at h
          cases h
          exact logged_copyAll hfinish _ hall
      · cases h; exact .of_eq rfl
  · cases h

omit [DecidableEq κ] in
theorem logged_remove (s : Files Λ κ) (arg : Bytes) : Logged e s (s.remove e arg) := by
  refine .of_call (c := .remove arg (e.locate arg)) rfl ?_
  rw [Files.remove]
  split <;> rfl

end Logged

/-! ## The process -/

section Names

variable {δ κ : Type} [DecidableEq δ] [DecidableEq κ] {x : Host δ} {p p' : Process δ κ}

/-- **One line.** The working directory stays, and each call goes to the place that its path names
from there. -/
theorem logged_step {i : Input δ κ} (h : (shell x).step (.prompt p) i = some (.prompt p')) :
    p'.cwd = p.cwd ∧ Logged (x.env p i.access) p.files p'.files := by
  have hsame : p.cwd = p.cwd ∧ Logged (x.env p i.access) p.files p.files := ⟨rfl, .of_eq rfl⟩
  have hfiles : ∀ {o : Outcome (Files (Option (δ × Bytes)) κ)},
      p.afterTransfer o = some (.prompt p') →
      (∀ s printed, o = .returns s printed → Logged (x.env p i.access) p.files s) →
      p'.cwd = p.cwd ∧ Logged (x.env p i.access) p.files p'.files := by
    rintro (_ | _ | ⟨s, printed⟩) ⟨⟩ hlogged
    exact ⟨rfl, hlogged s printed rfl⟩
  have h : (if Fitting i.line.bytes then x.execute p i else some .fault) = some (.prompt p') := h
  split at h
  · unfold Host.execute at h
    split at h
    · cases h
      exact hsame
    · cases hcat : customCat (x.env p i.access) p.files i.line.words with
      | none =>
        rw [hcat] at h
        cases h
      | some r =>
        rw [hcat] at h
        cases h
        exact ⟨rfl, logged_customCat hcat⟩
    · cases hcd : customCd x.toWorld i.line.arg i.fuel p.directoryPath with
      | returns b printed =>
        rw [hcd] at h
        cases h
        exact hsame
      | loops | fault =>
        rw [hcd] at h
        cases h
    · exact hfiles h fun s _ hs ↦ logged_transfer (fun _ _ ↦ .of_eq rfl) hs
    · split at h
      · cases h
        exact hsame
      · cases h
    · exact hfiles h fun s _ hs ↦ logged_transfer (fun arg s ↦ logged_remove s arg) hs
    · cases h
    · cases h
      exact hsame
    · cases h
  · cases h

theorem cwd_of_reachable (h : (shell x).Reachable (.prompt p)) : p.cwd = x.start := by
  have hinv :
      ∀ s : ShellState δ κ, (shell x).Reachable s → ∀ p, s = .prompt p → p.cwd = x.start := by
    intro s hs
    refine Machine.Reachable.invariant (I := fun s ↦ ∀ p, s = .prompt p → p.cwd = x.start) ?_ ?_ hs
    · rintro s ⟨entry, contents, rfl⟩ p ⟨⟩
      rfl
    · rintro s i s' ih hstep p' rfl
      cases s with
      | fault => cases hstep
      | prompt p => exact (logged_step hstep).1.trans (ih p rfl)
  exact hinv _ h p rfl

/-- Whatever line comes next, a relative name that is opened for reading or removed stands for the
file of that name in the directory path. -/
def FollowsCd (x : Host δ) (p : Process δ κ) : Prop :=
  ∀ directoryPath, text bufferSize p.directoryPath = some directoryPath →
    ∀ (i : Input δ κ) p', (shell x).step (.prompt p) i = some (.prompt p') →
      ∀ new, p'.files.calls = new ++ p.files.calls →
        ∀ path l, .read path l ∈ new ∨ .remove path l ∈ new → Relative path →
          l = x.tree.place p.cwd (directoryPath ++ slash :: path)

/-- `cat a` -/
def catLine : Line := ⟨ascii "cat a", by decide, by decide, fun _ ↦ 0⟩

omit [DecidableEq δ] [DecidableEq κ] in
theorem customCat_single {e : Env (Option (δ × Bytes)) κ} {s : Files (Option (δ × Bytes)) κ}
    {args : List FileArg} {path : Bytes} (h : texts args = [path]) :
    ∃ out, customCat e s args = some (out, s.call (.read path (e.locate path))) := by
  have hsize : argsSize = 13 + 1 + 1 := rfl
  rw [customCat, h, hsize, catAll, Files.fopenRead]
  cases s.readable e path with
  | none => exact ⟨_, rfl⟩
  | some file => exact ⟨_, rfl⟩

theorem step_cat {i : Input δ κ} {r : Bytes × Files (Option (δ × Bytes)) κ}
    (hfit : Fitting i.line.bytes) (hcmd : i.line.command = .cat)
    (hcat : customCat (x.env p i.access) p.files i.line.words = some r) :
    (shell x).step (.prompt p) i = some (.prompt { p with files := r.2 }) := by
  refine (if_pos hfit).trans ?_
  rw [Host.execute, hcmd]
  dsimp only
  rw [hcat]
  rfl

theorem followsCd_iff : FollowsCd x p ↔ ∀ directoryPath,
    text bufferSize p.directoryPath = some directoryPath →
      x.tree.dirAt p.cwd directoryPath = some p.cwd := by
  refine forall₂_congr fun directoryPath _ ↦ ⟨fun h ↦ ?_, ?_⟩
  · -- any single name tells the directories apart
    have hname : Relative [97] := ⟨List.cons_ne_nil _ _, by decide⟩
    have hplace : ∀ d, x.tree.place d [97] = some (d, [97]) := fun _ ↦ rfl
    have hfit : Fitting catLine.bytes := by decide
    have hcmd : catLine.command = .cat := by decide +kernel
    have hwords : texts catLine.words = [[97]] := by decide +kernel
    obtain ⟨out, hcat⟩ := customCat_single (e := x.env p (Input.ofLine catLine).access)
      (s := p.files) hwords
    have hsame : x.tree.place p.cwd [97] = _ :=
      h (.ofLine catLine) _ (step_cat hfit hcmd hcat) [_] rfl
      [97] _ (.inl List.mem_cons_self) hname
    rw [place_append _ _ _ hname, hplace] at hsame
    obtain ⟨d, hd, heq⟩ := Option.bind_eq_some_iff.1 hsame.symm
    rw [hplace] at heq
    rw [hd, (Prod.mk.inj (Option.some.inj heq)).1]
  · intro hdir i p' hstep new hnew path l hcall hpath
    obtain ⟨new', hnew', hat⟩ := (logged_step hstep).2
    obtain rfl : new = new' := List.append_cancel_right (hnew.symm.trans hnew')
    rw [place_append _ _ _ hpath, hdir, Option.bind_some]
    exact hcall.elim (hat _) (hat _)

/-- **When relative names follow `cd`.** After any run of the shell, a relative name stands for the
file of that name in the directory path just when the path leads to the directory in which the shell
was started. -/
theorem names_follow_cd_iff (x : Host δ) (p : Process δ κ) (h : (shell x).Reachable (.prompt p)) :
    FollowsCd x p ↔ ∀ directoryPath, text bufferSize p.directoryPath = some directoryPath →
      x.tree.dirAt x.start directoryPath = some x.start := by
  rw [followsCd_iff, cwd_of_reachable h]

theorem followsCd_start (hcwd : p.cwd = x.start) (hpath : p.directoryPath = x.startPath)
    (h : x.cwd ≠ none) : FollowsCd x p := by
  obtain ⟨dir, hdir⟩ := Option.ne_none_iff_exists'.1 h
  rw [followsCd_iff, hcwd, hpath, text_startPath hdir]
  rintro p ⟨⟩
  exact x.cwd_eq _ hdir

end Names

/-- A root directory with a directory `a` in it, and a shell that is started in the root. -/
def twoHost : Host Bool where
  opendir p := decide (p = [slash]) || decide (p = [slash, 97])
  opendir_lt p hp := by
    rcases Bool.or_eq_true_iff.1 hp with hp | hp <;> rw [of_decide_eq_true hp] <;> decide
  user := none
  user_text := by
    rintro u ⟨⟩
  cwd := some [slash]
  cwd_text := rootHost.cwd_text
  cwd_lt := rootHost.cwd_lt
  tree := ⟨false, fun d name ↦ if d = false ∧ name = [97] then some true else none⟩
  start := false
  cwd_eq := by
    rintro p ⟨⟩
    rfl

/-- The shell when it is started, with the files `/f` and `/a/f`. -/
def twoProcess : Process Bool ℕ where
  cwd := false
  directoryPath := twoHost.startPath
  files := .start
    (fun l ↦
      if l = some (false, [102]) then some 0 else if l = some (true, [102]) then some 1 else none)
    fun i ↦ if i = 0 then [48] else [49]

/-- `cd /a` -/
def cdALine : Line := ⟨ascii "cd /a", by decide, by decide, fun _ ↦ 0⟩

/-- `cat f` -/
def catFLine : Line := ⟨ascii "cat f", by decide, by decide, fun _ ↦ 0⟩

/-- The process behind `cd /a`. -/
def movedProcess : Process Bool ℕ :=
  { twoProcess with directoryPath := laid bufferSize twoHost.startPath [slash, 97] }

theorem step_cdALine :
    (shell twoHost).step (.prompt twoProcess) (.ofLine cdALine) = some (.prompt movedProcess) := by
  have hslash : cdALine.arg.mem 0 = slash := by decide +kernel
  have htext : cdALine.arg.text = [slash, 97] := by decide +kernel
  have hcd : customCd twoHost.toWorld cdALine.arg 8 twoHost.startPath =
      .returns (laid bufferSize twoHost.startPath [slash, 97]) none := by
    rw [customCd_absolute hslash (by rw [htext]; decide), htext]
  exact step_cd (by decide) (by decide +kernel) hcd

theorem text_movedProcess : text bufferSize movedProcess.directoryPath = some [slash, 97] :=
  text_laid (Nat.le_refl _) (by decide) (by decide)

/-- The names follow the directory path at the start, and no more after `cd /a`. -/
theorem names_follow_cd_iff_start :
    FollowsCd twoHost twoProcess ∧ ¬ FollowsCd twoHost movedProcess := by
  have hinit : (shell twoHost).Reachable (.prompt twoProcess) := .init ⟨_, _, rfl⟩
  rw [names_follow_cd_iff twoHost _ hinit, names_follow_cd_iff twoHost _ (hinit.step step_cdALine),
    text_movedProcess, show text bufferSize twoProcess.directoryPath = _ from text_startPath rfl]
  refine ⟨?_, fun h ↦ absurd (h _ rfl) (by decide)⟩
  rintro p ⟨⟩
  rfl

/-- Started in the root, `cd /a` and `cat f`: the prompt says `/a`, and what is opened and printed
is `/f`. -/
theorem exists_other_file : ∃ p p' : Process Bool ℕ, (shell twoHost).Reachable (.prompt p) ∧
    text bufferSize p.directoryPath = some [slash, 97] ∧
    (shell twoHost).step (.prompt p) (.ofLine catFLine) = some (.prompt p') ∧
    p'.files.calls = [.read [102] (some (false, [102]))] ∧
    twoHost.tree.place p.cwd [slash, 97, slash, 102] = some (true, [102]) ∧
    (customCat (twoHost.env p (Input.ofLine catFLine).access) p.files catFLine.words).map Prod.fst =
      some [48, newline] := by
  have hinit : (shell twoHost).Reachable (.prompt twoProcess) := .init ⟨_, _, rfl⟩
  obtain ⟨out, hcat⟩ :=
    customCat_single (e := twoHost.env movedProcess (Input.ofLine catFLine).access)
    (s := movedProcess.files) (show texts catFLine.words = [[102]] by decide +kernel)
  refine ⟨movedProcess, _, hinit.step step_cdALine, text_movedProcess,
    step_cat (by decide) (by decide +kernel) hcat, rfl, by decide, ?_⟩
  decide +kernel

end OperatingSystems.Shell
