import OperatingSystems.Lib.Transition
import OperatingSystems.Shell.Lexical
import OperatingSystems.Shell.Stream
import OperatingSystems.Shell.Transfer

/-!
# The shell from prompt to prompt

`main` prints a prompt, reads a line, and carries out the command that its first word names. The
words are the rows of one array: a string that is read behind the end of its row goes on in the next
one, and behind the last row there is other memory. The process has a working directory, from which
relative paths are followed, and the shell has its own directory path, which only `cd` changes.

At each prompt the directory path should be absolute, accepted by `opendir`, and have zeros behind
it up to the end of its array. It does so as long as each line has room in the array and each
command stays within its own; a line that does not leads from a good prompt to a bad state.
-/

namespace OperatingSystems.Shell

open CArray

/-! ## The words of a line -/

/-- A line of words with less than 1024 bytes, and the memory behind the array that it is read
to. -/
structure Line where
  bytes : Bytes
  whole : Whole bytes
  short : ∀ x ∈ cells bytes, x.col < rowSize - 1
  behind : ℕ → UInt8

theorem write_of_notMem {cs : List Cell} {row col : ℕ} (h : ∀ x ∈ cs, x.col ≠ col) :
    ∀ m : ℕ → ℕ → UInt8, write m cs row col = m row col := by
  induction cs with
  | nil => exact fun _ ↦ rfl
  | cons x cs ih =>
    intro m
    have hx : ¬ (row = x.row ∧ col = x.col) := fun heq ↦ h x List.mem_cons_self heq.2.symm
    exact (ih (fun y hy ↦ h y (List.mem_cons_of_mem _ hy)) _).trans (if_neg hx)

def Arg.ofMem (mem : ℕ → UInt8) (h : (strlen rowSize mem).isSome) : Arg where
  mem := mem
  len := (strlen rowSize mem).get h
  lt := (of_strlen_eq_some (Option.some_get h).symm).1
  nul := (of_strlen_eq_some (Option.some_get h).symm).2.1
  nonzero := (of_strlen_eq_some (Option.some_get h).symm).2.2

def leading : List Arg → List FileArg
  | [] => []
  | a :: as => if h : a.len = 0 then [] else ⟨a, h⟩ :: leading as

theorem length_leading_le (as : List Arg) : (leading as).length ≤ as.length := by
  induction as with
  | nil => exact Nat.le_refl _
  | cons a as ih =>
    rw [leading]
    split
    · exact Nat.zero_le _
    · exact Nat.succ_le_succ ih

namespace Line

/-- The bytes of `commands` from its start on. -/
def mem (l : Line) (k : ℕ) : UInt8 :=
  if k < argumentsSize * rowSize then lineBytes l.bytes (k / rowSize) (k % rowSize) else l.behind k

theorem row_isSome (l : Line) {r : ℕ} (hr : r < argumentsSize) :
    (strlen rowSize fun j ↦ l.mem (r * rowSize + j)).isSome := by
  have hrow : rowSize - 1 < rowSize := by decide
  refine strlen_isSome ⟨rowSize - 1, hrow, ?_⟩
  have hlt : r * rowSize + (rowSize - 1) < argumentsSize * rowSize :=
    calc r * rowSize + (rowSize - 1) < (r + 1) * rowSize := by rw [Nat.succ_mul]; omega
      _ ≤ argumentsSize * rowSize := Nat.mul_le_mul_right _ hr
  rw [mem, if_pos hlt, Nat.mul_add_mod_of_lt hrow]
  exact write_of_notMem (fun x hx ↦ Nat.ne_of_lt (l.short x hx)) _

/-- `commands[r]` -/
def row (l : Line) (r : ℕ) (hr : r < argumentsSize) : Arg := .ofMem _ (l.row_isSome hr)

/-- The argument of `custom_cd`. -/
def arg (l : Line) : Arg := l.row 1 (by decide)

/-- `args`, for the commands that take names. -/
def args (l : Line) : List Arg :=
  (List.finRange argsSize).map fun i : Fin argsSize ↦ l.row (i.1 + 1) (Nat.succ_lt_succ i.2)

def words (l : Line) : List FileArg := leading l.args

theorem length_words_le (l : Line) : l.words.length ≤ argsSize := by
  refine (length_leading_le _).trans (Nat.le_of_eq ?_)
  rw [args, List.length_map, List.length_finRange]

end Line

/-! ## The commands -/

inductive Command where
  | nothing
  | cat
  | cd
  | cp
  | ls
  | mv
  | exit
  | unknown
  deriving DecidableEq

/-- The comparisons of `main`, in their order. -/
def commandOf (row : ℕ → UInt8) : Command :=
  if IsWord row [] then .nothing
  else if IsWord row (ascii "cat") then .cat
  else if IsWord row (ascii "cd") then .cd
  else if IsWord row (ascii "cp") then .cp
  else if IsWord row (ascii "ls") then .ls
  else if IsWord row (ascii "mv") then .mv
  else if IsWord row (ascii "exit") then .exit
  else .unknown

def Line.command (l : Line) : Command := commandOf (lineBytes l.bytes 0)

/-! ## Directories -/

/-- The elements of a path, with the part `cur` of an element before it. -/
def elements : (cur : Bytes) → Bytes → List Bytes
  | cur, [] => pending cur
  | cur, c :: path =>
      if c = slash then pending cur ++ elements [] path else elements (cur ++ [c]) path

structure Tree (δ : Type) where
  root : δ
  /-- The directory that a name leads to. -/
  child : δ → Bytes → Option δ

namespace Tree

variable {δ : Type} (t : Tree δ)

def walk (d : δ) (names : List Bytes) : Option δ := names.foldlM t.child d

/-- The directory that a path is followed from. -/
def origin (cwd : δ) (path : Bytes) : δ := if path.head? = some slash then t.root else cwd

/-- The place that a path names: a directory, and the name that the last element is. -/
def place (cwd : δ) (path : Bytes) : Option (δ × Bytes) :=
  match (elements [] path).getLast? with
  | none => none
  | some name => (t.walk (t.origin cwd path) (elements [] path).dropLast).map (·, name)

/-- The directory that a path with a slash behind it names. -/
def dirAt (cwd : δ) (path : Bytes) : Option δ :=
  t.walk (t.origin cwd (path ++ [slash])) (elements [] path)

end Tree

structure Host (δ : Type) extends World where
  tree : Tree δ
  /-- The directory that the process is started in. -/
  start : δ
  /-- `getcwd` names it. -/
  cwd_eq : ∀ p ∈ cwd, tree.dirAt start p = some start

/-! ## The loop of `main` -/

variable {δ κ : Type}

structure Process (δ κ : Type) where
  /-- The working directory of the process. -/
  cwd : δ
  directoryPath : ℕ → UInt8
  files : Files (Option (δ × Bytes)) κ

inductive ShellState (δ κ : Type) where
  | prompt (p : Process δ κ)
  /-- Memory outside of an array was read or written. -/
  | fault

structure Input (δ κ : Type) where
  line : Line
  /-- The contents of `temp_path`. -/
  init : ℕ → UInt8
  /-- The rounds that the loop over a path may take; a command that takes more does not come
  back. -/
  fuel : ℕ
  access : Access (Option (δ × Bytes)) κ

/-- What the commands of a process find: a path is followed from its working directory. -/
def Host.env (x : Host δ) (p : Process δ κ) (a : Access (Option (δ × Bytes)) κ) :
    Env (Option (δ × Bytes)) κ :=
  { a with locate := x.tree.place p.cwd, isDir := x.opendir }

namespace Process

def afterCat (p : Process δ κ) :
    Option (Bytes × Files (Option (δ × Bytes)) κ) → ShellState δ κ
  | none => .fault
  | some r => .prompt { p with files := r.2 }

def afterCd (p : Process δ κ) : CdOutcome → Option (ShellState δ κ)
  | .loops => none
  | .fault => some .fault
  | .returns b _ => some (.prompt { p with directoryPath := b })

def afterTransfer (p : Process δ κ) :
    Outcome (Files (Option (δ × Bytes)) κ) → Option (ShellState δ κ)
  | .loops => none
  | .fault => some .fault
  | .returns s _ => some (.prompt { p with files := s })

end Process

variable [DecidableEq δ] [DecidableEq κ]

/-- What is done with a line that has been read. Without a string in it, the directory path cannot
be used; and `custom_ls` goes through the directory without asking whether it could be opened. -/
def Host.execute (x : Host δ) (p : Process δ κ) (i : Input δ κ) : Option (ShellState δ κ) :=
  match i.line.command, text bufferSize p.directoryPath with
  | .nothing, _ => some (.prompt p)
  | .cat, _ => some (p.afterCat (customCat (x.env p i.access) p.files i.line.words))
  | .cd, _ => p.afterCd (customCd x.toWorld i.line.arg i.fuel p.directoryPath)
  | .cp, some dp =>
    p.afterTransfer (customCp (x.env p i.access) i.init i.fuel i.line.words dp p.files)
  | .ls, some dp => some (if x.opendir dp then .prompt p else .fault)
  | .mv, some dp =>
    p.afterTransfer (customMv (x.env p i.access) i.init i.fuel i.line.words dp p.files)
  | .exit, _ => none
  | .unknown, _ => some (.prompt p)
  | _, none => some .fault

/-- The array when the shell is started: zeros, and what `getcwd` puts there. -/
def World.startPath (w : World) : ℕ → UInt8 := laid bufferSize (fun _ ↦ 0) (w.cwd.getD [])

def shell (x : Host δ) : Machine (ShellState δ κ) (Input δ κ) where
  init s := ∃ entry contents, s = .prompt ⟨x.start, x.startPath, .start entry contents⟩
  step
    | .fault, _ => none
    | .prompt p, i => if Fitting i.line.bytes then x.execute p i else some .fault

/-! ## The directory path -/

def Sound (w : World) : ShellState δ κ → Prop
  | .prompt p => ∃ q, Usable w p.directoryPath q
  | .fault => False

/-- The lines that keep it: there is room for each byte of the line, `cd` leaves a sound path, and
the other commands stay within their arrays. -/
def LineFits (x : Host δ) : ShellState δ κ → Input δ κ → Prop
  | .fault, _ => True
  | .prompt p, i =>
    Fitting i.line.bytes ∧
    match i.line.command with
    | .cat => i.line.words.length < argsSize ∨
        ∃ arg ∈ texts i.line.words, p.files.readable (x.env p i.access) arg = none
    | .cd => CdFits x.toWorld i.line.arg i.fuel p.directoryPath
    | .cp => ∀ dp, text bufferSize p.directoryPath = some dp →
        customCp (x.env p i.access) i.init i.fuel i.line.words dp p.files ≠ .fault
    | .mv => ∀ dp, text bufferSize p.directoryPath = some dp →
        customMv (x.env p i.access) i.init i.fuel i.line.words dp p.files ≠ .fault
    | _ => True

section Step

variable {w : World} {p : Process δ κ}

def SoundNext (w : World) (o : Option (ShellState δ κ)) : Prop := ∀ s', o = some s' → Sound w s'

omit [DecidableEq δ] [DecidableEq κ] in
theorem soundNext_some {s : ShellState δ κ} : SoundNext w (some s) ↔ Sound w s := by
  constructor
  · exact fun h ↦ h s rfl
  · rintro h s' ⟨⟩
    exact h

omit [DecidableEq δ] [DecidableEq κ] in
theorem soundNext_afterCd (o : CdOutcome) : SoundNext w (p.afterCd o) ↔ o.Sound w := by
  cases o with
  | loops => exact iff_of_true (by rintro s' ⟨⟩) trivial
  | fault => exact soundNext_some
  | returns b printed => exact soundNext_some

omit [DecidableEq δ] [DecidableEq κ] in
theorem soundNext_afterTransfer (h : Sound w (.prompt p))
    (o : Outcome (Files (Option (δ × Bytes)) κ)) :
    SoundNext w (p.afterTransfer o) ↔ o ≠ .fault := by
  cases o with
  | loops => exact iff_of_true (by rintro s' ⟨⟩) (by rintro ⟨⟩)
  | fault => exact iff_of_false (fun h ↦ h .fault rfl) fun h ↦ h rfl
  | returns s printed => exact iff_of_true (soundNext_some.2 h) (by rintro ⟨⟩)

omit [DecidableEq δ] [DecidableEq κ] in
theorem soundNext_afterCat (h : Sound w (.prompt p)) {e : Env (Option (δ × Bytes)) κ}
    {args : List FileArg} (hlen : args.length ≤ argsSize) :
    SoundNext w (some (p.afterCat (customCat e p.files args))) ↔
      args.length < argsSize ∨ ∃ arg ∈ texts args, p.files.readable e arg = none := by
  have hnone := customCat_eq_none_iff e p.files hlen
  cases hc : customCat e p.files args with
  | none =>
    obtain ⟨heq, hread⟩ := hnone.1 hc
    refine iff_of_false (fun h ↦ h .fault rfl) ?_
    rintro (hlt | ⟨arg, harg, hbad⟩)
    · exact Nat.ne_of_lt hlt heq
    · have := hread arg harg
      rw [hbad] at this
      cases this
  | some r =>
    refine iff_of_true (soundNext_some.2 h) ?_
    by_contra hbad
    obtain ⟨hge, hread⟩ := not_or.1 hbad
    have : customCat e p.files args = none := by
      refine hnone.2 ⟨Nat.le_antisymm hlen (Nat.not_lt.1 hge), fun arg harg ↦ ?_⟩
      by_contra hne
      exact hread ⟨arg, harg, Option.not_isSome_iff_eq_none.1 hne⟩
    cases hc.symm.trans this

theorem sound_step_iff {x : Host δ} {s : ShellState δ κ} (h : Sound x.toWorld s) (i : Input δ κ) :
    SoundNext x.toWorld ((shell x).step s i) ↔ LineFits x s i := by
  match s with
  | .fault => exact absurd h id
  | .prompt p =>
    obtain ⟨q, hq⟩ := h
    have hsound : Sound x.toWorld (.prompt p) := ⟨q, hq⟩
    have htext := hq.text_eq
    have hdir := hq.accepted
    unfold LineFits
    dsimp only [shell]
    by_cases hfit : Fitting i.line.bytes
    · rw [if_pos hfit, and_iff_right hfit, Host.execute, htext]
      simp only [Option.some.injEq, forall_eq']
      cases i.line.command with
      | nothing => exact iff_of_true (soundNext_some.2 hsound) trivial
      | cat => exact soundNext_afterCat hsound i.line.length_words_le
      | cd => exact (soundNext_afterCd _).trans (customCd_sound_iff hq _ _)
      | cp => exact soundNext_afterTransfer hsound _
      | ls =>
        dsimp only
        rw [if_pos hdir]
        exact iff_of_true (soundNext_some.2 hsound) trivial
      | mv => exact soundNext_afterTransfer hsound _
      | exit => exact iff_of_true (by rintro s' ⟨⟩) trivial
      | unknown => exact iff_of_true (soundNext_some.2 hsound) trivial
    · rw [if_neg hfit]
      exact iff_of_false (fun h ↦ h .fault rfl) fun h ↦ hfit h.1

theorem step_cd {x : Host δ} {i : Input δ κ} {b : ℕ → UInt8} {printed : Option Message}
    (hfit : Fitting i.line.bytes) (hcmd : i.line.command = .cd)
    (hcd : customCd x.toWorld i.line.arg i.fuel p.directoryPath = .returns b printed) :
    (shell x).step (.prompt p) i = some (.prompt { p with directoryPath := b }) := by
  refine (if_pos hfit).trans ?_
  rw [Host.execute, hcmd]
  dsimp only
  rw [hcd]
  rfl

theorem lineFits_cd {x : Host δ} {i : Input δ κ} (hfit : Fitting i.line.bytes)
    (hcmd : i.line.command = .cd) : LineFits x (.prompt p) i ↔
      CdFits x.toWorld i.line.arg i.fuel p.directoryPath := by
  unfold LineFits
  dsimp only
  rw [hcmd]
  exact and_iff_right hfit

end Step

theorem text_startPath {w : World} {p : Bytes} (hp : w.cwd = some p) :
    text bufferSize w.startPath = some p := by
  rw [World.startPath, hp]
  exact text_laid (Nat.le_refl _) (w.cwd_text p hp) (w.cwd_lt p hp)

/-- **The directory path at each prompt.** If the shell is started in an absolute directory that
`opendir` accepts, the path is sound at every prompt of a run all of whose lines fit; and a line
that does not fit leads from a good prompt to a bad state. -/
theorem sound_of_fits (x : Host δ)
    (hstart : ∃ p, x.cwd = some p ∧ p.head? = some slash ∧ x.opendir p = true) :
    (∀ s : ShellState δ κ, (shell x).ReachableUnder (LineFits x) s → Sound x.toWorld s) ∧
    ∀ (s : ShellState δ κ) (i : Input δ κ), Sound x.toWorld s → ¬ LineFits x s i →
      ∃ s', (shell x).step s i = some s' ∧ ¬ Sound x.toWorld s' := by
  constructor
  · intro s hs
    refine Machine.ReachableUnder.invariant ?_ ?_ hs
    · rintro s ⟨entry, contents, rfl⟩
      obtain ⟨p, hp, habs, hdir⟩ := hstart
      refine ⟨p, ?_⟩
      rw [World.startPath, hp]
      exact usable_laid _ (x.cwd_lt p hp) (x.cwd_text p hp) habs hdir
    · intro s i s' _ hsound hfits hstep
      exact (sound_step_iff hsound i).2 hfits s' hstep
  · intro s i hsound hfits
    by_contra hnone
    refine hfits ((sound_step_iff hsound i).1 fun s' hstep ↦ ?_)
    by_contra hbad
    exact hnone ⟨s', hstep, hbad⟩

/-- The user `u` in the root directory, which is the only directory there is. -/
def rootHost : Host Unit where
  opendir p := decide (p = [slash])
  opendir_lt p hp := by
    rw [of_decide_eq_true hp]
    decide
  user := some [117]
  user_text := by
    rintro u ⟨⟩
    decide
  cwd := some [slash]
  cwd_text := by
    rintro p ⟨⟩
    decide
  cwd_lt := by
    rintro p ⟨⟩
    decide
  tree := ⟨(), fun _ _ ↦ none⟩
  start := ()
  cwd_eq := by
    rintro p ⟨⟩
    rfl

def Input.ofLine (line : Line) : Input δ κ where
  line := line
  init := fun _ ↦ 0
  fuel := 8
  access := ⟨fun _ ↦ true, fun _ ↦ true, fun _ ↦ true, fun _ ↦ true,
    fun _ ↦ ⟨fun _ ↦ bufferSize, fun _ ↦ bufferSize, bufferSize⟩⟩

/-- `cd` -/
def cdLine : Line := ⟨ascii "cd", by decide, by decide, fun _ ↦ 0⟩

/-- `cd /` -/
def cdRootLine : Line := ⟨ascii "cd /", by decide, by decide, fun _ ↦ 0⟩

def longLine : Line := ⟨ascii "a a a a a a a a a a a a a a a a a", by decide, by decide, fun _ ↦ 0⟩

/-- `rootHost` when it is started, with no files. -/
def rootProcess : Process Unit ℕ := ⟨(), rootHost.startPath, .start (fun _ ↦ none) fun _ ↦ []⟩

/-- In the root, `cd /` leads to a good prompt, and `cd` and a line of 17 words lead from there to
bad states. -/
theorem sound_of_fits_root : ∃ s : ShellState Unit ℕ,
    (shell rootHost).step (.prompt rootProcess) (.ofLine cdRootLine) = some s ∧
    Sound rootHost.toWorld s ∧
    (∃ s', (shell rootHost).step s (.ofLine cdLine) = some s' ∧ ¬ Sound rootHost.toWorld s') ∧
    ∃ s', (shell rootHost).step s (.ofLine longLine) = some s' ∧ ¬ Sound rootHost.toWorld s' := by
  obtain ⟨hrun, hbad⟩ := @sound_of_fits Unit ℕ _ _ rootHost ⟨[slash], rfl, rfl, rfl⟩
  have hroot : cdRootLine.command = .cd := by decide +kernel
  have hcd : cdLine.command = .cd := by decide +kernel
  have hslash : cdRootLine.arg.mem 0 = slash := by decide +kernel
  have htext : cdRootLine.arg.text = [slash] := by decide +kernel
  have hfits : LineFits rootHost (.prompt rootProcess) (.ofLine cdRootLine) :=
    (lineFits_cd (by decide) hroot).2 (cdFits_absolute hslash)
  have hstep : (shell rootHost).step (.prompt rootProcess) (.ofLine cdRootLine) = _ :=
    step_cd (by decide) hroot (customCd_absolute hslash (htext ▸ rfl) 8)
  have hsound := hrun _ (.step (.init ⟨_, _, rfl⟩) hfits hstep)
  refine ⟨_, hstep, hsound, hbad _ _ hsound fun h ↦ ?_, hbad _ _ hsound fun h ↦ ?_⟩
  · have hhome := (cdFits_home_iff (by decide +kernel)).1 ((lineFits_cd (by decide) hcd).1 h)
    exact absurd hhome (by decide)
  · exact absurd h.1 (by decide +kernel)

/-- From the root, `cd` without an argument leads to a prompt with the path `/home/u`, which is not
a directory. -/
theorem exists_prompt_not_directory : ∃ p : Process Unit ℕ, (shell rootHost).Reachable (.prompt p) ∧
    text bufferSize p.directoryPath = some (ascii "/home/u") ∧
    rootHost.opendir (ascii "/home/u") = false := by
  have hcd : cdLine.command = .cd := by decide +kernel
  have hhome : rootHost.home = ascii "/home/u" := by decide
  have hlt := length_home_lt rootHost.toWorld
  have hstep : (shell rootHost).step (.prompt rootProcess) (.ofLine cdLine) = _ :=
    step_cd (by decide) hcd (customCd_home (by decide +kernel) 8)
  refine ⟨_, .step (.init ⟨_, _, rfl⟩) hstep, ?_, by decide⟩
  exact (text_laid (Nat.le_refl _) (home_text _) hlt).trans (congrArg some hhome)

end OperatingSystems.Shell
