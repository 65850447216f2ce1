import OperatingSystems.Fs.State
import OperatingSystems.Lib.Result

/-!
# Redirections in the shell of xv6

`parseredirs` wraps every redirection around what has been parsed so far, so that the last one
written is the outermost node, and `runcmd` opens the file of a node before it goes on with the
command inside. The files are opened from the last redirection to the first, and a descriptor that
is redirected twice is left with the file that was written first.
-/

namespace OperatingSystems.Sh

open Function

/-- What a `REDIR` node says. The name is the text between `file` and `efile`. -/
structure Redirection where
  file : Bytes
  mode : BitVec 32
  fd : ℕ
  deriving DecidableEq

inductive Cmd
  | exec (argv : List Bytes)
  | redir (cmd : Cmd) (r : Redirection)
  | pipe (left right : Cmd)
  | list (left right : Cmd)
  | back (cmd : Cmd)
  deriving DecidableEq

inductive ParsePanic
  | missingFile
  | parseblock
  | missingParen
  | badToken
  | tooManyArgs
  deriving DecidableEq

abbrev Parse := Except ParsePanic (Cmd × Bytes)

/-! ## Tokens

A command line is given by its bytes from `*ps` up to the zero at `es`. -/

def whitespace : Bytes := [32, 9, 13, 10, 11]

/-- `"<|>&;()"` -/
def symbols : Bytes := [60, 124, 62, 38, 59, 40, 41]

def skip (s : Bytes) : Bytes := s.dropWhile (· ∈ whitespace)

def inWord (c : UInt8) : Bool := c ∉ whitespace ∧ c ∉ symbols

/-- The kind of the next token, its text, and the line behind it. A word is `'a'`, `>>` is `'+'` and
the end of the line is `0`; the others stand for themselves. -/
def gettoken (s : Bytes) : UInt8 × Bytes × Bytes :=
  match skip s with
  | [] => (0, [], [])
  | c :: s =>
    if c = 62 ∧ s.head? = some 62 then (43, [62, 62], skip s.tail)
    else if c ∈ symbols then (c, [c], skip s)
    else (97, (c :: s).takeWhile inWord, skip ((c :: s).dropWhile inWord))

/-- Whether the next token starts with one of `toks`. That `*ps` is moved over white space is left
to the next call. -/
def peek (toks s : Bytes) : Bool := (skip s).head?.any (· ∈ toks)

theorem length_skip_le (s : Bytes) : (skip s).length ≤ s.length :=
  (List.dropWhile_sublist _).length_le

theorem length_gettoken (s : Bytes) : (gettoken s).2.2.length ≤ s.length ∧
    ((gettoken s).1 = 97 → (gettoken s).2.2.length < s.length) := by
  have hs := length_skip_le s
  rw [gettoken]
  split
  · exact ⟨Nat.zero_le _, fun h ↦ absurd h (by decide)⟩
  · next c t hc =>
    rw [hc] at hs
    have hlt : (skip t).length < s.length := (length_skip_le t).trans_lt hs
    split_ifs with hgt hsym
    · have htail := (length_skip_le t.tail).trans ((List.tail_sublist t).length_le)
      exact ⟨(htail.trans_lt hs).le, fun h ↦ absurd (show (43 : UInt8) = 97 from h) (by decide)⟩
    · exact ⟨hlt.le, fun _ ↦ hlt⟩
    · have hword : inWord c = true := by
        have hblank := List.head?_dropWhile_not (· ∈ whitespace) s
        rw [← skip, hc] at hblank
        simpa [inWord, hsym] using hblank
      have hrest : ((c :: t).dropWhile inWord).length ≤ t.length := by
        rw [List.dropWhile_cons, if_pos hword]
        exact (List.dropWhile_sublist _).length_le
      have hlt := ((length_skip_le _).trans hrest).trans_lt hs
      exact ⟨hlt.le, fun _ ↦ hlt⟩

/-! ## The parser -/

/-- `redircmd` with the mode and the descriptor for `'<'`, `'>'` and `'+'`. -/
def redirection (tok : UInt8) (file : Bytes) : Redirection :=
  if tok = 60 then ⟨file, 0, 0⟩ else ⟨file, 0x201, 1⟩

def parseredirs (cmd : Cmd) (s : Bytes) : Parse :=
  if peek [60, 62] s then
    if (gettoken (gettoken s).2.2).1 = 97 then
      parseredirs (.redir cmd (redirection (gettoken s).1 (gettoken (gettoken s).2.2).2.1))
        (gettoken (gettoken s).2.2).2.2
    else .error .missingFile
  else .ok (cmd, s)
termination_by s.length
decreasing_by exact ((length_gettoken _).2 ‹_›).trans_le (length_gettoken s).1

/-- An argument is stored in the `EXEC` node, which the redirections parsed so far surround. -/
def Cmd.addArg (word : Bytes) : Cmd → Cmd
  | .exec argv => .exec (argv ++ [word])
  | .redir cmd r => .redir (cmd.addArg word) r
  | cmd => cmd

def maxArgs : ℕ := 10

/-- The loop of `parseexec` when `k` more arguments fit. -/
def argLoop : ℕ → Cmd → Bytes → Parse
  | k, ret, s =>
    if peek [124, 41, 38, 59] s ∨ (gettoken s).1 = 0 then .ok (ret, s)
    else if (gettoken s).1 ≠ 97 then .error .badToken
    else
      match k with
      | 0 => .error .tooManyArgs
      | k + 1 => do
        let (ret, s) ← parseredirs (ret.addArg (gettoken s).2.1) (gettoken s).2.2
        argLoop k ret s

variable (parseline : Bytes → Parse)

def parseblock (s : Bytes) : Parse :=
  if ¬peek [40] s then .error .parseblock
  else do
    let (cmd, s) ← parseline (gettoken s).2.2
    if ¬peek [41] s then .error .missingParen
    else parseredirs cmd (gettoken s).2.2

def parseexec (s : Bytes) : Parse :=
  if peek [40] s then parseblock parseline s
  else do
    let (ret, s) ← parseredirs (.exec []) s
    argLoop (maxArgs - 1) ret s

/-! ## What is written -/

/-- Line `s` starts with the redirections `rs`, in this order, and with words between them if
`words` says so. They end at `t`. -/
inductive Written (words : Bool) : Bytes → List Redirection → Bytes → Prop
  | done {s : Bytes} (hredir : ¬peek [60, 62] s) (hword : words → (gettoken s).1 ≠ 97) :
      Written words s [] s
  | word {s t : Bytes} {rs : List Redirection} (hwords : words) (hword : (gettoken s).1 = 97)
      (rest : Written words (gettoken s).2.2 rs t) : Written words s rs t
  | redir {s t : Bytes} {rs : List Redirection} (hredir : peek [60, 62] s)
      (hfile : (gettoken (gettoken s).2.2).1 = 97)
      (rest : Written words (gettoken (gettoken s).2.2).2.2 rs t) :
      Written words s (redirection (gettoken s).1 (gettoken (gettoken s).2.2).2.1 :: rs) t

/-- The command at the start of `s`: a simple command, or a block with the line `body` in it. -/
inductive Redirected (s : Bytes) (body : Cmd) (rs : List Redirection) (t : Bytes) : Prop
  | simple (argv : List Bytes) (hblock : ¬peek [40] s) (hbody : body = .exec argv)
      (written : Written true s rs t)
  | block (u : Bytes) (hblock : peek [40] s) (hbody : parseline (gettoken s).2.2 = .ok (body, u))
      (hclose : peek [41] u) (written : Written false (gettoken u).2.2 rs t)

variable {parseline} {cmd ret body : Cmd} {s t : Bytes} {rs : List Redirection}

theorem Written.fd {words : Bool} (h : Written words s rs t) : ∀ r ∈ rs, r.fd = 0 ∨ r.fd = 1 := by
  induction h with
  | done => exact fun r hr ↦ absurd hr List.not_mem_nil
  | word _ _ _ ih => exact ih
  | redir _ _ _ ih =>
    refine List.forall_mem_cons.mpr ⟨?_, ih⟩
    rw [redirection]
    split_ifs
    · exact .inl rfl
    · exact .inr rfl

theorem parseredirs_eq_ok (h : parseredirs ret s = .ok (cmd, t)) : ∃ rs,
    cmd = rs.foldl .redir ret ∧ ¬peek [60, 62] t ∧
      ∀ {b rs' u}, Written b t rs' u → Written b s (rs ++ rs') u := by
  fun_induction parseredirs ret s with
  | case1 ret s hpeek hfile ih =>
    obtain ⟨rs, hcmd, hend, hrest⟩ := ih h
    exact ⟨_ :: rs, hcmd, hend, fun h ↦ .redir hpeek hfile (hrest h)⟩
  | case2 => cases h
  | case3 ret s hpeek =>
    cases h
    exact ⟨[], rfl, hpeek, id⟩

theorem kind_ne_word_of_peek {toks : Bytes} (htoks : toks ⊆ symbols) (h : peek toks s) :
    (gettoken s).1 ≠ 97 := by
  rw [peek] at h
  rw [gettoken]
  split
  · next hs =>
    rw [hs] at h
    cases h
  · next c u hs =>
    have hc : c ∈ symbols := htoks (by simpa [hs] using h)
    split_ifs
    · exact (by decide : (43 : UInt8) ≠ 97)
    · rintro rfl
      exact absurd hc (by decide)

theorem addArg_foldl (word : Bytes) (rs : List Redirection) (cmd : Cmd) :
    (rs.foldl .redir cmd).addArg word = rs.foldl .redir (cmd.addArg word) := by
  induction rs generalizing cmd with
  | nil => rfl
  | cons r rs ih => exact ih _

theorem argLoop_eq_ok {k : ℕ} {argv : List Bytes} (hret : ret = rs.foldl .redir (.exec argv))
    (hs : ¬peek [60, 62] s) (h : argLoop k ret s = .ok (cmd, t)) : ∃ argv' rs',
      cmd = (rs ++ rs').foldl .redir (.exec argv') ∧ Written true s rs' t := by
  fun_induction argLoop k ret s generalizing rs argv with
  | case1 k ret s hend =>
    cases h
    refine ⟨argv, [], by rw [List.append_nil, hret], .done hs fun _ ↦ ?_⟩
    rcases hend with hend | hend
    · exact kind_ne_word_of_peek (by simp [symbols]) hend
    · rw [hend]
      decide
  | case2 => cases h
  | case3 => cases h
  | case4 ret s hend hword k ih =>
    obtain ⟨⟨ret₁, s₁⟩, hparse, h⟩ := bind_eq_ok_iff.mp h
    obtain ⟨rs₁, hret₁, hs₁, hwritten⟩ := parseredirs_eq_ok hparse
    rw [hret, addArg_foldl, ← List.foldl_append] at hret₁
    obtain ⟨argv', rs', hcmd, hrest⟩ := ih _ _ hret₁ hs₁ h
    exact ⟨argv', rs₁ ++ rs', by rw [hcmd, List.append_assoc], .word rfl (not_not.mp hword)
      (hwritten hrest)⟩

theorem parseexec_eq_ok (h : parseexec parseline s = .ok (cmd, t)) : ∃ body rs,
    cmd = rs.foldl .redir body ∧ Redirected parseline s body rs t := by
  rw [parseexec] at h
  split_ifs at h with hblock
  · rw [parseblock, if_neg (not_not.mpr hblock)] at h
    obtain ⟨⟨body, u⟩, hbody, h⟩ := bind_eq_ok_iff.mp h
    obtain ⟨hclose, h⟩ := ite_error_eq_ok_iff.mp (show _ = _ from h)
    obtain ⟨rs, hcmd, hend, hwritten⟩ := parseredirs_eq_ok h
    refine ⟨body, rs, hcmd, .block u hblock hbody (not_not.mp hclose) ?_⟩
    rw [← List.append_nil rs]
    exact hwritten (.done hend fun hwords ↦ by cases hwords)
  · obtain ⟨⟨ret, s₁⟩, hparse, h⟩ := bind_eq_ok_iff.mp h
    obtain ⟨rs, hret, hs₁, hwritten⟩ := parseredirs_eq_ok hparse
    obtain ⟨argv, rs', hcmd, hrest⟩ := argLoop_eq_ok hret hs₁ h
    exact ⟨_, _, hcmd, .simple argv hblock rfl (hwritten hrest)⟩

/-! ## Running a command -/

/-- The descriptors of the process, its calls of `open` with what they returned, and the rest of the
system. -/
structure Proc (φ σ : Type*) where
  ofile : ℕ → Option φ
  opens : List (Redirection × Option φ)
  sys : σ

variable {φ σ : Type*} (sysopen : Bytes → BitVec 32 → σ → Option φ × σ)

def fdalloc (ofile : ℕ → Option φ) : Option ℕ :=
  (List.range nofile).find? fun fd ↦ (ofile fd).isNone

/-- `close(fd)` and `open(file, mode)`. -/
def Proc.reopen (p : Proc φ σ) (r : Redirection) : Option ℕ × Proc φ σ :=
  let ofile := update p.ofile r.fd none
  match sysopen r.file r.mode p.sys, fdalloc ofile with
  | (some f, sys), some fd =>
    (some fd, ⟨update ofile fd (some f), p.opens ++ [(r, some f)], sys⟩)
  | (_, sys), _ => (none, ⟨ofile, p.opens ++ [(r, none)], sys⟩)

/-- `runcmd` as far as the first node that is not a `REDIR`, or until a file cannot be opened. -/
def runcmd : Cmd → Proc φ σ → Except (Proc φ σ) (Cmd × Proc φ σ)
  | .redir cmd r, p =>
    match p.reopen sysopen r with
    | (none, p) => .error p
    | (some _, p) => runcmd cmd p
  | cmd, p => .ok (cmd, p)

/-- What `runcmd` makes of the redirections `rs` around `body`: the last of them come first. It ends
early only at a file `r` that `open` could not open, with those behind `r` opened before. -/
inductive Performed (rs : List Redirection) (body cmd : Cmd) (p : Proc φ σ) : Prop
  | failed (p' : Proc φ σ) (before : List Redirection) (r : Redirection)
      (files : List (Redirection × φ)) (hfiles : before ++ r :: files.map Prod.fst = rs)
      (hrun : runcmd sysopen cmd p = .error p')
      (hopens : p'.opens = p.opens ++ (files.map (Prod.map id some)).reverse ++ [(r, none)])
      (hnone : ∃ sys, (sysopen r.file r.mode sys).1 = none)
  | done (p' : Proc φ σ) (files : List (Redirection × φ)) (hfiles : files.map Prod.fst = rs)
      (hrun : runcmd sysopen cmd p = runcmd sysopen body p')
      (hopens : p'.opens = p.opens ++ (files.map (Prod.map id some)).reverse)
      (hofile : ∀ d, p'.ofile d = (files.find? (·.1.fd = d)).elim (p.ofile d) (some ·.2))

variable {p : Proc φ σ} {r : Redirection}

theorem reopen_cases (h₀ : (p.ofile 0).isSome) (hr : r.fd = 0 ∨ r.fd = 1) :
    (∃ p', p.reopen sysopen r = (none, p') ∧ p'.opens = p.opens ++ [(r, none)] ∧
      (sysopen r.file r.mode p.sys).1 = none) ∨
    ∃ f sys, p.reopen sysopen r
      = (some r.fd, ⟨update p.ofile r.fd (some f), p.opens ++ [(r, some f)], sys⟩) := by
  have hfd : fdalloc (update p.ofile r.fd none) = some r.fd := by
    rw [fdalloc, show List.range nofile = 0 :: 1 :: (List.range nofile).drop 2 from rfl]
    rcases hr with hr | hr <;> simp [hr, h₀]
  rw [Proc.reopen, hfd]
  cases hopen : sysopen r.file r.mode p.sys with
  | mk o sys =>
    cases o with
    | none => exact .inl ⟨_, rfl, rfl, rfl⟩
    | some f =>
      refine .inr ⟨f, sys, ?_⟩
      dsimp only
      rw [update_idem]

variable {sysopen}

theorem performed_foldl (hfd : ∀ r ∈ rs, r.fd = 0 ∨ r.fd = 1) (h₀ : (p.ofile 0).isSome) :
    Performed sysopen rs body (rs.foldl .redir body) p := by
  -- from the last redirection, whose node is the outermost
  induction rs using List.reverseRecOn generalizing p with
  | nil => exact .done p [] rfl rfl (List.append_nil _).symm fun _ ↦ rfl
  | append_singleton rs r ih =>
    have hcmd : (rs ++ [r]).foldl .redir body = .redir (rs.foldl .redir body) r := by
      rw [List.foldl_append]
      rfl
    rw [hcmd]
    rcases reopen_cases sysopen h₀ (hfd r (by simp)) with ⟨p', hopen, hopens, hnone⟩ |
      ⟨f, sys, hopen⟩
    · refine .failed p' rs r [] rfl (by rw [runcmd, hopen]) ?_ ⟨_, hnone⟩
      rw [hopens, List.map_nil, List.reverse_nil, List.append_nil]
    · set p₁ : Proc φ σ := ⟨update p.ofile r.fd (some f), p.opens ++ [(r, some f)], sys⟩
      have hrun : runcmd sysopen (.redir (rs.foldl .redir body) r) p
          = runcmd sysopen (rs.foldl .redir body) p₁ := by rw [runcmd, hopen]
      have hsome : (p₁.ofile 0).isSome := by
        change (update p.ofile r.fd (some f) 0).isSome
        rw [update_apply]
        split_ifs
        · rfl
        · exact h₀
      have hfd' : ∀ r ∈ rs, r.fd = 0 ∨ r.fd = 1 := fun r hr ↦ hfd r (List.mem_append_left _ hr)
      cases ih hfd' hsome with
      | failed p' before r' files hfiles hrest hopens hnone =>
        refine .failed p' before r' (files ++ [(r, f)]) ?_ (hrun.trans hrest) ?_ hnone
        · rw [← hfiles, List.map_append, List.append_assoc]
          rfl
        · rw [hopens, List.map_append, List.reverse_append, List.append_assoc p.opens]
          rfl
      | done p' files hfiles hrest hopens hofile =>
        refine .done p' (files ++ [(r, f)]) (by rw [List.map_append, hfiles]; rfl)
          (hrun.trans hrest) ?_ fun d ↦ ?_
        · rw [hopens, List.map_append, List.reverse_append, List.append_assoc]
          rfl
        · rw [hofile, List.find?_append]
          cases files.find? (·.1.fd = d) with
          | some x => rfl
          | none =>
            rw [Option.none_or, List.find?_singleton]
            by_cases hd : d = r.fd
            · rw [hd, if_pos (decide_eq_true rfl)]
              exact update_self ..
            · rw [if_neg (by simpa using Ne.symm hd)]
              exact update_of_ne hd ..

/-- **Redirections take effect from right to left.** Let the parser accept a simple command or a
block with the redirections `rs`, written in this order. If descriptor 0 is open, `runcmd` opens the
files from the last of `rs` to the first, and it stops early only at one that cannot be opened. When
all can be opened, it runs the command with descriptors of which 0 is the file of the first `<` and
1 the file of the first `>` or `>>`. -/
theorem performed_of_parseexec (h : parseexec parseline s = .ok (cmd, t)) : ∃ body rs,
    Redirected parseline s body rs t ∧
      ∀ (φ σ : Type) (sysopen : Bytes → BitVec 32 → σ → Option φ × σ)
      (p : Proc φ σ), (p.ofile 0).isSome → Performed sysopen rs body cmd p := by
  obtain ⟨body, rs, rfl, hr⟩ := parseexec_eq_ok h
  refine ⟨body, rs, hr, fun φ σ sysopen p h₀ ↦ performed_foldl ?_ h₀⟩
  cases hr with
  | simple argv _ _ hw => exact hw.fd
  | block u _ _ _ hw => exact hw.fd

/-- The line `c <a <b`. -/
def twoInputs : Bytes := [99, 32, 60, 97, 32, 60, 98]

theorem parseexec_twoInputs : parseexec (fun _ ↦ .error .badToken) twoInputs
    = .ok (.redir (.redir (.exec [[99]]) ⟨[97], 0, 0⟩) ⟨[98], 0, 0⟩, []) := by
  with_unfolding_all rfl

def openAll (file : Bytes) (_ : BitVec 32) (sys : Unit) : Option Bytes × Unit := (some file, sys)

/-- For `c <a <b`, with every file there: both are opened, `b` before `a`. -/
theorem performed_of_parseexec_twoInputs : ∃ (body : Cmd) (rs : List Redirection)
    (p' : Proc Bytes Unit) (files : List (Redirection × Bytes)),
    Redirected (fun _ ↦ .error .badToken) twoInputs body rs [] ∧ files.map Prod.fst = rs ∧
    runcmd openAll (.redir (.redir (.exec [[99]]) ⟨[97], 0, 0⟩) ⟨[98], 0, 0⟩)
      ⟨fun _ ↦ some [], [], ()⟩ = runcmd openAll body p' ∧
    p'.opens = (files.map (Prod.map id some)).reverse := by
  obtain ⟨body, rs, hr, hperformed⟩ := performed_of_parseexec parseexec_twoInputs
  cases hperformed Bytes Unit openAll ⟨fun _ ↦ some [], [], ()⟩ rfl with
  | failed _ _ _ _ _ _ _ hnone =>
    obtain ⟨sys, hnone⟩ := hnone
    cases hnone
  | done p' files hfiles hrun hopens _ => exact ⟨body, rs, p', files, hr, hfiles, hrun, hopens⟩

/-- `c <a <b` opens `b` before `a`, and `c` reads from `a`. -/
theorem twoInputs_reads_first : ∃ cmd p', parseexec (fun _ ↦ .error .badToken) twoInputs
      = .ok (cmd, []) ∧
    runcmd openAll cmd ⟨fun _ ↦ some [], [], ()⟩ = .ok (.exec [[99]], p') ∧
    p'.opens.map (·.1.file) = [[98], [97]] ∧ p'.ofile 0 = some [97] :=
  ⟨_, _, parseexec_twoInputs, rfl, rfl, rfl⟩

end OperatingSystems.Sh
