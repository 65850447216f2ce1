import OperatingSystems.Shell.Cat
import OperatingSystems.Shell.PathArray

/-!
# `cd` and the shell's directory path

The shell has its directory path in an array of `BUFFER_SIZE` bytes, and `custom_cd` edits it in
place. Without an argument it puts the user's home directory there, and does not ask `opendir`. An
absolute argument replaces the path if `opendir` accepts it. A relative one is worked out in the
array, and the old path is put back if it turns out not to be a directory.

At each prompt the array should have an absolute path that `opendir` accepts, with nothing but zeros
behind it. One call keeps this just when the home directory is accepted, for `cd` without argument,
and when the path fits into the array wherever it is edited, for a relative one.
-/

namespace OperatingSystems.Shell

open CArray

/-! ## The command -/

inductive Message where
  /-- The usage of `mv`, for both commands. -/
  | usage
  | notADirectory (arg : Bytes)
  /-- `Error in opening file(s).` -/
  | openingFiles

structure World where
  opendir : Bytes → Bool
  opendir_lt : ∀ p, opendir p = true → p.length < bufferSize
  /-- `getenv("USER")` -/
  user : Option Bytes
  user_text : ∀ u ∈ user, (0 : UInt8) ∉ u
  /-- `getcwd`, when the shell is started. -/
  cwd : Option Bytes
  cwd_text : ∀ p ∈ cwd, (0 : UInt8) ∉ p
  cwd_lt : ∀ p ∈ cwd, p.length < bufferSize

/-- What `snprintf` makes of `/home/%s`: the text as far as there is room for it. -/
def World.home (w : World) : Bytes :=
  (ascii "/home/" ++ w.user.getD (ascii "(null)")).take (bufferSize - 1)

inductive CdOutcome where
  | loops
  /-- A read or a write outside of the array. -/
  | fault
  | returns (directoryPath : ℕ → UInt8) (printed : Option Message)

def refill (directoryPath : ℕ → UInt8) (s : Bytes) (printed : Option Message) : CdOutcome :=
  match strcpy bufferSize (clear bufferSize directoryPath) s with
  | none => .fault
  | some b => .returns b printed

def customCd (w : World) (arg : Arg) (fuel : ℕ) (directoryPath : ℕ → UInt8) : CdOutcome :=
  if arg.mem 0 = 0 then refill directoryPath w.home none
  else if arg.mem 0 = slash then
    if w.opendir arg.text then refill directoryPath arg.text none
    else .returns directoryPath (some (.notADirectory arg.text))
  else
    match text bufferSize directoryPath, addSlashArray bufferSize directoryPath with
    | some oldPath, some b =>
      match resolveLoop cdAhead (arrayOps bufferSize) arg.mem fuel 0 b with
      | .loops => .loops
      | .fault => .fault
      | .notADirectory => refill directoryPath oldPath (some (.notADirectory arg.text))
      | .path b =>
        match text bufferSize b with
        | none => .fault
        | some p =>
          if w.opendir p then .returns b none
          else refill directoryPath oldPath (some (.notADirectory arg.text))
    | _, _ => .fault

/-! ## What should hold behind it -/

/-- The array has an absolute path that `opendir` accepts, and zeros behind it. -/
structure Usable (w : World) (b : ℕ → UInt8) (p : Bytes) : Prop where
  get : ∀ i < bufferSize, b i = p.getD i 0
  lt : p.length < bufferSize
  text : (0 : UInt8) ∉ p
  absolute : p.head? = some slash
  accepted : w.opendir p = true

/-- A call that leaves a sound path, if it comes back. -/
def CdOutcome.Sound (w : World) : CdOutcome → Prop
  | .loops => True
  | .fault => False
  | .returns b _ => ∃ p, Usable w b p

/-- The calls that do: without an argument, `opendir` accepts the home directory, and with a
relative one, the path fits into the array at each edit. -/
def CdFits (w : World) (arg : Arg) (fuel : ℕ) (b : ℕ → UInt8) : Prop :=
  if arg.mem 0 = 0 then w.opendir w.home = true
  else if arg.mem 0 = slash then True
  else ∀ p, CArray.text bufferSize b = some p →
    Fits bufferSize (addSlash p) (edits cdAhead arg.mem fuel 0).1 (edits cdAhead arg.mem fuel 0).2

/-! ## One command -/

section Call

variable {w : World} {b : ℕ → UInt8} {p : Bytes} {arg : Arg}

theorem Usable.eq_laid (h : Usable w b p) : b = laid bufferSize b p := by
  funext i
  rcases Nat.lt_or_ge i bufferSize with hi | hi
  · rw [laid_of_lt hi, h.get i hi]
  · rw [laid_of_le hi]

theorem Usable.text_eq (h : Usable w b p) : CArray.text bufferSize b = some p := by
  rw [h.eq_laid, text_laid (Nat.le_refl _) h.text h.lt]

theorem usable_laid (rest : ℕ → UInt8) (hlt : p.length < bufferSize) (htext : (0 : UInt8) ∉ p)
    (habs : p.head? = some slash) (hdir : w.opendir p = true) :
    Usable w (laid bufferSize rest p) p :=
  ⟨fun _ hi ↦ laid_of_lt hi, hlt, htext, habs, hdir⟩

theorem refill_eq {s : Bytes} (hs : s.length < bufferSize) (printed : Option Message) :
    refill b s printed = .returns (laid bufferSize b s) printed := by
  rw [refill, strcpy_clear hs]

theorem length_home_lt (w : World) : w.home.length < bufferSize := by
  have hlen := List.length_take_le (bufferSize - 1) (ascii "/home/" ++ w.user.getD (ascii "(null)"))
  exact Nat.lt_of_le_of_lt hlen (by decide)

theorem home_text (w : World) : (0 : UInt8) ∉ w.home := by
  intro h
  rcases List.mem_append.1 (List.mem_of_mem_take h) with h | h
  · exact absurd h (by decide)
  · cases hu : w.user with
    | none =>
      rw [hu] at h
      exact absurd h (by decide)
    | some u =>
      rw [hu] at h
      exact w.user_text u hu h

theorem head_home (w : World) : w.home.head? = some slash := rfl

theorem head_dropSlash (t : Bytes) : (dropSlash (slash :: t)).head? = some slash := by
  by_cases h : (slash :: t).length ≠ 1 ∧ (slash :: t).getLast? = some slash
  · rw [dropSlash, if_pos h]
    cases t with
    | nil => exact absurd rfl h.1
    | cons c t => rfl
  · rw [dropSlash, if_neg h]
    rfl

theorem customCd_relative (h : Usable w b p) (h₀ : arg.mem 0 ≠ 0) (hs : arg.mem 0 ≠ slash)
    (fuel : ℕ) : customCd w arg fuel b =
      match (arrayOps bufferSize).run (edits cdAhead arg.mem fuel 0).1
        (edits cdAhead arg.mem fuel 0).2 (laid bufferSize b (addSlash p)) with
      | .loops => .loops
      | .fault => .fault
      | .notADirectory =>
        .returns (laid bufferSize b p) (some (.notADirectory arg.text))
      | .path b' =>
        match CArray.text bufferSize b' with
        | none => .fault
        | some q =>
          if w.opendir q then .returns b' none
          else .returns (laid bufferSize b p) (some (.notADirectory arg.text)) := by
  have hne : p ≠ [] := by
    rintro rfl
    cases h.absolute
  have hslash : addSlashArray bufferSize b = some (laid bufferSize b (addSlash p)) := by
    have hadd : addSlashArray bufferSize (laid bufferSize b p) = _ :=
      addSlashArray_laid (Nat.le_refl bufferSize) h.text h.lt
    rwa [if_neg hne, ← h.eq_laid] at hadd
  rw [customCd, if_neg h₀, if_neg hs, h.text_eq, hslash]
  simp only [resolveLoop_eq_run, refill_eq h.lt]

theorem customCd_home (h₀ : arg.mem 0 = 0) (fuel : ℕ) :
    customCd w arg fuel b = .returns (laid bufferSize b w.home) none := by
  rw [customCd, if_pos h₀, refill_eq (length_home_lt w)]

theorem customCd_absolute (hs : arg.mem 0 = slash) (hdir : w.opendir arg.text = true) (fuel : ℕ) :
    customCd w arg fuel b = .returns (laid bufferSize b arg.text) none := by
  rw [customCd, if_neg (by rw [hs]; decide), if_pos hs, if_pos hdir,
    refill_eq (w.opendir_lt _ hdir)]

theorem sound_home_iff (h₀ : arg.mem 0 = 0) (fuel : ℕ) :
    (customCd w arg fuel b).Sound w ↔ w.opendir w.home = true := by
  rw [customCd_home h₀]
  constructor
  · rintro ⟨p, h⟩
    have htext : CArray.text bufferSize (laid bufferSize b w.home) = some w.home :=
      text_laid (Nat.le_refl _) (home_text w) (length_home_lt w)
    obtain rfl : w.home = p := Option.some.inj (htext.symm.trans h.text_eq)
    exact h.accepted
  · exact fun h ↦ ⟨_, usable_laid b (length_home_lt w) (home_text w) (head_home w) h⟩

theorem sound_absolute (h : Usable w b p) (hs : arg.mem 0 = slash) (fuel : ℕ) :
    (customCd w arg fuel b).Sound w := by
  by_cases hdir : w.opendir arg.text = true
  · rw [customCd_absolute hs hdir]
    exact ⟨_, usable_laid b (w.opendir_lt _ hdir) arg.text_ne_zero (Arg.head_text hs) hdir⟩
  · rw [customCd, if_neg (by rw [hs]; decide), if_pos hs, if_neg hdir]
    exact ⟨p, h⟩

theorem addSlash_abs (h : p.head? = some slash) : ∃ t, addSlash p = slash :: t := by
  obtain ⟨t, rfl⟩ := List.head?_eq_some_iff.1 h
  unfold addSlash
  split
  · exact ⟨t ++ [slash], rfl⟩
  · exact ⟨t, rfl⟩

theorem sound_relative_iff (h : Usable w b p) (h₀ : arg.mem 0 ≠ 0) (hs : arg.mem 0 ≠ slash)
    (fuel : ℕ) : (customCd w arg fuel b).Sound w ↔ Fits bufferSize (addSlash p)
      (edits cdAhead arg.mem fuel 0).1 (edits cdAhead arg.mem fuel 0).2 := by
  have hzero : Edit.push 0 ∉ (edits cdAhead arg.mem fuel 0).1 := push_zero_notMem_edits
  have hslash := addSlash_ne_zero h.text
  obtain ⟨t, ht⟩ := addSlash_abs h.absolute
  have hold : ∀ printed, (CdOutcome.returns (laid bufferSize b p) printed).Sound w :=
    fun _ ↦ ⟨p, usable_laid b h.lt h.text h.absolute h.accepted⟩
  rw [customCd_relative h h₀ hs]
  generalize (edits cdAhead arg.mem fuel 0).1 = es at hzero ⊢
  generalize (edits cdAhead arg.mem fuel 0).2 = ending
  constructor
  · intro hsound
    by_contra hfits
    rw [run_fault (Nat.le_refl _) (fun i hle hlt ↦ absurd hlt (Nat.not_lt.2 hle)) es hzero _
      hslash hfits] at hsound
    exact hsound
  · intro hfits
    rw [run_laid (Nat.le_refl _) es hzero _ hslash hfits, run_stringOps]
    cases ending with
    | loops => exact trivial
    | notADirectory => exact hold _
    | done =>
      have hlt := (hfits.dropSlash hzero hslash).1
      have hq₀ := (hfits.dropSlash hzero hslash).2
      have habs : (dropSlash (follow (addSlash p) es)).head? = some slash := by
        obtain ⟨t', ht'⟩ := follow_cons es t
        rw [ht, ht']
        exact head_dropSlash t'
      simp only [Resolved.map, text_laid (Nat.le_refl _) hq₀ hlt]
      split
      · next hdir => exact ⟨_, usable_laid b hlt hq₀ habs hdir⟩
      · exact hold _

theorem cdFits_home_iff {fuel : ℕ} (h₀ : arg.mem 0 = 0) :
    CdFits w arg fuel b ↔ w.opendir w.home = true := by
  rw [CdFits, if_pos h₀]

theorem cdFits_absolute {fuel : ℕ} (hs : arg.mem 0 = slash) : CdFits w arg fuel b := by
  rw [CdFits, if_neg (by rw [hs]; decide), if_pos hs]
  trivial

/-- **One call of `custom_cd`.** It leaves a sound path just when the path fits. -/
theorem customCd_sound_iff (h : Usable w b p) (arg : Arg) (fuel : ℕ) :
    (customCd w arg fuel b).Sound w ↔ CdFits w arg fuel b := by
  by_cases h₀ : arg.mem 0 = 0
  · rw [cdFits_home_iff h₀, sound_home_iff h₀]
  · by_cases hs : arg.mem 0 = slash
    · exact iff_of_true (sound_absolute h hs fuel) (cdFits_absolute hs)
    · rw [CdFits, if_neg h₀, if_neg hs, sound_relative_iff h h₀ hs]
      constructor
      · intro hfits q hq
        obtain rfl : p = q := Option.some.inj (h.text_eq.symm.trans hq)
        exact hfits
      · exact fun hfits ↦ hfits p h.text_eq

end Call

end OperatingSystems.Shell
