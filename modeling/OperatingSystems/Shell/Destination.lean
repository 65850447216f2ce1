import OperatingSystems.Shell.Cd

/-!
# The destination of `cp` and `mv`

`custom_cp` and `custom_mv` work out their destination in the array `temp_path`, which is not
cleared before. A relative destination is added to a copy of the directory path byte by byte, each
time in the place of the zero that ends it, and the byte behind that place is whatever the array
happened to hold.

So the destination does not depend on this as long as the path grows no longer than the directory
path: for each array whose bytes are not zero, anything longer runs out of the array. Since the
first thing to be added is a slash, it is only for a directory path with a slash at its end that a
relative destination comes out for certain.
-/

namespace OperatingSystems.Shell

open CArray

/-! ## The destination in the array -/

/-- The path in the array, which `opendir` is called with. -/
def Resolved.read : Resolved (ℕ → UInt8) → Resolved Bytes
  | .loops => .loops
  | .notADirectory => .notADirectory
  | .fault => .fault
  | .path b => (text bufferSize b).elim .fault .path

/-- The destination `arg` in an array with the contents `init`. -/
def destination (init : ℕ → UInt8) (directoryPath : Bytes) (arg : Arg) (fuel : ℕ) :
    Resolved Bytes :=
  if arg.mem 0 = slash then
    Resolved.read ((strcpy bufferSize init arg.text).elim .fault .path)
  else
    match (strcpy bufferSize init directoryPath).bind (addSlashArray bufferSize) with
    | none => .fault
    | some b => (resolveLoop cpAhead (arrayOps bufferSize) arg.mem fuel 0 b).read

def lastDestination (init : ℕ → UInt8) (directoryPath : Bytes) (args : List Arg) (fuel : ℕ) :
    Option (Resolved Bytes) :=
  match args.reverse with
  | last :: _ :: _ => some (destination init directoryPath last fuel)
  | _ => none

def cpTempPath (init : ℕ → UInt8) (directoryPath : Bytes) (args : List Arg) (fuel : ℕ) :
    Option (Resolved Bytes) := lastDestination init directoryPath args fuel

def mvTempPath (init : ℕ → UInt8) (directoryPath : Bytes) (args : List Arg) (fuel : ℕ) :
    Option (Resolved Bytes) := lastDestination init directoryPath args fuel

/-- The outcome is the same for all contents of the array, and the array is never left. -/
def Determined (outcome : (init : ℕ → UInt8) → (fuel : ℕ) → Option (Resolved Bytes)) : Prop :=
  ∀ init init' fuel, outcome init fuel = outcome init' fuel ∧ outcome init fuel ≠ some .fault

/-- The path that a relative destination leads to is never longer than the directory path, whenever
it is edited or looked at. -/
def GrowsNot (directoryPath : Bytes) (arg : Arg) : Prop :=
  directoryPath ≠ [] ∧ ∀ fuel, Fits (directoryPath.length + 1) (addSlash directoryPath)
    (edits cpAhead arg.mem fuel 0).1 (edits cpAhead arg.mem fuel 0).2

/-! ## What it depends on -/

section Destination

variable {directoryPath : Bytes} {arg : Arg}

theorem destination_absolute (init : ℕ → UInt8) (hs : arg.mem 0 = slash) (fuel : ℕ) :
    destination init directoryPath arg fuel = .path arg.text := by
  have hlt : arg.text.length < bufferSize := by
    rw [Arg.text, List.length_map, List.length_range]
    exact arg.lt.trans (by decide)
  rw [destination, if_pos hs, strcpy_eq hlt]
  simp only [Option.elim_some, Resolved.read, text_laid hlt arg.text_ne_zero (Nat.lt_succ_self _)]

theorem destination_relative (init : ℕ → UInt8) (hs : arg.mem 0 ≠ slash)
    (h₀ : (0 : UInt8) ∉ directoryPath) (hlt : directoryPath.length < bufferSize)
    (hne : directoryPath ≠ []) (fuel : ℕ) : destination init directoryPath arg fuel =
      ((arrayOps bufferSize).run (edits cpAhead arg.mem fuel 0).1 (edits cpAhead arg.mem fuel 0).2
        (laid (directoryPath.length + 1) init (addSlash directoryPath))).read := by
  rw [destination, if_neg hs, strcpy_eq hlt, Option.bind_some,
    addSlashArray_laid hlt h₀ (Nat.lt_succ_self _), if_neg hne, ← resolveLoop_eq_run]

theorem destination_nil (init : ℕ → UInt8) (hs : arg.mem 0 ≠ slash) (fuel : ℕ) :
    destination init [] arg fuel = .fault := by
  have hlt : ([] : Bytes).length < bufferSize := by decide
  rw [destination, if_neg hs, strcpy_eq hlt, Option.bind_some,
    addSlashArray_laid (by decide) List.not_mem_nil (by decide), if_pos rfl]

theorem read_run_laid {M : ℕ} (hM : M ≤ bufferSize) (init : ℕ → UInt8) {es : List Edit}
    (hes : Edit.push 0 ∉ es) {ending : Ending} {p : Bytes} (h₀ : (0 : UInt8) ∉ p)
    (hfits : Fits M p es ending) :
    ((arrayOps bufferSize).run es ending (laid M init p)).read = stringOps.run es ending p := by
  rw [run_laid hM es hes p h₀ hfits, run_stringOps]
  cases ending with
  | loops => rfl
  | notADirectory => rfl
  | done =>
    obtain ⟨hlt, htext⟩ := hfits.dropSlash hes h₀
    simp only [Resolved.map, Resolved.read, text_laid hM htext hlt, Option.elim_some]

theorem destination_determined_iff (h₀ : (0 : UInt8) ∉ directoryPath)
    (hlt : directoryPath.length < bufferSize) :
    Determined (fun init fuel ↦ some (destination init directoryPath arg fuel)) ↔
      (arg.mem 0 ≠ slash → GrowsNot directoryPath arg) := by
  have hzero : ∀ fuel, Edit.push 0 ∉ (edits cpAhead arg.mem fuel 0).1 :=
    fun _ ↦ push_zero_notMem_edits
  have hslash := addSlash_ne_zero h₀
  constructor
  · intro hdet hs
    have hfault : ∀ init fuel, destination init directoryPath arg fuel ≠ .fault :=
      fun init fuel heq ↦ (hdet init init fuel).2 (congrArg some heq)
    have hne : directoryPath ≠ [] := by
      rintro rfl
      exact hfault (fun _ ↦ 0) 0 (destination_nil _ hs 0)
    refine ⟨hne, fun fuel ↦ ?_⟩
    by_contra hfits
    -- an array without zeros
    have hone : ∀ i, directoryPath.length + 1 ≤ i → i < bufferSize → (1 : UInt8) ≠ 0 :=
      fun _ _ _ ↦ by decide
    refine hfault (fun _ ↦ 1) fuel ?_
    rw [destination_relative _ hs h₀ hlt hne, run_fault hlt hone _ (hzero fuel) _ hslash hfits]
    rfl
  · intro hgrows init init' fuel
    dsimp only
    by_cases hs : arg.mem 0 = slash
    · rw [destination_absolute _ hs, destination_absolute _ hs]
      exact ⟨rfl, fun h ↦ by cases h⟩
    · obtain ⟨hne, hfits⟩ := hgrows hs
      have hread : ∀ init, destination init directoryPath arg fuel = stringOps.run
          (edits cpAhead arg.mem fuel 0).1 (edits cpAhead arg.mem fuel 0).2
          (addSlash directoryPath) := by
        intro init
        rw [destination_relative _ hs h₀ hlt hne,
          read_run_laid hlt init (hzero fuel) hslash (hfits fuel)]
      rw [hread init, hread init', run_stringOps]
      refine ⟨rfl, fun h ↦ ?_⟩
      cases hend : (edits cpAhead arg.mem fuel 0).2 <;> rw [hend] at h <;> cases h

end Destination

/-- **The destination and the contents of `temp_path`.** The path that `cp` and `mv` work out is the
same for all contents of the array just when there are less than two arguments, or the destination
is absolute, or the path grows no longer than the directory path. -/
theorem tempPath_determined_iff (directoryPath : Bytes) (args : List Arg)
    (h₀ : (0 : UInt8) ∉ directoryPath) (hlt : directoryPath.length < bufferSize) :
    (Determined (fun init ↦ cpTempPath init directoryPath args) ↔
      ∀ last, 2 ≤ args.length → args.getLast? = some last → last.mem 0 ≠ slash →
        GrowsNot directoryPath last) ∧
    (Determined (fun init ↦ mvTempPath init directoryPath args) ↔
      ∀ last, 2 ≤ args.length → args.getLast? = some last → last.mem 0 ≠ slash →
        GrowsNot directoryPath last) := by
  have hlast : Determined (fun init ↦ lastDestination init directoryPath args) ↔
      ∀ last, 2 ≤ args.length → args.getLast? = some last → last.mem 0 ≠ slash →
        GrowsNot directoryPath last := by
    unfold lastDestination
    rw [← List.length_reverse, ← List.head?_reverse]
    match args.reverse with
    | [] =>
      refine iff_of_true (fun _ _ _ ↦ ⟨rfl, fun h ↦ by cases h⟩) ?_
      exact fun _ h ↦ absurd h (by decide)
    | [_] =>
      refine iff_of_true (fun _ _ _ ↦ ⟨rfl, fun h ↦ by cases h⟩) ?_
      exact fun _ h ↦ absurd h (Nat.not_succ_le_self 1)
    | last :: arg :: args =>
      refine (destination_determined_iff h₀ hlt).trans ⟨?_, ?_⟩
      · rintro h _ - ⟨⟩
        exact h
      · exact fun h ↦ h last (Nat.le_add_left _ _) rfl
  exact ⟨hlast, hlast⟩

/-- `x` -/
def argX : Arg := .ofText [120] (by decide) (by decide)

/-- `d` -/
def argD : Arg := .ofText [100] (by decide) (by decide)

/-- In the root, `cp x /d` has one destination, and `cp x d` has not. -/
theorem tempPath_determined_iff_root :
    Determined (fun init ↦ cpTempPath init [slash]
      [argX, .ofText [slash, 100] (by decide) (by decide)]) ∧
    ¬ Determined (fun init ↦ cpTempPath init [slash] [argX, argD]) := by
  constructor
  · refine (tempPath_determined_iff [slash] _ (by decide) (by decide)).1.2 ?_
    rintro last - ⟨⟩ h
    exact absurd rfl h
  · intro hdet
    have hgrows := (tempPath_determined_iff [slash] _ (by decide) (by decide)).1.1 hdet argD
      (by decide) rfl (by decide)
    exact absurd ((hgrows.2 2).2.2 rfl).1 (by decide)

/-- In `/a`, `cp x d` and `mv x d` go to `/a/d` if the array was cleared, and to `/a/zd` if the byte
at 3 was a `z`. -/
theorem destination_differs :
    cpTempPath (fun _ ↦ 0) [slash, 97] [argX, argD] 2 = some (.path [slash, 97, slash, 100]) ∧
    cpTempPath (fun i ↦ if i = 3 then 122 else 0) [slash, 97] [argX, argD] 2 =
      some (.path [slash, 97, slash, 122, 100]) ∧
    mvTempPath (fun _ ↦ 0) [slash, 97] [argX, argD] 2 = some (.path [slash, 97, slash, 100]) ∧
    mvTempPath (fun i ↦ if i = 3 then 122 else 0) [slash, 97] [argX, argD] 2 =
      some (.path [slash, 97, slash, 122, 100]) := by
  decide +kernel

end OperatingSystems.Shell
