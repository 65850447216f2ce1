import OperatingSystems.Shell.Destination

/-!
# `cp` and `mv`

Both commands take files and a destination directory. They work the path of the directory out in
`temp_path`, check it with `opendir`, and then go through the files from the last to the first: open
the file, open the file of the same name in the directory for writing, copy, close both, and, for
`mv`, remove the file.

There is no bound on the number of arguments nor on the length of `new_path`: with 15 arguments the
end of `args` is looked for behind the array, and a path and a name that are too long for
`BUFFER_SIZE` together are written behind `new_path`.
-/

namespace OperatingSystems.Shell

/-! ## The commands -/

variable {Λ κ : Type} [DecidableEq Λ] [DecidableEq κ]

open Files

/-- `new_path`: the file of the same name in the directory. -/
def newPath (tempPath arg : Bytes) : Bytes := tempPath ++ slash :: arg

/-- The part of the loop's body that the commands share: the files, and whether both could be
opened. There is no result if `new_path` is too long for its array. -/
def copyFile (e : Env Λ κ) (tempPath : Bytes) (index : ℕ) (arg : Bytes) (s : Files Λ κ) :
    Option (Files Λ κ × Bool) :=
  let (file, s) := s.fopenRead e arg
  if (newPath tempPath arg).length < bufferSize then
    match s.fopenWrite e (newPath tempPath arg), file with
    | (some new, s), some file => some (copy (e.stream index) file new s, true)
    | (_, s), _ => some (s, false)
  else none

/-- The loop over the files, from the last to the first. The list has the files still to come, so
the index of its head is the length of its tail; `finish` is what is done with a file once it is
copied. -/
def copyAll (e : Env Λ κ) (finish : Bytes → Files Λ κ → Files Λ κ) (tempPath : Bytes) :
    List Bytes → Files Λ κ → Option (Files Λ κ × Bool)
  | [], s => some (s, true)
  | arg :: args, s =>
    (copyFile e tempPath args.length arg s).bind fun r ↦
      if r.2 then copyAll e finish tempPath args (finish arg r.1) else some r

inductive Outcome (σ : Type) where
  | loops
  /-- A read or a write outside of an array. -/
  | fault
  | returns (s : σ) (printed : Option Message)

def sources (args : List FileArg) : List Bytes := texts args.dropLast

/-- A command behind its destination, which is missing if there are less than two arguments. -/
def transfer (e : Env Λ κ) (finish : Bytes → Files Λ κ → Files Λ κ)
    (tempPath : Option (Resolved Bytes)) (args : List FileArg) (s : Files Λ κ) :
    Outcome (Files Λ κ) :=
  let notADirectory := Message.notADirectory ((texts args).getLast?.getD [])
  if args.length < argsSize then
    match tempPath with
    | none => .returns s (some .usage)
    | some .loops => .loops
    | some .fault => .fault
    | some .notADirectory => .returns s (some notADirectory)
    | some (.path p) =>
      if e.isDir p then
        (copyAll e finish p (sources args).reverse s).elim .fault fun r ↦
          .returns r.1 (if r.2 then none else some .openingFiles)
      else .returns s (some notADirectory)
  else .fault

/-- `custom_cp`, with `init` in `temp_path` and with `fuel` rounds for the loop that works it
out. -/
def customCp (e : Env Λ κ) (init : ℕ → UInt8) (fuel : ℕ) (args : List FileArg)
    (directoryPath : Bytes) (s : Files Λ κ) : Outcome (Files Λ κ) :=
  transfer e (fun _ s ↦ s) (cpTempPath init directoryPath (args.map (·.toArg)) fuel) args s

def customMv (e : Env Λ κ) (init : ℕ → UInt8) (fuel : ℕ) (args : List FileArg)
    (directoryPath : Bytes) (s : Files Λ κ) : Outcome (Files Λ κ) :=
  transfer e (fun arg s ↦ s.remove e arg)
    (mvTempPath init directoryPath (args.map (·.toArg)) fuel) args s

theorem customCp_eq {init : ℕ → UInt8} {fuel : ℕ} {args : List FileArg} {directoryPath : Bytes}
    {t : Option (Resolved Bytes)} (e : Env Λ κ) (s : Files Λ κ)
    (h : cpTempPath init directoryPath (args.map (·.toArg)) fuel = t) :
    customCp e init fuel args directoryPath s = transfer e (fun _ s ↦ s) t args s := h ▸ rfl

theorem customMv_eq {init : ℕ → UInt8} {fuel : ℕ} {args : List FileArg} {directoryPath : Bytes}
    {t : Option (Resolved Bytes)} (e : Env Λ κ) (s : Files Λ κ)
    (h : mvTempPath init directoryPath (args.map (·.toArg)) fuel = t) :
    customMv e init fuel args directoryPath s =
      transfer e (fun arg s ↦ s.remove e arg) t args s := h ▸ rfl

/-! ## One round -/

variable {e : Env Λ κ} {tempPath arg : Bytes} {index : ℕ} {s : Files Λ κ}

/-- What a round leaves: the file in the directory could not be opened, or it now is empty or has
the copy. -/
inductive Round (e : Env Λ κ) (tempPath : Bytes) (index : ℕ) (arg : Bytes) (s : Files Λ κ) :
    Files Λ κ × Bool → Prop where
  | unopened {c c'} : s.writable e (newPath tempPath arg) = none →
      Round e tempPath index arg s ((s.call c).call c', false)
  | missing {f s'} : s.readable e arg = none →
      (s.writable e (newPath tempPath arg)).isSome →
      Overwritten e s (newPath tempPath arg) f [] s' → Round e tempPath index arg s (s', false)
  | same {f s'} : s.readable e arg = some f →
      (s.writable e (newPath tempPath arg)).isSome →
      Overwritten e s (newPath tempPath arg) f [] s' → Round e tempPath index arg s (s', true)
  | copied {file f s'} : s.readable e arg = some file → file ≠ f →
      (s.writable e (newPath tempPath arg)).isSome →
      Overwritten e s (newPath tempPath arg) f ((e.stream index).delivered (s.contents file)) s' →
      Round e tempPath index arg s (s', true)

theorem round_copyFile (index : ℕ) (s : Files Λ κ)
    (h : (newPath tempPath arg).length < bufferSize) :
    ∃ r, copyFile e tempPath index arg s = some r ∧ Round e tempPath index arg s r := by
  have hcopy : copyFile e tempPath index arg s =
      match (s.call (.read arg (e.locate arg))).fopenWrite e (newPath tempPath arg),
        s.readable e arg with
      | (some new, s), some file => some (copy (e.stream index) file new s, true)
      | (_, s), _ => some (s, false) := if_pos h
  rw [hcopy]
  cases hw : s.writable e (newPath tempPath arg) with
  | none =>
    rw [fopenWrite_none (s := s.call _) hw]
    exact ⟨_, rfl, .unopened hw⟩
  | some f =>
    have hsome : (s.writable e (newPath tempPath arg)).isSome := by rw [hw]; rfl
    obtain ⟨s', hs', ho⟩ := overwritten_of_writable (s := s.call (.read arg (e.locate arg))) hw
    replace ho := ho.of_call
    rw [hs']
    cases hr : s.readable e arg with
    | none => exact ⟨_, rfl, .missing hr hsome ho⟩
    | some file =>
      by_cases hne : file = f
      · -- the file has just been truncated: there is nothing to copy
        subst hne
        refine ⟨_, rfl, .same hr hsome ?_⟩
        rw [copy_of_empty _ ho.contents_self]
        exact ho.setContents []
      · exact ⟨_, rfl, .copied hr hne hsome (ho.copy hne _)⟩

/-! ## The whole call -/

theorem transfer_of_isDir (finish : Bytes → Files Λ κ → Files Λ κ) {args : List FileArg} {p : Bytes}
    (s : Files Λ κ) (hlen : args.length < argsSize) (hdir : e.isDir p = true) :
    transfer e finish (some (.path p)) args s =
      (copyAll e finish p (sources args).reverse s).elim .fault fun r ↦
        .returns r.1 (if r.2 then none else some .openingFiles) := by
  rw [transfer, if_pos hlen]
  exact if_pos hdir

end OperatingSystems.Shell
