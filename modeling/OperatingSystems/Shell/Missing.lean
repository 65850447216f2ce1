import OperatingSystems.Shell.Keeps

/-!
# Sources that cannot be opened

A round of `custom_cp` and `custom_mv` opens the source for reading, opens the destination for
writing, and only then looks at the results. When the source cannot be opened, the second `fopen`
has already truncated the destination, or created it. So the destination is as it was before the
round just when it could not be opened either or was an empty file.
-/

namespace OperatingSystems.Shell

open Files

variable {Λ κ : Type} [DecidableEq Λ] [DecidableEq κ] {e : Env Λ κ} {s s₁ : Files Λ κ} {bad : Bytes}

/-- What `path` names is the same file as before, with the same contents, or still nothing. -/
def Untouched (e : Env Λ κ) (s s' : Files Λ κ) (path : Bytes) : Prop :=
  s'.entry (e.locate path) = s.entry (e.locate path) ∧
    ∀ f, s.entry (e.locate path) = some f → s'.contents f = s.contents f

/-- There is nothing that opening `path` for writing could change: it fails, or finds an empty
file. -/
def Spared (e : Env Λ κ) (s : Files Λ κ) (path : Bytes) : Prop :=
  s.writable e path = none ∨ ∃ f, s.entry (e.locate path) = some f ∧ s.contents f = []

/-- The loop over the files gets to the source `bad`, which cannot be opened for reading, with the
files `s₁`, and `new_path` fits into its array up to this round. -/
inductive Fails (e : Env Λ κ) (finish : Bytes → Files Λ κ → Files Λ κ) (tempPath : Bytes)
    (bad : Bytes) (s₁ : Files Λ κ) : List Bytes → Files Λ κ → Prop where
  | here {args} : s₁.readable e bad = none → (newPath tempPath bad).length < bufferSize →
      Fails e finish tempPath bad s₁ (bad :: args) s₁
  | later {arg args s s'} : copyFile e tempPath args.length arg s = some (s', true) →
      Fails e finish tempPath bad s₁ args (finish arg s') →
      Fails e finish tempPath bad s₁ (arg :: args) s

/-! ## One round -/

omit [DecidableEq Λ] [DecidableEq κ] in
theorem untouched_iff_of_overwritten {s' : Files Λ κ} {path : Bytes} {f : FileId Λ κ}
    (hsome : (s.writable e path).isSome) (ho : Overwritten e s path f [] s') :
    Untouched e s s' path ↔ Spared e s path := by
  constructor
  · rintro ⟨hentry, hcontents⟩
    have hf : s.entry (e.locate path) = some f := hentry ▸ ho.entry_self
    exact .inr ⟨f, hf, hcontents f hf ▸ ho.contents_self⟩
  · rintro (hnone | ⟨g, hg, hempty⟩)
    · rw [hnone] at hsome
      cases hsome
    · obtain rfl : g = f := Option.some.inj ((ho.entry_eq hg).symm.trans ho.entry_self)
      refine ⟨ho.entry_self.trans hg.symm, fun g' hg' ↦ ?_⟩
      obtain rfl : g' = g := Option.some.inj (hg'.symm.trans hg)
      rw [ho.contents_self, hempty]

theorem copyFile_of_missing {tempPath arg : Bytes} (index : ℕ) (h : s.readable e arg = none)
    (hfits : (newPath tempPath arg).length < bufferSize) :
    ∃ s', copyFile e tempPath index arg s = some (s', false) ∧
      (Untouched e s s' (newPath tempPath arg) ↔ Spared e s (newPath tempPath arg)) := by
  obtain ⟨r, hc, hround⟩ := round_copyFile (e := e) index s hfits
  rw [hc]
  cases hround with
  | unopened hw => exact ⟨_, rfl, iff_of_true ⟨rfl, fun _ _ ↦ rfl⟩ (.inl hw)⟩
  | missing _ hsome ho => exact ⟨_, rfl, untouched_iff_of_overwritten hsome ho⟩
  | same hr => cases h.symm.trans hr
  | copied hr => cases h.symm.trans hr

/-! ## The whole call -/

theorem Fails.copyAll {finish : Bytes → Files Λ κ → Files Λ κ} {tempPath : Bytes}
    {args : List Bytes} (h : Fails e finish tempPath bad s₁ args s) :
    ∃ s', copyAll e finish tempPath args s = some (s', false) ∧
      (Untouched e s₁ s' (newPath tempPath bad) ↔ Spared e s₁ (newPath tempPath bad)) := by
  induction h with
  | here hread hfits =>
    obtain ⟨s', hcopy, hiff⟩ := copyFile_of_missing _ hread hfits
    rw [Shell.copyAll, hcopy]
    exact ⟨s', rfl, hiff⟩
  | later hcopy _ ih =>
    rw [Shell.copyAll, hcopy]
    exact ih

theorem Fails.transfer {finish : Bytes → Files Λ κ → Files Λ κ} {args : List FileArg} {p : Bytes}
    (h : Fails e finish p bad s₁ (sources args).reverse s) (hlen : args.length < argsSize)
    (hdir : e.isDir p = true) :
    ∃ s', transfer e finish (some (.path p)) args s = .returns s' (some .openingFiles) ∧
      (Untouched e s₁ s' (newPath p bad) ↔ Spared e s₁ (newPath p bad)) := by
  obtain ⟨s', hall, hiff⟩ := h.copyAll
  refine ⟨s', ?_, hiff⟩
  rw [transfer_of_isDir finish s hlen hdir, hall]
  rfl

/-- **A source that cannot be opened.** When `cp` or `mv` comes to one, it prints the message, and
the destination is as it was just when opening it for writing failed or found it empty. The contents
`init` of `temp_path` are arbitrary. -/
theorem untouched_iff_spared (e : Env Λ κ) (init : ℕ → UInt8) (fuel : ℕ) (args : List FileArg)
    (directoryPath p bad : Bytes) (s s₁ : Files Λ κ) (hlen : args.length < argsSize)
    (hdir : e.isDir p = true) :
    (cpTempPath init directoryPath (args.map (·.toArg)) fuel = some (.path p) →
      Fails e (fun _ s ↦ s) p bad s₁ (sources args).reverse s →
      ∃ s', customCp e init fuel args directoryPath s = .returns s' (some .openingFiles) ∧
        (Untouched e s₁ s' (newPath p bad) ↔ Spared e s₁ (newPath p bad))) ∧
    (mvTempPath init directoryPath (args.map (·.toArg)) fuel = some (.path p) →
      Fails e (fun arg s ↦ s.remove e arg) p bad s₁ (sources args).reverse s →
      ∃ s', customMv e init fuel args directoryPath s = .returns s' (some .openingFiles) ∧
        (Untouched e s₁ s' (newPath p bad) ↔ Spared e s₁ (newPath p bad))) := by
  refine ⟨fun hp h ↦ ?_, fun hp h ↦ ?_⟩
  · rw [customCp_eq _ _ hp]
    exact h.transfer hlen hdir
  · rw [customMv_eq _ _ hp]
    exact h.transfer hlen hdir

/-- `x` -/
def fileX : FileArg := ⟨argX, by decide⟩

/-- `cp x b d` and `mv x b d` in `/h` without a file `x`: the loop comes to `x` behind `b`. -/
theorem untouched_iff_spared_home :
    (∃ s', customCp (homeEnv 4096) (fun _ ↦ 0) 8 [fileX, fileB, dirD] [47, 104] homeFiles =
        .returns s' (some .openingFiles) ∧ (s'.entry [47, 104, 47, 100, 47, 120]).isSome) ∧
    (∃ s', customMv (homeEnv 4096) (fun _ ↦ 0) 8 [fileX, fileB, dirD] [47, 104] homeFiles =
        .returns s' (some .openingFiles) ∧ (s'.entry [47, 104, 47, 100, 47, 120]).isSome) := by
  have hpath : cpTempPath (fun _ ↦ 0) [47, 104] ([fileX, fileB, dirD].map (·.toArg)) 8 =
      some (.path [47, 104, 47, 100]) := by decide +kernel
  have h := fun s₁ ↦ untouched_iff_spared (homeEnv 4096) (fun _ ↦ 0) 8 [fileX, fileB, dirD]
    [47, 104] [47, 104, 47, 100] [120] homeFiles s₁ (by decide) rfl
  -- the entry was empty, so it has a file now
  have hentry : ∀ {s₁ s' : Files Bytes ℕ}, s₁.entry [47, 104, 47, 100, 47, 120] = none →
      (Untouched (homeEnv 4096) s₁ s' (newPath [47, 104, 47, 100] [120]) ↔
        Spared (homeEnv 4096) s₁ (newPath [47, 104, 47, 100] [120])) →
      (s'.entry [47, 104, 47, 100, 47, 120]).isSome := by
    intro s₁ s' hnone hiff
    rw [Option.isSome_iff_ne_none]
    intro hnone'
    have hentry :
        s₁.entry ((homeEnv 4096).locate (newPath [47, 104, 47, 100] [120])) = none := hnone
    rcases hiff.1 ⟨hnone'.trans hnone.symm, fun f hf ↦ by cases hentry.symm.trans hf⟩ with
      hw | ⟨f, hf, -⟩
    · rw [writable, hentry] at hw
      cases hw
    · cases hentry.symm.trans hf
  obtain ⟨s', hcp, hiff⟩ := (h _).1 hpath (.later rfl (.here rfl (by decide)))
  obtain ⟨s'', hmv, hiff'⟩ := (h _).2 hpath (.later rfl (.here rfl (by decide)))
  exact ⟨⟨s', hcp, hentry rfl hiff⟩, s'', hmv, hentry rfl hiff'⟩

/-- In `/h`, where there is a file `a` but no `x`: `cp x d` prints the message and leaves a new file
`d/x`, and `mv x d` does the same. -/
theorem exists_created_destination :
    homeFiles.readable (homeEnv 4096) [120] = none ∧
    homeFiles.entry [47, 104, 47, 100, 47, 120] = none ∧
    (∃ s', customCp (homeEnv 4096) (fun _ ↦ 0) 8 [fileX, dirD] [47, 104] homeFiles =
        .returns s' (some .openingFiles) ∧ (s'.entry [47, 104, 47, 100, 47, 120]).isSome) ∧
    ∃ s', customMv (homeEnv 4096) (fun _ ↦ 0) 8 [fileX, dirD] [47, 104] homeFiles =
        .returns s' (some .openingFiles) ∧ (s'.entry [47, 104, 47, 100, 47, 120]).isSome := by
  have hpath : cpTempPath (fun _ ↦ 0) [47, 104] ([fileX, dirD].map (·.toArg)) 8 =
      some (.path [47, 104, 47, 100]) := by decide +kernel
  refine ⟨rfl, rfl, ⟨_, (customCp_eq _ _ hpath).trans ((transfer_sole _ rfl _).trans rfl), ?_⟩,
    ⟨_, (customMv_eq _ _ hpath).trans ((transfer_sole _ rfl _).trans rfl), ?_⟩⟩
  · decide +kernel
  · decide +kernel

end OperatingSystems.Shell
