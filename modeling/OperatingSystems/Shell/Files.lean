import OperatingSystems.Shell.Args

/-!
# The files that the shell's commands work on

A path names a directory entry, and an entry holds a file or nothing. Two paths may name the same
entry, such as `a` and `./a`, and two entries may hold the same file, which is a hard link: every
way for two paths to name one file is one of these. What a path names does not change while a
command runs, since the commands make and remove files only, never directories.

`fopen` for reading looks a file up; `fopen` for writing truncates the file it finds or creates one.
The loop of `fread` and `fwrite` copies `BUFFER_SIZE` bytes at a time into the buffer of the stream,
and `fclose` writes what is still there. How many bytes a call of `fwrite` takes, how many it writes
out, and how many `fclose` manages to write are inputs of the model.
-/

namespace OperatingSystems.Shell

open Function

/-- A file: one that was there before the command, or the one that the command made in an entry. -/
inductive FileId (Λ κ : Type) where
  | old (i : κ)
  | new (l : Λ)
  deriving DecidableEq

/-- What becomes of the bytes that are written to a file. -/
structure Stream where
  /-- How many bytes the `k`-th call of `fwrite` has room for in the buffer. -/
  takes : (k : ℕ) → ℕ
  /-- How many bytes of the buffer it writes to the file. -/
  flushes : (k : ℕ) → ℕ
  /-- How many of those that are left `fclose` writes. -/
  closes : ℕ

namespace Stream

/-- What reaches the file of the bytes of `x` from `pos` on, with `k` calls made and with `pending`
in the buffer. -/
def deliver (t : Stream) (x : Bytes) : (fuel pos k : ℕ) → (pending : Bytes) → Bytes
  | 0, _, _, pending => pending.take t.closes
  | fuel + 1, pos, k, pending =>
    let buffer := (x.drop pos).take bufferSize
    if buffer = [] then pending.take t.closes
    else
      let pending := pending ++ buffer.take (t.takes k)
      pending.take (t.flushes k) ++
        deliver t x fuel (pos + buffer.length) (k + 1) (pending.drop (t.flushes k))

/-- What reaches the file of a copy of `x`. -/
def delivered (t : Stream) (x : Bytes) : Bytes := t.deliver x (x.length + 1) 0 0 []

end Stream

/-! ## The files -/

structure Access (Λ κ : Type) where
  mayRead : FileId Λ κ → Bool
  mayWrite : FileId Λ κ → Bool
  mayCreate : Λ → Bool
  mayRemove : Λ → Bool
  /-- The stream that `args[index]` is copied to. -/
  stream : (index : ℕ) → Stream

/-- What the commands find outside the files themselves. -/
structure Env (Λ κ : Type) extends Access Λ κ where
  /-- The directory entry that a path names. -/
  locate : Bytes → Λ
  isDir : Bytes → Bool

/-- The calls that take a path, and the entry that it names. -/
inductive FileCall (Λ : Type) where
  /-- `fopen(path, "r")` and `fopen(path, "rb")` -/
  | read (path : Bytes) (l : Λ)
  /-- `fopen(path, "wb")` -/
  | write (path : Bytes) (l : Λ)
  | remove (path : Bytes) (l : Λ)
  deriving DecidableEq

structure Files (Λ κ : Type) where
  entry : Λ → Option (FileId Λ κ)
  contents : FileId Λ κ → Bytes
  /-- The calls so far, the last one first. -/
  calls : List (FileCall Λ)

variable {Λ κ : Type} [DecidableEq Λ] [DecidableEq κ]

namespace Files

/-- The files before the command: none of them is of its making. -/
def start (entry : Λ → Option κ) (contents : κ → Bytes) : Files Λ κ where
  entry := fun l ↦ (entry l).map .old
  contents
    | .old i => contents i
    | .new _ => []
  calls := []

def call (s : Files Λ κ) (c : FileCall Λ) : Files Λ κ := { s with calls := c :: s.calls }

def setContents (s : Files Λ κ) (f : FileId Λ κ) (x : Bytes) : Files Λ κ :=
  { s with contents := update s.contents f x }

/-- `remove`, which does nothing where it fails. -/
def remove (e : Env Λ κ) (s : Files Λ κ) (path : Bytes) : Files Λ κ :=
  let s := s.call (.remove path (e.locate path))
  if e.mayRemove (e.locate path) then
    { s with entry := update s.entry (e.locate path) none }
  else s

/-- The file that `fopen` opens for reading. -/
def readable (e : Env Λ κ) (s : Files Λ κ) (path : Bytes) : Option (FileId Λ κ) :=
  (s.entry (e.locate path)).filter e.mayRead

/-- `fopen(path, "rb")` -/
def fopenRead (e : Env Λ κ) (s : Files Λ κ) (path : Bytes) : Option (FileId Λ κ) × Files Λ κ :=
  (s.readable e path, s.call (.read path (e.locate path)))

/-- The file that `fopen` opens for writing: the one in the entry, or a new one. -/
def writable (e : Env Λ κ) (s : Files Λ κ) (path : Bytes) : Option (FileId Λ κ) :=
  match s.entry (e.locate path) with
  | some f => if e.mayWrite f then some f else none
  | none => if e.mayCreate (e.locate path) then some (.new (e.locate path)) else none

/-- `fopen(path, "wb")`: the file is truncated or created. -/
def fopenWrite (e : Env Λ κ) (s : Files Λ κ) (path : Bytes) : Option (FileId Λ κ) × Files Λ κ :=
  let s := s.call (.write path (e.locate path))
  match s.writable e path with
  | none => (none, s)
  | some f =>
    (some f, { s with
      entry := update s.entry (e.locate path) (some f)
      contents := update s.contents f [] })

/-- The loop of `fread` and `fwrite`, with `pos` bytes of `file` read in `k` calls, and with
`pending` in the buffer of the stream. The loop does not look at what `fwrite` returns. -/
def copyLoop (t : Stream) (file new : FileId Λ κ) :
    (fuel pos k : ℕ) → (pending : Bytes) → Files Λ κ → Bytes × Files Λ κ
  | 0, _, _, pending, s => (pending, s)
  | fuel + 1, pos, k, pending, s =>
    let buffer := ((s.contents file).drop pos).take bufferSize
    if buffer = [] then (pending, s)
    else
      let pending := pending ++ buffer.take (t.takes k)
      copyLoop t file new fuel (pos + buffer.length) (k + 1) (pending.drop (t.flushes k))
        (s.setContents new (s.contents new ++ pending.take (t.flushes k)))

/-- `fclose(new)`, with `pending` in the buffer; nobody looks at what it returns either. -/
def fclose (t : Stream) (new : FileId Λ κ) (pending : Bytes) (s : Files Λ κ) : Files Λ κ :=
  s.setContents new (s.contents new ++ pending.take t.closes)

/-- The loop, from the start of both files, and `fclose`. -/
def copy (t : Stream) (file new : FileId Λ κ) (s : Files Λ κ) : Files Λ κ :=
  let r := copyLoop t file new ((s.contents file).length + 1) 0 0 [] s
  fclose t new r.1 r.2

/-- The entry `l` holds a file with the contents `x`. -/
def Holds (s : Files Λ κ) (l : Λ) (x : Bytes) : Prop :=
  ∃ f, s.entry l = some f ∧ s.contents f = x

/-- A file of the command's making is in the entry it was made in and in no other. -/
def Linked (s : Files Λ κ) : Prop := ∀ l l', s.entry l = some (.new l') → l = l'

/-! ### What the operations change -/

@[simp] theorem setContents_self (s : Files Λ κ) (f : FileId Λ κ) (x : Bytes) :
    (s.setContents f x).contents f = x := update_self ..

variable {s s' : Files Λ κ} {f file new : FileId Λ κ} {l : Λ} {e : Env Λ κ} {path x : Bytes}
  {t : Stream}

theorem setContents_of_ne {g : FileId Λ κ} (x : Bytes) (h : g ≠ f) :
    (s.setContents f x).contents g = s.contents g := update_of_ne h ..

omit [DecidableEq κ] in
@[simp] theorem remove_contents (e : Env Λ κ) (s : Files Λ κ) (path : Bytes) :
    (s.remove e path).contents = s.contents := by
  unfold remove
  split <;> rfl

omit [DecidableEq κ] in
theorem remove_entry_of_ne (h : l ≠ e.locate path) : (s.remove e path).entry l = s.entry l := by
  unfold remove
  split
  · exact update_of_ne h ..
  · rfl

omit [DecidableEq κ] in
theorem remove_entry_self (h : e.mayRemove (e.locate path) = true) :
    (s.remove e path).entry (e.locate path) = none := by
  rw [remove, if_pos h]
  exact update_self ..

omit [DecidableEq κ] in
theorem remove_of_not (h : ¬ e.mayRemove (e.locate path) = true) :
    s.remove e path = s.call (.remove path (e.locate path)) := if_neg h

theorem Linked.setContents (h : s.Linked) (f : FileId Λ κ) (x : Bytes) :
    (s.setContents f x).Linked := h

omit [DecidableEq κ] in
theorem Linked.remove (h : s.Linked) (e : Env Λ κ) (path : Bytes) : (s.remove e path).Linked := by
  intro l₁ l₂ h₁
  by_cases hr : e.mayRemove (e.locate path) = true
  · by_cases hl : l₁ = e.locate path
    · rw [hl, remove_entry_self hr] at h₁
      cases h₁
    · rw [remove_entry_of_ne hl] at h₁
      exact h l₁ l₂ h₁
  · rw [remove_of_not hr] at h₁
    exact h l₁ l₂ h₁

/-! ### Opening a file -/

omit [DecidableEq Λ] [DecidableEq κ] in
theorem readable_eq_some :
    s.readable e path = some f ↔ s.entry (e.locate path) = some f ∧ e.mayRead f = true := by
  rw [readable, Option.filter_eq_some_iff]

omit [DecidableEq Λ] [DecidableEq κ] in
theorem writable_eq_some (h : s.writable e path = some f) :
    (s.entry (e.locate path) = some f ∧ e.mayWrite f = true) ∨
    (s.entry (e.locate path) = none ∧ f = .new (e.locate path)) := by
  unfold writable at h
  split at h
  next g hg =>
    obtain ⟨hw, hf⟩ := Option.ite_none_right_eq_some.1 h
    cases hf
    exact .inl ⟨hg, hw⟩
  next hg =>
    obtain ⟨-, hf⟩ := Option.ite_none_right_eq_some.1 h
    cases hf
    exact .inr ⟨hg, rfl⟩

/-- The file `f` that `fopen(path, "wb")` found or made now has the contents `x`, and nothing else
is changed. -/
structure Overwritten (e : Env Λ κ) (s : Files Λ κ) (path : Bytes) (f : FileId Λ κ) (x : Bytes)
    (s' : Files Λ κ) : Prop where
  entry_self : s'.entry (e.locate path) = some f
  contents_self : s'.contents f = x
  entry_of_ne : ∀ l, l ≠ e.locate path → s'.entry l = s.entry l
  contents_of_ne : ∀ g, g ≠ f → s'.contents g = s.contents g
  linked : s.Linked → s'.Linked
  /-- The file was there, or its entry was empty. -/
  found : (s.entry (e.locate path) = some f ∧ e.mayWrite f = true) ∨
    (s.entry (e.locate path) = none ∧ f = .new (e.locate path))

theorem fopenWrite_none (h : s.writable e path = none) :
    s.fopenWrite e path = (none, s.call (.write path (e.locate path))) := by
  have hcall : (s.call (.write path (e.locate path))).writable e path = none := h
  rw [fopenWrite, hcall]

theorem overwritten_of_writable (h : s.writable e path = some f) :
    ∃ s', s.fopenWrite e path = (some f, s') ∧ Overwritten e s path f [] s' := by
  have hcall : (s.call (.write path (e.locate path))).writable e path = some f := h
  have hfound := writable_eq_some h
  rw [fopenWrite, hcall]
  refine ⟨_, rfl, update_self .., update_self .., fun _ hl ↦ update_of_ne hl ..,
    fun _ hg ↦ update_of_ne hg .., fun hlink l l' hl ↦ ?_, hfound⟩
  have hentry : update s.entry (e.locate path) (some f) l = some (.new l') := hl
  by_cases heq : l = e.locate path
  · rw [heq, update_self] at hentry
    cases hentry
    rw [heq]
    rcases hfound with ⟨hold, -⟩ | ⟨-, hnew⟩
    · exact hlink _ _ hold
    · exact (FileId.new.inj hnew).symm
  · rw [update_of_ne heq] at hentry
    exact hlink l l' hentry

section Overwritten

omit [DecidableEq Λ] [DecidableEq κ]

variable {e : Env Λ κ} {s s' : Files Λ κ} {path x y : Bytes} {f g : FileId Λ κ} {l : Λ}

theorem Overwritten.of_call {c : FileCall Λ} (h : Overwritten e (s.call c) path f x s') :
    Overwritten e s path f x s' :=
  ⟨h.entry_self, h.contents_self, h.entry_of_ne, h.contents_of_ne, h.linked, h.found⟩

theorem Overwritten.eq_of_entry (h : Overwritten e s path f x s') (hlink : s.Linked)
    (hl : s.entry l = some f) : s.entry (e.locate path) = some f ∧ e.mayWrite f = true := by
  rcases h.found with hold | ⟨hnone, rfl⟩
  · exact hold
  · have heq : l = e.locate path := hlink l _ hl
    rw [heq, hnone] at hl
    cases hl

theorem Overwritten.entry_eq (h : Overwritten e s path f x s') (hl : s.entry l = some g) :
    s'.entry l = some g := by
  by_cases hne : l = e.locate path
  · subst hne
    rcases h.found with ⟨hold, _⟩ | ⟨hnone, _⟩
    · rw [h.entry_self, ← hold, hl]
    · rw [hnone] at hl
      cases hl
  · rw [h.entry_of_ne l hne, hl]

theorem Overwritten.holds (h : Overwritten e s path f x s') (hlink : s.Linked)
    (hs : s.Holds l y)
    (hne : s.entry (e.locate path) = some f → e.mayWrite f = true → s.entry l ≠ some f) :
    s'.Holds l y := by
  obtain ⟨g, hg, hy⟩ := hs
  refine ⟨g, h.entry_eq hg, ?_⟩
  rw [h.contents_of_ne g, hy]
  rintro rfl
  have hold := h.eq_of_entry hlink hg
  exact hne hold.1 hold.2 hg

theorem Overwritten.holds_self (h : Overwritten e s path f x s') :
    s'.Holds (e.locate path) x := ⟨f, h.entry_self, h.contents_self⟩

end Overwritten

/-! ### The copy -/

theorem Overwritten.setContents (h : Overwritten e s path f x s') (y : Bytes) :
    Overwritten e s path f y (s'.setContents f y) where
  entry_self := h.entry_self
  contents_self := setContents_self ..
  entry_of_ne := h.entry_of_ne
  contents_of_ne g hg := (setContents_of_ne y hg).trans (h.contents_of_ne g hg)
  linked hl := (h.linked hl).setContents f y
  found := h.found

theorem copy_of_empty (t : Stream) (h : s.contents file = []) :
    copy t file file s = s.setContents file [] := by
  have hloop : copyLoop t file file ((s.contents file).length + 1) 0 0 [] s = ([], s) := by
    rw [copyLoop, h]
    exact if_pos (by rw [List.drop_nil, List.take_nil])
  rw [copy, hloop, fclose, h, List.take_nil, List.append_nil]

theorem Overwritten.copyLoop (h : Overwritten e s path new x s') (hne : file ≠ new)
    (fuel pos k : ℕ) (pending : Bytes) :
    let r := copyLoop t file new fuel pos k pending s'
    Overwritten e s path new (x ++ t.deliver (s.contents file) fuel pos k pending)
      (fclose t new r.1 r.2) := by
  induction fuel generalizing pos k pending x s' with
  | zero =>
    rw [← h.contents_self]
    exact h.setContents _
  | succ fuel ih =>
    rw [Stream.deliver, Files.copyLoop, h.contents_of_ne file hne]
    split
    · rw [← h.contents_self]
      exact h.setContents _
    · rw [← List.append_assoc, ← h.contents_self]
      exact ih (h.setContents _) _ _ _

theorem Overwritten.copy (h : Overwritten e s path new [] s') (hne : file ≠ new) (t : Stream) :
    Overwritten e s path new (t.delivered (s.contents file)) (copy t file new s') := by
  rw [Files.copy, h.contents_of_ne file hne]
  exact h.copyLoop hne ((s.contents file).length + 1) 0 0 []

end Files

end OperatingSystems.Shell
