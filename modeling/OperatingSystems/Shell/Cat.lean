import Mathlib.Data.List.TakeWhile
import OperatingSystems.Shell.Files

/-!
# `cat`

`custom_cat` reads a file with `fgets`, a line or `BUFFER_SIZE - 1` bytes at a time, and prints what
the buffer holds with the conversion `%s`. `fgets` puts a zero byte behind what it has read, which
is where the printing stops; a zero byte of the file itself stops it earlier, and the rest of that
line is lost.

So what is printed for a file is at most as long as the file, and it is the file just when the file
has no zero byte, for every size of the buffer and wherever `fgets` splits the contents.
-/

namespace OperatingSystems.Shell

def newline : UInt8 := 10

def ascii (text : String) : Bytes := text.toList.map fun c ↦ c.toNat.toUInt8

/-- What `fgets` takes off the file `rest` when it has room for `n` bytes. -/
def line : (n : ℕ) → (rest : Bytes) → Bytes
  | 0, _ => []
  | _, [] => []
  | n + 1, c :: rest => if c = newline then [c] else c :: line n rest

/-- `fgets(buffer, size, file)`: the buffer and the rest of the file, or nothing at the end. -/
def fgets (size : ℕ) (buffer rest : Bytes) : Option (Bytes × Bytes) :=
  if rest = [] then none
  else
    let read := line (size - 1) rest
    some (read ++ 0 :: buffer.drop (read.length + 1), rest.drop read.length)

/-- `printf("%s", buffer)` -/
def printString (buffer : Bytes) : Bytes := buffer.takeWhile (· != 0)

def catLoop (size : ℕ) : (fuel : ℕ) → (buffer rest : Bytes) → Bytes
  | 0, _, _ => []
  | fuel + 1, buffer, rest =>
    match fgets size buffer rest with
    | none => []
    | some (buffer, rest) => printString buffer ++ catLoop size fuel buffer rest

def catFile (contents : Bytes) : Bytes :=
  catLoop bufferSize (contents.length + 1) (List.replicate bufferSize 0) contents ++ [newline]

variable {Λ κ : Type}

/-- The loop over the files, with `left` entries of `args` from `index` on. It ends with the first
file that cannot be opened; without a result it reads an entry behind the last. -/
def catAll (e : Env Λ κ) : (left : ℕ) → List Bytes → Files Λ κ → Option (Bytes × Files Λ κ)
  | 0, _, _ => none
  | _ + 1, [], s => some ([], s)
  | left + 1, arg :: args, s =>
    match s.fopenRead e arg with
    | (none, s) => some (ascii "Error in opening file(s).\n", s)
    | (some file, s) =>
      (catAll e left args s).map fun r ↦ (catFile (s.contents file) ++ r.1, r.2)

def catUsage : Bytes := ascii "Usage: cat $\x7bINPUT_FILE_1\x7d $\x7bINPUT_FILE_2\x7d ...\n"

/-- What `custom_cat` prints, and the files behind it. -/
def customCat (e : Env Λ κ) (s : Files Λ κ) (args : List FileArg) : Option (Bytes × Files Λ κ) :=
  (catAll e argsSize (texts args) s).map fun r ↦
    (r.1 ++ if args.length = 0 then catUsage else [], r.2)

/-! ## What is read -/

theorem line_append_drop (n : ℕ) :
    ∀ rest, line n rest ++ rest.drop (line n rest).length = rest := by
  induction n with
  | zero => exact fun _ ↦ rfl
  | succ n ih =>
    intro rest
    match rest with
    | [] => rfl
    | c :: rest =>
      unfold line
      split
      · rfl
      · rw [List.length_cons, List.drop_succ_cons, List.cons_append, ih]

variable {rest x : Bytes}

theorem line_ne_nil {n : ℕ} (hn : 0 < n) (h : rest ≠ []) : line n rest ≠ [] := by
  match n, rest with
  | n + 1, c :: rest =>
    unfold line
    split
    · exact List.cons_ne_nil _ _
    · exact List.cons_ne_nil _ _

/-! ## What is printed -/

theorem printString_append (read old : Bytes) :
    printString (read ++ 0 :: old) = printString read := by
  induction read with
  | nil => rfl
  | cons c read ih =>
    unfold printString at ih ⊢
    rw [List.cons_append, List.takeWhile_cons, List.takeWhile_cons, ih]

theorem length_printString_le (x : Bytes) : (printString x).length ≤ x.length :=
  (List.takeWhile_sublist _).length_le

theorem printString_eq_iff : printString x = x ↔ (0 : UInt8) ∉ x := by
  rw [printString, List.takeWhile_eq_self_iff]
  constructor
  · intro h hmem
    exact absurd (h 0 hmem) (by decide)
  · intro h c hc
    have : c ≠ 0 := fun h₀ ↦ h (h₀ ▸ hc)
    simpa using this

theorem append_eq_append_iff_of_le {a b y : Bytes} (ha : a.length ≤ x.length)
    (hb : b.length ≤ y.length) : a ++ b = x ++ y ↔ a = x ∧ b = y := by
  constructor
  · intro h
    have hlen := congrArg List.length h
    rw [List.length_append, List.length_append] at hlen
    exact List.append_inj h (by omega)
  · rintro ⟨rfl, rfl⟩
    rfl

theorem catLoop_succ {size fuel : ℕ} {buffer : Bytes} (h : rest ≠ []) :
    catLoop size (fuel + 1) buffer rest = printString (line (size - 1) rest) ++
      catLoop size fuel
        (line (size - 1) rest ++ 0 :: buffer.drop ((line (size - 1) rest).length + 1))
        (rest.drop (line (size - 1) rest).length) := by
  rw [catLoop, fgets, if_neg h]
  dsimp only
  rw [printString_append]

section Loop

variable {size : ℕ}

theorem length_catLoop_le (fuel : ℕ) : ∀ buffer rest,
    (catLoop size fuel buffer rest).length ≤ rest.length := by
  induction fuel with
  | zero => exact fun _ _ ↦ Nat.zero_le _
  | succ fuel ih =>
    intro buffer rest
    by_cases hrest : rest = []
    · rw [hrest]
      exact Nat.le_refl _
    · have hsplit := congrArg List.length (line_append_drop (size - 1) rest)
      have hprint := length_printString_le (line (size - 1) rest)
      have hloop :=
        ih (line (size - 1) rest ++ 0 :: buffer.drop ((line (size - 1) rest).length + 1))
        (rest.drop (line (size - 1) rest).length)
      rw [List.length_append] at hsplit
      rw [catLoop_succ hrest, List.length_append]
      omega

theorem catLoop_eq_iff (hsize : 1 < size) (fuel : ℕ) : ∀ buffer rest, rest.length < fuel →
    (catLoop size fuel buffer rest = rest ↔ (0 : UInt8) ∉ rest) := by
  induction fuel with
  | zero => exact fun _ _ h ↦ absurd h (Nat.not_lt_zero _)
  | succ fuel ih =>
    intro buffer rest hfuel
    by_cases hrest : rest = []
    · subst hrest
      exact ⟨fun _ ↦ List.not_mem_nil, fun _ ↦ rfl⟩
    · -- the line that is read, and what is left of the file
      have hpos : 0 < size - 1 := Nat.sub_pos_of_lt hsize
      have hread := List.length_pos_of_ne_nil (line_ne_nil hpos hrest)
      have hne := List.length_pos_of_ne_nil hrest
      have hsplit := line_append_drop (size - 1) rest
      rw [catLoop_succ hrest]
      generalize line (size - 1) rest = read at hread hsplit ⊢
      generalize hleft : rest.drop read.length = left at hsplit ⊢
      have hlen : left.length < fuel := by
        rw [← hleft, List.length_drop]
        omega
      rw [← hsplit, append_eq_append_iff_of_le (length_printString_le _) (length_catLoop_le _ _ _),
        printString_eq_iff, ih _ _ hlen, List.mem_append, not_or]

end Loop

theorem length_catFile_le (x : Bytes) : (catFile x).length ≤ (x ++ [newline]).length := by
  rw [catFile, List.length_append, List.length_append]
  exact Nat.add_le_add_right (length_catLoop_le _ _ _) _

theorem catFile_eq_iff (x : Bytes) : catFile x = x ++ [newline] ↔ (0 : UInt8) ∉ x := by
  rw [catFile, List.append_cancel_right_eq]
  exact catLoop_eq_iff (by decide) _ _ _ (Nat.lt_succ_self _)

/-! ## The command -/

/-- The contents of the file that `path` names. -/
def contentsAt (e : Env Λ κ) (s : Files Λ κ) (path : Bytes) : Bytes :=
  ((s.readable e path).map s.contents).getD []

/-- What a faithful `cat` prints. -/
def concatenated (e : Env Λ κ) (s : Files Λ κ) (args : List Bytes) : Bytes :=
  args.flatMap fun arg ↦ contentsAt e s arg ++ [newline]

section Command

variable {e : Env Λ κ} {s : Files Λ κ} {args : List Bytes}

theorem catAll_cons {arg : Bytes} (h : (s.readable e arg).isSome) (left : ℕ) :
    catAll e (left + 1) (arg :: args) s =
      (catAll e left args (s.call (.read arg (e.locate arg)))).map fun r ↦
        (catFile (contentsAt e s arg) ++ r.1, r.2) := by
  obtain ⟨file, hfile⟩ := Option.isSome_iff_exists.1 h
  rw [catAll, Files.fopenRead, contentsAt, hfile]
  rfl

theorem catAll_spec (left : ℕ) (h : ∀ arg ∈ args, (s.readable e arg).isSome)
    (hlen : args.length < left) : ∃ out s', catAll e left args s = some (out, s') ∧
      out.length ≤ (concatenated e s args).length ∧
      (out = concatenated e s args ↔ ∀ arg ∈ args, (0 : UInt8) ∉ contentsAt e s arg) := by
  obtain ⟨left, rfl⟩ := Nat.exists_eq_succ_of_ne_zero (Nat.ne_zero_of_lt hlen)
  induction args generalizing left s with
  | nil =>
    refine ⟨[], s, rfl, Nat.le_refl _, fun _ arg harg ↦ ?_, fun _ ↦ rfl⟩
    cases harg
  | cons arg args ih =>
    have hlen' := Nat.lt_of_succ_lt_succ hlen
    obtain ⟨left, rfl⟩ := Nat.exists_eq_succ_of_ne_zero (Nat.ne_zero_of_lt hlen')
    -- a call that is recorded changes nothing that is read
    obtain ⟨out, s', hout, hle, hiff⟩ : ∃ out s',
        catAll e (left + 1) args (s.call (.read arg (e.locate arg))) = some (out, s') ∧
        out.length ≤ (concatenated e s args).length ∧
        (out = concatenated e s args ↔ ∀ arg ∈ args, (0 : UInt8) ∉ contentsAt e s arg) :=
      ih (s := s.call (.read arg (e.locate arg))) (fun a ha ↦ h a (List.mem_cons_of_mem _ ha)) left
        hlen'
    have hcat : concatenated e s (arg :: args) =
        (contentsAt e s arg ++ [newline]) ++ concatenated e s args := List.flatMap_cons
    have hall : catAll e (left + 1 + 1) (arg :: args) s =
        some (catFile (contentsAt e s arg) ++ out, s') := by
      rw [catAll_cons (h arg List.mem_cons_self), hout, Option.map_some]
    refine ⟨_, s', hall, ?_, ?_⟩
    · rw [hcat, List.length_append, List.length_append]
      exact Nat.add_le_add (length_catFile_le _) hle
    · rw [hcat, append_eq_append_iff_of_le (length_catFile_le _) hle, catFile_eq_iff, hiff,
        List.forall_mem_cons]

theorem catAll_eq_none_iff (left : ℕ) : catAll e left args s = none ↔
    left ≤ args.length ∧ ∀ arg ∈ args.take left, (s.readable e arg).isSome := by
  induction args generalizing left s with
  | nil =>
    cases left with
    | zero => exact iff_of_true rfl ⟨Nat.le_refl _, fun _ h ↦ absurd h List.not_mem_nil⟩
    | succ left => exact iff_of_false (by rintro ⟨⟩) fun h ↦ absurd h.1 (Nat.not_succ_le_zero _)
  | cons arg args ih =>
    cases left with
    | zero => exact iff_of_true rfl ⟨Nat.zero_le _, fun _ h ↦ absurd h List.not_mem_nil⟩
    | succ left =>
      rw [List.take_succ_cons, List.forall_mem_cons, List.length_cons, Nat.succ_le_succ_iff]
      by_cases h : (s.readable e arg).isSome
      · rw [catAll_cons h, Option.map_eq_none_iff, ih, and_iff_right h]
        rfl
      · refine iff_of_false ?_ fun h' ↦ h h'.2.1
        rw [catAll, Files.fopenRead, Option.not_isSome_iff_eq_none.1 h]
        rintro ⟨⟩

end Command

theorem customCat_eq_none_iff (e : Env Λ κ) (s : Files Λ κ) {args : List FileArg}
    (hlen : args.length ≤ argsSize) : customCat e s args = none ↔
      args.length = argsSize ∧ ∀ arg ∈ texts args, (s.readable e arg).isSome := by
  have hlength : (texts args).length = args.length := List.length_map ..
  rw [customCat, Option.map_eq_none_iff, catAll_eq_none_iff,
    List.take_of_length_le (hlength ▸ hlen), hlength]
  exact and_congr_left fun _ ↦ ⟨fun h ↦ Nat.le_antisymm hlen h, fun h ↦ Nat.le_of_eq h.symm⟩

/-- **`cat` and the contents of files.** For readable files it prints the contents, with a newline
behind each, just when there is a file, there are less files than entries of `args`, and none of the
files has a zero byte. -/
theorem customCat_eq_concatenated_iff (e : Env Λ κ) (s : Files Λ κ) (args : List FileArg)
    (h : ∀ arg ∈ texts args, (s.readable e arg).isSome) :
    (customCat e s args).map Prod.fst = some (concatenated e s (texts args)) ↔
      args ≠ [] ∧ args.length < argsSize ∧
        ∀ arg ∈ texts args, (0 : UInt8) ∉ contentsAt e s arg := by
  have hlength : (texts args).length = args.length := List.length_map ..
  unfold customCat
  rcases Nat.lt_or_ge args.length argsSize with hlt | hge
  · obtain ⟨out, s', hout, -, hiff⟩ := catAll_spec argsSize h (hlength ▸ hlt)
    rw [hout, Option.map_some, Option.map_some, Option.some.injEq]
    cases args with
    | nil =>
      constructor
      · -- without files the usage is printed
        intro heq
        exact absurd (List.append_eq_nil_iff.1 heq).2 (by decide)
      · exact fun h ↦ absurd rfl h.1
    | cons arg args =>
      have hne : ¬ (arg :: args).length = 0 := Nat.succ_ne_zero _
      dsimp only
      rw [if_neg hne, List.append_nil, hiff]
      exact ⟨fun h ↦ ⟨List.cons_ne_nil _ _, hlt, h⟩, fun h ↦ h.2.2⟩
  · have hnone : catAll e argsSize (texts args) s = none :=
      (catAll_eq_none_iff argsSize).2 ⟨hlength ▸ hge, fun a ha ↦ h a (List.mem_of_mem_take ha)⟩
    rw [hnone]
    exact ⟨fun h ↦ (by cases h), fun h ↦ absurd h.2.1 (Nat.not_lt.2 hge)⟩

/-- A single file `a`, in a file system where every path names an entry of its own. -/
def soleEnv : Env Bytes ℕ where
  locate := id
  isDir := fun _ ↦ false
  mayRead := fun _ ↦ true
  mayWrite := fun _ ↦ true
  mayCreate := fun _ ↦ true
  mayRemove := fun _ ↦ true
  stream := fun _ ↦ ⟨fun _ ↦ bufferSize, fun _ ↦ bufferSize, bufferSize⟩

def soleFile (contents : Bytes) : Files Bytes ℕ :=
  Files.start (fun l ↦ if l = [97] then some 0 else none) fun _ ↦ contents

/-- `a` -/
def fileA : FileArg := .ofText [97] (by decide) (by decide) (by decide)

theorem customCat_eq_concatenated_iff_text :
    (customCat soleEnv (soleFile [104, 105]) [fileA, fileA]).map Prod.fst =
      some [104, 105, newline, 104, 105, newline] :=
  (customCat_eq_concatenated_iff soleEnv (soleFile [104, 105]) [fileA, fileA] (by decide)).2
    ⟨by decide, by decide, by decide⟩

/-- Of a file with the bytes 1, 0, 2 only the first is printed. -/
theorem customCat_zero_byte :
    (customCat soleEnv (soleFile [1, 0, 2]) [fileA]).map Prod.fst = some [1, newline] ∧
    concatenated soleEnv (soleFile [1, 0, 2]) (texts [fileA]) = [1, 0, 2, newline] := by
  decide +kernel

end OperatingSystems.Shell
