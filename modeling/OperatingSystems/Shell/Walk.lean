import OperatingSystems.Shell.Args

/-!
# Working out a relative path

`custom_cd`, `custom_cp` and `custom_mv` each have a loop that applies the elements of a relative
path to a copy of the shell's directory path. The loops were written out three times and differ in
one number: at a period `custom_cd` looks for the end of the argument two bytes ahead, the others
one.

Where a loop goes only depends on the argument, so that a loop is a list of edits, bytes to be added
and elements to be cut off, together with the way it ends. `walk` reads this list off the bytes of
the argument. What an edit does is left open: the path may be a string, or an array that has to have
room for it.
-/

namespace OperatingSystems.Shell

/-! ## The loop -/

def period : UInt8 := 46

/-- The path is cut back to the slash before its last element. -/
def cutLast (tempPath : Bytes) : Bytes :=
  let tempPath := if tempPath.length ≠ 1 then tempPath.dropLast else tempPath
  (tempPath.reverse.dropWhile (· != slash)).reverse

def addSlash (tempPath : Bytes) : Bytes :=
  if tempPath.getLast? ≠ some slash then tempPath ++ [slash] else tempPath

def dropSlash (tempPath : Bytes) : Bytes :=
  if tempPath.length ≠ 1 ∧ tempPath.getLast? = some slash then tempPath.dropLast else tempPath

/-- How a path can be edited; no result where the edit reads or writes outside of the path's
array. -/
structure PathOps (σ : Type) where
  push : UInt8 → σ → Option σ
  /-- Cut off the last element. -/
  up : σ → Option σ
  finish : σ → Option σ

inductive Resolved (σ : Type) where
  | loops
  | notADirectory
  /-- A read or a write outside of the path's array. -/
  | fault
  | path (s : σ)
  deriving DecidableEq

variable {σ : Type}

/-- The place behind the element `.` at `k`, the end of the argument being looked for `ahead` bytes
later. A period that is not such an element is not passed. -/
def skipDot (ahead : ℕ) (arg : ℕ → UInt8) (k : ℕ) : ℕ :=
  if arg (k + 1) = slash ∨ arg (k + ahead) = 0 then k + 2 else k

/-- The loop over the argument, from its byte `k` on. -/
def resolveLoop (ahead : ℕ) (ops : PathOps σ) (arg : ℕ → UInt8) : (fuel k : ℕ) → σ → Resolved σ
  | 0, _, _ => .loops
  | fuel + 1, k, s =>
    if arg k = 0 then (ops.finish s).elim .fault .path
    else if arg k = period then
      let k := skipDot ahead arg k
      if arg (k + 1) = period then
        if arg (k + 2) = slash ∨ arg (k + 2) = 0 then
          (ops.up s).elim .fault (resolveLoop ahead ops arg fuel (k + 3))
        else .notADirectory
      else resolveLoop ahead ops arg fuel k s
    else (ops.push (arg k) s).elim .fault (resolveLoop ahead ops arg fuel (k + 1))

/-- `arg[index + 2] == '\0'`, in `custom_cd` -/
def cdAhead : ℕ := 2

/-- `args[index][k + 1] == '\0'`, in `custom_cp` and `custom_mv` -/
def cpAhead : ℕ := 1

def stringOps : PathOps Bytes where
  push c p := some (p ++ [c])
  up p := some (cutLast p)
  finish p := some (dropSlash p)

/-- The loop of `custom_cd`, for an argument in a buffer filled up with zeros. -/
def cdLoop (arg : Bytes) : (fuel k : ℕ) → Bytes → Resolved Bytes :=
  resolveLoop cdAhead stringOps (charAt arg)

def cpLoop (arg : Bytes) : (fuel k : ℕ) → Bytes → Resolved Bytes :=
  resolveLoop cpAhead stringOps (charAt arg)

def mvLoop (arg : Bytes) : (fuel k : ℕ) → Bytes → Resolved Bytes :=
  resolveLoop cpAhead stringOps (charAt arg)

/-- The path that `custom_cd` hands to `opendir`. -/
def cdPath (directoryPath arg : Bytes) : Resolved Bytes :=
  cdLoop arg (arg.length + 1) 0 (addSlash directoryPath)

/-- `temp_path` of `custom_cp` for a relative destination. -/
def cpPath (directoryPath arg : Bytes) : Resolved Bytes :=
  cpLoop arg (arg.length + 1) 0 (addSlash directoryPath)

/-- `temp_path` of `custom_mv` for a relative destination. -/
def mvPath (directoryPath arg : Bytes) : Resolved Bytes :=
  mvLoop arg (arg.length + 1) 0 (addSlash directoryPath)

/-! ## The edits of a loop -/

inductive Edit where
  | push (c : UInt8)
  | up
  deriving DecidableEq

inductive Ending where
  | done
  | notADirectory
  | loops
  deriving DecidableEq

def edits (ahead : ℕ) (arg : ℕ → UInt8) : (fuel k : ℕ) → List Edit × Ending
  | 0, _ => ([], .loops)
  | fuel + 1, k =>
    if arg k = 0 then ([], .done)
    else if arg k = period then
      let k := skipDot ahead arg k
      if arg (k + 1) = period then
        if arg (k + 2) = slash ∨ arg (k + 2) = 0 then
          ((edits ahead arg fuel (k + 3)).map (.up :: ·) id)
        else ([], .notADirectory)
      else edits ahead arg fuel k
    else (edits ahead arg fuel (k + 1)).map (.push (arg k) :: ·) id

def PathOps.apply (ops : PathOps σ) : Edit → σ → Option σ
  | .push c => ops.push c
  | .up => ops.up

def PathOps.run (ops : PathOps σ) : List Edit → Ending → σ → Resolved σ
  | [], .done, s => (ops.finish s).elim .fault .path
  | [], .notADirectory, _ => .notADirectory
  | [], .loops, _ => .loops
  | e :: es, ending, s => (ops.apply e s).elim .fault (ops.run es ending)

theorem resolveLoop_eq_run (ahead : ℕ) (ops : PathOps σ) (arg : ℕ → UInt8) (fuel : ℕ) :
    ∀ (k : ℕ) (s : σ), resolveLoop ahead ops arg fuel k s =
      ops.run (edits ahead arg fuel k).1 (edits ahead arg fuel k).2 s := by
  induction fuel with
  | zero => exact fun _ _ ↦ rfl
  | succ fuel ih =>
    intro k s
    rw [resolveLoop, edits]
    by_cases h₀ : arg k = 0
    · rw [if_pos h₀, if_pos h₀]
      rfl
    · rw [if_neg h₀, if_neg h₀]
      by_cases hp : arg k = period
      · rw [if_pos hp, if_pos hp]
        dsimp only
        by_cases hpp : arg (skipDot ahead arg k + 1) = period
        · rw [if_pos hpp, if_pos hpp]
          by_cases hs : arg (skipDot ahead arg k + 2) = slash ∨ arg (skipDot ahead arg k + 2) = 0
          · rw [if_pos hs, if_pos hs, funext (ih _)]
            rfl
          · rw [if_neg hs, if_neg hs]
            rfl
        · rw [if_neg hpp, if_neg hpp]
          exact ih _ _
      · rw [if_neg hp, if_neg hp, funext (ih _)]
        rfl

theorem edits_add (ahead : ℕ) (arg : ℕ → UInt8) (fuel j : ℕ) : ∀ k : ℕ,
    edits ahead arg fuel (k + j) = edits ahead (fun i ↦ arg (i + j)) fuel k := by
  induction fuel with
  | zero => exact fun _ ↦ rfl
  | succ fuel ih =>
    intro k
    have hadd : ∀ m i, m + j + i = m + i + j := fun m i ↦ Nat.add_right_comm m j i
    have hskip : skipDot ahead arg (k + j) = skipDot ahead (fun i ↦ arg (i + j)) k + j := by
      rw [skipDot, skipDot, hadd, hadd]
      split <;> omega
    rw [edits, edits, hskip]
    simp only [hadd, ih]

theorem charAt_drop (arg : Bytes) (j : ℕ) : (fun i ↦ charAt arg (i + j)) = charAt (arg.drop j) := by
  funext i
  rw [charAt, charAt, List.getD_eq_getElem?_getD, List.getD_eq_getElem?_getD, List.getElem?_drop,
    Nat.add_comm]

theorem edits_drop (ahead : ℕ) (arg : Bytes) (fuel j : ℕ) :
    edits ahead (charAt arg) fuel j = edits ahead (charAt (arg.drop j)) fuel 0 := by
  have h := edits_add ahead (charAt arg) fuel j 0
  rwa [Nat.zero_add, charAt_drop] at h

/-! ## The edits of an argument -/

/-- The edits that the bytes of an argument lead to. `late` is set for `custom_cd`, which takes a
period before the last byte for the element `.`, whatever the last byte is. -/
def walk (late : Bool) : Bytes → List Edit × Ending
  | [] => ([], .done)
  | c :: l =>
    if c ≠ period then (walk late l).map (.push c :: ·) id
    else
      match l with
      | [] => ([], .done)
      | c₁ :: l₁ =>
        if c₁ = slash then
          match l₁ with
          | c₂ :: c₃ :: l₃ =>
            -- the byte `c₂` is not looked at
            if c₃ = period then
              match l₃ with
              | [] => ([.up], .done)
              | c₄ :: l₄ =>
                if c₄ = slash then (walk late l₄).map (.up :: ·) id else ([], .notADirectory)
            else walk late (c₂ :: c₃ :: l₃)
          | l₁ => walk late l₁
        else if late ∧ l₁ = [] then ([], .done)
        else if c₁ = period then
          match l₁ with
          | [] => ([.up], .done)
          | c₂ :: l₂ =>
              if c₂ = slash then (walk late l₂).map (.up :: ·) id else ([], .notADirectory)
        else ([], .loops)

inductive Shape : Bytes → Prop where
  | nil : Shape []
  | byte {c : UInt8} {l : Bytes} : c ≠ period → Shape (c :: l)
  | dot : Shape [period]
  | dotSlash {l : Bytes} : (∀ c₁ c₂ l', l = c₁ :: c₂ :: l' → c₂ ≠ period) →
      Shape (period :: slash :: l)
  | dotUpEnd {c : UInt8} : Shape [period, slash, c, period]
  | dotUp {c : UInt8} {l : Bytes} : Shape (period :: slash :: c :: period :: slash :: l)
  | dotBad {c c' : UInt8} {l : Bytes} : c' ≠ slash →
      Shape (period :: slash :: c :: period :: c' :: l)
  | upEnd : Shape [period, period]
  | up {l : Bytes} : Shape (period :: period :: slash :: l)
  | bad {c : UInt8} {l : Bytes} : c ≠ slash → Shape (period :: period :: c :: l)
  | stuck {c : UInt8} {l : Bytes} : c ≠ period → c ≠ slash → Shape (period :: c :: l)

theorem shape_dotSlash (l : Bytes) : Shape (period :: slash :: l) := by
  match l with
  | [] => exact .dotSlash fun _ _ _ h ↦ by cases h
  | [_] => exact .dotSlash fun _ _ _ h ↦ by cases h
  | c₁ :: c₂ :: l =>
    by_cases h₂ : c₂ = period
    · subst h₂
      match l with
      | [] => exact .dotUpEnd
      | c₃ :: l =>
        by_cases h₃ : c₃ = slash
        · subst h₃
          exact .dotUp
        · exact .dotBad h₃
    · refine .dotSlash ?_
      rintro _ _ _ ⟨⟩
      exact h₂

theorem shape (l : Bytes) : Shape l := by
  match l with
  | [] => exact .nil
  | c :: l =>
    by_cases hc : c = period
    · subst hc
      match l with
      | [] => exact .dot
      | c₁ :: l =>
        by_cases h₁ : c₁ = slash
        · subst h₁
          exact shape_dotSlash l
        · by_cases h₂ : c₁ = period
          · subst h₂
            match l with
            | [] => exact .upEnd
            | c₂ :: l =>
              by_cases h₃ : c₂ = slash
              · subst h₃
                exact .up
              · exact .bad h₃
          · exact .stuck h₂ h₁
    · exact .byte hc

section Walk

variable {late : Bool} {c c' : UInt8} {l : Bytes}

theorem walk_byte (h : c ≠ period) :
    walk late (c :: l) = (walk late l).map (.push c :: ·) id := by
  rw [walk.eq_def]
  exact if_pos h

theorem walk_dotSlash (h : ∀ c₁ c₂ l', l = c₁ :: c₂ :: l' → c₂ ≠ period) :
    walk late (period :: slash :: l) = walk late l := by
  rw [walk.eq_def]
  dsimp only
  rw [if_neg (not_not.2 rfl), if_pos rfl]
  split
  · next c₂ c₃ l₃ => rw [if_neg (h c₂ c₃ l₃ rfl)]
  · rfl

theorem walk_dotUp : walk late (period :: slash :: c :: period :: slash :: l) =
    (walk late l).map (.up :: ·) id := by
  rw [walk.eq_def]
  rfl

theorem walk_dotBad (h : c' ≠ slash) :
    walk late (period :: slash :: c :: period :: c' :: l) = ([], .notADirectory) := by
  rw [walk.eq_def]
  dsimp only
  rw [if_neg (not_not.2 rfl), if_pos rfl, if_pos rfl, if_neg h]

theorem walk_upEnd : walk late [period, period] = (if late then [] else [.up], .done) := by
  cases late <;> rfl

theorem walk_up : walk late (period :: period :: slash :: l) = (walk late l).map (.up :: ·) id := by
  rw [walk.eq_def]
  cases late <;> rfl

theorem walk_bad (h : c ≠ slash) :
    walk late (period :: period :: c :: l) = ([], .notADirectory) := by
  have hne : ¬(late = true ∧ c :: l = []) := fun h ↦ List.cons_ne_nil _ _ h.2
  rw [walk.eq_def]
  dsimp only
  rw [if_neg (not_not.2 rfl), if_neg (by decide), if_neg hne, if_pos rfl, if_neg h]

theorem walk_stuck (h : c ≠ period) (hs : c ≠ slash) : walk late (period :: c :: l) =
    ([], if late ∧ l = [] then .done else .loops) := by
  rw [walk.eq_def]
  dsimp only
  rw [if_neg (not_not.2 rfl), if_neg hs, if_neg h]
  split <;> rfl

end Walk

/-! ### The loop carries out these edits -/

def aheadOf (late : Bool) : ℕ := if late then cdAhead else cpAhead

section Edits

variable {ahead fuel k k' : ℕ} {arg : ℕ → UInt8}

theorem edits_end (h : arg k = 0) : edits ahead arg (fuel + 1) k = ([], .done) := by
  rw [edits, if_pos h]

theorem edits_byte (h₀ : arg k ≠ 0) (hp : arg k ≠ period) : edits ahead arg (fuel + 1) k =
    (edits ahead arg fuel (k + 1)).map (.push (arg k) :: ·) id := by
  rw [edits, if_neg h₀, if_neg hp]

theorem edits_period (hp : arg k = period) (hk : skipDot ahead arg k = k') :
    edits ahead arg (fuel + 1) k =
      if arg (k' + 1) = period then
        if arg (k' + 2) = slash ∨ arg (k' + 2) = 0 then
          (edits ahead arg fuel (k' + 3)).map (.up :: ·) id
        else ([], .notADirectory)
      else edits ahead arg fuel k' := by
  rw [edits, if_neg (by rw [hp]; decide), if_pos hp]
  dsimp only
  rw [hk]

theorem edits_pass (hp : arg k = period) (hk : skipDot ahead arg k = k')
    (hpp : arg (k' + 1) ≠ period) : edits ahead arg (fuel + 1) k = edits ahead arg fuel k' := by
  rw [edits_period hp hk, if_neg hpp]

theorem edits_up (hp : arg k = period) (hk : skipDot ahead arg k = k')
    (hpp : arg (k' + 1) = period) (hs : arg (k' + 2) = slash ∨ arg (k' + 2) = 0) :
    edits ahead arg (fuel + 1) k = (edits ahead arg fuel (k' + 3)).map (.up :: ·) id := by
  rw [edits_period hp hk, if_pos hpp, if_pos hs]

theorem edits_bad (hp : arg k = period) (hk : skipDot ahead arg k = k')
    (hpp : arg (k' + 1) = period) (hs : ¬(arg (k' + 2) = slash ∨ arg (k' + 2) = 0)) :
    edits ahead arg (fuel + 1) k = ([], .notADirectory) := by
  rw [edits_period hp hk, if_pos hpp, if_neg hs]

theorem edits_stuck (hp : arg k = period) (hk : skipDot ahead arg k = k)
    (hpp : arg (k + 1) ≠ period) : edits ahead arg fuel k = ([], .loops) := by
  induction fuel with
  | zero => rfl
  | succ fuel ih => rw [edits_pass hp hk hpp, ih]

end Edits

theorem skipDot_slash {ahead k : ℕ} {arg : ℕ → UInt8} (h : arg (k + 1) = slash) :
    skipDot ahead arg k = k + 2 := if_pos (.inl h)

/-- **The loop carries out the edits of its argument.** -/
theorem edits_eq_walk (late : Bool) (fuel : ℕ) : ∀ arg : Bytes, (0 : UInt8) ∉ arg →
    arg.length < fuel → edits (aheadOf late) (charAt arg) fuel 0 = walk late arg := by
  induction fuel with
  | zero => exact fun _ _ h ↦ absurd h (Nat.not_lt_zero _)
  | succ fuel ih =>
    intro arg h₀ hlen
    -- the rest of the argument, from byte `j` on
    have hrest : ∀ j, 0 < j → 0 < arg.length →
        edits (aheadOf late) (charAt arg) fuel j = walk late (arg.drop j) := by
      intro j hj harg
      rw [edits_drop]
      refine ih _ (fun h ↦ h₀ (List.mem_of_mem_drop h)) ?_
      rw [List.length_drop]
      omega
    cases shape arg with
    | nil => exact edits_end rfl
    | @byte c l hc =>
      have hc₀ : c ≠ 0 := fun h ↦ h₀ (h ▸ List.mem_cons_self)
      rw [edits_byte hc₀ hc, hrest 1 (by decide) (Nat.succ_pos _), walk_byte hc]
      rfl
    | dot =>
      have hk : skipDot (aheadOf late) (charAt [period]) 0 = 2 := by
        cases late <;> rfl
      rw [edits_pass rfl hk (by decide), hrest 2 (by decide) (by decide)]
      rfl
    | @dotSlash l h =>
      have hpp : charAt (period :: slash :: l) (0 + 2 + 1) ≠ period := by
        match l with
        | [] => decide
        | [_] => exact (by decide : (0 : UInt8) ≠ period)
        | c₁ :: c₂ :: l' => exact h c₁ c₂ l' rfl
      rw [edits_pass rfl (skipDot_slash rfl) hpp, hrest 2 (by decide) (Nat.succ_pos _),
        walk_dotSlash h]
      rfl
    | dotUpEnd =>
      rw [edits_up rfl (skipDot_slash rfl) rfl (.inr rfl), hrest 5 (by decide) (Nat.succ_pos _)]
      rfl
    | dotUp =>
      rw [edits_up rfl (skipDot_slash rfl) rfl (.inl rfl), hrest 5 (by decide) (Nat.succ_pos _),
        walk_dotUp]
      rfl
    | @dotBad c c' l hc =>
      have hc₀ : c' ≠ 0 := by
        rintro rfl
        simp at h₀
      rw [edits_bad rfl (skipDot_slash rfl) rfl (not_or.2 ⟨hc, hc₀⟩), walk_dotBad hc]
    | upEnd =>
      rw [walk_upEnd]
      cases late with
      | true =>
        rw [edits_pass rfl (if_pos (.inr rfl)) (by decide), hrest 2 (by decide) (by decide)]
        rfl
      | false =>
        rw [edits_up rfl (if_neg (by decide)) rfl (.inr rfl), hrest 3 (by decide) (by decide)]
        rfl
    | @up l =>
      have hk : skipDot (aheadOf late) (charAt (period :: period :: slash :: l)) 0 = 0 := by
        cases late <;> rfl
      rw [edits_up rfl hk rfl (.inl rfl), hrest 3 (by decide) (Nat.succ_pos _), walk_up]
      rfl
    | @bad c l hc =>
      have hc₀ : c ≠ 0 := by
        rintro rfl
        simp at h₀
      have hk : skipDot (aheadOf late) (charAt (period :: period :: c :: l)) 0 = 0 := by
        cases late with
        | true => exact if_neg (not_or.2 ⟨(by decide : period ≠ slash), hc₀⟩)
        | false => rfl
      rw [edits_bad rfl hk rfl (not_or.2 ⟨hc, hc₀⟩), walk_bad hc]
    | @stuck c l hc hs =>
      have hc₀ : c ≠ 0 := by
        rintro rfl
        simp at h₀
      rw [walk_stuck hc hs]
      by_cases hend : late = true ∧ l = []
      · obtain ⟨rfl, rfl⟩ := hend
        rw [edits_pass rfl (if_pos (.inr rfl)) (by decide : (0 : UInt8) ≠ period),
          hrest 2 (by decide) (Nat.succ_pos _)]
        rfl
      · have hk : skipDot (aheadOf late) (charAt (period :: c :: l)) 0 = 0 := by
          refine if_neg (not_or.2 ⟨hs, ?_⟩)
          cases late with
          | false => exact hc₀
          | true =>
            match l with
            | [] => exact absurd ⟨rfl, rfl⟩ hend
            | c₂ :: l =>
              rintro rfl
              simp at h₀
        rw [edits_stuck rfl hk hc, if_neg hend]

end OperatingSystems.Shell
