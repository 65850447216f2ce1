import OperatingSystems.Lib.CString
import OperatingSystems.Shell.Agree

/-!
# Paths in arrays

The loops that work out a path do so in place: a byte is added by overwriting the zero that ends the
path, with the zero behind it as the new end. That there is one is taken for granted. Where the path
was laid out with zeros up to some index, this is right as long as the path is shorter than that,
and `Fits` says that it is, whenever the path is edited or looked at once more. Otherwise the path
goes on with whatever the array holds; if there is no zero there either, the next `strlen` leaves
the array.

So an array in which the path fits gives the same result as a string, and this is the only way for
an array with other bytes behind the path to give a certain result at all.
-/

namespace OperatingSystems.Shell

open CArray

variable {N : ℕ} {p : Bytes}

/-! ## The edits of an array -/

/-- `for (int i = strlen(path) - 1; path[i] != '/'; i--) path[i] = '\0'`, with `i + 1` as the
argument: the index `-1` is outside of the array. -/
def stripLoop (N : ℕ) : ℕ → (ℕ → UInt8) → Option (ℕ → UInt8)
  | 0, _ => none
  | i + 1, b => do
    let c ← load N b i
    if c ≠ slash then
      let b ← store N b i 0
      stripLoop N i b
    else some b

def arrayOps (N : ℕ) : PathOps (ℕ → UInt8) where
  push c b := do
    let n ← strlen N b
    store N b n c
  up b := do
    let n ← strlen N b
    let b ← if n ≠ 1 then (before n).bind (store N b · 0) else some b
    let n ← strlen N b
    stripLoop N n b
  finish b := do
    let n ← strlen N b
    if n ≠ 1 then
      let i ← before n
      let c ← load N b i
      if c = slash then store N b i 0 else some b
    else some b

/-- `if (path[strlen(path) - 1] != '/') path[strlen(path)] = '/'` -/
def addSlashArray (N : ℕ) (b : ℕ → UInt8) : Option (ℕ → UInt8) := do
  let n ← strlen N b
  let i ← before n
  let c ← load N b i
  if c ≠ slash then store N b n slash else some b

/-! ## Paths with zeros behind them -/

/-- The path can be edited: there is a slash to cut it off at. -/
def Edit.Ready (p : Bytes) : Edit → Prop
  | .push _ => True
  | .up => slash ∈ if p.length ≠ 1 then p.dropLast else p

/-- The path is shorter than `M` whenever it is edited or looked at, and can be. -/
def Fits (M : ℕ) : Bytes → List Edit → Ending → Prop
  | p, [], ending => ending = .done → p.length < M ∧ p ≠ []
  | p, e :: es, ending => p.length < M ∧ e.Ready p ∧ Fits M (e.on p) es ending

def Resolved.map {σ τ : Type} (f : σ → τ) : Resolved σ → Resolved τ
  | .loops => .loops
  | .notADirectory => .notADirectory
  | .fault => .fault
  | .path s => .path (f s)

variable {e : Edit}

section Laid

variable {M : ℕ} {rest : ℕ → UInt8} {p : Bytes}

theorem push_laid (hM : M ≤ N) (h₀ : (0 : UInt8) ∉ p) (hp : p.length < M) (c : UInt8) :
    (arrayOps N).push c (laid M rest p) = some (laid M rest (p ++ [c])) := by
  simp only [arrayOps, strlen_laid hM h₀ hp, Option.bind_eq_bind, Option.bind_some,
    store_laid_length hM hp]

theorem stripLoop_laid (hM : M ≤ N) (p : Bytes) (hp : p.length < M) :
    stripLoop N p.length (laid M rest p) =
      if slash ∈ p then some (laid M rest (p.reverse.dropWhile (· != slash)).reverse)
        else none := by
  induction p using List.reverseRecOn with
  | nil => rfl
  | append_singleton p c ih =>
    rw [List.length_append, List.length_singleton] at hp ⊢
    have hlen : (p ++ [c]).length = p.length + 1 := List.length_append
    have hload : load N (laid M rest (p ++ [c])) p.length = some c := by
      rw [load_laid hM (by omega) (by omega), List.getElem_concat_length rfl]
    rw [stripLoop]
    simp only [hload, Option.bind_eq_bind, Option.bind_some]
    by_cases hc : c = slash
    · subst hc
      rw [if_neg (not_not.2 rfl), if_pos (List.mem_append_right _ List.mem_cons_self),
        List.reverse_concat, List.dropWhile_cons_of_neg (by simp), List.reverse_cons,
        List.reverse_reverse]
    · have hmem : slash ∈ p ++ [c] ↔ slash ∈ p := by
        rw [List.mem_append, List.mem_singleton, or_iff_left (Ne.symm hc)]
      rw [if_pos hc, store_laid_last hM (by omega), Option.bind_some, ih (by omega),
        List.reverse_concat, List.dropWhile_cons_of_pos (by simpa using hc)]
      simp only [hmem]

theorem up_laid (hM : M ≤ N) (h₀ : (0 : UInt8) ∉ p) (hp : p.length < M) :
    (arrayOps N).up (laid M rest p) =
      if slash ∈ (if p.length ≠ 1 then p.dropLast else p) then some (laid M rest (cutLast p))
      else none := by
  -- the path after the first store, if there is one
  have hstrip : ∀ q : Bytes, (0 : UInt8) ∉ q → q.length < M →
      ((strlen N (laid M rest q)).bind fun n ↦ stripLoop N n (laid M rest q)) =
        if slash ∈ q then some (laid M rest (q.reverse.dropWhile (· != slash)).reverse)
          else none := by
    intro q hq₀ hq
    rw [strlen_laid hM hq₀ hq, Option.bind_some, stripLoop_laid hM q hq]
  simp only [arrayOps, Option.bind_eq_bind, strlen_laid hM h₀ hp, Option.bind_some]
  unfold cutLast
  by_cases hone : p.length ≠ 1
  · rw [if_pos hone, if_pos hone]
    rcases List.eq_nil_or_concat p with rfl | ⟨q, c, rfl⟩
    · rfl
    · rw [List.concat_eq_append] at *
      rw [List.length_append, List.length_singleton] at hp ⊢
      have hq₀ : (0 : UInt8) ∉ q := fun h ↦ h₀ (List.mem_append_left _ h)
      have hbefore : before (q.length + 1) = some q.length := rfl
      rw [hbefore, Option.bind_some, store_laid_last hM (by omega), Option.bind_some,
        hstrip q hq₀ (by omega), List.dropLast_concat]
  · rw [if_neg hone, if_neg hone]
    exact stripLoop_laid hM p hp

theorem load_last (hM : M ≤ N) {q : Bytes} {c : UInt8} (hp : (q ++ [c]).length < M) :
    before (q ++ [c]).length = some q.length ∧
      load N (laid M rest (q ++ [c])) q.length = some c := by
  have hlen : (q ++ [c]).length = q.length + 1 := List.length_append
  constructor
  · rw [hlen]
    rfl
  · rw [load_laid hM (by omega) hp, List.getElem_concat_length rfl]

theorem finish_laid (hM : M ≤ N) (h₀ : (0 : UInt8) ∉ p) (hp : p.length < M) (hne : p ≠ []) :
    (arrayOps N).finish (laid M rest p) = some (laid M rest (dropSlash p)) := by
  simp only [arrayOps, Option.bind_eq_bind, strlen_laid hM h₀ hp, Option.bind_some]
  rcases List.eq_nil_or_concat p with rfl | ⟨q, c, rfl⟩
  · exact absurd rfl hne
  · rw [List.concat_eq_append] at *
    obtain ⟨hbefore, hload⟩ := load_last hM hp
    rw [hbefore, Option.bind_some, hload, Option.bind_some, dropSlash, List.getLast?_concat]
    rw [List.length_append, List.length_singleton] at hp
    by_cases hone : (q ++ [c]).length ≠ 1
    · rw [if_pos hone]
      by_cases hc : c = slash
      · rw [if_pos hc, if_pos ⟨hone, congrArg some hc⟩, List.dropLast_concat,
          store_laid_last hM (by omega)]
      · rw [if_neg hc, if_neg fun h ↦ hc (Option.some.inj h.2)]
    · rw [if_neg hone, if_neg fun h ↦ hone h.1]

theorem addSlashArray_laid (hM : M ≤ N) (h₀ : (0 : UInt8) ∉ p) (hp : p.length < M) :
    addSlashArray N (laid M rest p) =
      if p = [] then none else some (laid M rest (addSlash p)) := by
  simp only [addSlashArray, Option.bind_eq_bind, strlen_laid hM h₀ hp, Option.bind_some]
  rcases List.eq_nil_or_concat p with rfl | ⟨q, c, rfl⟩
  · rfl
  · rw [List.concat_eq_append] at *
    obtain ⟨hbefore, hload⟩ := load_last hM hp
    rw [hbefore, Option.bind_some, hload, Option.bind_some,
      if_neg (List.append_ne_nil_of_right_ne_nil _ (List.cons_ne_nil _ _)), addSlash,
      List.getLast?_concat, store_laid_length hM hp]
    by_cases hc : c = slash
    · rw [if_neg (not_not.2 hc), if_neg (not_not.2 (congrArg some hc))]
    · rw [if_pos hc, if_pos fun h ↦ hc (Option.some.inj h)]

theorem apply_full (h₀ : (0 : UInt8) ∉ p) (hp : M ≤ p.length)
    (hrest : ∀ i, M ≤ i → i < N → rest i ≠ 0) (e : Edit) :
    (arrayOps N).apply e (laid M rest p) = none := by
  have hlen := strlen_laid_full h₀ hp hrest
  cases e with
  | push c => simp only [PathOps.apply, arrayOps, hlen, Option.bind_eq_bind, Option.bind_none]
  | up => simp only [PathOps.apply, arrayOps, hlen, Option.bind_eq_bind, Option.bind_none]

theorem finish_full (h₀ : (0 : UInt8) ∉ p) (hp : M ≤ p.length)
    (hrest : ∀ i, M ≤ i → i < N → rest i ≠ 0) : (arrayOps N).finish (laid M rest p) = none := by
  simp only [arrayOps, strlen_laid_full h₀ hp hrest, Option.bind_eq_bind, Option.bind_none]

theorem apply_laid (hM : M ≤ N) (h₀ : (0 : UInt8) ∉ p) (hp : p.length < M) (he : e.Ready p) :
    (arrayOps N).apply e (laid M rest p) = some (laid M rest (e.on p)) := by
  cases e with
  | push c => exact push_laid hM h₀ hp c
  | up => exact (up_laid hM h₀ hp).trans (if_pos he)

theorem apply_not_ready (hM : M ≤ N) (h₀ : (0 : UInt8) ∉ p) (hp : p.length < M) (he : ¬ e.Ready p) :
    (arrayOps N).apply e (laid M rest p) = none := by
  cases e with
  | push c => exact absurd trivial he
  | up => exact (up_laid hM h₀ hp).trans (if_neg he)

end Laid

/-! ## Runs -/

theorem cutLast_sublist (p : Bytes) : (cutLast p).Sublist p := by
  have hstrip : ∀ q : Bytes, (q.reverse.dropWhile (· != slash)).reverse.Sublist q := by
    intro q
    have h := (List.dropWhile_sublist (l := q.reverse) (· != slash)).reverse
    rwa [List.reverse_reverse] at h
  unfold cutLast
  dsimp only
  split
  · exact (hstrip _).trans (List.dropLast_sublist p)
  · exact hstrip p

theorem Edit.on_ne_zero (h₀ : (0 : UInt8) ∉ p) (he : e ≠ .push 0) : (0 : UInt8) ∉ e.on p := by
  cases e with
  | push c =>
    intro h
    rcases List.mem_append.1 h with h | h
    · exact h₀ h
    · exact he (congrArg Edit.push (List.mem_singleton.1 h).symm)
  | up => exact fun h ↦ h₀ ((cutLast_sublist p).mem h)

theorem push_zero_notMem_edits {ahead : ℕ} {arg : ℕ → UInt8} {fuel : ℕ} : ∀ {k : ℕ},
    Edit.push 0 ∉ (edits ahead arg fuel k).1 := by
  induction fuel with
  | zero => exact List.not_mem_nil
  | succ fuel ih =>
    intro k
    by_cases h₀ : arg k = 0
    · rw [edits_end h₀]
      exact List.not_mem_nil
    · by_cases hp : arg k = period
      · rw [edits_period hp rfl]
        split
        · split
          · exact fun h ↦ ih ((List.mem_cons.1 h).resolve_left Edit.noConfusion)
          · exact List.not_mem_nil
        · exact ih
      · rw [edits_byte h₀ hp]
        refine fun h ↦ ih ((List.mem_cons.1 h).resolve_left fun heq ↦ h₀ ?_)
        exact (Edit.push.inj heq).symm

section Run

variable {M : ℕ} {rest : ℕ → UInt8} {ending : Ending}

/-- **Where the path fits, an array is as good as a string.** -/
theorem run_laid (hM : M ≤ N) (es : List Edit) (hes : Edit.push 0 ∉ es) : ∀ p : Bytes,
    (0 : UInt8) ∉ p → Fits M p es ending → (arrayOps N).run es ending (laid M rest p) =
      (stringOps.run es ending p).map (laid M rest) := by
  induction es with
  | nil =>
    intro p h₀ hfits
    cases ending with
    | done =>
      obtain ⟨hp, hne⟩ := hfits rfl
      rw [PathOps.run, finish_laid hM h₀ hp hne]
      rfl
    | notADirectory => rfl
    | loops => rfl
  | cons e es ih =>
    rintro p h₀ ⟨hp, he, hfits⟩
    have hon := e.on_ne_zero h₀ fun h ↦ hes (h ▸ List.mem_cons_self)
    have hstring : stringOps.run (e :: es) ending p = stringOps.run es ending (e.on p) := by
      cases e <;> rfl
    rw [PathOps.run, apply_laid hM h₀ hp he, hstring]
    exact ih (fun h ↦ hes (List.mem_cons_of_mem _ h)) _ hon hfits

theorem run_fault (hM : M ≤ N) (hrest : ∀ i, M ≤ i → i < N → rest i ≠ 0) (es : List Edit)
    (hes : Edit.push 0 ∉ es) : ∀ p : Bytes, (0 : UInt8) ∉ p → ¬ Fits M p es ending →
    (arrayOps N).run es ending (laid M rest p) = .fault := by
  induction es with
  | nil =>
    intro p h₀ hfits
    obtain ⟨rfl, hend⟩ := Classical.not_imp.1 hfits
    have hnone : (arrayOps N).finish (laid M rest p) = none := by
      rcases Nat.lt_or_ge p.length M with hp | hp
      · obtain rfl : p = [] := Classical.byContradiction fun hne ↦ hend ⟨hp, hne⟩
        simp only [arrayOps, strlen_laid hM h₀ hp, Option.bind_eq_bind, Option.bind_some]
        rfl
      · exact finish_full h₀ hp hrest
    rw [PathOps.run, hnone]
    rfl
  | cons e es ih =>
    intro p h₀ hfits
    rw [PathOps.run]
    rcases Nat.lt_or_ge p.length M with hp | hp
    · by_cases he : e.Ready p
      · have hon := e.on_ne_zero h₀ fun h ↦ hes (h ▸ List.mem_cons_self)
        rw [apply_laid hM h₀ hp he]
        refine ih (fun h ↦ hes (List.mem_cons_of_mem _ h)) _ hon fun h ↦ hfits ?_
        exact ⟨hp, he, h⟩
      · rw [apply_not_ready hM h₀ hp he]
        rfl
    · rw [apply_full h₀ hp hrest]
      rfl

theorem Fits.follow (es : List Edit) (hes : Edit.push 0 ∉ es) : ∀ p : Bytes, (0 : UInt8) ∉ p →
    Fits M p es .done → (follow p es).length < M ∧ (0 : UInt8) ∉ follow p es := by
  induction es with
  | nil => exact fun p h₀ hfits ↦ ⟨(hfits rfl).1, h₀⟩
  | cons e es ih =>
    rintro p h₀ ⟨-, -, hfits⟩
    have hon := e.on_ne_zero h₀ fun h ↦ hes (h ▸ List.mem_cons_self)
    exact ih (fun h ↦ hes (List.mem_cons_of_mem _ h)) _ hon hfits

theorem dropSlash_sublist (p : Bytes) : (dropSlash p).Sublist p := by
  by_cases h : p.length ≠ 1 ∧ p.getLast? = some slash
  · rw [dropSlash, if_pos h]
    exact List.dropLast_sublist p
  · rw [dropSlash, if_neg h]

theorem Fits.dropSlash {es : List Edit} (hes : Edit.push 0 ∉ es) (h₀ : (0 : UInt8) ∉ p)
    (h : Fits M p es .done) : (Shell.dropSlash (Shell.follow p es)).length < M ∧
      (0 : UInt8) ∉ Shell.dropSlash (Shell.follow p es) := by
  obtain ⟨hlt, hfollow⟩ := h.follow es hes p h₀
  have hsub := dropSlash_sublist (Shell.follow p es)
  exact ⟨hsub.length_le.trans_lt hlt, fun hmem ↦ hfollow (hsub.mem hmem)⟩

theorem addSlash_ne_zero (h₀ : (0 : UInt8) ∉ p) : (0 : UInt8) ∉ addSlash p := by
  unfold addSlash
  split
  · intro h
    rcases List.mem_append.1 h with h | h
    · exact h₀ h
    · exact absurd h (by decide)
  · exact h₀

end Run

end OperatingSystems.Shell
