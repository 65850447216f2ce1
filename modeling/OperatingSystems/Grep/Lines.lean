import OperatingSystems.Grep.Match

/-!
# The lines of grep

`grep` reads its input into a buffer, piece by piece as `read` delivers it, writes the lines that
match and moves what is left behind the last newline to the start of the buffer. If there is no
newline in the buffer at all, it sets `m` to 0, and the start of a line that has not been read to
its end is lost.

So the output depends on the pieces. It consists of the lines that match, for every pattern, if and
only if every piece has a newline in it.
-/

namespace OperatingSystems.Grep

def newline : UInt8 := 10

/-- The inner loop of `grep`: what is written, and the string at `p` in the end. The search for the
next newline has passed `line`, which starts at `p`. -/
def lineLoop (pattern : Bytes) : (line rest : Bytes) → Bytes × Bytes
  | line, [] => ([], line)
  | line, x :: rest =>
    if x = 0 then ([], line ++ x :: rest)
    else if x = newline then
      let r := lineLoop pattern [] rest
      ((if matchRe pattern line then line ++ [newline] else []) ++ r.1, r.2)
    else lineLoop pattern (line ++ [x]) rest

/-- What the buffer holds at the next `read`, if it held `data` and `p` is at `rest`. -/
def carry (data rest : Bytes) : Bytes := if rest.length = data.length then [] else rest

/-- The loop of `grep`, with `buf` in the buffer and the pieces that are still to be read. -/
def grepLoop (pattern : Bytes) : (buf : Bytes) → List Bytes → Bytes
  | _, [] => []
  | buf, piece :: pieces =>
    let r := lineLoop pattern [] (buf ++ piece)
    r.1 ++ grepLoop pattern (carry (buf ++ piece) r.2) pieces

def grep (pattern : Bytes) (pieces : List Bytes) : Bytes := grepLoop pattern [] pieces

/-- The pieces are what calls of `read` with room for `sizeof(buf)-m-1` bytes may return. -/
def Delivered : (buf : Bytes) → List Bytes → Prop
  | _, [] => True
  | buf, piece :: pieces => piece ≠ [] ∧ buf.length + piece.length ≤ 1024 - 1 ∧
    Delivered (carry (buf ++ piece) (lineLoop [] [] (buf ++ piece)).2) pieces

/-! ## Lines -/

def IsLine (l : Bytes) : Prop := newline ∉ l ∧ 0 ∉ l

def joined (ls : List Bytes) : Bytes := ls.flatMap (· ++ [newline])

@[simp] theorem joined_nil : joined [] = [] := rfl

@[simp] theorem joined_cons (l : Bytes) (ls : List Bytes) :
    joined (l :: ls) = l ++ newline :: joined ls := by simp [joined]

def matching (pattern : Bytes) (ls : List Bytes) : Bytes := joined (ls.filter (matchRe pattern))

variable {pattern line l rest data buf : Bytes} {ls ls₁ : List Bytes}

theorem zero_notMem_joined (hls : ∀ l ∈ ls, IsLine l) : 0 ∉ joined ls := by
  rw [joined, List.mem_flatMap]
  rintro ⟨l, hl, hmem⟩
  rcases List.mem_append.1 hmem with hmem | hmem
  · exact (hls l hl).2 hmem
  · exact absurd (List.mem_singleton.1 hmem) (by decide)

theorem exists_joined (h : 0 ∉ data) :
    ∃ ls rest, data = joined ls ++ rest ∧ (∀ l ∈ ls, IsLine l) ∧ IsLine rest := by
  induction data with
  | nil => exact ⟨[], [], by simp [IsLine]⟩
  | cons x data ih =>
    rw [List.mem_cons, not_or] at h
    obtain ⟨hx, h⟩ := h
    obtain ⟨ls, rest, rfl, hls, hrest⟩ := ih h
    by_cases hn : x = newline
    · exact ⟨[] :: ls, rest, by simp [hn], by simpa [IsLine] using hls, hrest⟩
    · -- the byte is the first of the line behind it
      have hcons : ∀ l, IsLine l → IsLine (x :: l) := by
        simp [IsLine, Ne.symm hn, hx]
      cases ls with
      | nil => exact ⟨[], x :: rest, by simp, by simp, hcons rest hrest⟩
      | cons l ls =>
        obtain ⟨hl, hls⟩ := List.forall_mem_cons.1 hls
        exact ⟨(x :: l) :: ls, rest, by simp, List.forall_mem_cons.2 ⟨hcons l hl, hls⟩, hrest⟩

theorem append_newline_inj {l₁ s t : Bytes} (hl : newline ∉ l) (hl₁ : newline ∉ l₁)
    (h : l ++ newline :: s = l₁ ++ newline :: t) : l = l₁ ∧ s = t := by
  induction l generalizing l₁ with
  | nil => cases l₁ <;> simp_all
  | cons x l ih =>
    rw [List.mem_cons, not_or] at hl
    cases l₁ with
    | nil => exact absurd (List.cons.inj h).1.symm hl.1
    | cons y l₁ =>
      rw [List.mem_cons, not_or] at hl₁
      obtain ⟨rfl, htail⟩ := List.cons.inj h
      obtain ⟨rfl, rfl⟩ := ih hl.2 hl₁.2 htail
      exact ⟨rfl, rfl⟩

theorem joined_eq_append (hls : ∀ l ∈ ls, IsLine l) (hls₁ : ∀ l ∈ ls₁, IsLine l)
    (h : joined ls = joined ls₁ ++ rest) : ∃ ls₂, ls = ls₁ ++ ls₂ ∧ rest = joined ls₂ := by
  induction ls₁ generalizing ls with
  | nil => exact ⟨ls, rfl, h.symm⟩
  | cons l₁ ls₁ ih =>
    obtain ⟨hl₁, hrest₁⟩ := List.forall_mem_cons.1 hls₁
    cases ls with
    | nil => simp at h
    | cons l ls =>
      obtain ⟨hl, hls⟩ := List.forall_mem_cons.1 hls
      rw [joined_cons, joined_cons, List.append_assoc] at h
      obtain ⟨rfl, htail⟩ := append_newline_inj hl.1 hl₁.1 h
      obtain ⟨ls₂, rfl, hrest⟩ := ih hls hrest₁ htail
      exact ⟨ls₂, rfl, hrest⟩

/-! ## A round -/

theorem lineLoop_of_isLine (h : IsLine l) (line tail : Bytes) :
    lineLoop pattern line (l ++ tail) = lineLoop pattern (line ++ l) tail := by
  induction l generalizing line with
  | nil => simp
  | cons x l ih =>
    simp only [IsLine, List.mem_cons, not_or] at h
    rw [List.cons_append, lineLoop, if_neg (Ne.symm h.2.1), if_neg (Ne.symm h.1.1),
      ih ⟨h.1.2, h.2.2⟩]
    simp

theorem lineLoop_joined (hls : ∀ l ∈ ls, IsLine l) (hrest : IsLine rest) :
    lineLoop pattern [] (joined ls ++ rest) = (matching pattern ls, rest) := by
  induction ls with
  | nil => simpa [lineLoop, matching] using lineLoop_of_isLine hrest [] []
  | cons l ls ih =>
    obtain ⟨hl, hls⟩ := List.forall_mem_cons.1 hls
    rw [joined_cons, List.append_assoc, lineLoop_of_isLine hl, List.cons_append, lineLoop,
      if_neg (by decide), if_pos rfl, ih hls, List.nil_append, matching, matching, List.filter_cons]
    split <;> simp

theorem carry_joined : carry (joined ls ++ rest) rest = if ls = [] then [] else rest := by
  cases ls with
  | nil => simp [carry]
  | cons l ls =>
    rw [carry, if_neg, if_neg (List.cons_ne_nil l ls)]
    simp
    omega

theorem newline_notMem_buf (ls : List Bytes) (hrest : IsLine rest) :
    IsLine (if ls = [] then [] else rest) := by
  split
  · simp [IsLine]
  · exact hrest

theorem ls_ne_nil_iff (hrest : IsLine rest) : newline ∈ joined ls ++ rest ↔ ls ≠ [] := by
  cases ls <;> simp [hrest.1]

/-! ## The whole input -/

theorem grepLoop_eq_matching {pieces : List Bytes} (hls : ∀ l ∈ ls, IsLine l) (hbuf : IsLine buf)
    (h : buf ++ pieces.flatten = joined ls) (hpieces : ∀ piece ∈ pieces, newline ∈ piece) :
    grepLoop pattern buf pieces = matching pattern ls := by
  induction pieces generalizing buf ls with
  | nil =>
    cases ls with
    | nil => rfl
    | cons l ls =>
      have hmem : newline ∈ buf := by simpa using congrArg (newline ∈ ·) h
      exact absurd hmem hbuf.1
  | cons piece pieces ih =>
    obtain ⟨hpiece, hpieces⟩ := List.forall_mem_cons.1 hpieces
    have hzero := zero_notMem_joined hls
    rw [List.flatten_cons, ← List.append_assoc] at h
    have hdata₀ : 0 ∉ buf ++ piece := fun hmem ↦ hzero (h ▸ List.mem_append_left _ hmem)
    obtain ⟨ls₁, rest, hdata, hls₁, hrest⟩ := exists_joined hdata₀
    rw [hdata, List.append_assoc] at h
    obtain ⟨ls₂, rfl, h₂⟩ := joined_eq_append hls hls₁ h.symm
    have hne : ls₁ ≠ [] := by
      rw [← ls_ne_nil_iff hrest, ← hdata]
      exact List.mem_append_right _ hpiece
    rw [grepLoop, hdata, lineLoop_joined hls₁ hrest, carry_joined, if_neg hne]
    dsimp only
    rw [ih (fun l hl ↦ hls l (List.mem_append_right _ hl)) hrest h₂ hpieces]
    simp [matching, joined]

theorem matching_nil (ls : List Bytes) : matching [] ls = joined ls := by
  have hall : ls.filter (matchRe []) = ls := List.filter_eq_self.2 fun l _ ↦ by
    cases l <;> simp [matchRe, matchLoop, matchhere]
  rw [matching, hall]

theorem length_grepLoop_le {pieces : List Bytes} (hbuf : IsLine buf)
    (hzero : 0 ∉ pieces.flatten) :
    (grepLoop [] buf pieces).length ≤ (buf ++ pieces.flatten).length ∧
      ((∃ piece ∈ pieces, piece ≠ [] ∧ newline ∉ piece) →
        (grepLoop [] buf pieces).length < (buf ++ pieces.flatten).length) := by
  induction pieces generalizing buf with
  | nil => simp [grepLoop]
  | cons piece pieces ih =>
    rw [List.flatten_cons, List.mem_append, not_or] at hzero
    have hdata₀ : 0 ∉ buf ++ piece := fun hmem ↦ (List.mem_append.1 hmem).elim hbuf.2 hzero.1
    obtain ⟨ls₁, rest, hdata, hls₁, hrest⟩ := exists_joined hdata₀
    obtain ⟨hle, hlt⟩ := ih (newline_notMem_buf ls₁ hrest) hzero.2
    rw [grepLoop, hdata, lineLoop_joined hls₁ hrest, carry_joined, matching_nil, List.flatten_cons,
      ← List.append_assoc, hdata]
    simp only [List.length_append] at hle hlt ⊢
    rw [List.exists_mem_cons_iff]
    by_cases hne : ls₁ = []
    · subst hne
      have hpos : piece ≠ [] → 0 < rest.length := fun hpiece ↦ by
        rw [List.length_pos_iff]
        rintro rfl
        simp_all
      simp only [if_true, joined_nil, List.length_nil] at hle hlt ⊢
      refine ⟨by omega, ?_⟩
      rintro (⟨hpiece, -⟩ | hlater)
      · have := hpos hpiece
        omega
      · have := hlt hlater
        omega
    · rw [if_neg hne] at hle hlt ⊢
      refine ⟨by omega, ?_⟩
      rintro (⟨-, hpiece⟩ | hlater)
      · have hmem := (ls_ne_nil_iff hrest).2 hne
        rw [← hdata, List.mem_append] at hmem
        exact absurd hmem (not_or.2 ⟨hbuf.1, hpiece⟩)
      · have := hlt hlater
        omega

theorem ne_nil_of_delivered {pieces : List Bytes} (h : Delivered buf pieces) :
    ∀ piece ∈ pieces, piece ≠ [] := by
  induction pieces generalizing buf with
  | nil => simp
  | cons piece pieces ih => exact List.forall_mem_cons.2 ⟨h.1, ih h.2.2⟩

/-- **The pieces that keep the lines whole.** Let the pieces be those of an input without zeros in
which every line ends with a newline. Then `grep` writes exactly the lines that match, for every
pattern, if and only if there is a newline in every piece. -/
theorem grep_eq_matching_iff {pieces : List Bytes} (hls : ∀ l ∈ ls, IsLine l)
    (h : pieces.flatten = joined ls) (hread : Delivered [] pieces) :
    (∀ pattern, grep pattern pieces = matching pattern ls) ↔ ∀ piece ∈ pieces, newline ∈ piece := by
  have hnil : IsLine [] := by simp [IsLine]
  constructor
  · intro hall piece hmem
    by_contra hpiece
    have hzero : 0 ∉ pieces.flatten := h ▸ zero_notMem_joined hls
    have hlt :=
      (length_grepLoop_le hnil hzero).2 ⟨piece, hmem, ne_nil_of_delivered hread piece hmem, hpiece⟩
    rw [List.nil_append, ← grep, hall [], matching_nil, h] at hlt
    exact absurd hlt (Nat.lt_irrefl _)
  · intro hpieces pattern
    exact grepLoop_eq_matching hls hnil h hpieces

/-- Two lines in two pieces, the second of which ends the first line. -/
theorem grep_eq_matching_two : grep [98] [[97, 10, 98], [97, 10]] = [98, 97, 10] := by
  have h :
      (∀ pattern, grep pattern [[97, 10, 98], [97, 10]] = matching pattern [[97], [98, 97]]) ↔ _ :=
    grep_eq_matching_iff (by simp [IsLine, newline]) (by decide)
      (by simp [Delivered, carry, lineLoop, newline])
  exact (h.2 (by simp [newline]) [98]).trans (by decide)

/-- The line `ab`, delivered as `a` and the rest: only `b` is written, for the empty pattern, and
nothing for the pattern `a`. -/
theorem grep_loses_start :
    Delivered [] [[97], [98, 10]] ∧ [[97], [98, 10]].flatten = joined [[97, 98]] ∧
    grep [] [[97], [98, 10]] = [98, 10] ∧ matching [] [[97, 98]] = [97, 98, 10] ∧
    grep [97] [[97], [98, 10]] = [] ∧ matching [97] [[97, 98]] = [97, 98, 10] := by
  refine ⟨by simp [Delivered, carry, lineLoop, newline], ?_, ?_, ?_, ?_, ?_⟩ <;> decide

end OperatingSystems.Grep
