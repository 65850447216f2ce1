import OperatingSystems.Lib.CString
import OperatingSystems.Shell.Reader

/-!
# The words of a command line

A command line is made of words, quoted or not, with blanks and tabs between them. The reader goes
to the next row at each blank or tab and once more at each closing quote, so the row a word gets is
the number of separators and of quoted words before it. This is the number of the word as long as
there is exactly one separator between words, none before the first, and no quotes; a word in a
later row leaves its own row empty.
-/

namespace OperatingSystems.Shell

/-! ## Command lines -/

structure Token where
  quoted : Bool
  text : Bytes
  ok : if quoted then quoteMark ∉ text
    else text ≠ [] ∧ ∀ c ∈ text, c ≠ quoteMark ∧ c ≠ blank ∧ c ≠ tab ∧ c ≠ newline

def Token.written (t : Token) : Bytes :=
  if t.quoted then quoteMark :: t.text ++ [quoteMark] else t.text

def IsGap (g : Bytes) : Prop := ∀ c ∈ g, c = blank ∨ c = tab

/-- At most 15 words, each with the gap behind it. -/
structure CommandLine where
  lead : Bytes
  words : List (Token × Bytes)
  lead_gap : IsGap lead
  gaps : ∀ w ∈ words, IsGap w.2
  apart : ∀ w ∈ words.dropLast, w.2 ≠ []
  few : words.length ≤ 15

namespace CommandLine

def written (line : CommandLine) : Bytes :=
  line.lead ++ line.words.flatMap fun w ↦ w.1.written ++ w.2

def texts (line : CommandLine) : List Bytes := line.words.map (·.1.text)

/-- The number of separators and of quoted words before the word `i`. -/
def rowOf (line : CommandLine) (i : ℕ) : ℕ :=
  (line.words.take i).foldl (fun n w ↦ n + (w.2.length + if w.1.quoted then 1 else 0))
    line.lead.length

end CommandLine

/-- Each word is in the row of its number, without its quotes, and the other rows are empty. -/
def InOrder (line : CommandLine) : Prop :=
  ∃ commands, Reader.fresh.readAll (line.written ++ [newline]) = .line commands ∧
    ∀ i < argumentsSize, CArray.text rowSize (commands i) = some (line.texts.getD i [])

/-! ## Where a word is stored -/

def cellsFrom (row : ℕ) : (col : ℕ) → Bytes → List Cell
  | _, [] => []
  | col, c :: l => ⟨row, col, c⟩ :: cellsFrom row (col + 1) l

def rowsFrom : (row : ℕ) → List (Token × Bytes) → List (ℕ × Bytes)
  | _, [] => []
  | row, w :: words =>
    (row, w.1.text) :: rowsFrom (row + (w.2.length + if w.1.quoted then 1 else 0)) words

section Reads

theorem reads_stored (row : ℕ) (quoted : Bool) (l : Bytes) : ∀ col : ℕ,
    (∀ c ∈ l, (⟨row, 0, quoted⟩ : Cursor).Stores c) →
    Cursor.Reads ⟨row, col, quoted⟩ l (cellsFrom row col l) ⟨row, col + l.length, quoted⟩ := by
  induction l with
  | nil => exact fun col _ ↦ .nil _
  | cons c l ih =>
    intro col h
    have hc : (⟨row, col, quoted⟩ : Cursor).Stores c := h c List.mem_cons_self
    have hrest := ih (col + 1) fun c hc ↦ h c (List.mem_cons_of_mem _ hc)
    have hfirst : Cursor.Reads ⟨row, col, quoted⟩ [c] [⟨row, col, c⟩] ⟨row, col + 1, quoted⟩ :=
      ⟨⟨fun hend ↦ (hc.2 hend.1).2.2 hend.2, trivial⟩, if_pos hc, Reader.step_of_stores hc⟩
    rw [List.length_cons, ← Nat.add_assoc, Nat.add_right_comm]
    exact hfirst.append hrest

theorem reads_separator (row col : ℕ) {c : UInt8} (hc : c = blank ∨ c = tab) :
    Cursor.Reads ⟨row, col, false⟩ [c] [] ⟨row + 1, 0, false⟩ := by
  have hstores : ¬ (⟨row, col, false⟩ : Cursor).Stores c := by
    rintro ⟨-, h⟩
    exact hc.elim (h rfl).1 (h rfl).2.1
  have hmark : c ≠ quoteMark := by
    rcases hc with rfl | rfl <;> decide
  have hn : c ≠ newline := by
    rcases hc with rfl | rfl <;> decide
  exact ⟨⟨fun hend ↦ hn hend.2, trivial⟩, if_neg hstores, Reader.step_separator hmark hstores⟩

theorem reads_quote (row col : ℕ) (quoted : Bool) : Cursor.Reads ⟨row, col, quoted⟩ [quoteMark] []
    ⟨row + if quoted then 1 else 0, col, !quoted⟩ :=
  ⟨⟨fun hend ↦ absurd hend.2 (by decide), trivial⟩, if_neg fun h ↦ h.1 rfl, Reader.step_quote⟩

theorem reads_gap (g : Bytes) (h : IsGap g) : ∀ row col : ℕ,
    Cursor.Reads ⟨row, col, false⟩ g [] ⟨row + g.length, if g = [] then col else 0, false⟩ := by
  induction g with
  | nil => exact fun _ _ ↦ .nil _
  | cons c g ih =>
    intro row col
    have hfirst := reads_separator row col (h c List.mem_cons_self)
    have hrest := ih (fun c hc ↦ h c (List.mem_cons_of_mem _ hc)) (row + 1) 0
    rw [ite_self] at hrest
    rw [if_neg (List.cons_ne_nil _ _), List.length_cons, ← Nat.add_assoc, Nat.add_right_comm]
    exact hfirst.append hrest

theorem reads_token (row : ℕ) (t : Token) :
    Cursor.Reads ⟨row, 0, false⟩ t.written (cellsFrom row 0 t.text)
      ⟨row + if t.quoted then 1 else 0, t.text.length, false⟩ := by
  have hok := t.ok
  unfold Token.written
  by_cases hq : t.quoted = true
  · rw [if_pos hq] at hok
    rw [if_pos hq, if_pos hq]
    have hstores : ∀ c ∈ t.text, (⟨row, 0, true⟩ : Cursor).Stores c :=
      fun c hc ↦ ⟨fun h ↦ hok (h ▸ hc), fun h ↦ Bool.noConfusion h⟩
    have htext := reads_stored row true t.text 0 hstores
    have hall := ((reads_quote row 0 false).append htext).append (reads_quote row _ true)
    rw [List.append_nil, Nat.zero_add] at hall
    exact hall
  · rw [if_neg hq] at hok
    rw [if_neg hq, if_neg hq]
    have hstores : ∀ c ∈ t.text, (⟨row, 0, false⟩ : Cursor).Stores c :=
      fun c hc ↦ ⟨(hok.2 c hc).1, fun _ ↦ (hok.2 c hc).2⟩
    have htext := reads_stored row false t.text 0 hstores
    rw [Nat.zero_add] at htext
    exact htext

theorem reads_words (words : List (Token × Bytes)) (hgaps : ∀ w ∈ words, IsGap w.2) : ∀ row : ℕ,
    (∀ w ∈ words.dropLast, w.2 ≠ []) →
    ∃ q : Cursor, q.quoted = false ∧
      Cursor.Reads ⟨row, 0, false⟩ (words.flatMap fun w ↦ w.1.written ++ w.2)
        ((rowsFrom row words).flatMap fun e ↦ cellsFrom e.1 0 e.2) q := by
  induction words with
  | nil => exact fun row _ ↦ ⟨_, rfl, .nil _⟩
  | cons w words ih =>
    intro row hapart
    have hword := (reads_token row w.1).append (reads_gap w.2 (hgaps w List.mem_cons_self) _ _)
    rw [List.append_nil] at hword
    by_cases hlast : words = []
    · subst hlast
      rw [List.flatMap_singleton, rowsFrom, rowsFrom, List.flatMap_singleton]
      exact ⟨_, by rfl, hword⟩
    · have hne : w.2 ≠ [] := by
        refine hapart w ?_
        rw [List.dropLast_cons_of_ne_nil hlast]
        exact List.mem_cons_self
      obtain ⟨q, hq, hrest⟩ := ih (fun v hv ↦ hgaps v (List.mem_cons_of_mem _ hv))
        (row + (w.2.length + if w.1.quoted then 1 else 0)) (by
          intro v hv
          refine hapart v ?_
          rw [List.dropLast_cons_of_ne_nil hlast]
          exact List.mem_cons_of_mem _ hv)
      rw [if_neg hne, Nat.add_right_comm, Nat.add_assoc] at hword
      exact ⟨q, hq, hword.append hrest⟩

end Reads

/-! ## What the rows hold -/

/-- The text that a list of rows has in the row `r`. -/
def textAt (rows : List (ℕ × Bytes)) (r : ℕ) : Bytes :=
  ((rows.find? fun e ↦ decide (e.1 = r)).map Prod.snd).getD []

theorem write_append (m : ℕ → ℕ → UInt8) (as bs : List Cell) :
    write m (as ++ bs) = write (write m as) bs := List.foldl_append

variable {row r : ℕ}

theorem write_cellsFrom (l : Bytes) (k : ℕ) : ∀ (col : ℕ) (m : ℕ → ℕ → UInt8),
    write m (cellsFrom row col l) r k =
      if r = row ∧ col ≤ k ∧ k < col + l.length then l.getD (k - col) 0 else m r k := by
  induction l with
  | nil =>
    intro col m
    rw [if_neg fun h ↦ absurd h.2.2 (Nat.not_lt.2 h.2.1)]
    rfl
  | cons c l ih =>
    intro col m
    have hwrite : write m (cellsFrom row col (c :: l)) r k =
        write (setByte m row col c) (cellsFrom row (col + 1) l) r k := rfl
    rw [hwrite, ih, List.length_cons, setByte]
    by_cases hr : r = row
    · rcases Nat.lt_trichotomy k col with hk | rfl | hk
      · rw [if_neg (by omega), if_neg (by omega), if_neg (by omega)]
      · rw [if_neg (by omega), if_pos ⟨hr, rfl⟩, if_pos ⟨hr, by omega⟩, Nat.sub_self]
        rfl
      · obtain ⟨j, rfl⟩ := Nat.exists_eq_add_of_lt hk
        have hj : col + j + 1 - col = j + 1 := by omega
        have hj' : col + j + 1 - (col + 1) = j := by omega
        rw [hj, hj', List.getD_cons_succ]
        by_cases hlt : j < l.length
        · rw [if_pos ⟨hr, by omega⟩, if_pos ⟨hr, by omega⟩]
        · rw [if_neg (by omega), if_neg (by omega), if_neg (by omega)]
    · rw [if_neg fun h ↦ hr h.1, if_neg fun h ↦ hr h.1, if_neg fun h ↦ hr h.1]

theorem write_rows (k : ℕ) (rows : List (ℕ × Bytes)) (h : rows.Pairwise (·.1 < ·.1)) :
    ∀ m : ℕ → ℕ → UInt8, write m (rows.flatMap fun e ↦ cellsFrom e.1 0 e.2) r k =
      if k < (textAt rows r).length then (textAt rows r).getD k 0 else m r k := by
  induction rows with
  | nil => exact fun _ ↦ rfl
  | cons e rows ih =>
    intro m
    obtain ⟨hlt, hrest⟩ := List.pairwise_cons.1 h
    rw [List.flatMap_cons, write_append, ih hrest, write_cellsFrom, Nat.sub_zero, Nat.zero_add]
    by_cases he : e.1 = r
    · have hother : textAt rows r = [] := by
        have hnone : rows.find? (fun e ↦ decide (e.1 = r)) = none := by
          rw [List.find?_eq_none]
          intro e' he'
          have := hlt e' he'
          simp only [decide_eq_true_eq]
          omega
        rw [textAt, hnone]
        rfl
      have hself : textAt (e :: rows) r = e.2 := by
        rw [textAt, List.find?_cons_of_pos (by simpa using he)]
        rfl
      rw [hother, hself]
      simp only [List.length_nil, Nat.not_lt_zero, if_false, he, true_and, Nat.zero_le]
    · have hself : textAt (e :: rows) r = textAt rows r := by
        rw [textAt, List.find?_cons_of_neg (by simpa using he)]
        rfl
      have hrow : ¬(r = e.1 ∧ 0 ≤ k ∧ k < e.2.length) := fun h ↦ he h.1.symm
      rw [hself, if_neg hrow]

theorem le_of_mem_rowsFrom (words : List (Token × Bytes)) : ∀ {row : ℕ},
    ∀ e ∈ rowsFrom row words, row ≤ e.1 := by
  induction words with
  | nil => exact fun _ h ↦ absurd h List.not_mem_nil
  | cons w words ih =>
    intro row e he
    rcases List.mem_cons.1 he with rfl | he
    · exact Nat.le_refl _
    · exact (Nat.le_add_right _ _).trans (ih e he)

theorem pairwise_rowsFrom (words : List (Token × Bytes)) : ∀ {row : ℕ},
    (∀ w ∈ words.dropLast, w.2 ≠ []) → (rowsFrom row words).Pairwise (·.1 < ·.1) := by
  induction words with
  | nil => exact fun _ ↦ List.Pairwise.nil
  | cons w words ih =>
    intro row hapart
    by_cases hlast : words = []
    · subst hlast
      exact List.pairwise_singleton _ _
    · rw [List.dropLast_cons_of_ne_nil hlast] at hapart
      have hpos := List.length_pos_of_ne_nil (hapart w List.mem_cons_self)
      refine List.pairwise_cons.2
        ⟨fun e he ↦ ?_, ih fun v hv ↦ hapart v (List.mem_cons_of_mem _ hv)⟩
      have hle := le_of_mem_rowsFrom words e he
      dsimp only
      omega

theorem getElem?_rowsFrom (words : List (Token × Bytes)) : ∀ (row i : ℕ),
    (rowsFrom row words)[i]? = words[i]?.map fun w ↦
      ((words.take i).foldl (fun n w ↦ n + (w.2.length + if w.1.quoted then 1 else 0)) row,
        w.1.text) := by
  induction words with
  | nil => exact fun _ _ ↦ rfl
  | cons w words ih =>
    intro row i
    match i with
    | 0 => rfl
    | i + 1 =>
      rw [rowsFrom, List.getElem?_cons_succ, ih, List.getElem?_cons_succ, List.take_succ_cons,
        List.foldl_cons]

namespace CommandLine

variable (line : CommandLine) {i : ℕ}

def rows : List (ℕ × Bytes) := rowsFrom line.lead.length line.words

theorem reads_written : ∃ q : Cursor, q.quoted = false ∧
    Cursor.Reads ⟨0, 0, false⟩ line.written (line.rows.flatMap fun e ↦ cellsFrom e.1 0 e.2) q := by
  have hlead := reads_gap line.lead line.lead_gap 0 0
  rw [ite_self, Nat.zero_add] at hlead
  obtain ⟨q, hq, hwords⟩ := reads_words line.words line.gaps line.lead.length line.apart
  exact ⟨q, hq, hlead.append hwords⟩

theorem pairwise_rows : line.rows.Pairwise (·.1 < ·.1) := pairwise_rowsFrom _ line.apart

theorem getElem?_rows (i : ℕ) :
    line.rows[i]? = line.texts[i]?.map fun text ↦ (line.rowOf i, text) := by
  rw [rows, getElem?_rowsFrom, texts, List.getElem?_map, Option.map_map]
  rfl

theorem le_rowOf (hi : i < line.words.length) : i ≤ line.rowOf i := by
  induction i with
  | zero => exact Nat.zero_le _
  | succ i ih =>
    have hlt : i < line.words.length := Nat.lt_of_succ_lt hi
    have hmem : line.words[i] ∈ line.words.dropLast := by
      have hdrop : i < line.words.dropLast.length := by
        rw [List.length_dropLast]
        omega
      rw [← List.getElem_dropLast hdrop]
      exact List.getElem_mem hdrop
    have hpos := List.length_pos_of_ne_nil (line.apart _ hmem)
    have hle := ih hlt
    rw [rowOf] at hle ⊢
    rw [List.take_succ_eq_append_getElem hlt, List.foldl_append, List.foldl_cons, List.foldl_nil]
    omega

theorem exists_of_textAt (h : textAt line.rows r ≠ []) :
    ∃ j, line.texts[j]? = some (textAt line.rows r) ∧ line.rowOf j = r := by
  cases hfind : line.rows.find? (fun e ↦ decide (e.1 = r)) with
  | none =>
    rw [textAt, hfind] at h
    exact absurd rfl h
  | some e =>
    obtain ⟨j, hj⟩ := List.mem_iff_getElem?.1 (List.mem_of_find?_eq_some hfind)
    have hrow : e.1 = r := by simpa using List.find?_some hfind
    have htext : textAt line.rows r = e.2 := by
      rw [textAt, hfind]
      rfl
    rw [getElem?_rows, Option.map_eq_some_iff] at hj
    obtain ⟨text, hj, rfl⟩ := hj
    exact ⟨j, htext ▸ hj, hrow⟩

theorem textAt_rowOf {text : Bytes} (h : line.texts[i]? = some text) :
    textAt line.rows (line.rowOf i) = text := by
  have hrow : line.rows[i]? = some (line.rowOf i, text) := by
    rw [getElem?_rows, h]
    rfl
  have hfind :
      line.rows.find? (fun e ↦ decide (e.1 = line.rowOf i)) = some (line.rowOf i, text) := by
    rw [List.find?_eq_some_iff_getElem]
    obtain ⟨hi, hget⟩ := List.getElem?_eq_some_iff.1 hrow
    refine ⟨by simp, i, hi, hget, fun j hj ↦ ?_⟩
    have hlt := List.pairwise_iff_getElem.1 line.pairwise_rows j i (hj.trans hi) hi hj
    rw [hget] at hlt
    simpa using Nat.ne_of_lt hlt
  rw [textAt, hfind]
  rfl

end CommandLine

/-! ## The line as a whole -/

section InOrder

variable {line : CommandLine}

theorem readAll_written (line : CommandLine) :
    ((∀ e ∈ line.rows, ∀ x ∈ cellsFrom e.1 0 e.2, x.InRange) ∧
      ∃ commands, Reader.fresh.readAll (line.written ++ [newline]) = .line commands ∧
        ∀ r, commands r = fun k ↦ (textAt line.rows r).getD k 0) ∨
    ((∃ e ∈ line.rows, ∃ x ∈ cellsFrom e.1 0 e.2, ¬ x.InRange) ∧
      Reader.fresh.readAll (line.written ++ [newline]) = .fault) := by
  obtain ⟨q, hq, hreads⟩ := line.reads_written
  have hwhole : Whole line.written := ⟨hreads.inner, hreads.advance ▸ hq⟩
  have hcells : cells line.written = line.rows.flatMap fun e ↦ cellsFrom e.1 0 e.2 := hreads.placed
  have hline := readAll_line hwhole []
  rw [hcells] at hline
  simp only [List.mem_flatMap] at hline
  rcases hline with ⟨hrange, hread⟩ | ⟨⟨x, ⟨e, he, hx⟩, hbad⟩, hread⟩
  · refine .inl ⟨fun e he x hx ↦ hrange x ⟨e, he, hx⟩, _, hread, fun r ↦ ?_⟩
    funext k
    rw [write_rows k _ line.pairwise_rows]
    split
    · rfl
    · next hk => rw [List.getD_eq_default _ _ (Nat.not_lt.1 hk)]
  · exact .inr ⟨⟨e, he, x, hx, hbad⟩, hread⟩

theorem mem_cellsFrom {x : Cell} (l : Bytes) : ∀ {col : ℕ}, x ∈ cellsFrom row col l →
    x.row = row ∧ x.col < col + l.length := by
  induction l with
  | nil => exact fun h ↦ absurd h List.not_mem_nil
  | cons c l ih =>
    intro col h
    rw [List.length_cons]
    rcases List.mem_cons.1 h with rfl | h
    · exact ⟨rfl, by dsimp only; omega⟩
    · obtain ⟨hrow, hcol⟩ := ih h
      exact ⟨hrow, by omega⟩

/-- **When each word gets the row of its number.** This is so just when every word has at most 1023
bytes, none of them zero, and is empty or has as many separators and quoted words before it as
words. -/
theorem inOrder_iff (line : CommandLine) : InOrder line ↔
    ∀ i text, line.texts[i]? = some text →
      (0 : UInt8) ∉ text ∧ text.length < rowSize ∧ (text ≠ [] → line.rowOf i = i) := by
  have hlen : line.texts.length = line.words.length := List.length_map _
  have hlt : ∀ {i text}, line.texts[i]? = some text → i < line.words.length :=
    fun h ↦ hlen ▸ (List.getElem?_eq_some_iff.1 h).1
  constructor
  · rintro ⟨commands, hread, hrows⟩
    rcases readAll_written line with ⟨-, commands', hread', hget⟩ | ⟨-, hfault⟩
    · obtain rfl : commands' = commands := Progress.line.inj (hread'.symm.trans hread)
      intro i
      -- a word in another row leaves its own row to an earlier one, which is in its own row
      induction i using Nat.strongRecOn with
      | ind i ih =>
        intro text hi
        have hrow := hrows i ((hlt hi).trans_le (line.few.trans (by decide)))
        rw [hget, List.getD_eq_getElem?_getD, hi, Option.getD_some] at hrow
        obtain ⟨hsize, h₀, heq⟩ := CArray.of_text_eq_some hrow
        refine ⟨h₀, hsize, fun hne ↦ ?_⟩
        have htext : textAt line.rows i ≠ [] := by
          intro hnil
          have hpos := List.length_pos_of_ne_nil hne
          have hzero : (0 : UInt8) = text[0] := by
            rw [← List.getD_eq_getElem text 0 hpos, ← heq 0 hpos, hnil]
            rfl
          exact h₀ (hzero ▸ List.getElem_mem hpos)
        obtain ⟨j, hj, hjrow⟩ := line.exists_of_textAt htext
        have hle := line.le_rowOf (hlt hj)
        rcases Nat.lt_or_ge j i with hji | hji
        · have := (ih j hji _ hj).2.2 htext
          omega
        · obtain rfl : j = i := by omega
          exact hjrow
    · rw [hfault] at hread
      cases hread
  · intro h
    have hat : ∀ i, textAt line.rows i = line.texts.getD i [] := by
      intro i
      rw [List.getD_eq_getElem?_getD]
      by_cases htext : textAt line.rows i = []
      · cases hi : line.texts[i]? with
        | none => exact htext
        | some text =>
          by_contra hne
          have hrow := (h i text hi).2.2 fun hnil ↦ hne (htext.trans hnil.symm)
          have hself := line.textAt_rowOf hi
          rw [hrow] at hself
          exact hne hself
      · obtain ⟨j, hj, hjrow⟩ := line.exists_of_textAt htext
        obtain rfl : j = i := ((h j _ hj).2.2 htext).symm.trans hjrow
        rw [hj, Option.getD_some]
    have hrange : ∀ e ∈ line.rows, ∀ x ∈ cellsFrom e.1 0 e.2, x.InRange := by
      intro e he x hx
      obtain ⟨j, hj⟩ := List.mem_iff_getElem?.1 he
      rw [line.getElem?_rows, Option.map_eq_some_iff] at hj
      obtain ⟨text, hj, rfl⟩ := hj
      obtain ⟨-, hsize, hrow⟩ := h j text hj
      obtain ⟨hx₁, hx₂⟩ := mem_cellsFrom _ hx
      dsimp only at hx₁ hx₂
      have hne : text ≠ [] := by
        rintro rfl
        cases hx
      have hfew := line.few
      have := hlt hj
      refine ⟨?_, by omega⟩
      rw [hx₁, hrow hne, argumentsSize]
      omega
    rcases readAll_written line with ⟨-, commands, hread, hget⟩ | ⟨⟨e, he, x, hx, hbad⟩, -⟩
    · refine ⟨commands, hread, fun i _ ↦ ?_⟩
      rw [hget, hat]
      cases hi : line.texts[i]? with
      | none =>
        rw [List.getD_eq_getElem?_getD, hi]
        exact CArray.text_getD List.not_mem_nil (by decide)
      | some text =>
        obtain ⟨h₀, hsize, -⟩ := h i text hi
        rw [List.getD_eq_getElem?_getD, hi]
        exact CArray.text_getD h₀ hsize
    · exact absurd (hrange e he x hx) hbad

end InOrder

def letter (quoted : Bool) (c : UInt8) (h : c ≠ quoteMark ∧ c ≠ blank ∧ c ≠ tab ∧ c ≠ newline) :
    Token where
  quoted := quoted
  text := [c]
  ok := by
    split
    · exact fun hmem ↦ h.1 (List.mem_singleton.1 hmem).symm
    · refine ⟨List.cons_ne_nil _ _, fun d hd ↦ ?_⟩
      exact List.mem_singleton.1 hd ▸ h

/-- `a` and `b`, with `gap` between them. -/
def twoWords (quoted : Bool) (gap : Bytes) (h : IsGap gap) (hne : gap ≠ []) : CommandLine where
  lead := []
  words := [(letter quoted 97 (by decide), gap), (letter false 98 (by decide), [])]
  lead_gap := fun c hc ↦ absurd hc List.not_mem_nil
  gaps := by
    intro w hw
    rcases List.mem_cons.1 hw with rfl | hw
    · exact h
    · rw [List.mem_singleton.1 hw]
      exact fun c hc ↦ absurd hc List.not_mem_nil
  apart := by
    intro w hw
    rw [List.mem_singleton.1 hw]
    exact hne
  few := Nat.le_add_left 2 13

theorem isGap_blanks (n : ℕ) : IsGap (List.replicate n blank) :=
  fun _ hc ↦ .inl (List.eq_of_mem_replicate hc)

/-- With two blanks between `a` and `b`, or with quotes around `a`, there is nothing in the row 1,
and `b` is in the row 2. -/
theorem words_out_of_order :
    ¬ InOrder (twoWords false [blank, blank] (isGap_blanks 2) (List.cons_ne_nil _ _)) ∧
    ¬ InOrder (twoWords true [blank] (isGap_blanks 1) (List.cons_ne_nil _ _)) := by
  constructor
  · rintro ⟨commands, hread, hrows⟩
    cases hread
    exact absurd ((CArray.of_text_eq_some (hrows 1 (by decide))).2.2 0 (by decide)) (by decide)
  · rintro ⟨commands, hread, hrows⟩
    cases hread
    exact absurd ((CArray.of_text_eq_some (hrows 1 (by decide))).2.2 0 (by decide)) (by decide)

end OperatingSystems.Shell
