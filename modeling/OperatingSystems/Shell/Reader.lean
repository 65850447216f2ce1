import OperatingSystems.Shell.Cat

/-!
# The reader of command lines

`main` reads a line byte by byte into the array `commands`, which has 16 rows of 1024 bytes. A blank
or a tab ends the word in the current row and goes to the next row, and so does the newline, which
ends the line. A quote begins a part in which all other bytes are stored as they are; the quote that
ends it goes to the next row as well, but the column stays where it was.

Where a byte is stored only depends on what has been read before: the row is the number of
separators and closing quotes, the column the number of bytes that were stored since the last
separator. `placed` lists these places, and reading a line either fills them in or, if one of them
is outside of the array, writes there.
-/

namespace OperatingSystems.Shell

def quoteMark : UInt8 := 34

def blank : UInt8 := 32

def tab : UInt8 := 9

/-! ## The loop -/

/-- The counters of the reader, and whether it is between two quotes. -/
structure Cursor where
  command : ℕ
  index : ℕ
  quoted : Bool

structure Reader where
  commands : ℕ → ℕ → UInt8
  cursor : Cursor
  /-- The last byte that was read. -/
  c : UInt8

inductive Progress where
  | more (r : Reader)
  | line (commands : ℕ → ℕ → UInt8)
  /-- A store outside of `commands`. -/
  | fault

def setByte (commands : ℕ → ℕ → UInt8) (row col : ℕ) (c : UInt8) : ℕ → ℕ → UInt8 :=
  fun row' col' ↦ if row' = row ∧ col' = col then c else commands row' col'

namespace Reader

/-- `commands[command][index++] = c` -/
def put (r : Reader) : Progress :=
  if r.cursor.command < argumentsSize ∧ r.cursor.index < rowSize then
    .more { r with
      commands := setByte r.commands r.cursor.command r.cursor.index r.c
      cursor := { r.cursor with index := r.cursor.index + 1 } }
  else .fault

/-- The reader gets the byte `c`. -/
def take (r : Reader) (c : UInt8) : Progress :=
  let r := { r with c := c }
  if r.cursor.quoted then
    if c = quoteMark then
      .more { r with cursor := { r.cursor with command := r.cursor.command + 1, quoted := false } }
    else r.put
  else if c = quoteMark then .more { r with cursor := { r.cursor with quoted := true } }
  else if c = blank ∨ c = tab ∨ c = newline then
    if c = newline then .line r.commands
    -- `index` is set when the outer loop goes on
    else .more { r with cursor := ⟨r.cursor.command + 1, 0, false⟩ }
  else r.put

/-- The reader gets the bytes of a list, up to the end of the line. -/
def readAll : Reader → Bytes → Progress
  | r, [] => .more r
  | r, c :: l =>
    match r.take c with
    | .more r => r.readAll l
    | .line commands => .line commands
    | .fault => .fault

def fresh : Reader where
  commands := fun _ _ ↦ 0
  cursor := ⟨0, 0, false⟩
  c := 0

end Reader

/-! ## Places -/

structure Cell where
  row : ℕ
  col : ℕ
  byte : UInt8

def Cell.InRange (x : Cell) : Prop := x.row < argumentsSize ∧ x.col < rowSize

instance (x : Cell) : Decidable x.InRange := inferInstanceAs (Decidable (_ ∧ _))

def write (commands : ℕ → ℕ → UInt8) (cells : List Cell) : ℕ → ℕ → UInt8 :=
  cells.foldl (fun m x ↦ setByte m x.row x.col x.byte) commands

variable {p : Cursor} {l : Bytes}

namespace Cursor

def Ends (p : Cursor) (c : UInt8) : Prop := p.quoted = false ∧ c = newline

def Stores (p : Cursor) (c : UInt8) : Prop :=
  c ≠ quoteMark ∧ (p.quoted = false → c ≠ blank ∧ c ≠ tab ∧ c ≠ newline)

instance (p : Cursor) (c : UInt8) : Decidable (p.Stores c) := inferInstanceAs (Decidable (_ ∧ _))

def step (p : Cursor) (c : UInt8) : Cursor :=
  if c = quoteMark then ⟨p.command + if p.quoted then 1 else 0, p.index, !p.quoted⟩
  else if p.Stores c then ⟨p.command, p.index + 1, p.quoted⟩
  else ⟨p.command + 1, 0, false⟩

def advance (p : Cursor) (l : Bytes) : Cursor := l.foldl step p

def placed : Cursor → Bytes → List Cell
  | _, [] => []
  | p, c :: l =>
      if p.Stores c then ⟨p.command, p.index, c⟩ :: placed (p.step c) l else placed (p.step c) l

def Inner : Cursor → Bytes → Prop
  | _, [] => True
  | p, c :: l => ¬ p.Ends c ∧ Inner (p.step c) l

instance (p : Cursor) (c : UInt8) : Decidable (p.Ends c) := inferInstanceAs (Decidable (_ ∧ _))

instance decidableInner : (p : Cursor) → (l : Bytes) → Decidable (p.Inner l)
  | _, [] => inferInstanceAs (Decidable True)
  | p, c :: l =>
    have := decidableInner (p.step c) l
    inferInstanceAs (Decidable (_ ∧ _))

theorem placed_append (l l' : Bytes) : ∀ p : Cursor,
    p.placed (l ++ l') = p.placed l ++ (p.advance l).placed l' := by
  induction l with
  | nil => exact fun _ ↦ rfl
  | cons c l ih =>
    intro p
    rw [List.cons_append, placed, placed, ih]
    split <;> rfl

theorem inner_append (l l' : Bytes) : ∀ p : Cursor,
    p.Inner (l ++ l') ↔ p.Inner l ∧ (p.advance l).Inner l' := by
  induction l with
  | nil => exact fun _ ↦ (and_iff_right trivial).symm
  | cons c l ih =>
    intro p
    rw [List.cons_append, Inner, Inner, ih, and_assoc]
    rfl

theorem advance_append (p : Cursor) (l l' : Bytes) :
    p.advance (l ++ l') = (p.advance l).advance l' := List.foldl_append

/-- From `p` the bytes `l` lead to `q`, within a line, and are stored in `cells`. -/
structure Reads (p : Cursor) (l : Bytes) (cells : List Cell) (q : Cursor) : Prop where
  inner : p.Inner l
  placed : p.placed l = cells
  advance : p.advance l = q

theorem Reads.nil (p : Cursor) : p.Reads [] [] p := ⟨trivial, rfl, rfl⟩

theorem Reads.append {q q' : Cursor} {l' : Bytes} {cells cells' : List Cell}
    (h : p.Reads l cells q) (h' : q.Reads l' cells' q') :
    p.Reads (l ++ l') (cells ++ cells') q' where
  inner := (inner_append l l' p).2 ⟨h.inner, h.advance ▸ h'.inner⟩
  placed := by rw [placed_append, h.placed, h.advance, h'.placed]
  advance := by rw [advance_append, h.advance, h'.advance]

end Cursor

/-! ## Reading -/

namespace Reader

section Take

variable {r : Reader} {c : UInt8}

theorem take_ends (h : r.cursor.Ends c) : r.take c = .line r.commands := by
  obtain ⟨hq, rfl⟩ := h
  rw [take]
  dsimp only
  rw [if_neg (hq ▸ Bool.false_ne_true), if_neg (by decide), if_pos (.inr (.inr rfl)), if_pos rfl]

theorem step_of_stores (h : p.Stores c) : p.step c = ⟨p.command, p.index + 1, p.quoted⟩ := by
  rw [Cursor.step, if_neg h.1, if_pos h]

theorem take_stores (h : r.cursor.Stores c) : r.take c =
    if r.cursor.command < argumentsSize ∧ r.cursor.index < rowSize then
      .more ⟨setByte r.commands r.cursor.command r.cursor.index c, r.cursor.step c, c⟩
    else .fault := by
  rw [step_of_stores h, take]
  dsimp only
  by_cases hq : r.cursor.quoted = true
  · rw [if_pos hq, if_neg h.1, put]
  · obtain ⟨hb, ht, hn⟩ := h.2 (Bool.eq_false_iff.2 hq)
    rw [if_neg hq, if_neg h.1, if_neg (by rintro (h | h | h) <;> contradiction), put]

theorem step_quote :
    p.step quoteMark = ⟨p.command + if p.quoted then 1 else 0, p.index, !p.quoted⟩ := if_pos rfl

theorem step_separator (hc : c ≠ quoteMark) (h : ¬ p.Stores c) :
    p.step c = ⟨p.command + 1, 0, false⟩ := by
  rw [Cursor.step, if_neg hc, if_neg h]

theorem take_skips (hend : ¬ r.cursor.Ends c) (h : ¬ r.cursor.Stores c) :
    r.take c = .more ⟨r.commands, r.cursor.step c, c⟩ := by
  rw [take]
  dsimp only
  by_cases hc : c = quoteMark
  · subst hc
    rw [step_quote, if_pos rfl]
    by_cases hq : r.cursor.quoted = true
    · rw [if_pos hq, if_pos hq, hq]
      rfl
    · rw [if_neg hq, if_pos rfl, if_neg hq, Bool.eq_false_iff.2 hq]
      rfl
  · have hq : r.cursor.quoted = false := by
      by_contra hq
      exact h ⟨hc, fun hq' ↦ absurd hq' hq⟩
    have hn : c ≠ newline := fun hn ↦ hend ⟨hq, hn⟩
    have hsep : c = blank ∨ c = tab ∨ c = newline := by
      by_contra hsep
      obtain ⟨hb, hsep⟩ := not_or.1 hsep
      exact h ⟨hc, fun _ ↦ ⟨hb, (not_or.1 hsep).1, hn⟩⟩
    rw [step_separator hc h, if_neg (hq ▸ Bool.false_ne_true), if_neg hc, if_pos hsep, if_neg hn]

end Take

/-- **Reading the inside of a line.** Either every byte has a place in the array, and the array is
filled in, or the reader writes outside of it. -/
theorem readAll_inner (l : Bytes) : ∀ r : Reader, r.cursor.Inner l →
    ((∀ x ∈ r.cursor.placed l, x.InRange) ∧ r.readAll l =
      .more ⟨write r.commands (r.cursor.placed l), r.cursor.advance l, l.getLast?.getD r.c⟩) ∨
    ((∃ x ∈ r.cursor.placed l, ¬ x.InRange) ∧ r.readAll l = .fault) := by
  induction l with
  | nil => exact fun r _ ↦ .inl ⟨fun _ h ↦ absurd h List.not_mem_nil, rfl⟩
  | cons c l ih =>
    rintro r ⟨hend, hinner⟩
    have hlast : ∀ b, (c :: l).getLast?.getD b = l.getLast?.getD c := by
      intro b
      rw [List.getLast?_cons, Option.getD_some]
    rw [readAll, Cursor.placed]
    by_cases hs : r.cursor.Stores c
    · rw [if_pos hs, take_stores hs]
      by_cases hr : r.cursor.command < argumentsSize ∧ r.cursor.index < rowSize
      · rw [if_pos hr]
        rcases ih ⟨_, r.cursor.step c, c⟩ hinner with ⟨hrange, hread⟩ | ⟨⟨x, hx, hbad⟩, hread⟩
        · refine .inl ⟨?_, hread.trans ?_⟩
          · intro x hx
            rcases List.mem_cons.1 hx with rfl | hx
            · exact hr
            · exact hrange x hx
          · rw [hlast]
            rfl
        · exact .inr ⟨⟨x, List.mem_cons_of_mem _ hx, hbad⟩, hread⟩
      · rw [if_neg hr]
        exact .inr ⟨⟨_, List.mem_cons_self, hr⟩, rfl⟩
    · rw [if_neg hs, take_skips hend hs]
      rcases ih ⟨r.commands, r.cursor.step c, c⟩ hinner with ⟨hrange, hread⟩ | hbad
      · refine .inl ⟨hrange, hread.trans ?_⟩
        rw [hlast]
        rfl
      · exact .inr hbad

theorem readAll_append (l l' : Bytes) : ∀ r : Reader, r.readAll (l ++ l') =
    match r.readAll l with
    | .more r => r.readAll l'
    | .line commands => .line commands
    | .fault => .fault := by
  induction l with
  | nil => exact fun _ ↦ rfl
  | cons c l ih =>
    intro r
    rw [List.cons_append, readAll, readAll]
    cases r.take c with
    | more r => exact ih r
    | line commands => rfl
    | fault => rfl

end Reader

/-- A whole line, without the newline that ends it: no byte ends it before, and no quote is left
open. -/
def Whole (l : Bytes) : Prop :=
  (⟨0, 0, false⟩ : Cursor).Inner l ∧ ((⟨0, 0, false⟩ : Cursor).advance l).quoted = false

instance (l : Bytes) : Decidable (Whole l) := inferInstanceAs (Decidable (_ ∧ _))

def cells (l : Bytes) : List Cell := (⟨0, 0, false⟩ : Cursor).placed l

theorem readAll_line (h : Whole l) (rest : Bytes) :
    ((∀ x ∈ cells l, x.InRange) ∧ Reader.fresh.readAll (l ++ newline :: rest) =
      .line (write (fun _ _ ↦ 0) (cells l))) ∨
    ((∃ x ∈ cells l, ¬ x.InRange) ∧ Reader.fresh.readAll (l ++ newline :: rest) = .fault) := by
  rw [Reader.readAll_append]
  rcases Reader.readAll_inner l .fresh h.1 with ⟨hrange, hread⟩ | ⟨hbad, hread⟩
  · refine .inl ⟨hrange, ?_⟩
    rw [hread]
    dsimp only
    rw [Reader.readAll, Reader.take_ends ⟨h.2, rfl⟩]
    rfl
  · refine .inr ⟨hbad, ?_⟩
    rw [hread]

end OperatingSystems.Shell
