import Mathlib.Data.List.Induction
import OperatingSystems.Fs.Path

/-!
# The matcher of grep

`match`, `matchhere` and `matchstar` of `grep.c` search a text for a pattern with the operators `^`,
`.`, `*` and `$`. Both are C strings, so a pattern or a text here is the list of the characters
before its zero.

The language of the patterns is given apart from the functions. A pattern is read from left to right
as a list of items, `Matched` says what part of a text the items match, and `matchRe_iff` that the
functions find such a part whenever there is one. All of them are total.
-/

namespace OperatingSystems.Grep

def caret : UInt8 := 94

def dollar : UInt8 := 36

def asterisk : UInt8 := 42

def period : UInt8 := 46

/-! ## The functions -/

/-- The loop of `matchstar`, with `here` in the place of `matchhere` on the rest of the pattern. -/
def starLoop (here : Bytes → Bool) (c : UInt8) : Bytes → Bool
  | [] => here []
  | x :: text => here (x :: text) || ((x == c || c == period) && starLoop here c text)

/-- The last two lines of `matchhere`, with `here` for the call on the rest of the pattern. -/
def matchOne (here : Bytes → Bool) (c : UInt8) : Bytes → Bool
  | [] => false
  | x :: text => (c == period || c == x) && here text

/-- `matchhere`: search for `re` at the beginning of the text. -/
def matchhere : (re text : Bytes) → Bool
  | [], _ => true
  | [c], text => if c = dollar then text.isEmpty else matchOne (matchhere []) c text
  | c :: d :: re, text =>
    if d = asterisk then starLoop (matchhere re) c text else matchOne (matchhere (d :: re)) c text

/-- `matchstar`: search for `c*re` at the beginning of the text. -/
def matchstar (c : UInt8) (re text : Bytes) : Bool := starLoop (matchhere re) c text

/-- The loop of `match` over the positions of the text, the one behind its end included. -/
def matchLoop (re : Bytes) : (text : Bytes) → Bool
  | [] => matchhere re []
  | x :: text => matchhere re (x :: text) || matchLoop re text

/-- `match`: search for the pattern anywhere in the text. -/
def matchRe (re text : Bytes) : Bool :=
  if re.head? = some caret then matchhere re.tail text else matchLoop re text

/-! ## The language -/

inductive Item where
  /-- `c*` -/
  | star (c : UInt8)
  /-- `$` at the end of the pattern. -/
  | eol
  /-- A single character, or `.` -/
  | one (c : UInt8)

def items : Bytes → List Item
  | [] => []
  | [c] => if c = dollar then [.eol] else [.one c]
  | c :: d :: re => if d = asterisk then .star c :: items re else .one c :: items (d :: re)

/-- Character `x` is one that `c` stands for. -/
def Fits (c x : UInt8) : Prop := c = period ∨ c = x

/-- The item matches `s`, where the text goes on with `after`. -/
def Item.Matches : Item → (s after : Bytes) → Prop
  | .star c, s, _ => ∀ x ∈ s, Fits c x
  | .eol, s, after => s = [] ∧ after = []
  | .one c, s, _ => ∃ x, s = [x] ∧ Fits c x

/-- The items match `s` one after the other, where the text goes on with `after`. -/
def Matched : List Item → (s after : Bytes) → Prop
  | [], s, _ => s = []
  | i :: is, s, after => ∃ s₁ s₂, s = s₁ ++ s₂ ∧ i.Matches s₁ (s₂ ++ after) ∧ Matched is s₂ after

/-- The pattern without the `^` that ties it to the beginning of the text. -/
def body (re : Bytes) : Bytes := if re.head? = some caret then re.tail else re

/-! ## The functions decide the language -/

def Begins (is : List Item) (text : Bytes) : Prop :=
  ∃ s after, text = s ++ after ∧ Matched is s after

@[simp] theorem begins_nil (text : Bytes) : Begins [] text := ⟨[], text, rfl, rfl⟩

variable {is : List Item} {c : UInt8} {here : Bytes → Bool}

theorem begins_cons {i : Item} {text : Bytes} : Begins (i :: is) text ↔
    ∃ s rest, text = s ++ rest ∧ i.Matches s rest ∧ Begins is rest := by
  constructor
  · rintro ⟨_, after, rfl, s₁, s₂, rfl, hi, his⟩
    exact ⟨s₁, s₂ ++ after, List.append_assoc .., hi, s₂, after, rfl, his⟩
  · rintro ⟨s₁, _, rfl, hi, s₂, after, rfl, his⟩
    exact ⟨s₁ ++ s₂, after, (List.append_assoc ..).symm, s₁, s₂, rfl, hi, his⟩

@[simp] theorem begins_one {text : Bytes} : Begins (.one c :: is) text ↔
    ∃ x rest, text = x :: rest ∧ Fits c x ∧ Begins is rest := by
  rw [begins_cons]
  constructor
  · rintro ⟨_, rest, rfl, ⟨x, rfl, hx⟩, h⟩
    exact ⟨x, rest, rfl, hx, h⟩
  · rintro ⟨x, rest, rfl, hx, h⟩
    exact ⟨[x], rest, rfl, ⟨x, rfl, hx⟩, h⟩

@[simp] theorem begins_eol {text : Bytes} : Begins [.eol] text ↔ text = [] := by
  simp [begins_cons, Item.Matches]

theorem starLoop_iff (h : ∀ text, here text = true ↔ Begins is text) (text : Bytes) :
    starLoop here c text = true ↔ Begins (.star c :: is) text := by
  rw [begins_cons]
  induction text with
  | nil => simp [starLoop, h, Item.Matches]
  | cons x text ih =>
    have hx : (x == c || c == period) = true ↔ Fits c x := by
      simp [Fits, or_comm, @eq_comm _ x c]
    rw [starLoop, Bool.or_eq_true, h, Bool.and_eq_true, hx, ih]
    constructor
    · rintro (hhere | ⟨hx, s, rest, rfl, hs, hrest⟩)
      · exact ⟨[], x :: text, rfl, by simp [Item.Matches], hhere⟩
      · exact ⟨x :: s, rest, rfl, List.forall_mem_cons.2 ⟨hx, hs⟩, hrest⟩
    · rintro ⟨s, rest, heq, hs, hrest⟩
      cases s with
      | nil => exact .inl (heq ▸ hrest)
      | cons y s =>
        obtain ⟨rfl, rfl⟩ := List.cons.inj heq
        obtain ⟨hx, hs⟩ := List.forall_mem_cons.1 hs
        exact .inr ⟨hx, s, rest, rfl, hs, hrest⟩

theorem matchOne_iff (h : ∀ text, here text = true ↔ Begins is text) (text : Bytes) :
    matchOne here c text = true ↔ Begins (.one c :: is) text := by
  cases text with
  | nil => simp [matchOne]
  | cons x text => simp [matchOne, h, Fits]

/-- **`matchhere` finds the pattern at the beginning of the text.** -/
theorem matchhere_iff (re text : Bytes) : matchhere re text = true ↔ Begins (items re) text := by
  induction re using List.twoStepInduction generalizing text with
  | nil => simp [matchhere, items]
  | singleton c =>
    rw [matchhere, items]
    split
    · simp
    · exact matchOne_iff (fun text ↦ by simp [matchhere]) text
  | cons_cons c d re ih ih' =>
    rw [matchhere, items]
    split
    · exact starLoop_iff ih text
    · exact matchOne_iff (ih' d) text

theorem matchLoop_iff (re text : Bytes) : matchLoop re text = true ↔
    ∃ u rest, text = u ++ rest ∧ Begins (items re) rest := by
  induction text with
  | nil => simp [matchLoop, matchhere_iff]
  | cons x text ih =>
    rw [matchLoop, Bool.or_eq_true, matchhere_iff, ih]
    constructor
    · rintro (h | ⟨u, rest, rfl, h⟩)
      · exact ⟨[], _, rfl, h⟩
      · exact ⟨x :: u, rest, rfl, h⟩
    · rintro ⟨u, rest, heq, h⟩
      cases u with
      | nil => exact .inl (heq ▸ h)
      | cons y u =>
        obtain ⟨rfl, rfl⟩ := List.cons.inj heq
        exact .inr ⟨u, rest, rfl, h⟩

/-- **`match` decides the language of the patterns.** It succeeds just when the items of the pattern
match some part `s` of the text, which has to be at its beginning if the pattern starts with `^`. -/
theorem matchRe_iff (re text : Bytes) : matchRe re text = true ↔
    ∃ u s v, text = u ++ s ++ v ∧ (re.head? = some caret → u = []) ∧
      Matched (items (body re)) s v := by
  rw [matchRe, body]
  split
  next hcaret =>
    rw [matchhere_iff]
    constructor
    · rintro ⟨s, v, rfl, h⟩
      exact ⟨[], s, v, rfl, fun _ ↦ rfl, h⟩
    · rintro ⟨u, s, v, rfl, hu, h⟩
      exact ⟨s, v, by rw [hu hcaret, List.nil_append], h⟩
  next hcaret =>
    rw [matchLoop_iff]
    constructor
    · rintro ⟨u, _, rfl, s, v, rfl, h⟩
      exact ⟨u, s, v, (List.append_assoc ..).symm, fun h ↦ absurd h hcaret, h⟩
    · rintro ⟨u, s, v, rfl, -, h⟩
      exact ⟨u, s ++ v, List.append_assoc .., s, v, rfl, h⟩

/-- The pattern `a*$` on `baa`. -/
example : matchRe [97, 42, 36] [98, 97, 97] = true := by decide

end OperatingSystems.Grep
