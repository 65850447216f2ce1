import Mathlib.Data.Int.Notation
import OperatingSystems.Console.Input
import OperatingSystems.Lib.Monitor

/-!
# Readers of the console and its interrupt handler

`consoleread` and `consoleintr` as the code of a monitor: `cons.lock` is its lock, and readers sleep
on `&input.r`. The threads are the processes and the interrupt handler, which may take the lock
whenever it is free; `getc` gives it any characters.

Beside the buffer the state has two histories. What was typed is kept as a text is, by list
operations on the line being typed and with no regard to the buffer: `typed` is what such a line
editor makes of a character. What readers took is noted as it comes out of the buffer.
-/

namespace OperatingSystems

/-- The lines completed so far, and the line being typed. -/
structure Typescript where
  committed : List (BitVec 8)
  line : List (BitVec 8)

namespace Typescript

/-- A character that is not a command, while there is room for `room` characters. -/
def insert (t : Typescript) (room : ℕ) (c : BitVec 8) : Typescript :=
  if c ≠ 0 ∧ 0 < room then
    let c := if c = 13 then newline else c
    if c = newline ∨ c = ctrl 'D' ∨ room = 1 then ⟨t.committed ++ (t.line ++ [c]), []⟩
    else ⟨t.committed, t.line ++ [c]⟩
  else t

/-- What a character does, while there is room for `room` characters. -/
def typed (t : Typescript) (room : ℕ) (c : BitVec 8) : Typescript :=
  if c = ctrl 'P' then t
  else if c = ctrl 'U' then ⟨t.committed, []⟩
  else if c = ctrl 'H' ∨ c = 0x7f then ⟨t.committed, t.line.dropLast⟩
  else t.insert room c

end Typescript

structure Tty (π : Type) where
  input : Input
  text : Typescript
  /-- The characters taken out of the buffer so far, and by whom. -/
  taken : List (π × BitVec 8)
  /-- What the earlier calls of `consoleread` of each process got. -/
  gave : π → List (BitVec 8)
  saved : Bool

/-- `&input.r` -/
inductive TtyChan
  | inputR
  deriving DecidableEq, Repr

inductive TtyPc
  /-- Outside; what the last call returned. -/
  | idle (ret : ℤ)
  /-- `consoleread`, in `acquire(&cons.lock)`. -/
  | readAcquire (n : ℕ)
  /-- The loops of `consoleread`, with `n` characters of `target` still to read. -/
  | readLoop (n target : ℕ) (got : List (BitVec 8))
  /-- The tests are done: before `sleep(&input.r, &cons.lock)`. -/
  | readSleep (n target : ℕ) (got : List (BitVec 8))
  /-- In `sleep`, before it takes the lock again. -/
  | readSlept (n target : ℕ) (got : List (BitVec 8))
  | readDone (n target : ℕ) (got : List (BitVec 8))
  /-- `consoleintr`, in `acquire(&cons.lock)`. -/
  | intrAcquire
  | intrLoop
  deriving DecidableEq, Repr

inductive TtyInput
  | go
  | consoleread (n : ℕ)
  | consoleintr
  /-- What `getc` returns; nothing means a negative value. -/
  | getc (c : Option (BitVec 8))
  deriving DecidableEq, Repr

namespace Tty

variable {π : Type}

/-- How many characters the buffer has room for, by what was typed and taken. -/
def room (s : Tty π) : ℕ :=
  inputBuf - (s.text.committed.length - s.taken.length + s.text.line.length)

def put (s : Tty π) (c : BitVec 8) : Tty π :=
  { s with input := (s.input.put c).1, text := s.text.typed s.room c }

def take (s : Tty π) (p : π) : Tty π :=
  { s with
    input := { s.input with r := s.input.r + 1 }
    taken := s.taken ++ [(p, s.input.char s.input.r)]
    saved := false }

/-- A call of `consoleread` ends, having got `cs`. -/
def noteRead [DecidableEq π] (s : Tty π) (p : π) (cs : List (BitVec 8)) : Tty π :=
  { s with gave := Function.update s.gave p (s.gave p ++ cs) }

def readChar (s : Tty π) (p : π) (n target : ℕ) (got : List (BitVec 8)) :
    Instr TtyPc TtyChan (Tty π) :=
  let c := s.input.char s.input.r
  if c = ctrl 'D' then
    -- `input.r++` was undone if there is something to return
    if n < target then .go { s with saved := true } (.readDone n target got)
    else .go (s.take p) (.readDone n target got)
  else if c = newline then .go (s.take p) (.readDone (n - 1) target (got ++ [c]))
  else .go (s.take p) (.readLoop (n - 1) target (got ++ [c]))

variable [DecidableEq π]

def readLoop (s : Tty π) (p : π) (killed : Bool) (n target : ℕ) (got : List (BitVec 8)) :
    Instr TtyPc TtyChan (Tty π) :=
  if n = 0 then .go s (.readDone n target got)
  else if s.input.r = s.input.w then
    if killed then .release (s.noteRead p got) (.idle (-1)) else .go s (.readSleep n target got)
  else s.readChar p n target got

def intrChar (s : Tty π) (c : BitVec 8) : Instr TtyPc TtyChan (Tty π) :=
  if (s.input.put c).2 then .wakeup .inputR (s.put c) .intrLoop else .go (s.put c) .intrLoop

def code : MonitorCode (Option π) TtyInput TtyPc TtyChan (Tty π) := fun p x pc killed s ↦
  match p, x, pc with
  | some _, .consoleread n, .idle _ => some (.call (.readAcquire n))
  | some _, .go, .readAcquire n => some (.acquire (.readLoop n n []))
  | some p, .go, .readLoop n target got => some (s.readLoop p killed n target got)
  | some _, .go, .readSleep n target got => some (.sleep .inputR (.readSlept n target got))
  | some _, .go, .readSlept n target got => some (.acquire (.readLoop n target got))
  | some p, .go, .readDone n target got =>
    some (.release (s.noteRead p got) (.idle (target - n : ℕ)))
  | none, .consoleintr, .idle _ => some (.call .intrAcquire)
  | none, .go, .intrAcquire => some (.acquire .intrLoop)
  | none, .getc (some c), .intrLoop => some (s.intrChar c)
  | none, .getc none, .intrLoop => some (.release s (.idle 0))
  | _, _, _ => none

structure Initial (m : Monitor (Option π) TtyPc TtyChan (Tty π)) : Prop where
  r : m.data.input.r = 0
  w : m.data.input.w = 0
  e : m.data.input.e = 0
  lock : m.lock = none
  pc : ∀ p, (m.thread p).pc = .idle 0
  chan : ∀ p, (m.thread p).chan = none
  text : m.data.text = ⟨[], []⟩
  taken : m.data.taken = []
  gave : ∀ p, m.data.gave p = []
  saved : m.data.saved = false

def boot : Monitor (Option π) TtyPc TtyChan (Tty π) where
  data :=
    { input := ⟨fun _ ↦ 0, 0, 0, 0⟩
      text := ⟨[], []⟩
      taken := []
      gave := fun _ ↦ []
      saved := false }
  lock := none
  thread := fun _ ↦ ⟨.idle 0, none, false⟩

omit [DecidableEq π] in
theorem initial_boot : Initial (boot : Monitor (Option π) TtyPc TtyChan (Tty π)) :=
  ⟨rfl, rfl, rfl, rfl, fun _ ↦ rfl, fun _ ↦ rfl, rfl, rfl, fun _ ↦ rfl, rfl⟩

end Tty

/-- The console, its interrupt handler and the processes `π`. -/
def tty (π : Type) [DecidableEq π] :
    Machine (Monitor (Option π) TtyPc TtyChan (Tty π)) (MonitorAct (Option π) TtyInput) where
  init := Tty.Initial
  step := Monitor.step Tty.code

namespace TtyPc

def holds : TtyPc → Bool
  | readLoop .. | readSleep .. | readDone .. | intrLoop => true
  | _ => false

end TtyPc

namespace Tty

variable {π : Type} [DecidableEq π] {s : Tty π} {p : Option π} {x : TtyInput} {pc : TtyPc}
  {k : Bool}
  {i : Instr TtyPc TtyChan (Tty π)}

inductive Move (k : Bool) (s : Tty π) :
    Option π → TtyPc → Instr TtyPc TtyChan (Tty π) → Prop
  | callRead {p : π} {r : ℤ} (n : ℕ) : Move k s p (.idle r) (.call (.readAcquire n))
  | read {p : π} (n : ℕ) : Move k s p (.readAcquire n) (.acquire (.readLoop n n []))
  | readEnd {p : π} {target : ℕ} {got : List (BitVec 8)} :
      Move k s p (.readLoop 0 target got) (.go s (.readDone 0 target got))
  | readKilled {p : π} {n target : ℕ} {got : List (BitVec 8)} (hempty : s.input.r = s.input.w)
      (hk : k = true) :
      Move k s p (.readLoop n target got) (.release (s.noteRead p got) (.idle (-1)))
  | empty {p : π} {n target : ℕ} {got : List (BitVec 8)} (hempty : s.input.r = s.input.w)
      (hk : k = false) : Move k s p (.readLoop n target got) (.go s (.readSleep n target got))
  | save {p : π} {n target : ℕ} {got : List (BitVec 8)} (hne : s.input.r ≠ s.input.w)
      (hc : s.input.char s.input.r = ctrl 'D') (hlt : n < target) :
      Move k s p (.readLoop n target got) (.go { s with saved := true } (.readDone n target got))
  | eof {p : π} {n target : ℕ} {got : List (BitVec 8)} (hne : s.input.r ≠ s.input.w)
      (hc : s.input.char s.input.r = ctrl 'D') (hle : target ≤ n) :
      Move k s p (.readLoop n target got) (.go (s.take p) (.readDone n target got))
  | eol {p : π} {n target : ℕ} {got : List (BitVec 8)} (hne : s.input.r ≠ s.input.w)
      (hc : s.input.char s.input.r ≠ ctrl 'D') :
      Move k s p (.readLoop (n + 1) target got)
        (.go (s.take p) (.readDone n target (got ++ [s.input.char s.input.r])))
  | char {p : π} {n target : ℕ} {got : List (BitVec 8)} (hne : s.input.r ≠ s.input.w)
      (hc : s.input.char s.input.r ≠ ctrl 'D') :
      Move k s p (.readLoop (n + 1) target got)
        (.go (s.take p) (.readLoop n target (got ++ [s.input.char s.input.r])))
  | readSleep {p : π} (n target : ℕ) (got : List (BitVec 8)) :
      Move k s p (.readSleep n target got) (.sleep .inputR (.readSlept n target got))
  | readAgain {p : π} (n target : ℕ) (got : List (BitVec 8)) :
      Move k s p (.readSlept n target got) (.acquire (.readLoop n target got))
  | readDone {p : π} (n target : ℕ) (got : List (BitVec 8)) :
      Move k s p (.readDone n target got) (.release (s.noteRead p got) (.idle (target - n : ℕ)))
  | callIntr {r : ℤ} : Move k s none (.idle r) (.call .intrAcquire)
  | intr : Move k s none .intrAcquire (.acquire .intrLoop)
  | wake (c : BitVec 8) : Move k s none .intrLoop (.wakeup .inputR (s.put c) .intrLoop)
  | put (c : BitVec 8) : Move k s none .intrLoop (.go (s.put c) .intrLoop)
  | intrDone : Move k s none .intrLoop (.release s (.idle 0))

theorem move_readLoop (p : π) (n target : ℕ) (got : List (BitVec 8)) :
    Move k s p (.readLoop n target got) (s.readLoop p k n target got) := by
  unfold Tty.readLoop
  cases n with
  | zero => exact .readEnd
  | succ n =>
    rw [if_neg (Nat.succ_ne_zero n)]
    by_cases hempty : s.input.r = s.input.w
    · rw [if_pos hempty]
      cases k with
      | false => exact .empty hempty rfl
      | true => exact .readKilled hempty rfl
    · rw [if_neg hempty]
      unfold readChar
      by_cases hd : s.input.char s.input.r = ctrl 'D'
      · rw [if_pos hd]
        by_cases hlt : n + 1 < target
        · rw [if_pos hlt]
          exact .save hempty hd hlt
        · rw [if_neg hlt]
          exact .eof hempty hd (Nat.le_of_not_lt hlt)
      · rw [if_neg hd]
        split
        · exact .eol hempty hd
        · exact .char hempty hd

theorem move_intrChar (c : BitVec 8) : Move k s none .intrLoop (s.intrChar c) := by
  unfold intrChar
  split
  · exact .wake c
  · exact .put c

theorem move_of_code (h : code p x pc k s = some i) : Move k s p pc i := by
  unfold code at h
  split at h
  case h_3 => exact Option.some.inj h ▸ move_readLoop _ _ _ _
  case h_9 => exact Option.some.inj h ▸ move_intrChar _
  case h_11 => exact absurd h.symm (Option.some_ne_none _)
  all_goals
    obtain rfl := Option.some.inj h
    constructor

theorem Move.fits (h : Move k s p pc i) : i.Fits (fun pc ↦ pc.holds = true) pc := by
  cases h <;> simp [Instr.Fits, TtyPc.holds]

end Tty

end OperatingSystems
