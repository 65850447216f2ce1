import Mathlib.Logic.Function.Iterate
import OperatingSystems.Shell.Reader

/-!
# The shell on a stream of bytes

`main` reads one line after the other from its standard input and carries it out. At the end of the
input `scanf` fails and leaves the byte `c` as it was, and the reader takes this byte once more,
again and again: it stores it until it leaves the array, or counts rows for ever. So the shell only
comes to an end through a line `exit`, and this has to come before the end of the input, with no
line before it that the array has no room for.

The commands that take names look for the first empty argument. There are 15 of them, and with 15
words behind the command there is none.
-/

namespace OperatingSystems.Shell

/-! ## The loop of `main` -/

/-- `strcmp(row, word) == 0` -/
def IsWord (row : ℕ → UInt8) (word : Bytes) : Prop := ∀ i ≤ word.length, row i = word.getD i 0

instance (row : ℕ → UInt8) (word : Bytes) : Decidable (IsWord row word) :=
  inferInstanceAs (Decidable (∀ i ≤ word.length, _))

/-- `while (args[index][0] != '\0')`, with `left` entries of `args` from `index` on; in some rounds
the command may return. The result is false if an entry behind the last one is read. -/
def argsLoop (commands : ℕ → ℕ → UInt8) (returns : ℕ → Bool) : (left index : ℕ) → Bool
  | 0, _ => false
  | left + 1, index =>
    if commands (index + 1) 0 = 0 then true
    else if returns index then true
    else argsLoop commands returns left (index + 1)

/-- The command of a line stays within its arguments. `opens i` says that the `i`-th file can be
opened, if the command is `cat`. -/
def staysInArgs (opens : ℕ → Bool) (commands : ℕ → ℕ → UInt8) : Bool :=
  if IsWord (commands 0) (ascii "cat") then
    argsLoop commands (fun i ↦ !opens i) (argumentsSize - 1) 0
  else if IsWord (commands 0) (ascii "cp") ∨ IsWord (commands 0) (ascii "mv") then
    argsLoop commands (fun _ ↦ false) (argumentsSize - 1) 0
  else true

/-- The shell after some lines: it reads the next one, it has left its arrays, or it has ended. -/
inductive Status where
  | reading (r : Reader) (input : Bytes) (lines : ℕ)
  | fault
  | exited

/-- `scanf("%c", &c)` -/
def scanByte (c : UInt8) : Bytes → UInt8 × Bytes
  | [] => (c, [])
  | c :: input => (c, input)

def dispatch (opens : ℕ → ℕ → Bool) (commands : ℕ → ℕ → UInt8) (input : Bytes) (lines : ℕ) :
    Status :=
  if IsWord (commands 0) (ascii "exit") then .exited
  else if staysInArgs (opens lines) commands then .reading .fresh input (lines + 1)
  else .fault

/-- One call of `scanf` and what follows. Which files a line can open is an input. -/
def Status.next (opens : ℕ → ℕ → Bool) : Status → Status
  | .reading r input lines =>
    let (c, input) := scanByte r.c input
    match r.take c with
    | .more r => .reading r input lines
    | .line commands => dispatch opens commands input lines
    | .fault => .fault
  | .fault => .fault
  | .exited => .exited

def lineBytes (l : Bytes) : ℕ → ℕ → UInt8 := write (fun _ _ ↦ 0) (cells l)

/-- There is room for each byte: there are less than 16 separators and closing quotes before it, and
less than 1024 bytes since the last separator. -/
def Fitting (l : Bytes) : Prop := ∀ x ∈ cells l, x.InRange

instance (l : Bytes) : Decidable (Fitting l) := inferInstanceAs (Decidable (∀ x ∈ cells l, _))

section Steps

variable {opens : ℕ → ℕ → Bool} {l : Bytes}

end Steps

end OperatingSystems.Shell
