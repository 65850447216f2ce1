import Mathlib.Tactic.Common

/-!
# The input buffer of the console

`struct input` of `console.c`: a ring of characters with three indices that run freely and are
`uint`s, so they wrap at 2 ^ 32. From `r` on there are lines that readers may take, up to `w`, and
from there on the line being typed, up to `e`.

`Input.put` is the `switch` of `consoleintr` for one character and `Input.get` the part of
`consoleread` that takes one.
-/

namespace OperatingSystems

def inputBuf : ℕ := 128

def ctrl (x : Char) : BitVec 8 := BitVec.ofNat 8 (x.toNat - '@'.toNat)

def newline : BitVec 8 := 10

structure Input where
  buf : ℕ → BitVec 8
  r : BitVec 32
  w : BitVec 32
  e : BitVec 32

namespace Input

variable (s : Input)

def char (i : BitVec 32) : BitVec 8 := s.buf (i.toNat % inputBuf)

/-- The loop of `^U` with `n` characters still to go in the line. -/
def killLoop (s : Input) : ℕ → Input
  | 0 => s
  | n + 1 => if s.char (s.e - 1) ≠ newline then killLoop { s with e := s.e - 1 } n else s

/-- `^U`: remove the line being typed, back to `w` or to a newline. -/
def killLine : Input := s.killLoop (s.e - s.w).toNat

/-- `^H`: remove a character of the line being typed. -/
def backspace : Input := if s.e ≠ s.w then { s with e := s.e - 1 } else s

def insert (c : BitVec 8) : Input × Bool :=
  if c ≠ 0 ∧ (s.e - s.r).toNat < inputBuf then
    let c := if c = 13 then newline else c
    let s := { s with buf := Function.update s.buf (s.e.toNat % inputBuf) c, e := s.e + 1 }
    if c = newline ∨ c = ctrl 'D' ∨ s.e = s.r + BitVec.ofNat 32 inputBuf then
      ({ s with w := s.e }, true)
    else (s, false)
  else (s, false)

/-- One character in `consoleintr`: the buffer after it, and whether sleeping readers are woken. -/
def put (c : BitVec 8) : Input × Bool :=
  if c = ctrl 'P' then (s, false)
  else if c = ctrl 'U' then (s.killLine, false)
  else if c = ctrl 'H' ∨ c = 0x7f then (s.backspace, false)
  else s.insert c

/-- Whether a character makes `consoleintr` call `procdump` in the end. -/
def dumps (c : BitVec 8) : Bool := c = ctrl 'P'

/-- One character for `consoleread`, which has still `n` to read out of `target`: the buffer after
it, and how many are to be read after it, if the call goes on. -/
def get (n target : ℕ) : Input × Option ℕ :=
  let c := s.char s.r
  if c = ctrl 'D' then
    -- `^D` is saved for the next call, so that this one gets a result of 0 bytes
    (if n < target then s else { s with r := s.r + 1 }, none)
  else ({ s with r := s.r + 1 }, if c = newline then none else some (n - 1))

end Input

end OperatingSystems
