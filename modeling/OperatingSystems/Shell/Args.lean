import Mathlib.Data.List.GetD
import OperatingSystems.Fs.Path

/-!
# The arguments of the shell's commands

`main` stores the words of a line in an array of 16 rows with 1024 bytes each. `custom_cd` gets the
row behind the name of the command, and `custom_cat`, `custom_cp` and `custom_mv` get an array of
pointers to the 15 rows behind it. An argument ends with its first zero, and the first argument that
is empty ends the list.
-/

namespace OperatingSystems.Shell

def bufferSize : ℕ := 4096

def argumentsSize : ℕ := 16

def rowSize : ℕ := 1024

def argsSize : ℕ := argumentsSize - 1

/-- The byte `arg[k]`, in a buffer that is filled up with zeros. -/
def charAt (arg : Bytes) (k : ℕ) : UInt8 := arg.getD k 0

theorem charAt_of_le {arg : Bytes} {k : ℕ} (h : arg.length ≤ k) : charAt arg k = 0 := by
  rw [charAt, List.getD_eq_getElem?_getD, List.getElem?_eq_none h]
  rfl

/-- A word of the command line: a row of 1024 bytes, and the memory behind it. -/
structure Arg where
  mem : ℕ → UInt8
  len : ℕ
  lt : len < rowSize
  nul : mem len = 0
  nonzero : ∀ i < len, mem i ≠ 0

namespace Arg

def text (arg : Arg) : Bytes := (List.range arg.len).map arg.mem

def ofText (s : Bytes) (hlt : s.length < rowSize) (h₀ : (0 : UInt8) ∉ s) : Arg where
  mem := charAt s
  len := s.length
  lt := hlt
  nul := charAt_of_le (Nat.le_refl _)
  nonzero i hi h := by
    rw [charAt, List.getD_eq_getElem _ _ hi] at h
    exact h₀ (h ▸ List.getElem_mem hi)

theorem text_ne_zero (arg : Arg) : (0 : UInt8) ∉ arg.text := by
  intro h
  obtain ⟨i, hi, h₀⟩ := List.mem_map.1 h
  exact arg.nonzero i (List.mem_range.1 hi) h₀

theorem head_text {arg : Arg} (h : arg.mem 0 = slash) : arg.text.head? = some slash := by
  have hlen : arg.len ≠ 0 := by
    intro hlen
    have hnul := arg.nul
    rw [hlen, h] at hnul
    exact absurd hnul (by decide)
  obtain ⟨n, hn⟩ := Nat.exists_eq_succ_of_ne_zero hlen
  rw [text, hn, List.range_succ_eq_map, List.map_cons, List.head?_cons, h]

end Arg

/-- An argument that does not end the list. -/
structure FileArg extends Arg where
  ne : len ≠ 0

def FileArg.ofText (s : Bytes) (hlt : s.length < rowSize) (h₀ : (0 : UInt8) ∉ s) (hne : s ≠ []) :
    FileArg where
  toArg := .ofText s hlt h₀
  ne h := hne (List.eq_nil_of_length_eq_zero h)

def texts (args : List FileArg) : List Bytes := args.map (·.text)

end OperatingSystems.Shell
