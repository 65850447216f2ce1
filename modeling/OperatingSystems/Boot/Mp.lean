import OperatingSystems.Memory.Memmove
import OperatingSystems.Vm.Basic

/-!
# The walk through the MP configuration table

`mpinit` takes what the firmware says about the machine from a table of entries, whose types decide
how long they are. The branch for an entry of another type clears `ismp` and leaves the `switch`,
but not the loop, and it does not move on: the loop looks at the same entry again and never comes to
the `panic` behind it.
-/

namespace OperatingSystems

namespace AddressSpace

variable (m : AddressSpace)

def ncpuMax : ℕ := 8

def half (a : BitVec 32) : BitVec 16 := m (a + 1) ++ m a

def word (a : BitVec 32) : BitVec 32 := m.half (a + 2) ++ m.half a

/-- `memcmp(a, s, 4) == 0` -/
def signed (a : BitVec 32) (s : List Byte) : Bool := [m a, m (a + 1), m (a + 2), m (a + 3)] = s

/-- The sum of `len` bytes, as an `uchar`. -/
def sum (a : BitVec 32) : ℕ → Byte
  | 0 => 0
  | len + 1 => m a + sum (a + 1) len

/-- The structure that starts with `_MP_`, at one of `k` places 16 bytes apart. -/
def mpsearch1 (a : BitVec 32) : ℕ → Option (BitVec 32)
  | 0 => none
  | k + 1 =>
    if m.signed a [95, 77, 80, 95] ∧ m.sum a 16 = 0 then some a else mpsearch1 (a + 16) k

def mpsearch : Option (BitVec 32) :=
  let ebda := (m.half (p2v 0x40E)).setWidth 32 <<< 4
  let base := (m.half (p2v 0x413)).setWidth 32 * 1024
  (m.mpsearch1 (p2v (if ebda ≠ 0 then ebda else base - 1024)) (1024 / 16)).or
    (m.mpsearch1 (p2v 0xF0000) (0x10000 / 16))

def mpLength (conf : BitVec 32) : BitVec 16 := m.half (conf + 4)

/-- The table that is accepted: it starts with `PCMP`, has version 1 or 4, and adds up to 0. -/
def mpconfig : Option (BitVec 32) :=
  m.mpsearch.bind fun mp ↦
    let physaddr := m.word (mp + 4)
    let conf := p2v physaddr
    if physaddr ≠ 0 ∧ m.signed conf [80, 67, 77, 80] ∧ (m (conf + 6) = 1 ∨ m (conf + 6) = 4) ∧
      m.sum conf (m.mpLength conf).toNat = 0 then some conf else none

structure Walk where
  p : BitVec 32
  ismp : Bool
  ncpu : ℕ
  apicid : ℕ → Byte
  ioapicid : Byte

/-- The `switch` on the type of an entry: `MPPROC`, `MPIOAPIC`, and the three that are skipped. -/
def entry (w : Walk) : Walk :=
  if m w.p = 0 then
    if w.ncpu < ncpuMax then
      { w with p := w.p + 20, ncpu := w.ncpu + 1,
               apicid := Function.update w.apicid w.ncpu (m (w.p + 1)) }
    else { w with p := w.p + 20 }
  else if m w.p = 2 then { w with p := w.p + 8, ioapicid := m (w.p + 1) }
  else if m w.p = 1 ∨ m w.p = 3 ∨ m w.p = 4 then { w with p := w.p + 8 }
  else { w with ismp := false }

/-- The loop up to `e`, given up after some rounds. -/
def entries (e : BitVec 32) : ℕ → Walk → Option Walk
  | 0, _ => none
  | k + 1, w => if w.p < e then entries e k (m.entry w) else some w

inductive MpPanic
  | expectSmp
  | noSuitableMachine

def firstEntry (conf : BitVec 32) : Walk := ⟨conf + 44, true, 0, fun _ ↦ 0, 0⟩

def tableEnd (conf : BitVec 32) : BitVec 32 := conf + (m.mpLength conf).setWidth 32

/-- `mpinit`, which has no result if the loop is still running. -/
def mpinit (rounds : ℕ) : Option (Except MpPanic Walk) :=
  match m.mpconfig with
  | none => some (.error .expectSmp)
  | some conf => (m.entries (m.tableEnd conf) rounds (firstEntry conf)).map fun w ↦
    if w.ismp then .ok w else .error .noSuitableMachine

/-! ## Where entries begin -/

def entrySize (type : Byte) : Option (BitVec 32) :=
  if type = 0 then some 20 else if type = 1 ∨ type = 2 ∨ type = 3 ∨ type = 4 then some 8 else none

/-- An entry begins at `p`. -/
inductive Boundary (conf : BitVec 32) : BitVec 32 → Prop
  | first : Boundary conf (conf + 44)
  | next {p size : BitVec 32} (h : Boundary conf p) (hp : p < m.tableEnd conf)
      (hsize : entrySize (m p) = some size) : Boundary conf (p + size)

/-- The end of the table is not at the end of the address space, where `p` would start again at
0. -/
def MpFits (conf : BitVec 32) : Prop := conf.toNat + max 44 (m.mpLength conf).toNat + 20 ≤ 2 ^ 32

variable {m} {w w' : Walk} {e conf p : BitVec 32} {k : ℕ}

theorem entry_of_some {size : BitVec 32} (h : entrySize (m w.p) = some size) :
    (m.entry w).p = w.p + size ∧ (m.entry w).ismp = w.ismp := by
  rw [entrySize] at h
  rw [entry]
  split_ifs at h ⊢ <;> simp_all

theorem entry_of_none (h : entrySize (m w.p) = none) : m.entry w = { w with ismp := false } := by
  rw [entrySize] at h
  rw [entry]
  split_ifs at h ⊢ <;> simp_all

theorem ncpu_entry_le (h : w.ncpu ≤ ncpuMax) : (m.entry w).ncpu ≤ ncpuMax := by
  rw [entry]
  split_ifs with _ hcpu
  · exact hcpu
  all_goals exact h

theorem entries_eq_none (hp : w.p < e) (h : entrySize (m w.p) = none) :
    m.entries e k w = none := by
  induction k generalizing w with
  | zero => rfl
  | succ k ih =>
    rw [entries, if_pos hp, entry_of_none h]
    exact ih hp h

theorem ismp_of_entries (hw : w.ismp = true) (h : m.entries e k w = some w') : w'.ismp = true := by
  induction k generalizing w with
  | zero => cases h
  | succ k ih =>
    by_cases hp : w.p < e
    · cases hsize : entrySize (m w.p) with
      | none =>
        rw [entries_eq_none hp hsize] at h
        cases h
      | some size =>
        rw [entries, if_pos hp] at h
        exact ih ((entry_of_some hsize).2.trans hw) h
    · rw [entries, if_neg hp] at h
      cases h
      exact hw

theorem Boundary.reached (h : m.Boundary conf p) : ∃ w : Walk, w.p = p ∧
    ∀ k, m.entries (m.tableEnd conf) k (firstEntry conf) = none ∨
      ∃ k', m.entries (m.tableEnd conf) k (firstEntry conf) = m.entries (m.tableEnd conf) k' w := by
  induction h with
  | first => exact ⟨firstEntry conf, rfl, fun k ↦ .inr ⟨k, rfl⟩⟩
  | @next p size _ hp hsize ih =>
    obtain ⟨w, rfl, hw⟩ := ih
    refine ⟨m.entry w, (entry_of_some hsize).1, fun k ↦ ?_⟩
    rcases hw k with hnone | ⟨k', hk'⟩
    · exact .inl hnone
    · cases k' with
      | zero => exact .inl hk'
      | succ k' =>
        rw [entries, if_pos hp] at hk'
        exact .inr ⟨k', hk'⟩

theorem Boundary.entries_eq_none (h : m.Boundary conf p) (hp : p < m.tableEnd conf)
    (hsize : entrySize (m p) = none) :
    m.entries (m.tableEnd conf) k (firstEntry conf) = none := by
  obtain ⟨w, rfl, hw⟩ := h.reached
  rcases hw k with hnone | ⟨k', hk'⟩
  · exact hnone
  · rw [hk']
    exact AddressSpace.entries_eq_none hp hsize

theorem entrySize_pos {type : Byte} {size : BitVec 32} (h : entrySize type = some size) :
    0 < size.toNat ∧ size.toNat ≤ 20 := by
  rw [entrySize] at h
  split_ifs at h <;> cases h <;> decide

theorem exists_entries (hfits : m.MpFits conf)
    (hall : ∀ p, m.Boundary conf p → p < m.tableEnd conf → (entrySize (m p)).isSome)
    (hw : m.Boundary conf w.p) : ∃ k w', m.entries (m.tableEnd conf) k w = some w' := by
  have hend : (m.tableEnd conf).toNat = conf.toNat + (m.mpLength conf).toNat := by
    rw [MpFits] at hfits
    rw [tableEnd, BitVec.toNat_add, BitVec.toNat_setWidth]
    omega
  induction hd : (m.tableEnd conf).toNat - w.p.toNat using Nat.strongRecOn generalizing w with
  | ind d ih =>
    by_cases hp : w.p < m.tableEnd conf
    · obtain ⟨size, hsize⟩ := Option.isSome_iff_exists.mp (hall _ hw hp)
      have hpos := entrySize_pos hsize
      have hnext := (entry_of_some hsize).1
      have hlt : w.p.toNat < (m.tableEnd conf).toNat := hp
      have hadd : (w.p + size).toNat = w.p.toNat + size.toNat := by
        rw [MpFits] at hfits
        rw [BitVec.toNat_add]
        omega
      have hbound : m.Boundary conf (m.entry w).p := hnext ▸ hw.next hp hsize
      obtain ⟨k, w', hk⟩ := ih _ (by rw [hnext, hadd]; omega) hbound rfl
      exact ⟨k + 1, w', by rw [entries, if_pos hp, hk]⟩
    · exact ⟨1, w, by rw [entries, if_neg hp]⟩

/-- **The walk through an accepted table ends exactly if all its entries are of the five types.**
The `panic` about an unsuitable machine is not reached, whatever is in the table, and there are
never more than `NCPU` processors. -/
theorem mpinit_ends_iff (h : m.mpconfig = some conf) :
    (∀ k, (m.entry^[k] (firstEntry conf)).ncpu ≤ ncpuMax) ∧
    (∀ k, m.mpinit k ≠ some (.error .noSuitableMachine)) ∧
    ((∃ p, m.Boundary conf p ∧ p < m.tableEnd conf ∧ entrySize (m p) = none) →
      ∀ k, m.mpinit k = none) ∧
    (m.MpFits conf → ((∃ k w, m.mpinit k = some (.ok w)) ↔
      ∀ p, m.Boundary conf p → p < m.tableEnd conf → (entrySize (m p)).isSome)) := by
  have hinit : ∀ k, m.mpinit k = (m.entries (m.tableEnd conf) k (firstEntry conf)).map fun w ↦
      if w.ismp then .ok w else .error .noSuitableMachine := fun k ↦ by rw [mpinit, h]
  have hsuit : ∀ {k w}, m.entries (m.tableEnd conf) k (firstEntry conf) = some w →
      m.mpinit k = some (.ok w) := fun {k w} hw ↦ by
    rw [hinit, hw, Option.map_some, if_pos (ismp_of_entries rfl hw)]
  have hbad : (∃ p, m.Boundary conf p ∧ p < m.tableEnd conf ∧ entrySize (m p) = none) →
      ∀ k, m.mpinit k = none := by
    rintro ⟨p, hp, hlt, hsize⟩ k
    rw [hinit, hp.entries_eq_none hlt hsize, Option.map_none]
  refine ⟨fun k ↦ ?_, fun k hk ↦ ?_, hbad, fun hfits ↦ ⟨?_, fun hall ↦ ?_⟩⟩
  · induction k with
    | zero => exact Nat.zero_le _
    | succ k ih =>
      rw [Function.iterate_succ_apply']
      exact ncpu_entry_le ih
  · cases hw : m.entries (m.tableEnd conf) k (firstEntry conf) with
    | none =>
      rw [hinit, hw] at hk
      cases hk
    | some w =>
      rw [hsuit hw] at hk
      cases hk
  · rintro ⟨k, w, hk⟩ p hp hlt
    by_contra hsize
    rw [hbad ⟨p, hp, hlt, Option.not_isSome_iff_eq_none.mp hsize⟩ k] at hk
    cases hk
  · obtain ⟨k, w, hk⟩ := exists_entries hfits hall .first (w := firstEntry conf)
    exact ⟨k, w, hsuit hk⟩

/-- The pointer to a structure at `0x9FC00`, the structure, and behind it a table with one entry of
type `type` whose other bytes are 0. -/
def someTable (type : Byte) : AddressSpace := fun a ↦
  let bytes : List Byte := [95, 77, 80, 95, 0x10, 0xFC, 0x09, 0, 1, 4, 0x8B, 0, 0, 0, 0, 0,
    80, 67, 77, 80, 52, 0, 4, 0x98 - type] ++ List.replicate 36 0 ++ [type]
  if a = 0x8000040E then 0xC0 else if a = 0x8000040F then 0x9F
  else bytes.getD (a - 0x8009FC00).toNat 0

theorem mpconfig_someTable : (someTable 0).mpconfig = some 0x8009FC10 ∧
    (someTable 5).mpconfig = some 0x8009FC10 := by
  decide +kernel

theorem mpinit_ends_iff_someTable : (someTable 0).mpconfig = some 0x8009FC10 ∧
    ∀ k, (someTable 0).mpinit k ≠ some (.error .noSuitableMachine) :=
  ⟨mpconfig_someTable.1, (mpinit_ends_iff mpconfig_someTable.1).2.1⟩

/-- An accepted table with an entry of type 5. -/
theorem mpinit_someTable : (someTable 5).mpconfig = some 0x8009FC10 ∧
    ∀ k, (someTable 5).mpinit k = none := by
  refine ⟨mpconfig_someTable.2, fun k ↦ ?_⟩
  rw [mpinit, mpconfig_someTable.2]
  change Option.map _ _ = _
  rw [Boundary.first.entries_eq_none (by decide +kernel) (by decide +kernel), Option.map_none]

end AddressSpace

end OperatingSystems
