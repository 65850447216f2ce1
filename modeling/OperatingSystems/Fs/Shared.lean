import OperatingSystems.Fs.Filewrite

/-!
# Writers that share a file

Processes that have a `struct file` in common, after `fork` or `dup`, write at the same `f->off`. It
is read and moved under the lock of the inode, so that a step of the machine below is what a call
does from `ilock` to `iunlock`, and the code behind it up to the next `ilock` or the return.

The invariant is a history: the pieces in the order in which they were written. Their concatenation
is the file, and the pieces of each call are there from the first one on.
-/

namespace OperatingSystems

open Function

/-- Where a call of `filewrite` is: in its loop, with bytes to go, or behind it with a result. -/
inductive WriteCall
  | run (rest : List (BitVec 8))
  | done (ret : Word)
  deriving DecidableEq

structure SharedFile (n : ℕ) (κ : Type) where
  file : FdInode n
  call : κ → WriteCall

namespace SharedFile

variable {n k : ℕ} {κ : Type} [DecidableEq κ] (L : Layout) (i : Fin n) (buf : κ → List (BitVec 8))
  {rest : List (BitVec 8)}

/-- Call `c` goes on. A panic ends the run. -/
def step (s : SharedFile n κ) (c : κ) : Option (SharedFile n κ) :=
  match s.call c with
  | .done _ => none
  | .run rest =>
    if rest = [] then
      some { s with call := update s.call c (.done (BitVec.ofNat 32 (buf c).length)) }
    else
      match s.file.writeLocked L i (rest.take maxWrite) with
      | .error _ => none
      | .ok (r, f) =>
        if r.toInt < 0 then some ⟨f, update s.call c (.done (-1))⟩
        else if r ≠ BitVec.ofNat 32 (rest.take maxWrite).length then none
        else some ⟨f, update s.call c (.run (rest.drop r.toNat))⟩

/-- The machine: every call `c` has the bytes `buf c` to write to an empty file. -/
def writers : Machine (SharedFile n κ) κ where
  init s := s.file.Consistent L i ∧ s.file.ip.size = 0 ∧ ∀ c, s.call c = .run (buf c)
  step := step L i buf

/-- Piece `k` of the bytes of a call. -/
def piece (buf : List (BitVec 8)) (k : ℕ) : List (BitVec 8) :=
  (buf.drop (k * maxWrite)).take maxWrite

def pieces (buf : List (BitVec 8)) : ℕ := (buf.length + (maxWrite - 1)) / maxWrite

theorem flatMap_piece_range (buf : List (BitVec 8)) (k : ℕ) :
    (List.range k).flatMap (piece buf) = buf.take (k * maxWrite) := by
  induction k with
  | zero => rw [Nat.zero_mul, List.take_zero, List.range_zero, List.flatMap_nil]
  | succ k ih =>
    rw [List.range_succ, List.flatMap_append, ih, List.flatMap_singleton, piece, Nat.succ_mul,
      List.take_add]

theorem lt_pieces {buf : List (BitVec 8)} : k < pieces buf ↔ k * maxWrite < buf.length := by
  have hmax : maxWrite = 1536 := by decide
  rw [pieces, hmax]
  omega

theorem flatMap_piece (buf : List (BitVec 8)) :
    (List.range (pieces buf)).flatMap (piece buf) = buf := by
  rw [flatMap_piece_range, List.take_of_length_le]
  exact not_lt.mp fun hlt ↦ lt_irrefl _ (lt_pieces.mpr hlt)

variable {L i buf} {s s' : SharedFile n κ} {c : κ}

/-- What a call has done when its first `k` pieces are written. -/
structure Done (buf : List (BitVec 8)) (k : ℕ) (call : WriteCall) : Prop where
  run : ∀ rest, call = .run rest → rest = buf.drop (k * maxWrite)
  done : ∀ ret, call = .done ret → ret = BitVec.ofNat 32 buf.length ∧ pieces buf = k

/-- The state after the pieces in `order` have been written. -/
structure Wrote (L : Layout) (i : Fin n) (buf : κ → List (BitVec 8)) (order : List (κ × ℕ))
    (s : SharedFile n κ) : Prop where
  consistent : s.file.Consistent L i
  contents : s.file.disk.contents i = order.flatMap fun x ↦ piece (buf x.1) x.2
  off : s.file.off.toNat = (s.file.disk.contents i).length
  call : ∀ c, ∃ k, (order.filter fun x ↦ x.1 = c).map Prod.snd = List.range k ∧
    k ≤ pieces (buf c) ∧ Done (buf c) k (s.call c)

/-! ## How much is written -/

theorem length_flatMap_eq_sum [Fintype κ] (order : List (κ × ℕ)) (f : κ × ℕ → List (BitVec 8)) :
    (order.flatMap f).length = ∑ c, ((order.filter fun x ↦ x.1 = c).flatMap f).length := by
  induction order with
  | nil => simp
  | cons x order ih =>
    have hsplit : ∀ c, (((x :: order).filter fun x ↦ x.1 = c).flatMap f).length
        = (if x.1 = c then (f x).length else 0) +
          ((order.filter fun x ↦ x.1 = c).flatMap f).length := by
      intro c
      by_cases hc : x.1 = c
      · rw [List.filter_cons_of_pos (by simpa using hc), if_pos hc, List.flatMap_cons,
          List.length_append]
      · rw [List.filter_cons_of_neg (by simpa using hc), if_neg hc, Nat.zero_add]
    rw [List.flatMap_cons, List.length_append, ih, Finset.sum_congr rfl fun c _ ↦ hsplit c,
      Finset.sum_add_distrib, Finset.sum_ite_eq, if_pos (Finset.mem_univ _)]

theorem flatMap_filter {order : List (κ × ℕ)}
    (h : (order.filter fun x ↦ x.1 = c).map Prod.snd = List.range k) :
    ((order.filter fun x ↦ x.1 = c).flatMap fun x ↦ piece (buf x.1) x.2)
      = (buf c).take (k * maxWrite) := by
  rw [← flatMap_piece_range, ← h, List.flatMap_map]
  refine List.flatMap_congr fun x hx ↦ ?_
  obtain rfl : x.1 = c := by simpa using (List.mem_filter.mp hx).2
  rfl

theorem Wrote.off_add_le [Fintype κ] {order : List (κ × ℕ)} (h : Wrote L i buf order s)
    (htotal : ∑ c, (buf c).length ≤ maxFile * bSize) (hc : s.call c = .run rest) :
    s.file.off.toNat + (rest.take maxWrite).length ≤ maxFile * bSize := by
  have hpart : ∀ c', ((order.filter fun x ↦ x.1 = c').flatMap fun x ↦ piece (buf x.1) x.2).length
      ≤ (buf c').length := by
    intro c'
    obtain ⟨k, hk, -⟩ := h.call c'
    rw [flatMap_filter hk]
    exact List.length_take_le' _ _
  have hself : ((order.filter fun x ↦ x.1 = c).flatMap fun x ↦ piece (buf x.1) x.2).length
      + (rest.take maxWrite).length ≤ (buf c).length := by
    obtain ⟨k, hk, -, hdone⟩ := h.call c
    rw [flatMap_filter hk, hdone.run rest hc, ← List.length_append, ← List.take_add]
    exact List.length_take_le' _ _
  rw [h.off, h.contents, length_flatMap_eq_sum]
  rw [← Finset.add_sum_erase _ _ (Finset.mem_univ c)] at htotal ⊢
  have hothers := Finset.sum_le_sum (s := Finset.univ.erase c) fun c' _ ↦ hpart c'
  omega

/-! ## The invariant -/

theorem wrote_of_init (h : (writers L i buf).init s) : Wrote L i buf [] s := by
  obtain ⟨hc, hsize, hcall⟩ := h
  have hlen : (s.file.disk.contents i).length = 0 := by
    rw [FsDisk.length_contents, ← hc.ip, hsize]
    rfl
  refine ⟨hc, List.length_eq_zero_iff.mp hlen, ?_, fun c ↦ ⟨0, rfl, Nat.zero_le _, ?_, ?_⟩⟩
  · have hle := hc.off_le_length
    omega
  · intro rest hrest
    rw [hcall] at hrest
    cases hrest
    rw [Nat.zero_mul, List.drop_zero]
  · intro ret hret
    rw [hcall] at hret
    cases hret

theorem filter_append_of_ne {order : List (κ × ℕ)} {c c' : κ} (h : c' ≠ c) :
    (order ++ [(c, k)]).filter (fun x ↦ x.1 = c') = order.filter fun x ↦ x.1 = c' := by
  rw [List.filter_append, List.filter_cons_of_neg (by simpa using h.symm), List.filter_nil,
    List.append_nil]

theorem drop_length_take (l : List (BitVec 8)) (m : ℕ) : l.drop (l.take m).length = l.drop m := by
  rw [List.length_take]
  rcases le_total m l.length with h | h
  · rw [min_eq_left h]
  · rw [min_eq_right h, List.drop_length, List.drop_eq_nil_of_le h]

theorem Wrote.ret {order : List (κ × ℕ)} (h : Wrote L i buf order s) (hc : s.call c = .run []) :
    Wrote L i buf order
      { s with call := update s.call c (.done (BitVec.ofNat 32 (buf c).length)) } := by
  refine ⟨h.consistent, h.contents, h.off, fun c' ↦ ?_⟩
  dsimp only
  by_cases hc' : c' = c
  · subst hc'
    obtain ⟨k, hk, hle, hdone⟩ := h.call c'
    have hnil := List.drop_eq_nil_iff.mp (hdone.run [] hc).symm
    refine ⟨k, hk, hle, ?_⟩
    rw [update_self]
    refine ⟨fun _ h ↦ (by cases h), fun ret hret ↦ ?_⟩
    cases hret
    exact ⟨rfl, le_antisymm (not_lt.mp fun hlt ↦ absurd (lt_pieces.mp hlt) (not_lt.mpr hnil)) hle⟩
  · rw [update_of_ne hc']
    exact h.call c'

theorem Wrote.write {order : List (κ × ℕ)} {f : FdInode n} (h : Wrote L i buf order s)
    (hc : s.call c = .run rest) (hne : rest ≠ [])
    (hadv : FdInode.Advanced L i s.file (rest.take maxWrite) f) :
    ∃ k, Wrote L i buf (order ++ [(c, k)])
      ⟨f, update s.call c (.run (rest.drop (rest.take maxWrite).length))⟩ := by
  obtain ⟨k, hk, hle, hdone⟩ := h.call c
  have hrest := hdone.run rest hc
  have hlt : k < pieces (buf c) := by
    rw [lt_pieces]
    refine not_le.mp fun hle ↦ hne ?_
    rw [hrest, List.drop_eq_nil_iff]
    exact hle
  have hcontents : f.disk.contents i = s.file.disk.contents i ++ rest.take maxWrite := by
    rw [hadv.contents, h.off, FileBytes.splice_length]
  refine ⟨k, hadv.consistent, ?_, ?_, fun c' ↦ ?_⟩
  · rw [hcontents, h.contents, List.flatMap_append, List.flatMap_singleton, hrest, piece]
  · rw [hadv.off, hcontents, List.length_append, h.off]
  · dsimp only
    by_cases hc' : c' = c
    · subst hc'
      refine ⟨k + 1, ?_, hlt, ?_⟩
      · rw [List.filter_append, List.map_append, hk, List.range_succ,
          List.filter_cons_of_pos (by simp)]
        rfl
      · rw [update_self]
        refine ⟨fun rest' hrest' ↦ ?_, fun _ h ↦ by cases h⟩
        cases hrest'
        rw [drop_length_take, hrest, List.drop_drop, Nat.succ_mul]
    · rw [update_of_ne hc', filter_append_of_ne hc']
      exact h.call c'

theorem Wrote.step [Fintype κ] {order : List (κ × ℕ)} (h : Wrote L i buf order s)
    (htotal : ∑ c, (buf c).length ≤ maxFile * bSize) (hs : (writers L i buf).step s c = some s') :
    ∃ order', Wrote L i buf order' s' := by
  have hs : SharedFile.step L i buf s c = some s' := hs
  rw [SharedFile.step] at hs
  cases hc : s.call c with
  | done ret =>
    rw [hc] at hs
    cases hs
  | run rest =>
    simp only [hc] at hs
    by_cases hnil : rest = []
    · subst hnil
      rw [if_pos rfl] at hs
      cases hs
      exact ⟨order, h.ret hc⟩
    · rw [if_neg hnil] at hs
      have hlen := List.length_take_le maxWrite rest
      cases hx : s.file.writeLocked L i (rest.take maxWrite) with
      | error e =>
        rw [hx] at hs
        cases hs
      | ok x =>
        obtain ⟨r, f⟩ := x
        -- it is not refused, as the file does not get too large
        obtain ⟨-, hr, hadv⟩ := ((h.consistent.writeLocked hlen).of_ok hx).resolve_left fun hbad ↦
          absurd hbad.1 (not_lt.mpr (h.off_add_le htotal hc))
        dsimp only at hr hadv
        subst hr
        simp only [hx] at hs
        rw [FdInode.toInt_ofNat_length hlen, if_neg (by omega), if_neg (not_not.mpr rfl),
          FdInode.toNat_ofNat_length hlen] at hs
        cases hs
        obtain ⟨k, hwrote⟩ := h.write hc hnil hadv
        exact ⟨_, hwrote⟩

/-- **Shared descriptors lose no writes.** When all calls have returned, each with the number of its
bytes, the file is the concatenation of their pieces in some order that has the pieces of every call
once each and one behind the other, and `f->off` is at its end. -/
theorem shared_writes [Fintype κ] (htotal : ∑ c, (buf c).length ≤ maxFile * bSize)
    (hs : (writers L i buf).Reachable s) (hdone : ∀ c, ∃ ret, s.call c = .done ret) :
    (∀ c, s.call c = .done (BitVec.ofNat 32 (buf c).length)) ∧
    (∃ order : List (κ × ℕ),
      (∀ c, (order.filter fun x ↦ x.1 = c).map Prod.snd = List.range (pieces (buf c))) ∧
      s.file.disk.contents i = order.flatMap fun x ↦ piece (buf x.1) x.2) ∧
    s.file.off.toNat = ∑ c, (buf c).length ∧
    ∀ c, (List.range (pieces (buf c))).flatMap (piece (buf c)) = buf c := by
  obtain ⟨order, h⟩ : ∃ order, Wrote L i buf order s := by
    refine hs.invariant (I := fun s ↦ ∃ order, Wrote L i buf order s) (fun s hs ↦ ?_) ?_
    · exact ⟨[], wrote_of_init hs⟩
    · rintro s c s' ⟨order, h⟩ hs
      exact h.step htotal hs
  have hall : ∀ c, (order.filter fun x ↦ x.1 = c).map Prod.snd = List.range (pieces (buf c)) ∧
      s.call c = .done (BitVec.ofNat 32 (buf c).length) := by
    intro c
    obtain ⟨k, hk, -, hd⟩ := h.call c
    obtain ⟨ret, hret⟩ := hdone c
    obtain ⟨rfl, rfl⟩ := hd.done ret hret
    exact ⟨hk, hret⟩
  refine ⟨fun c ↦ (hall c).2, ⟨order, fun c ↦ (hall c).1, h.contents⟩, ?_, fun c ↦ flatMap_piece _⟩
  rw [h.off, h.contents, length_flatMap_eq_sum]
  refine Finset.sum_congr rfl fun c _ ↦ ?_
  rw [flatMap_filter (hall c).1, ← flatMap_piece_range, flatMap_piece]

def twoBuffers (c : Bool) : List (BitVec 8) := if c then [7, 8] else [9, 10]

/-- Two calls, the second of which writes first. -/
theorem shared_writes_emptyFd : ∃ s : SharedFile 1 Bool,
    (writers Icache.smallLayout 0 twoBuffers).Reachable s ∧ s.file.off.toNat = 4 ∧
    ∃ order : List (Bool × ℕ), (∀ c, (order.filter fun x ↦ x.1 = c).map Prod.snd = [0]) ∧
      s.file.disk.contents 0 = order.flatMap fun x ↦ piece (twoBuffers x.1) x.2 := by
  have hinit : (writers Icache.smallLayout 0 twoBuffers).init
      ⟨FdInode.emptyFd, fun c ↦ .run (twoBuffers c)⟩ :=
    ⟨FdInode.consistent_emptyFd, rfl, fun _ ↦ rfl⟩
  obtain ⟨s, hs, hend⟩ := Machine.exists_reachable_of_run [false, true, true, false]
    (fun s : SharedFile 1 Bool ↦ decide (∀ c, s.call c = .done 2)) hinit (by decide +kernel)
  have hdone := of_decide_eq_true hend
  obtain ⟨-, ⟨order, horder, hcontents⟩, hoff, -⟩ :=
    shared_writes (by decide) hs fun c ↦ ⟨2, hdone c⟩
  refine ⟨s, hs, hoff, order, fun c ↦ (horder c).trans ?_, hcontents⟩
  cases c <;> rfl

end SharedFile

end OperatingSystems
