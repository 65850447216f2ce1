import OperatingSystems.Console.Reader
import OperatingSystems.Lib.Fifo

/-!
# The line discipline of the console

The buffer shows, from `r` on, the completed lines that nobody has read yet, and behind them, from
`w` to `e`, the line being typed (`Input.Shows`). Editing works on the end of the line being typed
only, and readers on the start of the completed lines, so the two meet nowhere: the characters that
readers take are those of the completed lines, in the order in which they were typed.

The line being typed has no newline in it, so `^U` removes all of it; and it is completed when the
buffer gets full, so a full buffer has something for readers.
-/

namespace OperatingSystems

open Function

namespace Input

variable {i : Input} {n : ℕ} {pending line : List (BitVec 8)} {c : BitVec 8}

/-- The characters from index `a` up to `b`. -/
def window (i : Input) (a b : BitVec 32) : List (BitVec 8) :=
  (List.range (b - a).toNat).map fun k ↦ i.char (a + BitVec.ofNat 32 k)

/-- The buffer shows lines to be read, the first character of which has the running number `n`, and
the line being typed. -/
structure Shows (i : Input) (n : ℕ) (pending line : List (BitVec 8)) : Prop where
  ring : RingHolds inputBuf i.buf n (pending ++ line)
  r : i.r = BitVec.ofNat 32 n
  w : i.w = BitVec.ofNat 32 (n + pending.length)
  e : i.e = BitVec.ofNat 32 (n + (pending ++ line).length)

theorem inputBuf_dvd : inputBuf ∣ 2 ^ 32 := by decide

theorem inputBuf_lt : inputBuf < 2 ^ 32 := by decide

namespace Shows

theorem length_lt (h : i.Shows n pending line) : (pending ++ line).length < 2 ^ 32 :=
  h.ring.length_le.trans_lt inputBuf_lt

theorem pending_lt (h : i.Shows n pending line) : pending.length < 2 ^ 32 := by
  have hlt := h.length_lt
  rw [List.length_append] at hlt
  exact (Nat.le_add_right ..).trans_lt hlt

theorem toNat_e_sub_r (h : i.Shows n pending line) :
    (i.e - i.r).toNat = (pending ++ line).length := by
  rw [h.e, h.r]
  exact toNat_ofNat_sub h.length_lt

theorem toNat_w_sub_r (h : i.Shows n pending line) : (i.w - i.r).toNat = pending.length := by
  rw [h.w, h.r]
  exact toNat_ofNat_sub h.pending_lt

theorem toNat_e_sub_w (h : i.Shows n pending line) : (i.e - i.w).toNat = line.length := by
  have hlt := h.length_lt
  rw [List.length_append] at hlt
  rw [h.e, h.w, List.length_append, ← Nat.add_assoc]
  exact toNat_ofNat_sub ((Nat.le_add_left ..).trans_lt hlt)

theorem e_eq_w_iff (h : i.Shows n pending line) : i.e = i.w ↔ line = [] := by
  rw [h.e, h.w, ofNat_add_inj h.length_lt h.pending_lt, List.length_append, Nat.add_eq_left,
    List.length_eq_zero_iff]

theorem r_eq_w_iff (h : i.Shows n pending line) : i.r = i.w ↔ pending = [] := by
  have hzero := ofNat_add_inj (w := 32) (a := n) (m := 0) (Nat.two_pow_pos 32) h.pending_lt
  rw [Nat.add_zero] at hzero
  rw [h.r, h.w, hzero, eq_comm, List.length_eq_zero_iff]

theorem e_eq_full_iff (h : i.Shows n pending line) :
    i.e = i.r + BitVec.ofNat 32 inputBuf ↔ (pending ++ line).length = inputBuf := by
  rw [h.e, h.r, ← BitVec.ofNat_add, ofNat_add_inj h.length_lt inputBuf_lt]

theorem char_eq (h : i.Shows n pending line) {k : ℕ} (hk : k < (pending ++ line).length) :
    i.char (BitVec.ofNat 32 (n + k)) = (pending ++ line)[k] := by
  rw [char, ofNat_toNat_mod inputBuf_dvd]
  exact h.ring.cell k hk

theorem window_r_w (h : i.Shows n pending line) : i.window i.r i.w = pending := by
  unfold window
  refine List.ext_getElem (by rw [List.length_map, List.length_range, h.toNat_w_sub_r])
    fun k _ hk ↦ ?_
  have hlt : k < (pending ++ line).length := by
    rw [List.length_append]
    exact hk.trans_le (Nat.le_add_right ..)
  rw [List.getElem_map, List.getElem_range, h.r, ← BitVec.ofNat_add, h.char_eq hlt,
    List.getElem_append_left hk]

theorem window_w_e (h : i.Shows n pending line) : i.window i.w i.e = line := by
  unfold window
  refine List.ext_getElem (by rw [List.length_map, List.length_range, h.toNat_e_sub_w])
    fun k _ hk ↦ ?_
  have hlt : pending.length + k < (pending ++ line).length := by
    rw [List.length_append]
    exact Nat.add_lt_add_left hk _
  rw [List.getElem_map, List.getElem_range, h.w, ← BitVec.ofNat_add, Nat.add_assoc,
    h.char_eq hlt, List.getElem_append_right (Nat.le_add_right ..)]
  simp only [Nat.add_sub_cancel_left]

/-! ### Editing -/

theorem erase (h : i.Shows n pending (line ++ [c])) :
    { i with e := i.e - 1 }.Shows n pending line ∧ i.char (i.e - 1) = c := by
  have hlen : (pending ++ (line ++ [c])).length = (pending ++ line).length + 1 := by
    simp only [List.length_append, List.length_singleton, Nat.add_assoc]
  have he : i.e - 1 = BitVec.ofNat 32 (n + (pending ++ line).length) := by
    rw [h.e, hlen, ← Nat.add_assoc, BitVec.ofNat_add]
    exact BitVec.add_sub_cancel _ _
  refine ⟨⟨?_, h.r, h.w, he⟩, ?_⟩
  · have hring := h.ring
    rw [← List.append_assoc] at hring
    exact hring.left
  · rw [he, h.char_eq (by rw [hlen]; exact Nat.lt_succ_self _)]
    simp only [← List.append_assoc, List.getElem_concat_length]

theorem backspace (h : i.Shows n pending line) : i.backspace.Shows n pending line.dropLast := by
  unfold Input.backspace
  rcases line.eq_nil_or_concat with rfl | ⟨l, c, rfl⟩
  · rw [if_neg (not_not.mpr (h.e_eq_w_iff.mpr rfl))]
    exact h
  · rw [List.concat_eq_append] at h ⊢
    rw [if_pos (by rw [Ne, h.e_eq_w_iff]; simp), List.dropLast_concat]
    exact h.erase.1

theorem killLoop (h : i.Shows n pending line) (hnl : newline ∉ line) :
    (i.killLoop line.length).Shows n pending [] := by
  induction line using List.reverseRecOn generalizing i with
  | nil => exact h
  | append_singleton l c ih =>
    obtain ⟨hl, hc⟩ := h.erase
    have hmem : newline ∉ l ∧ c ≠ newline := by simpa [eq_comm] using hnl
    rw [List.length_append, List.length_singleton, Input.killLoop, hc, if_pos hmem.2]
    exact ih hl hmem.1

theorem killLine (h : i.Shows n pending line) (hnl : newline ∉ line) :
    i.killLine.Shows n pending [] := by
  rw [Input.killLine, h.toNat_e_sub_w]
  exact h.killLoop hnl

theorem push (h : i.Shows n pending line) (hlt : (pending ++ line).length < inputBuf)
    (c : BitVec 8) :
    { i with buf := update i.buf (i.e.toNat % inputBuf) c, e := i.e + 1 }.Shows n pending
      (line ++ [c]) := by
  refine ⟨?_, h.r, h.w, ?_⟩
  · rw [h.e, ofNat_toNat_mod inputBuf_dvd, ← List.append_assoc]
    exact h.ring.push hlt c
  · have hlen : (pending ++ (line ++ [c])).length = (pending ++ line).length + 1 := by
      simp only [List.length_append, List.length_singleton, Nat.add_assoc]
    rw [h.e, hlen, ← Nat.add_assoc]
    exact (BitVec.ofNat_add _ 1).symm

theorem commit (h : i.Shows n pending line) :
    { i with w := i.e }.Shows n (pending ++ line) [] := by
  refine ⟨?_, h.r, h.e, ?_⟩
  · rw [List.append_nil]
    exact h.ring
  · rw [List.append_nil]
    exact h.e

theorem tail (h : i.Shows n (c :: pending) line) :
    { i with r := i.r + 1 }.Shows (n + 1) pending line ∧ i.char i.r = c := by
  have hsum (k : ℕ) : n + (k + 1) = n + 1 + k := by rw [Nat.add_comm k, Nat.add_assoc]
  refine ⟨⟨h.ring.tail, ?_, ?_, ?_⟩, ?_⟩
  · rw [h.r]
    exact (BitVec.ofNat_add _ 1).symm
  · rw [h.w, List.length_cons, hsum]
  · rw [h.e, List.cons_append, List.length_cons, hsum]
  · rw [h.r]
    exact h.char_eq (k := 0) (Nat.succ_pos _)

end Shows

end Input

namespace TtyPc

def got : TtyPc → List (BitVec 8)
  | readLoop _ _ got | readSleep _ _ got | readSlept _ _ got | readDone _ _ got => got
  | _ => []

/-- `target - n` characters were got. -/
def Counts : TtyPc → Prop
  | readLoop n target got | readSleep n target got | readSlept n target got
  | readDone n target got => n + got.length = target
  | _ => True

end TtyPc

namespace Tty

variable {π : Type} {s : Tty π} {pending : List (BitVec 8)} {p p' : π} {pc' : TtyPc}

structure Sync (s : Tty π) (pending : List (BitVec 8)) : Prop where
  committed : s.text.committed = s.taken.map Prod.snd ++ pending
  shows : s.input.Shows s.taken.length pending s.text.line
  newline : newline ∉ s.text.line
  room : s.text.line ≠ [] → (pending ++ s.text.line).length < inputBuf
  saved : s.saved = true → pending.head? = some (ctrl 'D')

namespace Sync

theorem room_eq (h : s.Sync pending) :
    s.room = inputBuf - (pending ++ s.text.line).length := by
  rw [Tty.room, h.committed, List.length_append, List.length_map, Nat.add_sub_cancel_left,
    List.length_append]

theorem take {c : BitVec 8} (h : s.Sync (c :: pending)) (p : π) :
    (s.take p).Sync pending ∧ s.input.char s.input.r = c := by
  obtain ⟨hshows, hc⟩ := h.shows.tail
  refine ⟨⟨?_, ?_, h.newline, fun hline ↦ ?_, fun hsaved ↦ ?_⟩, hc⟩
  · rw [Tty.take, h.committed, hc, List.map_append, List.append_assoc]
    rfl
  · rw [Tty.take, List.length_append]
    exact hshows
  · exact (Nat.lt_succ_self _).trans (h.room hline)
  · exact absurd hsaved Bool.false_ne_true

theorem exists_cons (h : s.Sync pending) (hne : s.input.r ≠ s.input.w) :
    ∃ rest, pending = s.input.char s.input.r :: rest := by
  cases pending with
  | nil => exact absurd (h.shows.r_eq_w_iff.mpr rfl) hne
  | cons c rest => exact ⟨rest, by rw [h.shows.tail.2]⟩

theorem save (h : s.Sync pending) (hne : s.input.r ≠ s.input.w)
    (hc : s.input.char s.input.r = ctrl 'D') : { s with saved := true }.Sync pending := by
  refine ⟨h.committed, h.shows, h.newline, h.room, fun _ ↦ ?_⟩
  obtain ⟨rest, rfl⟩ := h.exists_cons hne
  rw [List.head?_cons, hc]

theorem next_eq (h : s.Sync pending) (hsaved : s.saved = true) :
    s.input.r ≠ s.input.w ∧ s.input.char s.input.r = ctrl 'D' := by
  obtain ⟨rest, rfl⟩ := List.head?_eq_some_iff.mp (h.saved hsaved)
  refine ⟨?_, h.shows.tail.2⟩
  rw [Ne, h.shows.r_eq_w_iff]
  exact List.cons_ne_nil _ _

theorem shorten (h : s.Sync pending) {input : Input} {line : List (BitVec 8)}
    (hshows : input.Shows s.taken.length pending line) (hline : line.Sublist s.text.line) :
    { s with input := input, text := ⟨s.text.committed, line⟩ }.Sync pending := by
  refine ⟨h.committed, hshows, fun hmem ↦ h.newline (hline.subset hmem), fun hne ↦ ?_, h.saved⟩
  have hne' : s.text.line ≠ [] := by
    intro hnil
    rw [hnil, List.sublist_nil] at hline
    exact hne hline
  exact ((List.Sublist.refl pending).append hline).length_le.trans_lt (h.room hne')

theorem insert (h : s.Sync pending) (c : BitVec 8) : ∃ pending',
    { s with input := (s.input.insert c).1, text := s.text.insert s.room c }.Sync pending' ∧
      s.text.committed <+: (s.text.insert s.room c).committed := by
  by_cases hroom : c ≠ 0 ∧ (s.input.e - s.input.r).toNat < inputBuf
  · have hlt : (pending ++ s.text.line).length < inputBuf := h.shows.toNat_e_sub_r ▸ hroom.2
    have hroom' : c ≠ 0 ∧ 0 < s.room := ⟨hroom.1, by rw [h.room_eq]; exact Nat.sub_pos_of_lt hlt⟩
    obtain ⟨c', hc'⟩ : ∃ c', (if c = 13 then OperatingSystems.newline else c) = c' := ⟨_, rfl⟩
    have hpush := h.shows.push hlt c'
    have hlast : s.room = 1 ↔ s.input.e + 1 = s.input.r + BitVec.ofNat 32 inputBuf := by
      rw [hpush.e_eq_full_iff, h.room_eq]
      simp only [List.length_append, List.length_singleton] at hlt ⊢
      omega
    by_cases hend : c' = OperatingSystems.newline ∨ c' = ctrl 'D' ∨
        s.input.e + 1 = s.input.r + BitVec.ofNat 32 inputBuf
    · have hin : (s.input.insert c).1 = ⟨update s.input.buf
          (s.input.e.toNat % inputBuf) c', s.input.r, s.input.e + 1, s.input.e + 1⟩ := by
        rw [Input.insert, if_pos hroom, hc']
        exact congrArg Prod.fst (if_pos hend)
      have htext : s.text.insert s.room c =
          ⟨s.text.committed ++ (s.text.line ++ [c']), []⟩ := by
        rw [Typescript.insert, if_pos hroom', hc']
        exact if_pos (hend.imp_right (Or.imp_right hlast.mpr))
      rw [hin, htext]
      refine ⟨pending ++ (s.text.line ++ [c']), ⟨?_, hpush.commit, List.not_mem_nil,
        fun hne ↦ absurd rfl hne, fun hsaved ↦ ?_⟩, List.prefix_append _ _⟩
      · rw [h.committed, List.append_assoc]
      · rw [List.head?_append, h.saved hsaved]
        rfl
    · have hin : (s.input.insert c).1 = ⟨update s.input.buf
          (s.input.e.toNat % inputBuf) c', s.input.r, s.input.w, s.input.e + 1⟩ := by
        rw [Input.insert, if_pos hroom, hc']
        exact congrArg Prod.fst (if_neg hend)
      have htext : s.text.insert s.room c = ⟨s.text.committed, s.text.line ++ [c']⟩ := by
        rw [Typescript.insert, if_pos hroom', hc']
        exact if_neg fun hend' ↦ hend (hend'.imp_right (Or.imp_right hlast.mp))
      rw [hin, htext]
      rw [not_or, not_or] at hend
      refine ⟨pending, ⟨h.committed, hpush, ?_, fun _ ↦ ?_, h.saved⟩, List.prefix_rfl⟩
      · rw [List.mem_append, not_or, List.mem_singleton]
        exact ⟨h.newline, fun heq ↦ hend.1 heq.symm⟩
      · exact hpush.ring.length_le.lt_of_ne fun heq ↦ hend.2.2 (hpush.e_eq_full_iff.mpr heq)
  · have hin : s.input.insert c = (s.input, false) := by
      rw [Input.insert, if_neg hroom]
    have htext : s.text.insert s.room c = s.text := by
      rw [Typescript.insert, if_neg]
      rintro ⟨hc, hpos⟩
      rw [h.room_eq, ← h.shows.toNat_e_sub_r] at hpos
      exact hroom ⟨hc, Nat.lt_of_sub_pos hpos⟩
    rw [hin, htext]
    exact ⟨pending, h, List.prefix_rfl⟩

/-- **Any character** leaves the buffer in agreement with what was typed, and what was completed as
it was. -/
theorem put (h : s.Sync pending) (c : BitVec 8) : ∃ pending',
    (s.put c).Sync pending' ∧ s.text.committed <+: (s.put c).text.committed := by
  unfold Tty.put Input.put Typescript.typed
  by_cases hp : c = ctrl 'P'
  · rw [if_pos hp, if_pos hp]
    exact ⟨pending, h, List.prefix_rfl⟩
  rw [if_neg hp, if_neg hp]
  by_cases hu : c = ctrl 'U'
  · rw [if_pos hu, if_pos hu]
    exact ⟨pending, h.shorten (h.shows.killLine h.newline) (List.nil_sublist _), List.prefix_rfl⟩
  rw [if_neg hu, if_neg hu]
  by_cases hb : c = ctrl 'H' ∨ c = 0x7f
  · rw [if_pos hb, if_pos hb]
    exact ⟨pending, h.shorten h.shows.backspace (List.dropLast_sublist _), List.prefix_rfl⟩
  · rw [if_neg hb, if_neg hb]
    exact h.insert c

end Sync

/-! ## All interleavings -/

variable [DecidableEq π] {m m' : Monitor (Option π) TtyPc TtyChan (Tty π)} {k : Bool}
  {q : Option π} {pc : TtyPc} {i : Instr TtyPc TtyChan (Tty π)}

theorem Move.sync (h : Move k s q pc i) (hs : ∃ pending, s.Sync pending) :
    ∃ pending, (i.data s).Sync pending := by
  obtain ⟨pending, hs⟩ := hs
  cases h with
  | save hne hc hlt => exact ⟨pending, hs.save hne hc⟩
  | eof hne hc hle | eol hne hc | char hne hc =>
    obtain ⟨rest, rfl⟩ := hs.exists_cons hne
    exact ⟨rest, (hs.take _).1⟩
  | wake c | put c =>
    obtain ⟨pending', hput, -⟩ := hs.put c
    exact ⟨pending', hput⟩
  | readKilled | readDone =>
      exact ⟨pending, ⟨hs.committed, hs.shows, hs.newline, hs.room, hs.saved⟩⟩
  | _ => exact ⟨pending, hs⟩

theorem Move.keeps (h : Move k s q pc i) :
    i.Keeps (fun s ↦ ∃ pending, s.Sync pending) (fun _ _ s ↦ ∃ pending, s.Sync pending) q pc s := by
  have hsync := h.sync
  cases h with
  | callRead | callIntr => trivial
  | _ => exact hsync

theorem Move.committed (h : Move k s q pc i) (hs : s.Sync pending) :
    s.text.committed <+: (i.data s).text.committed := by
  cases h with
  | wake c | put c =>
    obtain ⟨-, -, hprefix⟩ := hs.put c
    exact hprefix
  | _ => exact List.prefix_rfl

/-- The characters that a process took, but for those `^D` that ended a call, are those that its
calls got. -/
def Account (p : π) (pc : TtyPc) (s : Tty π) : Prop :=
  ((s.taken.filter fun b ↦ b.1 = p).map Prod.snd).filter (fun c ↦ c ≠ ctrl 'D') =
    s.gave p ++ pc.got ∧ pc.Counts

theorem account_take (hne : p' ≠ p) (h : Account p' pc s) : Account p' pc (s.take p) := by
  refine ⟨?_, h.2⟩
  rw [Tty.take, List.filter_append, List.filter_cons_of_neg (by simpa using hne.symm),
    List.filter_nil, List.append_nil]
  exact h.1

theorem account_take_self (hc : s.input.char s.input.r ≠ ctrl 'D')
    (hgot : pc'.got = pc.got ++ [s.input.char s.input.r]) (hcounts : pc'.Counts)
    (h : Account p pc s) : Account p pc' (s.take p) := by
  refine ⟨?_, hcounts⟩
  rw [Tty.take, List.filter_append, List.map_append, List.filter_append, h.1, hgot,
    List.append_assoc, List.filter_cons_of_pos (by simp)]
  simp [hc]

theorem account_noteRead {cs : List (BitVec 8)} (hne : p' ≠ p) (h : Account p' pc s) :
    Account p' pc (s.noteRead p cs) := by
  refine ⟨?_, h.2⟩
  unfold Tty.noteRead
  dsimp only
  rw [update_of_ne hne]
  exact h.1

theorem account_noteRead_self {r : ℤ} (h : Account p pc s) :
    Account p (.idle r) (s.noteRead p pc.got) := by
  refine ⟨?_, trivial⟩
  unfold Tty.noteRead
  dsimp only
  rw [update_self]
  exact h.1.trans (List.append_nil _).symm

theorem Move.account_of_ne (h : Move k s q pc i) (hne : some p' ≠ q) (ha : Account p' pc' s) :
    Account p' pc' (i.data s) := by
  have hp {p : π} (hq : some p' ≠ some p) : p' ≠ p := fun heq ↦ hq (congrArg some heq)
  cases h with
  | eof | eol | char => exact account_take (hp hne) ha
  | readKilled | readDone => exact account_noteRead (hp hne) ha
  | _ => exact ha

theorem Move.account (h : Move k s (some p) pc i) (ha : Account p pc s) :
    Account p i.next (i.data s) := by
  generalize hq : some p = q at h
  cases h with
  | eof hne hc hle =>
    obtain rfl := Option.some.inj hq
    refine ⟨?_, ha.2⟩
    rw [Instr.data, Tty.take, hc, List.filter_append, List.map_append, List.filter_append, ha.1,
      List.filter_cons_of_pos (by simp)]
    exact List.append_nil _
  | eol hne hc | char hne hc =>
    obtain rfl := Option.some.inj hq
    refine account_take_self hc rfl ?_ ha
    have hcounts := ha.2
    simp only [TtyPc.Counts, Instr.next, List.length_append, List.length_singleton] at hcounts ⊢
    omega
  | readKilled hempty hk =>
    obtain rfl := Option.some.inj hq
    exact account_noteRead_self ha
  | readDone n target got =>
    obtain rfl := Option.some.inj hq
    exact account_noteRead_self ha
  | read n => exact ⟨ha.1, Nat.add_zero n⟩
  | callRead n => exact ⟨ha.1, trivial⟩
  | callIntr | intr | wake | put | intrDone => exact absurd hq (Option.some_ne_none p)
  | _ => exact ha

structure Inv (m : Monitor (Option π) TtyPc TtyChan (Tty π)) : Prop where
  outline : m.Outline (fun pc ↦ pc.holds = true) (fun s ↦ ∃ pending, s.Sync pending)
    fun _ _ s ↦ ∃ pending, s.Sync pending
  account : ∀ p, Account p (m.thread (some p)).pc m.data

theorem Inv.sync (h : Inv m) : ∃ pending, m.data.Sync pending := by
  cases hlock : m.lock with
  | none => exact h.outline.free hlock
  | some p => exact h.outline.held p hlock

theorem Inv.of_initial (h : Initial m) : Inv m := by
  refine ⟨.of_outside h.lock (fun p ↦ ?_) ⟨[], ?_, ⟨?_, ?_, ?_, ?_⟩, ?_, ?_, ?_⟩, fun p ↦ ⟨?_, ?_⟩⟩
  · rw [h.pc]
    exact Bool.false_ne_true
  · rw [h.text, h.taken]
    rfl
  · rw [h.text]
    exact .nil ..
  · rw [h.r, h.taken]
    rfl
  · rw [h.w, h.taken]
    rfl
  · rw [h.e, h.taken, h.text]
    rfl
  · rw [h.text]
    exact List.not_mem_nil
  · rw [h.text]
    exact fun hne ↦ absurd rfl hne
  · rw [h.saved]
    exact fun hne ↦ absurd hne Bool.false_ne_true
  · rw [h.taken, h.gave, h.pc]
    rfl
  · rw [h.pc]
    trivial

theorem Inv.step {a : MonitorAct (Option π) TtyInput} (h : Inv m)
    (hs : m.step code a = some m') : Inv m' := by
  refine ⟨h.outline.step hs fun p x i _ hi ↦ ?_, fun p ↦ ?_⟩
  · exact ⟨(move_of_code hi).fits, (move_of_code hi).keeps⟩
  · -- the interrupt handler has no account
    refine Monitor.forall_local_step (L := fun q pc s ↦ ∀ p, q = some p → Account p pc s)
      (fun q p hq ↦ by rw [hq]; exact h.account p) hs (fun q x i hi ↦ ⟨?_, ?_⟩) (some p) p rfl
    · rintro p rfl
      exact (move_of_code hi).account (h.account p)
    · rintro q' hne p rfl
      exact (move_of_code hi).account_of_ne hne (h.account p)

theorem inv_of_reachable (h : (tty π).Reachable m) : Inv m :=
  h.invariant (fun _ ↦ .of_initial) fun _ _ _ hI hs ↦ hI.step hs

theorem Move.of_eof {n target : ℕ} {got : List (BitVec 8)}
    (h : Move k s (some p) (.readLoop n target got) i) (hn : n ≠ 0)
    (hcounts : n + got.length = target) (hne : s.input.r ≠ s.input.w)
    (hc : s.input.char s.input.r = ctrl 'D') :
    i.next = .readDone n target got ∧
      (got = [] → (i.data s).taken = s.taken ++ [(p, ctrl 'D')] ∧ (i.data s).saved = false) ∧
      (got ≠ [] → (i.data s).input = s.input ∧ (i.data s).taken = s.taken ∧
        (i.data s).saved = true) := by
  cases h with
  | readEnd => exact absurd rfl hn
  | readKilled hempty hk => exact absurd hempty hne
  | empty hempty hk => exact absurd hempty hne
  | eol hne hc' => exact absurd hc hc'
  | char hne hc' => exact absurd hc hc'
  | save hne hc hlt =>
    refine ⟨rfl, fun hnil ↦ ?_, fun _ ↦ ⟨rfl, rfl, rfl⟩⟩
    rw [hnil, List.length_nil, Nat.add_zero] at hcounts
    exact absurd hcounts hlt.ne
  | eof hne hc hle =>
    refine ⟨rfl, fun _ ↦ ⟨?_, rfl⟩, fun hgot ↦ ?_⟩
    · rw [← hc]
      rfl
    · have hpos := List.length_pos_iff.mpr hgot
      omega

theorem Move.saved (h : Move k s q pc i) (hs : s.Sync pending) (hsaved : s.saved = true)
    (hcounts : q ≠ none → pc.Counts) : (i.data s).saved = true ∨
      ∃ p n, q = some p ∧ pc = .readLoop n n [] ∧ i.next = .readDone n n [] := by
  obtain ⟨hne, hc⟩ := hs.next_eq hsaved
  cases h with
  | eol hne hc' => exact absurd hc hc'
  | char hne hc' => exact absurd hc hc'
  | eof hne hc hle =>
    rename_i p n target got
    have hsum : n + got.length = target := hcounts (Option.some_ne_none p)
    obtain rfl : got = [] := List.length_eq_zero_iff.mp (by omega)
    obtain rfl : n = target := hsum
    exact .inr ⟨p, n, rfl, rfl, rfl⟩
  | save hne hc hlt => exact .inl rfl
  | _ => exact .inl hsaved

/-- The line discipline, in a state and for the next step. -/
structure LineDiscipline (m : Monitor (Option π) TtyPc TtyChan (Tty π)) : Prop where
  /-- `r ≤ w ≤ e ≤ r + INPUT_BUF`, going up from `r`. -/
  order : (m.data.input.w - m.data.input.r).toNat ≤ (m.data.input.e - m.data.input.r).toNat ∧
    (m.data.input.e - m.data.input.r).toNat ≤ inputBuf
  /-- A full buffer has a line for readers. -/
  full : m.data.input.e = m.data.input.r + BitVec.ofNat 32 inputBuf →
    m.data.input.w = m.data.input.e
  /-- What readers took, and what is there for them, is what was completed. -/
  taken : m.data.text.committed =
    m.data.taken.map Prod.snd ++ m.data.input.window m.data.input.r m.data.input.w
  line : m.data.text.line = m.data.input.window m.data.input.w m.data.input.e
  /-- What was completed stays as it is. -/
  committed : ∀ a m', (tty π).step m a = some m' → m.data.text.committed <+: m'.data.text.committed
  /-- Each character taken went to the one process that took it, but for a `^D`, which ended a
  call. -/
  gave : ∀ p, ((m.data.taken.filter fun b ↦ b.1 = p).map Prod.snd).filter (fun c ↦ c ≠ ctrl 'D') =
    m.data.gave p ++ (m.thread (some p)).pc.got
  /-- A call returns how many characters it got. -/
  ret : ∀ p n target got, (m.thread (some p)).pc = .readDone n target got →
    target - n = got.length
  /-- A call that meets a `^D` ends: the `^D` is taken if the call got nothing, and else saved. -/
  eof : ∀ p x m' n target got, (tty π).step m (.go (some p) x) = some m' →
    (m.thread (some p)).pc = .readLoop n target got → n ≠ 0 → m.data.input.r ≠ m.data.input.w →
      m.data.input.char m.data.input.r = ctrl 'D' →
        (m'.thread (some p)).pc = .readDone n target got ∧
        (got = [] → m'.data.taken = m.data.taken ++ [(p, ctrl 'D')] ∧ m'.data.saved = false) ∧
        (got ≠ [] → m'.data.input = m.data.input ∧ m'.data.taken = m.data.taken ∧
          m'.data.saved = true)
  /-- A saved `^D` is the next character. -/
  saved : m.data.saved = true → m.data.input.r ≠ m.data.input.w ∧
    m.data.input.char m.data.input.r = ctrl 'D'
  /-- It stays so until a call ends that has got nothing. -/
  kept : ∀ a m', (tty π).step m a = some m' → m.data.saved = true → m'.data.saved = true ∨
    ∃ p n, (m.thread (some p)).pc = .readLoop n n [] ∧ (m'.thread (some p)).pc = .readDone n n []

/-- **The line discipline holds** for any interleaving of the interrupt handler with any characters
and of the calls of any processes. -/
theorem lineDiscipline_of_reachable (h : (tty π).Reachable m) : LineDiscipline m := by
  have hI := inv_of_reachable h
  obtain ⟨pending, hs⟩ := hI.sync
  refine ⟨⟨?_, ?_⟩, fun hfull ↦ ?_, ?_, ?_, fun a m' hstep ↦ ?_, fun p ↦ (hI.account p).1, ?_, ?_,
    hs.next_eq, fun a m' hstep hsaved ↦ ?_⟩
  · rw [hs.shows.toNat_w_sub_r, hs.shows.toNat_e_sub_r, List.length_append]
    exact Nat.le_add_right ..
  · rw [hs.shows.toNat_e_sub_r]
    exact hs.shows.ring.length_le
  · have hlen := hs.shows.e_eq_full_iff.mp hfull
    refine (hs.shows.e_eq_w_iff.mpr ?_).symm
    by_contra hne
    exact (hs.room hne).ne hlen
  · rw [hs.shows.window_r_w]
    exact hs.committed
  · exact hs.shows.window_w_e.symm
  · have hstep : m.step code a = some m' := hstep
    obtain ⟨p, rfl, rfl⟩ | ⟨p, x, i, rfl, -, hi, hexec⟩ := Monitor.step_cases hstep
    · exact List.prefix_rfl
    · rw [Monitor.exec_data hexec]
      exact (move_of_code hi).committed hs
  · intro p n target got hpc
    have hcounts := (hI.account p).2
    rw [hpc] at hcounts
    have hsum : n + got.length = target := hcounts
    omega
  · intro p x m' n target got hstep hpc hn hne hc
    have hstep : m.step code (.go (some p) x) = some m' := hstep
    obtain ⟨p', ha, -⟩ | ⟨p', x', i, ha, -, hi, hexec⟩ := Monitor.step_cases hstep
    · cases ha
    · cases ha
      have hcounts := (hI.account p).2
      have hmove := move_of_code hi
      rw [hpc] at hcounts hmove
      rw [Monitor.exec_pc hexec, Monitor.exec_data hexec]
      exact hmove.of_eof hn hcounts hne hc
  · have hstep : m.step code a = some m' := hstep
    obtain ⟨p, rfl, rfl⟩ | ⟨q, x, i, rfl, -, hi, hexec⟩ := Monitor.step_cases hstep
    · exact .inl hsaved
    · have hcounts : q ≠ none → (m.thread q).pc.Counts := by
        intro hq
        obtain ⟨p, rfl⟩ := Option.ne_none_iff_exists'.mp hq
        exact (hI.account p).2
      rw [Monitor.exec_data hexec]
      refine ((move_of_code hi).saved hs hsaved hcounts).imp_right ?_
      rintro ⟨p, n, rfl, hpc, hnext⟩
      exact ⟨p, n, hpc, by rw [Monitor.exec_pc hexec, hnext]⟩

/-- A line with a correction in it, ended by `^D` and read by two calls. -/
theorem lineDiscipline_of_reachable_eof : ∃ m, (tty (Fin 1)).Reachable m ∧
    (m.data.taken.map Prod.snd = [0x61, ctrl 'D'] ∧ (m.thread (some 0)).pc = .idle 0) ∧
    LineDiscipline m := by
  obtain ⟨m, hm, hread⟩ := Machine.exists_reachable_of_run (M := tty (Fin 1))
    ([.go none .consoleintr, .go none .go, .go none (.getc (some 0x61)),
      .go none (.getc (some 0x62)), .go none (.getc (some 0x7f)),
      .go none (.getc (some (ctrl 'D'))), .go none (.getc none),
      .go (some 0) (.consoleread 5)] ++ List.replicate 4 (.go (some 0) .go) ++
      .go (some 0) (.consoleread 5) :: List.replicate 3 (.go (some 0) .go))
    (fun m ↦ m.data.taken.map Prod.snd = [0x61, ctrl 'D'] ∧ (m.thread (some 0)).pc = .idle 0)
    initial_boot (by decide +kernel)
  exact ⟨m, hm, of_decide_eq_true hread, lineDiscipline_of_reachable hm⟩

end Tty

end OperatingSystems
