import Mathlib.Order.Interval.Finset.Nat
import OperatingSystems.Fs.Filewrite
import OperatingSystems.Fs.Format

/-!
# What a write logs

Each transaction of `filewrite` has `MAXOPBLOCKS` blocks of the log to itself. The functions here
list the blocks that `balloc`, `bmap`, `writei` and `filewrite` pass to `log_write`, in their order;
what was logged before a panic is listed as well.

The blocks are counted through the places of the inode. A block of the file, or its indirect block,
is logged because it is in a place on the way to the bytes; a block of the bit map because such a
place was empty. A transaction touches at most four blocks of the file, and where it touches four
the first one was there already.
-/

namespace OperatingSystems

/-- What is logged behind a step, which is nothing if the step panics. -/
def thenLog {α : Type} (x : Except BlockPanic α) (f : α → List BlockNo) : List BlockNo :=
  match x with
  | .ok a => f a
  | .error _ => []

namespace FsDisk

variable {n : ℕ} (sb : Sb)

/-- `balloc` logs its block of the bit map, and `bzero` the block that it clears. -/
def ballocLog (d : FsDisk n) : List BlockNo :=
  thenLog (d.balloc sb.layout) fun r ↦ [sb.bblock r.2, r.2]

def loadIndirectLog (d : FsDisk n) (ip : Dinode) : List BlockNo :=
  if ip.indirect = 0 then d.ballocLog sb else []

/-- `bmap` logs the indirect block when it has changed an entry. -/
def indirectEntryLog (d : FsDisk n) (ip : Dinode) (j : Fin nindirect) : List BlockNo :=
  if d.data ip.indirect j = 0 then
    d.ballocLog sb ++ thenLog (d.balloc sb.layout) fun _ ↦ [ip.indirect]
  else []

def bmapLog (d : FsDisk n) (ip : Dinode) (bn : ℕ) : List BlockNo :=
  if h : bn < ndirect then
    if ip.addrs ⟨bn, Nat.lt_succ_of_lt h⟩ = 0 then d.ballocLog sb else []
  else if h : bn - ndirect < nindirect then
    d.loadIndirectLog sb ip ++ thenLog (d.loadIndirect sb.layout ip) fun r ↦
      r.1.indirectEntryLog sb r.2 ⟨bn - ndirect, h⟩
  else []

/-- The loop of `writei` logs each block that it has changed. -/
def writeLog : ℕ → FsDisk n → Dinode → ℕ → ℕ → (ℕ → BitVec 8) → List BlockNo
  | 0, _, _, _, _, _ => []
  | fuel + 1, d, ip, off, len, src =>
    if len = 0 then [] else
      d.bmapLog sb ip (off / bSize) ++ thenLog (d.bmap sb.layout ip (off / bSize)) fun r ↦
        let m := chunk off len
        let blk := (r.1.data r.2.2).store (off % bSize) m src
        r.2.2 :: writeLog fuel (r.1.write r.2.2 blk) r.2.1 (off + m) (len - m) fun t ↦ src (m + t)

/-- `writei` logs, with `iupdate`, the block of the inode when the size has changed. -/
def writeiLog (d : FsDisk n) (i : Fin n) (ip : Dinode) (off len : Word) (src : ℕ → BitVec 8) :
    List BlockNo :=
  if CanWrite ip off len then
    writeLog sb len.toNat d ip off.toNat len.toNat src ++
      thenLog (writeLoop sb.layout len.toNat d ip off.toNat len.toNat src) fun r ↦
        if 0 < len ∧ r.2.size < off + len then [sb.iblock (i + 1)] else []
  else []

end FsDisk

/-- What each transaction of `filewrite` logs. -/
def FdInode.filewriteLog {n : ℕ} (sb : Sb) (i : Fin n) :
    ℕ → List (BitVec 8) → FdInode n → List (List BlockNo)
  | 0, _, _ => []
  | fuel + 1, buf, f =>
    if buf = [] then []
    else
      let s := buf.take maxWrite
      f.disk.writeiLog sb i f.ip f.off (BitVec.ofNat 32 s.length) (FsDisk.source s) ::
        match f.writeLocked sb.layout i s with
        | .error _ => []
        | .ok (r, f) =>
          if r.toInt < 0 ∨ r ≠ BitVec.ofNat 32 s.length then []
          else filewriteLog sb i fuel (buf.drop r.toNat) f

namespace FsDisk

variable {n : ℕ} {sb : Sb} {d d' : FsDisk n} {i : Fin n} {ip ip' : Dinode} {b : BlockNo}
  {W E : Finset Pointer} {r : FsDisk n × BlockNo} {q : Pointer} {off len : Word}
  {src : ℕ → BitVec 8}

/-! ## The places behind the blocks -/

/-- Block `b` is in one of the places `W` of inode `i`, or it is the block of the bit map for what
is in one of the places `E`. -/
def Explained (sb : Sb) (i : Fin n) (d : FsDisk n) (W E : Finset Pointer) (b : BlockNo) : Prop :=
  (∃ q ∈ W, d.stored (i, q) = b) ∨ ∃ q ∈ E, sb.bblock (d.stored (i, q)) = b

theorem Explained.mono {W' E' : Finset Pointer} (h : Explained sb i d W E b) (hW : W ⊆ W')
    (hE : E ⊆ E') : Explained sb i d W' E' b :=
  h.imp (fun ⟨q, hq, hb⟩ ↦ ⟨q, hW hq, hb⟩) fun ⟨q, hq, hb⟩ ↦ ⟨q, hE hq, hb⟩

theorem Explained.keeps (h : Explained sb i d W E b)
    (hkeeps : ∀ q ∈ W ∪ E, d'.stored (i, q) = d.stored (i, q)) : Explained sb i d' W E b := by
  rcases h with ⟨q, hq, rfl⟩ | ⟨q, hq, rfl⟩
  · exact .inl ⟨q, hq, hkeeps q (Finset.mem_union_left _ hq)⟩
  · exact .inr ⟨q, hq, congrArg _ (hkeeps q (Finset.mem_union_right _ hq))⟩

theorem ballocLog_of_ok (h : d.balloc sb.layout = .ok r) :
    d.ballocLog sb = [sb.bblock r.2, r.2] := by
  rw [ballocLog, h, thenLog]

theorem ballocLog_of_error {e : BlockPanic} (h : d.balloc sb.layout = .error e) :
    d.ballocLog sb = [] := by
  rw [ballocLog, h, thenLog]

theorem explained_ballocLog (h : d.balloc sb.layout = .ok r) (hq : d'.stored (i, q) = r.2)
    (hb : b ∈ d.ballocLog sb) : Explained sb i d' {q} {q} b := by
  rw [ballocLog_of_ok h, List.mem_cons, List.mem_singleton, ← hq] at hb
  rcases hb with rfl | rfl
  · exact .inr ⟨q, Finset.mem_singleton_self q, rfl⟩
  · exact .inl ⟨q, Finset.mem_singleton_self q, rfl⟩

theorem Grown.eq_zero (h : Grown sb.layout i d ip d' ip')
    (hq : (d'.iupdate i ip').stored (i, q) = 0) : (d.iupdate i ip).stored (i, q) = 0 := by
  by_contra hne
  rw [h.keeps _ hne] at hq
  exact hne hq

/-! ## Mapping a block -/

theorem loadIndirectLog_explained (h : (d.iupdate i ip).Owned sb.layout) (hi : ip.type ≠ 0) :
    ∃ d' ip', Grown sb.layout i d ip d' ip' ∧
      (∀ r, d.loadIndirect sb.layout ip = .ok r → r = (d', ip')) ∧
      ∀ b ∈ d.loadIndirectLog sb ip, ip.indirect = 0 ∧ ip'.indirect ≠ 0 ∧
        Explained sb i (d'.iupdate i ip') {.last} {.last} b := by
  rw [loadIndirect, loadIndirectLog]
  by_cases h₀ : ip.indirect = 0
  · rw [if_pos h₀, if_pos h₀]
    cases hr : d.balloc sb.layout with
    | error e =>
      refine ⟨d, ip, .refl h, (fun r hr ↦ by cases hr), fun b hb ↦ ?_⟩
      rw [ballocLog_of_error hr] at hb
      cases hb
    | ok r =>
      have hm :=
        (filled_balloc (k := Fin.last ndirect) h hi h₀ ((balloc_spec _ d).of_ok hr)).mapped h
      refine ⟨r.1, ip.setAddr (Fin.last ndirect) r.2, hm.grown, fun r hr ↦ ?_, fun b hb ↦ ?_⟩
      · exact (Except.ok.inj hr).symm
      · refine ⟨h₀, ?_, explained_ballocLog hr hm.addr hb⟩
        rw [Dinode.indirect, Dinode.setAddr_addrs, Function.update_self]
        exact hm.ne_zero
  · rw [if_neg h₀, if_neg h₀]
    exact ⟨d, ip, .refl h, fun r hr ↦ (Except.ok.inj hr).symm, fun b hb ↦ by cases hb⟩

theorem indirectEntryLog_explained (h : (d.iupdate i ip).Owned sb.layout) (hi : ip.type ≠ 0)
    (h₀ : ip.indirect ≠ 0) (j : Fin nindirect) :
    ∃ d' ip', Grown sb.layout i d ip d' ip' ∧
      (∀ r, d.indirectEntry sb.layout ip j = .ok r → d' = r.1 ∧ ip' = r.2.1) ∧
      ∀ b ∈ d.indirectEntryLog sb ip j, (d.iupdate i ip).stored (i, .indirect j) = 0 ∧
        Explained sb i (d'.iupdate i ip') {.indirect j, .last} {.indirect j} b := by
  rw [indirectEntry, indirectEntryLog]
  by_cases hj : d.data ip.indirect j = 0
  · rw [if_pos hj, if_pos hj, stored_indirect hi h₀]
    cases hr : d.balloc sb.layout with
    | error e =>
      refine ⟨d, ip, .refl h, (fun r hr ↦ by cases hr), fun b hb ↦ ?_⟩
      rw [ballocLog_of_error hr] at hb
      cases hb
    | ok r =>
      have hm := (filled_entry h hi h₀ hj ((balloc_spec _ d).of_ok hr)).mapped h
      refine ⟨_, _, hm.grown, fun r hr ↦ ?_, fun b hb ↦ ⟨hj, ?_⟩⟩
      · rw [← Except.ok.inj hr]
        exact ⟨rfl, rfl⟩
      · rcases List.mem_append.mp hb with hb | hb
        · exact (explained_ballocLog hr hm.addr hb).mono (by simp) le_rfl
        · obtain rfl := List.mem_singleton.mp hb
          exact .inl ⟨.last, by simp, indirect_eq_stored_self hi⟩
  · rw [if_neg hj, if_neg hj]
    refine ⟨d, ip, .refl h, fun r hr ↦ ?_, fun b hb ↦ by cases hb⟩
    rw [← Except.ok.inj hr]
    exact ⟨rfl, rfl⟩

theorem bmapLog_explained (h : (d.iupdate i ip).Owned sb.layout) (hi : ip.type ≠ 0) (bn : ℕ) :
    ∃ d' ip', Grown sb.layout i d ip d' ip' ∧
      (∀ r, d.bmap sb.layout ip bn = .ok r → d' = r.1 ∧ ip' = r.2.1) ∧
      ∀ b ∈ d.bmapLog sb ip bn, Explained sb i (d'.iupdate i ip') (Pointer.route bn)
        ((d.iupdate i ip).empties i (Pointer.route bn)) b := by
  rw [bmap, bmapLog]
  by_cases hlt : bn < ndirect
  · have hq : Pointer.ofBlock bn = some (.direct ⟨bn, Nat.lt_succ_of_lt hlt⟩) := by
      rw [Pointer.ofBlock, dif_pos hlt]
    rw [dif_pos hlt, dif_pos hlt, Pointer.route_of_lt hq hlt]
    dsimp only
    by_cases hk : ip.addrs ⟨bn, Nat.lt_succ_of_lt hlt⟩ = 0
    · rw [if_pos hk, if_pos hk]
      cases hr : d.balloc sb.layout with
      | error e =>
        refine ⟨d, ip, .refl h, (fun r hr ↦ by cases hr), fun b hb ↦ ?_⟩
        rw [ballocLog_of_error hr] at hb
        cases hb
      | ok r =>
        have hm := (filled_balloc h hi hk ((balloc_spec _ d).of_ok hr)).mapped h
        refine ⟨_, _, hm.grown, fun r hr ↦ ?_, fun b hb ↦ ?_⟩
        · rw [← Except.ok.inj hr]
          exact ⟨rfl, rfl⟩
        · refine (explained_ballocLog hr hm.addr hb).mono le_rfl ?_
          rw [Finset.singleton_subset_iff, mem_empties, stored_direct hi]
          exact ⟨Finset.mem_singleton_self _, hk⟩
    · rw [if_neg hk, if_neg hk]
      refine ⟨d, ip, .refl h, fun r hr ↦ ?_, fun b hb ↦ by cases hb⟩
      rw [← Except.ok.inj hr]
      exact ⟨rfl, rfl⟩
  · rw [dif_neg hlt, dif_neg hlt]
    by_cases hlt' : bn - ndirect < nindirect
    · have hq : Pointer.ofBlock bn = some (.indirect ⟨bn - ndirect, hlt'⟩) := by
        rw [Pointer.ofBlock, dif_neg hlt, dif_pos hlt']
      rw [dif_pos hlt', dif_pos hlt', Pointer.route_of_le hq (not_lt.mp hlt)]
      obtain ⟨d₁, ip₁, hg₁, hok₁, hlog₁⟩ := loadIndirectLog_explained h hi
      -- the indirect block, which is empty where it is logged
      have hfirst : ∀ {d₂ ip₂}, Grown sb.layout i d₁ ip₁ d₂ ip₂ → ∀ b ∈ d.loadIndirectLog sb ip,
          Explained sb i (d₂.iupdate i ip₂) {.indirect ⟨bn - ndirect, hlt'⟩, .last}
            ((d.iupdate i ip).empties i {.indirect ⟨bn - ndirect, hlt'⟩, .last}) b := by
        intro d₂ ip₂ hg₂ b hb
        obtain ⟨h₀, h₁, hex⟩ := hlog₁ b hb
        refine Explained.mono (hex.keeps fun q hq ↦ ?_) (by simp) ?_
        · obtain rfl : q = .last := by simpa using hq
          refine hg₂.keeps _ ?_
          rwa [indirect_eq_stored_self (hg₁.type ▸ hi)]
        · rw [Finset.singleton_subset_iff, mem_empties, indirect_eq_stored_self hi]
          exact ⟨by simp, h₀⟩
      cases hload : d.loadIndirect sb.layout ip with
      | error e =>
        refine ⟨d₁, ip₁, hg₁, (fun r hr ↦ by cases hr), fun b hb ↦ ?_⟩
        rw [thenLog, List.append_nil] at hb
        exact hfirst (.refl hg₁.owned) b hb
      | ok r =>
        obtain rfl := hok₁ r hload
        have hne : ip₁.indirect ≠ 0 := ((loadIndirect_spec h hi).of_ok hload).2.1
        obtain ⟨d₂, ip₂, hg₂, hok₂, hlog₂⟩ :=
          indirectEntryLog_explained hg₁.owned (hg₁.type ▸ hi) hne
          ⟨bn - ndirect, hlt'⟩
        refine ⟨d₂, ip₂, hg₁.trans hg₂, fun r hr ↦ hok₂ r hr, fun b hb ↦ ?_⟩
        rcases List.mem_append.mp hb with hb | hb
        · exact hfirst hg₂ b hb
        · obtain ⟨hzero, hex⟩ := hlog₂ b hb
          refine hex.mono le_rfl ?_
          rw [Finset.singleton_subset_iff, mem_empties]
          exact ⟨by simp, hg₁.eq_zero hzero⟩
    · rw [dif_neg hlt', dif_neg hlt']
      exact ⟨d, ip, .refl h, (fun r hr ↦ by cases hr), fun b hb ↦ by cases hb⟩

/-! ## The loop of `writei` -/

/-- **The loop of `writei` logs the places on the way to its bytes**, and blocks of the bit map for
those that were empty. -/
theorem writeLog_explained (fuel : ℕ) : ∀ {d : FsDisk n} {ip : Dinode} (off len : ℕ)
    (src : ℕ → BitVec 8), (d.iupdate i ip).Owned sb.layout → ip.type ≠ 0 →
    off + len ≤ maxFile * bSize → ∃ d' ip', Grown sb.layout i d ip d' ip' ∧
      ∀ b ∈ writeLog sb fuel d ip off len src, Explained sb i (d'.iupdate i ip') (wanted off len)
        ((d.iupdate i ip).empties i (wanted off len)) b := by
  induction fuel with
  | zero => exact fun {d ip} _ _ _ h _ _ ↦ ⟨d, ip, .refl h, fun b hb ↦ by cases hb⟩
  | succ fuel ih =>
    intro d ip off len src h hi hle
    rw [writeLog]
    by_cases hlen : len = 0
    · rw [if_pos hlen]
      exact ⟨d, ip, .refl h, fun b hb ↦ by cases hb⟩
    rw [if_neg hlen]
    have hsplit := wanted_eq hlen hle
    have hroute : Pointer.route (off / bSize) ⊆ wanted off len := by
      rw [hsplit]
      exact Finset.subset_union_left
    have hempties := Finset.filter_subset_filter (fun q ↦ (d.iupdate i ip).stored (i, q) = 0) hroute
    obtain ⟨d₁, ip₁, hg₁, hok, hlog⟩ := bmapLog_explained h hi (off / bSize)
    cases hr : d.bmap sb.layout ip (off / bSize) with
    | error e =>
      refine ⟨d₁, ip₁, hg₁, fun b hb ↦ ?_⟩
      rw [thenLog, List.append_nil] at hb
      exact (hlog b hb).mono hroute hempties
    | ok r =>
      obtain ⟨rfl, rfl⟩ := hok r hr
      obtain ⟨q, hq, hm, -⟩ := (bmap_spec h hi _).of_ok hr
      have hw := Grown.write hm.grown.owned (Pointer.ofBlock_ne_last hq) hm.addr hm.ne_zero
        ((r.1.data r.2.2).store (off % bSize) (chunk off len) src)
      have hchunk : chunk off len ≤ len := Nat.min_le_left _ _
      obtain ⟨d₂, ip₂, hg₂, hrest⟩ := ih (off + chunk off len) (len - chunk off len)
        (fun t ↦ src (chunk off len + t)) hw.owned (hg₁.type ▸ hi) (by omega)
      have hkeeps : ∀ q' ∈ Pointer.route (off / bSize), (d₂.iupdate i ip₂).stored (i, q')
          = (r.1.iupdate i r.2.1).stored (i, q') := fun q' hq' ↦
        (hw.trans hg₂).keeps _ (hm.route_ne_zero hq hq')
      refine ⟨d₂, ip₂, hg₁.trans (hw.trans hg₂), fun b hb ↦ ?_⟩
      rw [thenLog] at hb
      rcases List.mem_append.mp hb with hb | hb
      · refine Explained.mono ((hlog b hb).keeps fun q' hq' ↦ hkeeps q' ?_) hroute hempties
        exact (Finset.mem_union.mp hq').elim id fun hq' ↦ (mem_empties.mp hq').1
      · rcases List.mem_cons.mp hb with rfl | hb
        · have hself : q ∈ Pointer.route (off / bSize) := (Pointer.mem_route hq).mpr (.inl rfl)
          exact .inl ⟨q, hroute hself, (hkeeps q hself).trans hm.addr⟩
        · refine (hrest b hb).mono ?_ fun q' hq' ↦ ?_
          · rw [hsplit]
            exact Finset.subset_union_right
          · obtain ⟨hmem, hzero⟩ := mem_empties.mp hq'
            refine mem_empties.mpr ⟨?_, (hg₁.trans hw).eq_zero hzero⟩
            rw [hsplit]
            exact Finset.mem_union_right _ hmem

theorem card_le_of_explained {log : List BlockNo} (h : ∀ b ∈ log, Explained sb i d W E b) :
    log.toFinset.card ≤ W.card + E.card := by
  have hsub : log.toFinset ⊆ W.image (fun q ↦ d.stored (i, q)) ∪
      E.image fun q ↦ sb.bblock (d.stored (i, q)) := by
    intro b hb
    rw [Finset.mem_union, Finset.mem_image, Finset.mem_image]
    exact h b (List.mem_toFinset.mp hb)
  calc log.toFinset.card ≤ _ := Finset.card_le_card hsub
    _ ≤ _ := Finset.card_union_le _ _
    _ ≤ W.card + E.card := Nat.add_le_add Finset.card_image_le Finset.card_image_le

theorem card_writeiLog_le (h : d.Owned sb.layout) (hi : (d.dinode i).type ≠ 0)
    (hcan : CanWrite (d.dinode i) off len) :
    (d.writeiLog sb i (d.dinode i) off len src).toFinset.card ≤
      (wanted off.toNat len.toNat).card + (d.empties i (wanted off.toNat len.toNat)).card + 1 := by
  have hadd := toNat_add_of_not_lt (not_or.mp hcan.2.1).2
  have h' : (d.iupdate i (d.dinode i)).Owned sb.layout := by rwa [iupdate_self]
  obtain ⟨d', ip', -, hlog⟩ := writeLog_explained len.toNat off.toNat len.toNat src h' hi
    (hadd ▸ hcan.2.2)
  rw [iupdate_self] at hlog
  have hinode : ∀ r : Except BlockPanic (FsDisk n × Dinode), (thenLog r fun r ↦
      if 0 < len ∧ r.2.size < off + len then [sb.iblock (i + 1)] else []).toFinset.card ≤ 1 := by
    intro r
    cases r with
    | error e => exact Nat.zero_le 1
    | ok r =>
      rw [thenLog]
      split
      · exact le_rfl
      · exact Nat.zero_le 1
  rw [writeiLog, if_pos hcan, List.toFinset_append]
  calc _ ≤ _ := Finset.card_union_le _ _
    _ ≤ _ := Nat.add_le_add (card_le_of_explained hlog) (hinode _)

/-! ## How many places there are -/

theorem card_le_of_places {S : Finset Pointer} {lo hi : ℕ} (h : ∀ q ∈ S, q = .last ∨
    ∃ bn, lo ≤ bn ∧ bn < hi ∧ Pointer.ofBlock bn = some q) : S.card ≤ hi - lo + 1 := by
  have hsub : S ⊆ insert .last ((Finset.Ico lo hi).image fun bn ↦
      (Pointer.ofBlock bn).getD .last) := by
    intro q hq
    rw [Finset.mem_insert, Finset.mem_image]
    refine (h q hq).imp_right fun ⟨bn, hlo, hhi, hbn⟩ ↦ ⟨bn, Finset.mem_Ico.mpr ⟨hlo, hhi⟩, ?_⟩
    rw [hbn, Option.getD_some]
  calc S.card ≤ _ := Finset.card_le_card hsub
    _ ≤ _ := Finset.card_insert_le _ _
    _ ≤ (Finset.Ico lo hi).card + 1 := Nat.succ_le_succ Finset.card_image_le
    _ = hi - lo + 1 := by rw [Nat.card_Ico]

theorem card_wanted_le (off len : ℕ) :
    (wanted off len).card ≤ (off + len + (bSize - 1)) / bSize - off / bSize + 1 := by
  refine card_le_of_places fun q hq ↦ ?_
  obtain ⟨bn, hbn, ht, hq⟩ := mem_wanted.mp hq
  obtain ⟨q', hq'⟩ := Pointer.ofBlock_isSome hbn
  rcases (Pointer.mem_route hq').mp hq with rfl | ⟨rfl, -⟩
  · refine .inr ⟨bn, ht.1, ?_, hq'⟩
    have hhi := ht.2.1
    rw [bSize] at *
    omega
  · exact .inl rfl

theorem card_empties_wanted_le {off : ℕ} (len : ℕ) (hd : d.Dense i)
    (hoff : off ≤ (d.dinode i).size.toNat) : (d.empties i (wanted off len)).card ≤
      (off + len + (bSize - 1)) / bSize - (off + (bSize - 1)) / bSize + 1 := by
  refine card_le_of_places fun q hq ↦ ?_
  obtain ⟨hq, hzero⟩ := mem_empties.mp hq
  obtain ⟨bn, hbn, ht, hq⟩ := mem_wanted.mp hq
  obtain ⟨q', hq'⟩ := Pointer.ofBlock_isSome hbn
  rcases (Pointer.mem_route hq').mp hq with rfl | ⟨rfl, -⟩
  · refine .inr ⟨bn, ?_, ?_, hq'⟩
    · by_contra hlt
      refine hd bn ?_ ((blockAt_of_ofBlock hq').trans hzero)
      rw [bSize] at *
      omega
    · have hhi := ht.2.1
      rw [bSize] at *
      omega
  · exact .inl rfl

/-- **A transaction of at most three blocks fits its reservation.** -/
theorem card_writeiLog_le_maxOpBlocks (h : d.Owned sb.layout) (hi : (d.dinode i).type ≠ 0)
    (hd : d.Dense i) (hlen : len.toNat ≤ maxWrite) :
    (d.writeiLog sb i (d.dinode i) off len src).toFinset.card ≤ maxOpBlocks := by
  by_cases hcan : CanWrite (d.dinode i) off len
  · have hoff : off.toNat ≤ (d.dinode i).size.toNat := by
      have := (not_or.mp hcan.2.1).1
      rwa [BitVec.not_lt, BitVec.le_def] at this
    have hwanted := card_wanted_le off.toNat len.toNat
    have hempties := card_empties_wanted_le len.toNat hd hoff
    have hmax : maxWrite = 1536 := by decide
    refine (card_writeiLog_le h hi hcan).trans ?_
    rw [maxOpBlocks]
    rw [bSize] at *
    omega
  · rw [writeiLog, if_neg hcan]
    exact Nat.zero_le _

end FsDisk

/-! ## The transactions of `filewrite` -/

theorem FdInode.filewriteLog_le {n : ℕ} {sb : Sb} {i : Fin n} (fuel : ℕ) :
    ∀ {f : FdInode n} (buf : List (BitVec 8)), f.Consistent sb.layout i →
      ∀ log ∈ filewriteLog sb i fuel buf f, log.toFinset.card ≤ maxOpBlocks := by
  induction fuel with
  | zero =>
    intro f buf _ log hlog
    cases hlog
  | succ fuel ih =>
    intro f buf h log hlog
    rw [filewriteLog] at hlog
    by_cases hbuf : buf = []
    · rw [if_pos hbuf] at hlog
      cases hlog
    rw [if_neg hbuf] at hlog
    have hs : (buf.take maxWrite).length ≤ maxWrite := List.length_take_le _ _
    rcases List.mem_cons.mp hlog with rfl | hlog
    · rw [h.ip]
      refine FsDisk.card_writeiLog_le_maxOpBlocks h.owned (h.ip ▸ h.type) h.dense ?_
      rwa [toNat_ofNat_length hs]
    · -- the state behind the transaction is consistent again
      have hlocked := h.writeLocked hs
      cases hx : f.writeLocked sb.layout i (buf.take maxWrite) with
      | error e =>
        rw [hx] at hlog
        cases hlog
      | ok x =>
        obtain ⟨r, f'⟩ := x
        simp only [hx] at hlog
        split at hlog
        · cases hlog
        · next hr =>
          rcases hlocked.of_ok hx with ⟨-, heq⟩ | ⟨-, -, hadv⟩
          · cases heq
            exact absurd (.inl (by decide)) hr
          · exact ih _ hadv.consistent log hlog

/-- **Every transaction of `filewrite` fits its reservation.** -/
theorem FdInode.filewrite_reservation {n : ℕ} {sb : Sb} {i : Fin n} {f : FdInode n}
    (h : f.Consistent sb.layout i) (buf : List (BitVec 8)) :
    ∀ log ∈ filewriteLog sb i buf.length buf f, log.toFinset.card ≤ maxOpBlocks :=
  filewriteLog_le buf.length buf h

/-- The super block of a device of six blocks: the inodes, the bit map and four data blocks. -/
def smallSb : Sb := ⟨6, 4, 1, 0, 0, 0, 1⟩

/-- Two transactions on an empty file: each logs blocks of the file, the bit map and the inode. -/
theorem FdInode.filewrite_reservation_emptyFd : ∃ buf : List (BitVec 8),
    buf.length = maxWrite + 1 ∧
    filewriteLog smallSb 0 buf.length buf emptyFd = [[1, 2, 2, 1, 3, 3, 1, 4, 4, 0], [1, 5, 5, 0]] ∧
    ∀ log ∈ filewriteLog smallSb 0 buf.length buf emptyFd, log.toFinset.card ≤ maxOpBlocks := by
  have hconsistent : emptyFd.Consistent smallSb.layout 0 := consistent_emptyFd (k := 4)
  refine ⟨List.replicate (maxWrite + 1) 7, List.length_replicate, ?_,
    filewrite_reservation hconsistent _⟩
  decide +kernel

end OperatingSystems
