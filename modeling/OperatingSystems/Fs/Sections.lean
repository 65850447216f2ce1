import OperatingSystems.Fs.Effect

/-!
# The effect of every section

One lemma for each section of `Fs.go` and each call of `Fs.enter`: if it succeeds, its effect is as
`Fs.Did` says, and it locks only what its process uses. The last two theorems put them together.
-/

namespace OperatingSystems

open Function

namespace Fs

variable {n off : ℕ} {s s' s₁ : Fs n} {p : Fin nproc} {name path : Bytes} {e : Dirent n}
  {full : Bool} {I I' : Inodes n} {d i dp ip : Fin n} {m : Make} {f : Fs n → Except FsStop (Fs n)}
  {x : FsProc n} {k : Caller n} {r : ℤ} {fd : Fin nofile}

theorem slot_of_dirlookup {I : Inode n} (h : I.dirlookup name = some (off, e)) :
    I.ents[off]? = some (some e) ∧ e.name = name :=
  ⟨Slots.getElem?_of_find h, by simpa using Slots.of_find h⟩

theorem type_erased (I : Inodes n) (dp ip j : Fin n) (off : ℕ) :
    (erased I dp ip off j).type = (I j).type := by
  rw [erased]
  split_ifs
  · rw [Inodes.type_addLink, Inodes.type_setEnts]
  · rw [Inodes.type_setEnts]

theorem gen_erased (I : Inodes n) (dp ip j : Fin n) (off : ℕ) :
    (erased I dp ip off j).gen = (I j).gen := by
  rw [erased]
  split_ifs
  · rw [Inodes.gen_addLink, Inodes.gen_setEnts]
  · rw [Inodes.gen_setEnts]

theorem type_initialised (I : Inodes n) (m : Make) (ip j : Fin n) :
    (initialised I m ip j).type = (I j).type := view_update Inode.type (by rfl) j

theorem ents_initialised (I : Inodes n) (m : Make) (i x : Fin n) :
    (initialised I m i x).ents = (I x).ents := view_update Inode.ents (by rfl) x

theorem gen_initialised (I : Inodes n) (m : Make) (i x : Fin n) :
    (initialised I m i x).gen = (I x).gen := view_update Inode.gen (by rfl) x

theorem same_of_entered (h : entered full I m dp name ip = .ok I') (j : Fin n) :
    (I' j).type = (I j).type ∧ (I' j).gen = (I j).gen := by
  have hlink : ∀ {J J' : Inodes n} {why : FsPanic} {d i : Fin n} {name : Bytes},
      J.dirlink why full d name i = .ok J' →
        (J' j).type = (J j).type ∧ (J' j).gen = (J j).gen := fun hJ ↦ by
    rw [Inodes.eq_of_writeEntry (Inodes.writeEntry_of_dirlink hJ).2.2, Inodes.type_setEnts,
      Inodes.gen_setEnts]
    exact ⟨rfl, rfl⟩
  rw [entered] at h
  split_ifs at h
  · obtain ⟨I₂, hdots, h⟩ := bind_eq_ok_iff.mp h
    obtain ⟨I₁, hdot, hdotdot⟩ := bind_eq_ok_iff.mp hdots
    rw [(hlink h).1, (hlink h).2, (hlink hdotdot).1, (hlink hdotdot).2, (hlink hdot).1,
      (hlink hdot).2, Inodes.type_addLink, Inodes.gen_addLink, type_initialised, gen_initialised]
    exact ⟨rfl, rfl⟩
  · rw [(hlink h).1, (hlink h).2, type_initialised, gen_initialised]
    exact ⟨rfl, rfl⟩

theorem opened_congr (s s' : Fs n) (h : s'.file = s.file) (i : Fin n) :
    s'.opened i = s.opened i := by
  rw [opened, opened, h]

theorem opened_alloc {f : Fin nfile} (ip i : Fin n) (hf : (s.file f).ref = 0)
    (hfile : s'.file = update s.file f ⟨1, ip⟩) :
    s'.opened i = s.opened i + [ip].count i := by
  have hsum := sum_update_add s.file f ⟨1, ip⟩ fun x : File n ↦
    if 0 < x.ref ∧ x.ip = i then 1 else 0
  rw [hf] at hsum
  rw [opened, opened, hfile]
  simpa [List.count_singleton] using hsum

theorem hasType_entered :
    Outcome (fun _ ↦ True) (· ≠ .panic .ilockNoType) (entered full I m d name i) := by
  have hlink : ∀ {I : Inodes n} {why : FsPanic} {d i : Fin n} {name : Bytes}, why ≠ .ilockNoType →
      Outcome (fun _ ↦ True) (· ≠ .panic .ilockNoType) (I.dirlink why full d name i) := fun hwhy ↦
    (Outcome.dirlink (by decide) (by decide) (fun _ ↦ by decide)
      fun _ h ↦ hwhy (FsStop.panic.inj h)).imp
      fun _ _ ↦ trivial
  rw [entered]
  split_ifs
  · refine .bind (.bind (hlink ?_) fun _ _ ↦ hlink ?_) fun _ _ ↦ hlink ?_ <;> decide
  · exact hlink (by decide)

variable [NeZero n]

theorem runs_stop {e : FsStop} (he : e ≠ .panic .ilockNoType) : s.Runs p (.error e) :=
  .error fun h ↦ absurd h he

theorem runs_setPc {pc₀ pc : Pc n} (hpc : (s.proc p).pc = pc₀) (hproc : s₁.proc = s.proc)
    (hl : pc₀.Leaving → pc.Leaving) (hd : s.Did p (s₁.setPc p pc)) :
    s.Runs p (.ok (s₁.setPc p pc)) := by
  refine .ok ⟨hd, fun hc ↦ .inl ⟨?_, ?_⟩⟩
  · rwa [proc_setPc, hproc] at hc
  · rw [proc_setPc, hpc]
    exact hl

theorem runs_proc (hproc : s'.proc = update s.proc p x)
    (hx : x.cwd = none → (s.proc p).cwd = none ∧ ¬(s.proc p).pc.Leaving ∨ x.pc.Leaving)
    (hd : s.Did p s') : s.Runs p (.ok s') := by
  refine .ok ⟨hd, fun hc ↦ ?_⟩
  rw [hproc, update_self] at hc ⊢
  exact (hx hc).imp_left fun h ↦ ⟨h.1, fun hl ↦ absurd hl h.2⟩

theorem runs_ilock {pc₀ : Pc n} (hpc : (s.proc p).pc = pc₀) (hi : i ∈ pc₀.uses)
    (hf : s.Ready i → s.Runs p (f (s.load i))) : s.Runs p (s.ilock i >>= f) :=
  .ilock (fun h ↦ by cases h) (fun _ h ↦ by cases h) (fun hnone _ ↦ ⟨i, hpc ▸ hi, hnone⟩) hf

theorem runs_iget (hf : s.Runs p (f (s₁.got i))) :
    s.Runs p (s₁.iget i >>= f) := .iget (fun h ↦ by cases h) hf

theorem Did.of_load {pc pc₀ : Pc n} (hpc : (s.proc p).pc = pc₀) (hr : s.Ready i)
    (href : ∀ j, pc₀.refs.count j = pc.refs.count j) (huses : ∀ j ∈ pc.uses, j ∈ pc₀.uses)
    (hlike : Pc.Like pc₀ pc) : s.Did p ((s.load i).setPc p pc) :=
  .quiet hpc (.load hr) (fun j ↦ congrArg (s.ref j + ·) (href j))
    (fun j hj ↦ .inl (mem_uses hpc (huses j hj))) hlike

theorem Effect.of_found {pc pc₀ : Pc n} (hpc : (s.proc p).pc = pc₀) (hproc : s₁.proc = s.proc)
    (hfile : s₁.file = s.file) (hinode : s₁.inode = s.inode) (hr : s.Ready d)
    (hlook : s.looksUp p = some (d, e.name)) (hdir : (s.inode d).type = some .dir)
    (huse : d ∈ pc₀.uses) (hslot : (s.inode d).ents[off]? = some (some e))
    (huses : ∀ j ∈ pc.uses, j ∈ pc₀.uses ∨ j = e.inum) (hlink : pc.linking = pc₀.linking)
    (hunlink : pc.unlinking = pc₀.unlinking)
    (hnext : pc.Plain ∨ pc = .unlinkIp d e.inum off ∧ Proper e.name) :
    s.Effect p (s₁.setPc p pc) := by
  refine .found d off e hinode hlook hdir hr.lock (mem_uses hpc huse) hslot ?_ ?_ ?_ ?_
  · exact .of_setPc hproc hfile fun i hi ↦ (huses i hi).imp_left (mem_uses hpc)
  · rwa [proc_setPc, hpc]
  · rwa [proc_setPc, hpc]
  · rwa [proc_setPc]

theorem Did.of_found {pc pc₀ : Pc n} (hpc : (s.proc p).pc = pc₀) (hr : s.Ready d)
    (hlook : s.looksUp p = some (d, e.name)) (hdir : (s.inode d).type = some .dir)
    (huse : d ∈ pc₀.uses) (hslot : (s.inode d).ents[off]? = some (some e))
    (href : ∀ j, [e.inum].count j + pc₀.refs.count j = pc.refs.count j)
    (huses : ∀ j ∈ pc.uses, j ∈ pc₀.uses ∨ j = e.inum) (hlike : Pc.Like pc₀ pc) :
    s.Did p (((s.load d).got e.inum).setPc p pc) := by
  refine .of_near hpc (.got (.load hr) _) (fun j ↦ ?_) hlike.locks (.of_found hpc rfl rfl rfl hr
    hlook hdir huse hslot huses hlike.linking hlike.unlinking (.inl hlike.plain))
  rw [ref_got, Nat.add_assoc, href j]
  rfl

/-! ## Paths -/

theorem runs_namex (hpc : (s.proc p).pc = .namex k path) : s.Runs p (s.namex p k path) := by
  have hrefs : ∀ i j : Fin n, s.ref j + [i].count j + (Pc.namex k path).refs.count j
      = s.ref j + (Pc.walk k i path).refs.count j := fun i j ↦ by
    simp only [Pc.refs, List.count_cons, List.count_nil]
    omega
  rw [namex]
  split_ifs
  · refine runs_iget (runs_setPc hpc rfl False.elim (.quiet hpc (.got (.refl s) _) (fun j ↦ ?_)
      (fun j hj ↦ ?_) ⟨rfl, rfl, rfl, trivial⟩))
    · rw [ref_got]
      exact hrefs rootino j
    · rcases List.mem_cons.mp hj with rfl | hj
      · exact .inr rfl
      · exact .inl (mem_uses hpc hj)
  · split
    · exact runs_stop (by decide)
    · rename_i cwd hcwd
      refine runs_setPc hpc rfl False.elim (.quiet hpc (.idup (.refl s) _) (fun j ↦ ?_)
        (fun j hj ↦ .inl ?_) ⟨rfl, rfl, rfl, trivial⟩)
      · rw [ref_idup]
        exact hrefs cwd j
      · rcases List.mem_cons.mp hj with rfl | hj
        · exact List.mem_append_left _ (by rw [hcwd]; exact List.mem_singleton_self _)
        · exact mem_uses hpc hj

theorem runs_walk_fail (hpc : (s.proc p).pc = .walk k ip path) (h : Near s s₁)
    (href : s₁.ref = s.ref) : s.Runs p (.ok (s₁.setPc p (.iput ip k.fail))) := by
  refine runs_setPc hpc h.proc False.elim (.quiet hpc h (fun j ↦ ?_)
    (fun j hj ↦ .inl (mem_uses hpc ?_))
    ⟨k.locks_fail, k.linking_fail, k.unlinking_fail, k.plain_fail⟩)
  · rw [href, Pc.refs, Pc.refs, k.refs_fail]
  · change j ∈ ip :: k.fail.refs at hj
    rw [k.refs_fail] at hj
    exact hj

theorem runs_walk_return (name : Bytes) (hpc : (s.proc p).pc = .walk k ip path) (h : Near s s₁)
    (href : s₁.ref = s.ref) : s.Runs p (.ok (s₁.setPc p (k.found ip name))) := by
  refine runs_setPc hpc h.proc False.elim (.quiet hpc h (fun j ↦ ?_)
    (fun j hj ↦ .inl (mem_uses hpc ?_)) ⟨k.locks_found ip name,
    k.linking_found ip name, k.unlinking_found ip name, k.plain_found ip name⟩)
  · rw [href, k.count_refs_found, Pc.refs]
  · exact List.mem_cons.mpr ((k.mem_uses_found ip name).mp hj)

theorem runs_walk (hpc : (s.proc p).pc = .walk k ip path) : s.Runs p (s.walk p k ip path) := by
  rw [walk]
  split
  · split_ifs
    · exact runs_walk_fail hpc (.refl s) rfl
    · exact runs_walk_return [] hpc (.refl s) rfl
  · rename_i name rest hskip
    refine runs_ilock hpc List.mem_cons_self fun hr ↦ ?_
    split_ifs with hdir hlast
    · exact runs_walk_fail hpc (.load hr) rfl
    · exact runs_walk_return name hpc (.load hr) rfl
    · split
      · exact runs_walk_fail hpc (.load hr) rfl
      · rename_i off e hfind
        obtain ⟨hslot, rfl⟩ := slot_of_dirlookup hfind
        refine runs_iget (runs_setPc hpc rfl False.elim (.of_found hpc hr ?_ (not_not.mp hdir)
          List.mem_cons_self hslot (fun j ↦ ?_) (fun j hj ↦ ?_) ⟨rfl, rfl, rfl, trivial⟩))
        · rw [looksUp, hpc]
          simp only [hskip, if_neg hlast]
        · simp only [Pc.refs, List.count_cons, List.count_nil]
          omega
        · simp only [Pc.uses, Pc.refs, List.mem_cons] at hj ⊢
          tauto

/-! ## `iput` -/

theorem runs_iput {t : Pc n} (hpc : (s.proc p).pc = .iput i t) (ht : t.Plain) :
    s.Runs p (s.iputSection i >>= fun s ↦ .ok (s.setPc p (.drop i t))) := by
  rw [iputSection]
  split_ifs with hlock hfree
  · exact runs_stop (by decide)
  · obtain ⟨_, hnlink, href⟩ := hfree
    have hlock : s.lock i = none := by simpa using hlock
    refine runs_setPc hpc rfl id (.of_setPc hpc rfl rfl (fun j ↦ rfl) (fun j hj ↦ .inr ⟨hj, rfl⟩)
      (fun j hj ↦ (if_neg hj).symm) (fun j hj ↦ .inl hj) (fun j hv ht ↦ ?_)
      (.free i t hpc hlock hnlink href rfl (proc_setPc _) rfl))
    -- The freed inode is not cached any more.
    dsimp only at hv ht
    by_cases hj : j = i
    · rw [hj, update_self] at hv
      cases hv
    · rw [update_of_ne hj] at hv
      rw [Inodes.ifree, update_of_ne hj] at ht
      exact ⟨hv, ht⟩
  · exact runs_setPc hpc rfl id (.quiet hpc (.refl s) (fun j ↦ rfl)
      (fun j hj ↦ .inl (mem_uses hpc (List.mem_cons_of_mem _ hj))) ⟨rfl, rfl, rfl, ht⟩)

theorem runs_drop {t : Pc n} (hpc : (s.proc p).pc = .drop i t) (ht : t.Plain) (hpos : 0 < s.ref i) :
    s.Runs p (.ok ((s.decRef i).setPc p t)) := by
  refine runs_setPc hpc rfl id (.quiet hpc (.decRef (.refl s) i) (fun j ↦ ?_)
    (fun j hj ↦ .inl (mem_uses hpc (t.uses_subset_refs hj))) ⟨rfl, rfl, rfl, ht⟩)
  rw [Pc.refs, List.count_cons]
  change update s.ref i (s.ref i - 1) j + _ = _
  rw [update_apply]
  by_cases hj : j = i
  · rw [if_pos hj, hj, if_pos (beq_self_eq_true i)]
    omega
  · rw [if_neg hj, if_neg (by simpa using Ne.symm hj)]
    rfl

/-! ## `open`, `exec` and `chdir` -/

theorem Did.of_files {pc₀ : Pc n} (hpc : (s.proc p).pc = pc₀) (hproc : s'.proc = update s.proc p x)
    (hinode : s'.inode = s.inode)
    (hlock : ∀ i, s'.lock i = if i ∈ pc₀.locks then none else s.lock i)
    (hvalid : ∀ i, s'.valid i = true → (s.inode i).type = none → s.valid i = true)
    (href : ∀ i, s'.ref i + ((s.proc p).cwd.toList.count i + pc₀.refs.count i + s.opened i)
      = s.ref i + (x.holds i + s'.opened i))
    (huses : ∀ i ∈ x.uses, i ∈ (s.proc p).uses ∨ s.OpenAt i ∨ i = rootino ∨ s.IdleCwd i)
    (hfiles : ∀ i, s'.OpenAt i → s.OpenAt i ∨ i ∈ (s.proc p).uses) (hlocks : x.pc.locks = [])
    (hlink : x.pc.linking = none ∧ pc₀.linking = none)
    (hunlink : x.pc.unlinking = none ∧ pc₀.unlinking = none) (hplain : x.pc.Plain) :
    s.Did p s' := by
  have hx : s'.proc p = x := (congrFun hproc p).trans (update_self ..)
  have hno : ∀ i, i ∉ (s'.proc p).pc.locks := fun i hi ↦ by
    rw [hx, hlocks] at hi
    cases hi
  refine ⟨fun q hq ↦ ?_, fun i ↦ ?_, fun i hi ↦ absurd hi (hno i), fun i _ ↦ hpc ▸ hlock i,
    fun i hi ↦ absurd hi (hno i), fun i hv ht ↦ ?_, .quiet hinode ⟨?_, hfiles⟩ ?_ ?_ ?_⟩
  · rw [hproc, update_of_ne hq]
  · rw [hx, FsProc.holds, hpc]
    exact href i
  · rw [hinode] at ht
    exact ⟨hvalid i hv ht, ht⟩
  · rwa [hx]
  · rw [hx, hpc, hlink.1, hlink.2]
  · rw [hx, hpc, hunlink.1, hunlink.2]
  · rwa [hx]

/-- A program counter that stands for one inode, in a call other than `exit`. -/
structure Pc.At (pc : Pc n) (ip : Fin n) : Prop where
  leaving : ¬pc.Leaving
  refs : pc.refs = [ip]
  uses : pc.uses = [ip]
  linking : pc.linking = none
  unlinking : pc.unlinking = none

theorem runs_openFile (s₁ : Fs n) {pc₀ : Pc n} (hpc : (s.proc p).pc = pc₀)
    (hproc : s₁.proc = s.proc) (hfile : s₁.file = s.file) (hinode : s₁.inode = s.inode)
    (href : s₁.ref = s.ref) (hlock : ∀ i, s₁.lock i = if i ∈ pc₀.locks then none else s.lock i)
    (hvalid : ∀ i, s₁.valid i = true → (s.inode i).type = none → s.valid i = true)
    (hat : Pc.At pc₀ ip) : s.Runs p (.ok (s₁.openFile p ip)) := by
  obtain ⟨hl, hrefs, huses, hlink, hunlink⟩ := hat
  have hip : ip ∈ (s.proc p).uses := mem_uses hpc (by rw [huses]; exact List.mem_singleton_self _)
  generalize h : s₁.openFile p ip = s'
  rw [openFile] at h
  split at h
  · rename_i f fd hf hfd
    have hfree : (s.file f).ref = 0 := by
      rw [filealloc] at hf
      simpa [hfile] using List.find?_some hf
    have hnew : s'.file = update s.file f ⟨1, ip⟩ := by rw [← h, ← hfile]
    have hx : s'.proc = update s.proc p { s.proc p with
        ofile := update (s.proc p).ofile fd (some f), pc := .ret (fd : ℕ) } := by rw [← h, ← hproc]
    refine runs_proc hx (fun hc ↦ .inl ⟨hc, hpc ▸ hl⟩) (.of_files hpc hx (h ▸ hinode) (h ▸ hlock)
      (h ▸ hvalid) (fun i ↦ ?_) (fun i hi ↦ .inl ?_) (fun i hi ↦ ?_) rfl ⟨rfl, hlink⟩ ⟨rfl, hunlink⟩
      trivial)
    · have hsref : s'.ref = s.ref := h ▸ href
      rw [opened_alloc ip i hfree hnew, hrefs, hsref, FsProc.holds]
      change _ = s.ref i + ((s.proc p).cwd.toList.count i + 0 + _)
      omega
    · rcases List.mem_append.mp hi with hi | hi
      · exact List.mem_append_left _ hi
      · cases hi
    · obtain ⟨f', hf', hi⟩ := hi
      rw [hnew] at hf' hi
      by_cases hff : f' = f
      · rw [hff, update_self] at hi
        exact .inr (hi ▸ hip)
      · rw [update_of_ne hff] at hf' hi
        exact .inl ⟨f', hf', hi⟩
  · subst h
    refine runs_setPc hpc hproc (fun h ↦ absurd h hl) (.of_files hpc
      (x := (s.proc p).goto (.iput ip (.ret (-1)))) (by rw [setPc, hproc]) hinode hlock hvalid
      (fun i ↦ ?_) (fun i hi ↦ .inl ?_) (fun i hi ↦ .inl ⟨hi.choose, hfile ▸ hi.choose_spec⟩) rfl
      ⟨rfl, hlink⟩ ⟨rfl, hunlink⟩ trivial)
    · have hi : (s₁.setPc p (.iput ip (.ret (-1)))).ref i = s.ref i := congrFun href i
      rw [opened_congr s (s₁.setPc p _) hfile i, hi, hrefs]
      rfl
    · rcases List.mem_append.mp hi with hi | hi
      · exact List.mem_append_left _ hi
      · exact List.mem_singleton.mp hi ▸ hip

theorem runs_openFile_load {pc₀ : Pc n} (hpc : (s.proc p).pc = pc₀) (hr : s.Ready ip)
    (hat : Pc.At pc₀ ip) (hlocks : pc₀.locks = []) : s.Runs p (.ok ((s.load ip).openFile p ip)) :=
  runs_openFile (s.load ip) hpc rfl rfl rfl rfl (fun i ↦ by rw [hlocks]; rfl) (valid_of_load hr) hat

theorem runs_put {pc₀ : Pc n} (hpc : (s.proc p).pc = pc₀) (hr : s.Ready ip) (hat : Pc.At pc₀ ip)
    (hlocks : pc₀.locks = []) : s.Runs p (.ok ((s.load ip).setPc p (.iput ip (.ret r)))) :=
  runs_setPc hpc rfl (fun h ↦ absurd h hat.leaving) (.of_load hpc hr (fun j ↦ by rw [hat.refs]; rfl)
    (fun j hj ↦ by rw [hat.uses]; exact hj)
    ⟨hlocks.symm, hat.linking.symm, hat.unlinking.symm, trivial⟩)

theorem runs_openLock {omode : BitVec 32} (hpc : (s.proc p).pc = .openLock ip omode) :
    s.Runs p (s.openLock p ip omode) := by
  refine runs_ilock hpc List.mem_cons_self fun hr ↦ ?_
  split_ifs
  · exact runs_put hpc hr ⟨id, rfl, rfl, rfl, rfl⟩ rfl
  · exact runs_openFile_load hpc hr ⟨id, rfl, rfl, rfl, rfl⟩ rfl

theorem runs_execLock {reads : ℕ} {ok : Bool} (hpc : (s.proc p).pc = .execLock ip reads ok) :
    s.Runs p (s.execLock p ip reads ok) := by
  refine runs_ilock hpc List.mem_cons_self fun hr ↦ ?_
  split
  · exact runs_setPc hpc rfl False.elim
      (.of_load hpc hr (fun j ↦ rfl) (fun j hj ↦ hj) ⟨rfl, rfl, rfl, trivial⟩)
  · exact runs_put hpc hr ⟨id, rfl, rfl, rfl, rfl⟩ rfl

theorem runs_chdirLock (hpc : (s.proc p).pc = .chdirLock ip) : s.Runs p (s.chdirLock p ip) := by
  refine runs_ilock hpc List.mem_cons_self fun hr ↦ ?_
  split_ifs
  · exact runs_put hpc hr ⟨id, rfl, rfl, rfl, rfl⟩ rfl
  · split
    · exact runs_stop (by decide)
    · rename_i cwd hcwd
      change (s.proc p).cwd = some cwd at hcwd
      -- The new directory and the old one change places.
      refine runs_proc (x := { s.proc p with cwd := some ip, pc := .iput cwd (.ret 0) }) rfl
        (fun hc ↦ by cases hc) (.of_files hpc rfl rfl
        (fun i ↦ rfl) (valid_of_load hr) (fun i ↦ ?_) (fun i hi ↦ .inl ?_) (fun i hi ↦ .inl hi) rfl
        ⟨rfl, rfl⟩ ⟨rfl, rfl⟩ trivial)
      · change s.ref i + _ = s.ref i + (_ + s.opened i)
        rw [FsProc.holds, hcwd]
        simp only [Pc.refs, Option.toList_some]
        omega
      · rw [FsProc.uses, hpc, hcwd]
        simp only [FsProc.uses, Pc.uses, Pc.refs, Option.toList_some, List.mem_append,
          List.mem_singleton] at hi ⊢
        exact hi.symm

/-! ## Locks that outlast a section -/

section Locks

variable {pc pc₀ : Pc n} {d i : Fin n}

theorem Did.of_release (hpc : (s.proc p).pc = pc₀) (hproc : s₁.proc = s.proc)
    (hfile : s₁.file = s.file)
    (hlock : ∀ j, s₁.lock j = if j ∈ pc₀.locks then none else s.lock j) (hnew : pc.locks = [])
    (href : ∀ j, s₁.ref j + pc₀.refs.count j = s.ref j + pc.refs.count j)
    (hvalid : ∀ j, s₁.valid j = true → (s₁.inode j).type = none →
      s.valid j = true ∧ (s.inode j).type = none)
    (heffect : s.Effect p (s₁.setPc p pc)) : s.Did p (s₁.setPc p pc) := by
  refine .of_setPc hpc hproc hfile href ?_ (fun j _ ↦ hlock j) ?_ hvalid heffect <;> rw [hnew]
  · exact fun j hj ↦ absurd hj List.not_mem_nil
  · exact fun j hj ↦ absurd hj List.not_mem_nil

theorem Did.of_keep (hpc : (s.proc p).pc = pc₀) (hproc : s₁.proc = s.proc)
    (hfile : s₁.file = s.file)
    (hlock : ∀ j, s₁.lock j = if j ∈ pc₀.locks then none else s.lock j) (hfree : s.lock i = none)
    (hnew : pc.locks = [i]) (href : ∀ j, s₁.ref j + pc₀.refs.count j = s.ref j + pc.refs.count j)
    (hvalid : ∀ j, s₁.valid j = true → (s₁.inode j).type = none →
      s.valid j = true ∧ (s.inode j).type = none)
    (heffect : s.Effect p ((s₁.keep p i).setPc p pc)) : s.Did p ((s₁.keep p i).setPc p pc) := by
  refine .of_setPc hpc hproc hfile href (fun j hj ↦ .inl ?_) (fun j hj ↦ ?_) (fun j hj ↦ .inr ?_)
    hvalid heffect <;> rw [hnew, List.mem_singleton] at hj
  · rw [hj]
    exact update_self ..
  · exact (update_of_ne hj ..).trans (hlock j)
  · rwa [hj]

omit [NeZero n] in
theorem lock_iunlock (hlock : s₁.lock = s.lock) (j : Fin n) :
    (s₁.iunlock d).lock j = if j ∈ [d] then none else s.lock j := by
  rw [← hlock, iunlock]
  change update s₁.lock d none j = _
  rw [update_apply]
  exact if_congr List.mem_singleton.symm rfl rfl

theorem Did.of_found_keep (hpc : (s.proc p).pc = pc₀) (hr : s.Ready d)
    (hlook : s.looksUp p = some (d, e.name)) (hdir : (s.inode d).type = some .dir)
    (huse : d ∈ pc₀.uses) (hslot : (s.inode d).ents[off]? = some (some e)) (hold : pc₀.locks = [])
    (hnew : pc.locks = [d]) (href : ∀ j, [e.inum].count j + pc₀.refs.count j = pc.refs.count j)
    (huses : ∀ j ∈ pc.uses, j ∈ pc₀.uses ∨ j = e.inum) (hlink : pc.linking = pc₀.linking)
    (hunlink : pc.unlinking = pc₀.unlinking)
    (hnext : pc.Plain ∨ pc = .unlinkIp d e.inum off ∧ Proper e.name) :
    s.Did p ((((s.load d).got e.inum).keep p d).setPc p pc) := by
  have hnear : Near s ((s.load d).got e.inum) := .got (.load hr) _
  refine .of_keep hpc rfl rfl (fun j ↦ by rw [hold]; rfl) hr.lock hnew (fun j ↦ ?_)
    (fun j hv ht ↦ ⟨hnear.valid j hv ht, ht⟩)
    (.of_found hpc rfl rfl rfl hr hlook hdir huse hslot huses
      hlink hunlink hnext)
  rw [ref_got, Nat.add_assoc, href j]
  rfl

theorem Did.of_unlock (hpc : (s.proc p).pc = pc₀) (hold : pc₀.locks = [d]) (hnew : pc.locks = [])
    (href : ∀ j, pc₀.refs.count j = pc.refs.count j) (huses : ∀ j ∈ pc.uses, j ∈ pc₀.uses)
    (hlink : pc.linking = pc₀.linking) (hunlink : pc.unlinking = pc₀.unlinking)
    (hplain : pc.Plain) : s.Did p ((s.iunlock d).setPc p pc) :=
  .of_release hpc rfl rfl (hold ▸ lock_iunlock rfl) hnew (fun j ↦ congrArg (s.ref j + ·) (href j))
    (fun _ hv ht ↦ ⟨hv, ht⟩) (.of_quiet hpc rfl rfl rfl
      (fun j hj ↦ .inl (mem_uses hpc (huses j hj))) hlink hunlink hplain)

end Locks

/-! ## `link` -/

theorem runs_linkLock {new : Bytes} (hpc : (s.proc p).pc = .linkLock ip new) :
    s.Runs p (s.linkLock p ip new) := by
  refine runs_ilock hpc List.mem_cons_self fun hr ↦ ?_
  split_ifs with hdir
  · exact runs_put hpc hr ⟨id, rfl, rfl, rfl, rfl⟩ rfl
  · exact runs_setPc hpc rfl False.elim (.of_release hpc rfl rfl (fun j ↦ rfl) rfl (fun j ↦ rfl)
      (valid_of_types hr fun j ↦ Inodes.type_addLink ..)
      (.raise ip new hpc hr hdir rfl (proc_setPc _) rfl))

theorem runs_linkDir (hpc : (s.proc p).pc = .linkDir ip dp name) :
    s.Runs p (s.linkDir p full ip dp name) := by
  refine runs_ilock hpc (List.mem_cons_of_mem _ List.mem_cons_self) fun hr ↦ ?_
  split_ifs with hdir
  · exact runs_stop (by decide)
  rw [not_not] at hdir
  split
  · rename_i off e hfind
    obtain ⟨hslot, rfl⟩ := slot_of_dirlookup hfind
    refine runs_iget (runs_setPc hpc rfl False.elim (.of_found_keep hpc hr ?_ hdir ?_ hslot rfl rfl
      (fun j ↦ ?_) (fun j hj ↦ ?_) rfl rfl (.inl trivial)))
    · rw [looksUp, hpc]
    · simp [Pc.uses, Pc.refs]
    · simp only [Pc.refs, List.count_cons, List.count_nil]
      omega
    · exact (List.mem_cons.mp hj).symm
  · rename_i hfind
    refine Outcome.bind (Outcome.writeEntry (fun h ↦ by cases h) fun h ↦ by cases h).eq_ok
      fun I hwrite ↦ ?_
    refine runs_setPc hpc rfl False.elim (.of_release hpc rfl rfl (fun j ↦ rfl) rfl
      (fun j ↦ congrArg (s.ref j + ·) ((List.Perm.swap _ _ []).count_eq j))
      (valid_of_types hr fun j ↦ ?_)
      (.link full ip dp name hpc hr.lock hdir hfind hwrite (proc_setPc _) rfl))
    change (I j).type = _
    rw [Inodes.eq_of_writeEntry hwrite, Inodes.type_setEnts]
    rfl

theorem runs_linkUndo (hpc : (s.proc p).pc = .linkUndo ip dp) :
    s.Runs p (.ok (s.linkUndo p ip dp)) :=
  runs_setPc hpc rfl False.elim (.of_unlock hpc rfl rfl (fun j ↦ (List.Perm.swap _ _ []).count_eq j)
    (fun _ hj ↦ (List.Perm.swap _ _ []).subset hj) rfl rfl trivial)

theorem runs_linkBad (hpc : (s.proc p).pc = .linkBad ip) : s.Runs p (s.linkBad p ip) := by
  refine runs_ilock hpc List.mem_cons_self fun hr ↦ ?_
  exact runs_setPc hpc rfl False.elim (.of_release hpc rfl rfl (fun j ↦ rfl) rfl (fun j ↦ rfl)
    (valid_of_types hr fun j ↦ Inodes.type_addLink ..)
    (.lower ip hpc hr.lock rfl (proc_setPc _) rfl))

/-! ## `unlink` -/

theorem runs_unlinkDir (hpc : (s.proc p).pc = .unlinkDir dp name) :
    s.Runs p (s.unlinkDir p dp name) := by
  refine runs_ilock hpc List.mem_cons_self fun hr ↦ ?_
  split_ifs with hname hdir
  · exact runs_put hpc hr ⟨id, rfl, rfl, rfl, rfl⟩ rfl
  · exact runs_stop (by decide)
  · rw [not_not] at hdir
    have hproper : Proper name := not_or.mp hname
    split
    · exact runs_put hpc hr ⟨id, rfl, rfl, rfl, rfl⟩ rfl
    · rename_i off e hfind
      obtain ⟨hslot, rfl⟩ := slot_of_dirlookup hfind
      refine runs_iget (runs_setPc hpc rfl False.elim (.of_found_keep hpc hr ?_ hdir
        (List.mem_singleton_self _) hslot rfl rfl (fun j ↦ ?_) (fun j hj ↦ ?_) rfl rfl
        (.inr ⟨rfl, hproper⟩)))
      · rw [looksUp, hpc]
        exact if_pos hproper
      · simp only [Pc.refs, List.count_cons, List.count_nil]
        omega
      · simpa [Pc.uses, Pc.refs] using hj

theorem runs_unlinkIp (hpc : (s.proc p).pc = .unlinkIp dp ip off) :
    s.Runs p (s.unlinkIp p dp ip off) := by
  refine runs_ilock hpc (List.mem_cons_of_mem _ List.mem_cons_self) fun hr ↦ ?_
  split_ifs with hnlink hempty
  · exact runs_stop (by decide)
  · exact runs_setPc hpc rfl False.elim
      (.of_load hpc hr (fun j ↦ (List.Perm.swap _ _ []).count_eq j)
      (fun j hj ↦ (List.Perm.swap _ _ []).subset hj) ⟨rfl, rfl, rfl, trivial⟩)
  · refine runs_setPc hpc rfl False.elim (.of_keep hpc rfl rfl (lock_iunlock rfl) hr.lock rfl
      (fun j ↦ rfl) (valid_of_types hr fun j ↦ type_erased ..)
      (.erase dp ip off hpc hr.lock (not_lt.mp hnlink) (fun hdir ↦ ?_) rfl (proc_setPc _) rfl))
    by_contra hne
    exact hempty ⟨hdir, by simpa [load] using hne⟩

theorem runs_unlinkBad (hpc : (s.proc p).pc = .unlinkBad dp) : s.Runs p (.ok (s.unlinkBad p dp)) :=
  runs_setPc hpc rfl False.elim
    (.of_unlock hpc rfl rfl (fun _ ↦ rfl) (fun _ hj ↦ hj) rfl rfl trivial)

theorem runs_unlinkDec (hpc : (s.proc p).pc = .unlinkDec ip) :
    s.Runs p (.ok (s.unlinkDec p ip)) := by
  refine runs_setPc hpc rfl False.elim (.of_release hpc rfl rfl (lock_iunlock rfl) rfl (fun j ↦ rfl)
    (fun j hv ht ↦ ⟨hv, ?_⟩) (.dec ip hpc rfl (proc_setPc _) rfl))
  exact (Inodes.type_addLink ..).symm.trans ht

/-! ## `create` -/

theorem runs_createDir (hpc : (s.proc p).pc = .createDir m dp name) :
    s.Runs p (s.createDir p m dp name) := by
  refine runs_ilock hpc List.mem_cons_self fun hr ↦ ?_
  split_ifs with hdir
  · exact runs_stop (by decide)
  rw [not_not] at hdir
  split
  · rename_i off e hfind
    obtain ⟨hslot, rfl⟩ := slot_of_dirlookup hfind
    refine runs_iget (runs_setPc hpc rfl False.elim (.of_found hpc hr ?_ hdir
      (List.mem_singleton_self _) hslot (fun j ↦ ?_) (fun j hj ↦ ?_) ⟨rfl, rfl, rfl, trivial⟩))
    · rw [looksUp, hpc]
    · simp only [Pc.refs, List.count_cons, List.count_nil]
      omega
    · simpa [Pc.uses, Pc.refs] using hj
  · rename_i hfind
    split
    · exact runs_stop (by decide)
    · rename_i i hi
      have hfree : (s.inode i).type = none := by
        rw [Inodes.free] at hi
        simpa [load] using List.find?_some hi
      refine runs_iget
        (runs_setPc hpc rfl False.elim (.of_keep hpc rfl rfl (fun j ↦ rfl) hr.lock rfl
        (fun j ↦ ?_) (fun j hv ht ↦ ?_)
        (.alloc m dp name i hpc hr.lock hdir hfind hfree rfl (proc_setPc _) rfl)))
      · rw [ref_got]
        simp only [setInodes, load, Pc.refs, List.count_cons, List.count_nil]
        omega
      · change (s.inode.ialloc i m.type j).type = none at ht
        rw [Inodes.ialloc, update_apply] at ht
        split_ifs at ht with hj
        have hv : ((s.load dp).setInodes (s.inode.ialloc i m.type)).valid j = true :=
          valid_of_got j hv
        exact ⟨valid_of_load hr j hv ht, ht⟩

theorem runs_createFound (hpc : (s.proc p).pc = .createFound m ip) :
    s.Runs p (s.createFound p m ip) := by
  refine runs_ilock hpc List.mem_cons_self fun hr ↦ ?_
  split_ifs
  · exact runs_openFile_load hpc hr ⟨id, rfl, rfl, rfl, rfl⟩ rfl
  · exact runs_put hpc hr ⟨id, rfl, rfl, rfl, rfl⟩ rfl

theorem runs_createNew (hpc : (s.proc p).pc = .createNew m dp name ip) :
    s.Runs p (s.createNew p full m dp name ip) := by
  refine runs_ilock hpc (List.mem_cons_of_mem _ List.mem_cons_self) fun hr ↦ ?_
  refine Outcome.bind (hasType_entered.eq_ok.imp_error fun e he h ↦ absurd h he) fun I hI ↦ ?_
  exact runs_setPc hpc rfl False.elim (.of_keep hpc rfl rfl (lock_iunlock rfl) hr.lock rfl
    (fun j ↦ rfl) (valid_of_types hr fun j ↦ (same_of_entered hI j).1)
    (.create full m dp name ip hpc hr.lock hI (proc_setPc _) rfl))

theorem runs_created (hpc : (s.proc p).pc = .created m ip) : s.Runs p (.ok (s.created p m ip)) := by
  have hput : s.Runs p (.ok ((s.iunlock ip).setPc p (.iput ip (.ret 0)))) :=
    runs_setPc hpc rfl False.elim
      (.of_unlock hpc rfl rfl (fun _ ↦ rfl) (fun _ hj ↦ hj) rfl rfl trivial)
  cases m with
  | «open» =>
    exact runs_openFile (s.iunlock ip) hpc rfl rfl rfl rfl (lock_iunlock rfl) (fun i hv _ ↦ hv)
      ⟨id, rfl, rfl, rfl, rfl⟩
  | mkdir => exact hput
  | mknod major minor => exact hput

/-! ## Files -/

structure Pc.Idle (pc : Pc n) : Prop where
  refs : pc.refs = []
  uses : pc.uses = []
  locks : pc.locks = []
  linking : pc.linking = none
  unlinking : pc.unlinking = none
  plain : pc.Plain

omit [NeZero n] in
theorem Pc.idle_ret (r : ℤ) : Pc.Idle (.ret r : Pc n) := ⟨rfl, rfl, rfl, rfl, rfl, trivial⟩

omit [NeZero n] in
theorem Pc.idle_dead : Pc.Idle (.dead : Pc n) := ⟨rfl, rfl, rfl, rfl, rfl, trivial⟩

omit [NeZero n] in
theorem Pc.idle_exit : Pc.Idle (.exit : Pc n) := ⟨rfl, rfl, rfl, rfl, rfl, trivial⟩

theorem runs_idle {pc : Pc n} (hold : Pc.Idle (s.proc p).pc) (hl : ¬(s.proc p).pc.Leaving)
    (hnew : Pc.Idle pc) : s.Runs p (.ok (s.setPc p pc)) := by
  refine runs_setPc rfl rfl (fun h ↦ absurd h hl) (.quiet rfl (.refl s)
    (fun j ↦ by rw [hold.refs, hnew.refs]) (fun j hj ↦ ?_)
    ⟨hnew.locks.trans hold.locks.symm, hnew.linking.trans hold.linking.symm,
      hnew.unlinking.trans hold.unlinking.symm, hnew.plain⟩)
  rw [hnew.uses] at hj
  cases hj

theorem runs_fileclose {f : Fin nfile} {t : Pc n} (hpc : Pc.Idle (s.proc p).pc)
    (hl : ¬(s.proc p).pc.Leaving) (ht : Pc.Idle t) :
    s.Runs p ((s.clearFd p fd).fileclose p f t) := by
  rw [fileclose]
  by_cases href : (s.file f).ref < 1
  · rw [if_pos (show ((s.clearFd p fd).file f).ref < 1 from href)]
    exact runs_stop (by decide)
  rw [if_neg (show ¬((s.clearFd p fd).file f).ref < 1 from href)]
  have hpos : 0 < (s.file f).ref := by omega
  generalize hs : ((s.clearFd p fd).decFile f).setPc p _ = s'
  have hfile : s'.file = update s.file f ⟨(s.file f).ref - 1, (s.file f).ip⟩ := by
    rw [← hs]
    rfl
  have hproc : s'.proc = update s.proc p ⟨(s.proc p).cwd,
      update (s.proc p).ofile fd none,
      if 0 < (s.file f).ref - 1 then t else .iput (s.file f).ip t⟩ := by
    rw [← hs, setPc]
    simp only [clearFd, decFile, update_self, update_idem]
    rfl
  have hopen : ∀ i, s'.opened i + (if (s.file f).ip = i then 1 else 0)
      = s.opened i + if 0 < (s.file f).ref - 1 ∧ (s.file f).ip = i then 1 else 0 := fun i ↦ by
    have hsum := sum_update_add s.file f ⟨(s.file f).ref - 1, (s.file f).ip⟩ fun x : File n ↦
      if 0 < x.ref ∧ x.ip = i then 1 else 0
    rw [if_congr (and_iff_right hpos) rfl rfl] at hsum
    rw [opened, opened, hfile]
    exact hsum
  have hgone : ∀ i, s'.OpenAt i → s.OpenAt i ∨ i ∈ (s.proc p).uses := by
    rintro i ⟨f', hf', hi⟩
    rw [hfile] at hf' hi
    by_cases hff : f' = f
    · rw [hff, update_self] at hf' hi
      exact .inl ⟨f, by dsimp only at hf'; omega, hi⟩
    · rw [update_of_ne hff] at hf' hi
      exact .inl ⟨f', hf', hi⟩
  have hinode : s'.inode = s.inode := by rw [← hs]; rfl
  have hlock : ∀ i, s'.lock i = if i ∈ (s.proc p).pc.locks then none else s.lock i := fun i ↦ by
    rw [hpc.locks, ← hs]
    rfl
  have hvalid : ∀ i, s'.valid i = true → (s.inode i).type = none → s.valid i = true :=
    fun i hv _ ↦ by rwa [← hs] at hv
  have hsref : s'.ref = s.ref := by rw [← hs]; rfl
  by_cases hlast : 0 < (s.file f).ref - 1
  · rw [if_pos hlast] at hproc
    refine runs_proc hproc (fun hc ↦ .inl ⟨hc, hl⟩) (.of_files rfl hproc hinode hlock hvalid
      (fun i ↦ ?_) (fun i hi ↦ .inl ?_) hgone ht.locks ⟨ht.linking, hpc.linking⟩
      ⟨ht.unlinking, hpc.unlinking⟩ ht.plain)
    · have hi := hopen i
      simp only [hlast, true_and] at hi
      rw [hsref, FsProc.holds, hpc.refs, ht.refs]
      dsimp only
      omega
    · rw [FsProc.uses, ht.uses] at hi
      rw [FsProc.uses, hpc.uses]
      exact hi
  · rw [if_neg hlast] at hproc
    refine runs_proc hproc (fun hc ↦ .inl ⟨hc, hl⟩) (.of_files rfl hproc hinode hlock hvalid
      (fun i ↦ ?_) (fun i hi ↦ ?_) hgone ht.locks ⟨ht.linking, hpc.linking⟩
      ⟨ht.unlinking, hpc.unlinking⟩ ht.plain)
    · have hi := hopen i
      simp only [hlast, false_and, if_false] at hi
      rw [hsref, FsProc.holds, hpc.refs, Pc.refs, ht.refs, List.count_singleton]
      simp only [List.count_nil, beq_iff_eq]
      omega
    · rcases List.mem_append.mp hi with hi | hi
      · exact .inl (List.mem_append_left _ hi)
      · change i ∈ (s.file f).ip :: t.refs at hi
        rw [ht.refs, List.mem_singleton] at hi
        exact .inr (.inl ⟨f, hpos, hi.symm⟩)

theorem runs_exit (hpc : (s.proc p).pc = .exit) : s.Runs p (s.exit p) := by
  rw [exit]
  split
  · exact runs_fileclose (hpc ▸ Pc.idle_exit) (hpc ▸ id) Pc.idle_exit
  · split
    · exact runs_stop (by decide)
    · rename_i cwd hcwd
      refine runs_proc (x := ⟨none, (s.proc p).ofile, .iput cwd .dead⟩) rfl (fun _ ↦ .inr trivial)
        (.of_files hpc rfl rfl (fun i ↦ rfl) (fun i hv _ ↦ hv) (fun i ↦ ?_) (fun i hi ↦ .inl ?_)
        (fun i hi ↦ .inl hi) rfl ⟨rfl, rfl⟩ ⟨rfl, rfl⟩ trivial)
      · change s.ref i + _ = s.ref i + (_ + s.opened i)
        rw [FsProc.holds, hcwd]
        simp only [Pc.refs, Option.toList_some, Option.toList_none, List.count_nil]
        omega
      · rw [FsProc.uses, hcwd]
        exact List.mem_append_left _ hi

theorem runs_dup (hpc : Pc.Idle (s.proc p).pc) (hl : ¬(s.proc p).pc.Leaving) :
    s.Runs p (s.dup p fd) := by
  rw [dup]
  split
  · rename_i f new hf hnew
    split_ifs with href
    · exact runs_stop (by decide)
    have hpos : 0 < (s.file f).ref := by omega
    refine runs_proc (x := ⟨(s.proc p).cwd, update (s.proc p).ofile new (some f),
      .ret (new : ℕ)⟩) rfl (fun hc ↦ .inl ⟨hc, hl⟩) (.of_files rfl rfl rfl (fun i ↦ ?_)
      (fun i hv _ ↦ hv) (fun i ↦ ?_) (fun i hi ↦ .inl ?_) (fun i ho ↦ .inl ?_) rfl
      ⟨rfl, hpc.linking⟩ ⟨rfl, hpc.unlinking⟩ trivial)
    · rw [hpc.locks]
      rfl
    · rw [hpc.refs, opened, opened, sum_update_of_eq s.file f
        (w := fun x : File n ↦ if 0 < x.ref ∧ x.ip = i then 1 else 0) (by simp [hpos])]
      rfl
    · rw [FsProc.uses, hpc.uses]
      exact hi
    · obtain ⟨f', hf', hi⟩ := ho
      dsimp only at hf' hi
      by_cases hff : f' = f
      · rw [hff, update_self] at hi
        exact ⟨f, hpos, hi⟩
      · rw [update_of_ne hff] at hf' hi
        exact ⟨f', hf', hi⟩
  · exact runs_idle hpc hl (Pc.idle_ret (-1))

theorem runs_fork {child : Fin nproc} (hpc : (s.proc p).pc = .ret r) :
    s.Runs child (s.fork p child) := by
  rw [fork]
  split
  · rename_i cwd hdead hnone hcwd
    split_ifs with hany
    · exact runs_stop (by decide)
    generalize hs : Fs.mk .. = s'
    -- A file that is shared was open before.
    have hpos : ∀ f, 0 < (s'.file f).ref ↔ 0 < (s.file f).ref := fun f ↦ by
      have hf := List.any_eq_false.mp (Bool.eq_false_iff.mpr hany) f (List.mem_finRange f)
      rw [← hs]
      simp only [Bool.and_eq_true, decide_eq_true_eq, not_and, not_lt] at hf ⊢
      omega
    have hip : ∀ f, (s'.file f).ip = (s.file f).ip := fun f ↦ by rw [← hs]
    have hopen : ∀ i, s'.opened i = s.opened i := fun i ↦ by
      rw [opened, opened]
      exact Finset.sum_congr rfl fun f _ ↦ if_congr (and_congr (hpos f) (by rw [hip])) rfl rfl
    have hproc : s'.proc = update s.proc child ⟨some cwd, (s.proc p).ofile, .ret 0⟩ := by
      rw [← hs, ← hcwd]
    refine runs_proc hproc (fun hc ↦ by cases hc) (.of_files hdead hproc (by rw [← hs]; rfl)
      (fun i ↦ by rw [← hs]; rfl) (fun i hv _ ↦ by rwa [← hs] at hv) (fun i ↦ ?_)
      (fun i hi ↦ .inr (.inr (.inr ⟨p, r, hpc, ?_⟩))) (fun i ho ↦ .inl ?_) rfl ⟨rfl, rfl⟩ ⟨rfl, rfl⟩
      trivial)
    · have href : s'.ref i = s.ref i + [cwd].count i := by
        rw [← hs]
        exact ref_idup s cwd i
      rw [hopen, href, FsProc.holds, hnone]
      simp only [Pc.refs, Option.toList_some, Option.toList_none, List.count_nil]
      omega
    · rw [FsProc.uses] at hi
      rw [hcwd]
      simpa [Pc.uses, Pc.refs, eq_comm] using hi
    · obtain ⟨f, hf, hi⟩ := ho
      exact ⟨f, (hpos f).mp hf, hip f ▸ hi⟩
  · exact runs_stop (by decide)

/-! ## Every step -/

/-- A step of `p` is what `Did` says, if the program counter is well formed and what is about to be
dropped is referenced. -/
theorem runs_go (full : Bool) (hwf : (s.proc p).pc.Wf)
    (hpos : ∀ i t, (s.proc p).pc = .drop i t → 0 < s.ref i) : s.Runs p (s.go p full) := by
  rw [go]
  split
  · exact runs_stop (by decide)
  · exact runs_stop (by decide)
  · exact runs_namex ‹_›
  · exact runs_walk ‹_›
  · rename_i i t hpc
    exact runs_iput hpc (hpc ▸ hwf).plain_of_iput
  · rename_i i t hpc
    exact runs_drop hpc (hpc ▸ hwf).plain_of_drop (hpos i t hpc)
  · exact runs_openLock ‹_›
  · exact runs_execLock ‹_›
  · exact runs_chdirLock ‹_›
  · exact runs_linkLock ‹_›
  · exact runs_linkDir ‹_›
  · exact runs_linkUndo ‹_›
  · exact runs_linkBad ‹_›
  · exact runs_unlinkDir ‹_›
  · exact runs_unlinkIp ‹_›
  · exact runs_unlinkBad ‹_›
  · exact runs_unlinkDec ‹_›
  · exact runs_createDir ‹_›
  · exact runs_createFound ‹_›
  · exact runs_createNew ‹_›
  · exact runs_created ‹_›
  · exact runs_exit ‹_›

theorem runs_enter_namex (path : Bytes) (hpc : (s.proc p).pc = .ret r) (hrefs : k.refs = [])
    (hlink : k.linking = none) : s.Runs p (.ok (s.setPc p (.namex k path))) := by
  refine runs_setPc hpc rfl False.elim (.quiet hpc (.refl s) (fun j ↦ ?_) (fun j hj ↦ ?_)
    ⟨rfl, hlink, rfl, trivial⟩)
  · change _ = s.ref j + k.refs.count j
    rw [hrefs]
    rfl
  · change j ∈ k.refs at hj
    rw [hrefs] at hj
    cases hj

theorem runs_enter (c : FsCall) (hpc : (s.proc p).pc = .ret r) : ∃ q,
    s.Runs q (s.enter p c) ∧ ∀ s', s.enter p c = .ok s' →
      (s.proc q).pc = .ret r ∨ (s.proc q).pc = .dead := by
  have hidle : Pc.Idle (s.proc p).pc := hpc ▸ Pc.idle_ret r
  have hl : ¬(s.proc p).pc.Leaving := hpc ▸ id
  have hret : s.Runs p (s.enter p c) → ∃ q, s.Runs q (s.enter p c) ∧ ∀ s', s.enter p c = .ok s' →
      (s.proc q).pc = .ret r ∨ (s.proc q).pc = .dead := fun hd ↦ ⟨p, hd, fun _ _ ↦ .inl hpc⟩
  cases c with
  | «open» path omode =>
    apply hret
    apply runs_enter_namex path hpc <;> split_ifs <;> rfl
  | mkdir path => exact hret (runs_enter_namex path hpc rfl rfl)
  | mknod path major minor => exact hret (runs_enter_namex path hpc rfl rfl)
  | link old new => exact hret (runs_enter_namex old hpc rfl rfl)
  | unlink path => exact hret (runs_enter_namex path hpc rfl rfl)
  | chdir path => exact hret (runs_enter_namex path hpc rfl rfl)
  | exec path reads ok => exact hret (runs_enter_namex path hpc rfl rfl)
  | close fd =>
    apply hret
    rw [enter, close]
    split
    · exact runs_idle hidle hl (Pc.idle_ret (-1))
    · exact runs_fileclose hidle hl (Pc.idle_ret 0)
  | dup fd => exact hret (runs_dup hidle hl)
  | fork child =>
    refine ⟨child, runs_fork hpc, fun s' h ↦ .inr ?_⟩
    rw [enter, fork] at h
    split at h
    · assumption
    · cases h
  | exit => exact hret (runs_idle hidle hl Pc.idle_exit)

end Fs

end OperatingSystems
