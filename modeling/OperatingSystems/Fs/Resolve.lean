import OperatingSystems.Fs.Alone

/-!
# Path resolution, and `link` to a directory's own name

`namei` and `nameiparent` as functions, for a process that has the inode locks to itself: the
sections of `namex` come to the same. With them, `LinksSelf` says in terms of the state before a
call of `link` that the new name is one by which its directory names itself. That is when, and only
when, a call that runs alone does not come to an end.
-/

namespace OperatingSystems

open Function

variable {n : ℕ}

/-- Where a caller goes on with what `namex` returns. -/
def Caller.after (k : Caller n) : Option (Fin n × Bytes) → Pc n
  | none => k.fail
  | some (ip, name) => k.found ip name

namespace Fs

/-! ## Path resolution -/

def iput (s : Fs n) (i : Fin n) : Except FsStop (Fs n) := do
  let s ← s.iputSection i
  return s.decRef i

/-- The loop of `namex`, from inode `ip` on; the result is an inode and the last element of the
path. A path of length `k` has fewer than `k + 1` elements. -/
def namexLoop (parent : Bool) :
    ℕ → Fs n → Fin n → Bytes → Except FsStop (Fs n × Option (Fin n × Bytes))
  | 0, s, _, _ => .ok (s, none)
  | k + 1, s, ip, path =>
    match skipelem path with
    | none =>
      if parent then do
        let s ← s.iput ip
        return (s, none)
      else return (s, some (ip, []))
    | some (name, rest) => do
      let s ← s.ilock ip
      if (s.inode ip).type ≠ some .dir then
        let s ← s.iput ip
        return (s, none)
      else if parent ∧ rest = [] then return (s, some (ip, name))
      else
        match (s.inode ip).dirlookup name with
        | none =>
          let s ← s.iput ip
          return (s, none)
        | some (_, e) =>
          let s ← s.iget e.inum
          let s ← s.iput ip
          namexLoop parent k s e.inum rest

/-- `namei` and, with `parent`, `nameiparent`. -/
def namei [NeZero n] (s : Fs n) (p : Fin nproc) (parent : Bool) (path : Bytes) :
    Except FsStop (Fs n × Option (Fin n × Bytes)) :=
  if path.head? = some slash then do
    let s ← s.iget rootino
    namexLoop parent (path.length + 1) s rootino path
  else
    match (s.proc p).cwd with
    | none => .error .blocked
    | some cwd => namexLoop parent (path.length + 1) (s.idup cwd) cwd path

/-- Whether `name` in the directory `dp` is the directory itself. -/
def namesSelf (s : Fs n) (dp : Fin n) (name : Bytes) : Except FsStop Bool := do
  let s ← s.ilock dp
  return (s.inode dp).type = some .dir ∧ ((s.inode dp).dirlookup name).any fun x ↦ x.2.inum = dp

/-- The old path of a `link` leads to an inode that is not a directory, and the new name is one that
the directory it is in has for itself. -/
def linksSelf [NeZero n] (s : Fs n) (p : Fin nproc) (old new : Bytes) : Except FsStop Bool := do
  match ← s.namei p false old with
  | (_, none) => return false
  | (s, some (ip, _)) =>
    let s ← s.ilock ip
    if (s.inode ip).type = some .dir then return false
    else
      match ← (s.setInodes (s.inode.addLink ip 1)).namei p true new with
      | (_, none) => return false
      | (s, some (dp, name)) => s.namesSelf dp name

/-- The call is a `link` to a name by which the new name's directory names itself. -/
def LinksSelf [NeZero n] (s : Fs n) (p : Fin nproc) : FsCall → Prop
  | .link old new => s.linksSelf p old new = .ok true
  | _ => False

/-! ## Sections in a row -/

section Solo

variable [NeZero n] {s t u : Fs n} {p : Fin nproc}

/-- Process `p` alone gets from one state to the other. -/
inductive Solo (p : Fin nproc) : Fs n → Fs n → Prop
  | refl (s : Fs n) : Solo p s s
  | head {s t u : Fs n} (h : ∀ full, s.go p full = .ok t) (hu : Solo p t u) : Solo p s u

namespace Solo

theorem single (h : ∀ full, s.go p full = .ok t) : Solo p s t := .head h (.refl t)

theorem trans (h : Solo p s t) (h' : Solo p t u) : Solo p s u := by
  induction h with
  | refl => exact h'
  | head hst _ ih => exact .head hst (ih h')

theorem reachable (h : Solo p s t) (hs : (fileSystem n).Reachable s) :
    (fileSystem n).Reachable t := by
  induction h with
  | refl => exact hs
  | head hst _ ih => exact ih (reachable_of_go hs (hst false))

theorem alone (h : Solo p s t) (hs : (fileSystem n).Reachable s) (halone : s.Alone p) :
    t.Alone p := by
  induction h with
  | refl => exact halone
  | head hst _ ih =>
    exact ih (reachable_of_go hs (hst false)) (halone.of_go (base_of_reachable hs) (hst false))

theorem ends_iff (h : Solo p s t) : s.Ends p ↔ t.Ends p := by
  induction h with
  | refl => exact Iff.rfl
  | @head s t u hst _ ih =>
    rw [← ih]
    constructor
    · intro hs
      cases hs with
      | ret hpc =>
        have hgo := hst false
        rw [go, hpc] at hgo
        cases hgo
      | step hok _ => exact hok false t (hst false)
    · intro ht
      refine .step (fun full s' hs' ↦ ?_) fun full e he ↦ ?_
      · rw [hst full, Except.ok.injEq] at hs'
        exact hs' ▸ ht
      · rw [hst full] at he
        cases he

end Solo

theorem ends_of_error {e : FsStop} (h : ∀ full, s.go p full = .error e) (he : e.Halts) :
    s.Ends p := by
  refine .step (fun full s' hs' ↦ ?_) fun full e' he' ↦ ?_
  · rw [h full] at hs'
    cases hs'
  · rw [h full, Except.error.injEq] at he'
    exact he' ▸ he

theorem not_ends_of_blocked (hret : ∀ r, (s.proc p).pc ≠ .ret r)
    (h : s.go p false = .error .blocked) : ¬s.Ends p := by
  intro hs
  cases hs with
  | ret hpc => exact hret _ hpc
  | step _ herror => exact herror false _ h

end Solo

/-! ## The program counter does not matter -/

section SetPc

variable (s : Fs n) (p : Fin nproc) (pc pc' : Pc n) (i : Fin n)

theorem pc_setPc : ((s.setPc p pc).proc p).pc = pc := by
  rw [proc_setPc]
  rfl

theorem cwd_setPc : ((s.setPc p pc).proc p).cwd = (s.proc p).cwd := by
  rw [proc_setPc]
  rfl

theorem setPc_setPc : (s.setPc p pc).setPc p pc' = s.setPc p pc' := by
  simp only [setPc, FsProc.goto, update_self, update_idem]

theorem ilock_setPc : (s.setPc p pc).ilock i = (s.ilock i).map (·.setPc p pc) := by
  rw [ilock, ilock]
  change (if s.ref i = 0 then _ else if (s.lock i).isSome then _ else
    if !s.valid i && (s.inode i).type.isNone then _ else _) = _
  split_ifs <;> rfl

theorem iget_setPc : (s.setPc p pc).iget i = (s.iget i).map (·.setPc p pc) := by
  rw [iget, iget]
  change (if s.ref i = 0 ∧ ninode ≤ s.cached then _ else _) = _
  split_ifs <;> rfl

theorem iputSection_setPc :
    (s.setPc p pc).iputSection i = (s.iputSection i).map (·.setPc p pc) := by
  rw [iputSection, iputSection]
  change (if (s.lock i).isSome then _ else
    if s.valid i ∧ (s.inode i).nlink = 0 ∧ s.ref i = 1 then _ else _) = _
  split_ifs <;> rfl

end SetPc

section Steps

variable {s s' : Fs n} {p : Fin nproc} {i : Fin n}

theorem halts_ilock (hlock : s.lock i = none) :
    Outcome (· = s.load i) FsStop.Halts (s.ilock i) := by
  rw [ilock, if_neg (c := (s.lock i).isSome = true) (by rw [hlock]; exact Bool.false_ne_true)]
  split_ifs
  · exact .error (by decide)
  · exact .error (by decide)
  · exact .ok rfl

theorem halts_iget : Outcome (· = s.got i) FsStop.Halts (s.iget i) := by
  rw [iget]
  split_ifs
  · exact .error (by decide)
  · exact .ok rfl

theorem exists_iput (hlock : s.lock i = none) : ∃ s', s.iput i = .ok s' ∧ s'.lock = s.lock := by
  have hsection : ∃ s₁, s.iputSection i = .ok s₁ ∧ s₁.lock = s.lock := by
    rw [iputSection, if_neg (by rw [hlock]; exact Bool.false_ne_true)]
    split_ifs
    · exact ⟨_, rfl, rfl⟩
    · exact ⟨_, rfl, rfl⟩
  obtain ⟨s₁, hs₁, hlock₁⟩ := hsection
  exact ⟨s₁.decRef i, bind_eq_ok_iff.mpr ⟨s₁, hs₁, rfl⟩, hlock₁⟩

variable [NeZero n]

theorem solo_iput {t : Pc n} (h : s.iput i = .ok s') :
    Solo p (s.setPc p (.iput i t)) (s'.setPc p t) := by
  obtain ⟨s₁, hs₁, hs'⟩ := bind_eq_ok_iff.mp h
  obtain rfl := Except.ok.inj hs'
  refine .head (t := s₁.setPc p (.drop i t)) (fun full ↦ ?_) (.single fun full ↦ ?_)
  · rw [go, pc_setPc]
    change (s.setPc p _).iputSection i >>= _ = _
    rw [iputSection_setPc, hs₁]
    exact congrArg _ (setPc_setPc ..)
  · rw [go, pc_setPc]
    exact congrArg _ (setPc_setPc (s₁.decRef i) ..)

end Steps

/-! ## The sections of `namex` -/

variable {pc : Pc n}

section Namex

variable [NeZero n] {p : Fin nproc} {k : Caller n} {s s₁ u v : Fs n} {ip : Fin n}
  {path name rest : Bytes}

/-- From `u` on, `p` alone comes to where the result of `namex` is returned, or to a panic. -/
abbrev Resolves (p : Fin nproc) (k : Caller n) (u : Fs n) :
    Except FsStop (Fs n × Option (Fin n × Bytes)) → Prop :=
  Outcome (fun x ↦ Solo p u (x.1.setPc p (k.after x.2)) ∧ ∀ i, x.1.lock i = none)
    fun _ ↦ u.Ends p

theorem Resolves.of_solo {x : Except FsStop (Fs n × Option (Fin n × Bytes))} (hx : Resolves p k v x)
    (h : Solo p u v) : Resolves p k u x := by
  cases hx with
  | ok hx => exact .ok ⟨h.trans hx.1, hx.2⟩
  | error hx => exact .error (h.ends_iff.mpr hx)

theorem Resolves.of_iput (hfree : ∀ i, s₁.lock i = none)
    (h : ∀ full, u.go p full = .ok (s₁.setPc p (.iput ip k.fail))) :
    Resolves p k u (s₁.iput ip >>= fun s ↦ .ok (s, none)) := by
  obtain ⟨s₂, hput, hlock⟩ := exists_iput (hfree ip)
  rw [hput]
  exact .ok ⟨.head h (solo_iput hput), fun i ↦ by rw [hlock]; exact hfree i⟩

omit [NeZero n] in
theorem walk_setPc (hskip : skipelem path = some (name, rest)) (hlock : s.ilock ip = .ok s₁) :
    (s.setPc p pc).walk p k ip path =
      if (s₁.inode ip).type ≠ some .dir then .ok (s₁.setPc p (.iput ip k.fail))
      else if k.parent ∧ rest = [] then .ok (s₁.setPc p (k.found ip name))
      else
        match (s₁.inode ip).dirlookup name with
        | none => .ok (s₁.setPc p (.iput ip k.fail))
        | some (_, e) => (s₁.iget e.inum).map (·.setPc p (.iput ip (.walk k e.inum rest))) := by
  rw [walk, hskip, ilock_setPc, hlock]
  change (if (s₁.inode ip).type ≠ some .dir then _ else _) = _
  split_ifs
  · exact congrArg _ (setPc_setPc ..)
  · exact congrArg _ (setPc_setPc ..)
  · change (match (s₁.inode ip).dirlookup name with
      | none => _
      | some (_, e) => _) = _
    split
    · exact congrArg _ (setPc_setPc ..)
    · rw [iget_setPc]
      cases s₁.iget _ with
      | error e => rfl
      | ok s₂ => exact congrArg _ (setPc_setPc ..)

theorem namexLoop_spec (m : ℕ) (s : Fs n) (ip : Fin n) (path : Bytes) (hm : path.length < m)
    (hfree : ∀ i, s.lock i = none) :
    Resolves p k (s.setPc p (.walk k ip path)) (namexLoop k.parent m s ip path) := by
  -- By induction on the number of rounds; each is a section of the loop and an `iput`.
  induction m generalizing s ip path with
  | zero => exact absurd hm (Nat.not_lt_zero _)
  | succ m ih =>
    have hgo : ∀ full, (s.setPc p (.walk k ip path)).go p full =
        (s.setPc p (.walk k ip path)).walk p k ip path := fun full ↦ by rw [go, pc_setPc]
    rw [namexLoop]
    cases hskip : skipelem path with
    | none =>
      have hwalk : ∀ full, (s.setPc p (.walk k ip path)).go p full =
          .ok (s.setPc p (if k.parent then .iput ip k.fail else k.found ip [])) := fun full ↦ by
        rw [hgo, walk, hskip]
        exact congrArg _ (setPc_setPc ..)
      dsimp only
      by_cases hparent : k.parent = true
      · rw [if_pos hparent] at hwalk ⊢
        exact .of_iput hfree hwalk
      · rw [if_neg hparent] at hwalk ⊢
        exact .ok ⟨.single hwalk, hfree⟩
    | some x =>
      obtain ⟨name, rest⟩ := x
      have hlt := length_lt_of_skipelem hskip
      dsimp only
      cases hlock : s.ilock ip with
      | error e =>
        refine .error
          (ends_of_error (e := e) (fun full ↦ ?_) ((halts_ilock (hfree ip)).of_error hlock))
        rw [hgo, walk, hskip, ilock_setPc, hlock]
        rfl
      | ok s₁ =>
        have hfree₁ : ∀ i, s₁.lock i = none := by
          rw [(halts_ilock (hfree ip)).of_ok hlock]
          exact hfree
        have hwalk := fun full ↦ (hgo full).trans (walk_setPc (p := p) hskip hlock)
        change Resolves p k _ (if (s₁.inode ip).type ≠ some .dir then _ else _)
        by_cases hdir : (s₁.inode ip).type ≠ some .dir
        · simp only [if_pos hdir] at hwalk ⊢
          exact .of_iput hfree₁ hwalk
        simp only [if_neg hdir] at hwalk ⊢
        by_cases hlast : k.parent = true ∧ rest = []
        · simp only [if_pos hlast] at hwalk ⊢
          exact .ok ⟨.single hwalk, hfree₁⟩
        simp only [if_neg hlast] at hwalk ⊢
        cases hfind : (s₁.inode ip).dirlookup name with
        | none =>
          simp only [hfind] at hwalk
          exact .of_iput hfree₁ hwalk
        | some x =>
          obtain ⟨off, e⟩ := x
          simp only [hfind] at hwalk
          dsimp only
          cases hget : s₁.iget e.inum with
          | error err =>
            simp only [hget] at hwalk
            exact .error (ends_of_error hwalk (halts_iget.of_error hget))
          | ok s₂ =>
            simp only [hget] at hwalk
            have hfree₂ : ∀ i, s₂.lock i = none := by
              rw [halts_iget.of_ok hget]
              exact hfree₁
            obtain ⟨s₃, hput, hlock₃⟩ := exists_iput (hfree₂ ip)
            change Resolves p k _ (s₂.iput ip >>= _)
            rw [hput]
            exact (ih s₃ e.inum rest (by omega) fun i ↦ by rw [hlock₃]; exact hfree₂ i).of_solo
              (.head hwalk (solo_iput hput))

/-- **The sections of `namex` do what `namei` does in one piece.** -/
theorem namei_spec (k : Caller n) (path : Bytes) (hcwd : (s.proc p).cwd ≠ none)
    (hfree : ∀ i, s.lock i = none) :
    Resolves p k (s.setPc p (.namex k path)) (s.namei p k.parent path) := by
  have hgo : ∀ full, (s.setPc p (.namex k path)).go p full =
      (s.setPc p (.namex k path)).namex p k path := fun full ↦ by rw [go, pc_setPc]
  rw [namei]
  by_cases hslash : path.head? = some slash
  · have hnamex : ∀ full, (s.setPc p (.namex k path)).go p full =
        (s.iget rootino).map (·.setPc p (.walk k rootino path)) := fun full ↦ by
      rw [hgo, namex, if_pos hslash, iget_setPc]
      cases s.iget rootino with
      | error e => rfl
      | ok s₁ => exact congrArg _ (setPc_setPc ..)
    rw [if_pos hslash]
    cases hget : s.iget rootino with
    | error e =>
      simp only [hget] at hnamex
      exact .error (ends_of_error hnamex (halts_iget.of_error hget))
    | ok s₁ =>
      simp only [hget] at hnamex
      refine (namexLoop_spec (path.length + 1) s₁ rootino path (Nat.lt_succ_self _) ?_).of_solo
        (.single hnamex)
      rw [halts_iget.of_ok hget]
      exact hfree
  · rw [if_neg hslash]
    cases hc : (s.proc p).cwd with
    | none => exact absurd hc hcwd
    | some cwd =>
      refine (namexLoop_spec (path.length + 1) (s.idup cwd) cwd path (Nat.lt_succ_self _)
        hfree).of_solo (.single fun full ↦ ?_)
      rw [hgo, namex, if_neg hslash, cwd_setPc, hc]
      exact congrArg _ (setPc_setPc (s.idup cwd) ..)

end Namex

/-! ## `link` -/

section Link

variable [NeZero n] {p : Fin nproc} {s s₁ : Fs n} {ip dp : Fin n} {name old new : Bytes} {r : ℤ}

omit [NeZero n] in
theorem linkDir_setPc {full : Bool} (hlock : s.ilock dp = .ok s₁) :
    (s.setPc p pc).linkDir p full ip dp name =
      if (s₁.inode dp).type ≠ some .dir then .error (.panic .dirlookupNotDir)
      else
        match (s₁.inode dp).dirlookup name with
        | some (_, e) =>
          (s₁.iget e.inum).map fun s ↦ (s.keep p dp).setPc p (.iput e.inum (.linkUndo ip dp))
        | none =>
          (s₁.inode.writeEntry full dp name ip).map fun I ↦
            (s₁.setInodes I).setPc p (.iput dp (.iput ip (.ret 0))) := by
  rw [linkDir, ilock_setPc, hlock]
  change (if (s₁.inode dp).type ≠ some .dir then _ else _) = _
  split_ifs
  · rfl
  · change (match (s₁.inode dp).dirlookup name with
      | some (_, e) => _
      | none => _) = _
    split
    · rw [iget_setPc]
      cases s₁.iget _ with
      | error e => rfl
      | ok s₂ => exact congrArg _ (setPc_setPc (s₂.keep p dp) ..)
    · change (s₁.inode.writeEntry full dp name ip >>= _) = _
      cases s₁.inode.writeEntry full dp name ip with
      | error e => rfl
      | ok I => exact congrArg _ (setPc_setPc (s₁.setInodes I) ..)

theorem ends_linkDir_iff (hr : (fileSystem n).Reachable (s.setPc p (.linkDir ip dp name)))
    (halone : (s.setPc p (.linkDir ip dp name)).Alone p) (hfree : ∀ i, s.lock i = none) :
    (s.setPc p (.linkDir ip dp name)).Ends p ↔ s.namesSelf dp name ≠ .ok true := by
  have hb := base_of_reachable hr
  have hgo : ∀ full, (s.setPc p (.linkDir ip dp name)).go p full =
      (s.setPc p (.linkDir ip dp name)).linkDir p full ip dp name := fun full ↦ by rw [go, pc_setPc]
  rw [namesSelf]
  cases hlock : s.ilock dp with
  | error e =>
    refine iff_of_true (ends_of_error (fun full ↦ ?_) ((halts_ilock (hfree dp)).of_error hlock))
      fun h ↦ by cases h
    rw [hgo, linkDir, ilock_setPc, hlock]
    rfl
  | ok s₁ =>
    have hstep := fun full ↦ (hgo full).trans (linkDir_setPc hlock)
    have hs₁ := (halts_ilock (hfree dp)).of_ok hlock
    change _ ↔ Except.ok (decide _) ≠ _
    rw [ne_eq, Except.ok.injEq, decide_eq_true_iff]
    by_cases hdir : (s₁.inode dp).type = some .dir
    · simp only [if_neg (not_not.mpr hdir)] at hstep
      rw [and_iff_right hdir]
      cases hfind : (s₁.inode dp).dirlookup name with
      | none =>
        simp only [hfind] at hstep
        refine iff_of_true (.step (fun full s' hs' ↦ ?_) fun full e he ↦ ?_) Bool.false_ne_true
        · refine ends_of_good (reachable_of_go hr hs') (halone.of_go hb hs') (.steady ?_)
          rw [hstep] at hs'
          cases hwrite : s₁.inode.writeEntry full dp name ip with
          | error e => rw [hwrite] at hs'; cases hs'
          | ok I =>
            rw [hwrite] at hs'
            rw [← Except.ok.inj hs', pc_setPc]
            exact ⟨List.not_mem_nil, List.not_mem_nil, trivial⟩
        · rw [hstep] at he
          cases hwrite : s₁.inode.writeEntry full dp name ip with
          | error e' =>
            rw [hwrite] at he
            rw [← Except.error.inj he]
            exact (Outcome.writeEntry (by decide) (by decide)).of_error hwrite
          | ok I => rw [hwrite] at he; cases he
      | some x =>
        obtain ⟨off, e⟩ := x
        simp only [hfind] at hstep
        rw [Option.any_some, decide_eq_true_iff]
        cases hget : s₁.iget e.inum with
        | error err =>
          simp only [hget] at hstep
          refine iff_of_true (ends_of_error hstep (halts_iget.of_error hget)) ?_
          -- The directory is cached: `link` has a reference to it.
          rintro rfl
          have href : 0 < (s.setPc p (.linkDir ip e.inum name)).ref e.inum := by
            rw [hb.ref e.inum]
            refine Nat.add_pos_left
              (lt_of_lt_of_le (FsProc.holds_pos (x := (s.setPc p _).proc p) ?_)
              (Finset.single_le_sum (f := fun q ↦ ((s.setPc p _).proc q).holds e.inum)
                (fun _ _ ↦ Nat.zero_le _) (Finset.mem_univ p))) _
            rw [pc_setPc]
            exact List.mem_cons_of_mem _ List.mem_cons_self
          rw [iget, if_neg] at hget
          · cases hget
          · rw [hs₁]
            exact fun hzero ↦ href.ne' hzero.1
        | ok s₂ =>
          simp only [hget] at hstep
          have hsolo := Solo.single hstep
          rw [hsolo.ends_iff]
          by_cases hself : e.inum = dp
          · -- `iput` waits for the lock that `dirlink`'s caller holds.
            rw [hself]
            refine iff_of_false (not_ends_of_blocked (fun r hr ↦ ?_) ?_) (not_not.mpr rfl)
            · rw [pc_setPc] at hr
              cases hr
            · rw [go, pc_setPc]
              change Fs.iputSection _ dp >>= _ = _
              rw [iputSection, if_pos]
              · rfl
              · change (update s₂.lock dp (some p) dp).isSome = true
                rw [update_self]
                rfl
          · refine iff_of_true (ends_of_good (hsolo.reachable hr) (hsolo.alone hr halone)
              (.steady ?_)) hself
            rw [pc_setPc]
            exact ⟨fun h ↦ hself (List.mem_singleton.mp h), trivial⟩
    · simp only [if_pos hdir] at hstep
      exact iff_of_true (ends_of_error hstep (by decide)) fun h ↦ hdir h.1

theorem cwd_ne_none (hr : (fileSystem n).Reachable (s.setPc p pc)) (hpc : ¬pc.Leaving) :
    (s.proc p).cwd ≠ none := by
  intro hc
  have hleaving := rooted_of_reachable hr p (by rwa [cwd_setPc])
  rw [pc_setPc] at hleaving
  exact hpc hleaving

theorem ends_link_iff (hr : (fileSystem n).Reachable (s.setPc p (.namex (.linkOld new) old)))
    (halone : (s.setPc p (.namex (.linkOld new) old)).Alone p) (hfree : ∀ i, s.lock i = none) :
    (s.setPc p (.namex (.linkOld new) old)).Ends p ↔ s.linksSelf p old new ≠ .ok true := by
  have hspec := namei_spec (.linkOld new) old (cwd_ne_none hr id) hfree
  rw [linksSelf]
  -- First `namei(old)`, ...
  cases hnamei : s.namei p false old with
  | error e => exact iff_of_true (hspec.of_error hnamei) fun h ↦ by cases h
  | ok x =>
    obtain ⟨s₁, x⟩ := x
    obtain ⟨hsolo, hfree₁⟩ := hspec.of_ok hnamei
    have hr₁ := hsolo.reachable hr
    have halone₁ := hsolo.alone hr halone
    rw [hsolo.ends_iff]
    cases x with
    | none => exact iff_of_true (.ret (pc_setPc ..)) fun h ↦ by cases h
    | some x =>
      obtain ⟨ip, nm⟩ := x
      -- ... then the section in which the link count is raised, ...
      have hgo : ∀ full, (s₁.setPc p (.linkLock ip new)).go p full =
          (s₁.setPc p (.linkLock ip new)).linkLock p ip new := fun full ↦ by rw [go, pc_setPc]
      change (s₁.setPc p (.linkLock ip new)).Ends p ↔ (s₁.ilock ip >>= _) ≠ _
      cases hlock : s₁.ilock ip with
      | error e =>
        refine iff_of_true
          (ends_of_error (fun full ↦ ?_) ((halts_ilock (hfree₁ ip)).of_error hlock))
          fun h ↦ by cases h
        rw [hgo, linkLock, ilock_setPc, hlock]
        rfl
      | ok s₂ =>
        have hfree₂ : ∀ i, s₂.lock i = none := by
          rw [(halts_ilock (hfree₁ ip)).of_ok hlock]
          exact hfree₁
        have hstep : ∀ full, (s₁.setPc p (.linkLock ip new)).go p full =
            .ok (if (s₂.inode ip).type = some .dir then s₂.setPc p (.iput ip (.ret (-1)))
              else (s₂.setInodes (s₂.inode.addLink ip 1)).setPc p (.namex (.linkNew ip) new)) := by
          intro full
          rw [hgo, linkLock, ilock_setPc, hlock]
          change (if (s₂.inode ip).type = some .dir then _ else _) = _
          split_ifs
          · exact congrArg _ (setPc_setPc ..)
          · exact congrArg _ (setPc_setPc (s₂.setInodes _) ..)
        have hsolo₁ := Solo.single hstep
        have hr₂ := hsolo₁.reachable hr₁
        have halone₂ := hsolo₁.alone hr₁ halone₁
        rw [hsolo₁.ends_iff]
        change _ ↔ (if (s₂.inode ip).type = some .dir then _ else _) ≠ _
        split_ifs at hr₂ halone₂ ⊢
        · refine iff_of_true (ends_of_good hr₂ halone₂ (.steady ?_)) fun h ↦ by cases h
          rw [pc_setPc]
          exact ⟨List.not_mem_nil, trivial⟩
        · -- ... then `nameiparent(new, name)`, and the rest.
          have hspec₂ := namei_spec (.linkNew ip) new (cwd_ne_none hr₂ id) hfree₂
          cases hnamei₂ : (s₂.setInodes (s₂.inode.addLink ip 1)).namei p true new with
          | error e => exact iff_of_true (hspec₂.of_error hnamei₂) fun h ↦ by cases h
          | ok y =>
            obtain ⟨s₃, y⟩ := y
            obtain ⟨hsolo₂, hfree₃⟩ := hspec₂.of_ok hnamei₂
            have hr₃ := hsolo₂.reachable hr₂
            have halone₃ := hsolo₂.alone hr₂ halone₂
            rw [hsolo₂.ends_iff]
            cases y with
            | none =>
              refine iff_of_true (ends_of_good hr₃ halone₃ (.steady ?_)) fun h ↦ by cases h
              rw [pc_setPc]
              trivial
            | some y => exact ends_linkDir_iff hr₃ halone₃ hfree₃

end Link

end Fs

def FsCall.takesPath : FsCall → Prop
  | .close _ | .dup _ | .fork _ | .exit => False
  | _ => True

namespace Fs

variable [NeZero n] {s s' : Fs n} {p : Fin nproc}

omit [NeZero n] in
theorem alone_of_free (hb : s.Base) (hfree : ∀ i, s.lock i = none) (pc : Pc n) :
    (s.setPc p pc).Alone p := by
  intro q hq
  rw [proc_setPc_of_ne pc hq]
  refine List.eq_nil_iff_forall_not_mem.mpr fun i hi ↦ ?_
  have hlock := (hb.lock i q).mpr hi
  rw [hfree i] at hlock
  cases hlock

/-- **Calls that run alone.** When no inode lock is held, a call that resolves a path comes to its
end, if its process goes on alone, exactly if it is not a `link` whose new name is one by which a
directory names itself. -/
theorem call_ends_iff (h : (fileSystem n).Reachable s) (hfree : ∀ i, s.lock i = none) (c : FsCall)
    (hc : c.takesPath) (hs : s.act (.call p c) = .ok s') : s'.Ends p ↔ ¬s.LinksSelf p c := by
  have hr : (fileSystem n).Reachable s' := by
    refine h.step (a := .call p c) ?_
    change (s.act _).toOption = _
    rw [hs]
    rfl
  -- The call starts in `namex`.
  have henter : s.enter p c = .ok s' := by
    rw [act] at hs
    split at hs
    · exact hs
    · cases hs
  have hsteady : ∀ k path, s' = s.setPc p (.namex k path) → k.Steady → s'.Ends p := by
    intro k path hs' hk
    rw [hs'] at hr ⊢
    refine ends_of_good hr (alone_of_free (base_of_reachable h) hfree _) (.steady ?_)
    rw [pc_setPc]
    exact hk
  cases c with
  | «open» path omode =>
    refine iff_of_true (hsteady _ path (Except.ok.inj henter).symm ?_) id
    split_ifs <;> trivial
  | mkdir path => exact iff_of_true (hsteady _ path (Except.ok.inj henter).symm trivial) id
  | mknod path major minor =>
    exact iff_of_true (hsteady _ path (Except.ok.inj henter).symm trivial) id
  | link old new =>
    obtain rfl := Except.ok.inj henter
    exact ends_link_iff hr (alone_of_free (base_of_reachable h) hfree _) hfree
  | unlink path => exact iff_of_true (hsteady _ path (Except.ok.inj henter).symm trivial) id
  | chdir path => exact iff_of_true (hsteady _ path (Except.ok.inj henter).symm trivial) id
  | exec path reads ok =>
    exact iff_of_true (hsteady _ path (Except.ok.inj henter).symm trivial) id
  | close fd => exact hc.elim
  | dup fd => exact hc.elim
  | fork child => exact hc.elim
  | exit => exact hc.elim

theorem call_ends_iff_mkdir : ∃ s s' : Fs 199, (fileSystem 199).Reachable s ∧
    s.act (.call 0 (.mkdir [97])) = .ok s' ∧ s'.Ends 0 := by
  refine ⟨boot Inodes.mkfs, _, .init ⟨_, Inodes.consistent_mkfs, rfl⟩, rfl, ?_⟩
  exact (call_ends_iff (.init ⟨_, Inodes.consistent_mkfs, rfl⟩) (fun _ ↦ rfl) (.mkdir [97]) trivial
    rfl).mpr id

/-- A process creates the file `a` in the root directory and calls `link("a", ".")`. -/
theorem exists_call_stuck : ∃ s s' : Fs 199, (fileSystem 199).Reachable s ∧ s.Quiescent ∧
    s.act (.call 0 (.link [97] dot)) = .ok s' ∧ ¬s'.Ends 0 := by
  obtain ⟨s, hs, hend⟩ := Machine.exists_reachable_of_run (M := fileSystem 199)
    (script 0 (.open [97] oCreate) 7)
    (fun s ↦ s.Quiescent ∧ (∀ i, s.lock i = none) ∧ (s.act (.call 0 (.link [97] dot))).toBool ∧
      s.linksSelf 0 [97] dot = .ok true)
    ⟨Inodes.mkfs, Inodes.consistent_mkfs, rfl⟩ (by decide +kernel)
  obtain ⟨hq, hfree, hcall, hself⟩ := of_decide_eq_true hend
  have hact : s.act (.call 0 (.link [97] dot)) = .ok (s.setPc 0 (.namex (.linkOld dot) [97])) := by
    rcases hq 0 with ⟨r, hpc⟩ | hpc
    · rw [act, hpc]
      rfl
    · rw [act, hpc] at hcall
      cases hcall
  refine ⟨s, _, hs, hq, hact, fun hends ↦ ?_⟩
  refine (ends_link_iff ?_ (alone_of_free (base_of_reachable hs) hfree _) hfree).mp hends hself
  refine hs.step (a := .call 0 (.link [97] dot)) ?_
  change (s.act _).toOption = _
  rw [hact]
  rfl

end Fs

end OperatingSystems
