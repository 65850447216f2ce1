import Mathlib.Data.List.Induction
import OperatingSystems.Shell.Walk

/-!
# When the loops end, and when they agree

A loop takes the bytes of the argument one element at a time, and `Reaches` says how far it gets.
Two things can go wrong on the way. A period with an ordinary byte behind it, as in `a.b`, is never
passed: the loop does not end. And `custom_cd`, which looks for the end of the argument one byte too
far, takes a period before the last byte for the element `.`. It passes `..` at the end of an
argument without going up, where the others go up, and it passes `.c` where the others do not end.

These are all the cases: the conditions below are exact.
-/

namespace OperatingSystems.Shell

/-- The loop gets to the rest `r` of the argument with the edits `es`. -/
inductive Reaches : Bytes → List Edit → Bytes → Prop where
  | here {l : Bytes} : Reaches l [] l
  | byte {c : UInt8} {l r : Bytes} {es : List Edit} : c ≠ period → Reaches l es r →
      Reaches (c :: l) (.push c :: es) r
  | dot {l r : Bytes} {es : List Edit} : (∀ c₁ c₂ l', l = c₁ :: c₂ :: l' → c₂ ≠ period) →
      Reaches l es r → Reaches (period :: slash :: l) es r
  /-- Behind `./`, any byte before a period passes for the first one of `..`. -/
  | dotUp {c : UInt8} {l r : Bytes} {es : List Edit} : Reaches l es r →
      Reaches (period :: slash :: c :: period :: slash :: l) (.up :: es) r
  | up {l r : Bytes} {es : List Edit} : Reaches l es r →
      Reaches (period :: period :: slash :: l) (.up :: es) r

variable {arg r p : Bytes} {ahead fuel : ℕ}

theorem walk_of_reaches {es : List Edit} (late : Bool) (h : Reaches arg es r) :
    walk late arg = (es ++ (walk late r).1, (walk late r).2) := by
  induction h with
  | here => rfl
  | byte hc _ ih =>
    rw [walk_byte hc, ih]
    rfl
  | dot hd _ ih => rw [walk_dotSlash hd, ih]
  | dotUp _ ih =>
    rw [walk_dotUp, ih]
    rfl
  | up _ ih =>
    rw [walk_up, ih]
    rfl

theorem Reaches.trans {r' : Bytes} {es es' : List Edit} (h : Reaches arg es r)
    (h' : Reaches r es' r') : Reaches arg (es ++ es') r' := by
  induction h with
  | here => exact h'
  | byte hc _ ih => exact .byte hc (ih h')
  | dot hd _ ih => exact .dot hd (ih h')
  | dotUp _ ih => exact .dotUp (ih h')
  | up _ ih => exact .up (ih h')

inductive Stop : Bytes → Prop where
  | nil : Stop []
  | dot : Stop [period]
  | dotUpEnd {c : UInt8} : Stop [period, slash, c, period]
  | dotBad {c c' : UInt8} {l : Bytes} : c' ≠ slash →
      Stop (period :: slash :: c :: period :: c' :: l)
  | upEnd : Stop [period, period]
  | bad {c : UInt8} {l : Bytes} : c ≠ slash → Stop (period :: period :: c :: l)
  | stuck {c : UInt8} {l : Bytes} : c ≠ period → c ≠ slash → Stop (period :: c :: l)

theorem exists_stop (arg : Bytes) : ∃ es r, Reaches arg es r ∧ Stop r := by
  induction hn : arg.length using Nat.strongRecOn generalizing arg with
  | ind n ih =>
    have goOn : ∀ {l : Bytes} {es : List Edit}, Reaches arg es l → l.length < n →
        ∃ es r, Reaches arg es r ∧ Stop r := by
      intro l es hr hlt
      obtain ⟨es', r, hr', hstop⟩ := ih _ hlt l rfl
      exact ⟨es ++ es', r, hr.trans hr', hstop⟩
    subst hn
    cases shape arg with
    | nil => exact ⟨[], _, .here, .nil⟩
    | dot => exact ⟨[], _, .here, .dot⟩
    | dotUpEnd => exact ⟨[], _, .here, .dotUpEnd⟩
    | dotBad hc => exact ⟨[], _, .here, .dotBad hc⟩
    | upEnd => exact ⟨[], _, .here, .upEnd⟩
    | bad hc => exact ⟨[], _, .here, .bad hc⟩
    | stuck hc hs => exact ⟨[], _, .here, .stuck hc hs⟩
    | byte hc => exact goOn (.byte hc .here) (Nat.lt_succ_self _)
    | dotSlash hd =>
      refine goOn (.dot hd .here) ?_
      simp only [List.length_cons]
      omega
    | dotUp =>
      refine goOn (.dotUp .here) ?_
      simp only [List.length_cons]
      omega
    | up =>
      refine goOn (.up .here) ?_
      simp only [List.length_cons]
      omega

/-! ## When the loops end -/

theorem walk_loops_iff (late : Bool) (arg : Bytes) : (walk late arg).2 = .loops ↔
    ∃ es c l, Reaches arg es (period :: c :: l) ∧ c ≠ period ∧ c ≠ slash ∧ ¬(late ∧ l = []) := by
  constructor
  · intro h
    obtain ⟨es, r, hr, hstop⟩ := exists_stop arg
    rw [walk_of_reaches late hr] at h
    dsimp only at h
    cases hstop with
    | nil => cases h
    | dot => cases h
    | dotUpEnd => cases h
    | dotBad hc =>
      rw [walk_dotBad hc] at h
      cases h
    | upEnd =>
      rw [walk_upEnd] at h
      cases h
    | bad hc =>
      rw [walk_bad hc] at h
      cases h
    | @stuck c l hc hs =>
      refine ⟨es, c, l, hr, hc, hs, fun hend ↦ ?_⟩
      rw [walk_stuck hc hs, if_pos hend] at h
      cases h
  · rintro ⟨es, c, l, hr, hc, hs, hend⟩
    rw [walk_of_reaches late hr, walk_stuck hc hs, if_neg hend]

theorem edits_succ {arg : ℕ → UInt8} : ∀ {k : ℕ},
    (edits ahead arg fuel k).2 ≠ .loops →
    edits ahead arg (fuel + 1) k = edits ahead arg fuel k := by
  induction fuel with
  | zero => exact fun h ↦ absurd rfl h
  | succ fuel ih =>
    intro k h
    by_cases h₀ : arg k = 0
    · rw [edits_end h₀, edits_end h₀]
    · by_cases hp : arg k = period
      · rw [edits_period hp rfl] at h ⊢
        rw [edits_period hp rfl]
        split at h
        · next hpp =>
          rw [if_pos hpp, if_pos hpp]
          split at h
          · next hs => rw [if_pos hs, if_pos hs, ih h]
          · next hs => rw [if_neg hs, if_neg hs]
        · next hpp => rw [if_neg hpp, if_neg hpp, ih h]
      · rw [edits_byte h₀ hp] at h ⊢
        rw [edits_byte h₀ hp, ih h]

theorem edits_eq_of_le {arg : ℕ → UInt8} {fuel' k : ℕ} (h : (edits ahead arg fuel k).2 ≠ .loops)
    (hle : fuel ≤ fuel') : edits ahead arg fuel' k = edits ahead arg fuel k := by
  induction hle with
  | refl => rfl
  | step _ ih => rw [edits_succ (ih ▸ h), ih]

def Edit.on : Edit → Bytes → Bytes
  | .push c, p => p ++ [c]
  | .up, p => cutLast p

/-- The path that the edits lead to from `p`. -/
def follow (p : Bytes) (es : List Edit) : Bytes := es.foldl (fun p e ↦ e.on p) p

theorem run_stringOps (es : List Edit) (ending : Ending) : ∀ p : Bytes,
    stringOps.run es ending p = match ending with
      | .done => .path (dropSlash (follow p es))
      | .notADirectory => .notADirectory
      | .loops => .loops := by
  induction es with
  | nil =>
    intro p
    cases ending <;> rfl
  | cons e es ih =>
    intro p
    cases e with
    | push c => exact ih _
    | up => exact ih _

theorem run_stringOps_loops {es : List Edit} {ending : Ending} :
    stringOps.run es ending p = .loops ↔ ending = .loops := by
  rw [run_stringOps]
  cases ending with
  | done => exact ⟨(by cases ·), (by cases ·)⟩
  | notADirectory => exact ⟨(by cases ·), (by cases ·)⟩
  | loops => exact ⟨fun _ ↦ rfl, fun _ ↦ rfl⟩

theorem resolveLoop_eq_walk (late : Bool) (h₀ : (0 : UInt8) ∉ arg) (hfuel : arg.length < fuel)
    (p : Bytes) : resolveLoop (aheadOf late) stringOps (charAt arg) fuel 0 p =
      stringOps.run (walk late arg).1 (walk late arg).2 p := by
  rw [resolveLoop_eq_run, edits_eq_walk late fuel arg h₀ hfuel]

theorem exists_ends_iff (late : Bool) (h₀ : (0 : UInt8) ∉ arg) (p : Bytes) :
    (∃ fuel, resolveLoop (aheadOf late) stringOps (charAt arg) fuel 0 p ≠ .loops) ↔
      (walk late arg).2 ≠ .loops := by
  constructor
  · rintro ⟨fuel, hfuel⟩
    rw [resolveLoop_eq_run, Ne, run_stringOps_loops] at hfuel
    -- with fuel for every byte the loop still ends
    have hmax := edits_eq_of_le hfuel (Nat.le_max_left fuel (arg.length + 1))
    rw [← edits_eq_walk late _ arg h₀ (Nat.le_max_right fuel _), hmax]
    exact hfuel
  · intro hend
    refine ⟨arg.length + 1, ?_⟩
    rw [resolveLoop_eq_walk late h₀ (Nat.lt_succ_self _), Ne, run_stringOps_loops]
    exact hend

/-- **When path resolution ends.** The loop of `cd` ends unless it gets to a period with two bytes
behind it the first of which is ordinary, and the loops of `cp` and `mv` unless they get to a period
with an ordinary byte behind it. -/
theorem loops_end_iff (directoryPath arg : Bytes) (h₀ : (0 : UInt8) ∉ arg) :
    ((∃ fuel, cdLoop arg fuel 0 (addSlash directoryPath) ≠ .loops) ↔
      ∀ es c l, Reaches arg es (period :: c :: l) → c = period ∨ c = slash ∨ l = []) ∧
    ((∃ fuel, cpLoop arg fuel 0 (addSlash directoryPath) ≠ .loops) ↔
      ∀ es c l, Reaches arg es (period :: c :: l) → c = period ∨ c = slash) ∧
    ((∃ fuel, mvLoop arg fuel 0 (addSlash directoryPath) ≠ .loops) ↔
      ∀ es c l, Reaches arg es (period :: c :: l) → c = period ∨ c = slash) := by
  have hcp : (∃ fuel, cpLoop arg fuel 0 (addSlash directoryPath) ≠ .loops) ↔
      ∀ es c l, Reaches arg es (period :: c :: l) → c = period ∨ c = slash := by
    refine (exists_ends_iff false h₀ _).trans ?_
    rw [Ne, walk_loops_iff]
    constructor
    · intro h es c l hr
      by_contra hc
      obtain ⟨hp, hs⟩ := not_or.1 hc
      exact h ⟨es, c, l, hr, hp, hs, fun hl ↦ Bool.false_ne_true hl.1⟩
    · rintro h ⟨es, c, l, hr, hp, hs, _⟩
      exact (h es c l hr).elim hp hs
  refine ⟨?_, hcp, hcp⟩
  refine (exists_ends_iff true h₀ _).trans ?_
  rw [Ne, walk_loops_iff]
  constructor
  · intro h es c l hr
    by_contra hc
    obtain ⟨hp, hc⟩ := not_or.1 hc
    obtain ⟨hs, hl⟩ := not_or.1 hc
    exact h ⟨es, c, l, hr, hp, hs, fun h ↦ hl h.2⟩
  · rintro h ⟨es, c, l, hr, hp, hs, hl⟩
    rcases h es c l hr with hc | hc | hc
    · exact hp hc
    · exact hs hc
    · exact hl ⟨rfl, hc⟩

/-- The destination `a.b` is never passed. -/
theorem loops_end_iff_period :
    ¬∃ fuel, cpLoop [97, period, 98] fuel 0 (addSlash [slash]) ≠ .loops := by
  intro hend
  have hpass := (loops_end_iff [slash] [97, period, 98] (by decide)).2.1.1 hend
  exact (hpass [.push 97] 98 [] (.byte (by decide) .here)).elim (by decide) (by decide)

/-- With the argument `a.bc`, no loop ends, whatever fuel it is given. -/
theorem loops_period_in_name :
    (¬∃ fuel, cdLoop [97, period, 98, 99] fuel 0 [slash] ≠ .loops) ∧
    (¬∃ fuel, cpLoop [97, period, 98, 99] fuel 0 [slash] ≠ .loops) ∧
    ¬∃ fuel, mvLoop [97, period, 98, 99] fuel 0 [slash] ≠ .loops := by
  have hloops : ∀ late, ¬∃ fuel,
      resolveLoop (aheadOf late) stringOps (charAt [97, period, 98, 99]) fuel 0 [slash] ≠
        .loops := by
    rintro late ⟨fuel, hne⟩
    refine hne ?_
    rw [resolveLoop_eq_run, run_stringOps_loops]
    cases fuel with
    | zero => rfl
    | succ fuel =>
      rw [edits_byte (by decide) (by decide), edits_stuck rfl (by cases late <;> rfl) (by decide)]
      rfl
  exact ⟨hloops true, hloops false, hloops false⟩

/-! ## When the loops agree -/

theorem cutLast_cons (t : Bytes) : ∃ t', cutLast (slash :: t) = slash :: t' := by
  have hhead : ∀ u : Bytes, ∃ t', ((slash :: u).reverse.dropWhile (· != slash)).reverse =
      slash :: t' := by
    intro u
    induction u using List.reverseRecOn with
    | nil => exact ⟨[], rfl⟩
    | append_singleton u c ih =>
      rw [← List.cons_append, List.reverse_append, List.reverse_singleton, List.singleton_append,
        List.dropWhile_cons]
      split
      · exact ih
      · rw [List.reverse_cons, List.reverse_reverse]
        exact ⟨u ++ [c], rfl⟩
  unfold cutLast
  dsimp only
  split
  · next hne =>
    match t with
    | [] => exact absurd rfl hne
    | c :: t => exact hhead _
  · exact hhead t

theorem follow_cons (es : List Edit) : ∀ t : Bytes, ∃ t', follow (slash :: t) es = slash :: t' := by
  induction es with
  | nil => exact fun t ↦ ⟨t, rfl⟩
  | cons e es ih =>
    intro t
    cases e with
    | push c => exact ih (t ++ [c])
    | up =>
      obtain ⟨t', ht'⟩ := cutLast_cons t
      obtain ⟨t'', ht''⟩ := ih t'
      refine ⟨t'', ?_⟩
      rw [← ht'', ← ht']
      rfl

def AtRoot (p : Bytes) : Prop := p = [slash] ∨ p = [slash, slash]

instance (p : Bytes) : Decidable (AtRoot p) := inferInstanceAs (Decidable (_ ∨ _))

theorem length_cutLast_le (t : Bytes) (h : t ≠ []) :
    (cutLast (slash :: t)).length + 1 ≤ (slash :: t).length := by
  have hne : (slash :: t).length ≠ 1 := fun hlen ↦ h (List.length_eq_zero_iff.1 (Nat.succ.inj hlen))
  unfold cutLast
  rw [if_pos hne, List.length_reverse]
  have hle := (List.dropWhile_sublist (l := ((slash :: t).dropLast).reverse) (· != slash)).length_le
  rw [List.length_reverse, List.length_dropLast] at hle
  simp only [List.length_cons] at hle ⊢
  omega

theorem getLast?_cutLast (t : Bytes) : (cutLast (slash :: t)).getLast? = some slash := by
  obtain ⟨t', ht'⟩ := cutLast_cons t
  unfold cutLast at ht' ⊢
  dsimp only at ht' ⊢
  generalize
    (if (slash :: t).length ≠ 1 then (slash :: t).dropLast else slash :: t).reverse = u at *
  have hhead := List.head?_dropWhile_not (· != slash) u
  rw [List.getLast?_reverse]
  cases hu : (u.dropWhile (· != slash)).head? with
  | none =>
    rw [List.head?_eq_none_iff.1 hu] at ht'
    cases ht'
  | some c =>
    rw [hu] at hhead
    simpa using hhead

theorem le_length_dropSlash (p : Bytes) : p.length ≤ (dropSlash p).length + 1 := by
  unfold dropSlash
  split
  · rw [List.length_dropLast]
    omega
  · exact Nat.le_succ _

theorem length_dropSlash (h : p.getLast? = some slash) :
    (dropSlash p).length = if p.length = 1 then 1 else p.length - 1 := by
  unfold dropSlash
  by_cases hlen : p.length = 1
  · rw [if_neg fun h ↦ h.1 hlen, if_pos hlen, hlen]
  · rw [if_pos ⟨hlen, h⟩, if_neg hlen, List.length_dropLast]

theorem dropSlash_cutLast_iff (t : Bytes) :
    dropSlash (slash :: t) = dropSlash (cutLast (slash :: t)) ↔ AtRoot (slash :: t) := by
  constructor
  · intro heq
    by_cases ht : t = []
    · exact .inl (by rw [ht])
    · -- the lengths differ, unless both strings come down to one byte
      have hpos : 0 < t.length := List.length_pos_iff.2 ht
      have hcut := length_cutLast_le t ht
      have hlen := congrArg List.length heq
      have hle := le_length_dropSlash (slash :: t)
      rw [length_dropSlash (getLast?_cutLast t)] at hlen
      rw [List.length_cons] at hcut hle
      have hone : t.length = 1 ∧ (dropSlash (slash :: t)).length = 1 := by
        split at hlen <;> omega
      obtain ⟨c, rfl⟩ := List.length_eq_one_iff.1 hone.1
      by_cases hc : c = slash
      · exact .inr (by rw [hc])
      · have hnot : ¬([slash, c].length ≠ 1 ∧ [slash, c].getLast? = some slash) :=
          fun h ↦ hc (Option.some.inj h.2)
        rw [dropSlash, if_neg hnot] at hone
        exact absurd hone.2 (Nat.succ_ne_self 1)
  · rintro (h | h) <;> rw [h] <;> rfl

theorem run_walk_eq_iff {es : List Edit} {c : UInt8} (t : Bytes) (hr : Reaches arg es [period, c])
    (hc : c ≠ slash) : stringOps.run (walk true arg).1 (walk true arg).2 (slash :: t) =
        stringOps.run (walk false arg).1 (walk false arg).2 (slash :: t) ↔
      c = period ∧ AtRoot (follow (slash :: t) es) := by
  obtain ⟨t', ht'⟩ := follow_cons es t
  rw [walk_of_reaches true hr, walk_of_reaches false hr]
  by_cases hp : c = period
  · subst hp
    rw [walk_upEnd, walk_upEnd, run_stringOps, run_stringOps]
    have hup : follow (slash :: t) (es ++ [.up]) = cutLast (follow (slash :: t) es) := by
      rw [follow, List.foldl_append]
      rfl
    dsimp only
    rw [if_pos rfl, if_neg Bool.false_ne_true, List.append_nil, hup, ht', Resolved.path.injEq,
      dropSlash_cutLast_iff]
    exact ⟨fun h ↦ ⟨rfl, h⟩, fun h ↦ h.2⟩
  · rw [walk_stuck hp hc, walk_stuck hp hc, run_stringOps, run_stringOps]
    dsimp only
    rw [if_pos ⟨rfl, rfl⟩, if_neg fun h ↦ Bool.false_ne_true h.1]
    exact ⟨fun h ↦ (by cases h), fun h ↦ absurd h.1 hp⟩

theorem walk_eq_of_not_reaches (h : ∀ es c, Reaches arg es [period, c] → c = slash) :
    walk true arg = walk false arg := by
  obtain ⟨es, r, hr, hstop⟩ := exists_stop arg
  rw [walk_of_reaches true hr, walk_of_reaches false hr]
  cases hstop with
  | nil => rfl
  | dot => rfl
  | dotUpEnd => rfl
  | dotBad hc => rw [walk_dotBad hc, walk_dotBad hc]
  | upEnd => exact absurd (h es _ hr) (by decide)
  | bad hc => rw [walk_bad hc, walk_bad hc]
  | @stuck c l hc hs =>
    have hl : l ≠ [] := fun hl ↦ hs (h es c (hl ▸ hr))
    rw [walk_stuck hc hs, walk_stuck hc hs, if_neg fun h ↦ hl h.2, if_neg fun h ↦ hl h.2]

/-- **When the three resolvers agree.** They do unless the argument ends with a period and one more
byte, which is not a slash, and the loop gets there: then it has to be `..`, at the root. -/
theorem paths_agree_iff (directoryPath arg : Bytes) (h₀ : (0 : UInt8) ∉ arg)
    (habs : directoryPath.head? = some slash) :
    (cdPath directoryPath arg = cpPath directoryPath arg ∧
      cdPath directoryPath arg = mvPath directoryPath arg) ↔
    ∀ es c, Reaches arg es [period, c] → c ≠ slash →
      c = period ∧ AtRoot (follow (addSlash directoryPath) es) := by
  obtain ⟨t, ht⟩ : ∃ t, addSlash directoryPath = slash :: t := by
    obtain ⟨t, rfl⟩ := List.head?_eq_some_iff.1 habs
    unfold addSlash
    split
    · exact ⟨t ++ [slash], rfl⟩
    · exact ⟨t, rfl⟩
  have hcd : cdPath directoryPath arg =
      stringOps.run (walk true arg).1 (walk true arg).2 (slash :: t) := by
    rw [← ht]
    exact resolveLoop_eq_walk true h₀ (Nat.lt_succ_self _) _
  have hcp : cpPath directoryPath arg =
      stringOps.run (walk false arg).1 (walk false arg).2 (slash :: t) := by
    rw [← ht]
    exact resolveLoop_eq_walk false h₀ (Nat.lt_succ_self _) _
  have hmv : mvPath directoryPath arg = cpPath directoryPath arg := rfl
  rw [hmv, and_self, hcd, hcp, ht]
  constructor
  · intro heq es c hr hc
    exact (run_walk_eq_iff t hr hc).1 heq
  · intro h
    by_cases hex : ∃ es c, Reaches arg es [period, c] ∧ c ≠ slash
    · obtain ⟨es, c, hr, hc⟩ := hex
      exact (run_walk_eq_iff t hr hc).2 (h es c hr hc)
    · rw [walk_eq_of_not_reaches]
      intro es c hr
      by_contra hc
      exact hex ⟨es, c, hr, hc⟩

/-- In `/a`, the argument `..` is one on which they do not agree. -/
theorem paths_agree_iff_dotdot : ¬(cdPath [slash, 97] dotdot = cpPath [slash, 97] dotdot ∧
    cdPath [slash, 97] dotdot = mvPath [slash, 97] dotdot) := by
  intro hagree
  have hend := (paths_agree_iff [slash, 97] dotdot (by decide) rfl).1 hagree [] period .here
  exact absurd (hend (by decide)).2 (by decide)

/-- From `/a`, `cd ..` stays where it is and `cp f ..` goes to the root. -/
theorem paths_differ_dotdot : cdPath [slash, 97] dotdot = .path [slash, 97] ∧
    cpPath [slash, 97] dotdot = .path [slash] ∧ mvPath [slash, 97] dotdot = .path [slash] := by
  decide

end OperatingSystems.Shell
