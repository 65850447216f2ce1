import Mathlib.Data.List.TakeWhile
import OperatingSystems.Shell.Agree

/-!
# What `cd` makes of a relative path

A path is a list of names, and a relative path is a list of components, each of them `.`, `..` or a
name. The lexical normalisation of a relative path in a directory enters one component after the
other.

`custom_cd` gets the components right only if they have no other periods in them, and it overlooks a
`..` at the end. `cdReads` says which components it takes the argument for: a period at the end of a
name swallows the slash behind it, so that the name runs into the next component; a name that ends
with two periods is left again; behind a component that ends with one period, any component of two
bytes the second of which is a period is taken for `..`; and with most other periods it does not get
through. The path it hands to `opendir` is the normalisation of the components as it has read them,
so it is the right one just when this misreading comes to the same path.
-/

namespace OperatingSystems.Shell

/-! ## Paths and components -/

/-- The path of a directory, from the names on the way to it. -/
def render (ns : List Bytes) : Bytes := if ns = [] then [slash] else ns.flatMap (slash :: ·)

/-- The path with a slash behind it, and the part `p` of a name behind the slash. -/
def opened (ns : List Bytes) (p : Bytes) : Bytes := ns.flatMap (slash :: ·) ++ slash :: p

def enter (ns : List Bytes) (x : Bytes) : List Bytes :=
  if x = dot then ns else if x = dotdot then ns.dropLast else ns ++ [x]

def normal (ns cs : List Bytes) : List Bytes := cs.foldl enter ns

def joined (trailing : Bool) : List Bytes → Bytes
  | [] => []
  | x :: xs => x ++ if xs = [] ∧ trailing = false then [] else slash :: joined trailing xs

def pending (name : Bytes) : List Bytes := if name = [] then [] else [name]

def leave (name : Bytes) (cs : List Bytes) : List Bytes := if name = [] then dotdot :: cs else cs

/-- The components that `custom_cd` takes an argument for, if it gets through. `glue` is the pending
part of a name whose slash was swallowed, and `dotted` says that the last component ended with a
period. -/
def cdReads (trailing : Bool) : (glue : Bytes) → (dotted : Bool) → List Bytes → Option (List Bytes)
  | glue, _, [] => some (pending glue)
  | glue, dotted, x :: xs =>
    if dotted = true ∧ x[1]? = some period then
      if x.length = 2 then (cdReads trailing [] false xs).map (leave glue) else none
    else
      let name := glue ++ x.takeWhile (· != period)
      match x.dropWhile (· != period) with
      | [] => (cdReads trailing [] false xs).map (name :: ·)
      | [_] => cdReads trailing name true xs
      | [_, c] =>
        if xs = [] ∧ trailing = false then some (pending name)
        else if c = period then (cdReads trailing [] false xs).map (leave name)
        else none
      | _ => none

/-! ## Edits of a path -/

section Opened

variable {ns : List Bytes} {p : Bytes}

theorem flatMap_eq_nil_iff : ns.flatMap (slash :: ·) = [] ↔ ns = [] := by
  constructor
  · intro h
    match ns with
    | [] => rfl
    | n :: ns => cases h
  · rintro rfl
    rfl

theorem opened_push (c : UInt8) : opened ns p ++ [c] = opened ns (p ++ [c]) := by
  rw [opened, opened, List.append_assoc, List.cons_append]

theorem opened_slash : opened ns p ++ [slash] = opened (ns ++ [p]) [] := by
  rw [opened, opened, List.flatMap_append, List.flatMap_singleton]

theorem render_concat : render (ns ++ [p]) = opened ns p := by
  rw [render, if_neg (List.append_ne_nil_of_right_ne_nil _ (List.cons_ne_nil _ _)),
    List.flatMap_append, List.flatMap_singleton]
  rfl

theorem addSlash_render (h : ∀ n ∈ ns, n ≠ [] ∧ slash ∉ n) :
    addSlash (render ns) = opened ns [] := by
  rcases List.eq_nil_or_concat ns with rfl | ⟨ms, n, rfl⟩
  · rfl
  · rw [List.concat_eq_append] at h ⊢
    obtain ⟨hne, hs⟩ := h n (List.mem_append_right _ List.mem_cons_self)
    have hlast : (opened ms n).getLast? ≠ some slash := by
      rw [opened, List.getLast?_append_of_ne_nil _ (List.cons_ne_nil _ _), List.getLast?_cons]
      intro heq
      rw [List.getLast?_eq_getLast_of_ne_nil hne, Option.getD_some] at heq
      exact hs (Option.some.inj heq ▸ List.getLast_mem hne)
    rw [render_concat, addSlash, if_pos hlast, opened_slash]

theorem dropSlash_opened (h : slash ∉ p) : dropSlash (opened ns p) = render (ns ++ pending p) := by
  unfold pending
  by_cases hp : p = []
  · subst hp
    rw [if_pos rfl, List.append_nil, opened, dropSlash, render]
    by_cases hns : ns = []
    · subst hns
      rfl
    · have hlen : (ns.flatMap (slash :: ·) ++ [slash]).length ≠ 1 := by
        intro hlen
        rw [List.length_append, List.length_singleton, Nat.add_eq_right,
          List.length_eq_zero_iff, flatMap_eq_nil_iff] at hlen
        exact hns hlen
      rw [if_pos ⟨hlen, List.getLast?_concat⟩, if_neg hns, List.dropLast_concat]
  · rw [if_neg hp, render_concat, dropSlash, if_neg]
    rintro ⟨-, hlast⟩
    rw [opened, List.getLast?_append_of_ne_nil _ (List.cons_ne_nil _ _), List.getLast?_cons,
      List.getLast?_eq_getLast_of_ne_nil hp, Option.getD_some] at hlast
    exact h (Option.some.inj hlast ▸ List.getLast_mem hp)

theorem strip_eq (l : Bytes) (h : slash ∉ p) :
    ((l ++ slash :: p).reverse.dropWhile (· != slash)).reverse = l ++ [slash] := by
  rw [List.reverse_append, List.reverse_cons, List.append_assoc, List.dropWhile_append_of_pos]
  · rw [List.singleton_append, List.dropWhile_cons_of_neg (by simp), List.reverse_cons,
      List.reverse_reverse]
  · intro c hc
    have : c ≠ slash := fun hcs ↦ h (hcs ▸ List.mem_reverse.1 hc)
    simpa using this

theorem cutLast_opened (hp : slash ∉ p) (h : ∀ n ∈ ns, slash ∉ n) :
    cutLast (opened ns p) = opened (if p = [] then ns.dropLast else ns) [] := by
  unfold cutLast
  dsimp only
  rcases List.eq_nil_or_concat p with rfl | ⟨p, c, rfl⟩
  · rw [if_pos rfl]
    rcases List.eq_nil_or_concat ns with rfl | ⟨ms, n, rfl⟩
    · rfl
    · -- the slash goes, and then the last name
      rw [List.concat_eq_append] at h ⊢
      have hlen : (opened (ms ++ [n]) []).length ≠ 1 := by
        rw [← opened_slash, List.length_append, List.length_singleton, opened, List.length_append,
          List.length_cons]
        omega
      rw [if_pos hlen, ← opened_slash, List.dropLast_concat, List.dropLast_concat, opened,
        strip_eq _ (h n (List.mem_append_right _ List.mem_cons_self))]
      rfl
  · rw [List.concat_eq_append] at hp ⊢
    have hne : p ++ [c] ≠ [] := List.append_ne_nil_of_right_ne_nil _ (List.cons_ne_nil _ _)
    have hlen : (opened ns (p ++ [c])).length ≠ 1 := by
      rw [← opened_push, List.length_append, List.length_singleton, opened, List.length_append,
        List.length_cons]
      omega
    rw [if_neg hne, if_pos hlen, ← opened_push, List.dropLast_concat, opened,
      strip_eq _ fun hmem ↦ hp (List.mem_append_left _ hmem)]
    rfl

end Opened

/-! ## The loop of `cd` on an argument -/

/-- What `custom_cd` makes of the rest `l` of its argument when its path is `p`. -/
def cdRun (l p : Bytes) : Resolved Bytes := stringOps.run (walk true l).1 (walk true l).2 p

variable {u name : Bytes} {ns cs : List Bytes}

section CdRun

variable {c c' : UInt8} {l p : Bytes}

theorem cdRun_byte (h : c ≠ period) : cdRun (c :: l) p = cdRun l (p ++ [c]) := by
  rw [cdRun, walk_byte h]
  rfl

theorem cdRun_dotSlash (h : ∀ c₁ c₂ l', l = c₁ :: c₂ :: l' → c₂ ≠ period) :
    cdRun (period :: slash :: l) p = cdRun l p := by
  rw [cdRun, walk_dotSlash h]
  rfl

theorem cdRun_dotUp : cdRun (period :: slash :: c :: period :: slash :: l) p =
    cdRun l (cutLast p) := by
  rw [cdRun, walk_dotUp]
  rfl

theorem cdRun_dotBad (h : c' ≠ slash) :
    cdRun (period :: slash :: c :: period :: c' :: l) p = .notADirectory := by
  rw [cdRun, walk_dotBad h]
  rfl

theorem cdRun_late : cdRun [period, c] p = cdRun [] p := by
  by_cases hs : c = slash
  · subst hs
    exact cdRun_dotSlash fun _ _ _ h ↦ by cases h
  · by_cases hp : c = period
    · subst hp
      rfl
    · rw [cdRun, walk_stuck hp hs, if_pos ⟨rfl, rfl⟩]
      rfl

theorem cdRun_up : cdRun (period :: period :: slash :: l) p = cdRun l (cutLast p) := by
  rw [cdRun, walk_up]
  rfl

theorem cdRun_bad (h : c ≠ slash) : cdRun (period :: period :: c :: l) p = .notADirectory := by
  rw [cdRun, walk_bad h]
  rfl

theorem cdRun_stuck (h : c ≠ period) (hs : c ≠ slash) (hl : l ≠ []) :
    cdRun (period :: c :: l) p = .loops := by
  rw [cdRun, walk_stuck h hs, if_neg fun h ↦ hl h.2]
  rfl

theorem cdRun_append (h : period ∉ u) : cdRun (u ++ l) p = cdRun l (p ++ u) := by
  induction u generalizing p with
  | nil => rw [List.append_nil, List.nil_append]
  | cons c u ih =>
    have hc : c ≠ period := fun hc ↦ h (hc ▸ List.mem_cons_self)
    rw [List.cons_append, cdRun_byte hc, ih fun hu ↦ h (List.mem_cons_of_mem _ hu),
      List.append_assoc, List.singleton_append]

end CdRun

/-- The path that has been read: the normalisation of the components, or none at all. -/
def Leads (ns : List Bytes) (cs : Option (List Bytes)) (r : Resolved Bytes) : Prop :=
  match cs with
  | some cs => r = .path (render (normal ns cs))
  | none => ∀ p, r ≠ .path p

section Leads

variable {ns : List Bytes} {cs : Option (List Bytes)} {r : Resolved Bytes} {name : Bytes}

theorem enter_name (hp : period ∉ name) : enter ns name = ns ++ [name] := by
  have hdot : name ≠ dot := fun h ↦ hp (h ▸ (by decide : period ∈ dot))
  have hdotdot : name ≠ dotdot := fun h ↦ hp (h ▸ (by decide : period ∈ dotdot))
  rw [enter, if_neg hdot, if_neg hdotdot]

theorem normal_pending (hp : period ∉ name) : normal ns (pending name) = ns ++ pending name := by
  unfold pending
  split
  · rw [List.append_nil]
    rfl
  · exact enter_name hp

theorem leads_pending (hs : slash ∉ name) (hp : period ∉ name) :
    Leads ns (some (pending name)) (.path (dropSlash (opened ns name))) := by
  rw [Leads, dropSlash_opened hs, normal_pending hp]

theorem leads_name (hp : period ∉ name) (h : Leads (ns ++ [name]) cs r) :
    Leads ns (cs.map (name :: ·)) r := by
  cases cs with
  | none => exact h
  | some cs =>
    rw [← enter_name hp] at h
    exact h

theorem leads_leave (h : Leads (if name = [] then ns.dropLast else ns) cs r) :
    Leads ns (cs.map (leave name)) r := by
  cases cs with
  | none => exact h
  | some cs =>
    unfold leave
    split at h
    · next hn =>
      rw [Option.map_some, if_pos hn]
      exact h
    · next hn =>
      rw [Option.map_some, if_neg hn]
      exact h

end Leads

def IsComponent (x : Bytes) : Prop := x ≠ [] ∧ slash ∉ x

theorem not_mem_takeWhile (x : Bytes) : period ∉ x.takeWhile (· != period) := by
  intro h
  simpa using List.mem_takeWhile_imp h

theorem dropWhile_eq_cons {x w : Bytes} {c : UInt8} (h : x.dropWhile (· != period) = c :: w) :
    c = period := by
  have hhead := List.head?_dropWhile_not (· != period) x
  rw [h] at hhead
  simpa using hhead

theorem opened_append {p : Bytes} : opened ns p ++ u = opened ns (p ++ u) := by
  rw [opened, opened, List.append_assoc, List.cons_append]

def behind (trailing : Bool) (xs : List Bytes) : Bytes :=
  if xs = [] ∧ trailing = false then [] else slash :: joined trailing xs

section Components

variable {trailing dotted : Bool} {xs ns : List Bytes} {x glue name : Bytes}

def ReadsRest (trailing : Bool) (xs : List Bytes) : Prop :=
  ∀ (ns : List Bytes) (glue : Bytes) (dotted : Bool), (∀ n ∈ ns, slash ∉ n) → slash ∉ glue →
    period ∉ glue → Leads ns (cdReads trailing glue dotted xs)
      (cdRun (if dotted then period :: slash :: joined trailing xs else joined trailing xs)
        (opened ns glue))

theorem leads_of_leave (hrest : ReadsRest trailing xs) (hns : ∀ n ∈ ns, slash ∉ n)
    (hs : slash ∉ name) (run : Bytes → Resolved Bytes)
    (hend : xs = [] ∧ trailing = false → run [] = .path (dropSlash (cutLast (opened ns name))))
    (hslash : ∀ l, run (slash :: l) = cdRun l (cutLast (opened ns name))) :
    Leads ns ((cdReads trailing [] false xs).map (leave name)) (run (behind trailing xs)) := by
  have hns' : ∀ n ∈ if name = [] then ns.dropLast else ns, slash ∉ n := by
    intro n hn
    split at hn
    · exact hns n (List.dropLast_sublist ns |>.mem hn)
    · exact hns n hn
  refine leads_leave ?_
  unfold behind
  by_cases hlast : xs = [] ∧ trailing = false
  · rw [if_pos hlast, hend hlast, cutLast_opened hs hns, hlast.1, cdReads]
    exact leads_pending List.not_mem_nil List.not_mem_nil
  · rw [if_neg hlast, hslash, cutLast_opened hs hns]
    exact hrest _ _ false hns' List.not_mem_nil List.not_mem_nil

theorem leads_second_period (hrest : ReadsRest trailing xs) (hns : ∀ n ∈ ns, slash ∉ n)
    (hs : slash ∉ glue) (hx : IsComponent x) (hsecond : x[1]? = some period) :
    Leads ns (if x.length = 2 then (cdReads trailing [] false xs).map (leave glue) else none)
      (cdRun (period :: slash :: (x ++ behind trailing xs)) (opened ns glue)) := by
  match x, hsecond with
  | [c, c'], hsecond =>
    obtain rfl : c' = period := Option.some.inj hsecond
    have hlen : [c, period].length = 2 := rfl
    rw [if_pos hlen]
    refine leads_of_leave hrest hns hs
      (fun l ↦ cdRun (period :: slash :: c :: period :: l) (opened ns glue)) ?_ ?_
    · exact fun _ ↦ rfl
    · exact fun _ ↦ cdRun_dotUp
  | c :: c' :: c'' :: w, hsecond =>
    obtain rfl : c' = period := Option.some.inj hsecond
    have hc : c'' ≠ slash := by
      rintro rfl
      exact hx.2 (by simp)
    have hlen : (c :: period :: c'' :: w).length ≠ 2 := by
      simp only [List.length_cons]
      omega
    rw [if_neg hlen]
    intro p hp
    rw [List.cons_append, List.cons_append, List.cons_append, cdRun_dotBad hc] at hp
    cases hp

theorem leads_component (hrest : ReadsRest trailing xs) (hns : ∀ n ∈ ns, slash ∉ n)
    (hs : slash ∉ glue) (hp : period ∉ glue) (hx : IsComponent x) :
    Leads ns
      (match x.dropWhile (· != period) with
        | [] => (cdReads trailing [] false xs).map ((glue ++ x.takeWhile (· != period)) :: ·)
        | [_] => cdReads trailing (glue ++ x.takeWhile (· != period)) true xs
        | [_, c] =>
          if xs = [] ∧ trailing = false then some (pending (glue ++ x.takeWhile (· != period)))
          else if c = period then
            (cdReads trailing [] false xs).map (leave (glue ++ x.takeWhile (· != period)))
          else none
        | _ => none)
      (cdRun (x ++ behind trailing xs) (opened ns glue)) := by
  have hsplit := List.takeWhile_append_dropWhile (p := (· != period)) (l := x)
  have hu := not_mem_takeWhile x
  have hsu : slash ∉ x.takeWhile (· != period) ∧ slash ∉ x.dropWhile (· != period) := by
    rw [← not_or, ← List.mem_append, hsplit]
    exact hx.2
  have hcons := fun {c w} ↦ dropWhile_eq_cons (x := x) (c := c) (w := w)
  generalize x.takeWhile (· != period) = u at *
  generalize x.dropWhile (· != period) = v at *
  have hname : slash ∉ glue ++ u ∧ period ∉ glue ++ u := by
    rw [List.mem_append, List.mem_append, not_or, not_or]
    exact ⟨⟨hs, hsu.1⟩, hp, hu⟩
  rw [← hsplit, List.append_assoc, cdRun_append hu, opened_append]
  rcases v with _ | ⟨c, _ | ⟨c', _ | ⟨c'', w⟩⟩⟩
  · -- no period
    rw [List.append_nil] at hsplit
    have hne : glue ++ u ≠ [] := List.append_ne_nil_of_right_ne_nil _ (hsplit ▸ hx.1)
    rw [List.nil_append]
    unfold behind
    by_cases hlast : xs = [] ∧ trailing = false
    · have hpending : pending (glue ++ u) = [glue ++ u] := if_neg hne
      have hleads :
          Leads ns (some (pending (glue ++ u))) (.path (dropSlash (opened ns (glue ++ u)))) :=
        leads_pending hname.1 hname.2
      rw [hpending] at hleads
      rw [if_pos hlast, hlast.1]
      exact hleads
    · have hslash : (slash : UInt8) ≠ period := by decide
      rw [if_neg hlast, cdRun_byte hslash, opened_slash]
      refine leads_name hname.2 (hrest _ _ false ?_ List.not_mem_nil List.not_mem_nil)
      intro n hn
      rcases List.mem_append.1 hn with hn | hn
      · exact hns n hn
      · exact List.mem_singleton.1 hn ▸ hname.1
  · -- a period at the end, which takes the slash with it
    obtain rfl := hcons rfl
    unfold behind
    by_cases hlast : xs = [] ∧ trailing = false
    · rw [if_pos hlast, hlast.1]
      exact leads_pending hname.1 hname.2
    · rw [if_neg hlast]
      exact hrest _ _ true hns hname.1 hname.2
  · -- a period before the last byte
    obtain rfl := hcons rfl
    by_cases hlast : xs = [] ∧ trailing = false
    · have hbehind : behind trailing xs = [] := if_pos hlast
      dsimp only
      rw [if_pos hlast, hbehind, List.append_nil, cdRun_late]
      exact leads_pending hname.1 hname.2
    · dsimp only
      rw [if_neg hlast]
      by_cases hc : c' = period
      · subst hc
        rw [if_pos rfl]
        exact leads_of_leave hrest hns hname.1
          (fun l ↦ cdRun (period :: period :: l) (opened ns (glue ++ u)))
          (fun h ↦ absurd h hlast) (fun _ ↦ cdRun_up)
      · have hs' : c' ≠ slash := by
          rintro rfl
          exact hsu.2 (by simp)
        have hbehind : behind trailing xs ≠ [] := by
          rw [behind, if_neg hlast]
          exact List.cons_ne_nil _ _
        rw [if_neg hc]
        intro q hq
        rw [List.cons_append, List.singleton_append, cdRun_stuck hc hs' hbehind] at hq
        cases hq
  · -- a period further ahead
    obtain rfl := hcons rfl
    intro q hq
    rw [List.cons_append, List.cons_append] at hq
    by_cases hc : c' = period
    · subst hc
      have hs' : c'' ≠ slash := by
        rintro rfl
        exact hsu.2 (by simp)
      rw [List.cons_append, cdRun_bad hs'] at hq
      cases hq
    · have hs' : c' ≠ slash := by
        rintro rfl
        exact hsu.2 (by simp)
      rw [List.cons_append, cdRun_stuck hc hs' (List.cons_ne_nil _ _)] at hq
      cases hq

end Components

theorem readsRest (trailing : Bool) (xs : List Bytes) (h : ∀ x ∈ xs, IsComponent x) :
    ReadsRest trailing xs := by
  induction xs with
  | nil =>
    intro ns glue dotted _ hs hp
    have hrun : cdRun (if dotted then [period, slash] else []) (opened ns glue) =
        .path (dropSlash (opened ns glue)) := by
      cases dotted with
      | true => exact cdRun_late
      | false => rfl
    rw [joined, hrun]
    exact leads_pending hs hp
  | cons x xs ih =>
    intro ns glue dotted hns hs hp
    have hx := h x List.mem_cons_self
    have hrest := ih fun y hy ↦ h y (List.mem_cons_of_mem _ hy)
    have hjoined : joined trailing (x :: xs) = x ++ behind trailing xs := rfl
    rw [cdReads, hjoined]
    by_cases hsecond : dotted = true ∧ x[1]? = some period
    · rw [if_pos hsecond, if_pos hsecond.1]
      exact leads_second_period hrest hns hs hx hsecond.2
    · rw [if_neg hsecond]
      have hrun : cdRun (if dotted then period :: slash :: (x ++ behind trailing xs)
          else x ++ behind trailing xs) (opened ns glue) =
          cdRun (x ++ behind trailing xs) (opened ns glue) := by
        cases dotted with
        | false => rfl
        | true =>
          refine cdRun_dotSlash fun c₁ c₂ l heq hc ↦ hsecond ⟨rfl, ?_⟩
          match x, hx.1 with
          | [_], _ =>
            -- then the second byte is the slash behind the component
            obtain ⟨-, hl⟩ := List.cons.inj heq
            unfold behind at hl
            split at hl
            · cases hl
            · exact absurd ((List.cons.inj hl).1.trans hc) (by decide)
          | _ :: y :: _, _ =>
            obtain ⟨-, hl⟩ := List.cons.inj heq
            exact congrArg some ((List.cons.inj hl).1.trans hc)
      rw [hrun]
      exact leads_component hrest hns hs hp hx

/-! ## When the path is the right one -/

theorem flatMap_inj : ∀ {ns ms : List Bytes}, (∀ n ∈ ns, slash ∉ n) → (∀ m ∈ ms, slash ∉ m) →
    ns.flatMap (slash :: ·) = ms.flatMap (slash :: ·) → ns = ms := by
  -- the bytes before the next slash are the first name
  have hname : ∀ {n : Bytes} (ns : List Bytes), slash ∉ n →
      (n ++ ns.flatMap (slash :: ·)).takeWhile (· != slash) = n := by
    intro n ns hn
    have hall : ∀ c ∈ n, (c != slash) = true := by
      intro c hc
      have : c ≠ slash := fun h ↦ hn (h ▸ hc)
      simpa using this
    have hnil : (ns.flatMap (slash :: ·)).takeWhile (· != slash) = [] := by
      match ns with
      | [] => rfl
      | n :: ns => rfl
    rw [List.takeWhile_append_of_pos hall, hnil, List.append_nil]
  intro ns
  induction ns with
  | nil =>
    intro ms _ _ heq
    exact (flatMap_eq_nil_iff.1 heq.symm).symm
  | cons n ns ih =>
    intro ms hns hms heq
    match ms with
    | [] => exact flatMap_eq_nil_iff.1 heq
    | m :: ms =>
      have hn := hns n List.mem_cons_self
      have hm := hms m List.mem_cons_self
      have htail := (List.cons.inj heq).2
      have heqn : n = m := by
        rw [← hname ns hn, ← hname ms hm]
        exact congrArg _ htail
      subst heqn
      rw [ih (fun x hx ↦ hns x (List.mem_cons_of_mem _ hx))
        (fun x hx ↦ hms x (List.mem_cons_of_mem _ hx)) (List.append_cancel_left htail)]

theorem render_inj {ms : List Bytes} (hns : ∀ n ∈ ns, IsComponent n)
    (hms : ∀ m ∈ ms, IsComponent m) (heq : render ns = render ms) : ns = ms := by
  have hroot : ∀ {ms : List Bytes}, (∀ m ∈ ms, IsComponent m) → ms ≠ [] →
      [slash] ≠ ms.flatMap (slash :: ·) := by
    intro ms hms hne heq
    match ms with
    | m :: ms =>
      exact (hms m List.mem_cons_self).1 (List.append_eq_nil_iff.1 (List.cons.inj heq).2.symm).1
  unfold render at heq
  by_cases hn : ns = [] <;> by_cases hm : ms = []
  · rw [hn, hm]
  · rw [if_pos hn, if_neg hm] at heq
    exact absurd heq (hroot hms hm)
  · rw [if_neg hn, if_pos hm] at heq
    exact absurd heq.symm (hroot hns hn)
  · rw [if_neg hn, if_neg hm] at heq
    exact flatMap_inj (fun n hn ↦ (hns n hn).2) (fun m hm ↦ (hms m hm).2) heq

theorem isComponent_normal (hcs : ∀ c ∈ cs, IsComponent c) :
    ∀ {ns : List Bytes}, (∀ n ∈ ns, IsComponent n) → ∀ n ∈ normal ns cs, IsComponent n := by
  induction cs with
  | nil => exact fun h ↦ h
  | cons c cs ih =>
    intro ns hns
    refine ih (fun x hx ↦ hcs x (List.mem_cons_of_mem _ hx)) ?_
    intro n hn
    unfold enter at hn
    split at hn
    · exact hns n hn
    · split at hn
      · exact hns n ((List.dropLast_sublist ns).mem hn)
      · rcases List.mem_append.1 hn with hn | hn
        · exact hns n hn
        · exact List.mem_singleton.1 hn ▸ hcs c List.mem_cons_self

theorem isComponent_pending (hs : slash ∉ name) : ∀ c ∈ pending name, IsComponent c := by
  intro c hc
  unfold pending at hc
  split at hc
  · cases hc
  · next hne => exact List.mem_singleton.1 hc ▸ ⟨hne, hs⟩

theorem isComponent_leave (hcs : ∀ c ∈ cs, IsComponent c) : ∀ c ∈ leave name cs, IsComponent c := by
  intro c hc
  unfold leave at hc
  split at hc
  · rcases List.mem_cons.1 hc with rfl | hc
    · exact ⟨List.cons_ne_nil _ _, by decide⟩
    · exact hcs c hc
  · exact hcs c hc

theorem isComponent_cdReads (trailing : Bool) {xs : List Bytes} (hxs : ∀ x ∈ xs, IsComponent x)
    (glue : Bytes) (dotted : Bool) (hs : slash ∉ glue) :
    ∀ cs ∈ cdReads trailing glue dotted xs, ∀ c ∈ cs, IsComponent c := by
  -- the part of a component before its first period
  have hname : ∀ {glue x : Bytes}, slash ∉ glue → IsComponent x →
      slash ∉ glue ++ x.takeWhile (· != period) := by
    intro glue x hs hx hmem
    rcases List.mem_append.1 hmem with h | h
    · exact hs h
    · exact hx.2 ((List.takeWhile_sublist _).mem h)
  have hrest : ∀ {x : Bytes} {xs : List Bytes}, (∀ y ∈ x :: xs, IsComponent y) →
      ∀ y ∈ xs, IsComponent y := fun h y hy ↦ h y (List.mem_cons_of_mem _ hy)
  fun_induction cdReads trailing glue dotted xs with
  | case1 glue dotted =>
    rintro _ ⟨⟩
    exact isComponent_pending hs
  | case2 glue dotted x xs _ _ ih =>
    intro cs hcs
    obtain ⟨cs, hread, rfl⟩ := Option.map_eq_some_iff.1 hcs
    exact isComponent_leave (ih (hrest hxs) List.not_mem_nil cs hread)
  | case4 glue dotted x xs _ name hdrop ih =>
    intro cs hcs
    obtain ⟨cs, hread, rfl⟩ := Option.map_eq_some_iff.1 hcs
    have hx := hxs x List.mem_cons_self
    have htake : x.takeWhile (· != period) = x := by
      have hsplit := List.takeWhile_append_dropWhile (p := (· != period)) (l := x)
      rwa [hdrop, List.append_nil] at hsplit
    have hne : name ≠ [] := List.append_ne_nil_of_right_ne_nil _ (htake.symm ▸ hx.1)
    intro c hc
    rcases List.mem_cons.1 hc with rfl | hc
    · exact ⟨hne, hname hs hx⟩
    · exact ih (hrest hxs) List.not_mem_nil cs hread c hc
  | case5 glue dotted x xs _ name _ _ ih =>
    exact ih (hrest hxs) (hname hs (hxs x List.mem_cons_self))
  | case6 glue dotted x xs =>
    rintro _ ⟨⟩
    exact isComponent_pending (hname hs (hxs x List.mem_cons_self))
  | case7 glue dotted x xs _ name _ _ _ ih =>
    intro cs hcs
    obtain ⟨cs, hread, rfl⟩ := Option.map_eq_some_iff.1 hcs
    exact isComponent_leave (ih (hrest hxs) List.not_mem_nil cs hread)
  -- where `cd` does not get through
  | case3 => rintro _ ⟨⟩
  | case8 => rintro _ ⟨⟩
  | case9 => rintro _ ⟨⟩

theorem leads_cdPath {trailing : Bool} (hns : ∀ n ∈ ns, IsComponent n)
    (hcs : ∀ c ∈ cs, IsComponent c) (h₀ : (0 : UInt8) ∉ joined trailing cs) :
    Leads ns (cdReads trailing [] false cs) (cdPath (render ns) (joined trailing cs)) := by
  have hrun :
      cdPath (render ns) (joined trailing cs) = cdRun (joined trailing cs) (opened ns []) := by
    rw [← addSlash_render hns]
    exact resolveLoop_eq_walk true h₀ (Nat.lt_succ_self _) _
  have hleads := readsRest trailing cs hcs ns [] false (fun n hn ↦ (hns n hn).2) List.not_mem_nil
    List.not_mem_nil
  rw [if_neg Bool.false_ne_true] at hleads
  rw [hrun]
  exact hleads

/-- **When `cd` resolves a relative path correctly.** It hands the lexical normalisation to
`opendir` just when the components that it reads lead to the same directory. -/
theorem cdPath_eq_normal_iff (ns cs : List Bytes) (trailing : Bool)
    (hns : ∀ n ∈ ns, IsComponent n) (hcs : ∀ c ∈ cs, IsComponent c)
    (h₀ : (0 : UInt8) ∉ joined trailing cs) :
    cdPath (render ns) (joined trailing cs) = .path (render (normal ns cs)) ↔
      ∃ cs', cdReads trailing [] false cs = some cs' ∧ normal ns cs' = normal ns cs := by
  have hleads := leads_cdPath hns hcs h₀
  cases hreads : cdReads trailing [] false cs with
  | none =>
    rw [hreads] at hleads
    exact ⟨fun h ↦ absurd h (hleads _), fun ⟨_, h, _⟩ ↦ absurd h.symm (Option.some_ne_none _)⟩
  | some cs' =>
    rw [hreads] at hleads
    have hpath : cdPath (render ns) (joined trailing cs) = .path (render (normal ns cs')) := hleads
    rw [hpath, Resolved.path.injEq]
    constructor
    · intro heq
      refine ⟨cs', rfl, render_inj ?_ (isComponent_normal hcs hns) heq⟩
      exact isComponent_normal
        (isComponent_cdReads trailing hcs [] false List.not_mem_nil cs' hreads) hns
    · rintro ⟨_, ⟨⟩, heq⟩
      rw [heq]

/-- From `/a`, `cd ../b` goes to `/b`. -/
theorem cdPath_eq_normal_iff_sibling : cdPath (render [[97]]) (joined false [dotdot, [98]]) =
    .path (render (normal [[97]] [dotdot, [98]])) :=
  (cdPath_eq_normal_iff [[97]] [dotdot, [98]] false (by unfold IsComponent; decide)
    (by unfold IsComponent; decide) (by decide)).2 ⟨[dotdot, [98]], by decide, by decide⟩

/-- From `/a`, `cd ..` stays at `/a`. -/
theorem cdPath_dotdot_end : cdPath (render [[97]]) (joined false [dotdot]) = .path [slash, 97] ∧
    render (normal [[97]] [dotdot]) = [slash] := by
  decide

end OperatingSystems.Shell
