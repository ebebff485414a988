import Befa.Lib.Regex

/-!
# The first way of a pattern

An engine reports the first of the ways of `Regex.run`.  `Regex.First` names it, and there is one
rule per constructor.  A pattern has no way at all when no prefix is in its language
(`run_eq_nil_iff`), which is how an alternative is passed over.

A run of a class stops where the next element is outside of the class.  `Stops` says that it does,
and `append_stops_inj` that a list splits in one way into a run and what stops it.
-/

/-! ## Runs of a class -/

section Runs

variable {α : Type} {p : α → Bool}

/-- The list is empty or starts outside of the class. -/
def Stops (p : α → Bool) (s : List α) : Prop := ∀ a ∈ s.head?, p a = false

@[simp] theorem stops_nil : Stops p [] := by simp [Stops]

@[simp] theorem stops_cons {a : α} {s : List α} : Stops p (a :: s) ↔ p a = false := by
  simp [Stops]

theorem stops_dropWhile (p : α → Bool) (s : List α) : Stops p (s.dropWhile p) := by
  intro a ha
  have := List.head?_dropWhile_not p s
  rw [Option.mem_def.mp ha] at this
  simpa using this

/-- A list splits in one way into a run and what stops it. -/
theorem append_stops_inj {u v s t : List α} (hu : ∀ a ∈ u, p a = true)
    (hv : ∀ a ∈ v, p a = true) (hs : Stops p s) (ht : Stops p t) (h : u ++ s = v ++ t) :
    u = v ∧ s = t := by
  induction u generalizing v with
  | nil =>
      cases v with
      | nil => exact ⟨rfl, h⟩
      | cons b v =>
          have hb : p b = false := hs b (by rw [show s = b :: (v ++ t) from h]; rfl)
          exact absurd (hv b (List.mem_cons_self ..)) (by simp [hb])
  | cons a u ih =>
      cases v with
      | nil =>
          have ha : p a = false := ht a (by rw [show t = a :: (u ++ s) from h.symm]; rfl)
          exact absurd (hu a (List.mem_cons_self ..)) (by simp [ha])
      | cons b v =>
          obtain ⟨hab, hrest⟩ := List.cons.inj h
          obtain ⟨huv, hst⟩ := ih (fun c hc => hu c (List.mem_cons_of_mem _ hc))
            (fun c hc => hv c (List.mem_cons_of_mem _ hc)) hrest
          exact ⟨by rw [hab, huv], hst⟩

/-- A list of the class in front of what stops the run is no longer than the run. -/
theorem length_le_of_stops {u v y s : List α} (hu : ∀ a ∈ u, p a = true)
    (hs : Stops p s) (h : y ++ s = u ++ v) : u.length ≤ y.length := by
  refine Nat.not_lt.mp fun hlt => ?_
  obtain ⟨w, hw⟩ := List.prefix_of_prefix_length_le ⟨s, h⟩ ⟨v, rfl⟩ (Nat.le_of_lt hlt)
  obtain ⟨a, w, rfl⟩ : ∃ a w', w = a :: w' := by
    refine List.exists_cons_of_ne_nil fun hnil => ?_
    rw [hnil, List.append_nil] at hw
    exact absurd (congrArg List.length hw) (Nat.ne_of_lt hlt)
  have hs' : s = a :: (w ++ v) := by
    rw [← hw, List.append_assoc] at h
    exact List.append_cancel_left h
  have ha : p a = false := hs a (by rw [hs']; rfl)
  exact absurd (hu a (by rw [← hw]; simp)) (by simp [ha])

end Runs

namespace Regex

variable {α : Type} {r t : Regex α} {s : List α} {c : Captures α} {m k : Match α}

/-! ## No way -/

/-- A pattern has no way when no prefix is in its language. -/
theorem run_eq_nil_iff : run r s c = [] ↔ ∀ u v, s = u ++ v → ¬Lang r u := by
  rw [List.eq_nil_iff_forall_not_mem]
  constructor
  · rintro h u v rfl hu
    obtain ⟨m, hm, _⟩ := run_complete hu v c
    exact h m hm
  · intro h m hm
    exact h _ _ (mem_run_sound hm).1 (mem_run_sound hm).2

theorem run_plus_eq_nil {g : Bool} {p : α → Bool} (h : Stops p s) : run (plus g p) s c = [] := by
  refine run_eq_nil_iff.mpr fun u v hs hu => ?_
  obtain ⟨hne, hall⟩ := lang_plus.mp hu
  obtain ⟨a, u, rfl⟩ := List.exists_cons_of_ne_nil hne
  have ha : p a = false := h a (by rw [hs]; rfl)
  exact absurd (hall a (List.mem_cons_self ..)) (by simp [ha])

/-- A sequence has no way when its second part has none behind any way of the first. -/
theorem run_seq_eq_nil (h : ∀ m ∈ run r s c, run t m.rest m.caps = []) :
    run (.seq r t) s c = [] := by
  rw [run, List.flatMap_eq_nil_iff]
  intro m hm
  rw [h m hm, List.map_nil]

theorem run_group_eq_nil {n : Nat} (h : run r s c = []) : run (.group n r) s c = [] := by
  rw [run, h, List.map_nil]

theorem run_alts_eq_nil {l : List (Regex α)} (h : ∀ q ∈ l, run q s c = []) :
    run (alts l) s c = [] := by
  induction l with
  | nil => cases s <;> rfl
  | cons q l ih =>
      rw [alts, run, h q (List.mem_cons_self ..), List.nil_append]
      exact ih fun q hq => h q (List.mem_cons_of_mem _ hq)

/-! ## The first way -/

/-- The first way a pattern matches a prefix. -/
def First (r : Regex α) (s : List α) (c : Captures α) (m : Match α) : Prop :=
  (run r s c).head? = some m

theorem first_iff : First r s c m ↔ ∃ more, run r s c = m :: more := by
  rw [First, List.head?_eq_some_iff]

theorem First.ne_nil (h : First r s c m) : run r s c ≠ [] := by
  obtain ⟨more, hm⟩ := first_iff.mp h
  rw [hm]
  exact List.cons_ne_nil _ _

theorem first_empty : First .empty s c ⟨[], s, c⟩ := rfl

theorem first_one {p : α → Bool} {a : α} (ha : p a = true) :
    First (.one p) (a :: s) c ⟨[a], s, c⟩ := by
  rw [First, run, if_pos ha]
  rfl

theorem first_seq (hr : First r s c m) (ht : First t m.rest m.caps k) :
    First (.seq r t) s c ⟨m.taken ++ k.taken, k.rest, k.caps⟩ := by
  obtain ⟨ms, hm⟩ := first_iff.mp hr
  obtain ⟨ks, hk⟩ := first_iff.mp ht
  rw [First, run, hm, List.flatMap_cons, hk]
  rfl

/-- Ways of the first part behind which the second part has none are passed over. -/
theorem first_seq_skip (before more : List (Match α)) (hr : run r s c = before ++ m :: more)
    (hb : ∀ x ∈ before, run t x.rest x.caps = []) (ht : First t m.rest m.caps k) :
    First (.seq r t) s c ⟨m.taken ++ k.taken, k.rest, k.caps⟩ := by
  obtain ⟨ks, hk⟩ := first_iff.mp ht
  have hskip : before.flatMap (fun m => (run t m.rest m.caps).map fun k =>
      (⟨m.taken ++ k.taken, k.rest, k.caps⟩ : Match α)) = [] := by
    rw [List.flatMap_eq_nil_iff]
    intro x hx
    rw [hb x hx, List.map_nil]
  rw [First, run, hr, List.flatMap_append, hskip, List.flatMap_cons, hk]
  rfl

theorem first_alt_left (hr : First r s c m) : First (.alt r t) s c m := by
  obtain ⟨ms, hm⟩ := first_iff.mp hr
  rw [First, run, hm]
  rfl

theorem first_alt_right (hr : run r s c = []) (ht : First t s c m) : First (.alt r t) s c m := by
  rw [First, run, hr]
  exact ht

/-- The alternatives in front of the first one that matches are passed over. -/
theorem first_alts (before after : List (Regex α)) (hb : ∀ q ∈ before, run q s c = [])
    (hr : First r s c m) : First (alts (before ++ r :: after)) s c m := by
  induction before with
  | nil => exact first_alt_left hr
  | cons q before ih =>
      exact first_alt_right (hb q (List.mem_cons_self ..))
        (ih fun q hq => hb q (List.mem_cons_of_mem _ hq))

theorem first_opt (hr : First r s c m) : First (opt r) s c m := first_alt_left hr

theorem first_opt_none (hr : run r s c = []) : First (opt r) s c ⟨[], s, c⟩ :=
  first_alt_right hr first_empty

theorem first_group {n : Nat} (h : First r s c m) :
    First (.group n r) s c ⟨m.taken, m.rest, m.caps.set n m.taken⟩ := by
  obtain ⟨ms, hm⟩ := first_iff.mp h
  rw [First, run, hm]
  rfl

theorem first_str [DecidableEq α] (l : List α) : First (str l) (l ++ s) c ⟨l, s, c⟩ := by
  induction l with
  | nil => rfl
  | cons a l ih =>
      have ha : First (.one fun b => decide (b = a)) (a :: (l ++ s)) c ⟨[a], l ++ s, c⟩ :=
        first_one (decide_eq_true rfl)
      exact first_seq ha ih

/-! ## Repetitions -/

theorem head?_longest {p : α → Bool} {u : List α} (hu : ∀ a ∈ u, p a = true) (hs : Stops p s) :
    (longest p (u ++ s)).head? = some (u, s) := by
  obtain ⟨more, hm⟩ := longest_append s hu
  have hstop : longest p s = [([], s)] := by
    cases s with
    | nil => rfl
    | cons a s => rw [longest, if_neg (by simp [stops_cons.mp hs])]
  rw [hm, hstop]
  simp

/-- A greedy repetition takes the whole run. -/
theorem first_many {p : α → Bool} {u : List α} (hu : ∀ a ∈ u, p a = true) (hs : Stops p s) :
    First (.many true p) (u ++ s) c ⟨u, s, c⟩ := by
  rw [First, run, if_pos rfl, List.head?_map, head?_longest hu hs]
  rfl

/-- A lazy repetition takes nothing. -/
theorem first_lazy {p : α → Bool} : First (.many false p) s c ⟨[], s, c⟩ := by
  have hlast : (longest p s).getLast? = some ([], s) := by
    cases s with
    | nil => rfl
    | cons a s =>
        rw [longest]
        split
        · exact List.getLast?_concat
        · rfl
  rw [First, run, if_neg Bool.false_ne_true, List.head?_map, List.head?_reverse, hlast]
  rfl

theorem first_plus {p : α → Bool} {u : List α} (hne : u ≠ []) (hu : ∀ a ∈ u, p a = true)
    (hs : Stops p s) : First (plus true p) (u ++ s) c ⟨u, s, c⟩ := by
  obtain ⟨a, u, rfl⟩ := List.exists_cons_of_ne_nil hne
  have ha : First (.one p) (a :: (u ++ s)) c ⟨[a], u ++ s, c⟩ :=
    first_one (hu a (List.mem_cons_self ..))
  exact first_seq ha (first_many (fun b hb => hu b (List.mem_cons_of_mem _ hb)) hs)

/-- The splits of a run end with the one that takes nothing, and the ones before it leave less. -/
theorem longest_leaves {p : α → Bool} {z : List α} (hz : ∀ a ∈ z, p a = true) (hs : Stops p s) :
    ∃ before, longest p (z ++ s) = before ++ [([], z ++ s)] ∧
      ∀ x ∈ before, ∃ y, x.2 = y ++ s ∧ y.length < z.length := by
  induction z with
  | nil =>
      refine ⟨[], ?_, by simp⟩
      cases s with
      | nil => rfl
      | cons a s => rw [List.nil_append, longest, if_neg (by simp [stops_cons.mp hs])]; rfl
  | cons a z ih =>
      obtain ⟨before, hb, hleft⟩ := ih fun b hb => hz b (List.mem_cons_of_mem _ hb)
      refine ⟨(before.map fun x => (a :: x.1, x.2)) ++ [([a], z ++ s)], ?_, ?_⟩
      · rw [List.cons_append, longest, if_pos (hz a (List.mem_cons_self ..)), hb]
        simp
      · intro x hx
        rcases List.mem_append.mp hx with hx | hx
        · obtain ⟨x', hx', rfl⟩ := List.mem_map.mp hx
          obtain ⟨y, hy, hlt⟩ := hleft x' hx'
          exact ⟨y, hy, Nat.lt_succ_of_lt hlt⟩
        · rw [List.mem_singleton.mp hx]
          exact ⟨z, rfl, Nat.lt_succ_self _⟩

/-- A run leaves to what follows it the shortest end of the run that what follows can take. -/
theorem first_many_leave {p : α → Bool} {x z : List α} (hx : ∀ a ∈ x, p a = true)
    (hz : ∀ a ∈ z, p a = true) (hs : Stops p s)
    (hless : ∀ y, y.length < z.length → run t (y ++ s) c = [])
    (ht : First t (z ++ s) c k) :
    First (.seq (.many true p) t) (x ++ (z ++ s)) c ⟨x ++ k.taken, k.rest, k.caps⟩ := by
  obtain ⟨more, hmore⟩ := longest_append (z ++ s) hx
  obtain ⟨before, hb, hleft⟩ := longest_leaves hz hs
  refine first_seq_skip (m := ⟨x, z ++ s, c⟩) (before.map fun y => ⟨x ++ y.1, y.2, c⟩)
    (more.map fun y => ⟨y.1, y.2, c⟩) ?_ ?_ ht
  · rw [run, if_pos rfl, hmore, hb]
    simp
  · intro y hy
    obtain ⟨y', hy', rfl⟩ := List.mem_map.mp hy
    obtain ⟨w, hw, hlt⟩ := hleft y' hy'
    show run t y'.2 c = []
    rw [hw]
    exact hless w hlt

/-- A run takes what it can, but leaves something to what follows it. -/
theorem exists_first_many {p : α → Bool} {u : List α} (hne : u ≠ []) (hs : Stops p s)
    (ht : run t s c = []) :
    ∃ x d, u = x ++ d ∧ d ≠ [] ∧ (∀ a ∈ x, p a = true) ∧ ∀ k, First t (d ++ s) c k →
      First (.seq (.many true p) t) (u ++ s) c ⟨x ++ k.taken, k.rest, k.caps⟩ := by
  have hu' : u.takeWhile p ++ u.dropWhile p = u := List.takeWhile_append_dropWhile
  have hx : ∀ a ∈ u.takeWhile p, p a = true := List.all_eq_true.mp List.all_takeWhile
  cases hd : u.dropWhile p with
  | cons a d =>
      rw [hd] at hu'
      have ha : p a = false := stops_cons.mp (hd ▸ stops_dropWhile p u)
      refine ⟨u.takeWhile p, a :: d, hu'.symm, List.cons_ne_nil _ _, hx, fun k hk => ?_⟩
      have hm : First (.many true p) (u.takeWhile p ++ (a :: d ++ s)) c
          ⟨u.takeWhile p, a :: d ++ s, c⟩ := first_many hx (stops_cons.mpr ha)
      rw [← List.append_assoc, hu'] at hm
      exact first_seq hm hk
  | nil =>
      have hp : ∀ a ∈ u, p a = true := by
        rw [hd, List.append_nil] at hu'
        exact hu' ▸ hx
      have hlast : u.dropLast ++ [u.getLast hne] = u := List.dropLast_append_getLast hne
      refine ⟨u.dropLast, [u.getLast hne], hlast.symm, List.cons_ne_nil _ _,
        fun a ha => hp a ((List.dropLast_subset u) ha), fun k hk => ?_⟩
      have hm := first_many_leave (x := u.dropLast) (z := [u.getLast hne])
        (fun a ha => hp a ((List.dropLast_subset u) ha))
        (by simpa using hp _ (List.getLast_mem hne)) hs
        (fun y hy => by rw [List.length_eq_zero_iff.mp (Nat.lt_one_iff.mp hy)]; exact ht) hk
      rwa [← List.append_assoc, hlast] at hm

theorem run_seq_assoc {q : Regex α} :
    run (.seq (.seq r t) q) s c = run (.seq r (.seq t q)) s c := by
  simp only [run, List.flatMap_assoc, List.flatMap_map, List.map_flatMap, List.map_map,
    Function.comp_def, List.append_assoc]

theorem first_plus_leave {p : α → Bool} {x z : List α} (hne : x ≠ []) (hx : ∀ a ∈ x, p a = true)
    (hz : ∀ a ∈ z, p a = true) (hs : Stops p s)
    (hless : ∀ y, y.length < z.length → run t (y ++ s) c = [])
    (ht : First t (z ++ s) c k) :
    First (.seq (plus true p) t) (x ++ (z ++ s)) c ⟨x ++ k.taken, k.rest, k.caps⟩ := by
  obtain ⟨a, x, rfl⟩ := List.exists_cons_of_ne_nil hne
  have ha : First (.one p) (a :: (x ++ (z ++ s))) c ⟨[a], x ++ (z ++ s), c⟩ :=
    first_one (hx a (List.mem_cons_self ..))
  rw [First, plus, run_seq_assoc]
  exact first_seq ha
    (first_many_leave (fun b hb => hx b (List.mem_cons_of_mem _ hb)) hz hs hless ht)

/-! ## Words -/

theorem plain_alts {l : List (Regex α)} (h : ∀ q ∈ l, Plain q) : Plain (alts l) := by
  induction l with
  | nil => trivial
  | cons q l ih =>
      exact ⟨h q (List.mem_cons_self ..), ih fun q hq => h q (List.mem_cons_of_mem _ hq)⟩

/-- An alternative of literals takes one of them, and records nothing. -/
theorem mem_run_words [DecidableEq α] {words : List (List α)}
    (h : m ∈ run (alts (words.map str)) s c) :
    m.taken ∈ words ∧ s = m.taken ++ m.rest ∧ m.caps = c := by
  obtain ⟨hs, hl⟩ := mem_run_sound h
  obtain ⟨q, hq, hl⟩ := lang_alts.mp hl
  obtain ⟨w, hw, rfl⟩ := List.mem_map.mp hq
  refine ⟨by rwa [lang_str.mp hl], hs, caps_of_plain (plain_alts fun q hq => ?_) h⟩
  obtain ⟨w, _, rfl⟩ := List.mem_map.mp hq
  exact plain_str w

/-- The second part decides between the ways of the first when it fits behind one of them only. -/
theorem first_seq_only (hm : m ∈ run r s c) (hk : First t m.rest m.caps k)
    (honly : ∀ x ∈ run r s c, run t x.rest x.caps ≠ [] → x = m) :
    First (.seq r t) s c ⟨m.taken ++ k.taken, k.rest, k.caps⟩ := by
  cases hfind : (run r s c).find? (fun x => !(run t x.rest x.caps).isEmpty) with
  | none =>
      rw [List.find?_eq_none] at hfind
      exact absurd (hfind m hm) (by simpa using hk.ne_nil)
  | some x =>
      obtain ⟨hx, before, after, hrun, hskip⟩ := List.find?_eq_some_iff_append.mp hfind
      obtain rfl := honly x (hrun ▸ by simp) (by simpa using hx)
      exact first_seq_skip before after hrun (fun y hy => by simpa using hskip y hy) hk

/-- Of some literals the one is taken behind which the pattern has a way. -/
theorem first_words [DecidableEq α] {words : List (List α)} {w : List α} (hw : w ∈ words)
    (hk : First t s c k)
    (honly : ∀ w' ∈ words, ∀ s', w ++ s = w' ++ s' → run t s' c ≠ [] → w' = w) :
    First (.seq (alts (words.map str)) t) (w ++ s) c ⟨w ++ k.taken, k.rest, k.caps⟩ := by
  have heq : ∀ x ∈ run (alts (words.map str)) (w ++ s) c, x.taken = w → x = ⟨w, s, c⟩ := by
    intro x hx htaken
    obtain ⟨-, hsplit, hcaps⟩ := mem_run_words hx
    obtain ⟨taken, rest, caps⟩ := x
    obtain rfl : taken = w := htaken
    obtain rfl : caps = c := hcaps
    rw [List.append_cancel_left hsplit]
  obtain ⟨m, hm, htaken, -⟩ := run_complete
    (lang_alts.mpr ⟨_, List.mem_map_of_mem hw, lang_str.mpr rfl⟩) s c
  obtain rfl := heq m hm htaken
  refine first_seq_only hm hk fun x hx hne => heq x hx ?_
  obtain ⟨hmem, hsplit, hcaps⟩ := mem_run_words hx
  rw [hcaps] at hne
  exact honly _ hmem _ hsplit hne

/-! ## Searching -/

theorem search_of_first (h : First r s Captures.none m) : search r s = some m := by
  cases s with
  | nil => exact h
  | cons a s =>
      obtain ⟨ms, hm⟩ := first_iff.mp h
      rw [search, hm]

theorem search_of_nil {a : α} (h : run r (a :: s) Captures.none = []) :
    search r (a :: s) = search r s := by
  rw [search, h]

end Regex
