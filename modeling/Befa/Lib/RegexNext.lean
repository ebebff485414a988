import Befa.Lib.RegexFirst

/-!
# Patterns without backtracking

`Regex.next` is what an engine reports at a position.  An engine goes back into a repetition when
what follows it fails.  It does so in vain when what follows never starts inside of the class
(`Avoids`), as a shorter run leaves an element of the class.

So such patterns are read from the left to the right, a whole run at a time.  There is one rule for
each constructor.
-/

/-- A run of at least one element, and what follows it. -/
def takeRun {α : Type} (p : α → Bool) (s : List α) : Option (List α × List α) :=
  if (s.takeWhile p).isEmpty then none else some (s.takeWhile p, s.dropWhile p)

theorem takeRun_eq_some {α : Type} {p : α → Bool} {s u v : List α} :
    takeRun p s = some (u, v) ↔ s = u ++ v ∧ u ≠ [] ∧ (∀ a ∈ u, p a = true) ∧ Stops p v := by
  rw [takeRun]
  constructor
  · split
    next h => exact fun h' => absurd h' (Option.some_ne_none _).symm
    next h =>
      intro h'
      obtain ⟨rfl, rfl⟩ := Prod.mk.inj (Option.some.inj h')
      exact ⟨List.takeWhile_append_dropWhile.symm, by simpa using h,
        List.all_eq_true.mp List.all_takeWhile, stops_dropWhile p s⟩
  · rintro ⟨hs, hne, hu, hv⟩
    obtain ⟨h₁, h₂⟩ := append_stops_inj hu (List.all_eq_true.mp List.all_takeWhile) hv
      (stops_dropWhile p s) (hs.symm.trans List.takeWhile_append_dropWhile.symm)
    rw [← h₁, ← h₂, if_neg (by simpa using hne)]

theorem takeRun_eq_none {α : Type} {p : α → Bool} {s : List α} :
    takeRun p s = none ↔ Stops p s := by
  cases s with
  | nil => exact iff_of_true rfl stops_nil
  | cons a s => cases h : p a <;> simp [takeRun, h]

theorem eq_append_of_dropPrefix? {α : Type} [DecidableEq α] {l s t : List α}
    (h : s.dropPrefix? l = some t) : s = l ++ t := by
  induction l generalizing s with
  | nil =>
      rw [List.dropPrefix?] at h
      exact Option.some.inj h
  | cons a l ih =>
      cases s with
      | nil => cases h
      | cons b s =>
          rw [List.dropPrefix?] at h
          split at h
          next hab => rw [eq_of_beq hab, ih h, List.cons_append]
          next => cases h

/-! ## What stands behind -/

/-- A run that stops in the list or at its end is that of the list alone. -/
theorem takeWhile_dropWhile_append {α : Type} {p : α → Bool} {s t : List α}
    (h : Stops p t ∨ ∃ a ∈ s, p a = false) :
    (s ++ t).takeWhile p = s.takeWhile p ∧ (s ++ t).dropWhile p = s.dropWhile p ++ t := by
  induction s with
  | nil =>
      have ht : Stops p t := h.resolve_right (by simp)
      cases t with
      | nil => exact ⟨rfl, rfl⟩
      | cons a t => simp [stops_cons.mp ht]
  | cons a s ih =>
      cases ha : p a with
      | false => simp [ha]
      | true =>
          have hs : Stops p t ∨ ∃ a ∈ s, p a = false := by simpa [ha] using h
          simp [ha, ih hs]

theorem takeRun_append {α : Type} {p : α → Bool} {s t : List α}
    (h : Stops p t ∨ ∃ a ∈ s, p a = false) :
    takeRun p (s ++ t) = (takeRun p s).map fun x => (x.1, x.2 ++ t) := by
  obtain ⟨htake, hdrop⟩ := takeWhile_dropWhile_append h
  rw [takeRun, takeRun, htake, hdrop]
  split <;> rfl

/-- A literal does not reach over an element that it does not hold. -/
theorem dropPrefix?_append_cons {α : Type} [DecidableEq α] {l s t : List α} {c : α} (h : c ∉ l) :
    (s ++ c :: t).dropPrefix? l = (s.dropPrefix? l).map (· ++ c :: t) := by
  induction l generalizing s with
  | nil => rw [List.dropPrefix?, List.dropPrefix?, Option.map_some]
  | cons a l ih =>
      have hca : c ≠ a := List.ne_of_not_mem_cons h
      have hl : c ∉ l := List.not_mem_of_not_mem_cons h
      cases s with
      | nil =>
          have hne : ¬(c == a) = true := by simpa using hca
          rw [List.nil_append, List.dropPrefix?, List.dropPrefix?, if_neg hne, Option.map_none]
      | cons b s =>
          rw [List.cons_append, List.dropPrefix?, List.dropPrefix?]
          split
          next => exact ih hl
          next => rfl

namespace Regex

variable {α : Type} {r t q : Regex α} {s : List α} {c : Captures α} {m : Match α}

/-- What an engine reports at a position. -/
def next (r : Regex α) (s : List α) (c : Captures α) : Option (Match α) := (run r s c).head?

theorem next_eq_none : next r s c = none ↔ run r s c = [] := List.head?_eq_none_iff

/-- A match and one behind it. -/
def Match.append (m k : Match α) : Match α := ⟨m.taken ++ k.taken, k.rest, k.caps⟩

/-! ## Alternatives and groups -/

theorem next_alt : next (.alt r t) s c = (next r s c).or (next t s c) := List.head?_append

theorem next_group {n : Nat} :
    next (.group n r) s c = (next r s c).map fun m => ⟨m.taken, m.rest, m.caps.set n m.taken⟩ :=
  List.head?_map

/-- What may be there or not is there, or what follows comes at once. -/
theorem next_opt_seq : next (.seq (opt r) t) s c = (next (.seq r t) s c).or (next t s c) := by
  have hempty : run (.seq .empty t) s c = run t s c := by
    rw [run, run, List.flatMap_singleton]
    exact List.map_id _
  rw [next, opt, run, run, List.flatMap_append, List.head?_append, ← run, ← run, hempty]
  rfl

/-! ## Sequences -/

/-- The first part decides when what follows has no way behind its other ways. -/
theorem next_seq {more : List (Match α)} (hr : run r s c = m :: more)
    (hmore : ∀ x ∈ more, run t x.rest x.caps = []) :
    next (.seq r t) s c = (next t m.rest m.caps).map m.append := by
  have hrest : more.flatMap (fun x => (run t x.rest x.caps).map fun k =>
      (⟨x.taken ++ k.taken, k.rest, k.caps⟩ : Match α)) = [] := by
    rw [List.flatMap_eq_nil_iff]
    intro x hx
    rw [hmore x hx, List.map_nil]
  rw [next, run, hr, List.flatMap_cons, hrest, List.append_nil]
  exact List.head?_map

theorem next_seq_assoc : next (.seq (.seq r t) q) s c = next (.seq r (.seq t q)) s c :=
  congrArg List.head? run_seq_assoc

/-- A literal is there in one way, if at all. -/
theorem run_str [DecidableEq α] (l : List α) :
    run (str l) s c = ((s.dropPrefix? l).map fun u => ⟨l, u, c⟩).toList := by
  induction l generalizing s with
  | nil => simp [str, run]
  | cons a l ih =>
      cases s with
      | nil => rfl
      | cons b s =>
          rw [str, run, run, List.dropPrefix?]
          by_cases h : b = a
          · subst h
            rw [if_pos (decide_eq_true rfl), if_pos (beq_self_eq_true b), List.flatMap_singleton, ih]
            cases s.dropPrefix? l <;> rfl
          · rw [if_neg (by simpa using h), if_neg (by simpa using h)]
            rfl

theorem next_str [DecidableEq α] (l : List α) :
    next (str l) s c = (s.dropPrefix? l).map fun u => ⟨l, u, c⟩ := by
  rw [next, run_str, Option.head?_toList]

theorem next_str_seq [DecidableEq α] (l : List α) : next (.seq (str l) t) s c =
    (s.dropPrefix? l).bind fun u => (next t u c).map (Match.append ⟨l, u, c⟩) := by
  cases h : s.dropPrefix? l with
  | none =>
      rw [next, run, run_str, h]
      rfl
  | some u =>
      have hrun : run (str l) s c = [⟨l, u, c⟩] := by rw [run_str, h]; rfl
      exact next_seq hrun fun x hx => absurd hx List.not_mem_nil

/-! ## Repetitions -/

/-- The pattern has no way that starts with an element of the class. -/
def Avoids (t : Regex α) (p : α → Bool) : Prop := ∀ a s c, p a = true → run t (a :: s) c = []

theorem Avoids.str_seq [DecidableEq α] {p : α → Bool} {a : α} (h : p a = false) (l : List α) :
    Avoids (.seq (str (a :: l)) t) p := by
  intro b s c hb
  have hne : ¬(b == a) = true := by
    rw [beq_iff_eq]
    rintro rfl
    rw [h] at hb
    cases hb
  rw [← next_eq_none, next_str_seq, List.dropPrefix?, if_neg hne]
  rfl

/-- The longest prefix is the run.  The others leave an element of the class. -/
theorem longest_eq (p : α → Bool) (s : List α) :
    ∃ more, longest p s = (s.takeWhile p, s.dropWhile p) :: more ∧
      ∀ x ∈ more, ∃ a u, x.2 = a :: u ∧ p a = true := by
  induction s with
  | nil => exact ⟨[], rfl, by simp⟩
  | cons a s ih =>
      obtain ⟨more, hmore, hleft⟩ := ih
      rw [longest, List.takeWhile_cons, List.dropWhile_cons]
      split
      next h =>
        refine ⟨more.map (fun x => (a :: x.1, x.2)) ++ [([], a :: s)], by rw [hmore]; rfl, ?_⟩
        intro x hx
        rcases List.mem_append.mp hx with hx | hx
        · obtain ⟨x', hx', rfl⟩ := List.mem_map.mp hx
          exact hleft x' hx'
        · exact ⟨a, s, by rw [List.mem_singleton.mp hx], h⟩
      next h => exact ⟨[], rfl, by simp⟩

theorem run_many (p : α → Bool) (s : List α) (c : Captures α) :
    ∃ more, run (.many true p) s c = ⟨s.takeWhile p, s.dropWhile p, c⟩ :: more ∧
      ∀ x ∈ more, ∃ a u, x.rest = a :: u ∧ p a = true := by
  obtain ⟨more, hmore, hleft⟩ := longest_eq p s
  refine ⟨more.map fun x => ⟨x.1, x.2, c⟩, by rw [run, if_pos rfl, hmore]; rfl, fun x hx => ?_⟩
  obtain ⟨x', hx', rfl⟩ := List.mem_map.mp hx
  exact hleft x' hx'

theorem run_plus {p : α → Bool} {u v : List α} (h : takeRun p s = some (u, v)) (c : Captures α) :
    ∃ more, run (plus true p) s c = ⟨u, v, c⟩ :: more ∧
      ∀ x ∈ more, ∃ a w, x.rest = a :: w ∧ p a = true := by
  rw [takeRun] at h
  split at h
  next => cases h
  next hne =>
    obtain ⟨rfl, rfl⟩ := Prod.mk.inj (Option.some.inj h)
    cases s with
    | nil => exact absurd rfl hne
    | cons a s =>
        have ha : p a = true := by
          by_contra hfalse
          rw [List.takeWhile_cons, if_neg hfalse] at hne
          exact hne rfl
        obtain ⟨more, hmore, hleft⟩ := run_many p s c
        refine ⟨more.map fun x => ⟨a :: x.taken, x.rest, x.caps⟩, ?_, fun x hx => ?_⟩
        · rw [plus, run, run, if_pos ha, List.flatMap_singleton, hmore, List.takeWhile_cons,
            if_pos ha, List.dropWhile_cons, if_pos ha]
          rfl
        · obtain ⟨x', hx', rfl⟩ := List.mem_map.mp hx
          exact hleft x' hx'

section Avoids

variable {p : α → Bool}

/-- What follows a run decides, as the other ways leave an element of the class. -/
theorem next_seq_of_avoids {u v : List α} {d : Captures α} {more : List (Match α)}
    (hr : run r s c = ⟨u, v, d⟩ :: more)
    (hleft : ∀ x ∈ more, ∃ a w, x.rest = a :: w ∧ p a = true) (h : Avoids t p) :
    next (.seq r t) s c = (next t v d).map (Match.append ⟨u, v, d⟩) := by
  refine next_seq hr fun x hx => ?_
  obtain ⟨a, w, hrest, ha⟩ := hleft x hx
  rw [hrest]
  exact h a w _ ha

theorem next_many_seq (h : Avoids t p) : next (.seq (.many true p) t) s c =
    (next t (s.dropWhile p) c).map (Match.append ⟨s.takeWhile p, s.dropWhile p, c⟩) := by
  obtain ⟨more, hmore, hleft⟩ := run_many p s c
  exact next_seq_of_avoids hmore hleft h

theorem next_plus :
    next (plus true p) s c = (takeRun p s).map fun x => ⟨x.1, x.2, c⟩ := by
  cases h : takeRun p s with
  | none => exact next_eq_none.mpr (run_plus_eq_nil (takeRun_eq_none.mp h))
  | some x =>
      obtain ⟨more, hmore, -⟩ := run_plus h c
      exact congrArg List.head? hmore

/-- A sequence has no first way when its first part has none. -/
theorem next_seq_of_nil (h : run r s c = []) : next (.seq r t) s c = none :=
  next_eq_none.mpr (run_seq_eq_nil fun m hm => by rw [h] at hm; cases hm)

theorem next_plus_seq (h : Avoids t p) : next (.seq (plus true p) t) s c =
    (takeRun p s).bind fun x => (next t x.2 c).map (Match.append ⟨x.1, x.2, c⟩) := by
  cases hrun : takeRun p s with
  | none => exact next_seq_of_nil (run_plus_eq_nil (takeRun_eq_none.mp hrun))
  | some x =>
      obtain ⟨more, hmore, hleft⟩ := run_plus hrun c
      exact next_seq_of_avoids hmore hleft h

/-- The same with the run recorded. -/
theorem next_group_plus_seq {n : Nat} (h : Avoids t p) :
    next (.seq (.group n (plus true p)) t) s c = (takeRun p s).bind fun x =>
      (next t x.2 (c.set n x.1)).map (Match.append ⟨x.1, x.2, c.set n x.1⟩) := by
  cases hrun : takeRun p s with
  | none => exact next_seq_of_nil (run_group_eq_nil (run_plus_eq_nil (takeRun_eq_none.mp hrun)))
  | some x =>
      obtain ⟨more, hmore, hleft⟩ := run_plus hrun c
      refine next_seq_of_avoids (by rw [run, hmore]; rfl) (fun y hy => ?_) h
      obtain ⟨y', hy', rfl⟩ := List.mem_map.mp hy
      exact hleft y' hy'

end Avoids

/-! ## A class in front of a larger one -/

section Subclass

variable {p q : α → Bool}

theorem stops_subclass (hpq : ∀ a, p a = true → q a = true) (h : Stops q s) : Stops p s :=
  fun a ha => Bool.eq_false_iff.mpr fun hp => Bool.eq_false_iff.mp (h a ha) (hpq a hp)

theorem run_many_seq_eq_nil {g : Bool} (hpq : ∀ a, p a = true → q a = true)
    (hr : ∀ w, Lang r w → w ≠ [] ∧ ∀ a ∈ w, q a = true) (hs : Stops q s) :
    run (.seq (.many g p) r) s c = [] := by
  refine run_eq_nil_iff.mpr ?_
  rintro u v rfl ⟨x, d, rfl, hx, hd⟩
  obtain ⟨hne, hall⟩ := hr d hd
  obtain ⟨a, w, hw⟩ := List.exists_cons_of_ne_nil (List.append_ne_nil_of_right_ne_nil x hne)
  have ha : q a = true := by
    have hmem : a ∈ x ++ d := hw ▸ List.mem_cons_self ..
    exact (List.mem_append.mp hmem).elim (fun h => hpq a (hx a h)) (hall a)
  exact Bool.eq_false_iff.mp (hs a (by rw [hw]; rfl)) ha

/-- A greedy repetition in front of a run of a larger class leaves the match as it is. -/
theorem next_many_plus (hpq : ∀ a, p a = true → q a = true) :
    next (.seq (.many true p) (plus true q)) s c = next (plus true q) s c := by
  rw [next_plus]
  cases h : takeRun q s with
  | none =>
      exact next_eq_none.mpr
        (run_many_seq_eq_nil hpq (fun _ => lang_plus.mp) (takeRun_eq_none.mp h))
  | some x =>
      obtain ⟨rfl, hne, hall, hstops⟩ := takeRun_eq_some.mp h
      obtain ⟨y, d, hyd, hd, -, hfirst⟩ := exists_first_many (c := c) (t := plus true q) hne
        (stops_subclass hpq hstops) (run_plus_eq_nil hstops)
      have hdq : ∀ a ∈ d, q a = true := fun a ha => hall a (by rw [hyd]; simp [ha])
      exact (hfirst _ (first_plus hd hdq hstops)).trans (by rw [Option.map_some, hyd])

/-- A lazy one takes nothing. -/
theorem next_lazy_plus {n : Nat} (hpq : ∀ a, p a = true → q a = true) :
    next (.seq (.many false p) (.group n (plus true q))) s c = next (.group n (plus true q)) s c := by
  rw [next_group, next_plus]
  cases h : takeRun q s with
  | none =>
      exact next_eq_none.mpr
        (run_many_seq_eq_nil hpq (fun _ => lang_plus.mp) (takeRun_eq_none.mp h))
  | some x =>
      obtain ⟨rfl, hne, hall, hstops⟩ := takeRun_eq_some.mp h
      exact first_seq first_lazy (first_group (first_plus hne hall hstops))

end Subclass

end Regex
