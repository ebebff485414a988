import Mathlib.Data.List.Basic

/-!
# Regular expressions with backtracking

The engines of Perl and of ECMAScript try the ways a pattern can match in a fixed order and
report the first.  An alternative comes before the ones on its right, a greedy repetition tries
the longest prefix first and a lazy one the shortest.  `Regex.run` lists the ways in that order,
so the first of them that fits is what an engine reports.

Repetitions are of a class of single elements.  So every way is found by structural recursion,
and no rule for empty iterations is needed.

A group records what it took under its number.  The alternatives of a branch reset are groups of
one number.  A group that took no part in a match holds the empty list.

*Language.*  `Regex.Lang` says which lists a pattern describes.  `mem_run_sound` and
`run_complete` say that the ways of `run` are the prefixes in the language, so a full match
exists exactly for the lists of the language (`fullMatch_isSome`).

*Captures.*  `binary` is a greedy operand, an operator and a greedy operand.  It splits at the
last operator that leaves two operands (`fullMatch_binary_last`), and both operands are shorter
than the text (`fullMatch_binary_spec`).
-/

/-- A pattern over an alphabet. -/
inductive Regex (α : Type) where
  /-- The empty list. -/
  | empty
  /-- One element of a class. -/
  | one (p : α → Bool)
  /-- Two patterns in sequence. -/
  | seq (r t : Regex α)
  /-- The left pattern, or else the right one. -/
  | alt (r t : Regex α)
  /-- Any number of elements of a class, the longest or the shortest prefix first. -/
  | many (greedy : Bool) (p : α → Bool)
  /-- A pattern whose match is recorded under a number. -/
  | group (n : Nat) (r : Regex α)

namespace Regex

variable {α : Type}

/-! ## Derived patterns -/

/-- A literal. -/
def str [DecidableEq α] : List α → Regex α
  | [] => .empty
  | a :: s => .seq (.one (fun b => decide (b = a))) (str s)

/-- At least one element of a class. -/
def plus (greedy : Bool) (p : α → Bool) : Regex α := .seq (.one p) (.many greedy p)

/-- A pattern or nothing, the pattern first. -/
def opt (r : Regex α) : Regex α := .alt r .empty

/-- The first of the patterns that matches. -/
def alts : List (Regex α) → Regex α
  | [] => .one fun _ => false
  | r :: rs => .alt r (alts rs)

/-- A greedy operand, an operator and a greedy operand, as groups 1, 2 and 3. -/
def binary (dot op : α → Bool) : Regex α :=
  .seq (.group 1 (plus true dot)) (.seq (.group 2 (.one op)) (.group 3 (plus true dot)))

/-! ## Matching -/

/-- What the groups took. -/
abbrev Captures (α : Type) := Nat → List α

/-- No group took part. -/
def Captures.none : Captures α := fun _ => []

/-- Record what a group took. -/
def Captures.set (c : Captures α) (n : Nat) (w : List α) : Captures α :=
  fun k => if k = n then w else c k

@[simp] theorem Captures.set_same (c : Captures α) (n : Nat) (w : List α) : c.set n w n = w := by
  simp [Captures.set]

/-- One way a pattern matches a prefix. -/
structure Match (α : Type) where
  taken : List α
  rest : List α
  caps : Captures α

/-- The splits of a list after a prefix of a class, the longest prefix first. -/
def longest (p : α → Bool) : List α → List (List α × List α)
  | [] => [([], [])]
  | a :: s =>
      if p a then (longest p s).map (fun x => (a :: x.1, x.2)) ++ [([], a :: s)]
      else [([], a :: s)]

/-- The ways a pattern matches a prefix of a list, in the order an engine tries them. -/
def run : Regex α → List α → Captures α → List (Match α)
  | .empty, s, c => [⟨[], s, c⟩]
  | .one _, [], _ => []
  | .one p, a :: s, c => if p a then [⟨[a], s, c⟩] else []
  | .seq r t, s, c =>
      (run r s c).flatMap fun m =>
        (run t m.rest m.caps).map fun k => ⟨m.taken ++ k.taken, k.rest, k.caps⟩
  | .alt r t, s, c => run r s c ++ run t s c
  | .many greedy p, s, c =>
      (if greedy then longest p s else (longest p s).reverse).map fun x => ⟨x.1, x.2, c⟩
  | .group n r, s, c => (run r s c).map fun m => ⟨m.taken, m.rest, m.caps.set n m.taken⟩

/-- The groups of the first way that matches the whole list. -/
def fullMatch (r : Regex α) (s : List α) : Option (Captures α) :=
  ((run r s Captures.none).find? (·.rest.isEmpty)).map (·.caps)

/-- The first way at the leftmost position that has one. -/
def search (r : Regex α) : List α → Option (Match α)
  | [] => (run r [] Captures.none).head?
  | a :: s =>
      match run r (a :: s) Captures.none with
      | m :: _ => some m
      | [] => search r s

/-! ## The language of a pattern -/

/-- The lists a pattern describes. -/
def Lang : Regex α → List α → Prop
  | .empty, w => w = []
  | .one p, w => ∃ a, w = [a] ∧ p a = true
  | .seq r t, w => ∃ u v, w = u ++ v ∧ Lang r u ∧ Lang t v
  | .alt r t, w => Lang r w ∨ Lang t w
  | .many _ p, w => ∀ a ∈ w, p a = true
  | .group _ r, w => Lang r w

theorem lang_str [DecidableEq α] {l w : List α} : Lang (str l) w ↔ w = l := by
  induction l generalizing w with
  | nil => simp [str, Lang]
  | cons a l ih =>
      simp only [str, Lang, decide_eq_true_eq]
      constructor
      · intro ⟨u, v, hw, ⟨b, hu, hb⟩, hv⟩
        rw [hw, hu, hb, ih.mp hv, List.singleton_append]
      · intro hw
        exact ⟨[a], l, hw, ⟨a, rfl, rfl⟩, ih.mpr rfl⟩

theorem lang_plus {g : Bool} {p : α → Bool} {w : List α} :
    Lang (plus g p) w ↔ w ≠ [] ∧ ∀ a ∈ w, p a = true := by
  simp only [plus, Lang]
  constructor
  · intro ⟨u, v, hw, ⟨a, hu, ha⟩, hv⟩
    subst hw hu
    exact ⟨by simp, by simpa [ha] using hv⟩
  · intro ⟨hne, hall⟩
    obtain ⟨a, s, rfl⟩ := List.exists_cons_of_ne_nil hne
    exact ⟨[a], s, rfl, ⟨a, rfl, hall a (by simp)⟩, fun b hb => hall b (by simp [hb])⟩

theorem lang_alts {w : List α} {l : List (Regex α)} : Lang (alts l) w ↔ ∃ r ∈ l, Lang r w := by
  induction l with
  | nil => simp [alts, Lang]
  | cons r l ih => simp [alts, Lang, ih]

theorem mem_longest {p : α → Bool} {s u v : List α} :
    (u, v) ∈ longest p s ↔ s = u ++ v ∧ ∀ a ∈ u, p a = true := by
  induction s generalizing u with
  | nil =>
      simp only [longest, List.mem_singleton, Prod.mk.injEq]
      constructor
      · intro ⟨hu, hv⟩
        subst hu hv
        simp
      · intro ⟨h, _⟩
        simpa using h.symm
  | cons a s ih =>
      have key : (u, v) ∈ longest p (a :: s) ↔
          (p a = true ∧ ∃ x, (x, v) ∈ longest p s ∧ u = a :: x) ∨ (u = [] ∧ v = a :: s) := by
        rw [longest]
        split
        next hp => simp [hp, eq_comm]
        next hp => simp [hp]
      rw [key]
      constructor
      · rintro (⟨hp, x, hx, rfl⟩ | ⟨rfl, rfl⟩)
        · obtain ⟨rfl, hall⟩ := ih.mp hx
          exact ⟨rfl, by simpa [hp] using hall⟩
        · simp
      · intro ⟨hs, hall⟩
        cases u with
        | nil => exact Or.inr ⟨rfl, by simpa using hs.symm⟩
        | cons b x =>
            injection hs with h1 h2
            subst h1
            exact Or.inl ⟨hall a (by simp), x,
              ih.mpr ⟨h2, fun c hc => hall c (by simp [hc])⟩, rfl⟩

theorem mem_run_many {g : Bool} {p : α → Bool} {s : List α} {c : Captures α} {m : Match α} :
    m ∈ run (.many g p) s c ↔ s = m.taken ++ m.rest ∧ (∀ a ∈ m.taken, p a = true) ∧ m.caps = c := by
  have hmem : m ∈ run (.many g p) s c ↔ (m.taken, m.rest) ∈ longest p s ∧ m.caps = c := by
    obtain ⟨u, v, d⟩ := m
    simp only [run, List.mem_map, Match.mk.injEq, Prod.exists]
    constructor
    · rintro ⟨x, y, hxy, rfl, rfl, rfl⟩
      refine ⟨?_, rfl⟩
      split at hxy <;> simpa using hxy
    · rintro ⟨huv, rfl⟩
      exact ⟨u, v, by split <;> simpa using huv, rfl, rfl, rfl⟩
  rw [hmem, mem_longest, and_assoc]

theorem mem_run_seq {r t : Regex α} {s : List α} {c : Captures α} {m : Match α} :
    m ∈ run (.seq r t) s c ↔ ∃ m₁ ∈ run r s c, ∃ m₂ ∈ run t m₁.rest m₁.caps,
      m = ⟨m₁.taken ++ m₂.taken, m₂.rest, m₂.caps⟩ := by
  simp [run, eq_comm]

theorem mem_run_group {n : Nat} {r : Regex α} {s : List α} {c : Captures α} {m : Match α} :
    m ∈ run (.group n r) s c ↔ ∃ m₁ ∈ run r s c, m = ⟨m₁.taken, m₁.rest, m₁.caps.set n m₁.taken⟩ := by
  simp [run, eq_comm]

/-- A way takes a prefix, and the prefix is in the language. -/
theorem mem_run_sound {r : Regex α} {s : List α} {c : Captures α} {m : Match α}
    (h : m ∈ run r s c) : s = m.taken ++ m.rest ∧ Lang r m.taken := by
  induction r generalizing s c m with
  | empty =>
      simp only [run, List.mem_singleton] at h
      subst h
      simp [Lang]
  | one p =>
      cases s with
      | nil => simp [run] at h
      | cons a s =>
          rw [run] at h
          split at h
          next hp =>
            rw [List.mem_singleton] at h
            subst h
            exact ⟨rfl, a, rfl, hp⟩
          next => cases h
  | seq r t ihr iht =>
      obtain ⟨m₁, h₁, m₂, h₂, rfl⟩ := mem_run_seq.mp h
      obtain ⟨e₁, l₁⟩ := ihr h₁
      obtain ⟨e₂, l₂⟩ := iht h₂
      exact ⟨by rw [e₁, e₂, List.append_assoc], m₁.taken, m₂.taken, rfl, l₁, l₂⟩
  | alt r t ihr iht =>
      rw [run, List.mem_append] at h
      cases h with
      | inl h => exact ⟨(ihr h).1, Or.inl (ihr h).2⟩
      | inr h => exact ⟨(iht h).1, Or.inr (iht h).2⟩
  | many g p =>
      obtain ⟨e, hall, _⟩ := mem_run_many.mp h
      exact ⟨e, hall⟩
  | group n r ih =>
      obtain ⟨m₁, h₁, rfl⟩ := mem_run_group.mp h
      exact ⟨(ih h₁).1, (ih h₁).2⟩

/-- Every prefix in the language is taken by some way. -/
theorem run_complete {r : Regex α} {w : List α} (h : Lang r w) (t : List α) (c : Captures α) :
    ∃ m ∈ run r (w ++ t) c, m.taken = w ∧ m.rest = t := by
  induction r generalizing w t c with
  | empty =>
      simp only [Lang] at h
      subst h
      exact ⟨⟨[], t, c⟩, by simp [run], rfl, rfl⟩
  | one p =>
      obtain ⟨a, rfl, hp⟩ := h
      exact ⟨⟨[a], t, c⟩, by simp [run, hp], rfl, rfl⟩
  | seq r q ihr ihq =>
      obtain ⟨u, v, rfl, hu, hv⟩ := h
      obtain ⟨m₁, h₁, ht₁, hr₁⟩ := ihr hu (v ++ t) c
      obtain ⟨m₂, h₂, ht₂, hr₂⟩ := ihq hv t m₁.caps
      refine ⟨⟨m₁.taken ++ m₂.taken, m₂.rest, m₂.caps⟩, ?_, by rw [ht₁, ht₂], hr₂⟩
      rw [List.append_assoc]
      exact mem_run_seq.mpr ⟨m₁, h₁, m₂, hr₁ ▸ h₂, rfl⟩
  | alt r q ihr ihq =>
      cases h with
      | inl h =>
          obtain ⟨m, hm, he⟩ := ihr h t c
          exact ⟨m, List.mem_append_left _ hm, he⟩
      | inr h =>
          obtain ⟨m, hm, he⟩ := ihq h t c
          exact ⟨m, List.mem_append_right _ hm, he⟩
  | many g p => exact ⟨⟨w, t, c⟩, mem_run_many.mpr ⟨rfl, h, rfl⟩, rfl, rfl⟩
  | group n r ih =>
      obtain ⟨m, hm, ht, hr⟩ := ih h t c
      exact ⟨_, mem_run_group.mpr ⟨m, hm, rfl⟩, ht, hr⟩

theorem fullMatch_eq_some {r : Regex α} {s : List α} {c : Captures α}
    (h : fullMatch r s = some c) : ∃ m ∈ run r s Captures.none, m.taken = s ∧ m.caps = c := by
  obtain ⟨m, hf, rfl⟩ := Option.map_eq_some_iff.mp h
  have hm := List.mem_of_find?_eq_some hf
  have hrest : m.rest = [] := by simpa using List.find?_some hf
  refine ⟨m, hm, ?_, rfl⟩
  have he := (mem_run_sound hm).1
  rw [hrest, List.append_nil] at he
  exact he.symm

theorem fullMatch_isSome {r : Regex α} {s : List α} : (fullMatch r s).isSome ↔ Lang r s := by
  constructor
  · intro h
    obtain ⟨c, hc⟩ := Option.isSome_iff_exists.mp h
    obtain ⟨m, hm, rfl, _⟩ := fullMatch_eq_some hc
    exact (mem_run_sound hm).2
  · intro h
    obtain ⟨m, hm, _, hrest⟩ := run_complete h [] Captures.none
    rw [List.append_nil] at hm
    rw [fullMatch, Option.isSome_map, List.find?_isSome]
    exact ⟨m, hm, by simp [hrest]⟩

theorem fullMatch_eq_none {r : Regex α} {s : List α} : fullMatch r s = none ↔ ¬ Lang r s := by
  rw [← fullMatch_isSome]
  cases fullMatch r s <;> simp

/-- A group around a whole pattern takes the whole list. -/
theorem fullMatch_group {n : Nat} {r : Regex α} {s : List α} (h : Lang r s) :
    ∃ c, fullMatch (.group n r) s = some c ∧ c n = s := by
  obtain ⟨c, hc⟩ := Option.isSome_iff_exists.mp (fullMatch_isSome (r := .group n r).mpr h)
  obtain ⟨m, hm, ht, rfl⟩ := fullMatch_eq_some hc
  obtain ⟨m₁, _, rfl⟩ := mem_run_group.mp hm
  exact ⟨_, hc, by simpa using ht⟩

/-- What a search finds lies in the list, and is in the language. -/
theorem search_sound {r : Regex α} {s : List α} {m : Match α} (h : search r s = some m) :
    ∃ before, s = before ++ (m.taken ++ m.rest) ∧ Lang r m.taken := by
  induction s with
  | nil =>
      have hm := mem_run_sound (List.mem_of_head? h)
      exact ⟨[], hm.1, hm.2⟩
  | cons a s ih =>
      rw [search] at h
      split at h
      next k ks hrun =>
        obtain rfl := Option.some.inj h
        have hm := mem_run_sound (hrun ▸ List.mem_cons_self .. : k ∈ run r (a :: s) Captures.none)
        exact ⟨[], hm.1, hm.2⟩
      next =>
        obtain ⟨before, hs, hl⟩ := ih h
        exact ⟨a :: before, by rw [hs, List.cons_append], hl⟩

/-- A search for a pattern that is not empty makes progress. -/
theorem search_rest_length {r : Regex α} (hr : ∀ w, Lang r w → w ≠ []) {s : List α} {m : Match α}
    (h : search r s = some m) : m.rest.length < s.length := by
  obtain ⟨before, hs, hl⟩ := search_sound h
  have ht := List.length_pos_iff.mpr (hr _ hl)
  have hlen := congrArg List.length hs
  rw [List.length_append, List.length_append] at hlen
  omega

/-! ## Captures -/

/-- A pattern without groups. -/
def Plain : Regex α → Prop
  | .seq r t => Plain r ∧ Plain t
  | .alt r t => Plain r ∧ Plain t
  | .group _ _ => False
  | _ => True

theorem plain_str [DecidableEq α] (l : List α) : Plain (str l) := by
  induction l with
  | nil => trivial
  | cons a l ih => exact ⟨trivial, ih⟩

/-- A pattern without groups records nothing. -/
theorem caps_of_plain {r : Regex α} {s : List α} {c : Captures α} {m : Match α} (hp : Plain r)
    (h : m ∈ run r s c) : m.caps = c := by
  induction r generalizing s c m with
  | empty =>
      simp only [run, List.mem_singleton] at h
      rw [h]
  | one p =>
      cases s with
      | nil => simp [run] at h
      | cons a s =>
          rw [run] at h
          split at h
          next => rw [List.mem_singleton.mp h]
          next => cases h
  | seq r t ihr iht =>
      obtain ⟨m₁, h₁, m₂, h₂, rfl⟩ := mem_run_seq.mp h
      exact (iht hp.2 h₂).trans (ihr hp.1 h₁)
  | alt r t ihr iht =>
      rw [run, List.mem_append] at h
      cases h with
      | inl h => exact ihr hp.1 h
      | inr h => exact iht hp.2 h
  | many g p => exact (mem_run_many.mp h).2.2
  | group n r => cases hp

/-- A pattern without groups in front of another records nothing. -/
theorem mem_run_seq_plain {r t : Regex α} {s : List α} {c : Captures α} {m : Match α}
    (hp : Plain r) (h : m ∈ run (.seq r t) s c) :
    ∃ u v k, s = u ++ v ∧ Lang r u ∧ k ∈ run t v c ∧ m = ⟨u ++ k.taken, k.rest, k.caps⟩ := by
  obtain ⟨m₁, h₁, k, hk, rfl⟩ := mem_run_seq.mp h
  have hs := mem_run_sound h₁
  rw [caps_of_plain hp h₁] at hk
  exact ⟨m₁.taken, m₁.rest, k, hs.1, hs.2, hk, rfl⟩

/-- What is recorded was recorded before or lies in the list. -/
theorem mem_caps_of_mem_run {r : Regex α} {s : List α} {c : Captures α} {m : Match α}
    (h : m ∈ run r s c) {n : Nat} {a : α} (ha : a ∈ m.caps n) : a ∈ c n ∨ a ∈ s := by
  induction r generalizing s c m with
  | empty =>
      simp only [run, List.mem_singleton] at h
      subst h
      exact Or.inl ha
  | one p =>
      rw [caps_of_plain (r := .one p) trivial h] at ha
      exact Or.inl ha
  | seq r t ihr iht =>
      obtain ⟨m₁, h₁, m₂, h₂, rfl⟩ := mem_run_seq.mp h
      rcases iht h₂ ha with ha | ha
      · exact ihr h₁ ha
      · exact Or.inr ((mem_run_sound h₁).1 ▸ List.mem_append_right _ ha)
  | alt r t ihr iht =>
      rw [run, List.mem_append] at h
      exact h.elim (fun h => ihr h ha) fun h => iht h ha
  | many g p =>
      rw [(mem_run_many.mp h).2.2] at ha
      exact Or.inl ha
  | group k r ih =>
      obtain ⟨m₁, h₁, rfl⟩ := mem_run_group.mp h
      by_cases hk : n = k
      · subst hk
        replace ha : a ∈ (m₁.caps.set n m₁.taken) n := ha
        rw [Captures.set_same] at ha
        exact Or.inr ((mem_run_sound h₁).1 ▸ List.mem_append_left _ ha)
      · simp only [Captures.set, if_neg hk] at ha
        exact ih h₁ ha

/-- What a search records lies in the list. -/
theorem mem_of_search {r : Regex α} {s : List α} {m : Match α} (h : search r s = some m) {n : Nat}
    {a : α} (ha : a ∈ m.caps n) : a ∈ s := by
  induction s with
  | nil => exact (mem_caps_of_mem_run (List.mem_of_head? h) ha).resolve_left List.not_mem_nil
  | cons b s ih =>
      rw [search] at h
      split at h
      next k ks hrun =>
        obtain rfl := Option.some.inj h
        have hk : k ∈ run r (b :: s) Captures.none := hrun ▸ List.mem_cons_self ..
        exact (mem_caps_of_mem_run hk ha).resolve_left List.not_mem_nil
      next => exact List.mem_cons_of_mem _ (ih h)

/-- What the three groups of a binary pattern take. -/
theorem fullMatch_binary_spec {dot op : α → Bool} {s : List α} {c : Captures α}
    (h : fullMatch (binary dot op) s = some c) :
    ∃ o, op o = true ∧ c 2 = [o] ∧ s = c 1 ++ o :: c 3 ∧ c 1 ≠ [] ∧ c 3 ≠ [] := by
  obtain ⟨m, hm, ht, rfl⟩ := fullMatch_eq_some h
  obtain ⟨m₁, h₁, m₂, h₂, rfl⟩ := mem_run_seq.mp hm
  obtain ⟨k₁, g₁, rfl⟩ := mem_run_group.mp h₁
  obtain ⟨m₃, h₃, m₄, h₄, rfl⟩ := mem_run_seq.mp h₂
  obtain ⟨k₃, g₃, rfl⟩ := mem_run_group.mp h₃
  obtain ⟨k₄, g₄, rfl⟩ := mem_run_group.mp h₄
  obtain ⟨o, ho, hop⟩ := (mem_run_sound g₃).2
  have c₃ := caps_of_plain (r := .one op) trivial g₃
  have c₄ := caps_of_plain (r := plus true dot) ⟨trivial, trivial⟩ g₄
  have n₁ := (lang_plus.mp (mem_run_sound g₁).2).1
  have n₄ := (lang_plus.mp (mem_run_sound g₄).2).1
  refine ⟨o, hop, ?_, ?_, ?_, ?_⟩ <;>
    simp [Captures.set, c₃, c₄, ho, n₁, n₄] at ht ⊢
  exact ht.symm

/-- The operands of a binary pattern are shorter than the text. -/
theorem fullMatch_binary_length {dot op : α → Bool} {s : List α} {c : Captures α}
    (h : fullMatch (binary dot op) s = some c) :
    (c 1).length < s.length ∧ (c 3).length < s.length := by
  obtain ⟨o, _, _, hs, h1, h3⟩ := fullMatch_binary_spec h
  have hlen := congrArg List.length hs
  have h1' := List.length_pos_iff.mpr h1
  have h3' := List.length_pos_iff.mpr h3
  rw [List.length_append, List.length_cons] at hlen
  omega

theorem fullMatch_binary_none {dot op : α → Bool} {s : List α} (h : ∀ a ∈ s, op a = false) :
    fullMatch (binary dot op) s = none := by
  cases hf : fullMatch (binary dot op) s with
  | none => rfl
  | some c =>
      obtain ⟨o, ho, _, hs, _⟩ := fullMatch_binary_spec hf
      have := h o (hs ▸ by simp)
      simp [ho] at this

/-- The splits of a list whose first part is of the class start with those after that part. -/
theorem longest_append {p : α → Bool} (x : List α) {l : List α} (h : ∀ a ∈ l, p a = true) :
    ∃ more, longest p (l ++ x) = (longest p x).map (fun y => (l ++ y.1, y.2)) ++ more := by
  induction l with
  | nil => exact ⟨[], by simp⟩
  | cons a l ih =>
      obtain ⟨more, hm⟩ := ih fun b hb => h b (by simp [hb])
      refine ⟨more.map (fun y => (a :: y.1, y.2)) ++ [([], a :: (l ++ x))], ?_⟩
      rw [List.cons_append, longest, if_pos (h a (by simp)), hm]
      simp [Function.comp_def]

theorem longest_all {p : α → Bool} {s : List α} (h : ∀ a ∈ s, p a = true) :
    ∃ more, longest p s = (s, []) :: more := by
  obtain ⟨more, hm⟩ := longest_append [] h
  refine ⟨more, ?_⟩
  rw [List.append_nil] at hm
  simpa [longest] using hm

theorem run_plus_cons {p : α → Bool} {a : α} (ha : p a = true) (s : List α) (c : Captures α) :
    run (plus true p) (a :: s) c = (longest p s).map fun x => ⟨a :: x.1, x.2, c⟩ := by
  simp [plus, run, ha, Function.comp_def]

/-- The splits at a list of the class with an operator behind it: first those that leave no
operator, then the one in front of the last operator. -/
theorem longest_last {dot op : α → Bool} {l r : List α} (o : α)
    (hl : ∀ a ∈ l, dot a = true) (hr : ∀ a ∈ r, op a = false) :
    ∃ past later, longest dot (l ++ o :: r) = past ++ (l, o :: r) :: later ∧
      ∀ x ∈ past, ∀ a ∈ x.2, op a = false := by
  obtain ⟨shorter, hs⟩ := longest_append (o :: r) hl
  rw [hs, longest]
  split
  · refine ⟨(longest dot r).map fun x => (l ++ o :: x.1, x.2), shorter, by simp, ?_⟩
    intro x hx a ha
    obtain ⟨z, hz, rfl⟩ := List.mem_map.mp hx
    exact hr a ((mem_longest.mp hz).1 ▸ List.mem_append_right _ ha)
  · exact ⟨[], shorter, by simp, by simp⟩

/-- A binary pattern splits at the last operator. -/
theorem fullMatch_binary_last {dot p : α → Bool} {l r : List α} {o : α} (hl : l ≠ [])
    (hld : ∀ a ∈ l, dot a = true) (ho : p o = true) (hr : r ≠ [])
    (hrd : ∀ a ∈ r, dot a = true) (hro : ∀ a ∈ r, p a = false) :
    ∃ c, fullMatch (binary dot p) (l ++ o :: r) = some c ∧ c 1 = l ∧ c 2 = [o] ∧ c 3 = r := by
  obtain ⟨a, l, rfl⟩ := List.exists_cons_of_ne_nil hl
  obtain ⟨b, r, rfl⟩ := List.exists_cons_of_ne_nil hr
  have ha : dot a = true := hld a (by simp)
  have hb : dot b = true := hrd b (by simp)
  obtain ⟨past, later, hs, hpast⟩ := longest_last (l := l) o (fun x hx => hld x (by simp [hx])) hro
  obtain ⟨more, hm⟩ := longest_all (p := dot) (s := r) fun x hx => hrd x (by simp [hx])
  -- a left operand past the last operator is followed by no operator
  have hskip : ∀ c : Captures α, past.flatMap (fun x =>
      (run (.seq (.group 2 (.one p)) (.group 3 (plus true dot))) x.2 (c.set 1 (a :: x.1))).map
        fun k => (⟨a :: x.1 ++ k.taken, k.rest, k.caps⟩ : Match α)) = [] := by
    intro c
    refine List.flatMap_eq_nil_iff.mpr fun x hx => ?_
    cases hv : x.2 with
    | nil => simp [run]
    | cons y v => simp [run, hpast x hx y (by simp [hv])]
  refine ⟨((Captures.none.set 1 (a :: l)).set 2 [o]).set 3 (b :: r), ?_, ?_, ?_, ?_⟩
  · rw [fullMatch, binary, run, run, List.cons_append, run_plus_cons ha, hs, List.map_map,
      List.flatMap_map, List.flatMap_append, List.flatMap_cons]
    simp only [Function.comp_def]
    rw [hskip, List.nil_append]
    simp [run, ho, run_plus_cons hb, hm]
  · simp [Captures.set]
  · simp [Captures.set]
  · simp [Captures.set]

end Regex
