import Mathlib.Order.Lattice
import Mathlib.Data.List.Basic

/-!
# Ordered containers with unique keys

An ordered container keeps its elements in the order of their keys and holds at most one
element per key.  A map is such a container of pairs keyed by the first component, a set one
keyed by the identity.  `emplace` adds an element and leaves the container alone when the key
is taken, so the first element of a key stays.

The order is a field of the structure (`Keyed.sorted`), so an unordered container cannot be
built.  `Keyed.find?_emplace` and `Keyed.mem_emplace` say what an insertion does, and
`Keyed.find?_ofList` reads a container off the list it was built from.
-/

/-! ## Insertion into a list -/

section Insertion

variable {κ α : Type} [LinearOrder κ]

/-- Insert `a` in key order, unless its key is taken. -/
def insertNew (key : α → κ) (a : α) : List α → List α
  | [] => [a]
  | b :: bs =>
      if key a < key b then a :: b :: bs
      else if key a = key b then b :: bs
      else b :: insertNew key a bs

theorem mem_of_mem_insertNew {key : α → κ} {a x : α} {l : List α} (h : x ∈ insertNew key a l) :
    x = a ∨ x ∈ l := by
  induction l with
  | nil => simpa [insertNew] using h
  | cons b bs ih =>
      rw [insertNew] at h
      split at h
      · simpa using h
      · split at h
        · exact Or.inr h
        · cases List.mem_cons.mp h with
          | inl he => exact Or.inr (by simp [he])
          | inr hx => exact (ih hx).imp_right (List.mem_cons_of_mem _)

theorem insertNew_sorted {key : α → κ} (a : α) {l : List α}
    (h : l.Pairwise fun x y => key x < key y) :
    (insertNew key a l).Pairwise fun x y => key x < key y := by
  induction l with
  | nil => simp [insertNew]
  | cons b bs ih =>
      rw [insertNew]
      have hb := List.pairwise_cons.mp h
      split
      · rename_i hlt
        refine List.Pairwise.cons (fun x hx => ?_) h
        cases List.mem_cons.mp hx with
        | inl he => exact he ▸ hlt
        | inr hx' => exact hlt.trans (hb.1 x hx')
      · rename_i hlt
        split
        · exact h
        · rename_i hne
          refine List.Pairwise.cons (fun x hx => ?_) (ih hb.2)
          cases mem_of_mem_insertNew hx with
          | inl he => exact he ▸ lt_of_le_of_ne (not_lt.mp hlt) (Ne.symm hne)
          | inr hx' => exact hb.1 x hx'

/-- A taken key leaves the list alone. -/
theorem insertNew_of_key_mem {key : α → κ} {a : α} {l : List α}
    (hs : l.Pairwise fun x y => key x < key y) (h : ∃ b ∈ l, key b = key a) :
    insertNew key a l = l := by
  induction l with
  | nil => obtain ⟨_, hx, _⟩ := h; cases hx
  | cons b bs ih =>
      obtain ⟨x, hx, hk⟩ := h
      have hb := List.pairwise_cons.mp hs
      rw [insertNew]
      cases List.mem_cons.mp hx with
      | inl he => subst he; simp [hk]
      | inr hx' =>
          have hlt : key b < key a := hk ▸ hb.1 x hx'
          rw [if_neg (not_lt.mpr hlt.le), if_neg hlt.ne', ih hb.2 ⟨x, hx', hk⟩]

theorem mem_insertNew_of_mem {key : α → κ} {a x : α} {l : List α} (h : x ∈ l) :
    x ∈ insertNew key a l := by
  induction l with
  | nil => cases h
  | cons b bs ih =>
      rw [insertNew]
      split
      · exact List.mem_cons_of_mem _ h
      · split
        · exact h
        · cases List.mem_cons.mp h with
          | inl he => exact he ▸ List.mem_cons_self ..
          | inr hx => exact List.mem_cons_of_mem _ (ih hx)

theorem find?_insertNew {key : α → κ} (a : α) (k : κ) {l : List α}
    (hs : l.Pairwise fun x y => key x < key y) :
    (insertNew key a l).find? (fun x => decide (key x = k)) =
      (l.find? fun x => decide (key x = k)).or (if key a = k then some a else none) := by
  induction l with
  | nil =>
      by_cases hk : key a = k
      · simp [insertNew, hk]
      · simp [insertNew, hk]
  | cons b bs ih =>
      have hb := List.pairwise_cons.mp hs
      rw [insertNew]
      split
      · rename_i hlt
        by_cases hk : key a = k
        · -- `k` is below every key of the list
          have hnone : (b :: bs).find? (fun x => decide (key x = k)) = none := by
            refine List.find?_eq_none.mpr fun x hx => ?_
            have hx' : key a < key x := by
              cases List.mem_cons.mp hx with
              | inl he => exact he ▸ hlt
              | inr hm => exact hlt.trans (hb.1 x hm)
            simpa using (hk ▸ hx').ne'
          simp [hnone, hk]
        · rw [List.find?_cons_of_neg (by simpa using hk)]
          simp [hk]
      · split
        · rename_i he
          by_cases hk : key b = k
          · simp [hk]
          · simp [he, hk]
        · by_cases hk : key b = k
          · simp [hk]
          · rw [List.find?_cons_of_neg (by simpa using hk), List.find?_cons_of_neg
              (by simpa using hk), ih hb.2]

/-- An element that fails a test, or comes after one that passes it, does not change the first that
passes. -/
theorem find?_insertNew_of_later {key : α → κ} {p : α → Bool} {a : α} {l : List α}
    (hs : l.Pairwise fun x y => key x < key y)
    (h : p a = false ∨ ∃ b ∈ l, p b = true ∧ key b < key a) :
    (insertNew key a l).find? p = l.find? p := by
  induction l with
  | nil =>
      cases h with
      | inl hp => simp [insertNew, hp]
      | inr hb => obtain ⟨_, hb, _⟩ := hb; cases hb
  | cons b bs ih =>
      have hb := List.pairwise_cons.mp hs
      rw [insertNew]
      split
      next hlt =>
        cases h with
        | inl hp => rw [List.find?_cons_of_neg (by simp [hp])]
        | inr hc =>
            obtain ⟨c, hc, _, hca⟩ := hc
            rcases List.mem_cons.mp hc with rfl | hc
            · exact absurd hca (not_lt.mpr hlt.le)
            · exact absurd hca (not_lt.mpr (hlt.trans (hb.1 c hc)).le)
      next =>
        split
        next => rfl
        next =>
          cases hp : p b with
          | true => rw [List.find?_cons_of_pos hp, List.find?_cons_of_pos hp]
          | false =>
              rw [List.find?_cons_of_neg (by simp [hp]), List.find?_cons_of_neg (by simp [hp])]
              refine ih hb.2 (h.imp_right fun hlater => ?_)
              obtain ⟨c, hc, hpc, hca⟩ := hlater
              rcases List.mem_cons.mp hc with rfl | hc
              · rw [hp] at hpc; cases hpc
              · exact ⟨c, hc, hpc, hca⟩

end Insertion

/-! ## The container -/

/-- A container of elements ordered by their keys, with at most one element per key. -/
structure Keyed {κ α : Type} [LinearOrder κ] (key : α → κ) where
  items : List α
  /-- The keys increase strictly. -/
  sorted : items.Pairwise (fun a b => key a < key b)

/-- An ordered set. -/
abbrev OrdSet (κ : Type) [LinearOrder κ] := Keyed (id : κ → κ)

/-- An ordered map. -/
abbrev OrdMap (κ α : Type) [LinearOrder κ] := Keyed (Prod.fst : κ × α → κ)

namespace Keyed

variable {κ α : Type} [LinearOrder κ] {key : α → κ}

@[ext] theorem ext {s t : Keyed key} (h : s.items = t.items) : s = t := by
  cases s; cases t; cases h; rfl

/-- The container without elements. -/
def nil : Keyed key := ⟨[], List.Pairwise.nil⟩

/-- Add an element, unless its key is taken. -/
def emplace (s : Keyed key) (a : α) : Keyed key :=
  ⟨insertNew key a s.items, insertNew_sorted a s.sorted⟩

/-- The element of a key. -/
def find? (s : Keyed key) (k : κ) : Option α := s.items.find? (fun a => decide (key a = k))

/-- The elements of a list, the first of each key. -/
def ofList (l : List α) : Keyed key := l.foldl emplace nil

theorem key_of_find? {s : Keyed key} {k : κ} {a : α} (h : s.find? k = some a) : key a = k := by
  simpa using List.find?_some h

theorem mem_of_find? {s : Keyed key} {k : κ} {a : α} (h : s.find? k = some a) : a ∈ s.items :=
  List.mem_of_find?_eq_some h

theorem find?_eq_none_iff {s : Keyed key} {k : κ} :
    s.find? k = none ↔ ∀ a ∈ s.items, key a ≠ k := by
  simp [find?]

theorem find?_of_mem {s : Keyed key} {a : α} (h : a ∈ s.items) : s.find? (key a) = some a := by
  cases hf : s.find? (key a) with
  | none => exact absurd rfl (find?_eq_none_iff.mp hf a h)
  | some b =>
      have hb := mem_of_find? hf
      have hk := key_of_find? hf
      have hlt := List.pairwise_iff_getElem.mp s.sorted
      obtain ⟨i, hi, rfl⟩ := List.getElem_of_mem hb
      obtain ⟨j, hj, rfl⟩ := List.getElem_of_mem h
      -- positions of one key are ordered neither way
      rcases Nat.lt_trichotomy i j with hij | hij | hij
      · exact absurd hk (hlt i j hi hj hij).ne
      · subst hij; rfl
      · exact absurd hk (hlt j i hj hi hij).ne'

theorem find?_emplace (s : Keyed key) (a : α) (k : κ) :
    (s.emplace a).find? k = (s.find? k).or (if key a = k then some a else none) :=
  find?_insertNew a k s.sorted

theorem find?_emplace_of_some {s : Keyed key} {k : κ} {b : α} (a : α) (h : s.find? k = some b) :
    (s.emplace a).find? k = some b := by
  rw [find?_emplace, h, Option.some_or]

theorem find?_emplace_self {s : Keyed key} {a : α} (h : s.find? (key a) = none) :
    (s.emplace a).find? (key a) = some a := by
  rw [find?_emplace, h, Option.none_or, if_pos rfl]

theorem find?_emplace_ne (s : Keyed key) {a : α} {k : κ} (h : key a ≠ k) :
    (s.emplace a).find? k = s.find? k := by
  rw [find?_emplace, if_neg h, Option.or_none]

theorem emplace_of_some {s : Keyed key} {a b : α} (h : s.find? (key a) = some b) :
    s.emplace a = s :=
  Keyed.ext (insertNew_of_key_mem s.sorted ⟨b, mem_of_find? h, key_of_find? h⟩)

theorem mem_emplace {s : Keyed key} {a x : α} :
    x ∈ (s.emplace a).items ↔ x ∈ s.items ∨ (x = a ∧ s.find? (key a) = none) := by
  constructor
  · intro h
    cases hf : s.find? (key a) with
    | some b => rw [emplace_of_some hf] at h; exact Or.inl h
    | none =>
        cases mem_of_mem_insertNew h with
        | inl he => exact Or.inr ⟨he, rfl⟩
        | inr hm => exact Or.inl hm
  · rintro (h | ⟨rfl, hf⟩)
    · exact mem_insertNew_of_mem h
    · exact mem_of_find? (find?_emplace_self hf)

/-- A scan finds the element of the least key that fits. -/
theorem scan_eq_some_iff {s : Keyed key} {p : α → Bool} {a : α} :
    s.items.find? p = some a ↔
      a ∈ s.items ∧ p a = true ∧ ∀ b ∈ s.items, key b < key a → p b = false := by
  constructor
  · intro h
    obtain ⟨ha, before, after, hitems, hbefore⟩ := List.find?_eq_some_iff_append.mp h
    refine ⟨hitems ▸ by simp, ha, fun b hb hlt => ?_⟩
    have hsorted := s.sorted
    rw [hitems] at hb hsorted
    rcases List.mem_append.mp hb with hb | hb
    · simpa using hbefore b hb
    · rcases List.mem_cons.mp hb with rfl | hb
      · exact absurd hlt (lt_irrefl _)
      · exact absurd hlt ((List.pairwise_cons.mp (List.pairwise_append.mp hsorted).2.1).1 b hb).not_gt
  · rintro ⟨hmem, ha, hleast⟩
    obtain ⟨before, after, hitems⟩ := List.append_of_mem hmem
    have hsorted := s.sorted
    rw [hitems] at hsorted
    refine List.find?_eq_some_iff_append.mpr ⟨ha, before, after, hitems, fun b hb => ?_⟩
    have hlt := (List.pairwise_append.mp hsorted).2.2 b hb a (List.mem_cons_self ..)
    simpa using hleast b (hitems ▸ List.mem_append_left _ hb) hlt

/-- A container is what it finds. -/
theorem ext_find? {s t : Keyed key} (h : ∀ k, s.find? k = t.find? k) : s = t := by
  have hmem : ∀ a, a ∈ s.items ↔ a ∈ t.items := by
    intro a
    refine ⟨fun ha => ?_, fun ha => ?_⟩
    · exact mem_of_find? ((h (key a)).symm.trans (find?_of_mem ha))
    · exact mem_of_find? ((h (key a)).trans (find?_of_mem ha))
  have hnodup : ∀ u : Keyed key, u.items.Nodup :=
    fun u => u.sorted.imp fun hlt he => absurd (congrArg key he) hlt.ne
  refine Keyed.ext (List.Perm.eq_of_pairwise (fun a b _ _ hab hba => ?_) s.sorted t.sorted
    ((List.perm_ext_iff_of_nodup (hnodup s) (hnodup t)).mpr hmem))
  exact absurd hba hab.not_gt

theorem find?_foldl_emplace (k : κ) (l : List α) (s : Keyed key) :
    (l.foldl emplace s).find? k = (s.find? k).or (l.find? fun a => decide (key a = k)) := by
  induction l generalizing s with
  | nil => simp
  | cons a l ih =>
      rw [List.foldl_cons, ih, find?_emplace, Option.or_assoc]
      by_cases hk : key a = k
      · simp [hk]
      · simp [hk]

/-- A container built from a list holds the first element of each key. -/
theorem find?_ofList (l : List α) (k : κ) :
    (ofList l : Keyed key).find? k = l.find? (fun a => decide (key a = k)) := by
  rw [ofList, find?_foldl_emplace]
  simp [find?, nil]

theorem mem_of_mem_ofList {l : List α} {a : α} (h : a ∈ (ofList l : Keyed key).items) : a ∈ l := by
  have hf := find?_of_mem h
  rw [find?_ofList] at hf
  exact List.mem_of_find?_eq_some hf

/-- A container built from elements of different keys holds them all. -/
theorem find?_ofList_of_mem {l : List α} (hl : (l.map key).Nodup) {a : α} (ha : a ∈ l) :
    (ofList l : Keyed key).find? (key a) = some a := by
  obtain ⟨before, after, rfl⟩ := List.append_of_mem ha
  rw [List.map_append, List.map_cons, List.nodup_append] at hl
  rw [find?_ofList]
  refine List.find?_eq_some_iff_append.mpr ⟨by simp, before, after, rfl, fun b hb => ?_⟩
  have hne := hl.2.2 (key b) (List.mem_map_of_mem hb) (key a) (List.mem_cons_self ..)
  simpa using hne

end Keyed

/-! ## Sets -/

namespace OrdSet

variable {κ : Type} [LinearOrder κ]

instance : Membership κ (OrdSet κ) := ⟨fun s k => k ∈ s.items⟩

theorem mem_def {s : OrdSet κ} {k : κ} : k ∈ s ↔ k ∈ s.items := Iff.rfl

theorem mem_emplace {s : OrdSet κ} {a k : κ} : k ∈ Keyed.emplace s a ↔ k = a ∨ k ∈ s := by
  rw [mem_def, Keyed.mem_emplace]
  constructor
  · rintro (h | ⟨h, _⟩)
    · exact Or.inr h
    · exact Or.inl h
  · rintro (rfl | h)
    · by_cases hm : k ∈ s.items
      · exact Or.inl hm
      · refine Or.inr ⟨rfl, Keyed.find?_eq_none_iff.mpr fun x hx he => hm ?_⟩
        exact (show x = k from he) ▸ hx
    · exact Or.inl h

end OrdSet
