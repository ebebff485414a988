import Mathlib.Data.List.Nodup
import Mathlib.Data.List.Perm.Basic

/-!
# Objects with addresses

A program makes objects one after the other and never frees the number of one.  `next` is the
number the next object will lie at.

`Laid` says that the objects of a list lie below `next`, no two at one place.  So a pointer to an
object of the list finds that object (`Laid.find?_eq`).
-/

/-- One element has a key, when no two have the same. -/
theorem List.filter_eq_singleton {α κ : Type} [DecidableEq κ] {key : α → κ} {l : List α}
    (h : (l.map key).Nodup) {a : α} (ha : a ∈ l) {k : κ} (hk : key a = k) :
    l.filter (fun b => key b = k) = [a] := by
  subst hk
  induction l with
  | nil => cases ha
  | cons b l ih =>
      obtain ⟨hb, hl⟩ := List.nodup_cons.mp h
      rcases List.mem_cons.mp ha with rfl | ha
      · have hrest : l.filter (fun c => key c = key a) = [] := by
          refine List.filter_eq_nil_iff.mpr fun c hc he => hb ?_
          rw [← of_decide_eq_true he]
          exact List.mem_map_of_mem hc
        rw [List.filter_cons, hrest, if_pos (decide_eq_true rfl)]
      · have hne : key b ≠ key a := fun he => hb (he ▸ List.mem_map_of_mem ha)
        rw [List.filter_cons, ih hl ha, if_neg (by simpa using hne)]

section Arena

variable {α : Type} {ptr : α → Nat} {next next' : Nat} {l l' : List α}

/-- The objects of a list lie below `next`, no two at one place. -/
structure Laid (next : Nat) (ptr : α → Nat) (l : List α) : Prop where
  distinct : (l.map ptr).Nodup
  below : ∀ a ∈ l, ptr a < next

namespace Laid

theorem nil : Laid next ptr [] := ⟨.nil, by simp⟩

/-- Objects stay where they are. -/
theorem mono (h : Laid next ptr l) (hn : next ≤ next') : Laid next' ptr l :=
  ⟨h.distinct, fun a ha => Nat.lt_of_lt_of_le (h.below a ha) hn⟩

/-- A new object. -/
theorem snoc (h : Laid next ptr l) {a : α} (ha : next ≤ ptr a) (hn : ptr a < next') :
    Laid next' ptr (l ++ [a]) := by
  refine ⟨?_, ?_⟩
  · rw [List.map_append, List.map_singleton]
    refine List.nodup_append.mpr ⟨h.distinct, List.nodup_singleton _, ?_⟩
    intro p hp q hq
    obtain ⟨b, hb, rfl⟩ := List.mem_map.mp hp
    rw [List.mem_singleton.mp hq]
    exact Nat.ne_of_lt (Nat.lt_of_lt_of_le (h.below b hb) ha)
  · intro b hb
    rcases List.mem_append.mp hb with hb | hb
    · exact Nat.lt_trans (h.below b hb) (Nat.lt_of_le_of_lt ha hn)
    · rw [List.mem_singleton.mp hb]
      exact hn

/-- Changing an object where it lies. -/
theorem update {pre post : List α} {a b : α} (h : Laid next ptr (pre ++ a :: post))
    (hb : ptr b = ptr a) : Laid next ptr (pre ++ b :: post) := by
  refine ⟨?_, ?_⟩
  · simpa [hb] using h.distinct
  · intro c hc
    rcases List.mem_append.mp hc with hc | hc
    · exact h.below c (List.mem_append_left _ hc)
    · rcases List.mem_cons.mp hc with rfl | hc
      · exact hb ▸ h.below a (by simp)
      · exact h.below c (by simp [hc])

theorem perm (h : Laid next ptr l) (hp : l.Perm l') : Laid next ptr l' :=
  ⟨(hp.map ptr).nodup_iff.mp h.distinct, fun a ha => h.below a (hp.mem_iff.mpr ha)⟩

/-- A pointer to an object of the list finds it. -/
theorem find?_eq (h : Laid next ptr l) {a : α} (ha : a ∈ l) {p : Nat} (hp : ptr a = p) :
    l.find? (fun b => ptr b = p) = some a := by
  rw [← List.head?_filter, List.filter_eq_singleton h.distinct ha hp, List.head?_cons]

end Laid

end Arena
