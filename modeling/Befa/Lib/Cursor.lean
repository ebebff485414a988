import Mathlib.Order.Lattice
import Mathlib.Data.List.Basic

/-!
# A cursor into a sorted list

A loop walks some keys and keeps a cursor into a sorted list.  The cursor moves on only when the
key at hand is the one it points at.  So a listed key that never comes stops it for good, and the
keys behind it are missed.

`head?_foldl_advance` says which keys find the cursor: a listed key does exactly when every
smaller listed key came before it.  The keys need not be in order.  It is enough that a key that
fell behind an earlier one stays behind it, as addresses that wrap around do.
-/

section Cursor

variable {κ : Type} [LinearOrder κ]

/-- Move the cursor on if it points at `k`. -/
def advance (cursor : List κ) (k : κ) : List κ :=
  match cursor with
  | [] => []
  | c :: cs => if k = c then cs else c :: cs

theorem advance_of_head {cursor : List κ} {k : κ} (h : cursor.head? = some k) :
    advance cursor k = cursor.tail := by
  cases cursor with
  | nil => cases h
  | cons c cs =>
      injection h with h
      simp [advance, h]

theorem advance_of_ne {cursor : List κ} {k : κ} (h : cursor.head? ≠ some k) :
    advance cursor k = cursor := by
  cases cursor with
  | nil => rfl
  | cons c cs =>
      have hne : k ≠ c := fun he => h (by simp [he])
      simp [advance, hne]

/-- The cursor points at a key when it is listed and every smaller listed key has passed. -/
theorem head?_foldl_advance {p : κ} {passed cursor : List κ} (hs : cursor.Pairwise (· < ·))
    (hp : p ∉ passed) (hw : passed.Pairwise fun q r => r < q → p < q) :
    (passed.foldl advance cursor).head? = some p ↔
      p ∈ cursor ∧ ∀ c ∈ cursor, c < p → c ∈ passed := by
  induction passed generalizing cursor with
  | nil =>
      cases cursor with
      | nil => simp
      | cons c cs =>
          have hc := (List.pairwise_cons.mp hs).1
          constructor
          · intro h
            injection h with h
            subst h
            refine ⟨List.mem_cons_self .., fun d hd hlt => ?_⟩
            cases List.mem_cons.mp hd with
            | inl he => exact absurd (he ▸ hlt) (lt_irrefl _)
            | inr hm => exact absurd hlt (lt_asymm (hc d hm))
          · intro ⟨hp, hall⟩
            cases List.mem_cons.mp hp with
            | inl he => exact congrArg some he.symm
            | inr hm => exact absurd (hall c (List.mem_cons_self ..) (hc p hm)) List.not_mem_nil
  | cons q passed ih =>
      have hpq : p ≠ q := fun he => hp (he ▸ List.mem_cons_self ..)
      have hp' : p ∉ passed := fun hm => hp (List.mem_cons_of_mem _ hm)
      have hw' := List.pairwise_cons.mp hw
      rw [List.foldl_cons]
      by_cases hq : cursor.head? = some q
      · -- the cursor moves past `q`
        obtain ⟨cs, rfl⟩ := List.head?_eq_some_iff.mp hq
        have hc := List.pairwise_cons.mp hs
        rw [advance_of_head hq, List.tail_cons, ih hc.2 hp' hw'.2]
        constructor
        · intro ⟨hm, hall⟩
          refine ⟨List.mem_cons_of_mem _ hm, fun c hcs hlt => ?_⟩
          cases List.mem_cons.mp hcs with
          | inl he => exact he ▸ List.mem_cons_self ..
          | inr hcs => exact List.mem_cons_of_mem _ (hall c hcs hlt)
        · intro ⟨hm, hall⟩
          refine ⟨(List.mem_cons.mp hm).resolve_left hpq, fun c hcs hlt => ?_⟩
          exact (List.mem_cons.mp (hall c (List.mem_cons_of_mem _ hcs) hlt)).resolve_left
            (hc.1 c hcs).ne'
      · rw [advance_of_ne hq, ih hs hp' hw'.2]
        refine and_congr_right fun _ => ⟨fun hall c hc hlt => ?_, fun hall c hc hlt => ?_⟩
        · exact List.mem_cons_of_mem _ (hall c hc hlt)
        · refine (List.mem_cons.mp (hall c hc hlt)).resolve_left fun he => ?_
          -- `q` is listed but not at the cursor, so the head of the cursor is below `q`, has
          -- passed after it, and puts `p` below `q` too
          subst he
          cases cursor with
          | nil => cases hc
          | cons d ds =>
              have hd : d < c := by
                cases List.mem_cons.mp hc with
                | inl he => exact absurd (congrArg some he.symm) hq
                | inr hm => exact (List.pairwise_cons.mp hs).1 c hm
              have hmem := hall d (List.mem_cons_self ..) (hd.trans hlt)
              have hlater := (List.mem_cons.mp hmem).resolve_left hd.ne
              exact absurd hlt (lt_asymm (hw'.1 d hlater hd))

end Cursor
