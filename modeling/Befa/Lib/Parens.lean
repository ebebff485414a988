import Mathlib.Data.List.Basic

/-!
# Texts in parentheses

`Balanced` texts are those whose parentheses match.  `closing` looks for the parenthesis that
closes one that was opened in front of the text, and it passes a balanced text as a whole
(`closing_append`).  So what stands in a pair of parentheses is found again, and there is one way
to read it (`append_close_inj`).
-/

namespace Parens

variable {α : Type} {opening close : α}

/-- The parentheses of a text match. -/
inductive Balanced (opening close : α) : List α → Prop where
  | nil : Balanced opening close []
  /-- No parenthesis. -/
  | cons {a : α} {x : List α} : a ≠ opening → a ≠ close → Balanced opening close x →
      Balanced opening close (a :: x)
  /-- A text in parentheses. -/
  | paren {x y : List α} : Balanced opening close x → Balanced opening close y →
      Balanced opening close (opening :: (x ++ close :: y))

namespace Balanced

theorem of_forall {x : List α} (h : ∀ a ∈ x, a ≠ opening ∧ a ≠ close) :
    Balanced opening close x := by
  induction x with
  | nil => exact .nil
  | cons a x ih =>
      have ha := h a (List.mem_cons_self ..)
      exact .cons ha.1 ha.2 (ih fun b hb => h b (List.mem_cons_of_mem _ hb))

/-- A text is put in parentheses. -/
theorem wrap {x : List α} (hx : Balanced opening close x) :
    Balanced opening close (opening :: (x ++ [close])) := .paren hx .nil

end Balanced

section Closing

variable [DecidableEq α]

/-- The text in front of the parenthesis that closes the outermost of `depth + 1` open ones, and
the text behind it. -/
def closing (opening close : α) : Nat → List α → Option (List α × List α)
  | _, [] => none
  | depth, a :: s =>
      if a = opening then (closing opening close (depth + 1) s).map fun r => (a :: r.1, r.2)
      else if a = close then
        if depth = 0 then some ([], s)
        else (closing opening close (depth - 1) s).map fun r => (a :: r.1, r.2)
      else (closing opening close depth s).map fun r => (a :: r.1, r.2)

theorem closing_opening (depth : Nat) (s : List α) : closing opening close depth (opening :: s) =
    (closing opening close (depth + 1) s).map fun r => (opening :: r.1, r.2) := by
  rw [closing, if_pos rfl]

theorem closing_close (hne : opening ≠ close) (depth : Nat) (s : List α) :
    closing opening close (depth + 1) (close :: s) =
      (closing opening close depth s).map fun r => (close :: r.1, r.2) := by
  rw [closing, if_neg hne.symm, if_pos rfl, if_neg depth.succ_ne_zero, Nat.add_sub_cancel]

theorem closing_other {a : α} (ho : a ≠ opening) (hc : a ≠ close) (depth : Nat) (s : List α) :
    closing opening close depth (a :: s) =
      (closing opening close depth s).map fun r => (a :: r.1, r.2) := by
  rw [closing, if_neg ho, if_neg hc]

/-- A balanced text closes nothing that was opened in front of it. -/
theorem closing_append (hne : opening ≠ close) {x : List α} (hx : Balanced opening close x)
    (depth : Nat) (s : List α) : closing opening close depth (x ++ s) =
      (closing opening close depth s).map fun r => (x ++ r.1, r.2) := by
  induction hx generalizing depth s with
  | nil => simp
  | cons ho hc _ ih =>
      rw [List.cons_append, closing_other ho hc, ih, Option.map_map]
      rfl
  | paren _ _ ihx ihy =>
      rw [List.cons_append, List.append_assoc, List.cons_append, closing_opening, ihx,
        closing_close hne, ihy, Option.map_map, Option.map_map, Option.map_map]
      simp [Function.comp_def]

/-- A text in parentheses is read in one way. -/
theorem append_close_inj (hne : opening ≠ close) {x y s t : List α}
    (hx : Balanced opening close x) (hy : Balanced opening close y)
    (h : x ++ close :: s = y ++ close :: t) : x = y ∧ s = t := by
  have hread : ∀ {x s : List α}, Balanced opening close x →
      closing opening close 0 (x ++ close :: s) = some (x, s) := by
    intro x s hx
    rw [closing_append hne hx, closing, if_neg hne.symm, if_pos rfl, if_pos rfl, Option.map_some,
      List.append_nil]
  have heq := (hread hx).symm.trans (h ▸ hread hy)
  exact ⟨congrArg Prod.fst (Option.some.inj heq), congrArg Prod.snd (Option.some.inj heq)⟩

end Closing

end Parens
