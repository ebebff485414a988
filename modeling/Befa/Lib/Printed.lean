import Befa.Lib.Hex
import Mathlib.Data.List.DropRight

/-!
# Printed numbers and lines

How a formatted print writes numbers, and how they are read back.

*Numerals.*  `hexNumeral` and `decNumeral` are the digits of a number.  `foldl_toDigits` reads them
back in any base, whatever the values of the digits are, as long as they are right.

*Lines.*  `unlines` ends each line with a break, and `linesOf` splits at the breaks.

*Joins.*  A reduction that puts a separator between texts, but none behind an empty one, joins
texts that are not empty (`foldl_joinStep`), and they are found again (`foldl_joinStep_inj`).

*Views.*  Lists that are alike in one view of their elements are alike in another one, when the
elements are.
-/

/-! ## Numerals -/

/-- `%0<width>lx`. -/
def hexNumeral (width n : Nat) : List Char := (Nat.toDigits 16 n).leftpad width '0'

/-- `%lu`. -/
def decNumeral (n : Nat) : List Char := Nat.toDigits 10 n

/-- The value of a run of decimal digits. -/
def decValue (digits : List Char) : Nat :=
  digits.foldl (fun n c => 10 * n + (c.toNat - '0'.toNat)) 0

/-- The digits of a number have its value. -/
theorem foldl_toDigits {b : Nat} (hb : 1 < b) {value : Char → Nat}
    (hv : ∀ k < b, value k.digitChar = k) (n : Nat) :
    (Nat.toDigits b n).foldl (fun n c => b * n + value c) 0 = n := by
  induction n using Nat.strongRecOn with
  | _ n ih =>
      rw [Nat.toDigits_eq_if hb]
      split
      next hlt => simp [hv n hlt]
      next hge =>
        have hpos : 0 < n := by omega
        rw [List.foldl_append, ih (n / b) (Nat.div_lt_self hpos hb)]
        simp [hv (n % b) (Nat.mod_lt n (by omega)), Nat.div_add_mod]

theorem forall_mem_toDigits {b : Nat} (hb : 1 < b) {P : Char → Prop}
    (hP : ∀ k < b, P k.digitChar) (n : Nat) : ∀ c ∈ Nat.toDigits b n, P c := by
  induction n using Nat.strongRecOn with
  | _ n ih =>
      rw [Nat.toDigits_eq_if hb]
      split
      next hlt => exact List.forall_mem_singleton.mpr (hP n hlt)
      next hge =>
        have hpos : 0 < n := by omega
        exact List.forall_mem_append.mpr ⟨ih (n / b) (Nat.div_lt_self hpos hb),
          List.forall_mem_singleton.mpr (hP _ (Nat.mod_lt n (by omega)))⟩

theorem hexValue_hexNumeral (width n : Nat) : hexValue (hexNumeral width n) = n := by
  rw [hexNumeral, List.leftpad, hexValue_zeros fun c hc => List.eq_of_mem_replicate hc, hexValue]
  exact foldl_toDigits (by decide) (by decide) n

theorem isLowerHex_hexNumeral (width n : Nat) : ∀ c ∈ hexNumeral width n, isLowerHex c = true := by
  rw [hexNumeral, List.leftpad]
  refine List.forall_mem_append.mpr ⟨fun c hc => ?_, forall_mem_toDigits (by decide) (by decide) n⟩
  rw [List.eq_of_mem_replicate hc]
  decide

theorem decValue_decNumeral (n : Nat) : decValue (decNumeral n) = n := by
  have hv : ∀ k < 10, k.digitChar.toNat - '0'.toNat = k := by decide
  exact foldl_toDigits (by decide) hv n

theorem isDigit_decNumeral (n : Nat) : ∀ c ∈ decNumeral n, c.isDigit = true :=
  forall_mem_toDigits (by decide) (by decide) n

/-! ## Lines -/

/-- The text of some lines. -/
def unlines (ls : List (List Char)) : List Char := ls.flatMap (· ++ ['\n'])

/-- The lines of a text that have ended. -/
def linesOf (s : List Char) : List (List Char) := (s.splitOn '\n').dropLast

theorem linesOf_unlines {ls : List (List Char)} (h : ∀ l ∈ ls, '\n' ∉ l) :
    linesOf (unlines ls) = ls := by
  have hsplit : (unlines ls).splitOn '\n' = ls ++ [[]] := by
    induction ls with
    | nil => rfl
    | cons l ls ih =>
        rw [unlines, List.flatMap_cons, List.append_assoc, List.singleton_append,
          List.splitOn_append_cons_self_of_not_mem (h l (List.mem_cons_self ..)), ← unlines,
          ih fun l' hl' => h l' (List.mem_cons_of_mem _ hl'), List.cons_append]
  rw [linesOf, hsplit, List.dropLast_concat]

/-! ## Texts at the end -/

section Suffix

variable {α : Type} {p : α → Bool} {s d : List α}

/-- The run at the end of a list that goes as far as it can. -/
theorem rtakeWhile_append (hd : ∀ a ∈ d, p a = true) (hs : ∀ a ∈ s.getLast?, p a = false) :
    (s ++ d).rtakeWhile p = d ∧ (s ++ d).rdropWhile p = s := by
  have hd' : ∀ a ∈ d.reverse, p a = true := fun a ha => hd a (List.mem_reverse.mp ha)
  have hstop : s.reverse.takeWhile p = [] ∧ s.reverse.dropWhile p = s.reverse := by
    cases hr : s.reverse with
    | nil => exact ⟨rfl, rfl⟩
    | cons a l =>
        have ha : p a = false := hs a (by rw [← List.head?_reverse, hr]; rfl)
        simp [ha]
  rw [List.rtakeWhile, List.rdropWhile, List.reverse_append, List.takeWhile_append_of_pos hd',
    List.dropWhile_append_of_pos hd', hstop.1, hstop.2, List.append_nil, List.reverse_reverse,
    List.reverse_reverse]
  exact ⟨rfl, rfl⟩

end Suffix

/-! ## Joins -/

section Joins

variable {α : Type}

/-- Add a text behind a separator, unless it is the first. -/
def joinStep (sep seed s : List α) : List α := if seed = [] then s else seed ++ sep ++ s

theorem foldl_joinStep_cons (sep : List α) {seed : List α} (hs : seed ≠ []) (ls : List (List α)) :
    ls.foldl (joinStep sep) seed = sep.intercalate (seed :: ls) := by
  induction ls generalizing seed with
  | nil => simp
  | cons l ls ih =>
      have hne : seed ++ sep ++ l ≠ [] := by simp [hs]
      rw [List.foldl_cons, joinStep, if_neg hs, ih hne]
      cases ls with
      | nil => simp [List.intercalate_cons_of_ne_nil]
      | cons l' ls => simp [List.intercalate_cons_of_ne_nil]

/-- Texts that are not empty are joined. -/
theorem foldl_joinStep (sep : List α) {ls : List (List α)} (h : ∀ l ∈ ls, l ≠ []) :
    ls.foldl (joinStep sep) [] = sep.intercalate ls := by
  cases ls with
  | nil => rfl
  | cons l ls =>
      rw [List.foldl_cons, joinStep, if_pos rfl]
      exact foldl_joinStep_cons sep (h l (List.mem_cons_self ..)) ls

theorem notMem_foldl_joinStep {a : α} {sep seed : List α} {ls : List (List α)} (hsep : a ∉ sep)
    (hseed : a ∉ seed) (h : ∀ l ∈ ls, a ∉ l) : a ∉ ls.foldl (joinStep sep) seed := by
  induction ls generalizing seed with
  | nil => exact hseed
  | cons l ls ih =>
      have hl := h l (List.mem_cons_self ..)
      refine ih ?_ fun l' hl' => h l' (List.mem_cons_of_mem _ hl')
      unfold joinStep
      split
      · exact hl
      · exact fun hmem => (List.mem_append.mp hmem).elim
          (fun hmem => (List.mem_append.mp hmem).elim hseed hsep) hl

theorem append_cons_inj {a : α} {l l' s s' : List α} (hl : a ∉ l) (hl' : a ∉ l')
    (h : l ++ a :: s = l' ++ a :: s') : l = l' ∧ s = s' := by
  induction l generalizing l' with
  | nil =>
      cases l' with
      | nil => exact ⟨rfl, (List.cons.inj h).2⟩
      | cons b l' => exact absurd (List.mem_cons.mpr (Or.inl (List.cons.inj h).1)) hl'
  | cons b l ih =>
      cases l' with
      | nil => exact absurd (List.mem_cons.mpr (Or.inl (List.cons.inj h).1.symm)) hl
      | cons b' l' =>
          obtain ⟨rfl, hrest⟩ := List.cons.inj h
          obtain ⟨rfl, rfl⟩ := ih (fun hmem => hl (List.mem_cons_of_mem _ hmem))
            (fun hmem => hl' (List.mem_cons_of_mem _ hmem)) hrest
          exact ⟨rfl, rfl⟩

/-- Texts without the separator are found again. -/
theorem intercalate_inj {a : α} {sep : List α} {l l' : List α} {ls ls' : List (List α)}
    (h : ∀ x ∈ l :: ls, a ∉ x) (h' : ∀ x ∈ l' :: ls', a ∉ x)
    (heq : (a :: sep).intercalate (l :: ls) = (a :: sep).intercalate (l' :: ls')) :
    l :: ls = l' :: ls' := by
  have hl := h l (List.mem_cons_self ..)
  have hl' := h' l' (List.mem_cons_self ..)
  induction ls generalizing l l' ls' with
  | nil =>
      cases ls' with
      | nil => simpa using heq
      | cons x xs =>
          rw [List.intercalate_singleton, List.intercalate_cons_cons] at heq
          exact absurd (heq ▸ by simp) hl
  | cons x xs ih =>
      cases ls' with
      | nil =>
          rw [List.intercalate_singleton, List.intercalate_cons_cons] at heq
          exact absurd (heq.symm ▸ by simp) hl'
      | cons x' xs' =>
          rw [List.intercalate_cons_cons, List.intercalate_cons_cons, List.append_assoc,
            List.append_assoc] at heq
          obtain ⟨rfl, hrest⟩ := append_cons_inj hl hl' heq
          have hx := fun y hy => h y (List.mem_cons_of_mem _ hy)
          have hx' := fun y hy => h' y (List.mem_cons_of_mem _ hy)
          rw [ih hx hx' (List.append_cancel_left hrest) (hx x (List.mem_cons_self ..))
            (hx' x' (List.mem_cons_self ..))]

/-- **A join is taken apart** when no text is empty or holds the first character of the separator. -/
theorem foldl_joinStep_inj {a : α} {sep : List α} {ls ls' : List (List α)}
    (h : ∀ l ∈ ls, l ≠ [] ∧ a ∉ l) (h' : ∀ l ∈ ls', l ≠ [] ∧ a ∉ l)
    (heq : ls.foldl (joinStep (a :: sep)) [] = ls'.foldl (joinStep (a :: sep)) []) : ls = ls' := by
  rw [foldl_joinStep _ fun l hl => (h l hl).1, foldl_joinStep _ fun l hl => (h' l hl).1] at heq
  have hne : ∀ {l : List α} {xs : List (List α)}, l ≠ [] → (a :: sep).intercalate (l :: xs) ≠ [] := by
    intro l xs hl
    cases xs with
    | nil => simpa using hl
    | cons x xs => simp [List.intercalate_cons_cons]
  cases ls with
  | nil =>
      cases ls' with
      | nil => rfl
      | cons l' ls' => exact absurd heq.symm (hne (h' l' (List.mem_cons_self ..)).1)
  | cons l ls =>
      cases ls' with
      | nil => exact absurd heq (hne (h l (List.mem_cons_self ..)).1)
      | cons l' ls' =>
          exact intercalate_inj (fun x hx => (h x hx).2) (fun x hx => (h' x hx).2) heq

end Joins

/-! ## Views -/

section Views

variable {α β γ δ : Type}

theorem map_eq_map_of_iff {f : α → γ} {f' : β → γ} {g : α → δ} {g' : β → δ} {l : List α}
    {l' : List β} (h : ∀ a ∈ l, ∀ b ∈ l', f a = f' b ↔ g a = g' b) :
    l.map f = l'.map f' ↔ l.map g = l'.map g' := by
  induction l generalizing l' with
  | nil => cases l' <;> simp
  | cons a l ih =>
      cases l' with
      | nil => simp
      | cons b l' =>
          have hhead := h a (List.mem_cons_self ..) b (List.mem_cons_self ..)
          have htail := ih fun c hc d hd =>
            h c (List.mem_cons_of_mem _ hc) d (List.mem_cons_of_mem _ hd)
          simp only [List.map_cons, List.cons.injEq, hhead, htail]

theorem map_some_filterMap {f : α → Option β} {l : List α}
    (h : ∀ a ∈ l, (f a).isSome) : (l.filterMap f).map some = l.map f := by
  induction l with
  | nil => rfl
  | cons a l ih =>
      obtain ⟨b, hb⟩ := Option.isSome_iff_exists.mp (h a (List.mem_cons_self ..))
      rw [List.filterMap_cons_some hb, List.map_cons, List.map_cons, hb,
        ih fun c hc => h c (List.mem_cons_of_mem _ hc)]

end Views
