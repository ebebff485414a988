import Mathlib.Data.List.Pairwise
import Mathlib.Data.List.Sort

/-!
# Grouping a list by a key

A loop reads a list and keeps a buffer of groups, each with a key.  An element whose key is that of
a group is added to the group, and any other element opens a group.

`Grouped` says what the buffer is behind a list: one group for each key of the list, with the
elements of that key in order.  `Grouped.snoc` and `Grouped.update` are the two steps.  So the
groups together hold the elements of the list, each as often as it occurs (`Grouped.perm`).

`firstsBy` lists the elements that open a group.
-/

section Update

variable {β γ : Type} {p : β → Bool} {f : β → β} {bs bs' : List β}

/-- Change the first element that fits. -/
def updateFirst (p : β → Bool) (f : β → β) : List β → Option (List β)
  | [] => none
  | b :: bs => if p b then some (f b :: bs) else (updateFirst p f bs).map (b :: ·)

theorem updateFirst_eq_none (h : updateFirst p f bs = none) : ∀ b ∈ bs, p b = false := by
  induction bs with
  | nil => exact fun b hb => absurd hb List.not_mem_nil
  | cons b bs ih =>
      intro c hc
      rw [updateFirst] at h
      split at h
      next => cases h
      next hb =>
        rcases List.mem_cons.mp hc with rfl | hc
        · simpa using hb
        · exact ih (Option.map_eq_none_iff.mp h) c hc

theorem updateFirst_eq_some (h : updateFirst p f bs = some bs') :
    ∃ pre b post, bs = pre ++ b :: post ∧ bs' = pre ++ f b :: post ∧ p b = true := by
  induction bs generalizing bs' with
  | nil => cases h
  | cons b bs ih =>
      rw [updateFirst] at h
      split at h
      next hb => exact ⟨[], b, bs, rfl, (Option.some.inj h).symm, hb⟩
      next =>
        obtain ⟨rest, hrest, rfl⟩ := Option.map_eq_some_iff.mp h
        obtain ⟨pre, c, post, rfl, rfl, hc⟩ := ih hrest
        exact ⟨b :: pre, c, post, rfl, rfl, hc⟩

/-- A change is seen through a map that keeps what is asked and what is done. -/
theorem map_updateFirst {g : β → γ} {q : γ → Bool} {k : γ → γ} (hp : ∀ b, q (g b) = p b)
    (hf : ∀ b, g (f b) = k (g b)) :
    (updateFirst p f bs).map (List.map g) = updateFirst q k (bs.map g) := by
  induction bs with
  | nil => rfl
  | cons b bs ih =>
      rw [updateFirst, List.map_cons, updateFirst, hp, ← ih]
      split
      · rw [Option.map_some, List.map_cons, hf]
      · rw [Option.map_map, Option.map_map]
        rfl

end Update

section Groups

variable {α β κ : Type} [DecidableEq κ] {key : α → κ} {keyOf : β → κ} {members : β → List α}
  {l : List α} {bs : List β}

/-- The groups have different keys, hold the elements of their keys in order, and cover the list. -/
structure Grouped (key : α → κ) (keyOf : β → κ) (members : β → List α) (l : List α)
    (bs : List β) : Prop where
  /-- No key twice. -/
  distinct : bs.Pairwise fun b c => keyOf b ≠ keyOf c
  /-- The members are the elements of the key, in order. -/
  members : ∀ b ∈ bs, members b = l.filter fun a => key a = keyOf b
  /-- Every key is there. -/
  covers : ∀ a ∈ l, ∃ b ∈ bs, keyOf b = key a

namespace Grouped

theorem nil : Grouped key keyOf members [] [] := ⟨.nil, by simp, by simp⟩

/-- An element of a new key opens a group. -/
theorem snoc (h : Grouped key keyOf members l bs) {a : α} {b : β}
    (hnew : ∀ c ∈ bs, keyOf c ≠ key a) (hkey : keyOf b = key a) (hone : members b = [a]) :
    Grouped key keyOf members (l ++ [a]) (bs ++ [b]) := by
  have hfresh : ∀ x ∈ l, ¬key x = key a := by
    intro x hx
    obtain ⟨c, hc, he⟩ := h.covers x hx
    exact he ▸ hnew c hc
  refine ⟨?_, ?_, ?_⟩
  · refine List.pairwise_append.mpr ⟨h.distinct, List.pairwise_singleton .., ?_⟩
    intro c hc d hd
    rw [List.mem_singleton.mp hd, hkey]
    exact hnew c hc
  · intro c hc
    rcases List.mem_append.mp hc with hc | hc
    · rw [h.members c hc, List.filter_append]
      simp [Ne.symm (hnew c hc)]
    · rw [List.mem_singleton.mp hc, hone, hkey, List.filter_append]
      simpa using hfresh
  · intro x hx
    rcases List.mem_append.mp hx with hx | hx
    · obtain ⟨c, hc, he⟩ := h.covers x hx
      exact ⟨c, List.mem_append_left _ hc, he⟩
    · exact ⟨b, by simp, by rw [hkey, List.mem_singleton.mp hx]⟩

/-- An element of a key that is there is added to its group. -/
theorem update {pre post : List β} {b b' : β} (h : Grouped key keyOf members l (pre ++ b :: post))
    {a : α} (hb : keyOf b = key a) (hkey : keyOf b' = keyOf b)
    (hmore : members b' = members b ++ [a]) :
    Grouped key keyOf members (l ++ [a]) (pre ++ b' :: post) := by
  have hd := List.pairwise_append.mp h.distinct
  have hd' := List.pairwise_cons.mp hd.2.1
  -- the other groups keep their keys, which are not this one
  have hmem : ∀ c ∈ pre ++ b' :: post, c = b' ∨ (c ∈ pre ++ b :: post ∧ keyOf c ≠ keyOf b) := by
    intro c hc
    rcases List.mem_append.mp hc with hc | hc
    · exact Or.inr ⟨List.mem_append_left _ hc, hd.2.2 c hc b (List.mem_cons_self ..)⟩
    · rcases List.mem_cons.mp hc with rfl | hc
      · exact Or.inl rfl
      · exact Or.inr ⟨List.mem_append_right _ (List.mem_cons_of_mem _ hc), (hd'.1 c hc).symm⟩
  refine ⟨?_, ?_, ?_⟩
  · have hdistinct := h.distinct
    rw [List.pairwise_append, List.pairwise_cons] at hdistinct ⊢
    simpa [hkey] using hdistinct
  · intro c hc
    rcases hmem c hc with rfl | ⟨hc, hne⟩
    · rw [hmore, hkey, h.members b (by simp), List.filter_append]
      simp [hb]
    · rw [h.members c hc, List.filter_append]
      simp [← hb, hne.symm]
  · intro x hx
    have hcov : ∃ c ∈ pre ++ b :: post, keyOf c = key x := by
      rcases List.mem_append.mp hx with hx | hx
      · exact h.covers x hx
      · exact ⟨b, by simp, by rw [hb, List.mem_singleton.mp hx]⟩
    obtain ⟨c, hc, he⟩ := hcov
    rcases List.mem_append.mp hc with hc | hc
    · exact ⟨c, List.mem_append_left _ hc, he⟩
    · rcases List.mem_cons.mp hc with rfl | hc
      · exact ⟨b', by simp, hkey.trans he⟩
      · exact ⟨c, by simp [hc], he⟩

/-- The order of the groups does not matter. -/
theorem reorder {bs' : List β} (h : Grouped key keyOf members l bs) (hp : bs.Perm bs') :
    Grouped key keyOf members l bs' := by
  refine ⟨hp.pairwise h.distinct Ne.symm, fun b hb => h.members b (hp.mem_iff.mpr hb), ?_⟩
  intro a ha
  obtain ⟨b, hb, he⟩ := h.covers a ha
  exact ⟨b, hp.mem_iff.mp hb, he⟩

/-- An element is in one group only. -/
theorem unique (h : Grouped key keyOf members l bs) {a : α} {b c : β} (hb : b ∈ bs) (hc : c ∈ bs)
    (hab : a ∈ members b) (hac : a ∈ members c) : b = c := by
  rw [h.members b hb, List.mem_filter, decide_eq_true_eq] at hab
  rw [h.members c hc, List.mem_filter, decide_eq_true_eq] at hac
  have : Std.Symm fun b c => keyOf b ≠ keyOf c := ⟨fun _ _ => Ne.symm⟩
  by_contra hne
  exact h.distinct.forall hb hc hne (hab.2.symm.trans hac.2)

/-- The groups together hold the list. -/
theorem perm (h : Grouped key keyOf members l bs) : (bs.flatMap members).Perm l := by
  induction bs generalizing l with
  | nil =>
      have hnil : l = [] := List.eq_nil_iff_forall_not_mem.mpr fun a ha => by
        obtain ⟨b, hb, _⟩ := h.covers a ha
        cases hb
      rw [hnil]
      exact List.Perm.refl _
  | cons b bs ih =>
      have hd := List.pairwise_cons.mp h.distinct
      have hrest : Grouped key keyOf members (l.filter fun a => !decide (key a = keyOf b)) bs := by
        refine ⟨hd.2, fun c hc => ?_, fun a ha => ?_⟩
        · rw [h.members c (List.mem_cons_of_mem _ hc), List.filter_filter]
          refine List.filter_congr fun a _ => ?_
          by_cases ha : key a = keyOf c
          · simp [ha, (hd.1 c hc).symm]
          · simp [ha]
        · obtain ⟨ha, hne⟩ := List.mem_filter.mp ha
          obtain ⟨c, hc, he⟩ := h.covers a ha
          rcases List.mem_cons.mp hc with rfl | hc
          · simp [he] at hne
          · exact ⟨c, hc, he⟩
      rw [List.flatMap_cons, h.members b (List.mem_cons_self ..)]
      exact ((ih hrest).append_left _).trans (List.filter_append_perm _ _)

end Grouped

end Groups

/-- Elements of different keys sort into strictly increasing keys. -/
theorem List.pairwise_lt_insertionSort {β κ : Type} [LinearOrder κ] {keyOf : β → κ}
    [DecidableRel fun b c => keyOf b ≤ keyOf c] {bs : List β}
    (h : bs.Pairwise fun b c => keyOf b ≠ keyOf c) :
    (bs.insertionSort fun b c => keyOf b ≤ keyOf c).Pairwise fun b c => keyOf b < keyOf c := by
  have : Std.Total fun b c => keyOf b ≤ keyOf c := ⟨fun b c => le_total _ _⟩
  have : IsTrans β fun b c => keyOf b ≤ keyOf c := ⟨fun _ _ _ => le_trans⟩
  have hle := List.pairwise_insertionSort (fun b c => keyOf b ≤ keyOf c) bs
  have hne := (List.perm_insertionSort (fun b c => keyOf b ≤ keyOf c) bs).symm.pairwise h Ne.symm
  exact hle.imp₂ (fun b c => lt_of_le_of_ne) hne

section Firsts

variable {α κ : Type} [DecidableEq κ] {key : α → κ} {l : List α} {a : α}

/-- The elements whose key is that of no earlier element. -/
def firstsBy (key : α → κ) : List α → List α
  | [] => []
  | a :: l => a :: (firstsBy key l).filter fun b => key b ≠ key a

theorem exists_mem_firstsBy {k : κ} : (∃ b ∈ firstsBy key l, key b = k) ↔ ∃ b ∈ l, key b = k := by
  induction l with
  | nil => rfl
  | cons a l ih =>
      simp only [firstsBy, List.mem_cons, exists_eq_or_imp, List.mem_filter, decide_eq_true_eq]
      refine or_congr_right' fun hne => ?_
      rw [← ih]
      refine exists_congr fun b => and_congr_left fun hb => and_iff_left fun he => hne ?_
      rw [← he, hb]

/-- An element of a new key opens a group. -/
theorem firstsBy_snoc_of_new (h : ∀ b ∈ l, key b ≠ key a) :
    firstsBy key (l ++ [a]) = firstsBy key l ++ [a] := by
  induction l with
  | nil => rfl
  | cons b l ih =>
      have hb : key a ≠ key b := (h b (List.mem_cons_self ..)).symm
      rw [List.cons_append, firstsBy, firstsBy, ih fun c hc => h c (List.mem_cons_of_mem _ hc),
        List.filter_append]
      simp [hb]

/-- An element of an old key opens nothing. -/
theorem firstsBy_snoc_of_old (h : ∃ b ∈ l, key b = key a) :
    firstsBy key (l ++ [a]) = firstsBy key l := by
  induction l with
  | nil =>
      obtain ⟨b, hb, -⟩ := h
      cases hb
  | cons c l ih =>
      rw [List.cons_append, firstsBy, firstsBy]
      rcases Classical.em (∃ d ∈ l, key d = key a) with hl | hl
      · rw [ih hl]
      · have hnew : ∀ d ∈ l, key d ≠ key a := fun d hd he => hl ⟨d, hd, he⟩
        obtain ⟨b, hb, he⟩ := h
        obtain rfl : b = c := (List.mem_cons.mp hb).resolve_right fun hm => hnew b hm he
        rw [firstsBy_snoc_of_new hnew, List.filter_append]
        simp [he]

end Firsts
