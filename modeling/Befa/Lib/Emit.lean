import Mathlib.Data.List.Basic
import Mathlib.Data.List.Forall2

/-!
# Steps that emit and may raise

A loop with effects reads its inputs one by one, carries a state, emits outputs and may raise,
which ends it.  `Emitted` is what one step or a whole loop leaves: the state, the outputs in
order and the reason it raised, if it did.  What was emitted before a raise stays emitted.
`emitAll` is the loop.

*Composition.*  `emitAll_append` splits a loop over a concatenation, `emitAll_filterMap` drops
the inputs a step ignores, `emitAll_mapOut` changes the outputs.

*Visits.*  `visits` lists the steps a loop takes, up to and including the one that raises.
The outputs of the loop are the outputs of its visits (`emitAll_out`), and it raises when one
of them does (`emitAll_raised`).

*Undefined steps.*  `emitDefined` is the loop of a step that may have no result.  It is the loop of
`emitAll` as long as every visited step has one (`emitDefined_eq`).

*Rules.*  `emitAll_history` carries an invariant to the end of a loop, and `emitAll_simulates` runs
two loops side by side.
-/

/-- What a step, or a loop of steps, leaves. -/
structure Emitted (σ ω ε : Type) where
  /-- The state at the end, or where it raised. -/
  state : σ
  /-- The outputs, in order. -/
  out : List ω
  /-- Why it raised, if it did. -/
  raised : Option ε
deriving DecidableEq

namespace Emitted

variable {σ ω ε : Type}

/-- Go on from the state, unless the first part raised. -/
def andThen (r : Emitted σ ω ε) (k : σ → Emitted σ ω ε) : Emitted σ ω ε :=
  match r.raised with
  | some _ => r
  | none => ⟨(k r.state).state, r.out ++ (k r.state).out, (k r.state).raised⟩

theorem andThen_of_none {r : Emitted σ ω ε} (h : r.raised = none) (k : σ → Emitted σ ω ε) :
    r.andThen k = ⟨(k r.state).state, r.out ++ (k r.state).out, (k r.state).raised⟩ := by
  simp [andThen, h]

theorem andThen_of_some {r : Emitted σ ω ε} {e : ε} (h : r.raised = some e)
    (k : σ → Emitted σ ω ε) : r.andThen k = r := by
  simp [andThen, h]

theorem silent_andThen (s : σ) (k : σ → Emitted σ ω ε) :
    (⟨s, [], none⟩ : Emitted σ ω ε).andThen k = k s := by
  simp [andThen]

theorem andThen_silent (r : Emitted σ ω ε) : r.andThen (fun s => ⟨s, [], none⟩) = r := by
  obtain ⟨s, out, raised⟩ := r
  cases raised with
  | some e => exact andThen_of_some rfl _
  | none => rw [andThen_of_none rfl, List.append_nil]

theorem andThen_assoc (r : Emitted σ ω ε) (k l : σ → Emitted σ ω ε) :
    (r.andThen k).andThen l = r.andThen fun s => (k s).andThen l := by
  cases h : r.raised with
  | some e => simp [andThen_of_some h]
  | none =>
      cases hk : (k r.state).raised with
      | some e => simp [andThen, h, hk]
      | none => simp [andThen, h, hk]

/-- The same step with other outputs. -/
def mapOut {υ : Type} (g : ω → υ) (r : Emitted σ ω ε) : Emitted σ υ ε :=
  ⟨r.state, r.out.map g, r.raised⟩

/-- A step whose outputs carry what there is of the state when they are emitted. -/
def stamp {τ : Type} (g : σ → τ) (r : Emitted σ ω ε) : Emitted σ (ω × τ) ε :=
  r.mapOut fun o => (o, g r.state)

theorem mapOut_stamp {τ : Type} (g : σ → τ) (r : Emitted σ ω ε) :
    (r.stamp g).mapOut Prod.fst = r := by
  obtain ⟨s, out, raised⟩ := r
  simp [stamp, mapOut, Function.comp_def]

theorem mapOut_andThen {υ : Type} (g : ω → υ) (r : Emitted σ ω ε) (k : σ → Emitted σ ω ε) :
    (r.andThen k).mapOut g = (r.mapOut g).andThen fun s => (k s).mapOut g := by
  obtain ⟨s, out, raised⟩ := r
  cases raised with
  | some e => rfl
  | none => simp [andThen, mapOut]

end Emitted

section Loop

variable {α β σ τ ω υ ε : Type}

/-- The loop of a step over its inputs. -/
def emitAll (step : α → σ → Emitted σ ω ε) : List α → σ → Emitted σ ω ε
  | [], s => ⟨s, [], none⟩
  | a :: as, s => (step a s).andThen (emitAll step as)

@[simp] theorem emitAll_nil (step : α → σ → Emitted σ ω ε) (s : σ) :
    emitAll step [] s = ⟨s, [], none⟩ := rfl

theorem emitAll_cons (step : α → σ → Emitted σ ω ε) (a : α) (as : List α) (s : σ) :
    emitAll step (a :: as) s = (step a s).andThen (emitAll step as) := rfl

theorem emitAll_append (step : α → σ → Emitted σ ω ε) (xs ys : List α) (s : σ) :
    emitAll step (xs ++ ys) s = (emitAll step xs s).andThen (emitAll step ys) := by
  induction xs generalizing s with
  | nil => simp [Emitted.andThen]
  | cons x xs ih =>
      rw [List.cons_append, emitAll_cons, emitAll_cons, Emitted.andThen_assoc]
      exact congrArg _ (funext ih)

/-- A loop whose step ignores the inputs `f` drops, and does `step` on the others. -/
theorem emitAll_filterMap {f : α → Option β} {skip : α → σ → Emitted σ ω ε}
    {step : β → σ → Emitted σ ω ε} (hn : ∀ a s, f a = none → skip a s = ⟨s, [], none⟩)
    (hs : ∀ a b s, f a = some b → skip a s = step b s) (xs : List α) (s : σ) :
    emitAll skip xs s = emitAll step (xs.filterMap f) s := by
  induction xs generalizing s with
  | nil => rfl
  | cons x xs ih =>
      cases hx : f x with
      | none =>
          rw [emitAll_cons, hn x s hx, List.filterMap_cons_none hx, ← ih s,
            Emitted.andThen_of_none rfl]
          simp
      | some b =>
          rw [emitAll_cons, hs x b s hx, List.filterMap_cons_some hx, emitAll_cons]
          exact congrArg _ (funext ih)

/-- A loop with other outputs is the loop of the step with other outputs. -/
theorem emitAll_mapOut (g : ω → υ) (step : α → σ → Emitted σ ω ε) (xs : List α) (s : σ) :
    (emitAll step xs s).mapOut g = emitAll (fun a t => (step a t).mapOut g) xs s := by
  induction xs generalizing s with
  | nil => rfl
  | cons x xs ih =>
      rw [emitAll_cons, emitAll_cons, Emitted.mapOut_andThen]
      exact congrArg _ (funext ih)

/-- Loops over inputs that are handled alike. -/
theorem emitAll_congr {step : α → σ → Emitted σ ω ε} {step' : β → σ → Emitted σ ω ε}
    {xs : List α} {ys : List β} (h : List.Forall₂ (fun a b => step a = step' b) xs ys) (s : σ) :
    emitAll step xs s = emitAll step' ys s := by
  induction h generalizing s with
  | nil => rfl
  | cons hx _ ih =>
      rw [emitAll_cons, emitAll_cons, hx]
      exact congrArg _ (funext ih)

/-! ## Visits -/

/-- One step a loop takes. -/
structure Visit (α σ ω ε : Type) where
  input : α
  /-- The state it starts from. -/
  before : σ
  /-- What it leaves. -/
  result : Emitted σ ω ε

/-- The steps a loop takes, the raising one last. -/
def visits (step : α → σ → Emitted σ ω ε) : List α → σ → List (Visit α σ ω ε)
  | [], _ => []
  | a :: as, s =>
      ⟨a, s, step a s⟩ ::
        (match (step a s).raised with
          | some _ => []
          | none => visits step as (step a s).state)

theorem visits_cons_of_none {step : α → σ → Emitted σ ω ε} {a : α} {s : σ}
    (h : (step a s).raised = none) (as : List α) :
    visits step (a :: as) s = ⟨a, s, step a s⟩ :: visits step as (step a s).state := by
  simp [visits, h]

theorem visits_cons_of_some {step : α → σ → Emitted σ ω ε} {a : α} {s : σ} {e : ε}
    (h : (step a s).raised = some e) (as : List α) :
    visits step (a :: as) s = [⟨a, s, step a s⟩] := by
  simp [visits, h]

theorem emitAll_out (step : α → σ → Emitted σ ω ε) (xs : List α) (s : σ) :
    (emitAll step xs s).out = (visits step xs s).flatMap (·.result.out) := by
  induction xs generalizing s with
  | nil => rfl
  | cons x xs ih =>
      cases h : (step x s).raised with
      | some e => simp [emitAll_cons, Emitted.andThen_of_some h, visits_cons_of_some h]
      | none => simp [emitAll_cons, Emitted.andThen_of_none h, visits_cons_of_none h, ih]

theorem emitAll_raised (step : α → σ → Emitted σ ω ε) (xs : List α) (s : σ) :
    (emitAll step xs s).raised = none ↔ ∀ v ∈ visits step xs s, v.result.raised = none := by
  induction xs generalizing s with
  | nil => simp [visits]
  | cons x xs ih =>
      cases h : (step x s).raised with
      | some e => simp [emitAll_cons, Emitted.andThen_of_some h, visits_cons_of_some h, h]
      | none => simp [emitAll_cons, Emitted.andThen_of_none h, visits_cons_of_none h, h, ih]

/-- A loop that does not raise visits every input. -/
theorem visits_input {step : α → σ → Emitted σ ω ε} {xs : List α} {s : σ}
    (hr : (emitAll step xs s).raised = none) : (visits step xs s).map (·.input) = xs := by
  induction xs generalizing s with
  | nil => rfl
  | cons x xs ih =>
      cases h : (step x s).raised with
      | some e => simp [emitAll_cons, Emitted.andThen_of_some h, h] at hr
      | none =>
          rw [emitAll_cons, Emitted.andThen_of_none h] at hr
          simp [visits_cons_of_none h, ih hr]

/-- The visited inputs are a prefix of the inputs. -/
theorem visited_inputs (step : α → σ → Emitted σ ω ε) (xs : List α) (s : σ) :
    (visits step xs s).map (·.input) <+: xs := by
  induction xs generalizing s with
  | nil => exact List.nil_prefix
  | cons x xs ih =>
      cases h : (step x s).raised with
      | some e => simp [visits_cons_of_some h]
      | none =>
          rw [visits_cons_of_none h, List.map_cons]
          exact (List.prefix_cons_inj x).mpr (ih _)

theorem visit_input_mem {step : α → σ → Emitted σ ω ε} {xs : List α} {s : σ}
    {v : Visit α σ ω ε} (hv : v ∈ visits step xs s) : v.input ∈ xs :=
  (visited_inputs step xs s).subset (List.mem_map_of_mem hv)

theorem visit_result {step : α → σ → Emitted σ ω ε} {xs : List α} {s : σ} {v : Visit α σ ω ε}
    (hv : v ∈ visits step xs s) : v.result = step v.input v.before := by
  induction xs generalizing s with
  | nil => cases hv
  | cons x xs ih =>
      cases h : (step x s).raised with
      | some e =>
          rw [visits_cons_of_some h, List.mem_singleton] at hv
          subst hv; rfl
      | none =>
          rw [visits_cons_of_none h] at hv
          cases List.mem_cons.mp hv with
          | inl he => subst he; rfl
          | inr hm => exact ih hm

/-- An invariant that steps keep holds in front of every visit. -/
theorem visit_before {step : α → σ → Emitted σ ω ε} {I : σ → Prop}
    (hstep : ∀ a t, I t → I (step a t).state) {xs : List α} {s : σ} (hI : I s)
    {v : Visit α σ ω ε} (hv : v ∈ visits step xs s) : I v.before := by
  induction xs generalizing s with
  | nil => cases hv
  | cons x xs ih =>
      cases h : (step x s).raised with
      | some e =>
          rw [visits_cons_of_some h, List.mem_singleton] at hv
          subst hv
          exact hI
      | none =>
          rw [visits_cons_of_none h] at hv
          rcases List.mem_cons.mp hv with rfl | hv
          · exact hI
          · exact ih (hstep x s hI) hv

theorem visits_append {step : α → σ → Emitted σ ω ε} {xs : List α} (ys : List α) {s : σ}
    (hr : (emitAll step xs s).raised = none) :
    visits step (xs ++ ys) s = visits step xs s ++ visits step ys (emitAll step xs s).state := by
  induction xs generalizing s with
  | nil => rfl
  | cons x xs ih =>
      cases h : (step x s).raised with
      | some e => simp [emitAll_cons, Emitted.andThen_of_some h, h] at hr
      | none =>
          rw [emitAll_cons, Emitted.andThen_of_none h] at hr ⊢
          rw [List.cons_append, visits_cons_of_none h, visits_cons_of_none h, ih hr,
            List.cons_append]

/-- A loop that does not raise visits each input in the state its first part leaves. -/
theorem visit_of_append {step : α → σ → Emitted σ ω ε} {xs ys : List α} {a : α} {s : σ}
    (h : (emitAll step (xs ++ a :: ys) s).raised = none) :
    ⟨a, (emitAll step xs s).state, step a (emitAll step xs s).state⟩ ∈
      visits step (xs ++ a :: ys) s := by
  have hx : (emitAll step xs s).raised = none := by
    cases hx : (emitAll step xs s).raised with
    | none => rfl
    | some e => rw [emitAll_append, Emitted.andThen_of_some hx, hx] at h; cases h
  rw [visits_append _ hx]
  exact List.mem_append_right _ (List.mem_cons_self ..)

/-! ## Undefined steps -/

/-- The loop of a step that may have no result.  Then the loop has none. -/
def emitDefined (step : α → σ → Option (Emitted σ ω ε)) : List α → σ → Option (Emitted σ ω ε)
  | [], s => some ⟨s, [], none⟩
  | a :: as, s =>
      (step a s).bind fun r =>
        match r.raised with
        | some _ => some r
        | none => (emitDefined step as r.state).map fun q => ⟨q.state, r.out ++ q.out, q.raised⟩

theorem emitDefined_cons_of_none {step : α → σ → Option (Emitted σ ω ε)} {a : α} {s : σ}
    (h : step a s = none) (as : List α) : emitDefined step (a :: as) s = none := by
  rw [emitDefined, h, Option.bind_none]

theorem emitDefined_cons_of_some {step : α → σ → Option (Emitted σ ω ε)} {a : α} {s : σ}
    {r : Emitted σ ω ε} (h : step a s = some r) {e : ε} (he : r.raised = some e) (as : List α) :
    emitDefined step (a :: as) s = some r := by
  rw [emitDefined, h, Option.bind_some, he]

theorem emitDefined_cons_of_next {step : α → σ → Option (Emitted σ ω ε)} {a : α} {s : σ}
    {r : Emitted σ ω ε} (h : step a s = some r) (hn : r.raised = none) (as : List α) :
    emitDefined step (a :: as) s =
      (emitDefined step as r.state).map fun q => ⟨q.state, r.out ++ q.out, q.raised⟩ := by
  rw [emitDefined, h, Option.bind_some, hn]

/-- A loop whose step ignores the inputs `f` drops, and does `step` on the others. -/
theorem emitDefined_filterMap {f : α → Option β} {skip : α → σ → Option (Emitted σ ω ε)}
    {step : β → σ → Option (Emitted σ ω ε)}
    (hn : ∀ a s, f a = none → skip a s = some ⟨s, [], none⟩)
    (hs : ∀ a b s, f a = some b → skip a s = step b s) (xs : List α) (s : σ) :
    emitDefined skip xs s = emitDefined step (xs.filterMap f) s := by
  induction xs generalizing s with
  | nil => rfl
  | cons x xs ih =>
      cases hx : f x with
      | none =>
          rw [emitDefined_cons_of_next (hn x s hx) rfl, List.filterMap_cons_none hx, ih]
          exact congrFun Option.map_id _
      | some b =>
          rw [emitDefined, hs x b s hx, List.filterMap_cons_some hx, emitDefined]
          simp only [ih]

/-- The loop has a result when every visited step has one. -/
theorem emitDefined_eq {P : α → Prop} [DecidablePred P] {step : α → σ → Emitted σ ω ε}
    {defined : α → σ → Option (Emitted σ ω ε)}
    (h : ∀ a s, defined a s = if P a then some (step a s) else none) (xs : List α) (s : σ) :
    emitDefined defined xs s =
      if ∀ v ∈ visits step xs s, P v.input then some (emitAll step xs s) else none := by
  induction xs generalizing s with
  | nil => exact (if_pos fun v hv => absurd hv List.not_mem_nil).symm
  | cons x xs ih =>
      have hx := h x s
      by_cases hP : P x
      · rw [if_pos hP] at hx
        cases hr : (step x s).raised with
        | some e =>
            rw [emitDefined_cons_of_some hx hr, visits_cons_of_some hr, emitAll_cons,
              Emitted.andThen_of_some hr]
            exact (if_pos fun v hv => by rw [List.mem_singleton.mp hv]; exact hP).symm
        | none =>
            rw [emitDefined_cons_of_next hx hr, visits_cons_of_none hr, emitAll_cons,
              Emitted.andThen_of_none hr, ih, if_congr List.forall_mem_cons rfl rfl,
              if_congr (and_iff_right hP) rfl rfl]
            split <;> rfl
      · rw [if_neg hP] at hx
        have hfirst : ⟨x, s, step x s⟩ ∈ visits step (x :: xs) s := List.mem_cons_self ..
        rw [emitDefined_cons_of_none hx, if_neg fun hall => hP (hall _ hfirst)]

/-! ## Rules for whole loops -/

/-- An invariant of the state and what was emitted so far, also when a step raises. -/
theorem emitAll_history {step : α → σ → Emitted σ ω ε} {I : List ω → σ → Prop} {xs : List α}
    {o : List ω} {s : σ}
    (hstep : ∀ a ∈ xs, ∀ o t, I o t → I (o ++ (step a t).out) (step a t).state)
    (hI : I o s) : I (o ++ (emitAll step xs s).out) (emitAll step xs s).state := by
  induction xs generalizing o s with
  | nil => simpa using hI
  | cons x xs ih =>
      have hx := hstep x (List.mem_cons_self ..) o s hI
      cases h : (step x s).raised with
      | some e => rwa [emitAll_cons, Emitted.andThen_of_some h]
      | none =>
          rw [emitAll_cons, Emitted.andThen_of_none h, ← List.append_assoc]
          exact ih (fun a ha => hstep a (List.mem_cons_of_mem _ ha)) hx

/-- An invariant that steps keep holds at the end, also when a step raises. -/
theorem emitAll_invariant {step : α → σ → Emitted σ ω ε} {I : σ → Prop} {xs : List α} {s : σ}
    (hstep : ∀ a ∈ xs, ∀ t, I t → I (step a t).state) (hI : I s) :
    I (emitAll step xs s).state :=
  emitAll_history (I := fun _ t => I t) (o := []) (fun a ha _ t => hstep a ha t) hI

/-- A loop simulates another one, over inputs that correspond, when the steps keep the states and
the outputs so far related and raise together. -/
theorem emitAll_simulates {f : α → β} {step : α → σ → Emitted σ ω ε}
    {step' : β → τ → Emitted τ υ ε} {R : List ω → List υ → σ → τ → Prop} (xs : List α)
    {o : List ω} {p : List υ} {s : σ} {t : τ}
    (hstep : ∀ a ∈ xs, ∀ o p s t, R o p s t → (step a s).raised = (step' (f a) t).raised ∧
      R (o ++ (step a s).out) (p ++ (step' (f a) t).out) (step a s).state (step' (f a) t).state)
    (hR : R o p s t) :
    (emitAll step xs s).raised = (emitAll step' (xs.map f) t).raised ∧
      R (o ++ (emitAll step xs s).out) (p ++ (emitAll step' (xs.map f) t).out)
        (emitAll step xs s).state (emitAll step' (xs.map f) t).state := by
  induction xs generalizing o p s t with
  | nil => exact ⟨rfl, by simpa using hR⟩
  | cons x xs ih =>
      obtain ⟨hr, hR'⟩ := hstep x (List.mem_cons_self ..) o p s t hR
      rw [List.map_cons]
      cases h : (step x s).raised with
      | some e =>
          rw [emitAll_cons, emitAll_cons, Emitted.andThen_of_some h,
            Emitted.andThen_of_some (hr ▸ h)]
          exact ⟨hr, hR'⟩
      | none =>
          rw [emitAll_cons, emitAll_cons, Emitted.andThen_of_none h,
            Emitted.andThen_of_none (hr ▸ h), ← List.append_assoc, ← List.append_assoc]
          exact ih (fun a ha => hstep a (List.mem_cons_of_mem _ ha)) hR'

/-- Two loops whose steps keep their states related emit related outputs. -/
theorem emitAll_rel {step : α → σ → Emitted σ ω ε} {step' : α → τ → Emitted τ υ ε}
    {R : σ → τ → Prop} {P : ω → υ → Prop}
    (hstep : ∀ a s t, R s t → (step a s).raised = (step' a t).raised ∧
      R (step a s).state (step' a t).state ∧ List.Forall₂ P (step a s).out (step' a t).out)
    (xs : List α) {s : σ} {t : τ} (hR : R s t) :
    (emitAll step xs s).raised = (emitAll step' xs t).raised ∧
      R (emitAll step xs s).state (emitAll step' xs t).state ∧
      List.Forall₂ P (emitAll step xs s).out (emitAll step' xs t).out := by
  have hpair : ∀ a ∈ xs, ∀ (o : List ω) (p : List υ) s t, R s t ∧ List.Forall₂ P o p →
      (step a s).raised = (step' (id a) t).raised ∧ R (step a s).state (step' (id a) t).state ∧
        List.Forall₂ P (o ++ (step a s).out) (p ++ (step' (id a) t).out) := by
    intro a _ o p s t ⟨hs, hP⟩
    obtain ⟨hr, hR', hP'⟩ := hstep a s t hs
    exact ⟨hr, hR', List.rel_append hP hP'⟩
  have h := emitAll_simulates (R := fun o p s t => R s t ∧ List.Forall₂ P o p) xs hpair
    ⟨hR, List.Forall₂.nil⟩
  rwa [List.map_id] at h

end Loop
