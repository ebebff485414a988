import Befa.Assembly.PrintBuffer
import Befa.Lib.Emit

/-!
# The print buffer with its integers

`ffprintf` counts in naturals.  The source keeps the room of a piece and its printed length in
`int`s.  A format whose length does not fit becomes a negative room, and `resize` is asked for a
length that wraps around.  `ffprintfCall` is the function with its `int`s, its exceptions and the
number of passes of its loop.

`emitAll_ffprintfCall` says that calls that stay in range are `ffprintf`.  `printsAll_iff` says that
no other calls keep the buffer right.
-/

namespace Befa

/-- Why a call of `ffprintf` does not return. -/
inductive PrintFault where
  /-- `std::length_error`. -/
  | length
  /-- `vsnprintf` writes behind the buffer. -/
  | outside
  /-- An `int` overflows. -/
  | overflow
deriving DecidableEq

/-! ## The function -/

/-- `alloc + abs(printed - alloc + 1)`. -/
def regrow (printed alloc : Int) : Option Int := do
  let missing ← checkInt (printed - alloc)
  let missing ← checkInt (missing + 1)
  checkInt (alloc + |missing|)

theorem regrow_eq {printed alloc : Int} (h0 : 0 ≤ alloc) (h : alloc ≤ printed)
    (hmax : printed ≤ intMax) : regrow printed alloc = checkInt (printed + 1) := by
  rw [regrow, checkInt_of_le (by omega) (by omega), Option.bind_eq_bind, Option.bind_some]
  by_cases hfit : printed - alloc + 1 ≤ intMax
  · have habs : alloc + |printed - alloc + 1| = printed + 1 := by
      rw [abs_of_nonneg (by omega)]
      omega
    rw [checkInt_of_le (by omega) hfit, Option.bind_some, habs]
  · rw [checkInt_of_lt (not_le.mp hfit), checkInt_of_lt (by omega)]
    rfl

theorem regrow_lt {printed alloc grown : Int} (h : alloc ≤ printed)
    (hg : regrow printed alloc = some grown) : printed < grown := by
  rw [regrow] at hg
  simp only [Option.bind_eq_bind, Option.bind_eq_some_iff] at hg
  obtain ⟨missing, hm, missing', hm', hgrown⟩ := hg
  obtain rfl := checkInt_eq_some hm
  obtain rfl := checkInt_eq_some hm'
  obtain rfl := checkInt_eq_some hgrown
  rw [abs_of_nonneg (by omega)]
  omega

/-- The loop of `ffprintf`.  It gives the file and the number of passes. -/
def ffprintfPasses (f : Ffile) (alloc : Int) (output : Text) : Except PrintFault (Ffile × Nat) :=
  if alloc < 0 then
    -- the length of the buffer wraps around, or ends in front of the position
    .error (if f.pos + alloc < 0 then .length else .outside)
  else
    let f' : Ffile := { f with
      buffer := vsnprintf (resize (alloc.toNat + f.pos) f.buffer) f.pos alloc.toNat output }
    if _ : alloc ≤ output.length then
      match _ : regrow output.length alloc with
      | none => .error .overflow
      | some grown => (ffprintfPasses f' grown output).map fun r => (r.1, r.2 + 1)
    else .ok (f', 1)
termination_by (output.length + 1 - alloc).toNat
decreasing_by
  rename_i h hg
  have := regrow_lt h hg
  omega

/-- What a call leaves of the file, from what its loop gives. -/
def PrintCall.finish (call : PrintCall) (f : Ffile) :
    Except PrintFault (Ffile × Nat) → Emitted Ffile Nat PrintFault
  | .error fault => ⟨f, [], some fault⟩
  | .ok (f', passes) => ⟨{ f' with pos := f'.pos + call.output.length }, [passes], none⟩

/-- `ffprintf`.  It emits the number of passes. -/
def ffprintfCall (call : PrintCall) (f : Ffile) : Emitted Ffile Nat PrintFault :=
  call.finish f (ffprintfPasses f (asInt (UInt64.ofNat call.format.length)) call.output)

/-! ## Calls in range -/

section Range

variable {f : Ffile} {alloc : Int} {output : Text}

theorem ffprintfPasses_of_neg (h : alloc < 0) :
    ∃ fault, ffprintfPasses f alloc output = .error fault := by
  rw [ffprintfPasses, if_pos h]
  exact ⟨_, rfl⟩

theorem ffprintfPasses_of_overflow (h0 : 0 ≤ alloc) (h : alloc ≤ output.length)
    (hmax : (output.length : Int) = intMax) :
    ffprintfPasses f alloc output = .error .overflow := by
  have hnone : regrow output.length alloc = none := by
    rw [regrow_eq h0 h hmax.le, checkInt_of_lt (by omega)]
  rw [ffprintfPasses, if_neg (not_lt.mpr h0), dif_pos h]
  split
  next => rfl
  next hg => rw [hnone] at hg; cases hg

/-- A room that is enough takes one pass. -/
theorem ffprintfPasses_fits (h0 : 0 ≤ alloc) (h : (output.length : Int) < alloc) :
    ffprintfPasses f alloc output = .ok (ffprintfLoop f alloc.toNat output, 1) := by
  rw [ffprintfPasses, if_neg (not_lt.mpr h0), dif_neg (not_le.mpr h), ffprintfLoop,
    if_neg (by omega)]

/-- In range the loop is `ffprintfLoop`, in at most two passes. -/
theorem ffprintfPasses_eq (h0 : 0 ≤ alloc) (hmax : (output.length : Int) < intMax) :
    ∃ passes, passes ≤ 2 ∧
      ffprintfPasses f alloc output = .ok (ffprintfLoop f alloc.toNat output, passes) := by
  by_cases hfit : (output.length : Int) < alloc
  · exact ⟨1, by omega, ffprintfPasses_fits h0 hfit⟩
  · have h := not_lt.mp hfit
    have hgrown : regrow output.length alloc = some ((output.length : Int) + 1) := by
      rw [regrow_eq h0 h hmax.le, checkInt_of_le (by omega) (by omega)]
    refine ⟨2, le_refl _, ?_⟩
    rw [ffprintfPasses, if_neg (not_lt.mpr h0), dif_pos h, ffprintfLoop, if_pos (by omega)]
    split
    next hg => rw [hgrown] at hg; cases hg
    next grown hg =>
      obtain rfl := Option.some.inj (hgrown.symm.trans hg)
      have hroom : alloc.toNat + (output.length - alloc.toNat + 1) = output.length + 1 := by omega
      rw [ffprintfPasses_fits (by omega) (by omega), hroom]
      rfl

end Range

/-- What `vsnprintf` returns is an `int`. -/
def PrintCall.Succeeds (call : PrintCall) : Prop := (call.output.length : Int) ≤ intMax

/-- The length of the format is not negative as an `int`, and the length of the output is below the
largest `int`. -/
def PrintCall.InRange (call : PrintCall) : Prop :=
  0 ≤ asInt (UInt64.ofNat call.format.length) ∧ (call.output.length : Int) < intMax

instance (call : PrintCall) : Decidable call.Succeeds := inferInstanceAs (Decidable (_ ≤ _))

instance (call : PrintCall) : Decidable call.InRange := inferInstanceAs (Decidable (_ ∧ _))

/-- A call that returns was in range. -/
theorem inRange_of_raised {call : PrintCall} (hout : call.Succeeds) {f : Ffile}
    (h : (ffprintfCall call f).raised = none) : call.InRange := by
  have herror : ∀ fault, ffprintfPasses f (asInt (UInt64.ofNat call.format.length)) call.output ≠
      .error fault := by
    intro fault he
    rw [ffprintfCall, he] at h
    cases h
  have h0 : 0 ≤ asInt (UInt64.ofNat call.format.length) := by
    by_contra hneg
    obtain ⟨fault, he⟩ := ffprintfPasses_of_neg (not_le.mp hneg)
    exact herror fault he
  refine ⟨h0, lt_of_le_of_ne hout fun hmax => ?_⟩
  have hle : asInt (UInt64.ofNat call.format.length) ≤ call.output.length := by
    have := asInt_lt (UInt64.ofNat call.format.length)
    rw [hmax, intMax]
    omega
  exact herror _ (ffprintfPasses_of_overflow h0 hle hmax)

/-- The buffer is `text` and at least one null behind it. -/
structure Ffile.Padded (f : Ffile) (text : Text) : Prop where
  pos : f.pos = text.length
  buffer : ∃ n, f.buffer = text ++ List.replicate (n + 1) nul

theorem Ffile.Padded.holds {f : Ffile} {text : Text} (h : f.Padded text) : f.Holds text := by
  obtain ⟨hpos, n, hbuf⟩ := h
  exact ⟨hpos, n + 1, hbuf⟩

/-- A call in range appends its output, in at most two passes. -/
theorem ffprintfCall_padded {call : PrintCall} (h : call.InRange) {f : Ffile} {text : Text}
    (hf : f.Holds text) : ∃ g passes, ffprintfCall call f = ⟨g, [passes], none⟩ ∧ passes ≤ 2 ∧
      g.Padded (text ++ call.output) := by
  obtain ⟨passes, hle, hp⟩ := ffprintfPasses_eq (f := f) h.1 h.2
  obtain ⟨n, hloop⟩ := ffprintfLoop_eq hf (asInt (UInt64.ofNat call.format.length)).toNat
    call.output
  rw [ffprintfCall, hp, hloop]
  exact ⟨_, passes, rfl, hle, List.length_append.symm, n, rfl⟩

/-- A call with a short format is `ffprintf`. -/
theorem ffprintfCall_eq {call : PrintCall} (hfmt : call.format.length < 2147483648)
    (hout : (call.output.length : Int) < intMax) (f : Ffile) :
    ∃ passes, ffprintfCall call f = ⟨ffprintf f call, [passes], none⟩ := by
  have hlen : (UInt64.ofNat call.format.length).toNat = call.format.length := by
    rw [UInt64.toNat_ofNat']
    omega
  have halloc : asInt (UInt64.ofNat call.format.length) = call.format.length := by
    rw [asInt_of_lt (hlen.trans_lt hfmt), hlen]
  obtain ⟨passes, -, hp⟩ := ffprintfPasses_eq (f := f)
    (halloc ▸ Int.natCast_nonneg _ : 0 ≤ asInt (UInt64.ofNat call.format.length)) hout
  refine ⟨passes, ?_⟩
  rw [ffprintfCall, hp, PrintCall.finish, halloc, Int.toNat_natCast, ffprintf]

/-! ## A run of calls -/

/-- The calls after a reset of the file leave their outputs, and nulls. -/
structure PrintsAll (f : Ffile) (calls : List PrintCall) : Prop where
  returns : (emitAll ffprintfCall calls f.reset).raised = none
  /-- Every call ends after two passes at most. -/
  passes : List.Forall₂ (fun _ passes => passes ≤ 2) calls
    (emitAll ffprintfCall calls f.reset).out
  pos : (emitAll ffprintfCall calls f.reset).state.pos = (calls.flatMap (·.output)).length
  text : (emitAll ffprintfCall calls f.reset).state.buffer.take
    (emitAll ffprintfCall calls f.reset).state.pos = calls.flatMap (·.output)
  /-- There is a rest, and it is nulls. -/
  rest : (emitAll ffprintfCall calls f.reset).state.buffer.drop
    (emitAll ffprintfCall calls f.reset).state.pos ≠ []
  nulls : ∀ c ∈ (emitAll ffprintfCall calls f.reset).state.buffer.drop
    (emitAll ffprintfCall calls f.reset).state.pos, c = nul

/-- Calls in range append their outputs, in at most two passes each. -/
theorem emitAll_ffprintfCall_padded (calls : List PrintCall) (h : ∀ call ∈ calls, call.InRange)
    {f : Ffile} {text : Text} (hf : f.Padded text) :
    ∃ g passes, emitAll ffprintfCall calls f = ⟨g, passes, none⟩ ∧
      List.Forall₂ (fun _ passes => passes ≤ 2) calls passes ∧
      g.Padded (text ++ calls.flatMap (·.output)) := by
  induction calls generalizing f text with
  | nil => exact ⟨f, [], rfl, .nil, by simpa using hf⟩
  | cons call calls ih =>
      obtain ⟨hcall, hcalls⟩ := List.forall_mem_cons.mp h
      obtain ⟨g₁, n, hstep, hn, hg₁⟩ := ffprintfCall_padded hcall hf.holds
      obtain ⟨g, passes, hrun, hpasses, hg⟩ := ih hcalls hg₁
      refine ⟨g, n :: passes, ?_, .cons hn hpasses, ?_⟩
      · rw [emitAll_cons, hstep, Emitted.andThen_of_none rfl, hrun]
        rfl
      · rwa [List.flatMap_cons, ← List.append_assoc]

theorem printsAll_of_inRange (f : Ffile) {calls : List PrintCall} (hne : calls ≠ [])
    (h : ∀ call ∈ calls, call.InRange) : PrintsAll f calls := by
  obtain ⟨call, calls, rfl⟩ := List.exists_cons_of_ne_nil hne
  obtain ⟨hcall, hcalls⟩ := List.forall_mem_cons.mp h
  -- the first call leaves a null behind its output, whatever the reset left
  obtain ⟨g₁, n, hstep, hn, hg₁⟩ := ffprintfCall_padded hcall (reset_holds f)
  obtain ⟨g, passes, hrun, hpasses, hpos, k, hbuf⟩ := emitAll_ffprintfCall_padded calls hcalls hg₁
  have htext : [] ++ call.output ++ calls.flatMap (·.output) =
      (call :: calls).flatMap (·.output) := by
    rw [List.nil_append, List.flatMap_cons]
  have hall : emitAll ffprintfCall (call :: calls) f.reset = ⟨g, n :: passes, none⟩ := by
    rw [emitAll_cons, hstep, Emitted.andThen_of_none rfl, hrun]
    rfl
  rw [htext] at hpos hbuf
  refine ⟨?_, ?_, ?_, ?_, ?_, ?_⟩ <;> rw [hall]
  · exact .cons hn hpasses
  · exact hpos
  · rw [hpos, hbuf, List.take_left]
  · rw [hpos, hbuf, List.drop_left]
    exact List.cons_ne_nil _ _
  · rw [hpos, hbuf, List.drop_left]
    exact fun c hc => List.eq_of_mem_replicate hc

/-- Calls that all return were in range. -/
theorem inRange_of_printsAll {f : Ffile} {calls : List PrintCall}
    (hout : ∀ call ∈ calls, call.Succeeds) (h : PrintsAll f calls) :
    ∀ call ∈ calls, call.InRange := by
  intro call hcall
  obtain ⟨v, hv, rfl⟩ := List.mem_map.mp (visits_input h.returns ▸ hcall)
  refine inRange_of_raised (hout _ hcall) (f := v.before) ?_
  rw [← visit_result hv]
  exact (emitAll_raised ..).mp h.returns v hv

/-- **The print buffer holds what was printed** exactly when every call is in range. -/
theorem printsAll_iff (f : Ffile) {calls : List PrintCall} (hne : calls ≠ [])
    (hout : ∀ call ∈ calls, call.Succeeds) :
    PrintsAll f calls ↔ ∀ call ∈ calls, call.InRange :=
  ⟨inRange_of_printsAll hout, printsAll_of_inRange f hne⟩

/-- `%s` with a name, and then `,%d`. -/
theorem printsAll_register :
    PrintsAll ⟨"nop".toList, 3⟩
      [⟨"%s".toList, "rax".toList⟩, ⟨",%d".toList, ",7".toList⟩] ↔
    ∀ call ∈ [(⟨"%s".toList, "rax".toList⟩ : PrintCall), ⟨",%d".toList, ",7".toList⟩],
      call.InRange :=
  printsAll_iff ⟨"nop".toList, 3⟩ (by decide) (by decide)

/-- In a run of calls with short formats the file goes through the states of `ffprintf`. -/
theorem emitAll_ffprintfCall (calls : List PrintCall) (h : ∀ call ∈ calls,
      call.format.length < 2147483648 ∧ (call.output.length : Int) < intMax) (f : Ffile) :
    (emitAll ffprintfCall calls f).raised = none ∧
      (emitAll ffprintfCall calls f).state = calls.foldl ffprintf f := by
  induction calls generalizing f with
  | nil => exact ⟨rfl, rfl⟩
  | cons call calls ih =>
      obtain ⟨⟨hfmt, hout⟩, hcalls⟩ := List.forall_mem_cons.mp h
      obtain ⟨passes, hstep⟩ := ffprintfCall_eq hfmt hout f
      rw [emitAll_cons, hstep, Emitted.andThen_of_none rfl]
      exact ih hcalls (ffprintf f call)

/-! ## A format of 2 ^ 31 characters -/

/-- `%---...-d` with the argument 7.  The flags may be repeated. -/
def longFormat : PrintCall :=
  ⟨'%' :: (List.replicate 2147483646 '-' ++ ['d']), ['7']⟩

/-- The length of the format is negative as an `int`, and the call does not return. -/
theorem longFormat_lost : longFormat.Succeeds ∧ ¬PrintsAll ⟨[], 0⟩ [longFormat] := by
  have hsucceeds : longFormat.Succeeds := by decide
  refine ⟨hsucceeds, fun h => ?_⟩
  have hlen : longFormat.format.length = 2147483648 := by
    rw [longFormat, List.length_cons, List.length_append, List.length_replicate,
      List.length_singleton]
  have hrange := (inRange_of_printsAll (by simpa using hsucceeds) h longFormat (by simp)).1
  rw [hlen] at hrange
  exact absurd hrange (by decide)

end Befa
