import Befa.Llvm.Decompiler

/-!
# Streams of instructions

The translation of a stream is the concatenation of the translations of its instructions, as long
as the symbol table shows every instruction the same.  Only calls change the table.  A call
creates its result when there is no key `Temporary`, and stores it under the character `0xff`,
the low byte of the address it does not have.  The factories see no difference (`SameView`), but
the next call creates its result again and raises, since the character is taken.

`compositional_iff` says which streams are translated piece by piece.
-/

namespace Befa

/-! ## Streams and tables -/

/-- The operands that the translation of an instruction reads. -/
def needs (name : Text) : Nat :=
  if name = "cmp".toList ∨ name = "test".toList then 2
  else if name = "call".toList ∨ name ∈ jumps .gt ∨ name ∈ jumps .le then 1
  else 0

/-- An instruction has a name, and its operands are there. -/
def WellFormed (i : Instruction) : Prop := ∃ name, i.getName = some name ∧ needs name < i.parse.length

/-- The instruction is a call. -/
def IsCall (i : Instruction) : Prop := i.getName = some "call".toList

instance (i : Instruction) : Decidable (IsCall i) := inferInstanceAs (Decidable (_ = _))

/-- The calls of a stream. -/
def calls (o : List Instruction) : List Instruction := o.filter fun i => IsCall i

/-- A table has the registers under their names. -/
def HoldsRegisters (t : SymTable) : Prop := ∀ r ∈ registers, t.find? r.1 = some (r.1, registerOf r)

/-- The key of the result of a call. -/
def resultKey : Text := SymTable.addressKey resultOfTheCall.getAddress

/-- The table behind a call that creates its result. -/
def SymTable.withResult (t : SymTable) : SymTable := t.emplace (resultKey, resultOfTheCall)

/-- The names the factories search for. -/
def flagNames : List Text := ["_zf", "_cf", "_sf", "_pf"].map String.toList

/-- Two tables that look the same to the factories. -/
structure SameView (t s : SymTable) : Prop where
  registers : HoldsRegisters s
  /-- The operands are the same. -/
  toMap : s.toMap = t.toMap
  flags : ∀ name ∈ flagNames, s.findSymbol name = t.findSymbol name

/-- The result of a call does not show. -/
theorem sameView_withResult {t : SymTable} (ht : HoldsRegisters t) : SameView t t.withResult := by
  refine ⟨?_, ?_, ?_⟩
  · exact fun r hr => Keyed.find?_emplace_of_some _ (ht r hr)
  · refine Keyed.ext_find? fun k => ?_
    rw [SymTable.toMap, SymTable.toMap, Keyed.find?_ofList, Keyed.find?_ofList, List.find?_map,
      List.find?_map]
    refine congrArg _ (find?_insertNew_of_later t.sorted ?_)
    by_cases hk : nonAddress = k
    · -- some register comes first
      have hrax := Keyed.mem_of_find? (ht ("rax".toList, .qword) (by decide +kernel))
      refine Or.inr ⟨_, hrax, decide_eq_true hk, ?_⟩
      decide +kernel
    · exact Or.inl (decide_eq_false hk)
  · intro name hname
    refine congrArg _ (find?_insertNew_of_later t.sorted (Or.inl ?_))
    revert name
    decide +kernel

theorem findSymbol_isSome {t : SymTable} (ht : HoldsRegisters t) {name : Text}
    (hn : name ∈ flagNames) : (t.findSymbol name).isSome := by
  have hflag : ∀ name ∈ flagNames, ∃ r ∈ registers, name <:+: (registerOf r).getName := by
    decide +kernel
  obtain ⟨r, hr, hin⟩ := hflag name hn
  rw [SymTable.findSymbol, Option.isSome_map, List.find?_isSome]
  exact ⟨_, Keyed.mem_of_find? (ht r hr), decide_eq_true hin⟩

theorem SameView.refl {t : SymTable} (ht : HoldsRegisters t) : SameView t t :=
  ⟨ht, rfl, fun _ _ => rfl⟩

/-! ## One instruction -/

/-- What `compareFactory` does depends on what the table shows. -/
theorem compareFactory_view {t s : SymTable} (hv : SameView t s) (i : Instruction) :
    compareFactory i s = ⟨s, (compareFactory i t).out, (compareFactory i t).raised⟩ := by
  have hzf := hv.flags "_zf".toList (by decide)
  have hcf := hv.flags "_cf".toList (by decide)
  have hsf := hv.flags "_sf".toList (by decide)
  have hpf := hv.flags "_pf".toList (by decide)
  simp only [compareFactory, hv.toMap, hzf, hcf, hsf, hpf]
  repeat' split
  all_goals rfl

theorem jumpFactory_view {t s : SymTable} (hv : SameView t s) (i : Instruction) :
    jumpFactory i s = ⟨s, (jumpFactory i t).out, (jumpFactory i t).raised⟩ := by
  have hzf := hv.flags "_zf".toList (by decide)
  have hcf := hv.flags "_cf".toList (by decide)
  simp only [jumpFactory, hzf, hcf]
  repeat' split
  all_goals rfl

theorem needs_le_length {i : Instruction} {name : Text} (h : needs name < i.parse.length)
    (functions : SymMap) : needs name ≤ (i.args functions).length := by
  rw [Instruction.length_args]
  omega

theorem exists_two {α : Type} : ∀ {l : List α}, 2 ≤ l.length → ∃ a b rest, l = a :: b :: rest
  | a :: b :: rest, _ => ⟨a, b, rest, rfl⟩

theorem compareFactory_raised {t : SymTable} (ht : HoldsRegisters t) {i : Instruction}
    (hw : WellFormed i) : (compareFactory i t).raised = none := by
  obtain ⟨name, hn, hneeds⟩ := hw
  have hargs := needs_le_length hneeds t.toMap
  obtain ⟨zf, hzf⟩ := Option.isSome_iff_exists.mp
    (findSymbol_isSome ht (by decide : "_zf".toList ∈ flagNames))
  by_cases htwo : name = "cmp".toList ∨ name = "test".toList
  · rw [needs, if_pos htwo] at hargs
    obtain ⟨a, b, rest, ha⟩ := exists_two hargs
    rcases htwo with rfl | rfl
    · obtain ⟨cf, hcf⟩ := Option.isSome_iff_exists.mp
        (findSymbol_isSome ht (by decide : "_cf".toList ∈ flagNames))
      rw [compareFactory_cmp hn hzf hcf ha]
    · obtain ⟨sf, hsf⟩ := Option.isSome_iff_exists.mp
        (findSymbol_isSome ht (by decide : "_sf".toList ∈ flagNames))
      obtain ⟨pf, hpf⟩ := Option.isSome_iff_exists.mp
        (findSymbol_isSome ht (by decide : "_pf".toList ∈ flagNames))
      rw [compareFactory_test hn hzf hsf hpf ha]
  · obtain ⟨hc, ht⟩ := not_or.mp htwo
    rw [compareFactory_other hn hc ht]

theorem jumpFactory_raised {t : SymTable} {i : Instruction} (hw : WellFormed i) :
    (jumpFactory i t).raised = none := by
  obtain ⟨name, hn, hneeds⟩ := hw
  have hargs := needs_le_length hneeds .nil
  cases hj : jumpCondition i name (t.findSymbol "_cf".toList) (t.findSymbol "_zf".toList) with
  | none => rw [jumpFactory_other hn hj]
  | some condition =>
      have hjump : name ∈ jumps .gt ∨ name ∈ jumps .le := by
        by_contra h
        rw [jumpCondition_eq_none.mpr (not_or.mp h)] at hj
        cases hj
      have hone : 1 ≤ needs name := by
        rw [needs]
        split
        next => omega
        next => rw [if_pos (Or.inr hjump)]
      cases ha : i.args .nil with
      | nil => rw [ha] at hargs; exact absurd (hone.trans hargs) (by decide)
      | cons target rest => rw [jumpFactory_jump hn hj ha]

/-! ## Calls -/

/-- The symbol that stands for the result of a call. -/
def callResult (t : SymTable) : Sym :=
  match t.find? "Temporary".toList with
  | some entry => entry.2
  | none => resultOfTheCall

/-- What a call is translated to. -/
def callIr (t : SymTable) (i : Instruction) : List Ir :=
  if IsCall i then
    (i.args t.toMap).head?.toList.map fun target => .call [i] (some (callResult t)) (some target)
  else []

/-- What an instruction is translated to. -/
def irOf (t : SymTable) (i : Instruction) : List Ir :=
  callIr t i ++ ((compareFactory i t).out ++ (jumpFactory i t).out)

/-- A table in which `n` calls can be translated. -/
def Allowed (t : SymTable) (n : Nat) : Prop :=
  (t.find? "Temporary".toList).isSome ∨ n = 0 ∨ (n = 1 ∧ t.find? resultKey = none)

/-- The other factories follow `callFactory`. -/
theorem mapInstr_of_call {t s s' : SymTable} {i : Instruction} (hv : SameView t s')
    (ht : HoldsRegisters t) (hw : WellFormed i) (hc : callFactory i s = ⟨s', callIr t i, none⟩) :
    mapInstr factories i s = ⟨s', irOf t i, none⟩ := by
  rw [mapInstr, factories, emitAll_cons, hc, Emitted.andThen_of_none rfl, emitAll_cons,
    compareFactory_view hv, compareFactory_raised ht hw, Emitted.andThen_of_none rfl, emitAll_cons,
    jumpFactory_view hv, jumpFactory_raised hw, Emitted.andThen_of_none rfl]
  simp [irOf]

theorem mapInstr_other {t s : SymTable} {i : Instruction} (hv : SameView t s)
    (ht : HoldsRegisters t) (hw : WellFormed i) (hi : ¬IsCall i) :
    mapInstr factories i s = ⟨s, irOf t i, none⟩ := by
  obtain ⟨name, hn, _⟩ := id hw
  have hname : name ≠ "call".toList := by
    rintro rfl
    exact hi hn
  refine mapInstr_of_call hv ht hw ?_
  rw [callFactory_other hn hname, callIr, if_neg hi]

theorem call_target {i : Instruction} (hw : WellFormed i) (hi : IsCall i) (functions : SymMap) :
    ∃ target rest, i.args functions = target :: rest := by
  obtain ⟨name, hn, hneeds⟩ := hw
  obtain rfl := Option.some.inj (hn.symm.trans hi)
  cases ha : i.args functions with
  | nil =>
      have hargs := needs_le_length hneeds functions
      rw [ha] at hargs
      exact absurd hargs (by decide)
  | cons target rest => exact ⟨target, rest, rfl⟩

theorem mapInstr_call {t s s' : SymTable} {i : Instruction} (hv : SameView t s)
    (hv' : SameView t s') (ht : HoldsRegisters t) (hw : WellFormed i) (hi : IsCall i)
    (hs : s.getOrCreate "Temporary".toList resultOfTheCall = .ok (callResult t, s')) :
    mapInstr factories i s = ⟨s', irOf t i, none⟩ := by
  obtain ⟨target, rest, ha⟩ := call_target hw hi t.toMap
  refine mapInstr_of_call hv' ht hw ?_
  rw [callFactory_call hi (hv.toMap ▸ ha), hs, callIr, if_pos hi, ha]
  rfl

/-- A call that does not get its result raises. -/
theorem mapInstr_call_raised {s : SymTable} {i : Instruction} {reason : Text} (hw : WellFormed i)
    (hi : IsCall i)
    (hs : s.getOrCreate "Temporary".toList resultOfTheCall = .error reason) :
    (mapInstr factories i s).raised = some reason := by
  obtain ⟨target, rest, ha⟩ := call_target hw hi s.toMap
  have hraise : callFactory i s = raise s reason := by rw [callFactory_call hi ha, hs]
  rw [mapInstr, factories, emitAll_cons, hraise]
  rfl

/-! ## Streams -/

section Streams

variable {t : SymTable}

theorem SameView.trans {s u : SymTable} (h : SameView t s) (h' : SameView s u) : SameView t u :=
  ⟨h'.registers, h'.toMap.trans h.toMap,
    fun name hn => (h'.flags name hn).trans (h.flags name hn)⟩

theorem calls_cons_call {i : Instruction} (hi : IsCall i) (o : List Instruction) :
    calls (i :: o) = i :: calls o :=
  List.filter_cons_of_pos (decide_eq_true hi)

theorem calls_cons_other {i : Instruction} (hi : ¬IsCall i) (o : List Instruction) :
    calls (i :: o) = calls o :=
  List.filter_cons_of_neg (by simpa using hi)

/-- A state of the translation shows what `t` shows, and a call gets the result it gets in `t`. -/
structure Consistent (t s : SymTable) : Prop where
  /-- The factories see no difference. -/
  view : SameView t s
  /-- Calls have the same result. -/
  result : callResult s = callResult t

/-- How a call gets its result. -/
theorem call_cases {s : SymTable} (h : Consistent t s) :
    ((s.find? "Temporary".toList).isSome ∧
      s.getOrCreate "Temporary".toList resultOfTheCall = .ok (callResult t, s)) ∨
    (s.find? "Temporary".toList = none ∧ s.find? resultKey = none ∧ Consistent t s.withResult ∧
      s.withResult.find? "Temporary".toList = none ∧ (s.withResult.find? resultKey).isSome ∧
      s.getOrCreate "Temporary".toList resultOfTheCall = .ok (callResult t, s.withResult)) ∨
    (s.find? "Temporary".toList = none ∧ (s.find? resultKey).isSome ∧
      ∃ reason, s.getOrCreate "Temporary".toList resultOfTheCall = .error reason) := by
  rw [← h.result]
  cases hname : s.find? "Temporary".toList with
  | some entry =>
      refine Or.inl ⟨rfl, ?_⟩
      rw [SymTable.getOrCreate_of_some _ hname, callResult, hname]
  | none =>
      rw [SymTable.getOrCreate_of_none _ hname]
      cases hkey : s.find? resultKey with
      | some entry => exact Or.inr (Or.inr ⟨rfl, rfl, _, SymTable.addSymbol_of_some hkey⟩)
      | none =>
          have hmiss : s.withResult.find? "Temporary".toList = none := by
            rw [SymTable.withResult, Keyed.find?_emplace_ne s (by decide), hname]
          have hfound : s.withResult.find? resultKey = some (resultKey, resultOfTheCall) :=
            Keyed.find?_emplace_self hkey
          have hresult : callResult s = resultOfTheCall := by rw [callResult, hname]
          have hresult' : callResult s.withResult = callResult t := by
            rw [← h.result, hresult, callResult, hmiss]
          refine Or.inr (Or.inl ⟨rfl, rfl, ⟨h.view.trans (sameView_withResult h.view.registers),
            hresult'⟩, hmiss, by rw [hfound]; rfl, ?_⟩)
          rw [hresult]
          exact SymTable.addSymbol_of_none hkey

theorem allowed_of_taken {s : SymTable} {n : Nat} (hname : s.find? "Temporary".toList = none)
    (hkey : (s.find? resultKey).isSome) : Allowed s n ↔ n = 0 := by
  obtain ⟨entry, he⟩ := Option.isSome_iff_exists.mp hkey
  rw [Allowed, hname, he]
  simp

theorem allowed_of_free {s : SymTable} {n : Nat} (hname : s.find? "Temporary".toList = none)
    (hkey : s.find? resultKey = none) : Allowed s (n + 1) ↔ n = 0 := by
  rw [Allowed, hname, hkey]
  simp

/-- **A stream is translated piece by piece when its calls are allowed, and raises when not.** -/
theorem reduceInstr_allowed (ht : HoldsRegisters t) {o : List Instruction}
    (hw : ∀ i ∈ o, WellFormed i) {s : SymTable} (hs : Consistent t s) :
    ((reduceInstr factories o s).raised = none ↔ Allowed s (calls o).length) ∧
      (Allowed s (calls o).length → (reduceInstr factories o s).out = o.flatMap (irOf t)) := by
  induction o generalizing s with
  | nil => exact ⟨iff_of_true rfl (Or.inr (Or.inl rfl)), fun _ => rfl⟩
  | cons i o ih =>
      have hwi := hw i (List.mem_cons_self ..)
      have hwo := fun j hj => hw j (List.mem_cons_of_mem _ hj)
      rw [reduceInstr, emitAll_cons]
      by_cases hi : IsCall i
      · rw [calls_cons_call hi, List.length_cons, List.flatMap_cons]
        rcases call_cases hs with ⟨hname, hget⟩ | ⟨hname, hkey, hcons, hmiss, hfound, hget⟩ |
          ⟨hname, hkey, reason, hget⟩
        · rw [mapInstr_call hs.view hs.view ht hwi hi hget, Emitted.andThen_of_none rfl]
          obtain ⟨ihr, iho⟩ := ih hwo hs
          exact ⟨iff_of_true (ihr.mpr (Or.inl hname)) (Or.inl hname),
            fun _ => congrArg _ (iho (Or.inl hname))⟩
        · rw [mapInstr_call hs.view hcons.view ht hwi hi hget, Emitted.andThen_of_none rfl]
          obtain ⟨ihr, iho⟩ := ih hwo hcons
          rw [allowed_of_taken hmiss hfound] at ihr iho
          rw [allowed_of_free hname hkey]
          exact ⟨ihr, fun h => congrArg _ (iho h)⟩
        · have hraise := mapInstr_call_raised hwi hi hget
          rw [Emitted.andThen_of_some hraise, hraise, allowed_of_taken hname hkey]
          exact ⟨iff_of_false nofun (Nat.succ_ne_zero _), fun h => absurd h (Nat.succ_ne_zero _)⟩
      · rw [mapInstr_other hs.view ht hwi hi, Emitted.andThen_of_none rfl, calls_cons_other hi]
        obtain ⟨ihr, iho⟩ := ih hwo hs
        exact ⟨ihr, fun ha => by rw [List.flatMap_cons]; exact congrArg _ (iho ha)⟩

theorem Allowed.of_le {m n : Nat} (h : Allowed t n) (hmn : m ≤ n) : Allowed t m := by
  rcases h with h | rfl | ⟨rfl, hk⟩
  · exact Or.inl h
  · exact Or.inr (Or.inl (Nat.le_zero.mp hmn))
  · rcases Nat.le_one_iff_eq_zero_or_eq_one.mp hmn with rfl | rfl
    · exact Or.inr (Or.inl rfl)
    · exact Or.inr (Or.inr ⟨rfl, hk⟩)

end Streams

/-! ## The law of concatenation -/

/-- The assembly a `CallInstruction` comes from. -/
def Ir.callAssembly : Ir → Option (List Instruction)
  | call assembly _ _ => some assembly
  | _ => none

/-- The translation of two streams in sequence does not raise, is the translations of the two from
the same table, and has one `CallInstruction` for every call, in order. -/
structure Compositional (t : SymTable) (xs ys : List Instruction) : Prop where
  noRaise : (reduceInstr factories (xs ++ ys) t).raised = none
  appends : (reduceInstr factories (xs ++ ys) t).out =
    (reduceInstr factories xs t).out ++ (reduceInstr factories ys t).out
  oneCall : (reduceInstr factories (xs ++ ys) t).out.filterMap Ir.callAssembly =
    (calls (xs ++ ys)).map fun i => [i]

theorem compareFactory_calls (i : Instruction) (t : SymTable) :
    (compareFactory i t).out.filterMap Ir.callAssembly = [] := by
  rw [compareFactory]
  repeat' split
  all_goals rfl

theorem jumpFactory_calls (i : Instruction) (t : SymTable) :
    (jumpFactory i t).out.filterMap Ir.callAssembly = [] := by
  have hcond : ∀ name cf zf condition, jumpCondition i name cf zf = some condition →
      condition.filterMap Ir.callAssembly = [] := by
    intro name cf zf condition h
    rw [jumpCondition] at h
    repeat' split at h
    all_goals (cases h <;> rfl)
  rw [jumpFactory]
  split
  next => rfl
  next =>
    split
    next => rfl
    next condition h =>
      split
      next => exact hcond _ _ _ _ h
      next => rw [List.filterMap_append, hcond _ _ _ _ h]; rfl

/-- The translation of an instruction has a `CallInstruction` when it is a call. -/
theorem irOf_calls {t : SymTable} {i : Instruction} (hw : WellFormed i) :
    (irOf t i).filterMap Ir.callAssembly = if IsCall i then [[i]] else [] := by
  rw [irOf, List.filterMap_append, List.filterMap_append, compareFactory_calls, jumpFactory_calls,
    List.append_nil, List.append_nil, callIr]
  by_cases hi : IsCall i
  · obtain ⟨target, rest, ha⟩ := call_target hw hi t.toMap
    rw [if_pos hi, if_pos hi, ha]
    rfl
  · rw [if_neg hi, if_neg hi]
    rfl

theorem irOf_flatMap_calls {t : SymTable} {o : List Instruction} (hw : ∀ i ∈ o, WellFormed i) :
    (o.flatMap (irOf t)).filterMap Ir.callAssembly = (calls o).map fun i => [i] := by
  induction o with
  | nil => rfl
  | cons i o ih =>
      rw [List.flatMap_cons, List.filterMap_append, irOf_calls (hw i (List.mem_cons_self ..)),
        ih fun j hj => hw j (List.mem_cons_of_mem _ hj)]
      by_cases hi : IsCall i
      · rw [if_pos hi, calls_cons_call hi, List.map_cons, List.singleton_append]
      · rw [if_neg hi, calls_cons_other hi, List.nil_append]

/-- **Two streams are translated piece by piece exactly when the table has a key `Temporary`, or
there is no call, or there is one call and the key of its result is free.** -/
theorem compositional_iff {t : SymTable} (ht : HoldsRegisters t) {xs ys : List Instruction}
    (hw : ∀ i ∈ xs ++ ys, WellFormed i) :
    Compositional t xs ys ↔
      (t.find? "Temporary".toList).isSome ∨ (calls (xs ++ ys)).length = 0 ∨
        ((calls (xs ++ ys)).length = 1 ∧ t.find? resultKey = none) := by
  have hs : Consistent t t := ⟨.refl ht, rfl⟩
  have hrun := reduceInstr_allowed ht hw hs
  refine ⟨fun h => hrun.1.mp h.noRaise, fun h => ?_⟩
  have hlen : (calls (xs ++ ys)).length = (calls xs).length + (calls ys).length := by
    rw [calls, List.filter_append, List.length_append]
    rfl
  have hxs := (reduceInstr_allowed ht (fun i hi => hw i (List.mem_append_left _ hi)) hs).2
    (Allowed.of_le h (by omega))
  have hys := (reduceInstr_allowed ht (fun i hi => hw i (List.mem_append_right _ hi)) hs).2
    (Allowed.of_le h (by omega))
  refine ⟨hrun.1.mpr h, ?_, ?_⟩
  · rw [hrun.2 h, hxs, hys, List.flatMap_append]
  · rw [hrun.2 h]
    exact irOf_flatMap_calls hw

theorem callTable_holdsRegisters : HoldsRegisters callTable :=
  fun _ hr => Keyed.find?_emplace_of_some _ (registerTable_find? hr)

theorem callTable_free :
    callTable.find? "Temporary".toList = none ∧ callTable.find? resultKey = none := by
  rw [callTable, Keyed.find?_emplace, Keyed.find?_emplace, registerTable, Keyed.find?_ofList,
    Keyed.find?_ofList]
  decide +kernel

/-- A comparison and a call are translated piece by piece. -/
theorem cmp_call_compositional :
    Compositional callTable [instructionOf "cmp    eax, ebx"] [instructionOf "call   0x400800"] := by
  refine (compositional_iff callTable_holdsRegisters fun i hi => ?_).mpr
    (Or.inr (Or.inr ⟨by decide +kernel, callTable_free.2⟩))
  rcases List.mem_cons.mp hi with rfl | hi
  · exact ⟨"cmp".toList, by decide +kernel, by decide +kernel⟩
  · rw [List.mem_singleton.mp hi]
    exact ⟨"call".toList, by decide +kernel, by decide +kernel⟩

/-- The second call of a stream raises. -/
theorem calls_not_compositional :
    ¬∀ (t : SymTable) (xs ys : List Instruction), HoldsRegisters t →
      (∀ i ∈ xs ++ ys, WellFormed i) → Compositional t xs ys := by
  intro h
  have hw : ∀ i ∈ [instructionOf "call   0x400800"] ++ [instructionOf "call   0x400800"],
      WellFormed i := by
    intro i hi
    have hcall : i = instructionOf "call   0x400800" := by simpa using hi
    rw [hcall]
    exact ⟨"call".toList, by decide +kernel, by decide +kernel⟩
  have hc := h callTable _ _ callTable_holdsRegisters hw
  have ha := (reduceInstr_allowed callTable_holdsRegisters hw
    ⟨.refl callTable_holdsRegisters, rfl⟩).1.mp hc.noRaise
  rw [Allowed, callTable_free.1] at ha
  rcases ha with ha | ha | ha
  · cases ha
  · exact absurd ha (by decide +kernel)
  · exact absurd ha.1 (by decide +kernel)

end Befa
