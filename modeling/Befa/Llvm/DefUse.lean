import Befa.Assembly.BlockStream
import Befa.Assembly.OwnBytes
import Befa.Lib.DefUse
import Befa.Llvm.Compositional
import Befa.Llvm.Semantics

/-!
# What the decompiler emits

`Translates` says what the factories emit for one instruction: nothing, a call, the comparisons of
a `cmp` or a `test`, or a branch behind its condition.  The other results are read off it.

*Order.*  Every emitted instruction has one instruction of assembly, and a mnemonic fixes how many
there are of it (`assembly_of_run`).

*Definitions.*  An emitted instruction uses the operands of its assembly, the flags, constants and
what was defined before it for the same assembly (`closed_of_run`).  So no value passes from one
instruction to another through a temporary, and what a stream computes does not depend on what the
temporaries held (`execAll_agree`).
-/

namespace Befa

open DefUse

/-! ## Definitions and uses -/

/-- The value of an operand is its own or that of its symbol. -/
theorem Env.value_congr {env env' : Env} {p : SymPtr} (h : env p = env' p) :
    env.value p = env'.value p := by
  rcases p with _ | p
  · exact h
  · cases p with
    | immidiate value => rfl
    | _ => exact h

namespace Ir

def getAssembly : Ir → List Instruction
  | binary assembly _ _ _ _ => assembly
  | cmp assembly _ _ _ _ => assembly
  | unary assembly _ _ _ => assembly
  | call assembly _ _ => assembly
  | branch assembly _ _ => assembly

end Ir

/-! ## One instruction -/

/-- What the factories leave for one instruction. -/
inductive Translates (i : Instruction) (t : SymTable) : Emitted SymTable Ir Text → Prop where
  | raises (reason : Text) : Translates i t ⟨t, [], some reason⟩
  | other {name : Text} : i.getName = some name → name ≠ "call".toList → name ≠ "cmp".toList →
      name ≠ "test".toList → name ∉ jumps .gt → name ∉ jumps .le → Translates i t ⟨t, [], none⟩
  | call {result target : Sym} {t' : SymTable} : i.getName = some "call".toList →
      target ∈ i.args t.toMap →
      t.getOrCreate "Temporary".toList resultOfTheCall = .ok (result, t') →
      Translates i t ⟨t', [.call [i] (some result) (some target)], none⟩
  | cmp {zf cf a b : Sym} : i.getName = some "cmp".toList →
      t.findSymbol "_zf".toList = some zf → t.findSymbol "_cf".toList = some cf →
      a ∈ i.args t.toMap → b ∈ i.args t.toMap → Translates i t ⟨t, cmpIr i zf cf a b, none⟩
  | test {zf sf pf a b : Sym} : i.getName = some "test".toList →
      t.findSymbol "_zf".toList = some zf → t.findSymbol "_sf".toList = some sf →
      t.findSymbol "_pf".toList = some pf → a ∈ i.args t.toMap → b ∈ i.args t.toMap →
      Translates i t ⟨t, testIr i zf sf pf a b, none⟩
  | jump {name constant op : Text} {branch : List Ir} {raised : Option Text} :
      i.getName = some name → name ∈ jumps .gt ∨ name ∈ jumps .le →
      constant = "0".toList ∧ op = "AND".toList ∨ constant = "1".toList ∧ op = "OR".toList →
      (raised = none ∧ ∃ target ∈ i.args .nil, branch = [.branch [i] (some tempResult) (some target)]) ∨
        (raised ≠ none ∧ branch = []) →
      Translates i t ⟨t, conditionIr i (t.findSymbol "_cf".toList) (t.findSymbol "_zf".toList)
        constant op ++ branch, raised⟩

theorem callFactory_translates {i : Instruction} {t : SymTable}
    (hn : i.getName = some "call".toList) : Translates i t (callFactory i t) := by
  cases ha : i.args t.toMap with
  | nil =>
      have hcall : callFactory i t = raise t emptyError := by
        rw [callFactory, hn, Instruction.getArgs_eq, ha]
        rfl
      rw [hcall]
      exact .raises _
  | cons target rest =>
      rw [callFactory_call hn ha]
      cases hget : t.getOrCreate "Temporary".toList resultOfTheCall with
      | error reason => exact .raises reason
      | ok r => exact .call hn (ha ▸ List.mem_cons_self ..) hget

theorem compareFactory_translates {i : Instruction} {t : SymTable}
    (hn : i.getName = some "cmp".toList ∨ i.getName = some "test".toList) :
    Translates i t (compareFactory i t) := by
  rcases hn with hn | hn
  · rw [compareFactory, hn, Instruction.getArgs_eq]
    dsimp only
    rw [if_pos rfl]
    split
    next zf cf hzf hcf =>
      split
      next a b rest ha => exact .cmp hn hzf hcf (by simp [ha]) (by simp [ha])
      next => exact .raises _
    next => exact .raises _
  · rw [compareFactory, hn, Instruction.getArgs_eq]
    dsimp only
    rw [if_neg (by decide), if_pos rfl]
    split
    next zf sf pf hzf hsf hpf =>
      split
      next a b rest ha => exact .test hn hzf hsf hpf (by simp [ha]) (by simp [ha])
      next => exact .raises _
    next => exact .raises _

theorem jumpFactory_translates {i : Instruction} {t : SymTable} {name : Text}
    (hn : i.getName = some name) (hj : name ∈ jumps .gt ∨ name ∈ jumps .le) :
    Translates i t (jumpFactory i t) := by
  obtain ⟨constant, op, hconstant, hcondition⟩ : ∃ constant op,
      (constant = "0".toList ∧ op = "AND".toList ∨ constant = "1".toList ∧ op = "OR".toList) ∧
        jumpCondition i name (t.findSymbol "_cf".toList) (t.findSymbol "_zf".toList) =
          some (conditionIr i (t.findSymbol "_cf".toList) (t.findSymbol "_zf".toList) constant op) := by
    by_cases hgt : name ∈ jumps .gt
    · exact ⟨"0".toList, "AND".toList, Or.inl ⟨rfl, rfl⟩, if_pos hgt⟩
    · refine ⟨"1".toList, "OR".toList, Or.inr ⟨rfl, rfl⟩, ?_⟩
      rw [jumpCondition, if_neg hgt, if_pos (hj.resolve_left hgt)]
  cases ha : i.args .nil with
  | nil =>
      have hjump : jumpFactory i t = ⟨t, conditionIr i (t.findSymbol "_cf".toList)
          (t.findSymbol "_zf".toList) constant op ++ [], some emptyError⟩ := by
        rw [jumpFactory, hn, Instruction.getArgs_eq, ha, List.append_nil]
        simp only [hcondition]
        rfl
      rw [hjump]
      exact .jump hn hj hconstant (Or.inr ⟨Option.some_ne_none _, rfl⟩)
  | cons target rest =>
      rw [jumpFactory_jump hn hcondition ha]
      exact .jump hn hj hconstant (Or.inl ⟨rfl, target, ha ▸ List.mem_cons_self .., rfl⟩)

theorem mapInstr_factories (i : Instruction) (t : SymTable) : mapInstr factories i t =
    (callFactory i t).andThen fun s => (compareFactory i s).andThen (jumpFactory i) := by
  rw [mapInstr, factories, emitAll_cons]
  refine congrArg _ (funext fun s => ?_)
  rw [emitAll_cons]
  refine congrArg _ (funext fun s => ?_)
  rw [emitAll_cons]
  exact Emitted.andThen_silent _

/-- **What a mapper does with an instruction.** -/
theorem mapInstr_translates (i : Instruction) (t : SymTable) :
    Translates i t (mapInstr factories i t) := by
  rw [mapInstr_factories]
  cases hn : i.getName with
  | none =>
      have hcall : callFactory i t = raise t emptyError := by rw [callFactory, hn]
      rw [hcall, Emitted.andThen_of_some rfl]
      exact .raises _
  | some name =>
      have hjumps : name ∈ jumps .gt ∨ name ∈ jumps .le → name ≠ "call".toList ∧
          name ≠ "cmp".toList ∧ name ≠ "test".toList := by
        rintro (h | h) <;> refine ⟨?_, ?_, ?_⟩ <;> rintro rfl <;> revert h <;> decide
      have hjump : ∀ s, name ∉ jumps .gt ∧ name ∉ jumps .le → jumpFactory i s = ⟨s, [], none⟩ :=
        fun s h => jumpFactory_other hn (jumpCondition_eq_none.mpr h)
      by_cases hcall : name = "call".toList
      · subst hcall
        have hrest : ∀ s, (compareFactory i s).andThen (jumpFactory i) = ⟨s, [], none⟩ := by
          intro s
          rw [compareFactory_other hn (by decide) (by decide), Emitted.silent_andThen,
            hjump s (by decide)]
        rw [funext hrest, Emitted.andThen_silent]
        exact callFactory_translates hn
      rw [callFactory_other hn hcall, Emitted.silent_andThen]
      by_cases hcompare : name = "cmp".toList ∨ name = "test".toList
      · have hno : name ∉ jumps .gt ∧ name ∉ jumps .le := by
          rw [← not_or]
          exact fun h => hcompare.elim (hjumps h).2.1 (hjumps h).2.2
        rw [funext fun s => hjump s hno, Emitted.andThen_silent]
        exact compareFactory_translates (by rwa [hn, Option.some_inj, Option.some_inj])
      obtain ⟨hcmp, htest⟩ := not_or.mp hcompare
      rw [compareFactory_other hn hcmp htest, Emitted.silent_andThen]
      by_cases hj : name ∈ jumps .gt ∨ name ∈ jumps .le
      · exact jumpFactory_translates hn hj
      · rw [hjump t (not_or.mp hj)]
        exact .other hn hcall hcmp htest (not_or.mp hj).1 (not_or.mp hj).2

/-- How many instructions are emitted for a mnemonic. -/
def irCount (name : Text) : Nat :=
  if name = "call".toList then 1
  else if name = "cmp".toList then 2
  else if name = "test".toList ∨ name ∈ jumps .gt ∨ name ∈ jumps .le then 4
  else 0

namespace Translates

variable {i : Instruction} {t : SymTable} {r : Emitted SymTable Ir Text}

theorem assembly (h : Translates i t r) : ∀ ir ∈ r.out, ir.getAssembly = [i] := by
  cases h with
  | raises reason => exact fun _ h => absurd h List.not_mem_nil
  | other => exact fun _ h => absurd h List.not_mem_nil
  | call => simp [Ir.getAssembly]
  | cmp => simp [cmpIr, Ir.getAssembly]
  | test => simp [testIr, Ir.getAssembly]
  | jump _ _ _ hbranch =>
      obtain ⟨-, target, -, rfl⟩ | ⟨-, rfl⟩ := hbranch <;> simp [conditionIr, Ir.getAssembly]

theorem length (h : Translates i t r) (hr : r.raised = none) :
    r.out.length = (i.getName.map irCount).getD 0 := by
  cases h with
  | raises reason => cases hr
  | other hn hcall hcmp htest hgt hle =>
      rw [hn, Option.map_some, Option.getD_some, irCount, if_neg hcall, if_neg hcmp,
        if_neg (not_or.mpr ⟨htest, not_or.mpr ⟨hgt, hle⟩⟩)]
      rfl
  | call hn =>
      have hcount : irCount "call".toList = 1 := by decide
      rw [hn, Option.map_some, hcount]
      rfl
  | cmp hn =>
      have hcount : irCount "cmp".toList = 2 := by decide
      rw [hn, Option.map_some, hcount]
      rfl
  | test hn =>
      have hcount : irCount "test".toList = 4 := by decide
      rw [hn, Option.map_some, hcount]
      rfl
  | jump hn hj _ hbranch =>
      obtain ⟨-, target, -, rfl⟩ | ⟨hraised, -⟩ := hbranch
      · have hne : ∀ n ∈ ["call".toList, "cmp".toList], ¬(n ∈ jumps .gt ∨ n ∈ jumps .le) := by
          decide
        rw [hn, Option.map_some, Option.getD_some, irCount, if_neg, if_neg, if_pos (Or.inr hj)]
        · rfl
        · rintro rfl
          exact hne _ (by decide) hj
        · rintro rfl
          exact hne _ (by decide) hj
      · exact absurd hr hraised

end Translates

/-! ## A run -/

/-- The instructions a run has mapped, the raising one last. -/
def mapped (o : List Instruction) (t : SymTable) : List (Visit Instruction SymTable Ir Text) :=
  visits (mapInstr factories) o t

theorem translates_of_mapped {o : List Instruction} {t : SymTable}
    {v : Visit Instruction SymTable Ir Text} (hv : v ∈ mapped o t) :
    Translates v.input v.before v.result :=
  visit_result hv ▸ mapInstr_translates _ _

theorem out_reduceInstr (o : List Instruction) (t : SymTable) :
    (reduceInstr factories o t).out = (mapped o t).flatMap (·.result.out) := emitAll_out ..

/-- **The order of a run.**  The mnemonics fix which instructions of assembly the emitted ones come
from, one after the other. -/
theorem assembly_of_run {o : List Instruction} {t : SymTable}
    (h : (reduceInstr factories o t).raised = none) :
    (reduceInstr factories o t).out.map Ir.getAssembly =
      o.flatMap fun i => List.replicate ((i.getName.map irCount).getD 0) [i] := by
  have hinput : (mapped o t).map (·.input) = o := visits_input h
  have hraised := (emitAll_raised ..).mp h
  conv_rhs => rw [← hinput]
  rw [out_reduceInstr, List.map_flatMap, List.flatMap_map]
  refine List.flatMap_congr fun v hv => List.eq_replicate_iff.mpr ⟨?_, ?_⟩
  · rw [List.length_map]
    exact (translates_of_mapped hv).length (hraised v hv)
  · intro a ha
    obtain ⟨ir, hir, rfl⟩ := List.mem_map.mp ha
    exact (translates_of_mapped hv).assembly ir hir

/-- `Instruction::getParent`. -/
def Ir.getParent (ir : Ir) : Option BasicBlock := ir.getAssembly.head?.map Instruction.parent

/-- **The code of a block lies side by side**, whatever the table is. -/
theorem block_of_run (f : ExecutableFile) (t : SymTable) {pre mid post : List Ir} {x y z : Ir}
    (h : (reduceInstr factories f.runDisassembler.out t).out = pre ++ x :: mid ++ y :: post)
    (hxy : x.getParent = y.getParent) (hz : z ∈ mid) : z.getParent = x.getParent := by
  have hstream := Streamed.run f
  have hfrom : ∀ ir ∈ (reduceInstr factories f.runDisassembler.out t).out,
      ∃ i ∈ f.runDisassembler.out, ir.getAssembly = [i] := by
    intro ir hir
    rw [out_reduceInstr] at hir
    obtain ⟨v, hv, hir⟩ := List.mem_flatMap.mp hir
    exact ⟨v.input, visit_input_mem hv, (translates_of_mapped hv).assembly ir hir⟩
  have hordered : (reduceInstr factories f.runDisassembler.out t).out.Pairwise fun x y =>
      ∀ i j, x.getAssembly = [i] → y.getAssembly = [j] → i.parent.ptr ≤ j.parent.ptr := by
    rw [out_reduceInstr, List.pairwise_flatMap]
    have hassembly : ∀ v ∈ mapped f.runDisassembler.out t, ∀ ir ∈ v.result.out,
        ir.getAssembly = [v.input] := fun v hv => (translates_of_mapped hv).assembly
    refine ⟨fun v hv => List.pairwise_of_forall_mem_list fun x hx y hy i j hi hj => ?_, ?_⟩
    · have hij : [i] = [j] := by
        rw [← hi, ← hj, hassembly v hv x hx, hassembly v hv y hy]
      rw [(List.cons.inj hij).1]
    · have hinputs := hstream.ordered.sublist
        (visited_inputs (mapInstr factories) f.runDisassembler.out t).sublist
      rw [List.pairwise_map] at hinputs
      refine hinputs.imp_of_mem fun {v w} hv hw hle x hx y hy i j hi hj => ?_
      rw [hassembly v hv x hx] at hi
      rw [hassembly w hw y hy] at hj
      rwa [← (List.cons.inj hi).1, ← (List.cons.inj hj).1]
  have hparent : ∀ {ir : Ir} {i : Instruction}, ir.getAssembly = [i] →
      ir.getParent = some i.parent := fun hi => by rw [Ir.getParent, hi]; rfl
  obtain ⟨i, hi, hxi⟩ := hfrom x (by simp [h])
  obtain ⟨j, -, hyj⟩ := hfrom y (by simp [h])
  obtain ⟨k, hk, hzk⟩ := hfrom z (by simp [h, hz])
  rw [h, List.append_assoc, List.cons_append] at hordered
  obtain ⟨hx, hrest⟩ := List.pairwise_cons.mp (List.pairwise_append.mp hordered).2.1
  have hle := hx z (List.mem_append_left _ hz) i k hxi hzk
  have hge := (List.pairwise_append.mp hrest).2.2 z hz y (List.mem_cons_self ..) k j hzk hyj
  rw [hparent hxi, hparent hyj] at hxy
  rw [← Option.some.inj hxy] at hge
  rw [hparent hzk, hparent hxi,
    Blocks.eq_of_ptr (hstream.held k hk) (hstream.held i hi) (le_antisymm hge hle)]

/-- The flags and the temporaries of comparisons and conditions. -/
def writable : List SymPtr :=
  [cfSym, zfSym, sfSym, pfSym, temporary, tempResult, temp2Result].map some

/-- A call that does not raise has the result that calls have in the first table, and leaves a table
that shows the same. -/
theorem call_result {t u t' : SymTable} {result : Sym} (hc : Consistent u t)
    (hget : t.getOrCreate "Temporary".toList resultOfTheCall = .ok (result, t')) :
    result = callResult u ∧ Consistent u t' := by
  rcases call_cases hc with ⟨-, hok⟩ | ⟨-, -, hnext, -, -, hok⟩ | ⟨-, -, reason, herror⟩
  · rw [hok] at hget
    cases hget
    exact ⟨rfl, hc⟩
  · rw [hok] at hget
    cases hget
    exact ⟨rfl, hnext⟩
  · rw [herror] at hget
    cases hget

namespace Translates

variable {i : Instruction} {t u : SymTable} {r : Emitted SymTable Ir Text}

/-- The table of the next instruction shows the same, and its calls have the same result. -/
theorem consistent (h : Translates i t r) (hc : Consistent u t) : Consistent u r.state := by
  cases h with
  | call _ _ hget => exact (call_result hc hget).2
  | _ => exact hc

theorem writes (h : Translates i t r) (hf : FindsFlags t) (hc : Consistent u t) :
    ∀ p ∈ r.out.flatMap Ir.writes, p ∈ writable ∨ p = some (callResult u) := by
  cases h with
  | raises reason => exact fun _ h => absurd h List.not_mem_nil
  | other => exact fun _ h => absurd h List.not_mem_nil
  | call _ _ hget =>
      obtain ⟨rfl, -⟩ := call_result hc hget
      exact fun p hp => Or.inr (List.mem_singleton.mp hp)
  | cmp _ hzf hcf =>
      obtain rfl := Option.some.inj (hzf.symm.trans hf.zf)
      obtain rfl := Option.some.inj (hcf.symm.trans hf.cf)
      rw [cmpIr_writes]
      have hwrites : ∀ p ∈ [some zfSym, some cfSym], p ∈ writable := by decide
      exact fun p hp => Or.inl (hwrites p hp)
  | test _ hzf hsf hpf =>
      obtain rfl := Option.some.inj (hzf.symm.trans hf.zf)
      obtain rfl := Option.some.inj (hsf.symm.trans hf.sf)
      obtain rfl := Option.some.inj (hpf.symm.trans hf.pf)
      rw [testIr_writes]
      have hwrites : ∀ p ∈ [some temporary, some sfSym, some zfSym, some pfSym],
          p ∈ writable := by decide
      exact fun p hp => Or.inl (hwrites p hp)
  | @jump name constant op branch raised _ _ _ hbranch =>
      have hcondition : ∀ p ∈ [some tempResult, some temp2Result, some tempResult],
          p ∈ writable := by decide
      obtain ⟨-, target, -, rfl⟩ | ⟨-, rfl⟩ := hbranch <;>
        exact fun p hp => Or.inl (hcondition p hp)

end Translates

/-- **A run changes nothing but the flags, the temporaries and the result of calls.** -/
theorem execAll_of_run (I : Interpretation) (env : Env) (o : List Instruction) {t : SymTable}
    (ht : HoldsRegisters t) (hf : FindsFlags t) {p : SymPtr} (hp : p ∉ writable)
    (hcall : p ≠ some (callResult t)) :
    execAll I env (reduceInstr factories o t).out p = env p := by
  have hview : ∀ v ∈ mapped o t, Consistent t v.before := fun v hv =>
    visit_before (fun i s hs => (mapInstr_translates i s).consistent hs)
      ⟨SameView.refl ht, rfl⟩ hv
  refine execAll_frame I env fun hw => ?_
  rw [out_reduceInstr] at hw
  obtain ⟨ir, hir, hpir⟩ := List.mem_flatMap.mp hw
  obtain ⟨v, hv, hir⟩ := List.mem_flatMap.mp hir
  have hflags := (hview v hv).view.flags
  have hfound : FindsFlags v.before :=
    ⟨(hflags _ (by decide)).trans hf.cf, (hflags _ (by decide)).trans hf.zf,
      (hflags _ (by decide)).trans hf.sf, (hflags _ (by decide)).trans hf.pf⟩
  have hwritten := (translates_of_mapped hv).writes hfound (hview v hv) p
    (List.mem_flatMap.mpr ⟨ir, hir, hpir⟩)
  exact hwritten.elim hp hcall

/-! ## A test and a jump -/

/-- The flags. -/
def flagTable : SymTable := Keyed.ofList (["zf", "cf", "sf", "pf"].map fun name =>
  (name.toList, registerOf (name.toList, .bit)))

/-- `test   eax, ebx` and the jump behind it. -/
def testStream : List Instruction := ["test   eax, ebx", "jbe    0x0"].map instructionOf

theorem assembly_of_run_test : (reduceInstr factories testStream flagTable).out.map
    Ir.getAssembly =
      testStream.flatMap fun i => List.replicate ((i.getName.map irCount).getD 0) [i] :=
  assembly_of_run (by decide +kernel)

/-- A file with one function, which is one `test`. -/
def testFunction : Bfd := { nopFunction 8 with
  disassembler := some fun _ address =>
    if address = 0x1008 then instrOf 1 "test   eax, ebx" else ⟨0, []⟩ }

/-- The instruction of the function. -/
def testInstr : Instruction :=
  ((ExecutableFile.new testFunction).runDisassembler.out.head?).getD (instructionOf "")

theorem block_of_run_test :
    (Ir.unary [testInstr] (some sfSym) "MSB".toList (some temporary)).getParent =
      (Ir.binary [testInstr] (some temporary) (some eax) "AND".toList (some ebx)).getParent := by
  have hout : (reduceInstr factories (ExecutableFile.new testFunction).runDisassembler.out
      flagTable).out =
      [] ++ .binary [testInstr] (some temporary) (some eax) "AND".toList (some ebx) ::
        [.unary [testInstr] (some sfSym) "MSB".toList (some temporary),
          .cmp [testInstr] (some zfSym) (some temporary) .eq (some (.immidiate "0".toList))] ++
        .unary [testInstr] (some pfSym) "BitwiseXNOR".toList (some temporary) :: [] := by
    decide +kernel
  exact block_of_run (.new testFunction) flagTable hout rfl (List.mem_cons_self ..)

/-- A register keeps its value. -/
theorem execAll_of_run_test :
    execAll ⟨fun x y => x < y, fun _ n => n, id⟩ (fun _ => 7)
      (reduceInstr factories testStream registerTable).out (some eax) = 7 :=
  execAll_of_run _ (fun _ => 7) testStream (fun _ hr => registerTable_find? hr)
    registerTable_findsFlags (by decide) (by decide +kernel)

end Befa
