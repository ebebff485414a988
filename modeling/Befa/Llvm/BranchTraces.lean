import Befa.Llvm.Branches
import Befa.Llvm.DefUse
import Befa.Llvm.FlagSimulation

/-!
# Branches of a stream

A stream compares operands and jumps in any order, and the processor decides each jump by the
flags of the last comparison.  The branches of the translation go by the zero flag of the
processor, but by the carry of the last `cmp`, read as the unsigned order.

`decisions_eq_iff` says which streams are decided as the processor decides them: those where at
each jump the operands are equal, or the carry of the last `cmp` is the order of that jump.
-/

namespace Befa

/-! ## The processor -/

/-- A `cmp` or a `test` of two operands of one width. -/
structure Comparison where
  /-- It is a `test`. -/
  test : Bool
  width : Nat
  lhs : Sym
  rhs : Sym

namespace Comparison

/-- The name of the instruction. -/
def name (s : Comparison) : Text := if s.test then "test".toList else "cmp".toList

/-- The word that is compared. -/
def left (env : Env) (s : Comparison) : BitVec s.width := .ofNat _ (env.value (some s.lhs))

/-- The word it is compared to. -/
def right (env : Env) (s : Comparison) : BitVec s.width := .ofNat _ (env.value (some s.rhs))

/-- The flags behind the instruction. -/
def flags (env : Env) (s : Comparison) : Flags :=
  if s.test then .ofAnd (s.left env) (s.right env) else .ofSub (s.left env) (s.right env)

/-- The operands hold words of the width.  They are no flags and no temporaries. -/
structure Fits (env : Env) (s : Comparison) : Prop where
  lhs : some s.lhs ∉ writable
  rhs : some s.rhs ∉ writable
  left : env.value (some s.lhs) < 2 ^ s.width
  right : env.value (some s.rhs) < 2 ^ s.width

end Comparison

/-- An instruction that sets the flags or jumps by them. -/
inductive FlagInstr where
  /-- A `cmp` or a `test`. -/
  | set (s : Comparison)
  /-- A jump of the groups `GT` and `LE`. -/
  | jump (name : Text)
  /-- A jump of another group. -/
  | skip (name : Text)

/-- The order a jump goes by. -/
def order (name : Text) (f : Flags) : Bool := if readingOf name = .unsigned then f.carry else f.less

namespace FlagInstr

/-- The flags behind the instruction. -/
def flags (env : Env) (f : Flags) : FlagInstr → Flags
  | set s => s.flags env
  | jump _ => f
  | skip _ => f

/-- The carry of the last `cmp`, behind the instruction. -/
def carry (env : Env) (c : Bool) : FlagInstr → Bool
  | set s => if s.test then c else (s.left env).ult (s.right env)
  | jump _ => c
  | skip _ => c

/-- What the processor decides at the jumps of the groups `GT` and `LE`. -/
def allTaken (env : Env) : Flags → List FlagInstr → List Bool
  | _, [] => []
  | f, jump name :: l => taken name f :: allTaken env f l
  | f, i :: l => allTaken env (i.flags env f) l

end FlagInstr

open FlagInstr

/-- A jump is decided as the processor decides it, behind a part of a stream. -/
def Settled (env : Env) (c : Bool) (f : Flags) (l : List FlagInstr) (name : Text) : Prop :=
  (l.foldl (FlagInstr.flags env) f).zero = true ∨
    l.foldl (FlagInstr.carry env) c = order name (l.foldl (FlagInstr.flags env) f)

/-- All jumps of a stream are. -/
def AllSettled (env : Env) (c : Bool) (f : Flags) (l : List FlagInstr) : Prop :=
  ∀ before name after, l = before ++ .jump name :: after → Settled env c f before name

theorem allSettled_nil (env : Env) (c : Bool) (f : Flags) : AllSettled env c f [] := by
  intro before name after h
  exact absurd h.symm (by simp)

theorem allSettled_cons {env : Env} {c : Bool} {f : Flags} {i : FlagInstr} {l : List FlagInstr} :
    AllSettled env c f (i :: l) ↔ (∀ name, i = .jump name → f.zero = true ∨ c = order name f) ∧
      AllSettled env (i.carry env c) (i.flags env f) l := by
  constructor
  · intro h
    refine ⟨fun name hi => h [] name l (by rw [hi]; rfl), fun before name after hl => ?_⟩
    exact h (i :: before) name after (by rw [hl]; rfl)
  · rintro ⟨hfirst, hrest⟩ before name after hl
    cases before with
    | nil => exact hfirst name (List.cons.inj hl).1
    | cons j before =>
        obtain ⟨rfl, htail⟩ := List.cons.inj hl
        exact hrest before name after htail

/-! ## The translation -/

/-- What the branches of a sequence decide. -/
def decisions (I : Interpretation) : Env → List Ir → List Bool
  | _, [] => []
  | env, .branch _ condition _ :: rest => (env.value condition != 0) :: decisions I env rest
  | env, ir :: rest => decisions I (ir.exec I env) rest

theorem decisions_append (I : Interpretation) (env : Env) (l rest : List Ir) :
    decisions I env (l ++ rest) = decisions I env l ++ decisions I (execAll I env l) rest := by
  induction l generalizing env with
  | nil => rfl
  | cons ir l ih =>
      cases ir with
      | branch assembly condition target =>
          simp only [List.cons_append, decisions, ih]
          rfl
      | _ =>
          simp only [List.cons_append, decisions, ih]
          rfl

theorem decision_eq_head? (I : Interpretation) (env : Env) (l : List Ir) :
    decision I env l = (decisions I env l).head? := by
  induction l generalizing env with
  | nil => rfl
  | cons ir l ih =>
      cases ir with
      | branch assembly condition target => rfl
      | _ => exact ih _

/-- An instruction is decoded to one that sets the flags or jumps. -/
inductive ReadsFlags (t : SymTable) (env : Env) (i : Instruction) : FlagInstr → Prop where
  | set {s : Comparison} {rest : List Sym} : i.getName = some s.name →
      i.args t.toMap = s.lhs :: s.rhs :: rest → s.Fits env → ReadsFlags t env i (.set s)
  | jump {name : Text} {target : Sym} {rest : List Sym} : i.getName = some name →
      name ∈ jumps .gt ++ jumps .le → i.args .nil = target :: rest →
      ReadsFlags t env i (.jump name)
  | skip {name : Text} : i.getName = some name →
      name ∈ jumps .ge ++ jumps .lt ++ jumps .eq ++ jumps .ne → ReadsFlags t env i (.skip name)

/-- A `cmp` or a `test` of two registers. -/
def FlagSetter.comparison (s : FlagSetter) : Comparison :=
  ⟨s.test, s.size.bits, .register s.size s.lhs, .register s.size s.rhs⟩

theorem Reads.readsFlags {t : SymTable} {env : Env} {i : Instruction} {s : FlagSetter}
    (h : Reads t i s)
    (hfit : ∀ name ∈ [s.lhs, s.rhs], env (some (.register s.size name)) < 2 ^ s.size.bits) :
    ReadsFlags t env i (.set s.comparison) := by
  have hplain : ∀ name, some (Sym.register s.size name) ∉ writable := by
    intro name
    simp [writable, cfSym, zfSym, sfSym, pfSym, temporary, tempResult, temp2Result, h.noFlag]
  obtain ⟨rest, ha⟩ := h.operands
  exact .set h.name ha ⟨hplain _, hplain _, hfit _ (List.mem_cons_self ..),
    hfit _ (List.mem_cons_of_mem _ (List.mem_cons_self ..))⟩

/-- What the branch behind an instruction decides. -/
def decided (c zero : Bool) : FlagInstr → List Bool
  | .set _ => []
  | .jump name => [decides name c zero]
  | .skip _ => []

/-- The flags are at `carry` and `zero`, and the rest is as in `start`, but for the temporaries. -/
structure ShowsFlags (start : Env) (carry zero : Bool) (env : Env) : Prop where
  cf : env (some cfSym) = carry.toNat
  zf : env (some zfSym) = zero.toNat
  rest : ∀ p, p ∉ writable → env p = start p

section Stream

variable {t : SymTable} {start env : Env} {c zero : Bool} {f : Flags} {i : Instruction}

namespace ShowsFlags

/-- A part of the translation that writes flags and temporaries. -/
theorem after (h : ShowsFlags start c zero env) (I : Interpretation) {l : List Ir}
    (hl : ∀ p ∈ l.flatMap Ir.writes, p ∈ writable) {c' zero' : Bool}
    (hcf : execAll I env l (some cfSym) = c'.toNat)
    (hzf : execAll I env l (some zfSym) = zero'.toNat) :
    ShowsFlags start c' zero' (execAll I env l) where
  cf := hcf
  zf := hzf
  rest := fun p hp => (execAll_frame I env fun hw => hp (hl p hw)).trans (h.rest p hp)

theorem left (h : ShowsFlags start c zero env) {s : Comparison} (hs : s.Fits start) :
    env.value (some s.lhs) = (s.left start).toNat := by
  rw [Env.value_congr (h.rest _ hs.lhs), Comparison.left, BitVec.toNat_ofNat,
    Nat.mod_eq_of_lt hs.left]

theorem right (h : ShowsFlags start c zero env) {s : Comparison} (hs : s.Fits start) :
    env.value (some s.rhs) = (s.right start).toNat := by
  rw [Env.value_congr (h.rest _ hs.rhs), Comparison.right, BitVec.toNat_ofNat,
    Nat.mod_eq_of_lt hs.right]

/-- A `cmp` sets both flags. -/
theorem cmp (h : ShowsFlags start c zero env) (unary : Text → Nat → Nat) (call : Nat → Nat)
    (i : Instruction) {s : Comparison} (hs : s.Fits start) :
    ShowsFlags start ((s.left start).ult (s.right start))
      (Flags.ofSub (s.left start) (s.right start)).zero
      (execAll (unsignedLt unary call) env (cmpIr i zfSym cfSym s.lhs s.rhs)) := by
  have hl : s.lhs ≠ zfSym := fun he => hs.lhs (by rw [he]; decide)
  have hr : s.rhs ≠ zfSym := fun he => hs.rhs (by rw [he]; decide)
  refine h.after _ (by rw [cmpIr_writes]; decide) ?_ ?_
  · rw [execAll_cmpIr_cf _ _ _ hl hr, h.left hs, h.right hs]
    rfl
  · rw [execAll_cmpIr_zf, h.left hs, h.right hs, Flags.ofSub_zero, beq_eq_decide]
    simp only [BitVec.toNat_inj]

/-- A `test` leaves the carry. -/
theorem test (h : ShowsFlags start c zero env) (unary : Text → Nat → Nat) (call : Nat → Nat)
    (i : Instruction) {s : Comparison} (hs : s.Fits start) :
    ShowsFlags start c (Flags.ofAnd (s.left start) (s.right start)).zero
      (execAll (unsignedLt unary call) env (testIr i zfSym sfSym pfSym s.lhs s.rhs)) := by
  refine h.after _ (by rw [testIr_writes]; decide) ?_ ?_
  · rw [execAll_testIr_cf, h.cf]
  · rw [execAll_testIr_zf, h.left hs, h.right hs, ← BitVec.toNat_and, beq_eq_decide]
    show (decide (_ = 0)).toNat = (decide (_ = 0)).toNat
    simp only [BitVec.toNat_eq, BitVec.ofNat_eq_ofNat, BitVec.toNat_ofNat, Nat.zero_mod]

/-- A jump leaves the flags and the operands. -/
theorem condition (h : ShowsFlags start c zero env) (I : Interpretation) (i : Instruction)
    (constant op : Text) (target : Sym) :
    ShowsFlags start c zero (execAll I env
      (conditionIr i (some cfSym) (some zfSym) constant op ++
        [.branch [i] (some tempResult) (some target)])) := by
  have hwrites : (conditionIr i (some cfSym) (some zfSym) constant op ++
      [Ir.branch [i] (some tempResult) (some target)]).flatMap Ir.writes =
        [some tempResult, some temp2Result, some tempResult] := rfl
  refine h.after I (by rw [hwrites]; decide) ?_ ?_
  · exact (execAll_frame I env (by rw [hwrites]; decide)).trans h.cf
  · exact (execAll_frame I env (by rw [hwrites]; decide)).trans h.zf

theorem decisions_condition (h : ShowsFlags start c zero env) (I : Interpretation) (i : Instruction)
    (constant op : Text) (target : Sym) :
    decisions I env (conditionIr i (some cfSym) (some zfSym) constant op ++
        [.branch [i] (some tempResult) (some target)]) =
      [binaryOp op (zero.toNat == hexValue (dropHexPrefix constant)).toNat
        (c.toNat == hexValue (dropHexPrefix constant)).toNat != 0] := by
  have hhead := decision_conditionIr I env i constant op target
  rw [decision_eq_head?, h.cf, h.zf] at hhead
  have hone : ∃ b, decisions I env (conditionIr i (some cfSym) (some zfSym) constant op ++
      [.branch [i] (some tempResult) (some target)]) = [b] := ⟨_, rfl⟩
  obtain ⟨b, hb⟩ := hone
  rw [hb] at hhead ⊢
  exact congrArg (fun b => [b]) (Option.some.inj hhead)

/-- **One instruction.** -/
theorem step (h : ShowsFlags start c f.zero env) (unary : Text → Nat → Nat)
    (call : Nat → Nat) (ht : FindsFlags t)
    {x : FlagInstr} (hread : ReadsFlags t start i x) :
    ∃ out, mapInstr factories i t = ⟨t, out, none⟩ ∧
      ShowsFlags start (x.carry start c) (x.flags start f).zero
        (execAll (unsignedLt unary call) env out) ∧
      decisions (unsignedLt unary call) env out = decided c f.zero x := by
  cases hread with
  | @set s rest hn ha hs =>
      have hplain : jumpFactory i t = ⟨t, [], none⟩ := by
        refine jumpFactory_other hn (jumpCondition_eq_none.mpr ?_)
        rw [Comparison.name]
        cases s.test <;> decide
      cases htest : s.test with
      | true =>
          rw [Comparison.name, htest, if_pos rfl] at hn
          refine ⟨_, mapInstr_eq (callFactory_other hn (by decide))
            (compareFactory_test hn ht.zf ht.sf ht.pf ha) hplain, ?_, rfl⟩
          rw [List.append_nil, FlagInstr.carry, FlagInstr.flags, Comparison.flags, htest]
          exact h.test unary call i hs
      | false =>
          rw [Comparison.name, htest, if_neg (by decide)] at hn
          refine ⟨_, mapInstr_eq (callFactory_other hn (by decide))
            (compareFactory_cmp hn ht.zf ht.cf ha) hplain, ?_, rfl⟩
          rw [List.append_nil, FlagInstr.carry, FlagInstr.flags, Comparison.flags, htest]
          exact h.cmp unary call i hs
  | @jump name target rest hn hgroup ha =>
      have hnames : ∀ n ∈ jumps .gt ++ jumps .le,
          n ≠ "call".toList ∧ n ≠ "cmp".toList ∧ n ≠ "test".toList := by decide
      obtain ⟨hcall, hcmp, htest⟩ := hnames name hgroup
      have hmap : ∀ condition, jumpCondition i name (some cfSym) (some zfSym) = some condition →
          mapInstr factories i t =
            ⟨t, [] ++ (condition ++ [.branch [i] (some tempResult) (some target)]), none⟩ :=
        fun condition hcond => mapInstr_eq (callFactory_other hn hcall)
          (compareFactory_other hn hcmp htest)
          (jumpFactory_jump hn (by rw [ht.cf, ht.zf]; exact hcond) ha)
      by_cases hgt : name ∈ jumps .gt
      · refine ⟨_, hmap _ (if_pos hgt), h.condition .., ?_⟩
        rw [List.nil_append, h.decisions_condition, decided, decides, if_pos hgt]
        cases c <;> cases f.zero <;> decide
      · refine ⟨_, hmap _ ((if_neg hgt).trans
          (if_pos ((List.mem_append.mp hgroup).resolve_left hgt))), h.condition .., ?_⟩
        rw [List.nil_append, h.decisions_condition, decided, decides, if_neg hgt]
        cases c <;> cases f.zero <;> decide
  | @skip name hn hgroup =>
      have hnames : ∀ n ∈ jumps .ge ++ jumps .lt ++ jumps .eq ++ jumps .ne, n ≠ "call".toList ∧
          n ≠ "cmp".toList ∧ n ≠ "test".toList ∧ n ∉ jumps .gt ∧ n ∉ jumps .le := by decide
      obtain ⟨hcall, hcmp, htest, hjump⟩ := hnames name hgroup
      exact ⟨_, mapInstr_eq (callFactory_other hn hcall) (compareFactory_other hn hcmp htest)
        (jumpFactory_other hn (jumpCondition_eq_none.mpr hjump)), h, rfl⟩

/-- **A stream.** -/
theorem run (h : ShowsFlags start c f.zero env) (unary : Text → Nat → Nat)
    (call : Nat → Nat) (ht : FindsFlags t)
    {o : List Instruction} {l : List FlagInstr}
    (hread : List.Forall₂ (ReadsFlags t start) o l) :
    (reduceInstr factories o t).raised = none ∧
      (decisions (unsignedLt unary call) env (reduceInstr factories o t).out = allTaken start f l ↔
        AllSettled start c f l) := by
  induction hread generalizing c f env with
  | nil => exact ⟨rfl, iff_of_true rfl (allSettled_nil start c f)⟩
  | @cons i x o l hi _ ih =>
      obtain ⟨out, hmap, hshows, hout⟩ := h.step unary call ht hi
      obtain ⟨hraised, hrest⟩ := ih hshows
      rw [allSettled_cons, ← hrest, reduceInstr, emitAll_cons, hmap, Emitted.andThen_of_none rfl]
      refine ⟨hraised, ?_⟩
      show decisions _ env (out ++ (reduceInstr factories o t).out) = _ ↔ _
      rw [decisions_append, hout]
      cases hi with
      | set _ _ _ => simp [decided, allTaken]
      | skip _ _ => simp [decided, allTaken]
      | @jump name target rest hn hgroup ha =>
          rw [decided, allTaken, List.singleton_append, List.cons.injEq, taken_eq hgroup,
            decides_eq_iff]
          simp [order, FlagInstr.flags]

end ShowsFlags

/-- **A stream is decided as the processor decides it exactly when all its jumps are settled.** -/
theorem decisions_eq_iff (unary : Text → Nat → Nat) (call : Nat → Nat) (ht : FindsFlags t)
    {o : List Instruction} {l : List FlagInstr} (hread : List.Forall₂ (ReadsFlags t env) o l)
    (hcf : env (some cfSym) = c.toNat) (hzf : env (some zfSym) = f.zero.toNat) :
    (reduceInstr factories o t).raised = none ∧
      (decisions (unsignedLt unary call) env (reduceInstr factories o t).out = allTaken env f l ↔
        AllSettled env c f l) :=
  ShowsFlags.run ⟨hcf, hzf, fun _ _ => rfl⟩ unary call ht hread

end Stream

/-! ## A stream -/

/-- `cmp eax, 0x5`. -/
def cmpFive : Comparison := ⟨false, 32, eax, .immidiate "5".toList⟩

theorem readsFlags_jump {text : String} {name : Text} (env : Env)
    (hgroup : name ∈ jumps .gt ++ jumps .le)
    (hparse : (instructionOf text).parse = [name, "0".toList]) :
    ReadsFlags registerTable env (instructionOf text) (.jump name) := by
  obtain ⟨target, rest, ha⟩ := (cmp_and_jump hgroup hparse).target
  exact .jump (cmp_and_jump hgroup hparse).jump hgroup ha

theorem readsFlags_cmpFive {env : Env} (hfit : env (some eax) < 2 ^ 32) :
    ReadsFlags registerTable env (instructionOf "cmp    eax, 0x5") (.set cmpFive) := by
  have hparse : (instructionOf "cmp    eax, 0x5").parse =
      ["cmp".toList, "eax".toList, "5".toList] := by decide +kernel
  have heax : handleExpression registerTable.toMap "eax".toList = some eax :=
    handleExpression_registerName (by decide +kernel) (by decide +kernel)
  have hfive : handleExpression registerTable.toMap "5".toList =
      some (.immidiate "5".toList) := by
    obtain ⟨n, hn, htext⟩ : ∃ n, number.fullMatch "5".toList = some n ∧ n 1 = "5".toList :=
      Regex.fullMatch_group (Regex.fullMatch_isSome.mp (by decide +kernel))
    rw [handleExpression_number (by decide +kernel) (by decide +kernel) hn, createImm, htext]
  have hargs : (instructionOf "cmp    eax, 0x5").args registerTable.toMap =
      [eax, .immidiate "5".toList] := by
    rw [Instruction.args, hparse]
    show List.filterMap (handleExpression registerTable.toMap) ["eax".toList, "5".toList] = _
    rw [List.filterMap_cons_some heax, List.filterMap_cons_some hfive]
    rfl
  exact .set (by rw [Instruction.getName, hparse]; rfl) hargs
    ⟨by decide, by decide, hfit, (by decide : hexValue (dropHexPrefix "5".toList) < 2 ^ 32)⟩

/-- The carry of the `cmp` stands behind the `test`, but the zero flag decides the second jump. -/
theorem cmp_ja_test_jbe_decided :
    (reduceInstr factories (["cmp    eax, 0x5", "ja     0x0", "test   eax, ebx",
        "jbe    0x0"].map instructionOf) registerTable).raised = none ∧
      decisions (unsignedLt (fun _ _ => 0) id) (fun _ => 0)
        (reduceInstr factories (["cmp    eax, 0x5", "ja     0x0", "test   eax, ebx",
          "jbe    0x0"].map instructionOf) registerTable).out = [false, true] := by
  have hread : List.Forall₂ (ReadsFlags registerTable fun _ => 0)
      (["cmp    eax, 0x5", "ja     0x0", "test   eax, ebx", "jbe    0x0"].map instructionOf)
      [.set cmpFive, .jump "ja".toList, .set (ofEaxEbx true).comparison, .jump "jbe".toList] :=
    .cons (readsFlags_cmpFive (by decide))
      (.cons (readsFlags_jump _ (by decide) (by decide +kernel))
        (.cons ((reads_test _).readsFlags (by decide))
          (.cons (readsFlags_jump _ (by decide) (by decide +kernel)) .nil)))
  have hrun := decisions_eq_iff (c := false) (f := ⟨false, false, false, false⟩) (fun _ _ => 0)
    id registerTable_findsFlags hread rfl rfl
  refine ⟨hrun.1, (hrun.2.mpr ?_).trans (by decide)⟩
  simp only [allSettled_cons, allSettled_nil, and_true]
  refine ⟨by simp, ?_, by simp, ?_⟩
  · rintro name ⟨⟩
    decide
  · rintro name ⟨⟩
    decide

end Befa
