import Befa.Llvm.Semantics

/-!
# Branches behind a comparison

A comparison stores the order of its operands in the carry flag, and the jumps of the groups `GT`
and `LE` read it there together with the zero flag.  The mnemonics of a group stand for jumps by
the signed and by the unsigned order, and both are translated in one way.  So whichever order
`icmp lt` is read as, the jumps by the other order are decided wrongly, unless the two orders
agree.

`decision_iff_taken` says which branches are decided as the processor decides the jump.
-/

namespace Befa

/-! ## The processor -/

/-- The readings of `icmp lt`. -/
inductive Reading where
  | signed | unsigned
deriving DecidableEq

/-- `icmp lt` on words of a width. -/
def Reading.lt (w : Nat) : Reading → Nat → Nat → Bool
  | signed, x, y => (BitVec.ofNat w x).slt (BitVec.ofNat w y)
  | unsigned, x, y => decide (x < y)

/-- The jumps by the unsigned order, of the groups `GT` and `LE`. -/
def unsignedJumps : List Text := ["ja", "jnbe", "jbe", "jna"].map String.toList

/-- The order a jump of the groups `GT` and `LE` goes by. -/
def readingOf (name : Text) : Reading := if name ∈ unsignedJumps then .unsigned else .signed

/-- Whether the processor takes a jump of the groups `GT` and `LE`. -/
def taken (name : Text) (f : Flags) : Bool :=
  if name = "ja".toList ∨ name = "jnbe".toList then !f.carry && !f.zero
  else if name = "jg".toList ∨ name = "jnle".toList then !f.less && !f.zero
  else if name = "jbe".toList ∨ name = "jna".toList then f.carry || f.zero
  else f.less || f.zero

/-- A jump asks whether the operands are equal, and for one order. -/
def decides (name : Text) (less equal : Bool) : Bool :=
  if name ∈ jumps .gt then !less && !equal else less || equal

theorem taken_eq {name : Text} (h : name ∈ jumps .gt ++ jumps .le) (f : Flags) :
    taken name f =
      decides name (if readingOf name = .unsigned then f.carry else f.less) f.zero := by
  obtain ⟨carry, zero, sign, overflow⟩ := f
  revert name carry zero sign overflow
  decide +kernel

/-- Two orders decide a jump in the same way when the operands are equal or the orders agree. -/
theorem decides_eq_iff {name : Text} {less less' equal : Bool} :
    decides name less equal = decides name less' equal ↔ equal = true ∨ less = less' := by
  rw [decides, decides]
  split <;> revert less less' equal <;> decide

/-! ## A comparison and a jump -/

/-- A `cmp` of two operands and a jump of the groups `GT` and `LE`.  No operand is a flag. -/
structure CompareAndJump (t : SymTable) (c j : Instruction) (a b : Sym) (name : Text) : Prop where
  flags : FindsFlags t
  cmp : c.getName = some "cmp".toList
  operands : ∃ rest, c.args t.toMap = a :: b :: rest
  lhs : a ≠ zfSym
  rhs : b ≠ zfSym
  jump : j.getName = some name
  group : name ∈ jumps .gt ++ jumps .le
  target : ∃ target rest, j.args .nil = target :: rest

/-- The decision of the branch that a comparison and a jump are translated to. -/
def branchDecision (I : Interpretation) (t : SymTable) (c j : Instruction) (env : Env) :
    Option Bool :=
  decision I env (reduceInstr factories [c, j] t).out

section Branches

variable {t : SymTable} {c j : Instruction} {a b : Sym} {name : Text}

theorem CompareAndJump.translation (h : CompareAndJump t c j a b name) :
    ∃ target condition, jumpCondition j name (some cfSym) (some zfSym) = some condition ∧
      (reduceInstr factories [c, j] t).out =
        cmpIr c zfSym cfSym a b ++ (condition ++ [.branch [j] (some tempResult) (some target)]) := by
  obtain ⟨rest, hab⟩ := h.operands
  obtain ⟨target, rest', htarget⟩ := h.target
  obtain ⟨condition, hcond⟩ : ∃ condition,
      jumpCondition j name (some cfSym) (some zfSym) = some condition := by
    refine Option.ne_none_iff_exists'.mp fun hnone => ?_
    obtain ⟨hgt, hle⟩ := jumpCondition_eq_none.mp hnone
    exact (List.mem_append.mp h.group).elim hgt hle
  have hnames : ∀ n ∈ jumps .gt ++ jumps .le,
      n ≠ "call".toList ∧ n ≠ "cmp".toList ∧ n ≠ "test".toList := by decide
  obtain ⟨hcall, hcmp, htest⟩ := hnames name h.group
  have hc : mapInstr factories c t = ⟨t, cmpIr c zfSym cfSym a b ++ [], none⟩ :=
    mapInstr_eq (callFactory_other h.cmp (by decide))
      (compareFactory_cmp h.cmp h.flags.zf h.flags.cf hab)
      (jumpFactory_other h.cmp (jumpCondition_eq_none.mpr (by decide)))
  have hj : mapInstr factories j t =
      ⟨t, [] ++ (condition ++ [.branch [j] (some tempResult) (some target)]), none⟩ :=
    mapInstr_eq (callFactory_other h.jump hcall) (compareFactory_other h.jump hcmp htest)
      (jumpFactory_jump h.jump (by rw [h.flags.cf, h.flags.zf]; exact hcond) htarget)
  refine ⟨target, condition, hcond, ?_⟩
  rw [reduceInstr, emitAll_cons, hc, Emitted.andThen_of_none rfl, emitAll_cons, hj,
    Emitted.andThen_of_none rfl]
  simp

/-- A branch goes by the order that `icmp lt` is read as. -/
theorem CompareAndJump.branchDecision (h : CompareAndJump t c j a b name) (I : Interpretation)
    {env : Env} {x y : Nat} (ha : env.value (some a) = x) (hb : env.value (some b) = y) :
    branchDecision I t c j env = some (decides name (I.lt x y) (x == y)) := by
  obtain ⟨target, condition, hcond, hout⟩ := h.translation
  have hplain : ∀ ir ∈ cmpIr c zfSym cfSym a b, ∀ assembly condition target,
      ir ≠ .branch assembly condition target := by
    intro ir hir assembly condition target he
    simp [cmpIr, he] at hir
  rw [Befa.branchDecision, hout, decision_append I _ env hplain]
  rw [jumpCondition] at hcond
  by_cases hgt : name ∈ jumps .gt
  · rw [if_pos hgt] at hcond
    obtain rfl := Option.some.inj hcond
    rw [decision_conditionIr, execAll_cmpIr_cf I env c h.lhs h.rhs, execAll_cmpIr_zf, ha, hb,
      decides, if_pos hgt]
    cases I.lt x y <;> cases (x == y) <;> decide
  · rw [if_neg hgt, if_pos ((List.mem_append.mp h.group).resolve_left hgt)] at hcond
    obtain rfl := Option.some.inj hcond
    rw [decision_conditionIr, execAll_cmpIr_cf I env c h.lhs h.rhs, execAll_cmpIr_zf, ha, hb,
      decides, if_neg hgt]
    cases I.lt x y <;> cases (x == y) <;> decide

/-- The readings are the orders of words. -/
theorem Reading.lt_toNat {w : Nat} (rd : Reading) (x y : BitVec w) :
    rd.lt w x.toNat y.toNat = if rd = .unsigned then x.ult y else x.slt y := by
  cases rd with
  | unsigned => rfl
  | signed => simp [Reading.lt]

/-- **A branch is decided as the processor decides the jump exactly when `icmp lt` is read as the
order of the jump, or the operands have one sign.** -/
theorem decision_iff_taken (h : CompareAndJump t c j a b name) (rd : Reading)
    (unary : Text → Nat → Nat) (call : Nat → Nat) {w : Nat} (x y : BitVec w) {env : Env}
    (ha : env.value (some a) = x.toNat) (hb : env.value (some b) = y.toNat) :
    branchDecision ⟨rd.lt w, unary, call⟩ t c j env = some (taken name (Flags.ofSub x y)) ↔
      rd = readingOf name ∨ x.msb = y.msb := by
  have hequal : (x.toNat == y.toNat) = decide (x = y) := by
    rw [Bool.eq_iff_iff, beq_iff_eq, decide_eq_true_eq, BitVec.toNat_inj]
  rw [h.branchDecision _ ha hb, Option.some.injEq, taken_eq h.group, Flags.ofSub_carry,
    Flags.ofSub_less, Flags.ofSub_zero, hequal, decides_eq_iff, decide_eq_true_eq]
  show x = y ∨ rd.lt w x.toNat y.toNat = _ ↔ _
  rw [Reading.lt_toNat]
  have hmsb : x = y ∨ x.slt y = x.ult y ↔ x.msb = y.msb := by
    rw [Flags.slt_eq_ult_iff]
    exact ⟨fun h => h.elim (fun he => by rw [he]) id, Or.inr⟩
  generalize readingOf name = order
  cases rd with
  | signed =>
      cases order with
      | signed => exact iff_of_true (Or.inr rfl) (Or.inl rfl)
      | unsigned => exact hmsb.trans (or_iff_right (by decide)).symm
  | unsigned =>
      cases order with
      | signed =>
          rw [if_pos rfl, if_neg (by decide), eq_comm (a := x.ult y)]
          exact hmsb.trans (or_iff_right (by decide)).symm
      | unsigned => exact iff_of_true (Or.inr rfl) (Or.inl rfl)

end Branches

/-! ## Signed and unsigned jumps -/

theorem cmp_and_jump {text : String} {name : Text} (hgroup : name ∈ jumps .gt ++ jumps .le)
    (hparse : (instructionOf text).parse = [name, "0".toList]) :
    CompareAndJump registerTable (instructionOf "cmp    eax, ebx") (instructionOf text) eax ebx
      name where
  flags := registerTable_findsFlags
  cmp := by decide +kernel
  operands := ⟨[], args_eax_ebx (by decide +kernel : _ = ["cmp".toList, _, _]) _⟩
  lhs := by decide
  rhs := by decide
  jump := by rw [Instruction.getName, hparse]; rfl
  group := hgroup
  target := by
    obtain ⟨target, ht⟩ := Option.isSome_iff_exists.mp (handleExpression_isSome .nil "0".toList)
    refine ⟨target, [], ?_⟩
    rw [Instruction.args, hparse]
    show List.filterMap (handleExpression .nil) ["0".toList] = _
    rw [List.filterMap_cons_some ht]
    rfl

theorem cmp_ja : CompareAndJump registerTable (instructionOf "cmp    eax, ebx")
    (instructionOf "ja     0x0") eax ebx "ja".toList :=
  cmp_and_jump (by decide) (by decide +kernel)

theorem cmp_jg : CompareAndJump registerTable (instructionOf "cmp    eax, ebx")
    (instructionOf "jg     0x0") eax ebx "jg".toList :=
  cmp_and_jump (by decide) (by decide +kernel)

/-- The values of `eax` and `ebx`. -/
def twoValues (x y : BitVec 32) : Env := fun p => if p = some eax then x.toNat else y.toNat

/-- An unsigned jump, with `icmp lt` read as unsigned. -/
theorem ja_decided :
    branchDecision ⟨Reading.unsigned.lt 32, fun _ _ => 0, id⟩ registerTable
        (instructionOf "cmp    eax, ebx") (instructionOf "ja     0x0") (twoValues 0xffffffff 1) =
      some (taken "ja".toList (Flags.ofSub (0xffffffff : BitVec 32) 1)) :=
  (decision_iff_taken cmp_ja .unsigned _ _ 0xffffffff 1 rfl rfl).mpr (Or.inl (by decide))

/-- No reading of `icmp lt` decides all branches. -/
theorem no_reading_decides :
    ¬∃ rd : Reading, ∀ (t : SymTable) (c j : Instruction) (a b : Sym) (name : Text),
      CompareAndJump t c j a b name →
        ∀ (w : Nat) (x y : BitVec w) (env : Env), env.value (some a) = x.toNat →
          env.value (some b) = y.toNat →
          branchDecision ⟨rd.lt w, fun _ _ => 0, id⟩ t c j env =
            some (taken name (Flags.ofSub x y)) := by
  intro ⟨rd, h⟩
  cases rd with
  | signed =>
      have hja := h _ _ _ _ _ _ cmp_ja 32 0xffffffff 1 (twoValues 0xffffffff 1) rfl rfl
      rw [cmp_ja.branchDecision _ rfl rfl] at hja
      exact absurd hja (by decide +kernel)
  | unsigned =>
      have hjg := h _ _ _ _ _ _ cmp_jg 32 0xffffffff 1 (twoValues 0xffffffff 1) rfl rfl
      rw [cmp_jg.branchDecision _ rfl rfl] at hjg
      exact absurd hjg (by decide +kernel)

end Befa
