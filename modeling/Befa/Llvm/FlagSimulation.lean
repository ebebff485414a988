import Befa.Llvm.Semantics

/-!
# Flags after a stream of comparisons

`FlagSetter` is a `cmp` or a `test` of two registers as the processor executes it, and `Reads`
says that an instruction is decoded to it.  The translation of a stream keeps the zero flag as the
processor has it.  A `test` clears the carry flag of the processor, but its translation does not
assign to `_cf`, so there the carry of the last `cmp` stays.

`flagsAgree_iff` says when that carry is the right one.
-/

namespace Befa

/-! ## The processor -/

/-- A `cmp` or a `test` of two registers of one size. -/
structure FlagSetter where
  /-- It is a `test`. -/
  test : Bool
  /-- The size of the registers. -/
  size : Size
  lhs : Text
  rhs : Text

/-- The values of the registers, each of its size. -/
abbrev RegisterValues := (size : Size) → Text → BitVec size.bits

namespace FlagSetter

/-- The name of the instruction. -/
def name (s : FlagSetter) : Text := if s.test then "test".toList else "cmp".toList

/-- The flags behind the instruction. -/
def flags (ρ : RegisterValues) (s : FlagSetter) : Flags :=
  if s.test then .ofAnd (ρ s.size s.lhs) (ρ s.size s.rhs)
  else .ofSub (ρ s.size s.lhs) (ρ s.size s.rhs)

end FlagSetter

/-- The flags behind a stream, which starts from `f`. -/
def flagsAfter (ρ : RegisterValues) (f : Flags) (l : List FlagSetter) : Flags :=
  l.foldl (fun _ s => s.flags ρ) f

/-- The carry of the last `cmp` of a stream, or else the one it starts from. -/
def lastCarry (ρ : RegisterValues) (carry : Bool) (l : List FlagSetter) : Bool :=
  l.foldl (fun carry s => if s.test then carry else (ρ s.size s.lhs).ult (ρ s.size s.rhs)) carry

/-- The carry of the processor is that of the last `cmp`, unless a `test` is last. -/
theorem flagsAfter_carry (ρ : RegisterValues) (f : Flags) (l : List FlagSetter) :
    (flagsAfter ρ f l).carry = (lastCarry ρ f.carry l && !l.getLast?.any (·.test)) := by
  induction l using List.reverseRecOn with
  | nil => simp [flagsAfter, lastCarry]
  | append_singleton init last _ =>
      rw [flagsAfter, lastCarry, List.foldl_append, List.foldl_append]
      cases ht : last.test with
      | true => simp [FlagSetter.flags, ht, Flags.ofAnd]
      | false => simp [FlagSetter.flags, ht]

/-! ## The translation -/

/-- An instruction is decoded to a `cmp` or a `test` of two registers.  They are no flags. -/
structure Reads (t : SymTable) (i : Instruction) (s : FlagSetter) : Prop where
  name : i.getName = some s.name
  operands : ∃ rest, i.args t.toMap =
    .register s.size s.lhs :: .register s.size s.rhs :: rest
  noFlag : s.size ≠ .bit

/-- The values of the symbols, with the registers at `ρ`, the carry at `carry` and the zero flag at
`zero`. -/
structure Shows (ρ : RegisterValues) (carry zero : Bool) (env : Env) : Prop where
  cf : env (some cfSym) = carry.toNat
  zf : env (some zfSym) = zero.toNat
  registers : ∀ size name, size ≠ .bit →
    env (some (.register size name)) = (ρ size name).toNat

/-- `icmp lt` is the unsigned order. -/
def unsignedLt (unary : Text → Nat → Nat) (call : Nat → Nat) : Interpretation where
  lt x y := decide (x < y)
  unary
  call

section Stream

variable {t : SymTable} {ρ : RegisterValues} {unary : Text → Nat → Nat} {call : Nat → Nat}

theorem Reads.translation (ht : FindsFlags t) {i : Instruction} {s : FlagSetter}
    (h : Reads t i s) :
    mapInstr factories i t = ⟨t, if s.test
      then testIr i zfSym sfSym pfSym (.register s.size s.lhs) (.register s.size s.rhs)
      else cmpIr i zfSym cfSym (.register s.size s.lhs) (.register s.size s.rhs), none⟩ := by
  obtain ⟨rest, ha⟩ := h.operands
  have hn := h.name
  cases hs : s.test with
  | true =>
      rw [FlagSetter.name, hs, if_pos rfl] at hn
      have hmap := mapInstr_eq (callFactory_other hn (by decide))
        (compareFactory_test hn ht.zf ht.sf ht.pf ha)
        (jumpFactory_other hn (jumpCondition_eq_none.mpr (by decide)))
      rwa [List.append_nil] at hmap
  | false =>
      rw [FlagSetter.name, hs, if_neg (by decide)] at hn
      have hmap := mapInstr_eq (callFactory_other hn (by decide))
        (compareFactory_cmp hn ht.zf ht.cf ha)
        (jumpFactory_other hn (jumpCondition_eq_none.mpr (by decide)))
      rwa [List.append_nil] at hmap

theorem Shows.cmp {carry zero : Bool} {env : Env} (h : Shows ρ carry zero env) (i : Instruction)
    {size : Size} (hsize : size ≠ .bit) (lhs rhs : Text) :
    Shows ρ ((ρ size lhs).ult (ρ size rhs)) (Flags.ofSub (ρ size lhs) (ρ size rhs)).zero
      (execAll (unsignedLt unary call) env
        (cmpIr i zfSym cfSym (.register size lhs) (.register size rhs))) := by
  have hflag : ∀ name, Sym.register size name ≠ zfSym := by
    intro name he
    injection he with he
    exact hsize he
  have hl : env.value (some (.register size lhs)) = (ρ size lhs).toNat := h.registers _ _ hsize
  have hr : env.value (some (.register size rhs)) = (ρ size rhs).toNat := h.registers _ _ hsize
  refine ⟨?_, ?_, fun size' name hsize' => ?_⟩
  · rw [execAll_cmpIr_cf _ _ _ (hflag lhs) (hflag rhs), hl, hr]
    rfl
  · rw [execAll_cmpIr_zf, hl, hr, Flags.ofSub_zero, beq_eq_decide]
    simp only [BitVec.toNat_inj]
  · rw [execAll_frame, h.registers size' name hsize']
    rw [cmpIr_writes]
    simp [zfSym, cfSym, hsize']

theorem Shows.test {carry zero : Bool} {env : Env} (h : Shows ρ carry zero env) (i : Instruction)
    {size : Size} (hsize : size ≠ .bit) (lhs rhs : Text) :
    Shows ρ carry (Flags.ofAnd (ρ size lhs) (ρ size rhs)).zero
      (execAll (unsignedLt unary call) env
        (testIr i zfSym sfSym pfSym (.register size lhs) (.register size rhs))) := by
  have hl : env.value (some (.register size lhs)) = (ρ size lhs).toNat := h.registers _ _ hsize
  have hr : env.value (some (.register size rhs)) = (ρ size rhs).toNat := h.registers _ _ hsize
  refine ⟨?_, ?_, fun size' name hsize' => ?_⟩
  · rw [execAll_testIr_cf, h.cf]
  · rw [execAll_testIr_zf, hl, hr, ← BitVec.toNat_and, beq_eq_decide]
    show (decide (_ = 0)).toNat = (decide (_ = 0)).toNat
    simp only [BitVec.toNat_eq, BitVec.ofNat_eq_ofNat, BitVec.toNat_ofNat, Nat.zero_mod]
  · rw [execAll_frame, h.registers size' name hsize']
    rw [testIr_writes]
    simp [temporary, zfSym, sfSym, pfSym, hsize']

/-- **The translation of a stream keeps the carry of the last `cmp` and the zero flag of the
processor.** -/
theorem Shows.stream (ht : FindsFlags t) {o : List Instruction} {l : List FlagSetter}
    (hread : List.Forall₂ (Reads t) o l) {carry : Bool} {f : Flags} {env : Env}
    (h : Shows ρ carry f.zero env) :
    Shows ρ (lastCarry ρ carry l) (flagsAfter ρ f l).zero
      (execAll (unsignedLt unary call) env (reduceInstr factories o t).out) := by
  induction hread generalizing carry f env with
  | nil => exact h
  | @cons i s o l hi _ ih =>
      rw [reduceInstr, emitAll_cons, hi.translation ht, Emitted.andThen_of_none rfl]
      show Shows ρ _ _ (execAll _ env (_ ++ (reduceInstr factories o t).out))
      rw [execAll, List.foldl_append]
      show Shows ρ (lastCarry ρ (if s.test then carry else _) l) (flagsAfter ρ (s.flags ρ) l).zero _
      refine ih ?_
      cases hs : s.test with
      | true =>
          rw [FlagSetter.flags, hs]
          exact h.test i hi.noFlag s.lhs s.rhs
      | false =>
          rw [FlagSetter.flags, hs]
          exact h.cmp i hi.noFlag s.lhs s.rhs

/-- **The flags of the translation are those of the processor exactly when no `test` comes last
behind a carry that stands.** -/
theorem flagsAgree_iff (ht : FindsFlags t) {o : List Instruction} {l : List FlagSetter}
    (hread : List.Forall₂ (Reads t) o l) {f : Flags} {env : Env}
    (h : Shows ρ f.carry f.zero env) :
    (execAll (unsignedLt unary call) env (reduceInstr factories o t).out (some cfSym) =
        (flagsAfter ρ f l).carry.toNat ∧
      execAll (unsignedLt unary call) env (reduceInstr factories o t).out (some zfSym) =
        (flagsAfter ρ f l).zero.toNat) ↔
      (l.getLast?.any (·.test) = true → lastCarry ρ f.carry l = false) := by
  have hrun : Shows ρ _ _ (execAll (unsignedLt unary call) env (reduceInstr factories o t).out) :=
    h.stream ht hread
  rw [hrun.cf, hrun.zf, flagsAfter_carry, and_iff_left rfl]
  cases lastCarry ρ f.carry l <;> cases l.getLast?.any (·.test) <;> decide

end Stream

/-! ## A `cmp` and a `test` -/

/-- The values of the symbols, for given flags. -/
def envOf (ρ : RegisterValues) (carry zero : Bool) : Env
  | some (.register size name) =>
      if size = .bit then (if name = "_cf".toList then carry else zero).toNat
      else (ρ size name).toNat
  | _ => 0

theorem shows_envOf (ρ : RegisterValues) (carry zero : Bool) :
    Shows ρ carry zero (envOf ρ carry zero) :=
  ⟨rfl, rfl, fun _ _ h => if_neg h⟩

/-- `ebx` holds one, and the others zero. -/
def oneInEbx : RegisterValues := fun _ name => if name = "_ebx".toList then 1 else 0

/-- `cmp eax, ebx` or `test eax, ebx`. -/
def ofEaxEbx (test : Bool) : FlagSetter := ⟨test, .dword, "_eax".toList, "_ebx".toList⟩

theorem reads_cmp (t : SymTable) : Reads t (instructionOf "cmp    eax, ebx") (ofEaxEbx false) where
  name := by decide +kernel
  operands := ⟨[], args_eax_ebx (by decide +kernel : _ = ["cmp".toList, _, _]) _⟩
  noFlag := by decide

theorem reads_test (t : SymTable) : Reads t (instructionOf "test   eax, ebx") (ofEaxEbx true) where
  name := by decide +kernel
  operands := ⟨[], args_eax_ebx (by decide +kernel : _ = ["test".toList, _, _]) _⟩
  noFlag := by decide

/-- The flags of a `test` followed by a `cmp`. -/
theorem test_cmp_agree :
    execAll (unsignedLt (fun _ _ => 0) id) (envOf oneInEbx true true)
        (reduceInstr factories [instructionOf "test   eax, ebx", instructionOf "cmp    eax, ebx"]
          registerTable).out (some cfSym) = (1 : Nat) ∧
      execAll (unsignedLt (fun _ _ => 0) id) (envOf oneInEbx true true)
        (reduceInstr factories [instructionOf "test   eax, ebx", instructionOf "cmp    eax, ebx"]
          registerTable).out (some zfSym) = (0 : Nat) :=
  (flagsAgree_iff (f := ⟨true, true, false, false⟩) registerTable_findsFlags
    (.cons (reads_test _) (.cons (reads_cmp _) .nil)) (shows_envOf oneInEbx true true)).mpr
      (by decide)

/-- A `test` behind a `cmp` that borrows leaves the carry. -/
theorem cmp_test_stale :
    ¬∀ (t : SymTable) (ρ : RegisterValues) (unary : Text → Nat → Nat) (call : Nat → Nat)
      (o : List Instruction) (l : List FlagSetter) (f : Flags) (env : Env),
        FindsFlags t → List.Forall₂ (Reads t) o l → Shows ρ f.carry f.zero env →
        execAll (unsignedLt unary call) env (reduceInstr factories o t).out (some cfSym) =
            (flagsAfter ρ f l).carry.toNat ∧
          execAll (unsignedLt unary call) env (reduceInstr factories o t).out (some zfSym) =
            (flagsAfter ρ f l).zero.toNat := by
  intro h
  have hread : List.Forall₂ (Reads registerTable)
      [instructionOf "cmp    eax, ebx", instructionOf "test   eax, ebx"]
      [ofEaxEbx false, ofEaxEbx true] := .cons (reads_cmp _) (.cons (reads_test _) .nil)
  let f : Flags := ⟨false, false, false, false⟩
  have hshow : Shows oneInEbx f.carry f.zero (envOf oneInEbx false false) :=
    shows_envOf oneInEbx false false
  have hcf := (h registerTable oneInEbx (fun _ _ => 0) id _ _ f _ registerTable_findsFlags
    hread hshow).1
  rw [(Shows.stream registerTable_findsFlags hread hshow).cf] at hcf
  exact absurd hcf (by decide +kernel)

end Befa
