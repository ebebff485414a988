import Befa.Lib.Flags
import Befa.Llvm.Decompiler

/-!
# The meaning of the intermediate language

The values of symbols are natural numbers, and a bit is `0` or `1`.  An `Interpretation` reads
`icmp lt`, the unary operators and calls, whose meaning the instructions leave open.  `Ir.exec` is
the effect of one instruction and `decision` is what the first branch of a sequence decides.

The end of the module says what the factories emit for a comparison and for a jump, as an effect
on the values.
-/

namespace Befa

/-! ## Values -/

/-- The values of symbols.  A null pointer is a cell like any other. -/
abbrev Env := SymPtr → Nat

/-- The value of an operand. -/
def Env.value (env : Env) : SymPtr → Nat
  | some (.immidiate value) => hexValue (dropHexPrefix value)
  | p => env p

def Env.set (env : Env) (p : SymPtr) (n : Nat) : Env := fun q => if q = p then n else env q

theorem Env.set_same (env : Env) (p : SymPtr) (n : Nat) : env.set p n p = n := if_pos rfl

theorem Env.set_ne (env : Env) {p q : SymPtr} (h : q ≠ p) (n : Nat) : env.set p n q = env q :=
  if_neg h

/-- Assigning to another symbol does not change the value of an operand. -/
theorem Env.value_set_ne (env : Env) {p q : SymPtr} (h : q ≠ p) (n : Nat) :
    (env.set p n).value q = env.value q := by
  rcases q with _ | q
  · exact Env.set_ne env h n
  · cases q with
    | immidiate value => rfl
    | _ => exact Env.set_ne env h n

/-! ## Execution -/

/-- What the instructions leave open. -/
structure Interpretation where
  /-- `icmp lt`. -/
  lt : Nat → Nat → Bool
  /-- The unary operators. -/
  unary : Text → Nat → Nat
  /-- What a function returns, from the value of the symbol that is called. -/
  call : Nat → Nat

/-- A comparison. -/
def CmpType.holds (lt : Nat → Nat → Bool) : CmpType → Nat → Nat → Bool
  | gt, x, y => lt y x
  | ge, x, y => !lt x y
  | .lt, x, y => lt x y
  | le, x, y => !lt y x
  | eq, x, y => x == y
  | ne, x, y => x != y

/-- `AND` and `OR` are bitwise. -/
def binaryOp (op : Text) (x y : Nat) : Nat :=
  if op = "AND".toList then x &&& y else if op = "OR".toList then x ||| y else 0

/-- The effect of an instruction.  Of a callee there is only what it returns. -/
def Ir.exec (I : Interpretation) (env : Env) : Ir → Env
  | binary _ target lhs op rhs => env.set target (binaryOp op (env.value lhs) (env.value rhs))
  | cmp _ result lhs op rhs => env.set result (op.holds I.lt (env.value lhs) (env.value rhs)).toNat
  | unary _ target op operand => env.set target (I.unary op (env.value operand))
  | call _ result target => env.set result (I.call (env.value target))
  | branch _ _ _ => env

/-- The effect of a sequence. -/
def execAll (I : Interpretation) (env : Env) (l : List Ir) : Env := l.foldl (Ir.exec I) env

/-- The symbols an instruction assigns to. -/
def Ir.writes : Ir → List SymPtr
  | binary _ target _ _ _ => [target]
  | cmp _ result _ _ _ => [result]
  | unary _ target _ _ => [target]
  | call _ result _ => [result]
  | branch _ _ _ => []

theorem Ir.exec_frame (I : Interpretation) (env : Env) {ir : Ir} {p : SymPtr} (h : p ∉ ir.writes) :
    ir.exec I env p = env p := by
  cases ir with
  | binary _ target _ _ _ => exact Env.set_ne env (List.ne_of_not_mem_cons h) _
  | cmp _ result _ _ _ => exact Env.set_ne env (List.ne_of_not_mem_cons h) _
  | unary _ target _ _ => exact Env.set_ne env (List.ne_of_not_mem_cons h) _
  | call _ result _ => exact Env.set_ne env (List.ne_of_not_mem_cons h) _
  | branch _ _ _ => rfl

theorem execAll_frame (I : Interpretation) (env : Env) {l : List Ir} {p : SymPtr}
    (h : p ∉ l.flatMap Ir.writes) : execAll I env l p = env p := by
  induction l generalizing env with
  | nil => rfl
  | cons ir l ih =>
      rw [List.flatMap_cons, List.mem_append, not_or] at h
      show execAll I (ir.exec I env) l p = env p
      rw [ih _ h.2, Ir.exec_frame I env h.1]

/-- Whether the first branch of a sequence is taken. -/
def decision (I : Interpretation) : Env → List Ir → Option Bool
  | _, [] => none
  | env, .branch _ condition _ :: _ => some (env.value condition != 0)
  | env, ir :: rest => decision I (ir.exec I env) rest

theorem decision_append (I : Interpretation) {l : List Ir} (rest : List Ir) (env : Env)
    (h : ∀ ir ∈ l, ∀ assembly condition target, ir ≠ .branch assembly condition target) :
    decision I env (l ++ rest) = decision I (execAll I env l) rest := by
  induction l generalizing env with
  | nil => rfl
  | cons ir l ih =>
      have hrest := ih (ir.exec I env) fun x hx => h x (List.mem_cons_of_mem _ hx)
      cases ir with
      | branch assembly condition target => exact absurd rfl (h _ (List.mem_cons_self ..) _ _ _)
      | _ => exact hrest

/-! ## The flags -/

/-- The carry flag. -/
def cfSym : Sym := .register .bit "_cf".toList

/-- The zero flag. -/
def zfSym : Sym := .register .bit "_zf".toList

/-- The sign flag. -/
def sfSym : Sym := .register .bit "_sf".toList

/-- The parity flag. -/
def pfSym : Sym := .register .bit "_pf".toList

/-- The factories find the flags. -/
structure FindsFlags (t : SymTable) : Prop where
  cf : t.findSymbol "_cf".toList = some cfSym
  zf : t.findSymbol "_zf".toList = some zfSym
  sf : t.findSymbol "_sf".toList = some sfSym
  pf : t.findSymbol "_pf".toList = some pfSym

theorem registerTable_findsFlags : FindsFlags registerTable where
  cf := registerTable_findSymbol (r := ("cf".toList, .bit)) (by decide +kernel) (by decide)
    (by decide +kernel)
  zf := registerTable_findSymbol (r := ("zf".toList, .bit)) (by decide +kernel) (by decide)
    (by decide +kernel)
  sf := registerTable_findSymbol (r := ("sf".toList, .bit)) (by decide +kernel) (by decide)
    (by decide +kernel)
  pf := registerTable_findSymbol (r := ("pf".toList, .bit)) (by decide +kernel) (by decide)
    (by decide +kernel)

section Comparisons

variable (I : Interpretation) (env : Env) (i : Instruction) {a b : Sym}

theorem cmpIr_writes (a b : Sym) :
    (cmpIr i zfSym cfSym a b).flatMap Ir.writes = [some zfSym, some cfSym] := rfl

theorem testIr_writes (a b : Sym) : (testIr i zfSym sfSym pfSym a b).flatMap Ir.writes =
    [some temporary, some sfSym, some zfSym, some pfSym] := rfl

theorem execAll_cmpIr_cf (ha : a ≠ zfSym) (hb : b ≠ zfSym) :
    execAll I env (cmpIr i zfSym cfSym a b) (some cfSym) =
      (I.lt (env.value (some a)) (env.value (some b))).toNat := by
  have ha' : some a ≠ some zfSym := fun h => ha (Option.some.inj h)
  have hb' : some b ≠ some zfSym := fun h => hb (Option.some.inj h)
  simp only [execAll, cmpIr, List.foldl_cons, List.foldl_nil, Ir.exec, CmpType.holds,
    Env.value_set_ne env ha', Env.value_set_ne env hb', Env.set_same]

theorem execAll_cmpIr_zf : execAll I env (cmpIr i zfSym cfSym a b) (some zfSym) =
    (env.value (some a) == env.value (some b)).toNat := by
  simp only [execAll, cmpIr, List.foldl_cons, List.foldl_nil, Ir.exec, CmpType.holds]
  rw [Env.set_ne _ (by decide), Env.set_same]

theorem execAll_testIr_cf (a b : Sym) :
    execAll I env (testIr i zfSym sfSym pfSym a b) (some cfSym) = env (some cfSym) := by
  refine execAll_frame I env ?_
  rw [testIr_writes]
  decide

theorem execAll_testIr_zf (a b : Sym) :
    execAll I env (testIr i zfSym sfSym pfSym a b) (some zfSym) =
      (env.value (some a) &&& env.value (some b) == 0).toNat := by
  simp only [execAll, testIr, List.foldl_cons, List.foldl_nil, Ir.exec, CmpType.holds]
  rw [Env.set_ne _ (by decide), Env.set_same, Env.value_set_ne _ (by decide)]
  show (env.set (some temporary) _ (some temporary) == hexValue _).toNat = _
  rw [Env.set_same]
  rfl

end Comparisons

/-- A condition compares both flags with its constant.  The first result is read when it is
overwritten. -/
theorem decision_conditionIr (I : Interpretation) (env : Env) (i : Instruction)
    (constant op : Text) (target : Sym) :
    decision I env (conditionIr i (some cfSym) (some zfSym) constant op ++
        [.branch [i] (some tempResult) (some target)]) =
      some (binaryOp op (env (some zfSym) == hexValue (dropHexPrefix constant)).toNat
        (env (some cfSym) == hexValue (dropHexPrefix constant)).toNat != 0) := by
  simp only [conditionIr, List.cons_append, List.nil_append, decision, Ir.exec, CmpType.holds]
  rw [Env.value_set_ne env (by decide : some zfSym ≠ some tempResult)]
  show some (Env.set _ (some tempResult) _ (some tempResult) != 0) = _
  rw [Env.set_same, Env.value_set_ne _ (by decide : some tempResult ≠ some temp2Result)]
  show some (binaryOp op (Env.set _ (some temp2Result) _ (some temp2Result))
    (Env.set _ (some tempResult) _ (some tempResult)) != 0) = _
  rw [Env.set_same, Env.set_same]
  rfl

/-! ## Two operands -/

def eax : Sym := .register .dword "_eax".toList

def ebx : Sym := .register .dword "_ebx".toList

/-- The operands of `eax, ebx` are the registers, whatever the functions are. -/
theorem args_eax_ebx {i : Instruction} {name : Text}
    (hparse : i.parse = [name, "eax".toList, "ebx".toList]) (functions : SymMap) :
    i.args functions = [eax, ebx] := by
  have ha : handleExpression functions "eax".toList = some eax :=
    handleExpression_registerName (by decide +kernel) (by decide +kernel)
  have hb : handleExpression functions "ebx".toList = some ebx :=
    handleExpression_registerName (by decide +kernel) (by decide +kernel)
  rw [Instruction.args, hparse]
  show List.filterMap (handleExpression functions) ["eax".toList, "ebx".toList] = _
  rw [List.filterMap_cons_some ha, List.filterMap_cons_some hb]
  rfl

end Befa
