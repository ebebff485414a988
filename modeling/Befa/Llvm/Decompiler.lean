import Befa.Assembly.BlockCuts
import Befa.Llvm.SymTable

/-!
# The decompiler

`Ir` is the intermediate language.  A *factory* reads one assembly instruction and the symbol
table.  It emits intermediate instructions and may extend the table.  `reduceInstr` feeds a stream
of instructions to a list of factories, each instruction to all of them in turn.

`callFactory` translates calls, `compareFactory` `cmp` and `test`, and `jumpFactory` the jumps of
the groups `GT` and `LE`.  The jumps of the other groups are recognised and translated to nothing.

The operands that a factory reads with `args[i]` need not be there.  The model raises where the
code would read past the end.
-/

namespace Befa

/-! ## The intermediate language -/

/-- `CmpInstruction::types_e`.  The unsigned types are other names of the signed ones. -/
inductive CmpType where
  | gt | ge | lt | le | eq | ne
deriving DecidableEq

/-- `type_to_str`. -/
def CmpType.toStr : CmpType → Text
  | gt => "gt".toList
  | ge => "ge".toList
  | lt => "lt".toList
  | le => "le".toList
  | eq => "eq".toList
  | ne => "ne".toList

/-- An instruction of the intermediate language, with the assembly it comes from. -/
inductive Ir where
  /-- `BinaryOperation`. -/
  | binary (assembly : List Instruction) (target lhs : SymPtr) (op : Text) (rhs : SymPtr)
  /-- `CmpInstruction`. -/
  | cmp (assembly : List Instruction) (result lhs : SymPtr) (op : CmpType) (rhs : SymPtr)
  /-- `UnaryInstruction`. -/
  | unary (assembly : List Instruction) (target : SymPtr) (op : Text) (operand : SymPtr)
  /-- `CallInstruction`. -/
  | call (assembly : List Instruction) (result target : SymPtr)
  /-- `BranchInstruction`. -/
  | branch (assembly : List Instruction) (condition target : SymPtr)
deriving DecidableEq

/-- `details::fetch_name`.  A null pointer has the name `""`. -/
def nameOf (sym : SymPtr) : Text := (sym.map Sym.getName).getD []

/-- `toString`. -/
def Ir.toString : Ir → Text
  | binary _ target lhs op rhs =>
      nameOf target ++ " = ".toList ++ fetchName (nameOf rhs) op (nameOf lhs)
  | cmp _ result lhs op rhs =>
      nameOf result ++ " = icmp ".toList ++ op.toStr ++ " ".toList ++ nameOf lhs ++ ", ".toList ++
        nameOf rhs
  | unary _ target op operand => nameOf target ++ " = ".toList ++ fetchName (nameOf operand) op []
  | call _ result target => nameOf result ++ " = call ".toList ++ nameOf target ++ "()".toList
  | branch _ condition target => "br ".toList ++ nameOf condition ++ ", address ".toList ++ nameOf target

/-! ## Factories -/

/-- `LLVMFactory`. -/
abbrev Factory := Instruction → SymTable → Emitted SymTable Ir Text

/-- Raise, before anything is emitted. -/
def raise (t : SymTable) (reason : Text) : Emitted SymTable Ir Text := ⟨t, [], some reason⟩

/-- What `first` raises on a stream without an element. -/
def emptyError : Text := "first() requires a stream with at least one value".toList

/-- An operand that is read and is not there. -/
def outOfRange : Text := "the operand is out of range".toList

/-- The operand a subscriber to `first` gets. -/
def firstOf (args : Emitted Unit Sym Text) : Except Text Sym :=
  match args.out with
  | arg :: _ => .ok arg
  | [] => .error (args.raised.getD emptyError)

/-- `CallFactory`. -/
def callFactory : Factory := fun i t =>
  match i.getName with
  | none => raise t emptyError
  | some name =>
      if name = "call".toList then
        match firstOf (i.getArgs t.toMap) with
        | .error reason => raise t reason
        | .ok target =>
            match t.getOrCreate "Temporary".toList resultOfTheCall with
            | .error reason => raise t reason
            | .ok (result, t') => ⟨t', [.call [i] (some result) (some target)], none⟩
      else ⟨t, [], none⟩

/-- What `compareFactory` emits for a `cmp`. -/
def cmpIr (i : Instruction) (zf cf a b : Sym) : List Ir :=
  [.cmp [i] (some zf) (some a) .eq (some b), .cmp [i] (some cf) (some a) .lt (some b)]

/-- The result of a `test`. -/
def temporary : Sym := .symbol "Temporary".toList nonAddress

/-- What `compareFactory` emits for a `test`. -/
def testIr (i : Instruction) (zf sf pf a b : Sym) : List Ir :=
  [.binary [i] (some temporary) (some a) "AND".toList (some b),
    .unary [i] (some sf) "MSB".toList (some temporary),
    .cmp [i] (some zf) (some temporary) .eq (some (.immidiate "0".toList)),
    .unary [i] (some pf) "BitwiseXNOR".toList (some temporary)]

/-- What `compareFactory` raises without the flags. -/
def noRegisters : Text := "cannot continue without essential registers".toList

/-- `CompareFactory`. -/
def compareFactory : Factory := fun i t =>
  match i.getName with
  | none => raise t emptyError
  | some name =>
      if name = "cmp".toList then
        match (i.getArgs t.toMap).raised with
        | some reason => raise t reason
        | none =>
            match t.findSymbol "_zf".toList, t.findSymbol "_cf".toList with
            | some zf, some cf =>
                match (i.getArgs t.toMap).out with
                | a :: b :: _ => ⟨t, cmpIr i zf cf a b, none⟩
                | _ => raise t outOfRange
            | _, _ => raise t noRegisters
      else if name = "test".toList then
        match (i.getArgs t.toMap).raised with
        | some reason => raise t reason
        | none =>
            match t.findSymbol "_zf".toList, t.findSymbol "_sf".toList, t.findSymbol "_pf".toList with
            | some zf, some sf, some pf =>
                match (i.getArgs t.toMap).out with
                | a :: b :: _ => ⟨t, testIr i zf sf pf a b, none⟩
                | _ => raise t outOfRange
            | _, _, _ => raise t noRegisters
      else ⟨t, [], none⟩

/-- `CmpInstruction::jumps`. -/
def jumps : CmpType → List Text
  | .gt => ["ja", "jg", "jnbe", "jnle"].map String.toList
  | .ge => ["jae", "jge", "jnb", "jnl"].map String.toList
  | .lt => ["jb", "jl", "jnae", "jnge"].map String.toList
  | .le => ["jbe", "jle", "jna", "jng"].map String.toList
  | .eq => ["je"].map String.toList
  | .ne => ["jne"].map String.toList

/-- The condition of a branch. -/
def tempResult : Sym := .symbol "TempResult".toList nonAddress

/-- The second half of the condition. -/
def temp2Result : Sym := .symbol "Temp2Result".toList nonAddress

/-- Compare both flags with a constant and combine the results. -/
def conditionIr (i : Instruction) (cf zf : SymPtr) (constant op : Text) : List Ir :=
  [.cmp [i] (some tempResult) cf .eq (some (.immidiate constant)),
    .cmp [i] (some temp2Result) zf .eq (some (.immidiate constant)),
    .binary [i] (some tempResult) (some temp2Result) op (some tempResult)]

instance decidableMemNames (name : Text) (names : List Text) : Decidable (name ∈ names) :=
  inferInstance

/-- The condition of a jump, if it is translated: no flag is set for `GT`, some flag is for `LE`. -/
def jumpCondition (i : Instruction) (name : Text) (cf zf : SymPtr) : Option (List Ir) :=
  if name ∈ jumps .gt then some (conditionIr i cf zf "0".toList "AND".toList)
  else if name ∈ jumps .le then some (conditionIr i cf zf "1".toList "OR".toList)
  else none

theorem jumpCondition_eq_none {i : Instruction} {name : Text} {cf zf : SymPtr} :
    jumpCondition i name cf zf = none ↔ name ∉ jumps .gt ∧ name ∉ jumps .le := by
  rw [jumpCondition]
  split
  next h => simp [h]
  next h =>
    split
    next h' => simp [h']
    next h' => simp [h, h']

/-- `JumpFactory`. -/
def jumpFactory : Factory := fun i t =>
  match i.getName with
  | none => raise t emptyError
  | some name =>
      match jumpCondition i name (t.findSymbol "_cf".toList) (t.findSymbol "_zf".toList) with
      | none => ⟨t, [], none⟩
      | some condition =>
          match firstOf (i.getArgs .nil) with
          | .error reason => ⟨t, condition, some reason⟩
          | .ok target => ⟨t, condition ++ [.branch [i] (some tempResult) (some target)], none⟩

/-! ## What a factory does with an instruction -/

section Instructions

variable {i : Instruction} {t : SymTable} {name : Text} {rest : List Sym}

theorem callFactory_other (hn : i.getName = some name) (hc : name ≠ "call".toList) :
    callFactory i t = ⟨t, [], none⟩ := by
  rw [callFactory, hn]
  exact if_neg hc

theorem callFactory_call {target : Sym} (hn : i.getName = some "call".toList)
    (ha : i.args t.toMap = target :: rest) :
    callFactory i t =
      match t.getOrCreate "Temporary".toList resultOfTheCall with
      | .error reason => raise t reason
      | .ok (result, t') => ⟨t', [.call [i] (some result) (some target)], none⟩ := by
  rw [callFactory, hn, Instruction.getArgs_eq, ha]
  rfl

theorem compareFactory_other (hn : i.getName = some name) (hc : name ≠ "cmp".toList)
    (ht : name ≠ "test".toList) : compareFactory i t = ⟨t, [], none⟩ := by
  rw [compareFactory, hn]
  exact (if_neg hc).trans (if_neg ht)

theorem compareFactory_cmp {zf cf a b : Sym} (hn : i.getName = some "cmp".toList)
    (hzf : t.findSymbol "_zf".toList = some zf) (hcf : t.findSymbol "_cf".toList = some cf)
    (ha : i.args t.toMap = a :: b :: rest) :
    compareFactory i t = ⟨t, cmpIr i zf cf a b, none⟩ := by
  rw [compareFactory, hn, Instruction.getArgs_eq, hzf, hcf, ha]
  rfl

theorem compareFactory_test {zf sf pf a b : Sym} (hn : i.getName = some "test".toList)
    (hzf : t.findSymbol "_zf".toList = some zf) (hsf : t.findSymbol "_sf".toList = some sf)
    (hpf : t.findSymbol "_pf".toList = some pf) (ha : i.args t.toMap = a :: b :: rest) :
    compareFactory i t = ⟨t, testIr i zf sf pf a b, none⟩ := by
  rw [compareFactory, hn, Instruction.getArgs_eq, hzf, hsf, hpf, ha]
  rfl

theorem jumpFactory_other (hn : i.getName = some name)
    (hj : jumpCondition i name (t.findSymbol "_cf".toList) (t.findSymbol "_zf".toList) = none) :
    jumpFactory i t = ⟨t, [], none⟩ := by
  rw [jumpFactory, hn]
  simp only [hj]

theorem jumpFactory_jump {target : Sym} {condition : List Ir} (hn : i.getName = some name)
    (hj : jumpCondition i name (t.findSymbol "_cf".toList) (t.findSymbol "_zf".toList) =
      some condition) (ha : i.args .nil = target :: rest) :
    jumpFactory i t = ⟨t, condition ++ [.branch [i] (some tempResult) (some target)], none⟩ := by
  rw [jumpFactory, hn, Instruction.getArgs_eq, ha]
  simp only [hj]
  rfl

end Instructions

/-! ## The mapper -/

/-- One instruction, given to all factories. -/
def mapInstr (factories : List Factory) (i : Instruction) (t : SymTable) :
    Emitted SymTable Ir Text :=
  emitAll (fun factory t => factory i t) factories t

theorem mapInstr_eq {i : Instruction} {t : SymTable} {compare jump : List Ir}
    (hcall : callFactory i t = ⟨t, [], none⟩) (hcmp : compareFactory i t = ⟨t, compare, none⟩)
    (hjump : jumpFactory i t = ⟨t, jump, none⟩) :
    mapInstr [callFactory, compareFactory, jumpFactory] i t = ⟨t, compare ++ jump, none⟩ := by
  rw [mapInstr, emitAll_cons, hcall, Emitted.andThen_of_none rfl, emitAll_cons, hcmp,
    Emitted.andThen_of_none rfl, emitAll_cons, hjump, Emitted.andThen_of_none rfl]
  simp

/-- `InstructionMapper::reduce_instr`. -/
def reduceInstr (factories : List Factory) (o : List Instruction) (t : SymTable) :
    Emitted SymTable Ir Text :=
  emitAll (mapInstr factories) o t

/-- The factories there are, in the order in which they are registered. -/
def factories : List Factory := [callFactory, compareFactory, jumpFactory]

/-- An instruction of a text. -/
def instructionOf (decoded : String) : Instruction where
  bytes := ⟨[], 0, 0⟩
  parent := ⟨0, 0, functionAt "f".toList 0⟩
  decoded := decoded.toList
  address := 0x666

/-- The text of what a stream is translated to, and why the translation raised. -/
def translation (o : List String) (t : SymTable) : List String × Option String :=
  let r := reduceInstr factories (o.map instructionOf) t
  (r.out.map fun ir => String.ofList ir.toString, r.raised.map String.ofList)

/-- The registers and one function. -/
def callTable : SymTable :=
  registerTable.emplace ("printf".toList, .function "printf".toList 0x400800)

example : translation ["call    0x400800", "test   eax, ebx", "cmp    eax, ebx", "jbe    0x0"]
    (Keyed.ofList (("printf".toList, .function "printf".toList 0x400800) ::
      ["zf", "cf", "sf", "pf"].map fun name => (name.toList, registerOf (name.toList, .bit)))) =
      (["ResultOfTheCall = call @printf()",
        "Temporary = (((DWORD)_eax)) AND (((DWORD)_ebx))", "((BIT)_sf) = MSB(Temporary)",
        "((BIT)_zf) = icmp eq Temporary, 0", "((BIT)_pf) = BitwiseXNOR(Temporary)",
        "((BIT)_zf) = icmp eq ((DWORD)_eax), ((DWORD)_ebx)",
        "((BIT)_cf) = icmp lt ((DWORD)_eax), ((DWORD)_ebx)",
        "TempResult = icmp eq ((BIT)_cf), 1", "Temp2Result = icmp eq ((BIT)_zf), 1",
        "TempResult = (Temp2Result) OR (TempResult)", "br TempResult, address 0"], none) := by
  decide +kernel

end Befa
