import Befa.Assembly.OperandNames

/-!
# Functions in operands

`handleExpression` asks first whether an operand is the address of a function, and it asks again at
every part of an operand.  `Sym.resolve` puts functions in the place of the numbers of a symbol that
was decoded without any, and so it does with registers whose name is a number.  The two agree on
every text (`handleExpression_resolve`).

The functions of a file are those of its BFD symbols, and of several at one address the first one
gives its name (`ExecutableFile.args_functions`).
-/

namespace Befa

/-- The address that a text spells. -/
def spelledAddress (expr : Text) : Option Vma :=
  (address.fullMatch expr).map fun result => strToVma (result 1)

/-- Put the known functions in the place of the numbers of a symbol. -/
def Sym.resolve (known : Vma → SymPtr) : Sym → Sym
  | immidiate value => ((spelledAddress value).bind known).getD (.immidiate value)
  -- the name of a register has a mark in front
  | register size name => ((spelledAddress (name.drop 1)).bind known).getD (.register size name)
  | temporary lhs op rhs => .temporary (lhs.resolve known) op (rhs.resolve known)
  | sizedTemporary size op rhs => .sizedTemporary size op (rhs.resolve known)
  | sym => sym

/-! ## Without functions -/

/-- The functions of a map. -/
def SymMap.known (functions : SymMap) (v : Vma) : SymPtr := (functions.find? v).map Prod.snd

theorem findFunction_eq (functions : SymMap) (expr : Text) :
    findFunction functions expr = (spelledAddress expr).bind functions.known := by
  rw [findFunction, spelledAddress]
  cases address.fullMatch expr with
  | none => rfl
  | some result => rfl

/-- A text that spells an address is a number. -/
theorem number_of_address {expr : Text} {c : Regex.Captures Char}
    (h : address.fullMatch expr = some c) : number.Lang expr := by
  obtain ⟨hne, hchars, mark, zeros, hmark, hz, rfl⟩ := fullMatch_address_spec h
  have hdigits : ∀ d ∈ zeros ++ c 1, isHexDigit d = true :=
    List.forall_mem_append.mpr ⟨fun d hd => hz d hd ▸ rfl, hchars⟩
  refine ⟨mark, zeros ++ c 1, rfl, ?_, Regex.lang_plus.mpr ⟨by simp [hne], hdigits⟩⟩
  rcases hmark with rfl | rfl
  · exact Or.inl ⟨"0x".toList, [], rfl, Regex.lang_str.mpr rfl,
      fun c hc => absurd hc List.not_mem_nil⟩
  · exact Or.inr rfl

/-- The register of a name is resolved by its name. -/
theorem resolve_register {known : Vma → SymPtr} {expr : Text} {register : Sym}
    (h : findRegister expr = some register) :
    register.resolve known = ((spelledAddress expr).bind known).getD register := by
  obtain ⟨r, hfind, rfl⟩ := Option.map_eq_some_iff.mp h
  have hname : r.1 = expr := by simpa using List.find?_some hfind
  rw [← hname]
  rfl

theorem createDereference_resolve (known : Vma → SymPtr) (size : Text) (rhs : SymPtr) :
    createDereference size (rhs.map (Sym.resolve known)) =
      (createDereference size rhs).map (Sym.resolve known) := by
  rw [createDereference, createDereference]
  cases temporarySizes.find? (·.name = size) with
  | none => rfl
  | some type => cases rhs <;> rfl

theorem createOperation_resolve (known : Vma → SymPtr) (lhs : SymPtr) (op : Text) (rhs : SymPtr) :
    createOperation (lhs.map (Sym.resolve known)) op (rhs.map (Sym.resolve known)) =
      (createOperation lhs op rhs).map (Sym.resolve known) := by
  cases lhs <;> cases rhs <;> rfl

/-- **Decoding with functions is decoding without them, and resolving numbers after that.** -/
theorem handleExpression_resolve (functions : SymMap) (expr : Text) :
    handleExpression functions expr =
      (handleExpression .nil expr).map (Sym.resolve functions.known) := by
  have hnil := findFunction_nil
  induction expr using handleExpression.induct functions with
  | case1 expr function hf =>
      rw [handleExpression_function hf]
      have hknown : (spelledAddress expr).bind functions.known = some function :=
        (findFunction_eq functions expr).symm.trans hf
      cases hr : findRegister expr with
      | some register =>
          rw [handleExpression_register (hnil expr) hr, Option.map_some, resolve_register hr, hknown]
          rfl
      | none =>
          obtain ⟨c, hc⟩ : ∃ c, address.fullMatch expr = some c := by
            cases hc : address.fullMatch expr with
            | none => rw [findFunction, hc] at hf; cases hf
            | some c => exact ⟨c, rfl⟩
          obtain ⟨n, hn, htext⟩ : ∃ n, number.fullMatch expr = some n ∧ n 1 = expr :=
            Regex.fullMatch_group (number_of_address hc)
          rw [handleExpression_number (hnil expr) hr hn, createImm, htext, Option.map_some,
            Sym.resolve, hknown]
          rfl
  | case2 expr hf register hr =>
      rw [handleExpression_register hf hr, handleExpression_register (hnil expr) hr,
        Option.map_some, resolve_register hr, ← findFunction_eq, hf]
      rfl
  | case3 expr hf hr result hn =>
      rw [handleExpression_number hf hr hn, handleExpression_number (hnil expr) hr hn]
      have hlang : number.Lang expr := Regex.fullMatch_isSome.mp (hn ▸ rfl)
      obtain ⟨n, hn', htext⟩ : ∃ n, number.fullMatch expr = some n ∧ n 1 = expr :=
        Regex.fullMatch_group hlang
      obtain rfl := Option.some.inj (hn.symm.trans hn')
      rw [createImm, htext, Option.map_some, Sym.resolve, ← findFunction_eq, hf]
      rfl
  | case4 expr hf hr hn result hd ih =>
      rw [handleExpression_dereference hf hr hn hd,
        handleExpression_dereference (hnil expr) hr hn hd, ih, createDereference_resolve]
  | case5 expr hf hr hn hd result hm ihl ihr =>
      rw [handleExpression_multiplication hf hr hn hd hm,
        handleExpression_multiplication (hnil expr) hr hn hd hm, ihl, ihr, createOperation_resolve]
  | case6 expr hf hr hn hd hm result ha ihl ihr =>
      rw [handleExpression_addOrSubstract hf hr hn hd hm ha,
        handleExpression_addOrSubstract (hnil expr) hr hn hd hm ha, ihl, ihr,
        createOperation_resolve]
  | case7 expr hf hr hn hd hm ha =>
      rw [handleExpression_symbol hf hr hn hd hm ha,
        handleExpression_symbol (hnil expr) hr hn hd hm ha]
      rfl

/-! ## The functions of a file -/

namespace ExecutableFile

/-- The function at an address has the name of the first BFD symbol there. -/
def calleeAt (f : ExecutableFile) (v : Vma) : SymPtr :=
  (f.fd.symbols.find? fun b => bfdAsymbolValue b = v).map fun b => .function b.name v

theorem known_functions (f : ExecutableFile) : f.functions.known = f.calleeAt := by
  funext v
  have hfind : f.functions.find? v =
      (f.generateTable.2.find? v).map fun e => (e.1, e.2.sym) := by
    rw [functions, Keyed.find?_ofList, List.find?_map, Keyed.find?]
    rfl
  rw [SymMap.known, calleeAt, hfind]
  cases hentry : f.generateTable.2.find? v with
  | none =>
      have hno : ∀ b ∈ f.fd.symbols, bfdAsymbolValue b ≠ v := by
        intro b hb hv
        have hsome := (f.generateTable_exact v).1.mpr ⟨b, hb, hv⟩
        rw [hentry] at hsome
        cases hsome
      have hnone : (f.fd.symbols.find? fun b => bfdAsymbolValue b = v) = none := by
        simpa using hno
      rw [hnone]
      rfl
  | some entry =>
      obtain ⟨hs, rfl⟩ := generateTable_inv hentry
      have hrecords := records_of_mem_symbolTable hs
      have hfirst : f.fd.symbols.find? (fun b => bfdAsymbolValue b = entry.2.asmSymbol.getAddress) =
          some entry.2.asmSymbol.origin := by
        rw [← List.head?_filter, ← hrecords]
        rfl
      rw [hfirst]
      rfl

/-- **Operands of a file are decoded without it, and each number that is the address of a BFD symbol
becomes the function of the first one there.** -/
theorem args_functions (f : ExecutableFile) (i : Instruction) :
    i.args f.functions = (i.args .nil).map (Sym.resolve f.calleeAt) := by
  rw [Instruction.args, Instruction.args, List.map_filterMap, ← known_functions]
  exact congrArg (List.filterMap · _) (funext fun p => handleExpression_resolve f.functions p)

end ExecutableFile

end Befa
