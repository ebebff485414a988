import Befa.Assembly.Fetch
import Befa.Assembly.Operand

/-!
# Operands of an instruction

`split` cuts the text of an instruction into pieces.  The first piece is its name and the others
are its operands.  `handleExpression` turns an operand into a symbol.  It asks, in this order,
whether the operand is the address of a function, a register, a number, a dereference, a
multiplication, an addition or a subtraction.  Whatever is left is a plain symbol.  A binary
operand is split at its last operator, and both sides are parsed in the same way.

`handleExpression_isSome` says that every operand becomes a symbol.  So the assertion of `getArgs`
never fails, and `getArgs_eq` gives the operands as a plain list.
-/

namespace Befa

/-! ## Pieces -/

/-- `\[[^\]]+\]` around a group or not. -/
def bracketed (inner : Regex Char → Regex Char) : Regex Char :=
  .seq (.str "[".toList) (.seq (inner (.plus true fun c => c ≠ ']')) (.str "]".toList))

/-- `(?:\w+:)?`. -/
def segment : Regex Char := .opt (.seq (.plus true isWordChar) (.str ":".toList))

/-- `parse_regex`.  The branches share group 1. -/
def parseRegex : Regex Char :=
  .alts [
    .group 1 (.seq (.many true isWordChar) (.seq (.str ".".toList) (.plus true isWordChar))),
    .seq (.str "# 0x".toList) (.seq (.many true (fun c => c = '0')) (.plus true isHexDigit)),
    .group 1 (.seq (.plus true isWordChar) (.seq (.str " PTR ".toList)
      (.seq segment (bracketed id)))),
    bracketed (.group 1),
    .seq (.str "0x".toList) (.seq (.many false (fun c => c = '0')) (.group 1 (.plus true isHexDigit))),
    .group 1 (.seq (.plus true isWordChar) (.seq (.plus true isWordChar) (.plus true isWordChar))),
    .group 1 (.plus true isWordChar)]

theorem parseRegex_ne_nil (w : Text) (h : parseRegex.Lang w) : w ≠ [] := by
  rintro rfl
  obtain ⟨r, hr, hl⟩ := Regex.lang_alts.mp h
  simp only [List.mem_cons, List.not_mem_nil, or_false] at hr
  rcases hr with rfl | rfl | rfl | rfl | rfl | rfl | rfl <;>
    simp [bracketed, Regex.Lang, Regex.str, Regex.plus] at hl

/-- `details::split` with `parse_regex`. -/
def split (s : Text) : List Text :=
  match _ : parseRegex.search s with
  | none => []
  | some m => m.caps 1 :: split m.rest
termination_by s.length
decreasing_by exact Regex.search_rest_length parseRegex_ne_nil ‹_›

/-- `Instruction::parse`. -/
def Instruction.parse (i : Instruction) : List Text := split i.decoded

/-- `instruction_parser::getName`.  A text without a piece has none. -/
def Instruction.getName (i : Instruction) : Option Text := i.parse.head?

/-! ## Patterns of operands -/

/-- `.` in ECMAScript. -/
def isDot (c : Char) : Bool := c ≠ '\n' && c ≠ '\r'

/-- `multiplication`. -/
def multiplication : Regex Char := .binary isDot fun c => c = '*'

/-- `add_or_substract`. -/
def addOrSubstract : Regex Char := .binary isDot fun c => c = '+' || c = '-'

/-- The size words of `dereference`, in its order. -/
def sizeWords : List Text :=
  ["XMMWORD", "BYTE", "WORD", "DWORD", "QWORD"].map String.toList

/-- `dereference`. -/
def dereference : Regex Char :=
  .seq (.group 1 (.alts (sizeWords.map .str))) (.seq (.str " PTR ".toList) (.seq segment
    (.seq (.str "[".toList) (.seq (.group 2 (.many true isDot)) (.str "]".toList)))))

/-- `number`. -/
def number : Regex Char :=
  .group 1 (.seq (.opt (.seq (.str "0x".toList) (.many true fun c => c = '0')))
    (.plus true isHexDigit))

/-- `address`. -/
def address : Regex Char :=
  .seq (.opt (.str "0x".toList)) (.seq (.many true fun c => c = '0')
    (.group 1 (.plus true isHexDigit)))

/-- What the groups of `dereference` take. -/
theorem fullMatch_dereference_spec {s : Text} {c : Regex.Captures Char}
    (h : dereference.fullMatch s = some c) :
    c 1 ∈ sizeWords ∧ (∀ x ∈ c 2, isDot x = true) ∧ ∃ seg, segment.Lang seg ∧
      s = c 1 ++ (" PTR ".toList ++ (seg ++ ("[".toList ++ (c 2 ++ "]".toList)))) := by
  obtain ⟨m, hm, ht, rfl⟩ := Regex.fullMatch_eq_some h
  obtain ⟨m₁, h₁, m₂, h₂, rfl⟩ := Regex.mem_run_seq.mp hm
  obtain ⟨k₁, g₁, rfl⟩ := Regex.mem_run_group.mp h₁
  obtain ⟨_, _, m₃, _, hptr, h₃, rfl⟩ := Regex.mem_run_seq_plain (Regex.plain_str _) h₂
  obtain ⟨seg, _, m₄, _, hseg, h₄, rfl⟩ := Regex.mem_run_seq_plain
    (r := segment) ⟨⟨⟨trivial, trivial⟩, Regex.plain_str _⟩, trivial⟩ h₃
  obtain ⟨_, _, m₅, _, hopen, h₅, rfl⟩ := Regex.mem_run_seq_plain (Regex.plain_str _) h₄
  obtain ⟨m₆, h₆, m₇, h₇, rfl⟩ := Regex.mem_run_seq.mp h₅
  obtain ⟨k₆, g₆, rfl⟩ := Regex.mem_run_group.mp h₆
  have c₇ := Regex.caps_of_plain (Regex.plain_str _) h₇
  have hclose := Regex.lang_str.mp (Regex.mem_run_sound h₇).2
  have hword : k₁.taken ∈ sizeWords := by
    obtain ⟨r, hr, hl⟩ := Regex.lang_alts.mp (Regex.mem_run_sound g₁).2
    obtain ⟨w, hw, rfl⟩ := List.mem_map.mp hr
    rwa [Regex.lang_str.mp hl]
  have c₆ := (Regex.mem_run_many.mp g₆).2.2
  have hdots := (Regex.mem_run_many.mp g₆).2.1
  rw [Regex.lang_str.mp hptr, Regex.lang_str.mp hopen, hclose] at ht
  refine ⟨?_, ?_, seg, hseg, ?_⟩
  · simpa [c₇, c₆, Regex.Captures.set] using hword
  · simpa [c₇, Regex.Captures.set] using hdots
  · simp [c₇, c₆, Regex.Captures.set, ← ht]

theorem fullMatch_dereference {s : Text} {c : Regex.Captures Char}
    (h : dereference.fullMatch s = some c) : c 1 ∈ sizeWords ∧ (c 2).length < s.length := by
  obtain ⟨hword, -, seg, -, hs⟩ := fullMatch_dereference_spec h
  refine ⟨hword, ?_⟩
  have hlen := congrArg List.length hs
  simp only [List.length_append] at hlen
  have hptr : 0 < " PTR ".toList.length := by decide
  omega

/-- What the group of `address` takes. -/
theorem fullMatch_address_spec {s : Text} {c : Regex.Captures Char}
    (h : address.fullMatch s = some c) :
    c 1 ≠ [] ∧ (∀ d ∈ c 1, isHexDigit d = true) ∧ ∃ mark zeros,
      (mark = "0x".toList ∨ mark = []) ∧ (∀ z ∈ zeros, z = '0') ∧
        s = mark ++ (zeros ++ c 1) := by
  obtain ⟨m, hm, ht, rfl⟩ := Regex.fullMatch_eq_some h
  obtain ⟨mark, _, m₂, _, hmark, h₂, rfl⟩ := Regex.mem_run_seq_plain
    (r := Regex.opt (Regex.str "0x".toList)) ⟨Regex.plain_str _, trivial⟩ hm
  obtain ⟨zeros, _, m₃, _, hz, h₃, rfl⟩ := Regex.mem_run_seq_plain
    (r := Regex.many true fun c => c = '0') trivial h₂
  obtain ⟨k, hk, rfl⟩ := Regex.mem_run_group.mp h₃
  obtain ⟨hne, hchars⟩ := Regex.lang_plus.mp (Regex.mem_run_sound hk).2
  have hgroup : (k.caps.set 1 k.taken) 1 = k.taken := Regex.Captures.set_same ..
  dsimp only at ht ⊢
  rw [hgroup]
  refine ⟨hne, hchars, mark, zeros, ?_, fun z hz' => of_decide_eq_true (hz z hz'), ht.symm⟩
  exact hmark.imp Regex.lang_str.mp id

/-! ## Symbols of operands -/

/-- `sym_map_t`. -/
abbrev SymMap := OrdMap Vma Sym

/-- `str_to_vma`. -/
def strToVma (input : Text) : Vma := (extractHex input).1

/-- The function whose address an operand spells. -/
def findFunction (functions : SymMap) (expr : Text) : SymPtr :=
  match address.fullMatch expr with
  | none => none
  | some result => (functions.find? (strToVma (result 1))).map Prod.snd

/-- `create_imm`. -/
def createImm (value : Text) : SymPtr := some (.immidiate value)

/-- The types `create_dereference` tries, in its order. -/
def temporarySizes : List Size := [.byte, .word, .dword, .qword, .xmm]

/-- `create_dereference`, on the symbol of the expression. -/
def createDereference (size : Text) (rhs : SymPtr) : SymPtr :=
  (temporarySizes.find? (·.name = size)).bind fun type => rhs.map (.sizedTemporary type "*".toList)

/-- `create_operation`, on the symbols of the expressions. -/
def createOperation (lhs : SymPtr) (op : Text) (rhs : SymPtr) : SymPtr :=
  match lhs, rhs with
  | some lhs, some rhs => some (.temporary lhs op rhs)
  | _, _ => none

/-- `instruction_parser::handle_expression`. -/
def handleExpression (functions : SymMap) (expr : Text) : SymPtr :=
  match findFunction functions expr with
  | some function => some function
  | none =>
  match findRegister expr with
  | some register => some register
  | none =>
  match number.fullMatch expr with
  | some result => createImm (result 1)
  | none =>
  match _ : dereference.fullMatch expr with
  | some result => createDereference (result 1) (handleExpression functions (result 2))
  | none =>
  match _ : multiplication.fullMatch expr with
  | some result =>
      createOperation (handleExpression functions (result 1)) (result 2)
        (handleExpression functions (result 3))
  | none =>
  match _ : addOrSubstract.fullMatch expr with
  | some result =>
      createOperation (handleExpression functions (result 1)) (result 2)
        (handleExpression functions (result 3))
  | none => some (.symbol expr nonAddress)
termination_by expr.length
decreasing_by
  · exact (fullMatch_dereference ‹_›).2
  · exact (Regex.fullMatch_binary_length ‹_›).1
  · exact (Regex.fullMatch_binary_length ‹_›).2
  · exact (Regex.fullMatch_binary_length ‹_›).1
  · exact (Regex.fullMatch_binary_length ‹_›).2

section Branches

variable {functions : SymMap} {expr : Text} {result : Regex.Captures Char}

theorem handleExpression_function {function : Sym} (hf : findFunction functions expr = some function) :
    handleExpression functions expr = some function := by
  rw [handleExpression, hf]

theorem handleExpression_register {register : Sym} (hf : findFunction functions expr = none)
    (hr : findRegister expr = some register) : handleExpression functions expr = some register := by
  rw [handleExpression, hf, hr]

/-- A register whose name is no number is never a function. -/
theorem handleExpression_registerName {register : Sym} (ha : (address.fullMatch expr).isNone)
    (hr : findRegister expr = some register) : handleExpression functions expr = some register := by
  refine handleExpression_register ?_ hr
  rw [findFunction, Option.isNone_iff_eq_none.mp ha]

theorem handleExpression_number (hf : findFunction functions expr = none)
    (hr : findRegister expr = none) (hn : number.fullMatch expr = some result) :
    handleExpression functions expr = createImm (result 1) := by
  rw [handleExpression, hf, hr, hn]

theorem handleExpression_dereference (hf : findFunction functions expr = none)
    (hr : findRegister expr = none) (hn : number.fullMatch expr = none)
    (hd : dereference.fullMatch expr = some result) :
    handleExpression functions expr =
      createDereference (result 1) (handleExpression functions (result 2)) := by
  rw [handleExpression]
  simp only [hf, hr, hn]
  split
  next h => rw [Option.some.inj (hd.symm.trans h)]
  next h => rw [hd] at h; cases h

theorem handleExpression_multiplication (hf : findFunction functions expr = none)
    (hr : findRegister expr = none) (hn : number.fullMatch expr = none)
    (hd : dereference.fullMatch expr = none) (hm : multiplication.fullMatch expr = some result) :
    handleExpression functions expr = createOperation (handleExpression functions (result 1))
      (result 2) (handleExpression functions (result 3)) := by
  rw [handleExpression]
  simp only [hf, hr, hn]
  split
  next h => rw [hd] at h; cases h
  next =>
    split
    next h => rw [Option.some.inj (hm.symm.trans h)]
    next h => rw [hm] at h; cases h

theorem handleExpression_addOrSubstract (hf : findFunction functions expr = none)
    (hr : findRegister expr = none) (hn : number.fullMatch expr = none)
    (hd : dereference.fullMatch expr = none) (hm : multiplication.fullMatch expr = none)
    (ha : addOrSubstract.fullMatch expr = some result) :
    handleExpression functions expr = createOperation (handleExpression functions (result 1))
      (result 2) (handleExpression functions (result 3)) := by
  rw [handleExpression]
  simp only [hf, hr, hn]
  split
  next h => rw [hd] at h; cases h
  next =>
    split
    next h => rw [hm] at h; cases h
    next =>
      split
      next h => rw [Option.some.inj (ha.symm.trans h)]
      next h => rw [ha] at h; cases h

theorem handleExpression_symbol (hf : findFunction functions expr = none)
    (hr : findRegister expr = none) (hn : number.fullMatch expr = none)
    (hd : dereference.fullMatch expr = none) (hm : multiplication.fullMatch expr = none)
    (ha : addOrSubstract.fullMatch expr = none) :
    handleExpression functions expr = some (.symbol expr nonAddress) := by
  rw [handleExpression]
  simp only [hf, hr, hn]
  split
  next h => rw [hd] at h; cases h
  next =>
    split
    next h => rw [hm] at h; cases h
    next =>
      split
      next h => rw [ha] at h; cases h
      next => rfl

end Branches

/-- Every size word is the name of a type. -/
theorem createDereference_isSome {size : Text} (hs : size ∈ sizeWords) {rhs : SymPtr}
    (hr : rhs.isSome) : (createDereference size rhs).isSome := by
  have hfind : ∀ w ∈ sizeWords, (temporarySizes.find? (·.name = w)).isSome := by decide +kernel
  obtain ⟨type, htype⟩ := Option.isSome_iff_exists.mp (hfind size hs)
  rw [createDereference, htype, Option.bind_some, Option.isSome_map]
  exact hr

theorem createOperation_isSome {lhs rhs : SymPtr} (op : Text) (hl : lhs.isSome)
    (hr : rhs.isSome) : (createOperation lhs op rhs).isSome := by
  cases lhs with
  | none => cases hl
  | some l =>
      cases rhs with
      | none => cases hr
      | some r => rfl

/-- **Every operand becomes a symbol.** -/
theorem handleExpression_isSome (functions : SymMap) (expr : Text) :
    (handleExpression functions expr).isSome := by
  induction expr using handleExpression.induct functions with
  | case1 expr function hf => rw [handleExpression_function hf]; rfl
  | case2 expr hf register hr => rw [handleExpression_register hf hr]; rfl
  | case3 expr hf hr result hn => rw [handleExpression_number hf hr hn]; rfl
  | case4 expr hf hr hn result hd ih =>
      rw [handleExpression_dereference hf hr hn hd]
      exact createDereference_isSome (fullMatch_dereference hd).1 ih
  | case5 expr hf hr hn hd result hm ihl ihr =>
      rw [handleExpression_multiplication hf hr hn hd hm]
      exact createOperation_isSome _ ihl ihr
  | case6 expr hf hr hn hd hm result ha ihl ihr =>
      rw [handleExpression_addOrSubstract hf hr hn hd hm ha]
      exact createOperation_isSome _ ihl ihr
  | case7 expr hf hr hn hd hm ha =>
      rw [handleExpression_symbol hf hr hn hd hm ha]; rfl

/-! ## Operands of an instruction -/

/-- One operand of `getArgs`, with its assertion. -/
def createArg (functions : SymMap) (arg : Text) : Unit → Emitted Unit Sym Text := fun _ =>
  match handleExpression functions arg with
  | some sym => ⟨(), [sym], none⟩
  | none => ⟨(), [], some "failed to create symbol/expression".toList⟩

/-- `instruction_parser::getArgs`. -/
def Instruction.getArgs (i : Instruction) (functions : SymMap) : Emitted Unit Sym Text :=
  emitAll (createArg functions) (i.parse.drop 1) ()

/-- The symbols of the operands. -/
def Instruction.args (i : Instruction) (functions : SymMap) : List Sym :=
  (i.parse.drop 1).filterMap (handleExpression functions)

/-- **The assertion of `getArgs` never fails.** -/
theorem Instruction.getArgs_eq (i : Instruction) (functions : SymMap) :
    i.getArgs functions = ⟨(), i.args functions, none⟩ := by
  unfold getArgs args
  induction i.parse.drop 1 with
  | nil => rfl
  | cons arg rest ih =>
      obtain ⟨sym, hs⟩ := Option.isSome_iff_exists.mp (handleExpression_isSome functions arg)
      rw [emitAll_cons, List.filterMap_cons_some hs, createArg, hs]
      rw [Emitted.andThen_of_none rfl, ih, List.singleton_append]

/-- There is one operand for every piece behind the first. -/
theorem Instruction.length_args (i : Instruction) (functions : SymMap) :
    (i.args functions).length = i.parse.length - 1 := by
  rw [← List.length_drop, args]
  induction i.parse.drop 1 with
  | nil => rfl
  | cons arg rest ih =>
      obtain ⟨sym, hs⟩ := Option.isSome_iff_exists.mp (handleExpression_isSome functions arg)
      rw [List.filterMap_cons_some hs, List.length_cons, List.length_cons, ih]

example : split "mov XMMWORD PTR [eax*0x8+0x666],ebx".toList =
    ["mov", "XMMWORD PTR [eax*0x8+0x666]", "ebx"].map String.toList := by decide +kernel

example : (handleExpression .nil "XMMWORD PTR [eax*0x8+0x666]".toList).map Sym.getName =
    some "((XMMWORD)*((((DWORD)_eax)) * ((0x8) + (0x666))))".toList := by decide +kernel

end Befa
