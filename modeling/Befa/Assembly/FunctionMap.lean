import Befa.Assembly.OperandDecoding

/-!
# Operands under any map of functions

The map that `handle_expression` is given holds pointers, and nothing keeps them from being null.
`handling` is one call of `handle_expression` without the calls it makes in turn, through
`create_dereference` and `create_operation`.  `handling_handles` says all it can come to: those
calls are on shorter texts, and a size that is found is one of the five types.

`handleExpression_spelling` says that a number finds the same function however it is spelled.
`operands_succeed` says that no operand becomes a null pointer, unless the map holds one.
-/

namespace Befa

/-- `sym_map_t`, whose entries may be null. -/
abbrev FunctionMap := OrdMap Vma SymPtr

/-! ## One call -/

/-- What a call of `handle_expression` comes to. -/
inductive Handling where
  /-- It returns a symbol. -/
  | done (sym : SymPtr)
  /-- `create_dereference(size, expr, functions)`. -/
  | dereference (size expr : Text)
  /-- `create_operation(lhs, op, rhs, functions)`. -/
  | operation (lhs op rhs : Text)

namespace Handling

/-- The texts `handle_expression` is called on in turn. -/
def calls : Handling → List Text
  | done _ => []
  | dereference _ expr => [expr]
  | operation lhs _ rhs => [lhs, rhs]

/-- The symbol that is returned, from those of the calls. -/
def symbol (handle : Text → SymPtr) : Handling → SymPtr
  | done sym => sym
  | dereference size expr => createDereference size (handle expr)
  | operation lhs op rhs => createOperation (handle lhs) op (handle rhs)

end Handling

namespace FunctionMap

/-- The entry of the function whose address an operand spells, if there is one. -/
def findFunction (functions : FunctionMap) (expr : Text) : Option SymPtr :=
  match address.fullMatch expr with
  | none => none
  | some result => (functions.find? (strToVma (result 1))).map Prod.snd

/-- `instruction_parser::handle_expression`, up to the calls it makes in turn. -/
def handling (functions : FunctionMap) (expr : Text) : Handling :=
  match findFunction functions expr with
  | some entry => .done entry
  | none =>
  match findRegister expr with
  | some register => .done (some register)
  | none =>
  match number.fullMatch expr with
  | some result => .done (createImm (result 1))
  | none =>
  match dereference.fullMatch expr with
  | some result => .dereference (result 1) (result 2)
  | none =>
  match multiplication.fullMatch expr with
  | some result => .operation (result 1) (result 2) (result 3)
  | none =>
  match addOrSubstract.fullMatch expr with
  | some result => .operation (result 1) (result 2) (result 3)
  | none => .done (some (.symbol expr nonAddress))

/-- All a call on `expr` can come to. -/
inductive Handles (functions : FunctionMap) (expr : Text) : Handling → Prop where
  | entry {e : Vma × SymPtr} : e ∈ functions.items → Handles functions expr (.done e.2)
  | symbol (sym : Sym) : Handles functions expr (.done (some sym))
  | dereference {size inner : Text} : size ∈ sizeWords → inner.length < expr.length →
      Handles functions expr (.dereference size inner)
  | operation {lhs rhs : Text} (op : Text) : lhs.length < expr.length →
      rhs.length < expr.length → Handles functions expr (.operation lhs op rhs)

theorem findFunction_mem {functions : FunctionMap} {expr : Text} {entry : SymPtr}
    (h : findFunction functions expr = some entry) : ∃ e ∈ functions.items, e.2 = entry := by
  unfold findFunction at h
  split at h
  next => cases h
  next =>
    obtain ⟨e, he, rfl⟩ := Option.map_eq_some_iff.mp h
    exact ⟨e, Keyed.mem_of_find? he, rfl⟩

/-- The calls in turn are on shorter texts. -/
theorem Handles.shorter {functions : FunctionMap} {expr : Text} {k : Handling}
    (h : Handles functions expr k) : ∀ part ∈ k.calls, part.length < expr.length := by
  cases h with
  | entry _ => exact fun part hp => absurd hp List.not_mem_nil
  | symbol _ => exact fun part hp => absurd hp List.not_mem_nil
  | dereference _ hlt => exact List.forall_mem_singleton.mpr hlt
  | operation _ hl hr => exact List.forall_mem_cons.mpr ⟨hl, List.forall_mem_singleton.mpr hr⟩

theorem handling_handles (functions : FunctionMap) (expr : Text) :
    Handles functions expr (functions.handling expr) := by
  unfold handling
  split
  next entry hf =>
    obtain ⟨e, he, rfl⟩ := findFunction_mem hf
    exact .entry he
  next =>
    split
    next => exact .symbol _
    next =>
      split
      next => exact .symbol _
      next =>
        split
        next result hd =>
          obtain ⟨hsize, hlt⟩ := fullMatch_dereference hd
          exact .dereference hsize hlt
        next =>
          split
          next result hm =>
            obtain ⟨hl, hr⟩ := Regex.fullMatch_binary_length hm
            exact .operation _ hl hr
          next =>
            split
            next result ha =>
              obtain ⟨hl, hr⟩ := Regex.fullMatch_binary_length ha
              exact .operation _ hl hr
            next => exact .symbol _

theorem calls_shorter {functions : FunctionMap} {expr : Text} {k : Handling}
    (h : functions.handling expr = k) : ∀ part ∈ k.calls, part.length < expr.length :=
  (h ▸ handling_handles functions expr : Handles functions expr k).shorter

/-- `instruction_parser::handle_expression`. -/
def handleExpression (functions : FunctionMap) (expr : Text) : SymPtr :=
  match _ : functions.handling expr with
  | .done sym => sym
  | .dereference size inner => createDereference size (handleExpression functions inner)
  | .operation lhs op rhs =>
      createOperation (handleExpression functions lhs) op (handleExpression functions rhs)
termination_by expr.length
decreasing_by
  all_goals exact calls_shorter ‹_› _ (by simp [Handling.calls])

theorem handleExpression_eq (functions : FunctionMap) (expr : Text) :
    functions.handleExpression expr =
      (functions.handling expr).symbol functions.handleExpression := by
  rw [handleExpression]
  split <;> (rename_i hh; rw [hh]; rfl)

/-- A map with one function. -/
def oneFunction : FunctionMap := Keyed.nil.emplace (0x666, some (.function "f".toList 0x666))

/-! ## Spellings of a number -/

/-- A way to write a number in hexadecimal. -/
structure Spelling (v : Vma) where
  /-- There is a `0x` in front. -/
  prefixed : Bool
  /-- The digits, with any zeros in front. -/
  digits : Text
  nonempty : digits ≠ []
  hex : ∀ c ∈ digits, isHexDigit c = true
  value : hexValue digits = v.toNat

/-- What is in front of the digits. -/
def Spelling.mark {v : Vma} (s : Spelling v) : Text := if s.prefixed then "0x".toList else []

def Spelling.text {v : Vma} (s : Spelling v) : Text := s.mark ++ s.digits

section Spelling

variable {v : Vma} (s : Spelling v)

theorem Spelling.address_lang : address.Lang s.text := by
  refine ⟨s.mark, s.digits, rfl, ?_, [], s.digits, rfl, fun c hc => absurd hc List.not_mem_nil, ?_⟩
  · unfold Spelling.mark
    split
    · exact Or.inl (Regex.lang_str.mpr rfl)
    · exact Or.inr rfl
  · exact Regex.lang_plus.mpr ⟨s.nonempty, s.hex⟩

theorem Spelling.number_lang : number.Lang s.text := by
  refine ⟨s.mark, s.digits, rfl, ?_, Regex.lang_plus.mpr ⟨s.nonempty, s.hex⟩⟩
  unfold Spelling.mark
  split
  · exact Or.inl ⟨"0x".toList, [], rfl, Regex.lang_str.mpr rfl,
      fun c hc => absurd hc List.not_mem_nil⟩
  · exact Or.inr rfl

/-- A mark in front of digits is the mark of the spelling. -/
theorem Spelling.mark_eq {u rest : Text} (hu : u = "0x".toList ∨ u = [])
    (hrest : ∀ c ∈ rest, isHexDigit c = true) (h : u ++ rest = s.text) : u = s.mark := by
  have hx : ∀ {w z : Text}, "0x".toList ++ w = z → ¬∀ c ∈ z, isHexDigit c = true := by
    rintro w z rfl hz
    exact absurd (hz 'x' (by simp)) (by decide)
  rw [Spelling.text] at h
  unfold Spelling.mark at h ⊢
  split at h
  next hp =>
    rw [if_pos hp]
    rcases hu with rfl | rfl
    · rfl
    · exact absurd hrest (hx h.symm)
  next hp =>
    rw [if_neg hp]
    rcases hu with rfl | rfl
    · exact absurd s.hex (hx h)
    · rfl

/-- `address` takes digits of the same value. -/
theorem Spelling.fullMatch_address :
    ∃ c, address.fullMatch s.text = some c ∧ strToVma (c 1) = v := by
  obtain ⟨c, hc⟩ := Option.isSome_iff_exists.mp (Regex.fullMatch_isSome.mpr s.address_lang)
  refine ⟨c, hc, ?_⟩
  obtain ⟨hne, hchars, mark, zeros, hmark, hz, htext⟩ := fullMatch_address_spec hc
  have hrest : ∀ d ∈ zeros ++ c 1, isHexDigit d = true := by
    intro d hd
    rcases List.mem_append.mp hd with hd | hd
    · rw [hz d hd]
      rfl
    · exact hchars d hd
  have hdigits : s.digits = zeros ++ c 1 := by
    rw [s.mark_eq hmark hrest htext.symm, Spelling.text] at htext
    exact List.append_cancel_left htext
  have hvalue : hexValue (c 1) = v.toNat := by
    rw [← s.value, hdigits, hexValue_zeros hz]
  rw [strToVma, extractHex_digits hchars, readHex_of_lt hne (hvalue ▸ v.toNat_lt), hvalue]
  exact UInt64.ofNat_toNat

theorem findFunction_spelling (functions : FunctionMap) :
    findFunction functions s.text = (functions.find? v).map Prod.snd := by
  obtain ⟨c, hc, hv⟩ := s.fullMatch_address
  rw [findFunction, hc]
  simp only [hv]

theorem handling_of_none {functions : FunctionMap} {expr : Text}
    (h : findFunction functions expr = none) : functions.handling expr = handling .nil expr := by
  have hnil : findFunction .nil expr = none := by
    unfold findFunction
    split <;> rfl
  rw [handling, handling, h, hnil]

theorem handling_spelling (functions : FunctionMap) :
    ∃ sym, functions.handling s.text = .done sym := by
  obtain ⟨c, hc⟩ := Option.isSome_iff_exists.mp (Regex.fullMatch_isSome.mpr s.number_lang)
  unfold handling
  split
  next => exact ⟨_, rfl⟩
  next =>
    split
    next => exact ⟨_, rfl⟩
    next =>
      rw [hc]
      exact ⟨_, rfl⟩

theorem handleExpression_of_entry {functions : FunctionMap} {entry : Vma × SymPtr}
    (h : functions.find? v = some entry) : functions.handleExpression s.text = entry.2 := by
  have hfind := findFunction_spelling s functions
  rw [h, Option.map_some] at hfind
  rw [handleExpression_eq, handling, hfind]
  rfl

theorem handleExpression_of_none {functions : FunctionMap} (h : functions.find? v = none) :
    functions.handleExpression s.text = handleExpression .nil s.text := by
  have hfind := findFunction_spelling s functions
  rw [h, Option.map_none] at hfind
  obtain ⟨sym, hsym⟩ := handling_spelling s .nil
  rw [handleExpression_eq, handling_of_none hfind, hsym, handleExpression_eq, hsym]
  rfl

/-- Two spellings of the address of a function are the same function. -/
theorem handleExpression_respelled {functions : FunctionMap} {entry : Vma × SymPtr}
    (h : functions.find? v = some entry) (s' : Spelling v) :
    functions.handleExpression s.text = functions.handleExpression s'.text :=
  (handleExpression_of_entry s h).trans (handleExpression_of_entry s' h).symm

/-- **A number finds its function however it is spelled**, and else is what it is without any
functions. -/
theorem handleExpression_spelling (functions : FunctionMap) :
    functions.handleExpression s.text =
      match functions.find? v with
      | some entry => entry.2
      | none => handleExpression .nil s.text := by
  cases h : functions.find? v with
  | some entry => exact handleExpression_of_entry s h
  | none => exact handleExpression_of_none s h

end Spelling

example : oneFunction.handleExpression "0x00000666".toList =
    some (.function "f".toList 0x666) := by decide +kernel

/-! ## No operand is null -/

section Success

variable {functions : FunctionMap}

/-- No entry is null. -/
def NonNull (functions : FunctionMap) : Prop := ∀ e ∈ functions.items, e.2.isSome

instance (functions : FunctionMap) : Decidable functions.NonNull :=
  inferInstanceAs (Decidable (∀ e ∈ _, _))

theorem handleExpression_isSome (h : functions.NonNull) (expr : Text) :
    (functions.handleExpression expr).isSome := by
  rw [handleExpression_eq]
  have hh := functions.handling_handles expr
  cases hk : functions.handling expr with
  | done sym =>
      rw [hk] at hh
      cases hh with
      | entry he => exact h _ he
      | symbol sym => rfl
  | dereference size inner =>
      rw [hk] at hh
      cases hh with
      | dereference hsize hlt =>
          exact createDereference_isSome hsize (handleExpression_isSome h inner)
  | operation lhs op rhs =>
      rw [hk] at hh
      cases hh with
      | operation _ hl hr =>
          exact createOperation_isSome op (handleExpression_isSome h lhs)
            (handleExpression_isSome h rhs)
termination_by expr.length

/-- One operand of `getArgs`, with its assertion. -/
def createArg (functions : FunctionMap) (arg : Text) : Unit → Emitted Unit Sym Text := fun _ =>
  match functions.handleExpression arg with
  | some sym => ⟨(), [sym], none⟩
  | none => ⟨(), [], some "failed to create symbol/expression".toList⟩

/-- `instruction_parser::getArgs`. -/
def getArgs (functions : FunctionMap) (i : Instruction) : Emitted Unit Sym Text :=
  emitAll functions.createArg (i.parse.drop 1) ()

theorem getArgs_raised (h : functions.NonNull) (i : Instruction) :
    (functions.getArgs i).raised = none := by
  refine (emitAll_raised ..).mpr fun v hv => ?_
  obtain ⟨sym, hsym⟩ := Option.isSome_iff_exists.mp (handleExpression_isSome h v.input)
  rw [visit_result hv, createArg, hsym]

/-- **Operands always become symbols.**  The calls a call makes are on shorter texts, no call
returns a null pointer, and the assertion of `getArgs` holds for every instruction. -/
theorem operands_succeed (h : functions.NonNull) :
    (∀ expr, (∀ part ∈ (functions.handling expr).calls, part.length < expr.length) ∧
      (functions.handleExpression expr).isSome) ∧
    ∀ i : Instruction, (functions.getArgs i).raised = none :=
  ⟨fun expr => ⟨(functions.handling_handles expr).shorter, handleExpression_isSome h expr⟩,
    getArgs_raised h⟩

end Success

theorem operands_succeed_oneFunction :
    (∀ expr, (∀ part ∈ (oneFunction.handling expr).calls, part.length < expr.length) ∧
      (oneFunction.handleExpression expr).isSome) ∧
    ∀ i : Instruction, (oneFunction.getArgs i).raised = none :=
  operands_succeed (by decide)

/-! ## Maps without null pointers -/

/-- A map whose entries are no null pointers. -/
def ofSymMap (functions : SymMap) : FunctionMap where
  items := functions.items.map fun e => (e.1, some e.2)
  sorted := List.pairwise_map.mpr functions.sorted

theorem find?_ofSymMap (functions : SymMap) (k : Vma) :
    (ofSymMap functions).find? k = (functions.find? k).map fun e => (e.1, some e.2) := by
  rw [Keyed.find?, ofSymMap, List.find?_map]
  rfl

/-- On a map without null pointers this is `handleExpression`. -/
theorem handleExpression_ofSymMap (functions : SymMap) (expr : Text) :
    (ofSymMap functions).handleExpression expr = Befa.handleExpression functions expr := by
  have hfind : ∀ expr, findFunction (ofSymMap functions) expr =
      (Befa.findFunction functions expr).map some := by
    intro expr
    unfold findFunction Befa.findFunction
    cases address.fullMatch expr with
    | none => rfl
    | some c =>
        dsimp only
        rw [find?_ofSymMap, Option.map_map, Option.map_map]
        rfl
  induction expr using Befa.handleExpression.induct functions with
  | case1 expr function hf =>
      rw [handleExpression_function hf, handleExpression_eq, handling, hfind, hf]
      rfl
  | case2 expr hf register hr =>
      rw [handleExpression_register hf hr, handleExpression_eq, handling, hfind, hf, hr]
      rfl
  | case3 expr hf hr result hn =>
      rw [handleExpression_number hf hr hn, handleExpression_eq, handling, hfind, hf, hr, hn]
      rfl
  | case4 expr hf hr hn result hd ih =>
      rw [handleExpression_dereference hf hr hn hd, handleExpression_eq, handling, hfind, hf, hr,
        hn, hd, ← ih]
      rfl
  | case5 expr hf hr hn hd result hm ihl ihr =>
      rw [handleExpression_multiplication hf hr hn hd hm, handleExpression_eq, handling, hfind, hf,
        hr, hn, hd, hm, ← ihl, ← ihr]
      rfl
  | case6 expr hf hr hn hd hm result ha ihl ihr =>
      rw [handleExpression_addOrSubstract hf hr hn hd hm ha, handleExpression_eq, handling, hfind,
        hf, hr, hn, hd, hm, ha, ← ihl, ← ihr]
      rfl
  | case7 expr hf hr hn hd hm ha =>
      rw [handleExpression_symbol hf hr hn hd hm ha, handleExpression_eq, handling, hfind, hf, hr,
        hn, hd, hm, ha]
      rfl

theorem getArgs_ofSymMap (functions : SymMap) (i : Instruction) :
    (ofSymMap functions).getArgs i = i.getArgs functions := by
  have harg : (ofSymMap functions).createArg = Befa.createArg functions := by
    funext arg s
    rw [createArg, handleExpression_ofSymMap]
    rfl
  rw [getArgs, Instruction.getArgs, harg]

end FunctionMap

end Befa
