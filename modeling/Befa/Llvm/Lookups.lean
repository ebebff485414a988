import Befa.Assembly.OperandDecoding
import Befa.Llvm.Compositional
import Befa.Llvm.Semantics

/-!
# Looking symbols up

The decompiler looks its symbols up in two ways.  `findSymbol` scans the table in the order of the
keys for a symbol whose name *contains* a text, so a function whose name contains `_cf` hides the
carry flag when its key is less than `cf`.  `toMap` shows the table by address.  Registers and
temporaries have no address, and all of them are put under the marker `2 ^ 64 - 1`, where one of
them is found as if it were a function.

`findsFlags_iff` and `addressView_iff` say when either lookup is right.
-/

namespace Befa

/-! ## Registers and functions -/

/-- A table of the registers under their keys, and of functions. -/
structure ProgramTable where
  table : SymTable
  /-- The registers are there. -/
  registers : HoldsRegisters table
  /-- Everything else is a function. -/
  others : ∀ x ∈ table.items, (∃ r ∈ Befa.registers, x = (r.1, registerOf r)) ∨
    ∃ key callee address, x = (key, .function callee address)

/-- No function with a key in front of the register's contains the name of the register. -/
def ProgramTable.Undisturbed (t : ProgramTable) (register : Text) : Prop :=
  ∀ key callee address, (key, Sym.function callee address) ∈ t.table.items → key < register →
    ¬('_' :: register) <:+: callee

theorem infix_function {register callee : Text} {address : Vma} :
    '_' :: register <:+: (Sym.function callee address).getName ↔ '_' :: register <:+: callee := by
  rw [Sym.getName, show "@".toList ++ callee = '@' :: callee from rfl, List.infix_cons_iff]
  refine or_iff_right ?_
  rintro ⟨_, h⟩
  exact absurd (List.cons.inj h).1 (by decide)

/-- A register is found by its name just when no function hides it. -/
theorem findSymbol_register (t : ProgramTable) {r : Text × Size} (hr : r ∈ registers)
    (hu : ∀ q ∈ registers, '_' :: r.1 <:+: (registerOf q).getName → q = r) :
    t.table.findSymbol ('_' :: r.1) = some (registerOf r) ↔ t.Undisturbed r.1 := by
  have hentry : (r.1, registerOf r) ∈ t.table.items := Keyed.mem_of_find? (t.registers r hr)
  have hname : '_' :: r.1 <:+: (registerOf r).getName :=
    ⟨"((".toList ++ r.2.name ++ ")".toList, ")".toList, rfl⟩
  rw [SymTable.findSymbol, Option.map_eq_some_iff]
  constructor
  · rintro ⟨x, hfind, hx⟩ key callee address hmem hlt hin
    obtain ⟨hxmem, hxin, hleast⟩ := Keyed.scan_eq_some_iff.mp hfind
    have hkey : x.1 = r.1 := by
      rcases t.others x hxmem with ⟨q, hq, rfl⟩ | ⟨key, callee, address, rfl⟩
      · rw [hu q hq (by simpa using hxin)]
      · cases hx
    have hno := hleast _ hmem (hkey ▸ hlt)
    rw [decide_eq_false_iff_not, infix_function] at hno
    exact hno hin
  · intro h
    refine ⟨_, Keyed.scan_eq_some_iff.mpr ⟨hentry, decide_eq_true hname, ?_⟩, rfl⟩
    intro y hy hlt
    refine decide_eq_false ?_
    rcases t.others y hy with ⟨q, hq, rfl⟩ | ⟨key, callee, address, rfl⟩
    · intro hin
      rw [hu q hq hin] at hlt
      exact absurd hlt (lt_irrefl _)
    · rw [infix_function]
      exact h key callee address hy hlt

/-- The flags of the factories. -/
def flagRegisters : List Text := ["cf", "zf", "sf", "pf"].map String.toList

/-- **The flags are found among any functions** but those that hide one. -/
theorem findsFlags_iff (t : ProgramTable) :
    FindsFlags t.table ↔ ∀ register ∈ flagRegisters, t.Undisturbed register := by
  have hflag : ∀ name ∈ flagRegisters, (name, Size.bit) ∈ registers ∧
      ∀ q ∈ registers, '_' :: name <:+: (registerOf q).getName → q = (name, Size.bit) := by
    decide +kernel
  have hfind : ∀ name ∈ flagRegisters, t.table.findSymbol ('_' :: name) =
      some (registerOf (name, .bit)) ↔ t.Undisturbed name :=
    fun name hn => findSymbol_register t (hflag name hn).1 (hflag name hn).2
  constructor
  · intro h name hn
    refine (hfind name hn).mp ?_
    simp only [flagRegisters, List.map_cons, List.map_nil, List.mem_cons, List.not_mem_nil,
      or_false] at hn
    rcases hn with rfl | rfl | rfl | rfl
    · exact h.cf
    · exact h.zf
    · exact h.sf
    · exact h.pf
  · intro h
    have hall : ∀ name ∈ flagRegisters, t.table.findSymbol ('_' :: name) =
        some (registerOf (name, .bit)) := fun name hn => (hfind name hn).mpr (h name hn)
    exact ⟨hall "cf".toList (by decide), hall "zf".toList (by decide),
      hall "sf".toList (by decide), hall "pf".toList (by decide)⟩

/-- The registers and a function `add_cfg`. -/
def addCfgTable : ProgramTable where
  table := registerTable.emplace ("add_cfg".toList, .function "add_cfg".toList 0x400800)
  registers := fun _ hr => Keyed.find?_emplace_of_some _ (registerTable_find? hr)
  others := by
    intro x hx
    rcases Keyed.mem_emplace.mp hx with hx | ⟨rfl, -⟩
    · obtain ⟨r, hr, rfl⟩ := List.mem_map.mp (Keyed.mem_of_mem_ofList hx)
      exact Or.inl ⟨r, hr, rfl⟩
    · exact Or.inr ⟨_, _, _, rfl⟩

/-- The function `add_cfg` is taken for the carry flag. -/
theorem addCfg_hides : ¬FindsFlags addCfgTable.table := by
  intro h
  have hmem : ("add_cfg".toList, Sym.function "add_cfg".toList 0x400800) ∈
      addCfgTable.table.items := by
    refine Keyed.mem_emplace.mpr (Or.inr ⟨rfl, ?_⟩)
    have hnot : ∀ r ∈ registers, r.1 ≠ "add_cfg".toList := by decide +kernel
    refine Keyed.find?_eq_none_iff.mpr fun x hx => ?_
    obtain ⟨r, hr, rfl⟩ := List.mem_map.mp (Keyed.mem_of_mem_ofList hx)
    exact hnot r hr
  have hcf := (findSymbol_register addCfgTable (r := ("cf".toList, .bit)) (by decide +kernel)
    (by decide +kernel)).mp h.cf
  exact hcf _ _ _ hmem (by decide) (by decide)

/-! ## Symbols by address -/

namespace SymTable

/-- `find_symbol`, by address. -/
def findSymbolAt (t : SymTable) (address : Vma) : SymPtr :=
  (t.items.find? fun x => x.2.getAddress = address).map Prod.snd

/-- `get_address`. -/
def getAddress (sym : Sym) : Except Text Vma :=
  if sym.getAddress = nonAddress then .error "trying to load non-symbol address".toList
  else .ok sym.getAddress

/-- The search by address finds what the view by address shows. -/
theorem findSymbolAt_eq (t : SymTable) (a : Vma) :
    t.findSymbolAt a = (t.toMap.find? a).map Prod.snd := by
  rw [findSymbolAt, toMap, Keyed.find?_ofList, List.find?_map, Option.map_map]
  rfl

/-- A symbol that is found at an address gives it back, unless it is the marker. -/
theorem getAddress_of_findSymbolAt {t : SymTable} {a : Vma} {sym : Sym}
    (h : t.findSymbolAt a = some sym) (ha : a ≠ nonAddress) : getAddress sym = .ok a := by
  obtain ⟨x, hx, rfl⟩ := Option.map_eq_some_iff.mp h
  have hkey : x.2.getAddress = a := by simpa using List.find?_some hx
  rw [getAddress, hkey, if_neg ha]

end SymTable

/-- A symbol that a program brings: a register, a temporary or a function. -/
def Sym.IsProgram : Sym → Prop
  | .symbol _ _ => False
  | .immidiate _ => False
  | _ => True

/-- A table of registers, temporaries and functions. -/
structure MixedTable where
  table : SymTable
  kinds : ∀ x ∈ table.items, x.2.IsProgram

namespace MixedTable

/-- A symbol of the table has no address. -/
def HasMarker (t : MixedTable) : Prop := ∃ x ∈ t.table.items, x.2.getAddress = nonAddress

/-- The view has an entry at an address just when a symbol really has it, and then a symbol that
has it. -/
def ViewedAt (t : MixedTable) (a : Vma) : Prop :=
  ((t.table.toMap.find? a).isSome ↔ ∃ x ∈ t.table.items, x.2.getAddress = a ∧ a ≠ nonAddress) ∧
    ∀ entry, t.table.toMap.find? a = some entry → entry.2.getAddress = a

/-- Operands of the value `2 ^ 64 - 1` are decoded as immediates. -/
def DecodesMarker (t : MixedTable) : Prop :=
  ∀ (i : Instruction) (mnemonic : Name) (blanks : Nat) (operands : List Operand)
    (comment : Option Comment) (k : Nat) (n : HexNumber), 0 < blanks →
    operands[k]? = some (.immediate n) → hexValue n.digits = 2 ^ 64 - 1 →
      IsImmediate (((i.withText (instructionText mnemonic blanks (operands.map Operand.text)
        comment)).getArgs t.table.toMap).out[k]?) (2 ^ 64 - 1)

theorem toMap_find? (t : SymTable) (a : Vma) :
    (t.toMap.find? a).isSome ↔ ∃ x ∈ t.items, x.2.getAddress = a := by
  rw [SymTable.toMap, Keyed.find?_ofList, List.find?_map, Option.isSome_map, List.find?_isSome]
  simp

theorem toMap_getAddress {t : SymTable} {a : Vma} {entry : Vma × Sym}
    (h : t.toMap.find? a = some entry) :
    entry.2.getAddress = a ∧ ∃ x ∈ t.items, x.2 = entry.2 := by
  have hkey := Keyed.key_of_find? h
  obtain ⟨x, hx, rfl⟩ := List.mem_map.mp (Keyed.mem_of_mem_ofList (Keyed.mem_of_find? h))
  exact ⟨hkey, x, hx, rfl⟩

theorem viewedAt_iff (t : MixedTable) (a : Vma) :
    t.ViewedAt a ↔ a ≠ nonAddress ∨ ¬t.HasMarker := by
  rw [ViewedAt, and_iff_left fun _ h => (toMap_getAddress h).1, toMap_find?]
  by_cases ha : a = nonAddress
  · subst ha
    simp [HasMarker]
  · simp [ha]

/-- The digits of `2 ^ 64 - 1`. -/
def markerDigits : HexNumber := ⟨"ffffffffffffffff".toList, by decide, by decide⟩

/-- What is found under the marker is no immediate. -/
theorem findFunction_marker {t : MixedTable} (h : t.HasMarker) :
    ∃ sym, findFunction t.table.toMap markerDigits.digits = some sym ∧ sym.IsProgram := by
  obtain ⟨entry, hentry⟩ := Option.isSome_iff_exists.mp ((toMap_find? t.table nonAddress).mpr h)
  obtain ⟨x, hx, hsym⟩ := (toMap_getAddress hentry).2
  have hkey : (address.fullMatch markerDigits.digits).map (strToVma <| · 1) = some nonAddress := by
    decide +kernel
  obtain ⟨c, hc, hvma⟩ := Option.map_eq_some_iff.mp hkey
  refine ⟨entry.2, ?_, hsym ▸ t.kinds x hx⟩
  rw [findFunction, hc]
  simp only [hvma, hentry, Option.map_some]

theorem decodesMarker_iff (t : MixedTable) : t.DecodesMarker ↔ ¬t.HasMarker := by
  constructor
  · intro h hmarker
    obtain ⟨sym, hfind, hsym⟩ := findFunction_marker hmarker
    have hmov := h textless ⟨⟨"mov".toList, by decide, by decide⟩, by decide⟩ 1
      [.immediate markerDigits] none 0 markerDigits (by decide) rfl (by decide)
    rw [getElem?_getArgs textless _ 1 (by decide) _ none _ rfl, Operand.piece,
      handleExpression_function hfind] at hmov
    obtain ⟨text, he, -⟩ := hmov
    rw [Option.some.inj he] at hsym
    exact hsym
  · intro h i mnemonic blanks operands comment k n hb hk hv
    have hfree : t.table.toMap.find? (UInt64.ofNat (hexValue n.digits)) = none := by
      rw [← Option.not_isSome_iff_eq_none, toMap_find?, hv]
      exact h
    have hdigits : n.digits ∉ registerDigits := by
      have hsmall : ∀ d ∈ registerDigits, hexValue d < 2 ^ 8 := by decide
      intro hmem
      have := hsmall _ hmem
      omega
    rw [getElem?_getArgs i mnemonic blanks hb operands comment _ hk, ← hv]
    exact (handleExpression_digits n (by omega) hfree).mpr hdigits

end MixedTable

/-- **Address view of the symbol table.**  It is right but at the marker, and there too when every
symbol has an address. -/
theorem addressView_iff (t : MixedTable) :
    (∀ a, t.ViewedAt a ↔ a ≠ nonAddress ∨ ¬t.HasMarker) ∧ (t.DecodesMarker ↔ ¬t.HasMarker) :=
  ⟨t.viewedAt_iff, t.decodesMarker_iff⟩

/-- The registers. -/
def registersOnly : MixedTable where
  table := registerTable
  kinds := by
    intro x hx
    obtain ⟨r, -, rfl⟩ := List.mem_map.mp (Keyed.mem_of_mem_ofList hx)
    trivial

/-- A register is found at `2 ^ 64 - 1`. -/
theorem registersOnly_view :
    ¬registersOnly.ViewedAt nonAddress ∧ ¬registersOnly.DecodesMarker := by
  have hrax : ("rax".toList, Size.qword) ∈ registers := by decide +kernel
  have hmarker : registersOnly.HasMarker :=
    ⟨_, Keyed.mem_of_find? (registerTable_find? hrax), rfl⟩
  refine ⟨fun h => ?_, fun h => (registersOnly.decodesMarker_iff.mp h) hmarker⟩
  rcases (registersOnly.viewedAt_iff nonAddress).mp h with hne | hno
  · exact hne rfl
  · exact hno hmarker

end Befa
