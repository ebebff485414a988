import Befa.Assembly.Operand
import Befa.Assembly.RunDisassembler

/-!
# The table of functions by address

`ExecutableFile::generate_table` makes a `Function` of every symbol and puts it under the address
of the symbol.  Addresses of the symbol table are distinct, so no insertion is dropped.  A symbol
compares equal to the names of its records, which are the BFD symbols at its address
(`generateTable_exact`).
-/

namespace Befa

/-- `Symbol::operator==(name)`: the name, or that of an alias. -/
def Symbol.hasName (s : Symbol) (name : Text) : Bool :=
  decide (s.getName = name) || s.aliases.any fun a => decide (name = a.name)

/-- A symbol compares equal to the names of its records. -/
theorem Symbol.hasName_iff {s : Symbol} {name : Text} :
    s.hasName name = true ↔ ∃ a ∈ s.records, a.name = name := by
  rw [hasName, Bool.or_eq_true, decide_eq_true_iff, List.any_eq_true, records]
  simp only [List.mem_cons, exists_eq_or_imp, decide_eq_true_eq]
  exact or_congr_right (exists_congr fun a => and_congr_right fun _ => eq_comm)

/-- `symbol_table::Function`. -/
structure FunctionOf where
  /-- `asm_symbol`. -/
  asmSymbol : Symbol

/-- The symbol of an operand that a function is. -/
def FunctionOf.sym (f : FunctionOf) : Sym := .function f.asmSymbol.getName f.asmSymbol.getAddress

/-- The entry of a symbol. -/
def functionEntry (s : Symbol) : Vma × FunctionOf := (s.getAddress, ⟨s⟩)

/-- `generate_table`, as the file it leaves and the map it returns. -/
def ExecutableFile.generateTable (f : ExecutableFile) : ExecutableFile × OrdMap Vma FunctionOf :=
  let f' := f.getSymbolTable
  (f', Keyed.ofList (f'.symbolBuffer.map functionEntry))

namespace ExecutableFile

theorem items_generateTable (f : ExecutableFile) : f.generateTable.2 =
    Keyed.ofList ((symbolTable f.fd.symbols).map functionEntry) := by
  rw [generateTable]
  simp only [symbolBuffer_getSymbolTable]

/-- No symbol of the table is dropped. -/
theorem find?_generateTable {f : ExecutableFile} {s : Symbol} (hs : s ∈ symbolTable f.fd.symbols) :
    f.generateTable.2.find? s.getAddress = some (s.getAddress, ⟨s⟩) := by
  have hnodup : (((symbolTable f.fd.symbols).map functionEntry).map Prod.fst).Nodup := by
    rw [List.map_map, List.Nodup, List.pairwise_map]
    exact (symbolTable_sorted f.fd.symbols).imp fun h => h.ne
  rw [items_generateTable]
  exact Keyed.find?_ofList_of_mem hnodup (List.mem_map_of_mem hs)

/-- Every entry is that of a symbol of the table. -/
theorem generateTable_inv {f : ExecutableFile} {a : Vma} {entry : Vma × FunctionOf}
    (h : f.generateTable.2.find? a = some entry) :
    entry.2.asmSymbol ∈ symbolTable f.fd.symbols ∧ entry.2.asmSymbol.getAddress = a := by
  rw [items_generateTable] at h
  have hkey := Keyed.key_of_find? h
  obtain ⟨s, hs, rfl⟩ := List.mem_map.mp (Keyed.mem_of_mem_ofList (Keyed.mem_of_find? h))
  exact ⟨hs, hkey⟩

/-- **The address table is complete and exact.** -/
theorem generateTable_exact (f : ExecutableFile) (a : Vma) :
    ((f.generateTable.2.find? a).isSome ↔ ∃ b ∈ f.fd.symbols, bfdAsymbolValue b = a) ∧
      ∀ entry, f.generateTable.2.find? a = some entry → entry.2.sym.getAddress = a ∧
        ∀ name, entry.2.asmSymbol.hasName name = true ↔
          ∃ b ∈ f.fd.symbols, bfdAsymbolValue b = a ∧ b.name = name := by
  refine ⟨⟨fun h => ?_, ?_⟩, fun entry h => ?_⟩
  · obtain ⟨entry, hentry⟩ := Option.isSome_iff_exists.mp h
    obtain ⟨hs, ha⟩ := generateTable_inv hentry
    have horigin : entry.2.asmSymbol.origin ∈ entry.2.asmSymbol.records := List.mem_cons_self ..
    rw [records_of_mem_symbolTable hs] at horigin
    exact ⟨_, List.mem_of_mem_filter horigin, ha⟩
  · rintro ⟨b, hb, rfl⟩
    obtain ⟨s, hs, he⟩ := exists_mem_symbolTable hb
    rw [← he, find?_generateTable hs]
    rfl
  · obtain ⟨hs, rfl⟩ := generateTable_inv h
    refine ⟨rfl, fun name => ?_⟩
    rw [Symbol.hasName_iff, records_of_mem_symbolTable hs]
    simp [and_assoc]

end ExecutableFile

end Befa
