import Befa.Assembly.DecodeLoop
import Befa.Assembly.SymbolMerge

/-!
# A run over the symbol table

`ExecutableFile::runDisassembler` walks the symbol table with an iterator.  A symbol that is no
function is skipped.  The window of the others ends at the next symbol behind them whose own flags
say function, or else at the end of their section.  The bytes of the section are loaded and the
window is handed to `fetch`.

`windows` lists the symbols of a table that are decoded, with their windows.  A run is the loop of
`fetchWindow` over them (`runDisassembler_eq`), and `decodes` lists the calls of `fetch` it makes.

`runChecked` is the run with the `int`s of the source.  It has no result when an offset overflows,
and otherwise it is `runDisassembler` (`runChecked_eq`).
-/

namespace Befa

/-- What the library asks of a `bfd`. -/
structure Bfd where
  /-- The symbols `fetchSymbolTable` returns. -/
  symbols : List Asymbol
  /-- The contents of the sections. -/
  contents : Asection → Nat → UInt8
  /-- The disassembler of the target. -/
  disassembler : Option Disassembler

/-- The fields `runDisassembler` sets in `d_info`, and the bytes it loads. -/
def sectionInfo (fd : Bfd) (sec : Section) : DisassembleInfo where
  bufferVma := sec.getAddress
  bufferLength := sec.getSize.toUInt32
  buffer := (List.range sec.getSize.toUInt32.toNat).map (fd.contents sec.origin)

/-! ## The file -/

/-- `ExecutableFile`. -/
structure ExecutableFile where
  /-- `_fd`. -/
  fd : Bfd
  /-- `section_buffer`. -/
  sectionBuffer : List Section
  /-- `symbol_buffer`. -/
  symbolBuffer : List Symbol
  /-- `basic_block_buffer`. -/
  basicBlockBuffer : Blocks
  /-- The symbol buffer is the symbol table, once it is filled. -/
  filled : symbolBuffer = [] ∨ symbolBuffer = symbolTable fd.symbols

namespace ExecutableFile

/-- `ExecutableFile(fd)`. -/
def new (fd : Bfd) : ExecutableFile := ⟨fd, [], [], .nil, Or.inl rfl⟩

/-- `getSymbolTable`, as what it leaves in the file.  It returns the symbol buffer. -/
def getSymbolTable (f : ExecutableFile) : ExecutableFile :=
  if f.symbolBuffer.isEmpty then
    let b := mergeSymbols f.fd.symbols ⟨[], f.sectionBuffer⟩
    { f with
      symbolBuffer := sortSymbols b.symbolBuffer
      sectionBuffer := b.sectionBuffer
      filled := Or.inr (symbolTable_sections ..) }
  else f

theorem symbolBuffer_getSymbolTable (f : ExecutableFile) :
    f.getSymbolTable.symbolBuffer = symbolTable f.fd.symbols := by
  unfold getSymbolTable
  split
  · exact symbolTable_sections ..
  · rename_i h
    exact f.filled.resolve_left fun he => h (by rw [he]; rfl)

@[simp] theorem fd_getSymbolTable (f : ExecutableFile) : f.getSymbolTable.fd = f.fd := by
  unfold getSymbolTable
  split <;> rfl

@[simp] theorem basicBlockBuffer_getSymbolTable (f : ExecutableFile) :
    f.getSymbolTable.basicBlockBuffer = f.basicBlockBuffer := by
  unfold getSymbolTable
  split <;> rfl

end ExecutableFile

/-! ## Windows -/

/-- The positions of an iterator: an element and those behind it. -/
def iterators {α : Type} : List α → List (α × List α)
  | [] => []
  | a :: l => (a, l) :: iterators l

/-- The first symbol from the iterator on whose own flags say function and whose address is
larger. -/
def closest (sym : Symbol) (rest : List Symbol) : Option Symbol :=
  (sym :: rest).find? fun val =>
    decide (val.getFlags &&& bsfFunction ≠ 0 ∧ sym.getAddress < val.getAddress)

/-- `sym_size`. -/
def symSize (sym : Symbol) (rest : List Symbol) : Vma :=
  match closest sym rest with
  | none => sym.getDistanceToEnd
  | some c => sym.getDistance c

/-- The call of `fetch` for a symbol and its window. -/
def fetchWindow (fd : Bfd) (w : Symbol × Vma) (blocks : Blocks) :
    Emitted Blocks Instruction Text :=
  fetch fd.disassembler w.1 (sectionInfo fd w.1.parent) w.2 blocks

/-- The body of the loop of `runDisassembler`. -/
def disassembleSymbol (fd : Bfd) (ite : Symbol × List Symbol) (blocks : Blocks) :
    Emitted Blocks Instruction Text :=
  if ite.1.hasFlags bsfFunction = true then fetchWindow fd (ite.1, symSize ite.1 ite.2) blocks
  else ⟨blocks, [], none⟩

/-- `runDisassembler`. -/
def ExecutableFile.runDisassembler (f : ExecutableFile) :
    Emitted ExecutableFile Instruction Text :=
  let f' := f.getSymbolTable
  let r := emitAll (disassembleSymbol f'.fd) (iterators f'.symbolBuffer) f'.basicBlockBuffer
  ⟨{ f' with basicBlockBuffer := r.state }, r.out, r.raised⟩

/-- The symbol an iterator points at and its window, if it is decoded. -/
def window (ite : Symbol × List Symbol) : Option (Symbol × Vma) :=
  if ite.1.hasFlags bsfFunction = true then some (ite.1, symSize ite.1 ite.2) else none

/-- The symbols of a table that are decoded, with their windows. -/
def windows (table : List Symbol) : List (Symbol × Vma) := (iterators table).filterMap window

theorem hasFlags_of_window_none {ite : Symbol × List Symbol} (h : window ite = none) :
    ¬ite.1.hasFlags bsfFunction = true := by
  rw [window] at h
  intro hf
  rw [if_pos hf] at h
  cases h

theorem window_eq_some {ite : Symbol × List Symbol} {w : Symbol × Vma}
    (h : window ite = some w) :
    ite.1.hasFlags bsfFunction = true ∧ w = (ite.1, symSize ite.1 ite.2) := by
  rw [window] at h
  split at h
  next hf => exact ⟨hf, (Option.some.inj h).symm⟩
  next => cases h

/-- A run over a table is the loop of `fetchWindow` over its windows. -/
theorem emitAll_disassembleSymbol (fd : Bfd) (table : List Symbol) (blocks : Blocks) :
    emitAll (disassembleSymbol fd) (iterators table) blocks =
      emitAll (fetchWindow fd) (windows table) blocks := by
  refine emitAll_filterMap (fun ite s h => ?_) (fun ite w s h => ?_) _ _
  · exact if_neg (hasFlags_of_window_none h)
  · obtain ⟨hf, rfl⟩ := window_eq_some h
    exact if_pos hf

theorem ExecutableFile.runDisassembler_eq (f : ExecutableFile) :
    let r := emitAll (fetchWindow f.fd) (windows (symbolTable f.fd.symbols)) f.basicBlockBuffer
    f.runDisassembler.out = r.out ∧ f.runDisassembler.raised = r.raised ∧
      f.runDisassembler.state.basicBlockBuffer = r.state := by
  simp [runDisassembler, symbolBuffer_getSymbolTable, emitAll_disassembleSymbol]

/-- The calls of `fetch` a run makes. -/
def ExecutableFile.decodes (f : ExecutableFile) :
    List (Visit (Symbol × Vma) Blocks Instruction Text) :=
  visits (fetchWindow f.fd) (windows (symbolTable f.fd.symbols)) f.basicBlockBuffer

/-- The instructions the disassembler yields for a window of a file. -/
def windowYields (fd : Bfd) (dis : Disassembler) (w : Symbol × Vma) : List Yield :=
  yieldsOf dis (sectionInfo fd w.1.parent) w.1.getAddress w.2

/-! ## The windows of a table -/

/-- The symbols that have a window are the functions of the table. -/
theorem windows_fst (table : List Symbol) :
    (windows table).map Prod.fst = table.filter (·.hasFlags bsfFunction) := by
  induction table with
  | nil => rfl
  | cons sym table ih =>
      rw [windows] at ih ⊢
      by_cases h : sym.hasFlags bsfFunction = true
      · have hw : window (sym, table) = some (sym, symSize sym table) := if_pos h
        rw [iterators, List.filterMap_cons_some hw, List.map_cons, ih]
        simp [h]
      · have hw : window (sym, table) = none := if_neg h
        rw [iterators, List.filterMap_cons_none hw, ih]
        simp [h]

/-- The symbols that have a window come in increasing address order. -/
theorem windows_sorted (syms : List Asymbol) :
    (windows (symbolTable syms)).Pairwise fun w w' => w.1.getAddress < w'.1.getAddress := by
  have h := (symbolTable_sorted syms).filter (·.hasFlags bsfFunction)
  rwa [← windows_fst, List.pairwise_map] at h

theorem mem_windows {table : List Symbol} {w : Symbol × Vma} (h : w ∈ windows table) :
    w.1 ∈ table ∧ w.1.hasFlags bsfFunction = true := by
  have hm : w.1 ∈ (windows table).map Prod.fst := List.mem_map_of_mem h
  rwa [windows_fst, List.mem_filter] at hm

/-! ## Runs with integers -/

/-- `fetchWindow`, with the `int`s of `fetch`.  The fake file is reset first, so it may be new. -/
def fetchWindowChecked (fd : Bfd) (w : Symbol × Vma) (blocks : Blocks) :
    Option (Emitted Blocks Instruction Text) :=
  fetchChecked fd.disassembler w.1 (sectionInfo fd w.1.parent) w.2 ⟨[], 0⟩ blocks

/-- `disassembleSymbol`, with the `int`s of `fetch`. -/
def disassembleChecked (fd : Bfd) (ite : Symbol × List Symbol) (blocks : Blocks) :
    Option (Emitted Blocks Instruction Text) :=
  if ite.1.hasFlags bsfFunction = true then
    fetchWindowChecked fd (ite.1, symSize ite.1 ite.2) blocks
  else some ⟨blocks, [], none⟩

/-- `runDisassembler`, with the `int`s of `fetch`. -/
def ExecutableFile.runChecked (f : ExecutableFile) :
    Option (Emitted ExecutableFile Instruction Text) :=
  let f' := f.getSymbolTable
  (emitDefined (disassembleChecked f'.fd) (iterators f'.symbolBuffer) f'.basicBlockBuffer).map
    fun r => ⟨{ f' with basicBlockBuffer := r.state }, r.out, r.raised⟩

/-- No offset overflows in a window. -/
def WindowFits (fd : Bfd) (w : Symbol × Vma) : Prop :=
  ∀ dis ∈ fd.disassembler, NoOverflow (windowYields fd dis w)

instance (fd : Bfd) (w : Symbol × Vma) : Decidable (WindowFits fd w) :=
  inferInstanceAs (Decidable (∀ dis ∈ fd.disassembler, _))

/-- No offset overflows in the windows a run comes to. -/
def ExecutableFile.Fits (f : ExecutableFile) : Prop := ∀ v ∈ f.decodes, WindowFits f.fd v.input

instance (f : ExecutableFile) : Decidable f.Fits :=
  inferInstanceAs (Decidable (∀ v ∈ f.decodes, _))

theorem windowFits_iff {fd : Bfd} {dis : Disassembler} (hfd : fd.disassembler = some dis)
    {w : Symbol × Vma} : WindowFits fd w ↔ NoOverflow (windowYields fd dis w) := by
  simp [WindowFits, hfd]

theorem fetchWindowChecked_eq (fd : Bfd) (w : Symbol × Vma) (blocks : Blocks) :
    fetchWindowChecked fd w blocks =
      if WindowFits fd w then some (fetchWindow fd w blocks) else none := by
  rw [fetchWindowChecked, fetchWindow]
  cases hfd : fd.disassembler with
  | none => exact (if_pos fun dis hdis => by rw [hfd] at hdis; cases hdis).symm
  | some dis =>
      rw [fetchChecked_eq]
      exact if_congr (windowFits_iff hfd).symm rfl rfl

theorem emitDefined_disassembleChecked (fd : Bfd) (table : List Symbol) (blocks : Blocks) :
    emitDefined (disassembleChecked fd) (iterators table) blocks =
      emitDefined (fetchWindowChecked fd) (windows table) blocks := by
  refine emitDefined_filterMap (fun ite s h => ?_) (fun ite w s h => ?_) _ _
  · exact if_neg (hasFlags_of_window_none h)
  · obtain ⟨hf, rfl⟩ := window_eq_some h
    exact if_pos hf

/-- A run has a result unless an offset overflows. -/
theorem ExecutableFile.runChecked_eq (f : ExecutableFile) :
    f.runChecked = if f.Fits then some f.runDisassembler else none := by
  have hloop := emitDefined_eq (fetchWindowChecked_eq f.fd) (windows (symbolTable f.fd.symbols))
    f.basicBlockBuffer
  rw [← emitDefined_disassembleChecked, ← emitAll_disassembleSymbol] at hloop
  rw [runChecked, runDisassembler]
  simp only [fd_getSymbolTable, symbolBuffer_getSymbolTable, basicBlockBuffer_getSymbolTable]
  rw [hloop]
  exact apply_ite (Option.map _) _ _ _

theorem ExecutableFile.runChecked_eq_some {f : ExecutableFile}
    {r : Emitted ExecutableFile Instruction Text} (h : f.runChecked = some r) :
    f.Fits ∧ r = f.runDisassembler := by
  rw [runChecked_eq] at h
  split at h
  next hfits => exact ⟨hfits, (Option.some.inj h).symm⟩
  next => cases h

end Befa
