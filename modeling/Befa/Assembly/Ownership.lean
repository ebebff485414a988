import Befa.Assembly.RunDisassembler
import Befa.Lib.Grouping

/-!
# Who keeps what alive

The buffers of an `ExecutableFile` own the sections, the symbols and the basic blocks, and whatever
points at one of them is a weak pointer.  Here every object lies somewhere (`Ptr`), and a weak
pointer is followed by looking for the object in the buffer of the file that is alive.

A record of BFD lives as long as its `bfd`.  A synthetic record lies in a table that the file holds,
and is gone with it.

`State` is a file that is alive, with the instructions it has emitted so far.  `State.call` is one
call of a member function.
-/

namespace Befa.Shared

/-! ## Objects -/

/-- Where an object lies. -/
abbrev Ptr := Nat

/-- A pointer to a record of BFD. -/
structure SymRef where
  record : Asymbol
  /-- The table of synthetic records it lies in, if it is one. -/
  table : Option Ptr
deriving DecidableEq

/-- The address of a record. -/
def SymRef.getAddress (r : SymRef) : Vma := bfdAsymbolValue r.record

/-- A `befa::Section` of a `shared_ptr`. -/
structure Section where
  ptr : Ptr
  origin : Asection
deriving DecidableEq

/-- A `befa::Symbol` of a `shared_ptr`. -/
structure Symbol where
  ptr : Ptr
  origin : SymRef
  /-- A weak pointer to its section. -/
  parent : Ptr
  aliases : List SymRef
deriving DecidableEq

namespace Symbol

def getAddress (s : Symbol) : Vma := s.origin.getAddress

def addAlias (sym : SymRef) (s : Symbol) : Symbol := { s with aliases := s.aliases ++ [sym] }

/-- The records a symbol refers to. -/
def records (s : Symbol) : List SymRef := s.origin :: s.aliases

/-- The symbol, in a section. -/
def value (s : Symbol) (sec : Asection) : Befa.Symbol :=
  ⟨s.origin.record, ⟨sec⟩, s.aliases.map (·.record)⟩

end Symbol

/-- A `befa::BasicBlock` of a `shared_ptr`. -/
structure BasicBlock where
  ptr : Ptr
  id : Vma
  /-- A weak pointer to its symbol. -/
  parent : Ptr
deriving DecidableEq

/-- A `befa::Instruction`. -/
structure Instruction where
  bytes : ArrayView
  /-- A weak pointer to its basic block. -/
  parent : Ptr
  decoded : Text
  address : Vma
deriving DecidableEq

/-! ## The file -/

/-- What BFD says about an open file. -/
structure Source where
  bfd : Bfd
  /-- What `fetchSections` lists: the common sections, and those of the file. -/
  sections : List Asection
  /-- How many of the symbols are synthetic.  They come last. -/
  synthetic : Nat

/-- `ExecutableFile`, with the fields of `disassembler_impl`. -/
structure ExecutableFile where
  /-- `_fd`. -/
  fd : Source
  /-- `sections`. -/
  sections : List Asection
  /-- `symbol_table`. -/
  symbolTable : List SymRef
  /-- Where the storage of `synthetic_symbol_table` lies. -/
  syntheticSymbolTable : Option Ptr
  /-- `section_buffer`. -/
  sectionBuffer : List Section
  /-- `symbol_buffer`. -/
  symbolBuffer : List Symbol
  /-- `basic_block_buffer`. -/
  basicBlockBuffer : List BasicBlock
  /-- `sections_sorted`. -/
  sectionsSorted : Bool

/-- `ExecutableFile(fd)`. -/
def ExecutableFile.new (fd : Source) : ExecutableFile := ⟨fd, [], [], none, [], [], [], false⟩

/-- A file that is alive, and what it emitted. -/
structure State where
  /-- Where the next object will lie. -/
  next : Ptr
  live : ExecutableFile
  /-- The instructions, the oldest first. -/
  emitted : List Instruction

/-- A file that was just opened. -/
def State.new (fd : Source) : State := ⟨0, .new fd, []⟩

/-! ## Symbols -/

/-- `fetchSymbolTable`, as what it leaves. -/
def State.fetchSymbolTable (w : State) : State :=
  if w.live.symbolTable.isEmpty then
    let symbols := w.live.fd.bfd.symbols
    let count := symbols.length - w.live.fd.synthetic
    { w with
      next := w.next + 1
      live := { w.live with
        symbolTable := (symbols.take count).map (⟨·, none⟩) ++
          (symbols.drop count).map (⟨·, some w.next⟩)
        syntheticSymbolTable := some w.next } }
  else w

/-- The buffers `getSymbolTable` fills, and where the next object will lie. -/
structure Buffers where
  next : Ptr
  symbolBuffer : List Symbol
  sectionBuffer : List Section

/-- `contains_if` over the buffer, and then `addAlias` to what it found. -/
def addToExisting (sym : SymRef) : List Symbol → Option (List Symbol) :=
  updateFirst (fun s => s.getAddress = sym.getAddress) (Symbol.addAlias sym)

/-- One round of the loop of `getSymbolTable`. -/
def mergeSymbol (b : Buffers) (sym : SymRef) : Buffers :=
  match addToExisting sym b.symbolBuffer with
  | some ss => { b with symbolBuffer := ss }
  | none =>
      match b.sectionBuffer.find? (fun sec => sec.origin = sym.record.sect) with
      | some sec =>
          { b with
            next := b.next + 1
            symbolBuffer := b.symbolBuffer ++ [⟨b.next, sym, sec.ptr, []⟩] }
      | none =>
          { next := b.next + 2
            sectionBuffer := b.sectionBuffer ++ [⟨b.next, sym.record.sect⟩]
            symbolBuffer := b.symbolBuffer ++ [⟨b.next + 1, sym, b.next, []⟩] }

/-- The loop of `getSymbolTable`. -/
def mergeSymbols (syms : List SymRef) (b : Buffers) : Buffers := syms.foldl mergeSymbol b

/-- The order `getSymbolTable` sorts by. -/
def sortSymbols (ss : List Symbol) : List Symbol :=
  ss.insertionSort fun s t => s.getAddress ≤ t.getAddress

/-- `getSymbolTable`, as what it leaves.  It returns weak pointers to the symbol buffer. -/
def State.getSymbolTable (w : State) : State :=
  if w.live.symbolBuffer.isEmpty then
    let w' := w.fetchSymbolTable
    let b := mergeSymbols w'.live.symbolTable ⟨w'.next, [], w'.live.sectionBuffer⟩
    { w' with
      next := b.next
      live := { w'.live with
        symbolBuffer := sortSymbols b.symbolBuffer
        sectionBuffer := b.sectionBuffer } }
  else w

/-! ## Sections -/

/-- `fetchSections`, as what it leaves. -/
def ExecutableFile.fetchSections (f : ExecutableFile) : ExecutableFile :=
  if f.sections.isEmpty then { f with sections := f.fd.sections } else f

/-- One round of the loop of `getSections`. -/
def addSection (b : Ptr × List Section) (sec : Asection) : Ptr × List Section :=
  if b.2.any fun s => s.origin = sec then b else (b.1 + 1, b.2 ++ [⟨b.1, sec⟩])

/-- The call of `std::sort` in `getSections`.  It leaves open how sections at one address are
ordered. -/
structure SectionSort where
  run : List Section → List Section
  perm : ∀ l, (run l).Perm l
  sorted : ∀ l, (run l).Pairwise fun s t => t.origin.vma ≤ s.origin.vma

/-- One such sort. -/
def SectionSort.insertion : SectionSort where
  run l := l.insertionSort fun s t => t.origin.vma ≤ s.origin.vma
  perm l := List.perm_insertionSort _ l
  sorted l := by
    have : Std.Total fun s t : Section => t.origin.vma ≤ s.origin.vma :=
      ⟨fun s t => le_total _ _⟩
    have : IsTrans Section fun s t => t.origin.vma ≤ s.origin.vma :=
      ⟨fun _ _ _ hst htu => htu.trans hst⟩
    exact List.pairwise_insertionSort _ l

/-- `getSections`, as what it leaves.  It returns weak pointers to the section buffer. -/
def State.getSections (sort : SectionSort) (w : State) : State :=
  let f := w.live.fetchSections
  let b := f.sections.foldl addSection (w.next, f.sectionBuffer)
  { w with
    next := b.1
    live := { f with
      sectionBuffer := if f.sectionsSorted then b.2 else sort.run b.2
      sectionsSorted := true } }

/-! ## Instructions -/

/-- What the second loop of `fetch` carries. -/
structure EmitState where
  /-- From `bba_begin` to the end. -/
  cursor : List Vma
  next : Ptr
  blocks : List BasicBlock

/-- Open a block of the symbol at `sym` when the instruction is at the cursor. -/
def openBlock (sym : Ptr) (address : Vma) (s : EmitState) : EmitState :=
  match s.cursor with
  | [] => s
  | bba :: rest =>
      if address = bba then ⟨rest, s.next + 1, s.blocks ++ [⟨s.next, bba, sym⟩]⟩ else s

/-- One round of the second loop. -/
def emitInstr (sym : Ptr) (instr : Loaded) (s : EmitState) : Emitted EmitState Instruction Text :=
  let s' := openBlock sym instr.address s
  match s'.blocks.getLast? with
  | none => ⟨s', [], some "basic_block_buffer cannot be empty".toList⟩
  | some bb => ⟨s', [⟨instr.bytes, bb.ptr, instr.decoded, instr.address⟩], none⟩

/-- The blocks, and where the next object will lie. -/
abbrev BlockState := Ptr × List BasicBlock

/-- The second loop of `fetch`. -/
def emitInstrs (sym : Ptr) (c : Collected) (b : BlockState) : Emitted BlockState Instruction Text :=
  let r := emitAll (emitInstr sym) c.instructions ⟨c.boundaries.items, b.1, b.2⟩
  ⟨(r.state.next, r.state.blocks), r.out, r.raised⟩

/-- `SymbolDataLoader::fetch`. -/
def fetch (dis : Option Disassembler) (sym : Ptr) (symAddress : Vma) (info : DisassembleInfo)
    (symSize : Vma) (b : BlockState) : Emitted BlockState Instruction Text :=
  match dis with
  | none => ⟨b, [], some "failed to open file descriptor for disassembling".toList⟩
  | some dis => emitInstrs sym (decode dis info symAddress symSize) b

/-- The body of the loop of `runDisassembler`.  It locks the section of the symbol. -/
def disassembleSymbol (f : ExecutableFile) (ite : Symbol × List Symbol) (b : BlockState) :
    Emitted BlockState Instruction Text :=
  let sym := ite.1.value ite.1.origin.record.sect
  if sym.hasFlags bsfFunction = true then
    match f.sectionBuffer.find? (fun sec => sec.ptr = ite.1.parent) with
    | none => ⟨b, [], some "cannot lock pointer of type 'N4befa7SectionE'".toList⟩
    | some sec =>
        let rest := ite.2.map fun s => s.value s.origin.record.sect
        fetch f.fd.bfd.disassembler ite.1.ptr ite.1.getAddress (sectionInfo f.fd.bfd ⟨sec.origin⟩)
          (symSize (ite.1.value sec.origin) rest) b
  else ⟨b, [], none⟩

/-- `runDisassembler`, as what it leaves, with the reason it raised for. -/
def State.runDisassembler (w : State) : State × Option Text :=
  let w' := w.getSymbolTable
  let r := emitAll (disassembleSymbol w'.live) (iterators w'.live.symbolBuffer)
    (w'.next, w'.live.basicBlockBuffer)
  ({ next := r.state.1
     live := { w'.live with basicBlockBuffer := r.state.2 }
     emitted := w'.emitted ++ r.out }, r.raised)

/-! ## Calls -/

/-- A call of a member function. -/
inductive Call where
  | getSymbolTable | getSections | generateTable | runDisassembler
deriving DecidableEq

/-- What a call leaves.  `generate_table` reads what `getSymbolTable` returns. -/
def State.call (sort : SectionSort) (w : State) : Call → State
  | .getSymbolTable => w.getSymbolTable
  | .getSections => w.getSections sort
  | .generateTable => w.getSymbolTable
  | .runDisassembler => w.runDisassembler.1

/-- What a sequence of calls leaves. -/
def State.calls (sort : SectionSort) (w : State) (cs : List Call) : State :=
  cs.foldl (State.call sort) w

end Befa.Shared
