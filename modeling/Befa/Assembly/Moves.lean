import Befa.Assembly.BufferInvariant

/-!
# Moving a file

The move constructor and the move assignment of `disassembler_impl` move `sections`, `symbol_table`
and `synthetic_symbol_table` from the new object itself, which leaves them empty, and those of
`ExecutableFile` leave `basic_block_buffer` out.  What the old object holds of these goes with it.

`Resolvable` is what the references need: an emitted instruction reaches its block, the symbol and
the section through `ptr_lock`, and the records of the symbols lie in the tables.  A move of a file
that lists symbols breaks it (`movesEarly_of_resolvable`), and a move before that keeps it.
-/

namespace Befa.Shared

/-! ## The moves -/

/-- `ExecutableFile(ExecutableFile &&)`, as the new object. -/
def ExecutableFile.moveConstruct (rhs : ExecutableFile) : ExecutableFile where
  fd := rhs.fd
  -- `sections(std::move(sections))` and so on: the caches of `rhs` are not read
  sections := []
  symbolTable := []
  syntheticSymbolTable := none
  sectionBuffer := rhs.sectionBuffer
  symbolBuffer := rhs.symbolBuffer
  -- not in the list of initializers
  basicBlockBuffer := []
  sectionsSorted := rhs.sectionsSorted

/-- `operator=(ExecutableFile &&)`, as what it leaves in `lhs`. -/
def ExecutableFile.moveAssign (lhs rhs : ExecutableFile) : ExecutableFile where
  fd := rhs.fd
  sections := []
  symbolTable := []
  syntheticSymbolTable := none
  sectionBuffer := rhs.sectionBuffer
  symbolBuffer := rhs.symbolBuffer
  basicBlockBuffer := lhs.basicBlockBuffer
  sectionsSorted := rhs.sectionsSorted

/-- What happens to a file. -/
inductive Op where
  | call (c : Call)
  | moveConstruct
  /-- The file is moved into another one. -/
  | moveAssign (lhs : ExecutableFile)

/-- What an operation leaves.  The object that was moved from is destroyed. -/
def State.op (sort : SectionSort) (w : State) : Op → State
  | .call c => w.call sort c
  | .moveConstruct => { w with live := w.live.moveConstruct }
  | .moveAssign lhs => { w with live := lhs.moveAssign w.live }

/-- The states of a run. -/
def State.visited (sort : SectionSort) : State → List Op → List State
  | w, [] => [w]
  | w, o :: ops => w :: State.visited sort (w.op sort o) ops

/-! ## References -/

namespace ExecutableFile

/-- The block of an instruction, its symbol and its section, if no `ptr_lock` raises. -/
def lock (f : ExecutableFile) (i : Instruction) : Option (BasicBlock × Symbol × Section) :=
  (f.basicBlockBuffer.find? fun bb => bb.ptr = i.parent).bind fun bb =>
    (f.symbolBuffer.find? fun s => s.ptr = bb.parent).bind fun s =>
      (f.sectionBuffer.find? fun sec => sec.ptr = s.parent).map fun sec => (bb, s, sec)

/-- The symbol table lists the record, and a synthetic record lies in the table of the file. -/
def Stores (f : ExecutableFile) (r : SymRef) : Prop :=
  r ∈ f.symbolTable ∧ ∀ t, r.table = some t → f.syntheticSymbolTable = some t

end ExecutableFile

/-- No reference dangles. -/
structure Resolvable (w : State) : Prop where
  instructions : ∀ i ∈ w.emitted, (w.live.lock i).isSome = true
  records : ∀ s ∈ w.live.symbolBuffer, ∀ r ∈ s.records, w.live.Stores r

/-- The references of a sound file resolve. -/
theorem Sound.resolvable {w : State} (h : Sound w) : Resolvable w := by
  refine ⟨fun i hi => ?_, fun s hs r hr => ?_⟩
  · obtain ⟨bb, hbb, hi⟩ := h.tied.carried i hi
    obtain ⟨s, hs, hp⟩ := h.tied.owners bb hbb
    obtain ⟨sec, hsec, hparent, -⟩ := h.held.parents s hs
    have hblock := h.tied.blocks.find?_eq hbb hi
    have hsymbol := h.held.symbols.find?_eq hs hp
    have hsection := h.held.sections.find?_eq hsec hparent
    simp only [State.buffers] at hsymbol hsection
    simp [ExecutableFile.lock, hblock, hsymbol, hsection]
  · have hm := (h.listed (List.ne_nil_of_mem hs)).1
    rw [hm.members s hs] at hr
    have hr := List.mem_of_mem_filter hr
    exact ⟨hr, h.stored r hr⟩

/-! ## Runs -/

/-- An operation that breaks no reference.  Files are moved before symbols are listed, and not into
a file that has blocks. -/
def Op.Safe (w : State) : Op → Prop
  | .call _ => True
  | .moveConstruct => w.live.symbolBuffer = []
  | .moveAssign lhs => w.live.symbolBuffer = [] ∧ lhs.basicBlockBuffer = []

/-- A move is a move of a file that lists no symbols. -/
def Op.MovesEarly (w : State) (o : Op) : Prop :=
  (∃ c, o = .call c) ∨ w.live.symbolBuffer = []

/-- Every operation of a run has a property in the state it starts from. -/
def EachOp (P : State → Op → Prop) (sort : SectionSort) : State → List Op → Prop
  | _, [] => True
  | w, o :: ops => P w o ∧ EachOp P sort (w.op sort o) ops

/-- A file without symbols stays sound when the caches are emptied. -/
theorem Sound.emptied {w : State} (h : Sound w) (he : w.live.symbolBuffer = []) :
    Sound { w with live := w.live.moveConstruct } where
  held := h.held
  listed hne := absurd he hne
  stored := by simp [ExecutableFile.moveConstruct]
  tied := by
    obtain ⟨hb, hi⟩ := h.eq_nil he
    have ht := h.tied
    rwa [hb] at ht

theorem op_sound (sort : SectionSort) {w : State} (h : Sound w) {o : Op} (ho : o.Safe w) :
    Sound (w.op sort o) := by
  cases o with
  | call c => exact call_sound sort h c
  | moveConstruct => exact h.emptied ho
  | moveAssign lhs =>
      have hmove : lhs.moveAssign w.live = w.live.moveConstruct := by
        rw [ExecutableFile.moveAssign, ho.2, ExecutableFile.moveConstruct]
      have hw := h.emptied ho.1
      rwa [← hmove] at hw

theorem mem_visited (sort : SectionSort) (w : State) (ops : List Op) : w ∈ w.visited sort ops := by
  cases ops with
  | nil => exact List.mem_singleton_self _
  | cons o ops => exact List.mem_cons_self ..

theorem visited_sound (sort : SectionSort) {ops : List Op} {w : State} (h : Sound w)
    (hs : EachOp (fun w o => o.Safe w) sort w ops) : ∀ v ∈ w.visited sort ops, Sound v := by
  induction ops generalizing w with
  | nil =>
      intro v hv
      rw [List.mem_singleton.mp hv]
      exact h
  | cons o ops ih =>
      intro v hv
      rcases List.mem_cons.mp hv with rfl | hv
      · exact h
      · exact ih (op_sound sort h hs.1) hs.2 v hv

/-- The records of a symbol are not in an empty table. -/
theorem symbolBuffer_of_resolvable {w : State} (h : Resolvable w)
    (ht : w.live.symbolTable = []) : w.live.symbolBuffer = [] := by
  refine List.eq_nil_iff_forall_not_mem.mpr fun s hs => ?_
  have hr := (h.records s hs s.origin (List.mem_cons_self ..)).1
  rw [ht] at hr
  cases hr

/-- A move of a file that lists symbols loses what they refer to. -/
theorem movesEarly_of_resolvable (sort : SectionSort) {w : State} {o : Op}
    (h : Resolvable (w.op sort o)) : o.MovesEarly w := by
  cases o with
  | call c => exact Or.inl ⟨c, rfl⟩
  | moveConstruct =>
      have hs := symbolBuffer_of_resolvable h rfl
      exact Or.inr hs
  | moveAssign lhs =>
      have hs := symbolBuffer_of_resolvable h rfl
      exact Or.inr hs

theorem movesEarly_of_visited (sort : SectionSort) {ops : List Op} {w : State}
    (h : ∀ v ∈ w.visited sort ops, Resolvable v) :
    EachOp (fun w o => o.MovesEarly w) sort w ops := by
  induction ops generalizing w with
  | nil => trivial
  | cons o ops ih =>
      have hrest : ∀ v ∈ (w.op sort o).visited sort ops, Resolvable v :=
        fun v hv => h v (List.mem_cons_of_mem _ hv)
      exact ⟨movesEarly_of_resolvable sort (hrest _ (mem_visited ..)), ih hrest⟩

/-- The references of a file resolve in every state of a run whose moves are safe.  A run where they
do moves the file only before it lists symbols. -/
theorem visited_resolvable (sort : SectionSort) (source : Source) (ops : List Op) :
    (EachOp (fun w o => o.Safe w) sort (State.new source) ops →
      ∀ w ∈ (State.new source).visited sort ops, Resolvable w) ∧
    ((∀ w ∈ (State.new source).visited sort ops, Resolvable w) →
      EachOp (fun w o => o.MovesEarly w) sort (State.new source) ops) :=
  ⟨fun h w hw => (visited_sound sort (new_sound source) h w hw).resolvable,
    movesEarly_of_visited sort⟩

/-! ## A file with one function -/

/-- A file with one function, of one instruction. -/
def nopSource : Source where
  bfd :=
    { symbols := [⟨0, "f".toList, 0, bsfFunction, ⟨1, ".text".toList, 0x1000, 1⟩⟩]
      contents := fun _ _ => 0x90
      disassembler := some fun _ _ => ⟨1, [⟨"%s".toList, "nop".toList⟩]⟩ }
  sections := [⟨1, ".text".toList, 0x1000, 1⟩]
  synthetic := 0

/-- Moved before the run, its references resolve. -/
theorem nopSource_moved_early :
    ∀ w ∈ (State.new nopSource).visited .insertion
      [.moveConstruct, .moveAssign (.new nopSource), .call .runDisassembler, .call .getSections],
      Resolvable w :=
  (visited_resolvable .insertion nopSource _).1 ⟨rfl, ⟨rfl, rfl⟩, trivial, trivial, trivial⟩

/-- Moved behind the run, the instruction has lost its block. -/
theorem nopSource_moved_late :
    ¬∀ w ∈ (State.new nopSource).visited .insertion [.call .runDisassembler, .moveConstruct],
      Resolvable w := by
  intro h
  have hw := h _ (List.mem_cons_of_mem _ (List.mem_cons_of_mem _ (List.mem_singleton_self _)))
  exact absurd hw.instructions (by decide +kernel)

end Befa.Shared
