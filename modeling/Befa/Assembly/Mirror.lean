import Befa.Assembly.BufferInvariant

/-!
# A file with values in place of pointers

`Befa.ExecutableFile` keeps symbols, sections and blocks as values.  A file with pointers is the
same once the pointers are followed: a symbol has its section (`Symbol.erase`), and a block its
symbol.  The symbols it lists are the symbol table (`erase_symbolBuffer`).

`Mirrors` relates what two files have emitted.  One run of the disassembler keeps it
(`runDisassembler_mirrored`), so a file after any calls mirrors one that only runs the disassembler,
as often (`new_calls_mirrored`).
-/

namespace Befa.Shared

/-! ## Symbols -/

/-- The symbol with its section in place of the pointer to it. -/
def Symbol.erase (s : Symbol) : Befa.Symbol := s.value s.origin.record.sect

@[simp] theorem Symbol.erase_addAlias (r : SymRef) (s : Symbol) :
    (s.addAlias r).erase = s.erase.addAlias r.record := by
  simp [Symbol.erase, Symbol.value, Symbol.addAlias, Befa.Symbol.addAlias]

theorem map_erase_addToExisting (sym : SymRef) (ss : List Symbol) :
    (addToExisting sym ss).map (List.map Symbol.erase) =
      Befa.addToExisting sym.record (ss.map Symbol.erase) := by
  rw [addToExisting_eq]
  exact map_updateFirst (fun _ => rfl) (Symbol.erase_addAlias sym)

theorem map_erase_mergeSymbol (b : Buffers) (sym : SymRef) :
    (mergeSymbol b sym).symbolBuffer.map Symbol.erase =
      (Befa.mergeSymbol ⟨b.symbolBuffer.map Symbol.erase, []⟩ sym.record).symbolBuffer := by
  rw [mergeSymbol_symbolBuffer, ← map_erase_addToExisting, mergeSymbol]
  cases addToExisting sym b.symbolBuffer with
  | some ss => rfl
  | none =>
      cases b.sectionBuffer.find? (fun sec => sec.origin = sym.record.sect) with
      | some sec => exact List.map_append
      | none => exact List.map_append

/-- The loops of `getSymbolTable` merge the same symbols. -/
theorem map_erase_mergeSymbols (syms : List SymRef) {b : Buffers} {c : Befa.Buffers}
    (h : b.symbolBuffer.map Symbol.erase = c.symbolBuffer) :
    (mergeSymbols syms b).symbolBuffer.map Symbol.erase =
      (Befa.mergeSymbols (syms.map (·.record)) c).symbolBuffer := by
  induction syms generalizing b c with
  | nil => exact h
  | cons sym syms ih =>
      refine ih ?_
      rw [map_erase_mergeSymbol, mergeSymbol_symbolBuffer, mergeSymbol_symbolBuffer, h]

theorem map_erase_sortSymbols (ss : List Symbol) :
    (sortSymbols ss).map Symbol.erase = Befa.sortSymbols (ss.map Symbol.erase) :=
  List.map_insertionSort _ _ _ _ fun _ _ _ _ => Iff.rfl

/-- The symbols of a file are listed as the symbol table, if they are. -/
def Tabled (source : Source) (w : State) : Prop :=
  w.live.symbolBuffer ≠ [] →
    w.live.symbolBuffer.map Symbol.erase = symbolTable source.bfd.symbols

/-- The symbols that `getSymbolTable` lists are the symbol table. -/
theorem erase_symbolBuffer {source : Source} {w : State} (h : Running source w)
    (ht : Tabled source w) :
    w.getSymbolTable.live.symbolBuffer.map Symbol.erase = symbolTable source.bfd.symbols := by
  unfold State.getSymbolTable
  split
  · obtain ⟨-, htable⟩ := fetchSymbolTable_opened h.opened
    rw [map_erase_sortSymbols, symbolTable,
      map_erase_mergeSymbols w.fetchSymbolTable.live.symbolTable (c := ⟨[], []⟩) rfl, htable]
  next hne => exact ht fun he => hne (by rw [he]; rfl)

/-! ## Blocks and instructions -/

/-- A block points at the symbol that the other one has. -/
def SameBlock (ss : List Symbol) (bb : BasicBlock) (bb' : Befa.BasicBlock) : Prop :=
  bb.id = bb'.id ∧ ∃ s ∈ ss, s.ptr = bb.parent ∧ s.erase = bb'.parent

/-- An instruction points at the block that the other one has. -/
structure SameInstruction (bs : List BasicBlock) (bs' : List Befa.BasicBlock) (i : Instruction)
    (i' : Befa.Instruction) : Prop where
  bytes : i.bytes = i'.bytes
  decoded : i.decoded = i'.decoded
  address : i.address = i'.address
  block : ∃ bb, bs[i'.parent.ptr]? = some bb ∧ bb.ptr = i.parent ∧
    bs'[i'.parent.ptr]? = some i'.parent

/-- Two files have made the same blocks and emitted the same instructions. -/
structure Mirrors (ss : List Symbol) (out : List Instruction) (out' : List Befa.Instruction)
    (b : BlockState) (blocks : Blocks) : Prop where
  made : List.Forall₂ (SameBlock ss) b.2 blocks.items
  emitted : List.Forall₂ (SameInstruction b.2 blocks.items) out out'

namespace Mirrors

variable {ss : List Symbol} {out : List Instruction} {out' : List Befa.Instruction}
  {b : BlockState} {blocks : Blocks}

theorem nil (n : Ptr) : Mirrors ss [] [] (n, []) .nil := ⟨.nil, .nil⟩

theorem addBlock (h : Mirrors ss out out' b blocks) {s : Symbol} (hs : s ∈ ss) (id : Vma) :
    Mirrors ss out out' (b.1 + 1, b.2 ++ [⟨b.1, id, s.ptr⟩]) (blocks.add id s.erase) := by
  refine ⟨List.rel_append h.made (.cons ⟨rfl, s, hs, rfl, rfl⟩ .nil), ?_⟩
  refine h.emitted.imp fun i i' hi => ⟨hi.bytes, hi.decoded, hi.address, ?_⟩
  obtain ⟨bb, hbb, hp, hbb'⟩ := hi.block
  have hlt := (List.getElem?_eq_some_iff.mp hbb).1
  have hlt' := (List.getElem?_eq_some_iff.mp hbb').1
  exact ⟨bb, (List.getElem?_append_left hlt).trans hbb, hp,
    (List.getElem?_append_left hlt').trans hbb'⟩

theorem emit (h : Mirrors ss out out' b blocks) {bb : BasicBlock} {bb' : Befa.BasicBlock}
    (hbb : b.2.getLast? = some bb) (hbb' : blocks.back = some bb') (instr : Loaded) :
    Mirrors ss (out ++ [⟨instr.bytes, bb.ptr, instr.decoded, instr.address⟩])
      (out' ++ [⟨instr.bytes, bb', instr.decoded, instr.address⟩]) b blocks := by
  refine ⟨h.made, List.rel_append h.emitted (.cons ⟨rfl, rfl, rfl, bb, ?_, rfl, ?_⟩ .nil)⟩
  all_goals
    rw [Blocks.back, List.getLast?_eq_getElem?] at hbb'
    obtain ⟨hlt, hget⟩ := List.getElem?_eq_some_iff.mp hbb'
    have hptr : bb'.ptr = blocks.items.length - 1 := by rw [← hget, blocks.numbered _ hlt]
  · rw [hptr, ← h.made.length_eq, ← List.getLast?_eq_getElem?]
    exact hbb
  · rw [hptr]
    exact hbb'

/-- Both have a last block, or none. -/
theorem back_cases (h : Mirrors ss out out' b blocks) :
    (b.2.getLast? = none ∧ blocks.back = none) ∨
      ∃ bb bb', b.2.getLast? = some bb ∧ blocks.back = some bb' := by
  have hlen := h.made.length_eq
  cases hb : b.2.getLast? with
  | none =>
      rw [List.getLast?_eq_none_iff] at hb
      refine Or.inl ⟨rfl, Blocks.back_eq_none.mpr (List.length_eq_zero_iff.mp ?_)⟩
      rw [← hlen, hb, List.length_nil]
  | some bb =>
      cases hb' : blocks.back with
      | none =>
          rw [Blocks.back_eq_none.mp hb', List.length_nil] at hlen
          rw [List.length_eq_zero_iff.mp hlen] at hb
          cases hb
      | some bb' => exact Or.inr ⟨bb, bb', rfl, rfl⟩

end Mirrors

section Loops

variable {ss : List Symbol} {s : Symbol} {out : List Instruction} {out' : List Befa.Instruction}

theorem openBlock_mirrors (hs : s ∈ ss) (address : Vma) {t : EmitState} {t' : Befa.EmitState}
    (hc : t.cursor = t'.cursor) (h : Mirrors ss out out' t.made t'.blocks) :
    (openBlock s.ptr address t).cursor = (Befa.openBlock s.erase address t').cursor ∧
      Mirrors ss out out' (openBlock s.ptr address t).made
        (Befa.openBlock s.erase address t').blocks := by
  rw [openBlock, Befa.openBlock, ← hc]
  cases hcur : t.cursor with
  | nil => exact ⟨hc, h⟩
  | cons bba rest =>
      dsimp only
      split
      · exact ⟨rfl, h.addBlock hs bba⟩
      · exact ⟨hc, h⟩

theorem emitInstr_mirrors (hs : s ∈ ss) (instr : Loaded) {t : EmitState} {t' : Befa.EmitState}
    (hc : t.cursor = t'.cursor) (h : Mirrors ss out out' t.made t'.blocks) :
    (emitInstr s.ptr instr t).raised = (Befa.emitInstr s.erase instr t').raised ∧
      (emitInstr s.ptr instr t).state.cursor = (Befa.emitInstr s.erase instr t').state.cursor ∧
      Mirrors ss (out ++ (emitInstr s.ptr instr t).out)
        (out' ++ (Befa.emitInstr s.erase instr t').out) (emitInstr s.ptr instr t).state.made
        (Befa.emitInstr s.erase instr t').state.blocks := by
  obtain ⟨hcur, ho⟩ := openBlock_mirrors hs instr.address hc h
  simp only [emitInstr, Befa.emitInstr]
  rcases ho.back_cases with ⟨hb, hb'⟩ | ⟨bb, bb', hb, hb'⟩
  · rw [show (openBlock s.ptr instr.address t).blocks.getLast? = none from hb, hb']
    exact ⟨rfl, hcur, by simpa using ho⟩
  · rw [show (openBlock s.ptr instr.address t).blocks.getLast? = some bb from hb, hb']
    exact ⟨rfl, hcur, ho.emit hb hb' instr⟩

theorem emitInstrs_mirrors (hs : s ∈ ss) (c : Collected) {b : BlockState} {blocks : Blocks}
    (h : Mirrors ss out out' b blocks) :
    (emitInstrs s.ptr c b).raised = (Befa.emitInstrs s.erase c blocks).raised ∧
      Mirrors ss (out ++ (emitInstrs s.ptr c b).out)
        (out' ++ (Befa.emitInstrs s.erase c blocks).out) (emitInstrs s.ptr c b).state
        (Befa.emitInstrs s.erase c blocks).state := by
  have hrun := emitAll_simulates (f := id)
    (R := fun o p (t : EmitState) (t' : Befa.EmitState) =>
      t.cursor = t'.cursor ∧ Mirrors ss o p t.made t'.blocks) c.instructions
    (fun instr _ _ _ _ _ ht => emitInstr_mirrors hs instr ht.1 ht.2)
    (s := ⟨c.boundaries.items, b.1, b.2⟩) (t := ⟨c.boundaries.items, blocks⟩) ⟨rfl, h⟩
  rw [List.map_id] at hrun
  exact ⟨hrun.1, hrun.2.2⟩

end Loops

/-! ## Runs of the disassembler -/

/-- The symbol that an iterator points at, and those behind it. -/
def eraseIterator (ite : Symbol × List Symbol) : Befa.Symbol × List Befa.Symbol :=
  (ite.1.erase, ite.2.map Symbol.erase)

theorem map_eraseIterator (ss : List Symbol) :
    (iterators ss).map eraseIterator = iterators (ss.map Symbol.erase) := by
  induction ss with
  | nil => rfl
  | cons s ss ih => rw [iterators, List.map_cons, ih, List.map_cons, iterators, eraseIterator]

section Disassemble

variable {f : ExecutableFile} {n : Ptr} {ite : Symbol × List Symbol}

/-- The section of a symbol is locked, so the round is that of the symbol without pointers. -/
theorem disassembleSymbol_eq (hf : Held ⟨n, f.symbolBuffer, f.sectionBuffer⟩)
    (hs : ite.1 ∈ f.symbolBuffer) (b : BlockState) : disassembleSymbol f ite b =
      if (eraseIterator ite).1.hasFlags bsfFunction = true then
        fetch f.fd.bfd.disassembler ite.1.ptr ite.1.getAddress
          (sectionInfo f.fd.bfd (eraseIterator ite).1.parent)
          (symSize (eraseIterator ite).1 (eraseIterator ite).2) b
      else ⟨b, [], none⟩ := by
  obtain ⟨sec, hsec, hp, ho⟩ := hf.parents ite.1 hs
  have hlock : f.sectionBuffer.find? (fun t => t.ptr = ite.1.parent) = some sec :=
    hf.sections.find?_eq hsec hp
  simp only [disassembleSymbol, hlock, ho]
  rfl

theorem disassembleSymbol_mirrors (hf : Held ⟨n, f.symbolBuffer, f.sectionBuffer⟩)
    (hs : ite.1 ∈ f.symbolBuffer) {out : List Instruction} {out' : List Befa.Instruction}
    {b : BlockState} {blocks : Blocks} (h : Mirrors f.symbolBuffer out out' b blocks) :
    let r := disassembleSymbol f ite b
    let r' := Befa.disassembleSymbol f.fd.bfd (eraseIterator ite) blocks
    r.raised = r'.raised ∧
      Mirrors f.symbolBuffer (out ++ r.out) (out' ++ r'.out) r.state r'.state := by
  have hskip : Mirrors f.symbolBuffer (out ++ []) (out' ++ []) b blocks := by simpa using h
  rw [disassembleSymbol_eq hf hs, Befa.disassembleSymbol]
  rcases Classical.em ((eraseIterator ite).1.hasFlags bsfFunction = true) with hflag | hflag
  · rw [if_pos hflag, if_pos hflag, fetchWindow]
    unfold fetch Befa.fetch
    cases f.fd.bfd.disassembler with
    | none => exact ⟨rfl, hskip⟩
    | some dis => exact emitInstrs_mirrors hs _ h
  · rw [if_neg hflag, if_neg hflag]
    exact ⟨rfl, hskip⟩

end Disassemble

/-- A file that only runs the disassembler, and what it emitted. -/
abbrev Rerun := Befa.ExecutableFile × List Befa.Instruction

/-- One run more. -/
def Rerun.again (m : Rerun) : Rerun :=
  (m.1.runDisassembler.state, m.2 ++ m.1.runDisassembler.out)

/-- A file mirrors one that only runs the disassembler. -/
structure Mirrored (source : Source) (w : State) (m : Rerun) : Prop where
  running : Running source w
  tabled : Tabled source w
  fd : m.1.fd = source.bfd
  mirrors : Mirrors w.live.symbolBuffer w.emitted m.2 (w.next, w.live.basicBlockBuffer)
    m.1.basicBlockBuffer

theorem new_mirrored (source : Source) :
    Mirrored source (State.new source) (.new source.bfd, []) :=
  ⟨new_running source, fun h => absurd rfl h, rfl, .nil _⟩

theorem getSymbolTable_made (w : State) : w.getSymbolTable.emitted = w.emitted ∧
    w.getSymbolTable.live.basicBlockBuffer = w.live.basicBlockBuffer := by
  unfold State.getSymbolTable
  split
  · exact ⟨fetchSymbolTable_emitted w, fetchSymbolTable_basicBlockBuffer w⟩
  · exact ⟨rfl, rfl⟩

section Calls

variable {sort : SectionSort} {source : Source} {w : State} {m : Rerun}

theorem getSymbolTable_mirrored (h : Mirrored source w m) :
    Mirrored source w.getSymbolTable m := by
  have hrun := call_running .insertion h.running .getSymbolTable
  refine ⟨hrun, fun _ => erase_symbolBuffer h.running h.tabled, h.fd, ?_⟩
  rcases Classical.em (w.live.symbolBuffer = []) with hs | hs
  · -- nothing is made yet
    obtain ⟨hb, hi⟩ := h.running.sound.eq_nil hs
    obtain ⟨hi', hb'⟩ := getSymbolTable_made w
    have hm := h.mirrors
    rw [hb, hi] at hm
    rw [hi', hb', hb, hi]
    refine ⟨?_, ?_⟩
    · rw [List.forall₂_nil_left_iff.mp hm.made]
      exact .nil
    · rw [List.forall₂_nil_left_iff.mp hm.emitted]
      exact .nil
  · rw [State.getSymbolTable, if_neg fun he => hs (List.isEmpty_iff.mp he)]
    exact h.mirrors

theorem getSections_mirrored (h : Mirrored source w m) :
    Mirrored source (w.getSections sort) m := by
  refine ⟨call_running sort h.running .getSections, ?_, h.fd, ?_⟩
  all_goals
    unfold State.getSections
    rw [fetchSections_eq]
  · exact h.tabled
  · exact ⟨h.mirrors.made, h.mirrors.emitted⟩

/-- A run of the disassembler raises when the other one does, and makes the same. -/
theorem runDisassembler_mirrored (h : Mirrored source w m) :
    w.runDisassembler.2 = m.1.runDisassembler.raised ∧
      Mirrored source w.runDisassembler.1 m.again := by
  have hw := getSymbolTable_mirrored h
  have htable := erase_symbolBuffer h.running h.tabled
  have hfd : w.getSymbolTable.live.fd.bfd = m.1.fd := by rw [hw.running.opened.fd, h.fd]
  have hrun := emitAll_simulates (f := eraseIterator)
    (R := fun o p b c => Mirrors w.getSymbolTable.live.symbolBuffer o p b c)
    (iterators w.getSymbolTable.live.symbolBuffer)
    (fun ite hite o p b c hm => disassembleSymbol_mirrors hw.running.sound.held
      (iterators_fst w.getSymbolTable.live.symbolBuffer ▸ List.mem_map_of_mem hite) hm)
    hw.mirrors
  rw [map_eraseIterator, htable, hfd, ← h.fd, emitAll_disassembleSymbol] at hrun
  obtain ⟨hout, hraised, hstate⟩ := m.1.runDisassembler_eq
  refine ⟨hrun.1.trans hraised.symm, call_running .insertion h.running .runDisassembler,
    hw.tabled, ?_, ?_⟩
  · exact (Befa.ExecutableFile.fd_getSymbolTable m.1).trans h.fd
  · rw [Rerun.again, hout, hstate]
    exact hrun.2

theorem call_mirrored (sort : SectionSort) (h : Mirrored source w m) (c : Call) :
    Mirrored source (w.call sort c) (if c = .runDisassembler then m.again else m) := by
  cases c with
  | getSymbolTable => exact getSymbolTable_mirrored h
  | getSections => exact getSections_mirrored h
  | generateTable => exact getSymbolTable_mirrored h
  | runDisassembler => exact (runDisassembler_mirrored h).2

theorem calls_mirrored (cs : List Call) (h : Mirrored source w m) :
    Mirrored source (w.calls sort cs) (Rerun.again^[cs.count .runDisassembler] m) := by
  induction cs generalizing w m with
  | nil => exact h
  | cons c cs ih =>
      have hrest := ih (call_mirrored sort h c)
      cases c with
      | runDisassembler => rwa [List.count_cons_self, Function.iterate_succ_apply]
      | getSymbolTable => exact hrest
      | getSections => exact hrest
      | generateTable => exact hrest

/-- After any calls, a file has made the blocks and emitted the instructions of one that only runs
the disassembler, as often. -/
theorem new_calls_mirrored (cs : List Call) :
    Mirrored source ((State.new source).calls sort cs)
      (Rerun.again^[cs.count .runDisassembler] (.new source.bfd, [])) :=
  calls_mirrored cs (new_mirrored source)

end Calls

end Befa.Shared
