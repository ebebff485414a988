import Befa.Assembly.Listing
import Befa.Assembly.Mirror
import Befa.Assembly.Moves
import Befa.Assembly.Reruns

/-!
# What a subscriber sees

A subscriber gets an instruction in the middle of a run, and the instruction only points at its
block.  The program follows the pointers to the block, its symbol and the section while the run goes
on.  `State.watch` is a run with the blocks there are when each instruction is delivered, and
`State.listing` is the program that prints what it finds behind the pointers.

`listing_of_run` says that no pointer is followed in vain.  Whatever was called before, and wherever
the file was moved before it listed symbols, the program prints what `Befa.ExecutableFile` prints,
which has no pointers, for a file that was just opened.
-/

namespace Befa

/-- An instruction whose block lies elsewhere. -/
def Instruction.lyingAt (p : Nat) (i : Instruction) : Instruction :=
  { i with parent := { i.parent with ptr := p } }

/-- Where the block lies is not printed. -/
theorem printInstr_lyingAt (functions : SymMap) (p : Nat) (i : Instruction) :
    printInstr functions (i.lyingAt p) = printInstr functions i := by
  funext last
  rfl

theorem printInstr_shift (functions : SymMap) (n : Nat) (i : Instruction) :
    printInstr functions (i.shift n) = printInstr functions i :=
  printInstr_lyingAt functions (n + i.parent.ptr) i

end Befa

namespace Befa.Shared

/-! ## Deliveries -/

/-- An instruction, with the blocks there are when it is delivered. -/
abbrev Delivery := Instruction × List BasicBlock

/-- The second loop of `fetch`, with its deliveries. -/
def watchInstrs (sym : Ptr) (c : Collected) (b : BlockState) : Emitted BlockState Delivery Text :=
  let r := emitAll (fun i s => (emitInstr sym i s).stamp EmitState.blocks) c.instructions
    ⟨c.boundaries.items, b.1, b.2⟩
  ⟨(r.state.next, r.state.blocks), r.out, r.raised⟩

/-- `SymbolDataLoader::fetch`, with its deliveries. -/
def watchFetch (dis : Option Disassembler) (sym : Ptr) (symAddress : Vma) (info : DisassembleInfo)
    (symSize : Vma) (b : BlockState) : Emitted BlockState Delivery Text :=
  match dis with
  | none => ⟨b, [], some "failed to open file descriptor for disassembling".toList⟩
  | some dis => watchInstrs sym (decode dis info symAddress symSize) b

/-- The body of the loop of `runDisassembler`, with its deliveries. -/
def watchSymbol (f : ExecutableFile) (ite : Symbol × List Symbol) (b : BlockState) :
    Emitted BlockState Delivery Text :=
  let sym := ite.1.value ite.1.origin.record.sect
  if sym.hasFlags bsfFunction = true then
    match f.sectionBuffer.find? (fun sec => sec.ptr = ite.1.parent) with
    | none => ⟨b, [], some "cannot lock pointer of type 'N4befa7SectionE'".toList⟩
    | some sec =>
        let rest := ite.2.map fun s => s.value s.origin.record.sect
        watchFetch f.fd.bfd.disassembler ite.1.ptr ite.1.getAddress
          (sectionInfo f.fd.bfd ⟨sec.origin⟩) (symSize (ite.1.value sec.origin) rest) b
  else ⟨b, [], none⟩

/-- `runDisassembler`, with its deliveries. -/
def State.watch (w : State) : Emitted BlockState Delivery Text :=
  let w' := w.getSymbolTable
  emitAll (watchSymbol w'.live) (iterators w'.live.symbolBuffer)
    (w'.next, w'.live.basicBlockBuffer)

theorem mapOut_watchInstrs (sym : Ptr) (c : Collected) (b : BlockState) :
    (watchInstrs sym c b).mapOut Prod.fst = emitInstrs sym c b := by
  have h := emitAll_mapOut Prod.fst
    (fun i s => (emitInstr sym i s).stamp EmitState.blocks) c.instructions
    ⟨c.boundaries.items, b.1, b.2⟩
  simp only [Emitted.mapOut_stamp] at h
  rw [emitInstrs, ← h]
  rfl

theorem mapOut_watchFetch (dis : Option Disassembler) (sym : Ptr) (symAddress : Vma)
    (info : DisassembleInfo) (symSize : Vma) (b : BlockState) :
    (watchFetch dis sym symAddress info symSize b).mapOut Prod.fst =
      fetch dis sym symAddress info symSize b := by
  cases dis with
  | none => rfl
  | some dis => exact mapOut_watchInstrs sym _ b

theorem mapOut_watchSymbol (f : ExecutableFile) (ite : Symbol × List Symbol) (b : BlockState) :
    (watchSymbol f ite b).mapOut Prod.fst = disassembleSymbol f ite b := by
  simp only [watchSymbol, disassembleSymbol]
  split
  · cases f.sectionBuffer.find? (fun sec => sec.ptr = ite.1.parent) with
    | none => rfl
    | some sec => exact mapOut_watchFetch ..
  · rfl

/-- The deliveries of a run are those of `runDisassembler`. -/
theorem runDisassembler_watch (w : State) : w.runDisassembler =
    ({ next := w.watch.state.1
       live := { w.getSymbolTable.live with basicBlockBuffer := w.watch.state.2 }
       emitted := w.getSymbolTable.emitted ++ w.watch.out.map Prod.fst }, w.watch.raised) := by
  have h := emitAll_mapOut Prod.fst (watchSymbol w.getSymbolTable.live)
    (iterators w.getSymbolTable.live.symbolBuffer)
    (w.getSymbolTable.next, w.getSymbolTable.live.basicBlockBuffer)
  simp only [mapOut_watchSymbol] at h
  rw [State.runDisassembler]
  simp only [← h]
  rfl

/-! ## Printing -/

/-- A `ptr_lock` of what a pointer leads to. -/
def ptrLock {α : Type} (typeName : Text) : Option α → Except Text α
  | some a => .ok a
  | none => .error ("cannot lock pointer of type '".toList ++ typeName ++ "'".toList)

/-- The instruction of a delivery, with what the pointers lead to at that time. -/
def ExecutableFile.follow (f : ExecutableFile) (d : Delivery) : Except Text Befa.Instruction := do
  let bb ← ptrLock "N4befa10BasicBlockINS_6SymbolINS_7SectionEEEEE".toList
    (d.2.find? fun bb => bb.ptr = d.1.parent)
  let sym ← ptrLock "N4befa6SymbolINS_7SectionEEE".toList
    (f.symbolBuffer.find? fun s => s.ptr = bb.parent)
  let sec ← ptrLock "N4befa7SectionE".toList
    (f.sectionBuffer.find? fun sec => sec.ptr = sym.parent)
  return ⟨d.1.bytes, ⟨bb.ptr, bb.id, sym.value sec.origin⟩, d.1.decoded, d.1.address⟩

/-- Pointers to objects that are there are followed. -/
theorem ExecutableFile.follow_eq {f : ExecutableFile} {d : Delivery} {bb : BasicBlock} {s : Symbol}
    {sec : Section} (hblock : d.2.find? (fun bb => bb.ptr = d.1.parent) = some bb)
    (hsymbol : f.symbolBuffer.find? (fun s => s.ptr = bb.parent) = some s)
    (hsection : f.sectionBuffer.find? (fun sec => sec.ptr = s.parent) = some sec) :
    f.follow d =
      .ok ⟨d.1.bytes, ⟨bb.ptr, bb.id, s.value sec.origin⟩, d.1.decoded, d.1.address⟩ := by
  simp only [follow, ptrLock, hblock, hsymbol, hsection, bind, Except.bind, pure, Except.pure]

/-- The reduction of one instruction. -/
def printInstr (f : ExecutableFile) (functions : SymMap) (d : Delivery) (last : Last) :
    Emitted Last Line Text :=
  match f.follow d with
  | .error reason => ⟨last, [], some reason⟩
  | .ok i => Befa.printInstr functions i last

/-- `generate_table`, as the file it leaves and the map it returns. -/
def State.generateTable (w : State) : State × OrdMap Vma FunctionOf :=
  let w' := w.getSymbolTable
  (w', Keyed.ofList (w'.live.symbolBuffer.map fun s => functionEntry s.erase))

/-- The symbols that operands are looked up in. -/
def State.functions (w : State) : SymMap :=
  Keyed.ofList (w.generateTable.2.items.map fun e => (e.1, e.2.sym))

/-- The lines the program prints for a file. -/
def State.listing (w : State) : Emitted Last Line Text :=
  let w' := w.generateTable.1
  let printed := emitAll (printInstr w'.getSymbolTable.live w.functions) w'.watch.out .start
  { printed with raised := printed.raised.or w'.watch.raised }

/-! ## Following the pointers -/

/-- The pointers of a delivery lead to what the instruction has as values. -/
def Reads (f : ExecutableFile) (d : Delivery) (i : Befa.Instruction) : Prop :=
  f.follow d = .ok (i.lyingAt d.1.parent)

/-- What a run maintains: the blocks are those of a file without pointers, and all that was
delivered could be read. -/
structure Watched (f : ExecutableFile) (o : List Delivery) (p : List Befa.Instruction)
    (b : BlockState) (blocks : Blocks) : Prop where
  grown : Grown f.symbolBuffer 0 [] b
  mirrors : Mirrors f.symbolBuffer [] [] b blocks
  reads : List.Forall₂ (Reads f) o p

section Loops

variable {f : ExecutableFile} {n : Ptr} {o : List Delivery} {p : List Befa.Instruction}

/-- The last blocks of two files that have made the same blocks. -/
theorem Mirrors.last {ss : List Symbol} {out : List Instruction} {out' : List Befa.Instruction}
    {b : BlockState} {blocks : Blocks} (h : Mirrors ss out out' b blocks) {bb : BasicBlock}
    {bb' : Befa.BasicBlock} (hbb : b.2.getLast? = some bb) (hbb' : blocks.back = some bb') :
    SameBlock ss bb bb' := by
  rw [List.getLast?_eq_getElem?] at hbb
  rw [Blocks.back, List.getLast?_eq_getElem?, ← h.made.length_eq] at hbb'
  obtain ⟨hlt, rfl⟩ := List.getElem?_eq_some_iff.mp hbb
  obtain ⟨hlt', rfl⟩ := List.getElem?_eq_some_iff.mp hbb'
  exact h.made.get hlt hlt'

/-- An instruction of the last block can be read. -/
theorem Watched.reads_last (hf : Held ⟨n, f.symbolBuffer, f.sectionBuffer⟩) {b : BlockState}
    {blocks : Blocks} (h : Watched f o p b blocks) {bb : BasicBlock} {bb' : Befa.BasicBlock}
    (hbb : b.2.getLast? = some bb) (hbb' : blocks.back = some bb') (instr : Loaded) :
    Reads f (⟨instr.bytes, bb.ptr, instr.decoded, instr.address⟩, b.2)
      ⟨instr.bytes, bb', instr.decoded, instr.address⟩ := by
  obtain ⟨hid, s, hs, hp, herase⟩ := h.mirrors.last hbb hbb'
  obtain ⟨sec, hsec, hparent, horigin⟩ := hf.parents s hs
  have hblock := h.grown.2.blocks.find?_eq (List.mem_of_getLast? hbb) rfl
  have hsymbol := hf.symbols.find?_eq hs hp
  have hsection := hf.sections.find?_eq hsec hparent
  have hvalue : s.value sec.origin = bb'.parent := by rw [horigin, ← herase, Symbol.erase]
  rw [Reads, ExecutableFile.follow_eq hblock hsymbol hsection, hvalue, hid]
  rfl

theorem watchInstr_watched (hf : Held ⟨n, f.symbolBuffer, f.sectionBuffer⟩) {s : Symbol}
    (hs : s ∈ f.symbolBuffer) (instr : Loaded) {t : EmitState} {t' : Befa.EmitState}
    (hc : t.cursor = t'.cursor) (h : Watched f o p t.made t'.blocks) :
    let r := (emitInstr s.ptr instr t).stamp EmitState.blocks
    let r' := Befa.emitInstr s.erase instr t'
    r.raised = r'.raised ∧ r.state.cursor = r'.state.cursor ∧
      Watched f (o ++ r.out) (p ++ r'.out) r.state.made r'.state.blocks := by
  obtain ⟨hcur, hm⟩ := openBlock_mirrors hs instr.address hc h.mirrors
  have hw : Watched f o p (openBlock s.ptr instr.address t).made
      (Befa.openBlock s.erase instr.address t').blocks :=
    ⟨openBlock_grown hs h.grown instr.address, hm, h.reads⟩
  simp only [emitInstr, Befa.emitInstr]
  rcases hm.back_cases with ⟨hb, hb'⟩ | ⟨bb, bb', hb, hb'⟩
  · rw [show (openBlock s.ptr instr.address t).blocks.getLast? = none from hb, hb']
    exact ⟨rfl, hcur, by simpa [Emitted.stamp, Emitted.mapOut] using hw⟩
  · rw [show (openBlock s.ptr instr.address t).blocks.getLast? = some bb from hb, hb']
    exact ⟨rfl, hcur, hw.grown, hw.mirrors,
      List.rel_append h.reads (.cons (hw.reads_last hf hb hb' instr) .nil)⟩

theorem watchInstrs_watched (hf : Held ⟨n, f.symbolBuffer, f.sectionBuffer⟩) {s : Symbol}
    (hs : s ∈ f.symbolBuffer) (c : Collected) {b : BlockState} {blocks : Blocks}
    (h : Watched f o p b blocks) :
    let r := watchInstrs s.ptr c b
    let r' := Befa.emitInstrs s.erase c blocks
    r.raised = r'.raised ∧ Watched f (o ++ r.out) (p ++ r'.out) r.state r'.state := by
  have hrun := emitAll_simulates (f := id)
    (R := fun o p (t : EmitState) (t' : Befa.EmitState) =>
      t.cursor = t'.cursor ∧ Watched f o p t.made t'.blocks) c.instructions
    (fun instr _ _ _ _ _ ht => watchInstr_watched hf hs instr ht.1 ht.2)
    (s := ⟨c.boundaries.items, b.1, b.2⟩) (t := ⟨c.boundaries.items, blocks⟩) ⟨rfl, h⟩
  rw [List.map_id] at hrun
  exact ⟨hrun.1, hrun.2.2⟩

/-- The section of a symbol is locked, so the round is that of the symbol without pointers. -/
theorem watchSymbol_eq (hf : Held ⟨n, f.symbolBuffer, f.sectionBuffer⟩)
    {ite : Symbol × List Symbol} (hs : ite.1 ∈ f.symbolBuffer) (b : BlockState) :
    watchSymbol f ite b =
      if (eraseIterator ite).1.hasFlags bsfFunction = true then
        watchFetch f.fd.bfd.disassembler ite.1.ptr ite.1.getAddress
          (sectionInfo f.fd.bfd (eraseIterator ite).1.parent)
          (symSize (eraseIterator ite).1 (eraseIterator ite).2) b
      else ⟨b, [], none⟩ := by
  obtain ⟨sec, hsec, hp, ho⟩ := hf.parents ite.1 hs
  have hlock : f.sectionBuffer.find? (fun t => t.ptr = ite.1.parent) = some sec :=
    hf.sections.find?_eq hsec hp
  simp only [watchSymbol, hlock, ho]
  rfl

theorem watchSymbol_watched (hf : Held ⟨n, f.symbolBuffer, f.sectionBuffer⟩)
    {ite : Symbol × List Symbol} (hs : ite.1 ∈ f.symbolBuffer) {b : BlockState} {blocks : Blocks}
    (h : Watched f o p b blocks) :
    let r := watchSymbol f ite b
    let r' := Befa.disassembleSymbol f.fd.bfd (eraseIterator ite) blocks
    r.raised = r'.raised ∧ Watched f (o ++ r.out) (p ++ r'.out) r.state r'.state := by
  have hskip : Watched f (o ++ []) (p ++ []) b blocks := by simpa using h
  rw [watchSymbol_eq hf hs, Befa.disassembleSymbol]
  rcases Classical.em ((eraseIterator ite).1.hasFlags bsfFunction = true) with hflag | hflag
  · rw [if_pos hflag, if_pos hflag, fetchWindow]
    unfold watchFetch Befa.fetch
    cases f.fd.bfd.disassembler with
    | none => exact ⟨rfl, hskip⟩
    | some dis => exact watchInstrs_watched hf hs _ h
  · rw [if_neg hflag, if_neg hflag]
    exact ⟨rfl, hskip⟩

end Loops

/-! ## Runs -/

section Runs

variable {sort : SectionSort} {source : Source} {w : State} {m : Rerun}

/-- A run delivers what a run without pointers emits, and all of it can be read. -/
theorem watch_reads (h : Mirrored source w m) :
    w.watch.raised = m.1.runDisassembler.raised ∧
      List.Forall₂ (Reads w.getSymbolTable.live) w.watch.out m.1.runDisassembler.out := by
  have hw := getSymbolTable_mirrored h
  have hfd : w.getSymbolTable.live.fd.bfd = m.1.fd := by rw [hw.running.opened.fd, h.fd]
  have htied := hw.running.sound.tied
  have hstart : Watched w.getSymbolTable.live [] []
      (w.getSymbolTable.next, w.getSymbolTable.live.basicBlockBuffer) m.1.basicBlockBuffer :=
    ⟨⟨Nat.zero_le _, htied.blocks, htied.owners, by simp⟩, ⟨hw.mirrors.made, .nil⟩, .nil⟩
  have hrun := emitAll_simulates (f := eraseIterator)
    (R := Watched w.getSymbolTable.live)
    (iterators w.getSymbolTable.live.symbolBuffer)
    (fun ite hite o p b c hb => watchSymbol_watched hw.running.sound.held
      (iterators_fst w.getSymbolTable.live.symbolBuffer ▸ List.mem_map_of_mem hite) hb)
    hstart
  rw [map_eraseIterator, erase_symbolBuffer h.running h.tabled, hfd, ← h.fd,
    emitAll_disassembleSymbol] at hrun
  obtain ⟨hout, hraised, -⟩ := m.1.runDisassembler_eq
  rw [hout, hraised]
  exact ⟨hrun.1, hrun.2.reads⟩

/-- A file that is moved before it lists symbols has made nothing that could be lost. -/
theorem emptied_mirrored (h : Mirrored source w m) (he : w.live.symbolBuffer = []) :
    Mirrored source { w with live := w.live.moveConstruct } m := by
  obtain ⟨hb, hi⟩ := h.running.sound.eq_nil he
  have hm := h.mirrors
  rw [hb, hi] at hm
  refine ⟨⟨h.running.sound.emptied he, h.running.opened.fd, Or.inl rfl, Or.inl rfl⟩,
    fun hne => absurd he hne, h.fd, ?_⟩
  show Mirrors w.live.symbolBuffer w.emitted m.2 (w.next, []) m.1.basicBlockBuffer
  rwa [hi]

theorem op_mirrored (h : Mirrored source w m) {o : Op} (ho : o.Safe w) :
    Mirrored source (w.op sort o) m ∨ Mirrored source (w.op sort o) m.again := by
  cases o with
  | call c =>
      have hc := call_mirrored sort h c
      split at hc
      · exact Or.inr hc
      · exact Or.inl hc
  | moveConstruct => exact Or.inl (emptied_mirrored h ho)
  | moveAssign lhs =>
      have hmove : lhs.moveAssign w.live = w.live.moveConstruct := by
        rw [ExecutableFile.moveAssign, ho.2, ExecutableFile.moveConstruct]
      have hw := emptied_mirrored h ho.1
      rw [← hmove] at hw
      exact Or.inl hw

/-- A file that is moved early mirrors one that only runs the disassembler, some times. -/
theorem visited_mirrored {ops : List Op} (h : Mirrored source w m)
    (hs : EachOp (fun w o => o.Safe w) sort w ops) :
    ∀ v ∈ w.visited sort ops, ∃ n, Mirrored source v (Rerun.again^[n] m) := by
  induction ops generalizing w m with
  | nil =>
      intro v hv
      rw [List.mem_singleton.mp hv]
      exact ⟨0, h⟩
  | cons o ops ih =>
      intro v hv
      rcases List.mem_cons.mp hv with rfl | hv
      · exact ⟨0, h⟩
      · rcases op_mirrored h hs.1 with hw | hw
        · exact ih hw hs.2 v hv
        · obtain ⟨n, hn⟩ := ih hw hs.2 v hv
          exact ⟨n + 1, hn⟩

/-- A file that only runs the disassembler. -/
theorem again_iterate (fd : Bfd) (n : Nat) : (Rerun.again^[n] (.new fd, [])).1 =
    (Befa.ExecutableFile.new fd).callAll (List.replicate n .runDisassembler) := by
  induction n with
  | zero => rfl
  | succ n ih =>
      rw [Function.iterate_succ_apply', List.replicate_succ', Befa.ExecutableFile.callAll_concat, ← ih]
      rfl

theorem again_repeats (fd : Bfd) (n : Nat) :
    Befa.ExecutableFile.Repeats (Rerun.again^[n] (.new fd, [])).1 := by
  obtain ⟨hfd, hlen⟩ := Befa.ExecutableFile.length_callAll fd (List.replicate n .runDisassembler)
  rw [again_iterate]
  exact Befa.ExecutableFile.repeats_callAll hfd hlen

/-- The map of `generate_table` is that of a file without pointers. -/
theorem functions_eq (h : Mirrored source w m) :
    w.functions = (Befa.ExecutableFile.new source.bfd).functions := by
  have htable : w.generateTable.2 = (Befa.ExecutableFile.new source.bfd).generateTable.2 := by
    have hmap : w.getSymbolTable.live.symbolBuffer.map (fun s => functionEntry s.erase) =
        (w.getSymbolTable.live.symbolBuffer.map Symbol.erase).map functionEntry := by
      rw [List.map_map]
      rfl
    rw [State.generateTable, hmap, erase_symbolBuffer h.running h.tabled,
      Befa.ExecutableFile.items_generateTable]
    rfl
  rw [State.functions, htable, Befa.ExecutableFile.functions]

/-- What can be read is printed as it is without pointers. -/
theorem emitAll_printInstr_eq (f : ExecutableFile) (functions : SymMap) {o : List Delivery}
    {p : List Befa.Instruction} (h : List.Forall₂ (Reads f) o p) (last : Last) :
    emitAll (printInstr f functions) o last = emitAll (Befa.printInstr functions) p last := by
  refine emitAll_congr (h.imp fun d i hd => ?_) last
  rw [← printInstr_lyingAt functions d.1.parent i]
  funext last
  rw [printInstr, hd]

theorem listing_eq (h : Mirrored source w m) (hrep : Befa.ExecutableFile.Repeats m.1) :
    w.listing = (Befa.ExecutableFile.new source.bfd).listing := by
  obtain ⟨hraised, hreads⟩ := watch_reads (getSymbolTable_mirrored h)
  obtain ⟨hraised', hout', -⟩ := hrep
  rw [h.fd] at hraised' hout'
  have hprint : ∀ last, emitAll (Befa.printInstr w.functions) m.1.runDisassembler.out last =
      emitAll (Befa.printInstr w.functions) (Befa.ExecutableFile.first source.bfd).out last := by
    refine emitAll_congr ?_
    rw [hout', List.forall₂_map_left_iff]
    exact List.forall₂_same.mpr fun i _ => printInstr_shift _ _ i
  obtain ⟨hout, hraised''⟩ :=
    Befa.ExecutableFile.runDisassembler_generateTable (.new source.bfd)
  simp only [State.listing, State.generateTable, Befa.ExecutableFile.listing]
  rw [emitAll_printInstr_eq _ _ hreads, hprint, hraised, hraised', functions_eq h, hout, hraised'']
  rfl

/-- **The program prints what it prints without pointers**, after any calls and early moves. -/
theorem listing_of_run (sort : SectionSort) (source : Source) {ops : List Op}
    (h : EachOp (fun w o => o.Safe w) sort (State.new source) ops) :
    ∀ w ∈ (State.new source).visited sort ops,
      w.listing = (Befa.ExecutableFile.new source.bfd).listing := by
  intro w hw
  obtain ⟨n, hn⟩ := visited_mirrored (new_mirrored source) h w hw
  exact listing_eq hn (again_repeats source.bfd n)

/-- A file with one function, moved and then run twice. -/
theorem listing_of_run_nopSource :
    (((State.new nopSource).op .insertion .moveConstruct).op .insertion
      (.call .runDisassembler)).listing = (Befa.ExecutableFile.new nopSource.bfd).listing := by
  have hs : EachOp (fun w o => o.Safe w) .insertion (State.new nopSource)
      [.moveConstruct, .call .runDisassembler] := ⟨rfl, trivial, trivial⟩
  exact listing_of_run .insertion nopSource hs _
    (List.mem_cons_of_mem _ (List.mem_cons_of_mem _ (List.mem_singleton_self _)))

end Runs

end Befa.Shared
