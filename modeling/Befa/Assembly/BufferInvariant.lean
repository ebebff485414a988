import Befa.Assembly.Ownership
import Befa.Lib.Arena

/-!
# What the buffers of a file hold

`Held` says that the symbols and the sections lie apart from each other, no section twice, and that
every symbol has its section.  `Tied` says that the blocks belong to symbols and the emitted
instructions to blocks.  `Sound` puts them together with the partition of the symbol table by
address (`Grouped`).

Each loop has its step lemma (`mergeSymbol_held`, `mergeSymbol_grouped`, `addSection_held`,
`emitInstr_grown`), and `call_sound` is the step of a whole call.  So a file is sound after any
calls (`calls_running`).
-/

namespace Befa.Shared

/-! ## Symbols and sections -/

/-- Symbols and sections lie apart, and a symbol has its section. -/
structure Held (b : Buffers) : Prop where
  symbols : Laid b.next Symbol.ptr b.symbolBuffer
  sections : Laid b.next Section.ptr b.sectionBuffer
  /-- No section twice. -/
  origins : (b.sectionBuffer.map (·.origin)).Nodup
  /-- The parent is the section of the origin. -/
  parents : ∀ s ∈ b.symbolBuffer, ∃ sec ∈ b.sectionBuffer,
    sec.ptr = s.parent ∧ sec.origin = s.origin.record.sect

/-- The buffer holds one symbol for each address of `l`, with the records at it in order. -/
abbrev Merged (l : List SymRef) (ss : List Symbol) : Prop :=
  Grouped SymRef.getAddress Symbol.getAddress Symbol.records l ss

@[simp] theorem Symbol.addAlias_getAddress (r : SymRef) (s : Symbol) :
    (s.addAlias r).getAddress = s.getAddress := rfl

@[simp] theorem Symbol.addAlias_records (r : SymRef) (s : Symbol) :
    (s.addAlias r).records = s.records ++ [r] := rfl

/-- A round changes the symbol at the address, or opens one in a section that is there, or opens one
with its section. -/
theorem mergeSymbol_cases (b : Buffers) (sym : SymRef) :
    (∃ pre s post, b.symbolBuffer = pre ++ s :: post ∧ s.getAddress = sym.getAddress ∧
      mergeSymbol b sym = { b with symbolBuffer := pre ++ s.addAlias sym :: post }) ∨
    ((∀ s ∈ b.symbolBuffer, s.getAddress ≠ sym.getAddress) ∧
      ((∃ sec ∈ b.sectionBuffer, sec.origin = sym.record.sect ∧ mergeSymbol b sym =
          { b with
            next := b.next + 1
            symbolBuffer := b.symbolBuffer ++ [⟨b.next, sym, sec.ptr, []⟩] }) ∨
        ((∀ sec ∈ b.sectionBuffer, sec.origin ≠ sym.record.sect) ∧ mergeSymbol b sym =
          { next := b.next + 2
            sectionBuffer := b.sectionBuffer ++ [⟨b.next, sym.record.sect⟩]
            symbolBuffer := b.symbolBuffer ++ [⟨b.next + 1, sym, b.next, []⟩] }))) := by
  rw [mergeSymbol]
  cases ha : addToExisting sym b.symbolBuffer with
  | some ss =>
      obtain ⟨pre, s, post, he, rfl, hs⟩ := updateFirst_eq_some ha
      exact Or.inl ⟨pre, s, post, he, of_decide_eq_true hs, rfl⟩
  | none =>
      refine Or.inr ⟨fun s hs => of_decide_eq_false (updateFirst_eq_none ha s hs), ?_⟩
      cases hf : b.sectionBuffer.find? (fun sec => sec.origin = sym.record.sect) with
      | some sec =>
          exact Or.inl ⟨sec, List.mem_of_find?_eq_some hf, by simpa using List.find?_some hf, rfl⟩
      | none => exact Or.inr ⟨by simpa using hf, rfl⟩

theorem mergeSymbol_grouped {l : List SymRef} {b : Buffers} (h : Merged l b.symbolBuffer)
    (sym : SymRef) : Merged (l ++ [sym]) (mergeSymbol b sym).symbolBuffer := by
  obtain ⟨pre, s, post, hb, hs, he⟩ | ⟨hnew, ⟨sec, -, -, he⟩ | ⟨-, he⟩⟩ := mergeSymbol_cases b sym
  · rw [he]
    exact (hb ▸ h).update hs rfl rfl
  · rw [he]
    exact h.snoc hnew rfl rfl
  · rw [he]
    exact h.snoc hnew rfl rfl

/-- Symbols of larger pointers do not disturb. -/
theorem Held.mono {b : Buffers} (h : Held b) {n : Ptr} (hn : b.next ≤ n) :
    Held { b with next := n } :=
  ⟨h.symbols.mono hn, h.sections.mono hn, h.origins, h.parents⟩

/-- A new section. -/
theorem Held.addSection {b : Buffers} (h : Held b) {o : Asection} {n : Ptr} (hn : b.next < n)
    (hnew : ∀ sec ∈ b.sectionBuffer, sec.origin ≠ o) :
    Held ⟨n, b.symbolBuffer, b.sectionBuffer ++ [⟨b.next, o⟩]⟩ := by
  refine ⟨h.symbols.mono hn.le, h.sections.snoc le_rfl hn, ?_, ?_⟩
  · rw [List.map_append, List.map_singleton]
    refine List.nodup_append.mpr ⟨h.origins, List.nodup_singleton _, ?_⟩
    intro p hp q hq
    obtain ⟨sec, hsec, rfl⟩ := List.mem_map.mp hp
    rw [List.mem_singleton.mp hq]
    exact hnew sec hsec
  · intro s hs
    obtain ⟨sec, hsec, hp⟩ := h.parents s hs
    exact ⟨sec, List.mem_append_left _ hsec, hp⟩

/-- A new symbol of a section. -/
theorem Held.addSymbol {b : Buffers} (h : Held b) {sec : Section} (hsec : sec ∈ b.sectionBuffer)
    {sym : SymRef} (ho : sec.origin = sym.record.sect) {p n : Ptr} (hp : b.next ≤ p) (hn : p < n) :
    Held ⟨n, b.symbolBuffer ++ [⟨p, sym, sec.ptr, []⟩], b.sectionBuffer⟩ := by
  refine ⟨h.symbols.snoc hp hn, h.sections.mono (hp.trans hn.le), h.origins, ?_⟩
  intro s hs
  rcases List.mem_append.mp hs with hs | hs
  · exact h.parents s hs
  · rw [List.mem_singleton.mp hs]
    exact ⟨sec, hsec, rfl, ho⟩

theorem mergeSymbol_held {b : Buffers} (h : Held b) (sym : SymRef) : Held (mergeSymbol b sym) := by
  obtain ⟨pre, s, post, hb, hs, he⟩ | ⟨-, ⟨sec, hsec, ho, he⟩ | ⟨hnew, he⟩⟩ :=
    mergeSymbol_cases b sym
  · rw [he]
    refine ⟨(hb ▸ h.symbols).update rfl, h.sections, h.origins, ?_⟩
    intro t ht
    have hparent : ∀ u ∈ pre ++ s :: post, ∃ sec ∈ b.sectionBuffer,
        sec.ptr = u.parent ∧ sec.origin = u.origin.record.sect := hb ▸ h.parents
    rcases List.mem_append.mp ht with ht | ht
    · exact hparent t (List.mem_append_left _ ht)
    · rcases List.mem_cons.mp ht with rfl | ht
      · exact hparent s (by simp)
      · exact hparent t (by simp [ht])
  · rw [he]
    exact h.addSymbol hsec ho le_rfl (Nat.lt_succ_self _)
  · rw [he]
    have hsec := h.addSection (Nat.lt_succ_self _) hnew
    exact hsec.addSymbol (List.mem_append_right _ (List.mem_singleton_self _)) rfl le_rfl
      (Nat.lt_succ_self _)

theorem mergeSymbols_held (syms : List SymRef) {b : Buffers} (h : Held b) :
    Held (mergeSymbols syms b) := by
  induction syms generalizing b with
  | nil => exact h
  | cons sym syms ih => exact ih (mergeSymbol_held h sym)

theorem mergeSymbols_grouped (later : List SymRef) {l : List SymRef} {b : Buffers}
    (h : Merged l b.symbolBuffer) : Merged (l ++ later) (mergeSymbols later b).symbolBuffer := by
  induction later generalizing l b with
  | nil => simpa [mergeSymbols] using h
  | cons sym later ih =>
      have hl := ih (mergeSymbol_grouped h sym)
      rwa [List.append_assoc] at hl

theorem sortSymbols_perm (ss : List Symbol) : ss.Perm (sortSymbols ss) :=
  (List.perm_insertionSort _ ss).symm

/-- Symbols of different addresses sort into strictly increasing addresses. -/
theorem sortSymbols_sorted {l : List SymRef} {ss : List Symbol} (h : Merged l ss) :
    (sortSymbols ss).Pairwise fun s t => s.getAddress < t.getAddress :=
  List.pairwise_lt_insertionSort h.distinct

/-- The order of the buffers does not matter. -/
theorem Held.reorder {b : Buffers} (h : Held b) {ss : List Symbol} {secs : List Section}
    (hs : b.symbolBuffer.Perm ss) (hsec : b.sectionBuffer.Perm secs) : Held ⟨b.next, ss, secs⟩ := by
  refine ⟨h.symbols.perm hs, h.sections.perm hsec, (hsec.map _).nodup_iff.mp h.origins, ?_⟩
  intro s hmem
  obtain ⟨sec, hm, hp⟩ := h.parents s (hs.mem_iff.mpr hmem)
  exact ⟨sec, hsec.mem_iff.mp hm, hp⟩

/-! ## Blocks and instructions -/

/-- Blocks lie apart and belong to symbols, instructions to blocks. -/
structure Tied (ss : List Symbol) (out : List Instruction) (b : BlockState) : Prop where
  blocks : Laid b.1 BasicBlock.ptr b.2
  /-- The parent is a symbol. -/
  owners : ∀ bb ∈ b.2, ∃ s ∈ ss, s.ptr = bb.parent
  /-- The parent is a block. -/
  carried : ∀ i ∈ out, ∃ bb ∈ b.2, bb.ptr = i.parent

namespace Tied

variable {ss : List Symbol} {out : List Instruction} {b : BlockState}

theorem nil (n : Ptr) : Tied ss [] (n, []) := ⟨.nil, by simp, by simp⟩

theorem mono (h : Tied ss out b) {n : Ptr} (hn : b.1 ≤ n) : Tied ss out (n, b.2) :=
  ⟨h.blocks.mono hn, h.owners, h.carried⟩

/-- A new block of a symbol. -/
theorem addBlock (h : Tied ss out b) {s : Symbol} (hs : s ∈ ss) (id : Vma) :
    Tied ss out (b.1 + 1, b.2 ++ [⟨b.1, id, s.ptr⟩]) := by
  refine ⟨h.blocks.snoc le_rfl (Nat.lt_succ_self _), ?_, ?_⟩
  · intro bb hb
    rcases List.mem_append.mp hb with hb | hb
    · exact h.owners bb hb
    · rw [List.mem_singleton.mp hb]
      exact ⟨s, hs, rfl⟩
  · intro i hi
    obtain ⟨bb, hb, he⟩ := h.carried i hi
    exact ⟨bb, List.mem_append_left _ hb, he⟩

/-- An instruction of a block. -/
theorem emit (h : Tied ss out b) {i : Instruction} {bb : BasicBlock} (hb : bb ∈ b.2)
    (hi : bb.ptr = i.parent) : Tied ss (out ++ [i]) b := by
  refine ⟨h.blocks, h.owners, ?_⟩
  intro j hj
  rcases List.mem_append.mp hj with hj | hj
  · exact h.carried j hj
  · rw [List.mem_singleton.mp hj]
    exact ⟨bb, hb, hi⟩

/-- A file without symbols has no blocks and no instructions. -/
theorem eq_nil (h : Tied [] out b) : b.2 = [] ∧ out = [] := by
  have hb : b.2 = [] := List.eq_nil_iff_forall_not_mem.mpr fun bb hb => by
    obtain ⟨s, hs, _⟩ := h.owners bb hb
    cases hs
  refine ⟨hb, List.eq_nil_iff_forall_not_mem.mpr fun i hi => ?_⟩
  obtain ⟨bb, hbb, _⟩ := h.carried i hi
  rw [hb] at hbb
  cases hbb

end Tied

/-- The state of the second loop, as blocks and the next number. -/
def EmitState.made (s : EmitState) : BlockState := (s.next, s.blocks)

section Loops

variable {ss : List Symbol} {s : Symbol} {n : Ptr}

/-- What a loop over instructions maintains: `Tied`, and that numbers grow. -/
def Grown (ss : List Symbol) (n : Ptr) (out : List Instruction) (b : BlockState) : Prop :=
  n ≤ b.1 ∧ Tied ss out b

theorem openBlock_grown (hs : s ∈ ss) {out : List Instruction} {t : EmitState}
    (h : Grown ss n out t.made) (address : Vma) :
    Grown ss n out (openBlock s.ptr address t).made := by
  rw [openBlock]
  split
  · exact h
  · split
    · exact ⟨h.1.trans (Nat.le_succ _), h.2.addBlock hs _⟩
    · exact h

theorem emitInstr_grown (hs : s ∈ ss) {out : List Instruction} {t : EmitState}
    (h : Grown ss n out t.made) (instr : Loaded) :
    Grown ss n (out ++ (emitInstr s.ptr instr t).out) (emitInstr s.ptr instr t).state.made := by
  have ho := openBlock_grown hs h instr.address
  simp only [emitInstr]
  split
  next => simpa using ho
  next bb hbb => exact ⟨ho.1, ho.2.emit (List.mem_of_getLast? hbb) rfl⟩

theorem emitInstrs_grown (hs : s ∈ ss) {out : List Instruction} {b : BlockState}
    (h : Grown ss n out b) (c : Collected) :
    Grown ss n (out ++ (emitInstrs s.ptr c b).out) (emitInstrs s.ptr c b).state :=
  emitAll_history (I := fun o (t : EmitState) => Grown ss n o t.made)
    (fun instr _ _ _ ht => emitInstr_grown hs ht instr) h

theorem disassembleSymbol_grown {f : ExecutableFile} {ite : Symbol × List Symbol}
    (hs : ite.1 ∈ ss) {out : List Instruction} {b : BlockState} (h : Grown ss n out b) :
    Grown ss n (out ++ (disassembleSymbol f ite b).out) (disassembleSymbol f ite b).state := by
  simp only [disassembleSymbol]
  split
  · split
    · simpa using h
    · simp only [fetch]
      split
      · simpa using h
      · exact emitInstrs_grown hs h _
  · simpa using h

theorem iterators_fst {α : Type} (l : List α) : (iterators l).map Prod.fst = l := by
  induction l with
  | nil => rfl
  | cons a l ih => rw [iterators, List.map_cons, ih]

/-- The loop of `runDisassembler`. -/
theorem emitAll_disassembleSymbol_grown (f : ExecutableFile) {out : List Instruction}
    {b : BlockState} (h : Grown ss n out b) :
    Grown ss n (out ++ (emitAll (disassembleSymbol f) (iterators ss) b).out)
      (emitAll (disassembleSymbol f) (iterators ss) b).state := by
  refine emitAll_history (fun ite hite _ _ hb => disassembleSymbol_grown ?_ hb) h
  rw [← iterators_fst ss]
  exact List.mem_map_of_mem hite

end Loops

/-! ## Files -/

/-- The buffers of a file that is alive. -/
def State.buffers (w : State) : Buffers := ⟨w.next, w.live.symbolBuffer, w.live.sectionBuffer⟩

/-- The buffers of a file are consistent. -/
structure Sound (w : State) : Prop where
  held : Held w.buffers
  /-- The symbols partition the symbol table, in address order, once there are any. -/
  listed : w.live.symbolBuffer ≠ [] → Merged w.live.symbolTable w.live.symbolBuffer ∧
    w.live.symbolBuffer.Pairwise fun s t => s.getAddress < t.getAddress
  /-- A synthetic record lies in the table of the file. -/
  stored : ∀ r ∈ w.live.symbolTable, ∀ t, r.table = some t →
    w.live.syntheticSymbolTable = some t
  tied : Tied w.live.symbolBuffer w.emitted (w.next, w.live.basicBlockBuffer)

theorem new_sound (fd : Source) : Sound (State.new fd) where
  held := ⟨.nil, .nil, .nil, by simp [State.buffers, State.new, ExecutableFile.new]⟩
  listed h := absurd rfl h
  stored := by simp [State.new, ExecutableFile.new]
  tied := .nil _

namespace Sound

variable {w : State}

/-- A file whose symbols are not listed yet has emitted nothing. -/
theorem eq_nil (h : Sound w) (he : w.live.symbolBuffer = []) :
    w.live.basicBlockBuffer = [] ∧ w.emitted = [] := by
  have ht := h.tied
  rw [he] at ht
  exact ht.eq_nil

end Sound

/-- A file that `source` was opened as.  What it fetched is what BFD lists. -/
structure Opened (source : Source) (w : State) : Prop where
  fd : w.live.fd = source
  sections : w.live.sections = [] ∨ w.live.sections = source.sections
  symbolTable : w.live.symbolTable = [] ∨
    w.live.symbolTable.map (·.record) = source.bfd.symbols

theorem new_opened (fd : Source) : Opened fd (State.new fd) := ⟨rfl, Or.inl rfl, Or.inl rfl⟩

/-! ## Calls -/

theorem fetchSymbolTable_next (w : State) : w.next ≤ w.fetchSymbolTable.next := by
  unfold State.fetchSymbolTable
  split
  · exact Nat.le_succ _
  · exact le_rfl

@[simp] theorem fetchSymbolTable_sectionBuffer (w : State) :
    w.fetchSymbolTable.live.sectionBuffer = w.live.sectionBuffer := by
  unfold State.fetchSymbolTable
  split <;> rfl

@[simp] theorem fetchSymbolTable_basicBlockBuffer (w : State) :
    w.fetchSymbolTable.live.basicBlockBuffer = w.live.basicBlockBuffer := by
  unfold State.fetchSymbolTable
  split <;> rfl

@[simp] theorem fetchSymbolTable_emitted (w : State) :
    w.fetchSymbolTable.emitted = w.emitted := by
  unfold State.fetchSymbolTable
  split <;> rfl

theorem fetchSymbolTable_stored {w : State} (h : ∀ r ∈ w.live.symbolTable, ∀ t,
    r.table = some t → w.live.syntheticSymbolTable = some t) :
    ∀ r ∈ w.fetchSymbolTable.live.symbolTable, ∀ t, r.table = some t →
      w.fetchSymbolTable.live.syntheticSymbolTable = some t := by
  unfold State.fetchSymbolTable
  split
  · intro r hr t ht
    rcases List.mem_append.mp hr with hr | hr
    · obtain ⟨a, -, rfl⟩ := List.mem_map.mp hr
      cases ht
    · obtain ⟨a, -, rfl⟩ := List.mem_map.mp hr
      exact ht
  · exact h

theorem fetchSymbolTable_opened {source : Source} {w : State} (h : Opened source w) :
    Opened source w.fetchSymbolTable ∧
      w.fetchSymbolTable.live.symbolTable.map (·.record) = source.bfd.symbols := by
  unfold State.fetchSymbolTable
  split
  · have hmap : ∀ (count : Nat) (n : Ptr),
        (w.live.fd.bfd.symbols.take count).map (fun a => (SymRef.mk a none).record) ++
          (w.live.fd.bfd.symbols.drop count).map (fun a => (SymRef.mk a (some n)).record) =
            source.bfd.symbols := by
      intro count n
      rw [← h.fd]
      simp
    refine ⟨⟨h.fd, h.sections, Or.inr ?_⟩, ?_⟩ <;>
      rw [List.map_append, List.map_map, List.map_map] <;> exact hmap _ _
  next hne => exact ⟨h, h.symbolTable.resolve_left fun he => hne (by rw [he]; rfl)⟩

/-- The symbols `getSymbolTable` leaves partition the symbol table, in address order. -/
theorem getSymbolTable_listed {w : State} (h : Sound w) :
    Merged w.getSymbolTable.live.symbolTable w.getSymbolTable.live.symbolBuffer ∧
      w.getSymbolTable.live.symbolBuffer.Pairwise fun s t => s.getAddress < t.getAddress := by
  unfold State.getSymbolTable
  split
  · have hm := mergeSymbols_grouped w.fetchSymbolTable.live.symbolTable
      (b := ⟨w.fetchSymbolTable.next, [], w.fetchSymbolTable.live.sectionBuffer⟩) Grouped.nil
    rw [List.nil_append] at hm
    exact ⟨hm.reorder (sortSymbols_perm _), sortSymbols_sorted hm⟩
  next hne => exact h.listed fun he => hne (by rw [he]; rfl)

theorem getSymbolTable_sound {w : State} (h : Sound w) : Sound w.getSymbolTable := by
  have hl := getSymbolTable_listed h
  unfold State.getSymbolTable at hl ⊢
  split at hl
  next he =>
    obtain ⟨hb, hi⟩ := h.eq_nil (List.isEmpty_iff.mp he)
    have hsec : Held ⟨w.fetchSymbolTable.next, [], w.fetchSymbolTable.live.sectionBuffer⟩ := by
      have hw := h.held.mono (fetchSymbolTable_next w)
      rw [fetchSymbolTable_sectionBuffer]
      rwa [State.buffers, List.isEmpty_iff.mp he] at hw
    rw [if_pos he]
    refine ⟨?_, fun _ => hl, fetchSymbolTable_stored h.stored, ?_⟩
    · exact (mergeSymbols_held _ hsec).reorder (sortSymbols_perm _) (List.Perm.refl _)
    · rw [fetchSymbolTable_basicBlockBuffer, fetchSymbolTable_emitted, hb, hi]
      exact .nil _
  next hne => rwa [if_neg hne]

/-- A round buffers the section, unless it is there. -/
theorem addSection_cases (b : Ptr × List Section) (o : Asection) :
    ((∃ sec ∈ b.2, sec.origin = o) ∧ addSection b o = b) ∨
      ((∀ sec ∈ b.2, sec.origin ≠ o) ∧ addSection b o = (b.1 + 1, b.2 ++ [⟨b.1, o⟩])) := by
  unfold addSection
  split
  next h => exact Or.inl ⟨by simpa using h, rfl⟩
  next h => exact Or.inr ⟨by simpa using h, rfl⟩

theorem addSection_held {b : Ptr × List Section} {ss : List Symbol} (h : Held ⟨b.1, ss, b.2⟩)
    (o : Asection) :
    b.1 ≤ (addSection b o).1 ∧ Held ⟨(addSection b o).1, ss, (addSection b o).2⟩ := by
  rcases addSection_cases b o with ⟨-, he⟩ | ⟨hnew, he⟩
  · rw [he]
    exact ⟨le_rfl, h⟩
  · rw [he]
    exact ⟨Nat.le_succ _, h.addSection (Nat.lt_succ_self _) hnew⟩

theorem addSections_held (secs : List Asection) {b : Ptr × List Section} {ss : List Symbol}
    (h : Held ⟨b.1, ss, b.2⟩) :
    b.1 ≤ (secs.foldl addSection b).1 ∧
      Held ⟨(secs.foldl addSection b).1, ss, (secs.foldl addSection b).2⟩ := by
  induction secs generalizing b with
  | nil => exact ⟨le_rfl, h⟩
  | cons o secs ih =>
      obtain ⟨hn, hb⟩ := addSection_held h o
      obtain ⟨hn', hb'⟩ := ih hb
      exact ⟨hn.trans hn', hb'⟩

theorem fetchSections_eq (f : ExecutableFile) :
    f.fetchSections = { f with sections := f.fetchSections.sections } := by
  unfold ExecutableFile.fetchSections
  split <;> rfl

theorem getSections_sound (sort : SectionSort) {w : State} (h : Sound w) :
    Sound (w.getSections sort) := by
  unfold State.getSections
  rw [fetchSections_eq]
  obtain ⟨hn, hb⟩ := addSections_held w.live.fetchSections.sections
    (b := (w.next, w.live.sectionBuffer)) h.held
  refine ⟨?_, h.listed, h.stored, h.tied.mono hn⟩
  refine hb.reorder (List.Perm.refl _) ?_
  dsimp only
  split
  · exact List.Perm.refl _
  · exact (sort.perm _).symm

theorem runDisassembler_sound {w : State} (h : Sound w) : Sound w.runDisassembler.1 := by
  have hw := getSymbolTable_sound h
  have hrun := emitAll_disassembleSymbol_grown w.getSymbolTable.live ⟨le_rfl, hw.tied⟩
  exact ⟨hw.held.mono hrun.1, hw.listed, hw.stored, hrun.2⟩

/-- The records `getSymbolTable` reads are those of BFD. -/
theorem getSymbolTable_opened {source : Source} {w : State} (h : Opened source w) (hw : Sound w) :
    Opened source w.getSymbolTable ∧
      w.getSymbolTable.live.symbolTable.map (·.record) = source.bfd.symbols := by
  unfold State.getSymbolTable
  split
  · obtain ⟨hf, htable⟩ := fetchSymbolTable_opened h
    exact ⟨⟨hf.fd, hf.sections, hf.symbolTable⟩, htable⟩
  next hne =>
    refine ⟨h, h.symbolTable.resolve_left fun he => hne ?_⟩
    cases hs : w.live.symbolBuffer with
    | nil => rfl
    | cons s ss =>
        -- a symbol has a record of the table
        have hm := (hw.listed (by simp [hs])).1.members s (by simp [hs])
        rw [he] at hm
        cases hm

theorem fetchSections_sections {source : Source} {w : State} (h : Opened source w) :
    w.live.fetchSections.sections = source.sections := by
  unfold ExecutableFile.fetchSections
  split
  · rw [h.fd]
  next hne => exact h.sections.resolve_left fun he => hne (by rw [he]; rfl)

theorem getSections_opened (sort : SectionSort) {source : Source} {w : State}
    (h : Opened source w) : Opened source (w.getSections sort) := by
  have hs := fetchSections_sections h
  unfold State.getSections
  rw [fetchSections_eq]
  exact ⟨h.fd, Or.inr hs, h.symbolTable⟩

theorem call_sound (sort : SectionSort) {w : State} (h : Sound w) (c : Call) :
    Sound (w.call sort c) := by
  cases c with
  | getSymbolTable => exact getSymbolTable_sound h
  | getSections => exact getSections_sound sort h
  | generateTable => exact getSymbolTable_sound h
  | runDisassembler => exact runDisassembler_sound h

/-- A file that `source` was opened as, with consistent buffers. -/
structure Running (source : Source) (w : State) : Prop where
  sound : Sound w
  opened : Opened source w

theorem new_running (fd : Source) : Running fd (State.new fd) := ⟨new_sound fd, new_opened fd⟩

theorem call_running (sort : SectionSort) {source : Source} {w : State} (h : Running source w)
    (c : Call) : Running source (w.call sort c) := by
  refine ⟨call_sound sort h.sound c, ?_⟩
  obtain ⟨ho, -⟩ := getSymbolTable_opened h.opened h.sound
  cases c with
  | getSymbolTable => exact ho
  | getSections => exact getSections_opened sort h.opened
  | generateTable => exact ho
  | runDisassembler => exact ⟨ho.fd, ho.sections, ho.symbolTable⟩

/-- What calls keep holds after any of them. -/
theorem calls_invariant (sort : SectionSort) {source : Source} {I : State → Prop}
    (hstep : ∀ w c, Running source w → I w → I (w.call sort c)) (cs : List Call) {w : State}
    (h : Running source w) (hI : I w) : I (w.calls sort cs) := by
  induction cs generalizing w with
  | nil => exact hI
  | cons c cs ih => exact ih (call_running sort h c) (hstep w c h hI)

/-- A file runs on after any calls. -/
theorem calls_running (sort : SectionSort) (cs : List Call) {source : Source} {w : State}
    (h : Running source w) : Running source (w.calls sort cs) :=
  calls_invariant sort (fun _ c hw _ => call_running sort hw c) cs h h

end Befa.Shared
