import Befa.Assembly.Listing

/-!
# The headers of a listing

The program looks at instructions and prints a header when something changes from one to the next.
What it shows are the blocks: the headers of a listing are those of the block buffer, each block
under its own address (`ExecutableFile.filter_listing`).

`Fills` carries this.  A run fills the blocks one after the other, so an instruction either opens
the last block, at the address of the block, or stays in it.
-/

namespace Befa

/-- Instructions fill blocks one after the other, and the first of a block lies at its id. -/
inductive Fills : List Instruction → List BasicBlock → Prop where
  | nil : Fills [] []
  | opens {out : List Instruction} {blocks : List BasicBlock} {e : Instruction} :
      Fills out blocks → e.address = e.parent.id → Fills (out ++ [e]) (blocks ++ [e.parent])
  | joins {out : List Instruction} {blocks : List BasicBlock} {e : Instruction} :
      Fills out (blocks ++ [e.parent]) → Fills (out ++ [e]) (blocks ++ [e.parent])

namespace Fills

variable {out : List Instruction} {sym : Symbol}

/-- A round of the second loop fills the last block or opens one. -/
theorem emitInstr {s : EmitState} (h : Fills out s.blocks.items) (i : Loaded) :
    Fills (out ++ (emitInstr sym i s).out) (emitInstr sym i s).state.blocks.items := by
  by_cases ho : Opens s i.address
  · rw [emitInstr_of_opens ho, openBlock_of_opens ho]
    exact h.opens rfl
  · cases hb : s.blocks.back with
    | some bb =>
        rw [emitInstr_of_joins ho hb, openBlock_of_not ho]
        obtain ⟨front, hfront⟩ := List.getLast?_eq_some_iff.mp hb
        rw [hfront] at h ⊢
        exact h.joins
    | none =>
        rw [emitInstr_state, openBlock_of_not ho, (emitInstr_of_none sym ho hb).2, List.append_nil]
        exact h

theorem emitInstrs {b : Blocks} (h : Fills out b.items) (c : Collected) :
    Fills (out ++ (emitInstrs sym c b).out) (emitInstrs sym c b).state.items :=
  emitAll_history (I := fun o (s : EmitState) => Fills o s.blocks.items)
    (s := ⟨c.boundaries.items, b⟩) (fun i _ _ _ ht => ht.emitInstr i) h

theorem fetchWindow {b : Blocks} (h : Fills out b.items) (fd : Bfd) (w : Symbol × Vma) :
    Fills (out ++ (fetchWindow fd w b).out) (fetchWindow fd w b).state.items := by
  cases hdis : fd.disassembler with
  | none =>
      rw [Befa.fetchWindow, hdis, fetch, List.append_nil]
      exact h
  | some dis =>
      rw [Befa.fetchWindow, hdis, fetch_some]
      exact h.emitInstrs _

/-- A run of a new file fills the blocks of its buffer. -/
theorem run (fd : Bfd) : Fills (ExecutableFile.new fd).runDisassembler.out
    (ExecutableFile.new fd).runDisassembler.state.basicBlockBuffer.items := by
  obtain ⟨hout, -, hstate⟩ := (ExecutableFile.new fd).runDisassembler_eq
  rw [hout, hstate]
  exact emitAll_history (I := fun o (b : Blocks) => Fills o b.items) (o := [])
    (fun w _ _ _ ht => ht.fetchWindow fd w) .nil

end Fills

/-! ## The headers of blocks -/

def Line.isHeader : Line → Bool
  | instr _ _ => false
  | _ => true

/-- The headers of some blocks, each under its own address. -/
def blockHeaders : Last → List BasicBlock → List Line
  | _, [] => []
  | last, bb :: blocks => headers last bb bb.id ++ blockHeaders bb.last blocks

/-- The accumulator behind some blocks. -/
def lastBlock (last : Last) (blocks : List BasicBlock) : Last :=
  blocks.foldl (fun _ bb => bb.last) last

theorem lastBlock_concat (last : Last) (blocks : List BasicBlock) (bb : BasicBlock) :
    lastBlock last (blocks ++ [bb]) = bb.last := by
  simp [lastBlock]

theorem blockHeaders_concat (last : Last) (blocks : List BasicBlock) (bb : BasicBlock) :
    blockHeaders last (blocks ++ [bb]) =
      blockHeaders last blocks ++ headers (lastBlock last blocks) bb bb.id := by
  induction blocks generalizing last with
  | nil => simp [blockHeaders, lastBlock]
  | cons b blocks ih =>
      rw [List.cons_append, blockHeaders, ih, blockHeaders, List.append_assoc]
      rfl

/-- In front of a block that is the last one already no header is printed. -/
theorem headers_last (bb : BasicBlock) (address : Vma) : headers bb.last bb address = [] := by
  simp [headers, BasicBlock.last]

theorem filter_headers (last : Last) (bb : BasicBlock) (address : Vma) :
    (headers last bb address).filter Line.isHeader = headers last bb address := by
  simp only [headers]
  split_ifs <;> rfl

/-- The headers in front of an instruction are what its line adds to the headers. -/
theorem filter_printInstr (functions : SymMap) (i : Instruction) (last : Last) :
    ((printInstr functions i last).out).filter Line.isHeader = headers last i.parent i.address := by
  cases h : i.getName with
  | none => rw [printInstr_of_none functions h, filter_headers]
  | some name =>
      rw [printInstr_of_some functions h, List.filter_append, filter_headers]
      exact List.append_nil _

/-- What a listing shows of the blocks that were filled.  It may stop early. -/
structure ShowsBlocks (r : Emitted Last Line Text) (blocks : List BasicBlock) : Prop where
  shown : ∃ shown, shown <+: blocks ∧ r.out.filter Line.isHeader = blockHeaders .start shown ∧
    (r.raised = none → shown = blocks)
  state : r.raised = none → r.state = lastBlock .start blocks

/-- A listing that stopped shows nothing of the blocks behind. -/
theorem ShowsBlocks.stopped {r : Emitted Last Line Text} {blocks : List BasicBlock}
    (h : ShowsBlocks r blocks) {reason : Text} (hr : r.raised = some reason)
    (later : List BasicBlock) : ShowsBlocks r (blocks ++ later) := by
  obtain ⟨shown, hshown, hout, -⟩ := h.shown
  refine ⟨⟨shown, hshown.trans (List.prefix_append _ _), hout, fun hn => ?_⟩, fun hn => ?_⟩ <;>
  · rw [hr] at hn
    cases hn

theorem state_printInstr {functions : SymMap} {i : Instruction} {last : Last}
    (h : (printInstr functions i last).raised = none) :
    (printInstr functions i last).state = i.parent.last := by
  cases hn : i.getName with
  | none =>
      rw [printInstr_of_none _ hn] at h
      cases h
  | some name => rw [printInstr_of_some _ hn]

/-- One more instruction, of a block that is the last one behind it. -/
theorem ShowsBlocks.printInstr {functions : SymMap} {r : Emitted Last Line Text}
    {blocks blocks' : List BasicBlock} {e : Instruction} (h : ShowsBlocks r blocks)
    (hr : r.raised = none) (hlast : lastBlock .start blocks' = e.parent.last)
    (hheaders : blockHeaders .start blocks' = blockHeaders .start blocks ++
      headers (lastBlock .start blocks) e.parent e.address) :
    ShowsBlocks (r.andThen fun s => emitAll (printInstr functions) [e] s) blocks' := by
  obtain ⟨shown, -, hout, hall⟩ := h.shown
  obtain rfl := hall hr
  have hone : emitAll (Befa.printInstr functions) [e] r.state =
      Befa.printInstr functions e r.state := by
    rw [emitAll_cons]
    cases hp : (Befa.printInstr functions e r.state).raised with
    | some reason => exact Emitted.andThen_of_some hp _
    | none =>
        rw [Emitted.andThen_of_none hp, emitAll_nil, List.append_nil, ← hp]
  rw [Emitted.andThen_of_none hr, hone]
  refine ⟨⟨blocks', List.prefix_refl _, ?_, fun _ => rfl⟩, fun hn => ?_⟩
  · rw [List.filter_append, hout, filter_printInstr, h.state hr, hheaders]
  · exact (state_printInstr hn).trans hlast.symm

theorem Fills.showsBlocks (functions : SymMap) {out : List Instruction}
    {blocks : List BasicBlock} (h : Fills out blocks) :
    ShowsBlocks (emitAll (printInstr functions) out .start) blocks := by
  induction h with
  | nil => exact ⟨⟨[], List.prefix_refl _, rfl, fun _ => rfl⟩, fun _ => rfl⟩
  | @opens out blocks e _ ha ih =>
      rw [emitAll_append]
      cases hr : (emitAll (printInstr functions) out .start).raised with
      | some reason =>
          rw [Emitted.andThen_of_some hr]
          exact ih.stopped hr _
      | none =>
          exact ih.printInstr hr (lastBlock_concat ..) (ha ▸ blockHeaders_concat ..)
  | @joins out blocks e _ ih =>
      rw [emitAll_append]
      cases hr : (emitAll (printInstr functions) out .start).raised with
      | some reason =>
          rw [Emitted.andThen_of_some hr]
          exact ih
      | none =>
          have hlast := lastBlock_concat .start blocks e.parent
          refine ih.printInstr hr hlast ?_
          rw [hlast, headers_last, List.append_nil]

/-- **The headers of a listing are those of the blocks**, each under its own address.  A listing
that stops early shows the first blocks. -/
theorem ExecutableFile.filter_listing (fd : Bfd) :
    ∃ shown, shown <+: (ExecutableFile.new fd).runDisassembler.state.basicBlockBuffer.items ∧
      (ExecutableFile.new fd).listing.out.filter Line.isHeader = blockHeaders .start shown ∧
      ((ExecutableFile.new fd).listing.raised = none →
        shown = (ExecutableFile.new fd).runDisassembler.state.basicBlockBuffer.items) := by
  obtain ⟨shown, hshown, hout, hall⟩ :=
    ((Fills.run fd).showsBlocks (ExecutableFile.new fd).functions).shown
  rw [listing, (runDisassembler_generateTable _).1]
  refine ⟨shown, hshown, hout, fun hr => hall ?_⟩
  exact (Option.or_eq_none_iff.mp hr).1

end Befa
