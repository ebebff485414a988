import Befa.Assembly.OwnBytes

/-!
# The stream of instructions and its blocks

A run emits the instructions of one symbol after the other, and adds blocks to the buffer while it
does.  The buffer is older than the run and passes from symbol to symbol.

`Streamed` ties the stream to the buffer.  Its step lemmas are about one round of the second loop
(`Streamed.emitInstr`) and about one symbol (`Streamed.fetchWindow`).  That a block comes in one
piece follows from the order of the pointers: an instruction takes the last block there is, so no
instruction takes an older block than the one before it.
-/

namespace Befa

/-- The block is carried by some instruction of the stream, and the first one that carries it lies
at its id. -/
def StartsAt (out : List Instruction) (bb : BasicBlock) : Prop :=
  ∃ pre e post, out = pre ++ e :: post ∧ e.parent = bb ∧ e.address = bb.id ∧
    ∀ i ∈ pre, i.parent ≠ bb

theorem StartsAt.append {out : List Instruction} {bb : BasicBlock} (h : StartsAt out bb)
    (later : List Instruction) : StartsAt (out ++ later) bb := by
  obtain ⟨pre, e, post, rfl, hpar, hadr, hpre⟩ := h
  exact ⟨pre, e, post ++ later, by simp, hpar, hadr, hpre⟩

/-- What the first loop decodes for a window. -/
def decodedFor (fd : Bfd) (w : Symbol × Vma) : List Loaded :=
  fd.disassembler.elim [] fun dis =>
    (decode dis (sectionInfo fd w.1.parent) w.1.getAddress w.2).instructions

/-- The stream of a run from `f` and the blocks it adds. -/
structure ExecutableFile.Streams (f : ExecutableFile) : Prop where
  /-- Every decoded instruction is emitted once, in order. -/
  emitted : f.runDisassembler.out.map Instruction.loaded =
    (windows (symbolTable f.fd.symbols)).flatMap (decodedFor f.fd)
  /-- Every block that is added starts somewhere in the stream. -/
  started : ∃ added,
    f.runDisassembler.state.basicBlockBuffer.items = f.basicBlockBuffer.items ++ added ∧
      ∀ bb ∈ added, StartsAt f.runDisassembler.out bb
  /-- The instructions of one block lie side by side. -/
  consecutive : ∀ pre x mid y post, f.runDisassembler.out = pre ++ x :: mid ++ y :: post →
    x.parent = y.parent → ∀ z ∈ mid, z.parent = x.parent
  /-- The ids of the blocks that one call of `fetch` adds increase. -/
  increasing : ∀ v ∈ f.decodes, ∃ added,
    v.result.state.items = v.before.items ++ added ∧
      (added.map BasicBlock.id).Pairwise (· < ·)

/-! ## Blocks by their pointers -/

namespace Blocks

/-- One block lies at a pointer. -/
theorem eq_of_ptr {b : Blocks} {x y : BasicBlock} (hx : x ∈ b.items) (hy : y ∈ b.items)
    (h : x.ptr = y.ptr) : x = y := by
  obtain ⟨i, hi, rfl⟩ := List.getElem_of_mem hx
  obtain ⟨j, hj, rfl⟩ := List.getElem_of_mem hy
  rw [b.numbered i hi, b.numbered j hj] at h
  subst h
  rfl

/-- The last block lies behind all others. -/
theorem ptr_le_back {b : Blocks} {bb last : BasicBlock} (h : bb ∈ b.items)
    (hb : b.back = some last) : bb.ptr ≤ last.ptr := by
  obtain ⟨front, hfront⟩ := List.getLast?_eq_some_iff.mp hb
  have hlast : last.ptr = front.length := by
    have hnum := b.numbered front.length (by simp [hfront])
    simpa only [hfront, List.getElem_concat_length] using hnum
  have hlt := ptr_lt h
  rw [hfront, List.length_append, List.length_singleton] at hlt
  rw [hlast]
  exact Nat.le_of_lt_succ hlt

end Blocks

/-! ## The invariant -/

/-- The stream so far and the buffer, in a run that starts from the blocks `b₀`. -/
structure Streamed (b₀ : Blocks) (out : List Instruction) (b : Blocks) : Prop where
  grown : b₀.items <+: b.items
  /-- An instruction carries a block of the buffer. -/
  held : ∀ e ∈ out, e.parent ∈ b.items
  /-- A block that is not of `b₀` starts in the stream. -/
  started : ∀ bb ∈ b.items, b₀.items.length ≤ bb.ptr → StartsAt out bb
  ordered : out.Pairwise fun e e' => e.parent.ptr ≤ e'.parent.ptr

namespace Streamed

variable {b₀ b : Blocks} {out : List Instruction} {sym : Symbol}

theorem start (b₀ : Blocks) : Streamed b₀ [] b₀ where
  grown := List.prefix_refl _
  held _ h := absurd h List.not_mem_nil
  started _ h hptr := absurd hptr (not_le.mpr (Blocks.ptr_lt h))
  ordered := .nil

/-- An instruction that opens a block. -/
theorem opens (h : Streamed b₀ out b) (i : Loaded) :
    Streamed b₀ (out ++ [⟨i.bytes, ⟨b.items.length, i.address, sym⟩, i.decoded, i.address⟩])
      (b.add i.address sym) where
  grown := h.grown.trans (List.prefix_append _ _)
  held := by
    intro e he
    rcases List.mem_append.mp he with he | he
    · exact List.mem_append_left _ (h.held e he)
    · rw [List.mem_singleton.mp he]
      exact List.mem_append_right _ (List.mem_singleton_self _)
  started := by
    intro bb hbb hptr
    rcases List.mem_append.mp hbb with hbb | hbb
    · exact (h.started bb hbb hptr).append _
    · -- every block that was carried before is older
      rw [List.mem_singleton.mp hbb]
      refine ⟨out, _, [], rfl, rfl, rfl, fun e he hpar => ?_⟩
      exact lt_irrefl _ (hpar ▸ Blocks.ptr_lt (h.held e he))
  ordered := by
    refine List.pairwise_append.mpr ⟨h.ordered, List.pairwise_singleton _ _, ?_⟩
    intro e he e' he'
    rw [List.mem_singleton.mp he']
    exact (Blocks.ptr_lt (h.held e he)).le

/-- An instruction that joins the last block. -/
theorem joins (h : Streamed b₀ out b) {bb : BasicBlock} (hb : b.back = some bb) (i : Loaded) :
    Streamed b₀ (out ++ [⟨i.bytes, bb, i.decoded, i.address⟩]) b where
  grown := h.grown
  held := by
    intro e he
    rcases List.mem_append.mp he with he | he
    · exact h.held e he
    · rw [List.mem_singleton.mp he]
      exact List.mem_of_getLast? hb
  started := fun bb hbb hptr => (h.started bb hbb hptr).append _
  ordered := by
    refine List.pairwise_append.mpr ⟨h.ordered, List.pairwise_singleton _ _, ?_⟩
    intro e he e' he'
    rw [List.mem_singleton.mp he']
    exact Blocks.ptr_le_back (h.held e he) hb

/-- A round of the second loop keeps the invariant, also when it raises. -/
theorem emitInstr {s : EmitState} (h : Streamed b₀ out s.blocks) (i : Loaded) :
    Streamed b₀ (out ++ (emitInstr sym i s).out) (emitInstr sym i s).state.blocks := by
  by_cases ho : Opens s i.address
  · rw [emitInstr_of_opens ho, openBlock_of_opens ho]
    exact h.opens i
  · cases hb : s.blocks.back with
    | some bb =>
        rw [emitInstr_of_joins ho hb, openBlock_of_not ho]
        exact h.joins hb i
    | none =>
        have hstate : (Befa.emitInstr sym i s).state.blocks = s.blocks := by
          simp [Befa.emitInstr, openBlock_of_not ho, hb]
        rw [(emitInstr_of_none sym ho hb).2, List.append_nil, hstate]
        exact h

theorem emitInstrs (h : Streamed b₀ out b) (c : Collected) :
    Streamed b₀ (out ++ (emitInstrs sym c b).out) (emitInstrs sym c b).state :=
  emitAll_history (I := fun o (s : EmitState) => Streamed b₀ o s.blocks)
    (s := ⟨c.boundaries.items, b⟩) (fun i _ _ _ ht => ht.emitInstr i) h

theorem fetchWindow (h : Streamed b₀ out b) (fd : Bfd) (w : Symbol × Vma) :
    Streamed b₀ (out ++ (fetchWindow fd w b).out) (fetchWindow fd w b).state := by
  cases hdis : fd.disassembler with
  | none =>
      rw [Befa.fetchWindow, hdis, fetch, List.append_nil]
      exact h
  | some dis =>
      rw [Befa.fetchWindow, hdis, fetch_some]
      exact h.emitInstrs _

/-- The invariant of a run. -/
theorem run (f : ExecutableFile) :
    Streamed f.basicBlockBuffer f.runDisassembler.out
      f.runDisassembler.state.basicBlockBuffer := by
  obtain ⟨hout, -, hstate⟩ := f.runDisassembler_eq
  rw [hout, hstate]
  exact emitAll_history (I := Streamed f.basicBlockBuffer) (o := [])
    (fun w _ _ _ ht => ht.fetchWindow f.fd w) (start _)

/-- What lies between two instructions of one block is of that block. -/
theorem between (h : Streamed b₀ out b) {pre mid post : List Instruction} {x y z : Instruction}
    (hout : out = pre ++ x :: mid ++ y :: post) (hxy : x.parent = y.parent) (hz : z ∈ mid) :
    z.parent = x.parent := by
  have hord := h.ordered
  rw [hout, List.append_assoc, List.cons_append] at hord
  obtain ⟨hx, hrest⟩ := List.pairwise_cons.mp (List.pairwise_append.mp hord).2.1
  have hle : x.parent.ptr ≤ z.parent.ptr := hx z (List.mem_append_left _ hz)
  have hge : z.parent.ptr ≤ y.parent.ptr :=
    (List.pairwise_append.mp hrest).2.2 z hz y (List.mem_cons_self ..)
  have hzm : z ∈ out := by simp [hout, hz]
  have hxm : x ∈ out := by simp [hout]
  exact Blocks.eq_of_ptr (h.held z hzm) (h.held x hxm) (le_antisymm (hxy ▸ hge) hle)

/-- The blocks that are new lie behind those of `b₀`. -/
theorem added (h : Streamed b₀ out b) :
    ∃ added, b.items = b₀.items ++ added ∧ ∀ bb ∈ added, StartsAt out bb := by
  obtain ⟨added, hadd⟩ := h.grown
  refine ⟨added, hadd.symm, fun bb hbb => ?_⟩
  have hmem : bb ∈ b.items := hadd ▸ List.mem_append_right _ hbb
  refine h.started bb hmem ?_
  obtain ⟨i, hi, rfl⟩ := List.getElem_of_mem hbb
  have hlen : b₀.items.length + i < b.items.length := by
    rw [← hadd, List.length_append]
    omega
  have hget : b.items[b₀.items.length + i] = added[i] := by
    simp [← hadd]
  rw [← hget, b.numbered]
  omega

end Streamed

/-! ## One symbol -/

/-- The blocks that were added are at the boundaries the cursor has passed. -/
def Passed (boundaries : List Vma) (blocks : Blocks) (s : EmitState) : Prop :=
  ∃ added, s.blocks.items = blocks.items ++ added ∧
    added.map BasicBlock.id ++ s.cursor = boundaries

theorem Passed.emitInstr {boundaries : List Vma} {blocks : Blocks} {s : EmitState}
    (h : Passed boundaries blocks s) (sym : Symbol) (i : Loaded) :
    Passed boundaries blocks (emitInstr sym i s).state := by
  obtain ⟨added, hitems, hids⟩ := h
  rw [emitInstr_state]
  by_cases ho : Opens s i.address
  · obtain ⟨rest, hrest⟩ := List.head?_eq_some_iff.mp ho
    refine ⟨added ++ [⟨s.blocks.items.length, i.address, sym⟩], ?_, ?_⟩
    · rw [openBlock_of_opens ho, Blocks.items_add, hitems, List.append_assoc]
    · rw [openBlock_cursor, advance_of_head ho, ← hids, hrest]
      simp
  · refine ⟨added, ?_, ?_⟩
    · rw [openBlock_of_not ho, hitems]
    · rw [openBlock_cursor, advance_of_ne ho, hids]

theorem emitInstrs_added (sym : Symbol) (c : Collected) (blocks : Blocks) :
    ∃ added, (emitInstrs sym c blocks).state.items = blocks.items ++ added ∧
      added.map BasicBlock.id <+: c.boundaries.items := by
  have hstart : Passed c.boundaries.items blocks ⟨c.boundaries.items, blocks⟩ :=
    ⟨[], (List.append_nil _).symm, rfl⟩
  obtain ⟨added, hitems, hids⟩ := emitAll_invariant (I := Passed c.boundaries.items blocks)
    (fun i _ _ ht => ht.emitInstr sym i) hstart
  exact ⟨added, hitems, _, hids⟩

theorem fetchWindow_added (fd : Bfd) (w : Symbol × Vma) (blocks : Blocks) :
    ∃ added, (fetchWindow fd w blocks).state.items = blocks.items ++ added ∧
      (added.map BasicBlock.id).Pairwise (· < ·) := by
  cases hdis : fd.disassembler with
  | none =>
      rw [fetchWindow, hdis]
      exact ⟨[], (List.append_nil _).symm, .nil⟩
  | some dis =>
      rw [fetchWindow, hdis, fetch_some]
      obtain ⟨added, hitems, hids⟩ := emitInstrs_added w.1
        (decode dis (sectionInfo fd w.1.parent) w.1.getAddress w.2) blocks
      exact ⟨added, hitems, (Keyed.sorted _).sublist hids.sublist⟩

theorem fetchWindow_loaded {fd : Bfd} {w : Symbol × Vma} {blocks : Blocks}
    (h : (fetchWindow fd w blocks).raised = none) :
    (fetchWindow fd w blocks).out.map Instruction.loaded = decodedFor fd w := by
  cases hdis : fd.disassembler with
  | none =>
      rw [fetchWindow, hdis] at h
      cases h
  | some dis =>
      rw [fetchWindow, hdis, fetch_some] at h
      rw [fetchWindow, decodedFor, hdis, fetch_some, Option.elim_some]
      exact emitInstrs_loaded h

/-! ## A run -/

/-- A run that does not raise emits what it decodes. -/
theorem ExecutableFile.runDisassembler_loaded {f : ExecutableFile}
    (h : f.runDisassembler.raised = none) :
    f.runDisassembler.out.map Instruction.loaded =
      (windows (symbolTable f.fd.symbols)).flatMap (decodedFor f.fd) := by
  obtain ⟨hout, hraised, -⟩ := f.runDisassembler_eq
  have hnone := hraised ▸ h
  rw [hout, emitAll_out, List.map_flatMap]
  conv => rhs; rw [← visits_input hnone, List.flatMap_map]
  refine List.flatMap_congr fun v hv => ?_
  have hv' := (emitAll_raised ..).mp hnone v hv
  rw [visit_result hv] at hv' ⊢
  exact fetchWindow_loaded hv'

/-- **Blocks and their ids** in every run that does not raise. -/
theorem ExecutableFile.runDisassembler_streams (f : ExecutableFile)
    (h : f.runDisassembler.raised = none) : f.Streams where
  emitted := runDisassembler_loaded h
  started := (Streamed.run f).added
  consecutive _ _ _ _ _ hout hxy _ hz := (Streamed.run f).between hout hxy hz
  increasing v hv := by
    rw [visit_result hv]
    exact fetchWindow_added ..

/-- A function at the start of its section. -/
theorem ExecutableFile.nopFunction_streams : (ExecutableFile.new (nopFunction 0)).Streams :=
  ExecutableFile.runDisassembler_streams (.new (nopFunction 0)) (by decide +kernel)

end Befa
