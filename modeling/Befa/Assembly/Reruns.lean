import Befa.Assembly.AddressTable
import Befa.Assembly.OwnBytes

/-!
# Runs that repeat

A file can be run any number of times, and the buffer of blocks is never emptied.  Still every run
is the first one again, with its own copies of the blocks behind those of the runs before it
(`ExecutableFile.runs_repeat`).

A run reads the buffer only to join the last block.  In a first run that does not raise, that is
a block of the run itself.  A first run that raises has opened no block, so it leaves nothing
behind that a later one could join.
-/

namespace Befa

/-! ## Copies of blocks -/

/-- A copy of a block behind `n` others. -/
def BasicBlock.shift (n : Nat) (bb : BasicBlock) : BasicBlock := { bb with ptr := n + bb.ptr }

def Instruction.shift (n : Nat) (i : Instruction) : Instruction :=
  { i with parent := i.parent.shift n }

theorem BasicBlock.shift_zero : BasicBlock.shift 0 = fun bb => bb := by
  funext bb
  simp [shift]

theorem Instruction.shift_zero : Instruction.shift 0 = fun i => i := by
  funext i
  rw [shift, BasicBlock.shift_zero]

theorem Blocks.eq_nil {b : Blocks} (h : b.items = []) : b = .nil := by
  obtain ⟨items, numbered⟩ := b
  subst h
  rfl

/-- The blocks of a run, behind those of an older buffer. -/
def Copied (old s t : Blocks) : Prop :=
  t.items = old.items ++ s.items.map (BasicBlock.shift old.items.length)

namespace Copied

variable {old s t : Blocks}

theorem start (old : Blocks) : Copied old .nil old := (List.append_nil _).symm

theorem add (h : Copied old s t) (id : Vma) (parent : Symbol) :
    Copied old (s.add id parent) (t.add id parent) := by
  unfold Copied at h ⊢
  simp [Blocks.items_add, h, BasicBlock.shift]

theorem back (h : Copied old s t) {bb : BasicBlock} (hb : s.back = some bb) :
    t.back = some (bb.shift old.items.length) := by
  obtain ⟨front, hfront⟩ := List.getLast?_eq_some_iff.mp hb
  refine List.getLast?_eq_some_iff.mpr
    ⟨old.items ++ front.map (BasicBlock.shift old.items.length), ?_⟩
  rw [h, hfront]
  simp

end Copied

/-! ## Following a run -/

/-- What a step leaves is a copy of what another one leaves. -/
structure Follows {σ τ : Type} (R : σ → τ → Prop) (n : Nat) (r : Emitted σ Instruction Text)
    (r' : Emitted τ Instruction Text) : Prop where
  raised : r'.raised = none
  out : r'.out = r.out.map (Instruction.shift n)
  state : R r.state r'.state

/-- A loop that does not raise is followed when its steps are. -/
theorem emitAll_follows {α σ τ : Type} {R : σ → τ → Prop} {n : Nat}
    {step : α → σ → Emitted σ Instruction Text} {step' : α → τ → Emitted τ Instruction Text}
    (hstep : ∀ a s t, R s t → (step a s).raised = none → Follows R n (step a s) (step' a t))
    (xs : List α) {s : σ} {t : τ} (hR : R s t) (hr : (emitAll step xs s).raised = none) :
    Follows R n (emitAll step xs s) (emitAll step' xs t) := by
  induction xs generalizing s t with
  | nil => exact ⟨rfl, rfl, hR⟩
  | cons x xs ih =>
      cases h : (step x s).raised with
      | some reason =>
          rw [emitAll_cons, Emitted.andThen_of_some h, h] at hr
          cases hr
      | none =>
          obtain ⟨hr', hout, hR'⟩ := hstep x s t hR h
          rw [emitAll_cons, Emitted.andThen_of_none h] at hr ⊢
          obtain ⟨hrs, houts, hRs⟩ := ih hR' hr
          rw [emitAll_cons, Emitted.andThen_of_none hr']
          exact ⟨hrs, by simp [hout, houts], hRs⟩

section Steps

variable {old : Blocks} {sym : Symbol}

theorem openBlock_copied (sym : Symbol) (address : Vma) {s t : EmitState} (hc : s.cursor = t.cursor)
    (h : Copied old s.blocks t.blocks) :
    (openBlock sym address s).cursor = (openBlock sym address t).cursor ∧
      Copied old (openBlock sym address s).blocks (openBlock sym address t).blocks := by
  refine ⟨by rw [openBlock_cursor, openBlock_cursor, hc], ?_⟩
  by_cases ho : Opens s address
  · have ho' : Opens t address := by rwa [Opens, ← hc]
    rw [openBlock_of_opens ho, openBlock_of_opens ho']
    exact h.add address sym
  · have ho' : ¬Opens t address := by rwa [Opens, ← hc]
    rw [openBlock_of_not ho, openBlock_of_not ho']
    exact h

/-- A round that finds a block finds the copy of the block. -/
theorem emitInstr_follows (i : Loaded) (s t : EmitState)
    (h : s.cursor = t.cursor ∧ Copied old s.blocks t.blocks)
    (hr : (emitInstr sym i s).raised = none) :
    Follows (fun s t : EmitState => s.cursor = t.cursor ∧ Copied old s.blocks t.blocks)
      old.items.length (emitInstr sym i s) (emitInstr sym i t) := by
  have hopen := openBlock_copied sym i.address h.1 h.2
  have hemit : Opens s i.address ∨ s.blocks.back ≠ none := by
    by_contra hc
    exact (emitInstr_of_none sym (fun ho => hc (Or.inl ho))
      (of_not_not fun hb => hc (Or.inr hb))).1 hr
  obtain ⟨bb, hbb, he⟩ := emitInstr_emits sym hemit
  rw [he, emitInstr_of_back (hopen.2.back hbb)]
  exact ⟨rfl, rfl, hopen⟩

theorem emitInstrs_follows (c : Collected) {s t : Blocks} (h : Copied old s t)
    (hr : (emitInstrs sym c s).raised = none) :
    Follows (Copied old) old.items.length (emitInstrs sym c s) (emitInstrs sym c t) := by
  obtain ⟨hraised, hout, hstate⟩ := emitAll_follows (s := ⟨c.boundaries.items, s⟩)
    (t := ⟨c.boundaries.items, t⟩) emitInstr_follows _ ⟨rfl, h⟩ hr
  exact ⟨hraised, hout, hstate.2⟩

theorem fetchWindow_follows (fd : Bfd) (w : Symbol × Vma) (s t : Blocks) (h : Copied old s t)
    (hr : (fetchWindow fd w s).raised = none) :
    Follows (Copied old) old.items.length (fetchWindow fd w s) (fetchWindow fd w t) := by
  cases hdis : fd.disassembler with
  | none =>
      rw [fetchWindow, hdis] at hr
      cases hr
  | some dis =>
      rw [fetchWindow, hdis, fetch_some] at hr
      rw [fetchWindow, fetchWindow, hdis, fetch_some, fetch_some]
      exact emitInstrs_follows _ h hr

end Steps

/-! ## A first run that raises -/

/-- A round that raises leaves no block. -/
theorem items_of_emitInstrs_raised {sym : Symbol} {c : Collected} {blocks : Blocks}
    (h : (emitInstrs sym c blocks).raised ≠ none) : (emitInstrs sym c blocks).state.items = [] := by
  obtain ⟨i, is, hi, hb, ho⟩ := (emitInstrs_raised sym).mp h
  obtain ⟨hr, -⟩ := emitInstr_of_none sym ho (Blocks.back_eq_none.mpr hb)
  obtain ⟨reason, he⟩ := Option.ne_none_iff_exists'.mp hr
  rw [emitInstrs, hi, emitAll_cons, Emitted.andThen_of_some he, emitInstr_state,
    openBlock_of_not ho]
  exact hb

/-- A run that raises leaves an empty buffer. -/
theorem items_of_raised {fd : Bfd} {dis : Disassembler} (hdis : fd.disassembler = some dis)
    (ws : List (Symbol × Vma)) {b : Blocks} (h : (emitAll (fetchWindow fd) ws b).raised ≠ none) :
    (emitAll (fetchWindow fd) ws b).state.items = [] := by
  induction ws generalizing b with
  | nil => exact absurd rfl h
  | cons w ws ih =>
      cases hw : (fetchWindow fd w b).raised with
      | some reason =>
          rw [emitAll_cons, Emitted.andThen_of_some hw, fetchWindow, hdis, fetch_some]
          rw [fetchWindow, hdis, fetch_some] at hw
          exact items_of_emitInstrs_raised (hw ▸ Option.some_ne_none reason)
      | none =>
          rw [emitAll_cons, Emitted.andThen_of_none hw] at h ⊢
          exact ih h

theorem items_of_noDisassembler {fd : Bfd} (hdis : fd.disassembler = none)
    (ws : List (Symbol × Vma)) (b : Blocks) : (emitAll (fetchWindow fd) ws b).state = b := by
  cases ws with
  | nil => rfl
  | cons w ws =>
      have hw : fetchWindow fd w b =
          ⟨b, [], some "failed to open file descriptor for disassembling".toList⟩ := by
        rw [fetchWindow, hdis, fetch]
      rw [emitAll_cons, hw, Emitted.andThen_of_some rfl]

namespace ExecutableFile

/-- A first run. -/
def first (fd : Bfd) : Emitted ExecutableFile Instruction Text :=
  (ExecutableFile.new fd).runDisassembler

/-- How many blocks a run adds. -/
def blocksPerRun (fd : Bfd) : Nat := (first fd).state.basicBlockBuffer.items.length

theorem blocksPerRun_of_raised {fd : Bfd} (h : (first fd).raised ≠ none) : blocksPerRun fd = 0 := by
  obtain ⟨-, hraised, hstate⟩ := (ExecutableFile.new fd).runDisassembler_eq
  rw [blocksPerRun, first, hstate, List.length_eq_zero_iff]
  rw [first, hraised] at h
  cases hdis : fd.disassembler with
  | none => rw [show (ExecutableFile.new fd).fd = fd from rfl, items_of_noDisassembler hdis]; rfl
  | some dis => exact items_of_raised hdis _ h

/-- What a run does that follows the first one. -/
structure Repeats (f : ExecutableFile) : Prop where
  raised : f.runDisassembler.raised = (first f.fd).raised
  out : f.runDisassembler.out =
    (first f.fd).out.map (Instruction.shift f.basicBlockBuffer.items.length)
  blocks : f.runDisassembler.state.basicBlockBuffer.items = f.basicBlockBuffer.items ++
    (first f.fd).state.basicBlockBuffer.items.map
      (BasicBlock.shift f.basicBlockBuffer.items.length)

/-- A run repeats the first one, behind any blocks if that did not raise. -/
theorem repeats {f : ExecutableFile}
    (h : (first f.fd).raised = none ∨ f.basicBlockBuffer.items = []) : Repeats f := by
  obtain ⟨hout, hraised, hstate⟩ := f.runDisassembler_eq
  obtain ⟨hout₁, hraised₁, hstate₁⟩ := (ExecutableFile.new f.fd).runDisassembler_eq
  have hfd : (ExecutableFile.new f.fd).fd = f.fd := rfl
  have hblocks : (ExecutableFile.new f.fd).basicBlockBuffer = .nil := rfl
  rw [hfd, hblocks] at hout₁ hraised₁ hstate₁
  rcases h with h | h
  · rw [first, hraised₁] at h
    obtain ⟨hr, ho, hs⟩ := emitAll_follows (fun w s t => fetchWindow_follows f.fd w s t)
      (windows (symbolTable f.fd.symbols)) (Copied.start f.basicBlockBuffer) h
    refine ⟨?_, ?_, ?_⟩
    · rw [hraised, hr, first, hraised₁, h]
    · rw [hout, ho, first, hout₁]
    · rw [hstate, hs, first, hstate₁]
  · rw [Blocks.eq_nil h] at hout hraised hstate
    refine ⟨?_, ?_, ?_⟩
    · rw [hraised, first, hraised₁]
    · rw [hout, h, first, hout₁, List.length_nil, Instruction.shift_zero, List.map_id']
    · rw [hstate, h, first, hstate₁, List.length_nil, BasicBlock.shift_zero, List.map_id',
        List.nil_append]

/-! ## Any number of runs -/

/-- A call to a file. -/
inductive Call where
  | getSymbolTable
  | generateTable
  | runDisassembler
deriving DecidableEq

/-- The file behind a call. -/
def call (f : ExecutableFile) : Call → ExecutableFile
  | .getSymbolTable => f.getSymbolTable
  | .generateTable => f.generateTable.1
  | .runDisassembler => f.runDisassembler.state

/-- The file behind some calls. -/
def callAll (f : ExecutableFile) (calls : List Call) : ExecutableFile := calls.foldl call f

theorem callAll_concat (f : ExecutableFile) (calls : List Call) (c : Call) :
    f.callAll (calls ++ [c]) = (f.callAll calls).call c := by
  simp [callAll]

theorem fd_call (f : ExecutableFile) (c : Call) : (f.call c).fd = f.fd := by
  cases c with
  | getSymbolTable => exact f.fd_getSymbolTable
  | generateTable => exact f.fd_getSymbolTable
  | runDisassembler => exact f.fd_getSymbolTable

theorem repeats_callAll {fd : Bfd} {calls : List Call} {f : ExecutableFile} (hfd : f.fd = fd)
    (hlen : f.basicBlockBuffer.items.length = calls.count .runDisassembler * blocksPerRun fd) :
    Repeats f := by
  refine repeats ?_
  rw [hfd]
  by_cases hr : (first fd).raised = none
  · exact Or.inl hr
  · rw [blocksPerRun_of_raised hr, Nat.mul_zero] at hlen
    exact Or.inr (List.length_eq_zero_iff.mp hlen)

/-- Each run adds the blocks of the first one. -/
theorem length_callAll (fd : Bfd) (calls : List Call) :
    ((ExecutableFile.new fd).callAll calls).fd = fd ∧
      ((ExecutableFile.new fd).callAll calls).basicBlockBuffer.items.length =
        calls.count .runDisassembler * blocksPerRun fd := by
  induction calls using List.reverseRecOn with
  | nil => exact ⟨rfl, (Nat.zero_mul _).symm⟩
  | append_singleton calls c ih =>
      obtain ⟨hfd, hlen⟩ := ih
      rw [callAll_concat, List.count_append]
      refine ⟨(fd_call _ c).trans hfd, ?_⟩
      have hkeep : ∀ f : ExecutableFile, f.getSymbolTable.basicBlockBuffer = f.basicBlockBuffer :=
        fun f => f.basicBlockBuffer_getSymbolTable
      cases c with
      | getSymbolTable =>
          rw [call, hkeep, hlen]
          simp
      | generateTable =>
          rw [call, generateTable, hkeep, hlen]
          simp
      | runDisassembler =>
          have hrep := (repeats_callAll hfd hlen).blocks
          rw [call, hrep, List.length_append, List.length_map, hlen, hfd, List.count_singleton_self,
            Nat.add_mul, Nat.one_mul]
          rfl

/-- **Every run is the first one again**, whatever was called before, with its own copies of the
blocks. -/
theorem runs_repeat (fd : Bfd) (calls : List Call) :
    let f := (ExecutableFile.new fd).callAll calls
    let n := calls.count .runDisassembler * blocksPerRun fd
    f.runDisassembler.raised = (first fd).raised ∧
      f.runDisassembler.out = (first fd).out.map (Instruction.shift n) ∧
      f.runDisassembler.state.basicBlockBuffer.items = f.basicBlockBuffer.items ++
        (first fd).state.basicBlockBuffer.items.map (BasicBlock.shift n) := by
  intro f n
  obtain ⟨hfd, hlen⟩ := length_callAll fd calls
  obtain ⟨hraised, hout, hblocks⟩ := repeats_callAll hfd hlen
  rw [hfd] at hraised hout hblocks
  rw [hlen] at hout hblocks
  exact ⟨hraised, hout, hblocks⟩

end ExecutableFile

end Befa
