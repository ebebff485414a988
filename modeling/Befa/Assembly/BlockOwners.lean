import Befa.Assembly.BlockCuts
import Befa.Assembly.RunDisassembler

/-!
# Who owns a block

All symbols of a run share one buffer of blocks, and an instruction takes the last block of it.
So an instruction that comes before its symbol opened a block takes one of an earlier symbol, or
raises when there is none.

A symbol opens a block on its first instruction when no boundary of it lies below it
(`opens_first_iff`).  Then all its instructions take its own blocks, and what was decoded before
plays no part.  `owned_iff` says that a run behaves so for every buffer it starts from exactly
when this holds of every window, and no offset overflows there.
-/

namespace Befa

variable {sym : Symbol}

/-- What an instruction says about its block: its address, the block's, and the owner. -/
def Instruction.placed (i : Instruction) : Vma × Vma × Symbol :=
  (i.address, i.parent.id, i.parent.parent)

/-- In a run from `f` every instruction takes a block of the symbol that is decoded, as if that
symbol were decoded alone, and nothing raises. -/
structure ExecutableFile.Owned (f : ExecutableFile) : Prop where
  raised : f.runDisassembler.raised = none
  /-- The owner of a block is the symbol at hand. -/
  owner : ∀ v ∈ f.decodes, ∀ i ∈ v.result.out, i.parent.parent = v.input.1
  /-- The blocks do not depend on the symbols decoded before. -/
  alone : ∀ v ∈ f.decodes,
    v.result.out.map Instruction.placed =
      (fetchWindow f.fd v.input .nil).out.map Instruction.placed

/-! ## One symbol -/

/-- After the first block of a symbol every block is of that symbol. -/
theorem emitAll_owner {is : List Loaded} {s : EmitState} {bb : BasicBlock}
    (hb : s.blocks.back = some bb) (hp : bb.parent = sym) :
    ∀ e ∈ (emitAll (emitInstr sym) is s).out, e.parent.parent = sym := by
  induction is generalizing s bb with
  | nil => exact fun e he => absurd he List.not_mem_nil
  | cons i is ih =>
      intro e he
      by_cases h : Opens s i.address
      · rw [emitAll_cons, emitInstr_of_opens h, Emitted.andThen_of_none rfl] at he
        cases List.mem_cons.mp he with
        | inl he => rw [he]
        | inr he => exact ih (back_of_opens h) rfl e he
      · rw [emitAll_cons, emitInstr_of_joins h hb, Emitted.andThen_of_none rfl] at he
        cases List.mem_cons.mp he with
        | inl he => rw [he]; exact hp
        | inr he => exact ih (back_of_joins h hb) hp e he

/-- Two states at one place in the boundaries, whose last blocks agree but for the pointer. -/
def Alike (s t : EmitState) : Prop :=
  s.cursor = t.cursor ∧ ∃ bb bb', s.blocks.back = some bb ∧ t.blocks.back = some bb' ∧
    bb.id = bb'.id ∧ bb.parent = bb'.parent

/-- Rounds keep states alike and place the instruction alike. -/
theorem emitInstr_alike (sym : Symbol) (i : Loaded) {s t : EmitState} (h : Alike s t) :
    (emitInstr sym i s).raised = (emitInstr sym i t).raised ∧
      Alike (emitInstr sym i s).state (emitInstr sym i t).state ∧
      List.Forall₂ (fun e e' => e.placed = e'.placed) (emitInstr sym i s).out
        (emitInstr sym i t).out := by
  obtain ⟨hc, bb, bb', hb, hb', hid, hp⟩ := h
  have hcur : (openBlock sym i.address s).cursor = (openBlock sym i.address t).cursor := by
    rw [openBlock_cursor, openBlock_cursor, hc]
  by_cases ho : Opens s i.address
  · have ho' : Opens t i.address := by rwa [Opens, ← hc]
    rw [emitInstr_of_opens ho, emitInstr_of_opens ho']
    exact ⟨rfl, ⟨hcur, _, _, back_of_opens ho, back_of_opens ho', rfl, rfl⟩, .cons rfl .nil⟩
  · have ho' : ¬Opens t i.address := by rwa [Opens, ← hc]
    rw [emitInstr_of_joins ho hb, emitInstr_of_joins ho' hb']
    exact ⟨rfl, ⟨hcur, bb, bb', back_of_joins ho hb, back_of_joins ho' hb', hid, hp⟩,
      .cons (by simp [Instruction.placed, hid, hp]) .nil⟩

/-- The blocks a round leaves are the old ones and blocks of the symbol. -/
theorem emitInstr_blocks (i : Loaded) (s : EmitState) :
    ∀ bb ∈ (emitInstr sym i s).state.blocks.items, bb ∈ s.blocks.items ∨ bb.parent = sym := by
  intro bb hbb
  rw [emitInstr_state] at hbb
  by_cases ho : Opens s i.address
  · rw [openBlock_of_opens ho, Blocks.add, List.mem_append, List.mem_singleton] at hbb
    exact hbb.imp id fun he => by rw [he]
  · rw [openBlock_of_not ho] at hbb
    exact Or.inl hbb

theorem emitInstrs_blocks (c : Collected) (blocks : Blocks) :
    ∀ bb ∈ (emitInstrs sym c blocks).state.items, bb ∈ blocks.items ∨ bb.parent = sym := by
  refine emitAll_invariant (I := fun s : EmitState =>
    ∀ bb ∈ s.blocks.items, bb ∈ blocks.items ∨ bb.parent = sym) (fun i _ t ht bb hbb => ?_)
    fun bb hbb => Or.inl hbb
  cases emitInstr_blocks i t bb hbb with
  | inl hold => exact ht bb hold
  | inr hown => exact Or.inr hown

theorem emitInstrs_of_opens (sym : Symbol) {c : Collected} {blocks : Blocks} {i : Loaded}
    {is : List Loaded}
    (hi : c.instructions = i :: is) (ho : Opens ⟨c.boundaries.items, blocks⟩ i.address) :
    ∃ s bb, s.cursor = advance c.boundaries.items i.address ∧ s.blocks.back = some bb ∧
      bb.id = i.address ∧ bb.parent = sym ∧
      (emitInstrs sym c blocks).raised = (emitAll (emitInstr sym) is s).raised ∧
      (emitInstrs sym c blocks).out =
        ⟨i.bytes, bb, i.decoded, i.address⟩ :: (emitAll (emitInstr sym) is s).out := by
  refine ⟨openBlock sym i.address ⟨c.boundaries.items, blocks⟩, _, openBlock_cursor ..,
    back_of_opens ho, rfl, rfl, ?_, ?_⟩
  · rw [emitInstrs, hi, emitAll_cons, emitInstr_of_opens ho, Emitted.andThen_of_none rfl]
  · rw [emitInstrs, hi, emitAll_cons, emitInstr_of_opens ho, Emitted.andThen_of_none rfl]
    rfl

section Fetch

variable {dis : Disassembler} {info : DisassembleInfo} {symSize : Vma} {blocks : Blocks}

/-- Without a boundary below it a symbol takes its own blocks. -/
theorem fetch_owner
    (h : NoneBelow sym.getAddress (yieldsOf dis info sym.getAddress symSize)) :
    (fetch (some dis) sym info symSize blocks).raised = none ∧
      ∀ e ∈ (fetch (some dis) sym info symSize blocks).out, e.parent.parent = sym := by
  have hr : (fetch (some dis) sym info symSize blocks).raised = none :=
    of_not_not fun hn => (fetch_raised_iff.mp hn).2.2 h
  refine ⟨hr, ?_⟩
  have hi := decode_instructions dis info sym.getAddress symSize
  cases hy : yieldsOf dis info sym.getAddress symSize with
  | nil =>
      rw [hy, List.map_nil] at hi
      rw [fetch_some, emitInstrs, hi]
      exact fun e he => absurd he List.not_mem_nil
  | cons y ys =>
      rw [hy, List.map_cons] at hi
      obtain ⟨s, bb, _, hb, _, hp, _, hout⟩ :=
        emitInstrs_of_opens sym hi ((opens_first_iff blocks hy).mpr h)
      rw [fetch_some, hout]
      intro e he
      cases List.mem_cons.mp he with
      | inl he => rw [he]; exact hp
      | inr he => exact emitAll_owner hb hp e he

/-- Without a boundary below it a symbol is placed the same in every buffer. -/
theorem fetch_alone (blocks' : Blocks)
    (h : NoneBelow sym.getAddress (yieldsOf dis info sym.getAddress symSize)) :
    (fetch (some dis) sym info symSize blocks).out.map Instruction.placed =
      (fetch (some dis) sym info symSize blocks').out.map Instruction.placed := by
  have hi := decode_instructions dis info sym.getAddress symSize
  rw [fetch_some, fetch_some]
  cases hy : yieldsOf dis info sym.getAddress symSize with
  | nil =>
      rw [hy, List.map_nil] at hi
      rw [emitInstrs, emitInstrs, hi]
      rfl
  | cons y ys =>
      rw [hy, List.map_cons] at hi
      obtain ⟨s, bb, hc, hb, hid, hp, _, hout⟩ :=
        emitInstrs_of_opens sym hi ((opens_first_iff blocks hy).mpr h)
      obtain ⟨s', bb', hc', hb', hid', hp', _, hout'⟩ :=
        emitInstrs_of_opens sym hi ((opens_first_iff blocks' hy).mpr h)
      have halike : Alike s s' := ⟨hc.trans hc'.symm, bb, bb', hb, hb', hid.trans hid'.symm,
        hp.trans hp'.symm⟩
      have hrest := (emitAll_rel (fun i s t => emitInstr_alike sym i)
        (ys.map (Yield.loaded info sym.getAddress)) halike).2.2
      rw [← List.forall₂_map_right_iff, ← List.forall₂_map_left_iff, List.forall₂_eq_eq_eq]
        at hrest
      rw [hout, hout', List.map_cons, List.map_cons, hrest]
      simp [Instruction.placed, hid, hid', hp, hp']

/-- A symbol with a boundary below it starts with a block that was there before. -/
theorem fetch_joins {bb : BasicBlock} (hb : blocks.back = some bb)
    (h : ¬NoneBelow sym.getAddress (yieldsOf dis info sym.getAddress symSize)) :
    ∃ e ∈ (fetch (some dis) sym info symSize blocks).out, e.parent = bb := by
  have hi := decode_instructions dis info sym.getAddress symSize
  cases hy : yieldsOf dis info sym.getAddress symSize with
  | nil => exact absurd (hy ▸ noneBelow_nil _) h
  | cons y ys =>
      rw [hy, List.map_cons] at hi
      have ho := mt (opens_first_iff blocks hy).mp h
      rw [fetch_some, emitInstrs, hi, emitAll_cons, emitInstr_of_joins ho hb,
        Emitted.andThen_of_none rfl]
      exact ⟨_, List.mem_cons_self .., rfl⟩

end Fetch

/-- The blocks `fetch` leaves are the old ones and blocks of its symbol. -/
theorem fetch_blocks (dis : Option Disassembler) (sym : Symbol) (info : DisassembleInfo)
    (symSize : Vma) (blocks : Blocks) :
    ∀ bb ∈ (fetch dis sym info symSize blocks).state.items,
      bb ∈ blocks.items ∨ bb.parent = sym := by
  cases dis with
  | none => exact fun bb hbb => Or.inl hbb
  | some dis => exact emitInstrs_blocks _ blocks

/-! ## The run -/

/-- After a loop over some windows every block is old or belongs to one of their symbols. -/
theorem emitAll_fetchWindow_blocks (fd : Bfd) (ws : List (Symbol × Vma)) (blocks : Blocks) :
    ∀ bb ∈ (emitAll (fetchWindow fd) ws blocks).state.items,
      bb ∈ blocks.items ∨ ∃ w ∈ ws, bb.parent = w.1 := by
  refine emitAll_invariant (I := fun b : Blocks =>
    ∀ bb ∈ b.items, bb ∈ blocks.items ∨ ∃ w ∈ ws, bb.parent = w.1) (fun w hw t ht bb hbb => ?_)
    fun bb hbb => Or.inl hbb
  cases fetch_blocks fd.disassembler w.1 (sectionInfo fd w.1.parent) w.2 t bb hbb with
  | inl hold => exact ht bb hold
  | inr hown => exact Or.inr ⟨w, hw, hown⟩

/-- A run whose windows have no boundary below their symbols owns its blocks. -/
theorem ExecutableFile.owned_of_noneBelow {f : ExecutableFile} {dis : Disassembler}
    (hfd : f.fd.disassembler = some dis)
    (h : ∀ w ∈ windows (symbolTable f.fd.symbols),
      NoneBelow w.1.getAddress (windowYields f.fd dis w)) : f.Owned := by
  have hvisit : ∀ v ∈ f.decodes, v.result = fetchWindow f.fd v.input v.before ∧
      NoneBelow v.input.1.getAddress (windowYields f.fd dis v.input) :=
    fun v hv => ⟨visit_result hv, h _ (visit_input_mem hv)⟩
  refine ⟨?_, fun v hv => ?_, fun v hv => ?_⟩
  · rw [(ExecutableFile.runDisassembler_eq _).2.1, emitAll_raised]
    intro v hv
    rw [(hvisit v hv).1, fetchWindow, hfd]
    exact (fetch_owner (hvisit v hv).2).1
  · rw [(hvisit v hv).1, fetchWindow, hfd]
    exact (fetch_owner (hvisit v hv).2).2
  · rw [(hvisit v hv).1, fetchWindow, fetchWindow, hfd]
    exact fetch_alone .nil (hvisit v hv).2

/-- A run from a new file that owns its blocks has no boundary below the symbol of a window. -/
theorem ExecutableFile.noneBelow_of_owned {fd : Bfd} {dis : Disassembler}
    (hfd : fd.disassembler = some dis) (hown : (ExecutableFile.new fd).Owned) :
    ∀ w ∈ windows (symbolTable fd.symbols), NoneBelow w.1.getAddress (windowYields fd dis w) := by
  intro w hw
  by_contra hbelow
  -- the run comes to the window with blocks of the windows before it only
  have hr := (ExecutableFile.runDisassembler_eq _).2.1.symm.trans hown.raised
  obtain ⟨pre, post, hsplit⟩ := List.append_of_mem hw
  have hv := hsplit ▸ visit_of_append (hsplit ▸ hr)
  have hnr := (emitAll_raised ..).mp hr _ hv
  have hfetch : ∀ blocks, fetchWindow fd w blocks =
      fetch (some dis) w.1 (sectionInfo fd w.1.parent) w.2 blocks := by
    intro blocks
    rw [fetchWindow, hfd]
  have hitems : (emitAll (fetchWindow fd) pre .nil).state.items ≠ [] := by
    refine fun he => fetch_raised_iff.mpr ⟨fun hn => hbelow ?_, he, hbelow⟩ (hfetch _ ▸ hnr)
    rw [windowYields, hn]
    exact noneBelow_nil _
  obtain ⟨bb, hbb⟩ := Option.ne_none_iff_exists'.mp (mt Blocks.back_eq_none.mp hitems)
  obtain ⟨e, he, hp⟩ := fetch_joins hbb hbelow
  have howner := hown.owner _ hv e (hfetch _ ▸ he)
  have hbb' := emitAll_fetchWindow_blocks _ pre .nil bb (List.mem_of_getLast? hbb)
  obtain ⟨w', hw', hparent⟩ := hbb'.resolve_left List.not_mem_nil
  have hlt := (List.pairwise_append.mp (hsplit ▸ windows_sorted fd.symbols)).2.2 w' hw' w
    (List.mem_cons_self ..)
  rw [← hparent, ← hp, howner] at hlt
  exact lt_irrefl _ hlt

/-- **Every run over a file has a result, with its instructions in blocks of the symbol that is
decoded, exactly when in no window an offset overflows or a boundary lies below the symbol.** -/
theorem owned_iff (syms : List Asymbol) (contents : Asection → Nat → UInt8) (dis : Disassembler) :
    (∀ f : ExecutableFile, f.fd = ⟨syms, contents, some dis⟩ →
      f.runChecked = some f.runDisassembler ∧ f.Owned) ↔
      ∀ w ∈ windows (symbolTable syms),
        NoOverflow (windowYields ⟨syms, contents, some dis⟩ dis w) ∧
          NoneBelow w.1.getAddress (windowYields ⟨syms, contents, some dis⟩ dis w) := by
  constructor
  · intro hall w hw
    obtain ⟨hrun, hown⟩ := hall (.new ⟨syms, contents, some dis⟩) rfl
    have hr := (ExecutableFile.runDisassembler_eq _).2.1.symm.trans hown.raised
    have hvisited : w ∈ (ExecutableFile.new ⟨syms, contents, some dis⟩).decodes.map (·.input) :=
      (visits_input hr).symm ▸ hw
    obtain ⟨v, hv, rfl⟩ := List.mem_map.mp hvisited
    exact ⟨(windowFits_iff rfl).mp ((ExecutableFile.runChecked_eq_some hrun).1 v hv),
      ExecutableFile.noneBelow_of_owned rfl hown v.input hw⟩
  · rintro hall ⟨fd, secs, table, blocks, filled⟩ rfl
    refine ⟨?_, ExecutableFile.owned_of_noneBelow rfl fun w hw => (hall w hw).2⟩
    rw [ExecutableFile.runChecked_eq, if_pos]
    exact fun v hv => (windowFits_iff rfl).mpr (hall _ (visit_input_mem hv)).1

/-! ## A block of another symbol -/

/-- Two functions, the second of which jumps to the first. -/
def jumpBack : Bfd where
  symbols := [(functionAt "f".toList 0).origin, (functionAt "g".toList 8).origin]
  contents := fun _ _ => 0
  disassembler := some fun _ address =>
    if address = 0x1000 then instrOf 1 "nop"
    else if address = 0x1008 then instrOf 2 "jmp    0x1000"
    else ⟨0, []⟩

/-- The instruction of the second function takes the block of the first. -/
theorem jumpBack_not_owned :
    (ExecutableFile.new jumpBack).runChecked =
        some (ExecutableFile.new jumpBack).runDisassembler ∧
      ¬(ExecutableFile.new jumpBack).Owned := by
  rw [ExecutableFile.runChecked_eq, if_pos (by decide +kernel)]
  exact ⟨rfl, fun h => absurd h.owner (by decide +kernel)⟩

end Befa
