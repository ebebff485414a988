import Befa.Assembly.DecodeLoop
import Befa.Lib.Cursor

/-!
# What the second loop emits

The cursor of the second loop moves as `advance` says, so `head?_foldl_advance` tells which
instructions find it.  An instruction that does opens a block, every other one joins the block
before it.

The loop can raise on its first instruction only, when there is no block at all.
`fetch_raised_iff` says when that is: the buffer of blocks is empty and some boundary lies below
the symbol.  Otherwise every instruction is emitted (`fetch_loaded`).
-/

namespace Befa

variable {sym : Symbol}

/-! ## One round -/

/-- The instruction at hand opens a block. -/
def Opens (s : EmitState) (address : Vma) : Prop := s.cursor.head? = some address

instance (s : EmitState) (address : Vma) : Decidable (Opens s address) :=
  inferInstanceAs (Decidable (_ = _))

theorem opens_mk {cursor : List Vma} {blocks : Blocks} {address : Vma} :
    Opens ⟨cursor, blocks⟩ address ↔ cursor.head? = some address := Iff.rfl

theorem openBlock_cursor (address : Vma) (s : EmitState) :
    (openBlock sym address s).cursor = advance s.cursor address := by
  obtain ⟨cursor, blocks⟩ := s
  cases cursor with
  | nil => rfl
  | cons bba rest =>
      simp only [openBlock, advance]
      split <;> rfl

theorem openBlock_of_opens {address : Vma} {s : EmitState} (h : Opens s address) :
    (openBlock sym address s).blocks = s.blocks.add address sym := by
  obtain ⟨rest, hr⟩ := List.head?_eq_some_iff.mp h
  simp [openBlock, hr]

theorem openBlock_of_not {address : Vma} {s : EmitState} (h : ¬Opens s address) :
    (openBlock sym address s).blocks = s.blocks := by
  unfold openBlock
  split
  · rfl
  · rename_i bba rest hc
    have hne : address ≠ bba := fun he => h (by simp [Opens, hc, he])
    rw [if_neg hne]

theorem back_of_opens {address : Vma} {s : EmitState} (h : Opens s address) :
    (openBlock sym address s).blocks.back = some ⟨s.blocks.items.length, address, sym⟩ := by
  rw [openBlock_of_opens h, Blocks.back_add]

theorem back_of_joins {address : Vma} {s : EmitState} {bb : BasicBlock} (h : ¬Opens s address)
    (hb : s.blocks.back = some bb) : (openBlock sym address s).blocks.back = some bb := by
  rw [openBlock_of_not h, hb]

theorem emitInstr_of_back {i : Loaded} {s : EmitState} {bb : BasicBlock}
    (h : (openBlock sym i.address s).blocks.back = some bb) :
    emitInstr sym i s =
      ⟨openBlock sym i.address s, [⟨i.bytes, bb, i.decoded, i.address⟩], none⟩ := by
  simp [emitInstr, h]

theorem emitInstr_of_opens {i : Loaded} {s : EmitState} (h : Opens s i.address) :
    emitInstr sym i s = ⟨openBlock sym i.address s,
      [⟨i.bytes, ⟨s.blocks.items.length, i.address, sym⟩, i.decoded, i.address⟩], none⟩ :=
  emitInstr_of_back (back_of_opens h)

theorem emitInstr_of_joins {i : Loaded} {s : EmitState} {bb : BasicBlock}
    (h : ¬Opens s i.address) (hb : s.blocks.back = some bb) :
    emitInstr sym i s =
      ⟨openBlock sym i.address s, [⟨i.bytes, bb, i.decoded, i.address⟩], none⟩ :=
  emitInstr_of_back (back_of_joins h hb)

/-- A round leaves the cursor and the blocks alike, whether it raises or not. -/
theorem emitInstr_state (i : Loaded) (s : EmitState) :
    (emitInstr sym i s).state = openBlock sym i.address s := by
  unfold emitInstr
  dsimp only
  split <;> rfl

theorem emitInstr_of_none (sym : Symbol) {i : Loaded} {s : EmitState} (h : ¬Opens s i.address)
    (hb : s.blocks.back = none) :
    (emitInstr sym i s).raised ≠ none ∧ (emitInstr sym i s).out = [] := by
  simp [emitInstr, openBlock_of_not h, hb]

theorem emitInstr_emits (sym : Symbol) {i : Loaded} {s : EmitState}
    (h : Opens s i.address ∨ s.blocks.back ≠ none) :
    ∃ bb, (openBlock sym i.address s).blocks.back = some bb ∧
      emitInstr sym i s =
        ⟨openBlock sym i.address s, [⟨i.bytes, bb, i.decoded, i.address⟩], none⟩ := by
  by_cases ho : Opens s i.address
  · exact ⟨_, back_of_opens ho, emitInstr_of_opens ho⟩
  · obtain ⟨bb, hbb⟩ := Option.ne_none_iff_exists'.mp (h.resolve_left ho)
    exact ⟨bb, back_of_joins ho hbb, emitInstr_of_joins ho hbb⟩

/-! ## The loop -/

/-- The tuple an instruction was emitted for. -/
def Instruction.loaded (e : Instruction) : Loaded := ⟨e.bytes, e.decoded, e.address⟩

/-- With a block to start from the loop emits every instruction. -/
theorem emitAll_emitInstr (sym : Symbol) (is : List Loaded) {s : EmitState}
    (hb : s.blocks.back ≠ none) :
    (emitAll (emitInstr sym) is s).raised = none ∧
      (emitAll (emitInstr sym) is s).out.map Instruction.loaded = is := by
  induction is generalizing s with
  | nil => exact ⟨rfl, rfl⟩
  | cons i is ih =>
      obtain ⟨bb, hbb, he⟩ := emitInstr_emits sym (i := i) (Or.inr hb)
      obtain ⟨hr, ho⟩ := ih (hbb ▸ Option.some_ne_none bb)
      rw [emitAll_cons, he, Emitted.andThen_of_none rfl]
      exact ⟨hr, by simp [ho, Instruction.loaded]⟩

/-- The second loop raises when its first instruction finds neither a block nor the cursor. -/
theorem emitInstrs_raised (sym : Symbol) {c : Collected} {blocks : Blocks} :
    (emitInstrs sym c blocks).raised ≠ none ↔ ∃ i is, c.instructions = i :: is ∧
      blocks.items = [] ∧ ¬Opens ⟨c.boundaries.items, blocks⟩ i.address := by
  rw [emitInstrs, ← Blocks.back_eq_none]
  cases hi : c.instructions with
  | nil => simp
  | cons i is =>
      by_cases h : blocks.back = none ∧ ¬Opens ⟨c.boundaries.items, blocks⟩ i.address
      · obtain ⟨e, he⟩ := Option.ne_none_iff_exists'.mp (emitInstr_of_none sym h.2 h.1).1
        rw [emitAll_cons, Emitted.andThen_of_some he, he]
        exact iff_of_true (Option.some_ne_none _) ⟨i, is, rfl, h⟩
      · have hemit : Opens ⟨c.boundaries.items, blocks⟩ i.address ∨ blocks.back ≠ none := by
          by_contra hc
          exact h ⟨of_not_not fun hb => hc (Or.inr hb), fun ho => hc (Or.inl ho)⟩
        obtain ⟨bb, hbb, he⟩ := emitInstr_emits sym hemit
        have hr := (emitAll_emitInstr sym is (hbb ▸ Option.some_ne_none bb)).1
        rw [emitAll_cons, he, Emitted.andThen_of_none rfl]
        refine iff_of_false (fun hn => hn hr) ?_
        intro ⟨_, _, hcons, hbad⟩
        exact h ((List.cons.inj hcons).1 ▸ hbad)

theorem emitInstrs_out_of_raised {c : Collected} {blocks : Blocks}
    (h : (emitInstrs sym c blocks).raised ≠ none) : (emitInstrs sym c blocks).out = [] := by
  obtain ⟨i, is, hi, hb, ho⟩ := (emitInstrs_raised sym).mp h
  obtain ⟨hr, hout⟩ := emitInstr_of_none sym ho (Blocks.back_eq_none.mpr hb)
  obtain ⟨e, he⟩ := Option.ne_none_iff_exists'.mp hr
  rw [emitInstrs, hi, emitAll_cons, Emitted.andThen_of_some he, hout]

theorem emits_first {c : Collected} {blocks : Blocks} {i : Loaded} {is : List Loaded}
    (h : (emitInstrs sym c blocks).raised = none) (hi : c.instructions = i :: is) :
    Opens ⟨c.boundaries.items, blocks⟩ i.address ∨ blocks.back ≠ none := by
  by_contra hc
  refine (emitInstrs_raised sym).mpr ⟨i, is, hi, Blocks.back_eq_none.mp ?_, ?_⟩ h
  · exact of_not_not fun hb => hc (Or.inr hb)
  · exact fun ho => hc (Or.inl ho)

theorem emitInstrs_loaded {c : Collected} {blocks : Blocks}
    (h : (emitInstrs sym c blocks).raised = none) :
    (emitInstrs sym c blocks).out.map Instruction.loaded = c.instructions := by
  cases hi : c.instructions with
  | nil => rw [emitInstrs, hi]; rfl
  | cons i is =>
      obtain ⟨bb, hbb, he⟩ := emitInstr_emits sym (emits_first h hi)
      have hout := (emitAll_emitInstr sym is (hbb ▸ Option.some_ne_none bb)).2
      rw [emitInstrs, hi, emitAll_cons, he, Emitted.andThen_of_none rfl]
      simp [hout, Instruction.loaded]

/-! ## The loop over the yields -/

section Fetch

variable {dis : Disassembler} {info : DisassembleInfo} {a symSize : Vma} {blocks : Blocks}

theorem fetch_some {sym : Symbol} :
    fetch (some dis) sym info symSize blocks =
      emitInstrs sym (decode dis info sym.getAddress symSize) blocks := rfl

/-- A cursor into the boundaries, when the yields before `y` have passed. -/
theorem cursor_at_iff {pre post : List Yield} {y : Yield}
    (h : yieldsOf dis info a symSize = pre ++ y :: post) :
    ((pre.map (·.address a)).foldl advance (decode dis info a symSize).boundaries.items).head? =
        some (y.address a) ↔
      IsBoundary a (yieldsOf dis info a symSize) (y.address a) ∧
        ∀ x, IsBoundary a (yieldsOf dis info a symSize) x → x < y.address a →
          ∃ z ∈ pre, z.address a = x := by
  have hne := yieldsOf_address_ne dis info a symSize
  have hlt := yieldsOf_offsets dis info a symSize
  have hy : y.offset < 2 ^ 31 := yieldsOf_offset_lt (h ▸ List.mem_append_right _ (by simp))
  rw [h] at hne hlt
  have hpy : ∀ z ∈ pre, z.address a ≠ y.address a ∧ z.offset < y.offset := fun z hz =>
    ⟨(List.pairwise_append.mp hne).2.2 z hz y (List.mem_cons_self ..),
      (List.pairwise_append.mp hlt).2.2 z hz y (List.mem_cons_self ..)⟩
  rw [head?_foldl_advance (decode dis info a symSize).boundaries.sorted]
  · simp only [← OrdSet.mem_def, mem_decode_boundaries, List.mem_map]
  · intro hm
    obtain ⟨z, hz, he⟩ := List.mem_map.mp hm
    exact (hpy z hz).1 he
  · -- an address below an earlier one has wrapped around, and the later ones have too
    rw [List.pairwise_map]
    refine (List.pairwise_append.mp hlt).1.imp_of_mem fun {q r} _ hr hqr hlow => ?_
    exact address_lt_of_wrapped hqr (hpy r hr).2 hy hlow

/-- No boundary of the symbol at `a` lies below it. -/
def NoneBelow (a : Vma) (ys : List Yield) : Prop := ∀ x, IsBoundary a ys x → a ≤ x

theorem noneBelow_nil (a : Vma) : NoneBelow a [] := by
  rintro x (rfl | ⟨_, hy, _⟩)
  · exact le_refl _
  · exact absurd hy List.not_mem_nil

/-- The first instruction of a symbol opens a block when no boundary lies below the symbol. -/
theorem opens_first_iff (blocks : Blocks) {y : Yield} {ys : List Yield}
    (h : yieldsOf dis info a symSize = y :: ys) :
    Opens ⟨(decode dis info a symSize).boundaries.items, blocks⟩ (y.address a) ↔
      NoneBelow a (yieldsOf dis info a symSize) := by
  have hc := cursor_at_iff (List.nil_append (y :: ys) ▸ h)
  rw [List.map_nil, List.foldl_nil] at hc
  rw [opens_mk, hc, yieldsOf_head h]
  constructor
  · intro ⟨_, hall⟩ x hx
    refine le_of_not_gt fun hlt => ?_
    obtain ⟨z, hz, _⟩ := hall x hx hlt
    exact List.not_mem_nil hz
  · intro hall
    exact ⟨isBoundary_self .., fun x hx hlt => absurd hlt (not_lt.mpr (hall x hx))⟩

/-- `fetch` raises when it has an instruction, no block to use, and a boundary below the
symbol. -/
theorem fetch_raised_iff {sym : Symbol} :
    (fetch (some dis) sym info symSize blocks).raised ≠ none ↔
      yieldsOf dis info sym.getAddress symSize ≠ [] ∧ blocks.items = [] ∧
        ¬NoneBelow sym.getAddress (yieldsOf dis info sym.getAddress symSize) := by
  refine (emitInstrs_raised sym).trans ?_
  rw [decode_instructions]
  cases h : yieldsOf dis info sym.getAddress symSize with
  | nil => simp
  | cons y ys =>
      have ho := opens_first_iff blocks h
      rw [h] at ho
      rw [← ho]
      constructor
      · intro ⟨i, is, hi, hbad⟩
        obtain rfl := (List.cons.inj hi).1
        exact ⟨List.cons_ne_nil y ys, hbad⟩
      · intro ⟨_, hbad⟩
        exact ⟨_, _, List.map_cons, hbad⟩

/-- Otherwise it emits what the disassembler yields. -/
theorem fetch_loaded {sym : Symbol}
    (h : (fetch (some dis) sym info symSize blocks).raised = none) :
    (fetch (some dis) sym info symSize blocks).out.map Instruction.loaded =
      (yieldsOf dis info sym.getAddress symSize).map (Yield.loaded info sym.getAddress) :=
  (emitInstrs_loaded h).trans (decode_instructions ..)

end Fetch

end Befa
