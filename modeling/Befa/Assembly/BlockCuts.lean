import Befa.Assembly.EmitLoop

/-!
# Where blocks are cut

An instruction is *cut* from the one emitted before it when it comes with a new block that has its
address.  The second loop should cut at the boundaries and nowhere else.  It never cuts elsewhere,
but it can miss one.  A boundary that is no instruction start stops the cursor, and the boundaries
behind it are lost.

`fetch_cuts_iff` gives the exact condition.  The boundaries that matter are those at an
instruction after the first one.  Every boundary below such an instruction has to be the address
of an instruction before it (`BoundariesMet`).  And there is a result only when no offset of the
first loop overflows.
-/

namespace Befa

variable {sym : Symbol}

/-- `b` comes with a new block, where `a` comes before it, exactly when `B` holds of its
address. -/
def Cut (B : Vma → Prop) (a b : Instruction) : Prop :=
  (b.parent.ptr ≠ a.parent.ptr ∧ b.parent.id = b.address) ↔ B b.address

instance (B : Vma → Prop) [DecidablePred B] : DecidableRel (Cut B) :=
  fun _ _ => inferInstanceAs (Decidable (_ ↔ _))

instance (a : Vma) (ys : List Yield) : DecidablePred (IsBoundary a ys) :=
  fun _ => inferInstanceAs (Decidable (_ ∨ _))

/-- Every boundary below an instruction that is one, the first instruction apart, is the address
of an instruction before it. -/
def BoundariesMet (a : Vma) (ys : List Yield) : Prop :=
  ∀ pre y post, ys = pre ++ y :: post → pre ≠ [] → IsBoundary a ys (y.address a) →
    ∀ x, IsBoundary a ys x → x < y.address a → ∃ z ∈ pre, z.address a = x

/-- An instruction is cut from the one before it when it opens a block. -/
theorem cut_emitted (sym : Symbol) {B : Vma → Prop} {prev : Instruction} {i : Loaded} {s : EmitState}
    (hb : s.blocks.back = some prev.parent) :
    ∃ e, emitInstr sym i s = ⟨openBlock sym i.address s, [e], none⟩ ∧
      (openBlock sym i.address s).blocks.back = some e.parent ∧
      (Cut B prev e ↔ (Opens s i.address ↔ B i.address)) := by
  by_cases h : Opens s i.address
  · refine ⟨_, emitInstr_of_opens h, back_of_opens h, ?_⟩
    have hnew := (Blocks.ptr_lt (List.mem_of_getLast? hb)).ne'
    simp [Cut, h, hnew]
  · refine ⟨_, emitInstr_of_joins h hb, back_of_joins h hb, ?_⟩
    simp [Cut, h]

/-- The second loop, after `prev`, cuts at `B` when the instructions that open a block are those
in `B`. -/
theorem emitAll_cut_iff {B : Vma → Prop} (is : List Loaded) {s : EmitState} {prev : Instruction}
    (hb : s.blocks.back = some prev.parent) :
    (prev :: (emitAll (emitInstr sym) is s).out).IsChain (Cut B) ↔
      ∀ pre i post, is = pre ++ i :: post →
        (((pre.map (·.address)).foldl advance s.cursor).head? = some i.address ↔ B i.address) := by
  induction is generalizing s prev with
  | nil => simp
  | cons i is ih =>
      obtain ⟨e, he, hbe, hcut⟩ := cut_emitted sym (B := B) (i := i) hb
      rw [emitAll_cons, he, Emitted.andThen_of_none rfl, List.singleton_append,
        List.isChain_cons_cons, hcut, ih hbe, openBlock_cursor]
      constructor
      · intro ⟨hi, hrest⟩ pre j post hsplit
        cases pre with
        | nil =>
            obtain ⟨rfl, rfl⟩ := List.cons.inj hsplit
            exact hi
        | cons p pre =>
            obtain ⟨rfl, rfl⟩ := List.cons.inj hsplit
            exact hrest pre j post rfl
      · intro hall
        exact ⟨hall [] i is rfl, fun pre j post hsplit =>
          hall (i :: pre) j post (congrArg (i :: ·) hsplit)⟩

theorem emitInstrs_cut_iff {B : Vma → Prop} {c : Collected} {blocks : Blocks}
    (hr : (emitInstrs sym c blocks).raised = none) :
    (emitInstrs sym c blocks).out.IsChain (Cut B) ↔
      ∀ pre i post, c.instructions = pre ++ i :: post → pre ≠ [] →
        (((pre.map (·.address)).foldl advance c.boundaries.items).head? = some i.address ↔
          B i.address) := by
  cases hi : c.instructions with
  | nil => simp [emitInstrs, hi]
  | cons i is =>
      obtain ⟨bb, hbb, he⟩ := emitInstr_emits sym (emits_first hr hi)
      rw [emitInstrs, hi, emitAll_cons, he, Emitted.andThen_of_none rfl, List.singleton_append,
        emitAll_cut_iff is (by exact hbb), openBlock_cursor]
      constructor
      · intro hall pre j post hsplit hne
        cases pre with
        | nil => exact absurd rfl hne
        | cons p pre =>
            obtain ⟨rfl, rfl⟩ := List.cons.inj hsplit
            exact hall pre j post rfl
      · intro hall pre j post hsplit
        exact hall (i :: pre) j post (congrArg (i :: ·) hsplit) (List.cons_ne_nil i pre)

theorem fetch_cuts_of_not_raised {dis : Disassembler} {info : DisassembleInfo} {symSize : Vma}
    {blocks : Blocks} (hr : (fetch (some dis) sym info symSize blocks).raised = none) :
    (fetch (some dis) sym info symSize blocks).out.IsChain
        (Cut (IsBoundary sym.getAddress (yieldsOf dis info sym.getAddress symSize))) ↔
      BoundariesMet sym.getAddress (yieldsOf dis info sym.getAddress symSize) := by
  refine (emitInstrs_cut_iff hr).trans ?_
  rw [decode_instructions]
  constructor
  · intro hall pre y post hsplit hne hb
    have hcut := hall (pre.map (Yield.loaded info sym.getAddress))
      (y.loaded info sym.getAddress) (post.map (Yield.loaded info sym.getAddress))
      (by rw [hsplit, List.map_append, List.map_cons]) (by simpa using hne)
    rw [List.map_map] at hcut
    exact ((cursor_at_iff hsplit).mp (hcut.mpr hb)).2
  · intro hmet pre i post hsplit hne
    obtain ⟨pre', rest, hys, rfl, hrest⟩ := List.map_eq_append_iff.mp hsplit
    obtain ⟨y, post', rfl, rfl, -⟩ := List.map_eq_cons_iff.mp hrest
    have hne' : pre' ≠ [] := fun he => hne (by rw [he, List.map_nil])
    rw [List.map_map]
    refine (cursor_at_iff hys).trans ?_
    exact and_iff_left_of_imp fun hb => hmet pre' y post' hys hne' hb

/-- Whatever the offsets are, `fetch` cuts at the boundaries when it raises at once, or none of them
is passed over before a later one that is an instruction start. -/
theorem fetch_cuts_of_offsets (dis : Disassembler) (info : DisassembleInfo) (sym : Symbol)
    (symSize : Vma) (blocks : Blocks) :
    (fetch (some dis) sym info symSize blocks).out.IsChain
        (Cut (IsBoundary sym.getAddress (yieldsOf dis info sym.getAddress symSize))) ↔
      (blocks.items = [] ∧
        ¬NoneBelow sym.getAddress (yieldsOf dis info sym.getAddress symSize)) ∨
      BoundariesMet sym.getAddress (yieldsOf dis info sym.getAddress symSize) := by
  by_cases hr : (fetch (some dis) sym info symSize blocks).raised = none
  · rw [fetch_cuts_of_not_raised hr]
    refine ⟨Or.inr, fun h => h.elim (fun hbad => ?_) id⟩
    -- a symbol without instructions has none after the first
    intro pre y post hsplit
    refine absurd hr (fetch_raised_iff.mpr ⟨?_, hbad⟩)
    rw [hsplit]
    simp
  · have h := fetch_raised_iff.mp hr
    have hout : (fetch (some dis) sym info symSize blocks).out = [] := emitInstrs_out_of_raised hr
    rw [hout]
    exact iff_of_true .nil (Or.inl h.2)

/-- `fetch` has a result, and it cuts at the boundaries of the symbol. -/
def CutsAtBoundaries (dis : Disassembler) (info : DisassembleInfo) (sym : Symbol) (symSize : Vma)
    (file : Ffile) (blocks : Blocks) : Prop :=
  ∃ r, fetchChecked (some dis) sym info symSize file blocks = some r ∧
    r.out.IsChain (Cut (IsBoundary sym.getAddress (yieldsOf dis info sym.getAddress symSize)))

/-- **`fetch` cuts at the boundaries of a symbol exactly when no offset overflows, and it raises at
once or passes over no boundary before a later one that is an instruction start.** -/
theorem fetch_cuts_iff (dis : Disassembler) (info : DisassembleInfo) (sym : Symbol)
    (symSize : Vma) (file : Ffile) (blocks : Blocks) :
    CutsAtBoundaries dis info sym symSize file blocks ↔
      NoOverflow (yieldsOf dis info sym.getAddress symSize) ∧
        ((blocks.items = [] ∧
          ¬NoneBelow sym.getAddress (yieldsOf dis info sym.getAddress symSize)) ∨
        BoundariesMet sym.getAddress (yieldsOf dis info sym.getAddress symSize)) := by
  rw [CutsAtBoundaries, fetchChecked_eq, ← fetch_cuts_of_offsets]
  split
  next hno => simp [hno]
  next hover => simp [hover]

/-! ## A missed boundary -/

/-- A section of sixteen bytes at `0x1000`. -/
def textSection : Asection := ⟨0, ".text".toList, 0x1000, 0x10⟩

/-- A function at an offset of that section. -/
def functionAt (name : Text) (value : Vma) : Symbol :=
  ⟨⟨value.toNat + 1, name, value, bsfFunction, textSection⟩, ⟨textSection⟩, []⟩

/-- An instruction that prints `text` in one piece. -/
def instrOf (size : Int32) (text : String) : Decoded := ⟨size, [⟨"%s".toList, text.toList⟩]⟩

/-- A jump into its own second byte, and an instruction behind it. -/
def jumpIntoItself : Disassembler := fun _ address =>
  if address = 0x1000 then instrOf 2 "jmp    0x1001"
  else if address = 0x1002 then instrOf 1 "nop"
  else ⟨0, []⟩

/-- The instruction behind the jump stays in its block. -/
theorem fetch_cut_missed :
    ∃ r, fetchChecked (some jumpIntoItself) (functionAt "f".toList 0) ⟨0x1000, 0x10, []⟩ 0x10
        ⟨[], 0⟩ .nil = some r ∧
      ¬r.out.IsChain (Cut (IsBoundary 0x1000
        (yieldsOf jumpIntoItself ⟨0x1000, 0x10, []⟩ 0x1000 0x10))) := by
  have hno : NoOverflow (yieldsOf jumpIntoItself ⟨0x1000, 0x10, []⟩
      (functionAt "f".toList 0).getAddress 0x10) := by decide +kernel
  rw [fetchChecked_eq, if_pos hno]
  exact ⟨_, rfl, by decide +kernel⟩

end Befa
