import Befa.Assembly.Fetch

/-!
# What the decode loop collects

`yields` is the sequence of instructions the disassembler yields for a window, without the
accumulators of `decodeLoop`.  `IsBoundary` says which addresses the loop collects.
`decodeLoop_instructions` and `mem_decodeLoop_boundaries` say that the loop does just that.

The instructions lie one behind the other (`mem_yields_bytes`), and their offsets stay below
`2 ^ 31`.  So the addresses are distinct (`yieldsOf_address_ne`).  They need not increase.  Behind
the end of the address space they start again at zero, and then they stay below the earlier ones
(`address_lt_of_wrapped`).
-/

namespace Befa

/-- An instruction the disassembler yields. -/
structure Yield where
  /-- How far behind the symbol it starts. -/
  offset : Nat
  /-- What the disassembler did there. -/
  decoded : Decoded

namespace Yield

/-- Where the instruction starts, for a symbol at `a`. -/
def address (a : Vma) (y : Yield) : Vma := a + UInt64.ofNat y.offset

/-- Where the next instruction starts. -/
def next (a : Vma) (y : Yield) : Vma := y.address a + UInt64.ofNat y.decoded.length

/-- What `match_jump` says about the instruction. -/
def target (y : Yield) : Vma := matchJump y.decoded.text

/-- The offset behind the instruction. -/
def stop (y : Yield) : Nat := y.offset + y.decoded.length

/-- The tuple the loop collects for the instruction. -/
def loaded (info : DisassembleInfo) (a : Vma) (y : Yield) : Loaded :=
  ⟨⟨info.buffer, y.offset, UInt32.ofNat y.decoded.length⟩, y.decoded.text, y.address a⟩

end Yield

/-- The instructions the disassembler yields from an offset on. -/
def yields (dis : Disassembler) (info : DisassembleInfo) (a : Vma) (maxOffset : Int)
    (offset : Nat) : List Yield :=
  let r := dis info (a + UInt64.ofNat offset)
  if _ : 0 < r.size ∧ (offset : Int) < maxOffset then
    ⟨offset, r⟩ :: yields dis info a maxOffset (offset + r.length)
  else []
termination_by (maxOffset - offset).toNat
decreasing_by
  rename_i h
  obtain ⟨hs, hm⟩ := h
  have hp : 0 < (dis info (a + UInt64.ofNat offset)).length := Decoded.length_pos hs
  omega

/-- The instructions the disassembler yields for a symbol at `a` with a window of `symSize`. -/
def yieldsOf (dis : Disassembler) (info : DisassembleInfo) (a symSize : Vma) : List Yield :=
  yields dis info a (asInt symSize) 0

/-- The addresses where a block of a symbol at `a` can start: the symbol, the targets of its
jumps, and the addresses behind them. -/
def IsBoundary (a : Vma) (ys : List Yield) (x : Vma) : Prop :=
  x = a ∨ ∃ y ∈ ys, y.target ≠ noJump ∧ (x = y.target ∨ x = y.next a)

theorem isBoundary_self (a : Vma) (ys : List Yield) : IsBoundary a ys a := Or.inl rfl

/-! ## The loop and the sequence -/

section Loop

variable {dis : Disassembler} {info : DisassembleInfo} {a : Vma} {maxOffset : Int}

theorem yields_of_stop {offset : Nat}
    (h : ¬(0 < (dis info (a + UInt64.ofNat offset)).size ∧ (offset : Int) < maxOffset)) :
    yields dis info a maxOffset offset = [] := by
  rw [yields]
  exact dif_neg h

theorem yields_of_go {offset : Nat}
    (h : 0 < (dis info (a + UInt64.ofNat offset)).size ∧ (offset : Int) < maxOffset) :
    yields dis info a maxOffset offset =
      ⟨offset, dis info (a + UInt64.ofNat offset)⟩ ::
        yields dis info a maxOffset (offset + (dis info (a + UInt64.ofNat offset)).length) := by
  rw [yields]
  exact dif_pos h

theorem decodeLoop_instructions (offset : Nat) (acc : Collected) :
    (decodeLoop dis info a maxOffset offset acc).instructions =
      acc.instructions ++ (yields dis info a maxOffset offset).map (Yield.loaded info a) := by
  induction offset, acc using decodeLoop.induct dis info a maxOffset with
  | case1 offset acc r h ih =>
      rw [decodeLoop, dif_pos h, ih, yields_of_go h, List.map_cons, collect,
        List.append_assoc, List.singleton_append]
      rfl
  | case2 offset acc r h =>
      rw [decodeLoop, dif_neg h, yields_of_stop h, List.map_nil, List.append_nil]

theorem mem_decodeLoop_boundaries {x : Vma} (offset : Nat) (acc : Collected) :
    x ∈ (decodeLoop dis info a maxOffset offset acc).boundaries ↔
      x ∈ acc.boundaries ∨ ∃ y ∈ yields dis info a maxOffset offset,
        y.target ≠ noJump ∧ (x = y.target ∨ x = y.next a) := by
  induction offset, acc using decodeLoop.induct dis info a maxOffset with
  | case1 offset acc r h ih =>
      rw [decodeLoop, dif_pos h, ih, yields_of_go h]
      simp only [List.mem_cons, exists_eq_or_imp, ← or_assoc]
      refine or_congr_left ?_
      by_cases hj : matchJump r.text ≠ noJump
      · simp only [collect, if_pos hj, OrdSet.mem_emplace]
        constructor
        · rintro (rfl | rfl | hx)
          · exact Or.inr ⟨hj, Or.inr rfl⟩
          · exact Or.inr ⟨hj, Or.inl rfl⟩
          · exact Or.inl hx
        · rintro (hx | ⟨_, rfl | rfl⟩)
          · exact Or.inr (Or.inr hx)
          · exact Or.inr (Or.inl rfl)
          · exact Or.inl rfl
      · simp only [collect, if_neg hj]
        exact ⟨Or.inl, fun hx => hx.resolve_right fun hy => hj hy.1⟩
  | case2 offset acc r h =>
      rw [decodeLoop, dif_neg h, yields_of_stop h]
      simp

theorem decode_instructions (dis : Disassembler) (info : DisassembleInfo) (a symSize : Vma) :
    (decode dis info a symSize).instructions =
      (yieldsOf dis info a symSize).map (Yield.loaded info a) :=
  (decodeLoop_instructions 0 _).trans (List.nil_append _)

theorem mem_decode_boundaries {symSize x : Vma} :
    x ∈ (decode dis info a symSize).boundaries ↔
      IsBoundary a (yieldsOf dis info a symSize) x := by
  rw [decode, mem_decodeLoop_boundaries, OrdSet.mem_emplace]
  exact or_congr_left ⟨fun h => h.resolve_right (List.not_mem_nil), Or.inl⟩

/-! ## The shape of the sequence -/

/-- An instruction starts inside the window. -/
theorem yields_offset {y : Yield} (offset : Nat) (hy : y ∈ yields dis info a maxOffset offset) :
    offset ≤ y.offset ∧ (y.offset : Int) < maxOffset ∧ 0 < y.decoded.length ∧
      y.decoded = dis info (y.address a) := by
  induction offset using yields.induct dis info a maxOffset with
  | case1 offset r h ih =>
      rw [yields_of_go h] at hy
      cases List.mem_cons.mp hy with
      | inl he => exact he ▸ ⟨le_refl _, h.2, Decoded.length_pos h.1, rfl⟩
      | inr hm =>
          obtain ⟨hle, hrest⟩ := ih hm
          exact ⟨Nat.le_of_add_right_le hle, hrest⟩
  | case2 offset r h => rw [yields_of_stop h] at hy; cases hy

/-- An instruction ends before the next one starts. -/
theorem yields_ordered (offset : Nat) :
    (yields dis info a maxOffset offset).Pairwise fun y z => y.stop ≤ z.offset := by
  induction offset using yields.induct dis info a maxOffset with
  | case1 offset r h ih =>
      rw [yields_of_go h]
      exact List.Pairwise.cons (fun z hz => (yields_offset _ hz).1) ih
  | case2 offset r h => rw [yields_of_stop h]; exact .nil

/-- How many bytes a sequence of instructions has. -/
def byteCount (ys : List Yield) : Nat := (ys.map (·.decoded.length)).sum

/-- The instructions lie one behind the other. -/
theorem mem_yields_bytes (dis : Disassembler) (info : DisassembleInfo) (a : Vma) (maxOffset : Int)
    (k offset : Nat) :
    (∃ y ∈ yields dis info a maxOffset offset, y.offset ≤ k ∧ k < y.stop) ↔
      offset ≤ k ∧ k < offset + byteCount (yields dis info a maxOffset offset) := by
  induction offset using yields.induct dis info a maxOffset with
  | case1 offset r h ih =>
      rw [yields_of_go h, byteCount, List.map_cons, List.sum_cons, ← byteCount]
      change (_ ↔ _ ∧ k < offset + (r.length + byteCount (yields dis info a maxOffset
        (offset + r.length))))
      rw [← Nat.add_assoc]
      constructor
      · intro ⟨y, hy, hle, hlt⟩
        cases List.mem_cons.mp hy with
        | inl he => subst he; exact ⟨hle, Nat.lt_add_right _ hlt⟩
        | inr hm =>
            have hk := ih.mp ⟨y, hm, hle, hlt⟩
            exact ⟨Nat.le_of_add_right_le hk.1, hk.2⟩
      · intro ⟨hle, hlt⟩
        by_cases hk : k < offset + r.length
        · exact ⟨_, List.mem_cons_self .., hle, hk⟩
        · obtain ⟨y, hm, hy⟩ := ih.mpr ⟨Nat.not_lt.mp hk, hlt⟩
          exact ⟨y, List.mem_cons_of_mem _ hm, hy⟩
  | case2 offset r h =>
      rw [yields_of_stop h]
      simp [byteCount]

theorem yields_head {offset : Nat} {y : Yield} {ys : List Yield}
    (h : yields dis info a maxOffset offset = y :: ys) : y.offset = offset := by
  by_cases hgo : 0 < (dis info (a + UInt64.ofNat offset)).size ∧ (offset : Int) < maxOffset
  · rw [yields_of_go hgo] at h
    exact (List.cons.inj h).1 ▸ rfl
  · rw [yields_of_stop hgo] at h
    cases h

end Loop

section Window

variable {dis : Disassembler} {info : DisassembleInfo} {a symSize : Vma}

theorem yieldsOf_head {y : Yield} {ys : List Yield} (h : yieldsOf dis info a symSize = y :: ys) :
    y.address a = a := by
  rw [Yield.address, yields_head h]
  exact UInt64.add_zero a

theorem yieldsOf_offset_lt {y : Yield} (h : y ∈ yieldsOf dis info a symSize) :
    y.offset < 2 ^ 31 := by
  have hw := (yields_offset 0 h).2.1
  have hi := asInt_lt symSize
  omega

theorem yieldsOf_offsets (dis : Disassembler) (info : DisassembleInfo) (a symSize : Vma) :
    (yieldsOf dis info a symSize).Pairwise fun y z => y.offset < z.offset := by
  refine (yields_ordered 0).imp_of_mem fun {y z} hy _ hyz => ?_
  have hpos := (yields_offset 0 hy).2.2.1
  unfold Yield.stop at hyz
  omega

/-- No two instructions have one address. -/
theorem yieldsOf_address_ne (dis : Disassembler) (info : DisassembleInfo) (a symSize : Vma) :
    (yieldsOf dis info a symSize).Pairwise fun y z => y.address a ≠ z.address a := by
  refine (yieldsOf_offsets dis info a symSize).imp_of_mem fun {y z} hy hz hlt he => ?_
  have hy' := yieldsOf_offset_lt hy
  have hz' := yieldsOf_offset_lt hz
  exact Nat.ne_of_lt hlt (add_ofNat_inj (by omega) (by omega) he)

/-- Once the addresses fall below an earlier one, they stay below it. -/
theorem address_lt_of_wrapped {x y z : Yield} (hxy : x.offset < y.offset)
    (hyz : y.offset < z.offset) (hz : z.offset < 2 ^ 31) (h : y.address a < x.address a) :
    z.address a < x.address a := by
  have ha := a.toNat_lt
  simp only [Yield.address, UInt64.lt_iff_toNat_lt, toNat_add_ofNat] at h ⊢
  omega

end Window

end Befa
