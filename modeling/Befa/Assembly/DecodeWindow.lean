import Befa.Assembly.BlockCuts

/-!
# What the first loop covers

`ChainFrom` is the abstract side of the first loop: instructions that lie one behind the other and
start inside the window.  `decodeWindow_covers_iff` says when the loop collects the longest chain.
The size of the window is converted to `int` first, and no offset may overflow.
-/

namespace Befa

/-! ## Chains -/

section Chains

variable (dis : Disassembler) (info : DisassembleInfo) (a : Vma)

/-- Instructions one behind the other, from an offset on, that start below a limit. -/
inductive ChainFrom (limit : Int) : Nat → List Yield → Prop where
  | nil {offset : Nat} : ChainFrom limit offset []
  | cons {offset : Nat} {ys : List Yield} {r : Decoded}
      (called : r = dis info (a + UInt64.ofNat offset)) (decoded : 0 < r.size)
      (inside : (offset : Int) < limit) (rest : ChainFrom limit (offset + r.length) ys) :
      ChainFrom limit offset (⟨offset, r⟩ :: ys)

/-- The chain from the symbol that goes as far as the window does. -/
structure LongestChain (symSize : Vma) (ys : List Yield) : Prop where
  chain : ChainFrom dis info a symSize.toNat 0 ys
  /-- Every chain is a beginning of it. -/
  longest : ∀ zs, ChainFrom dis info a symSize.toNat 0 zs → zs <+: ys

variable {dis info a}

theorem ChainFrom.mono {limit limit' : Int} (hle : limit ≤ limit') {offset : Nat} {ys : List Yield}
    (h : ChainFrom dis info a limit offset ys) : ChainFrom dis info a limit' offset ys := by
  induction h with
  | nil => exact .nil
  | cons called decoded inside _ ih => exact .cons called decoded (lt_of_lt_of_le inside hle) ih

/-- A chain whose instructions start below another limit is one for that limit. -/
theorem ChainFrom.limit {limit limit' : Int} {offset : Nat} {ys : List Yield}
    (h : ChainFrom dis info a limit offset ys) (hb : ∀ y ∈ ys, (y.offset : Int) < limit') :
    ChainFrom dis info a limit' offset ys := by
  induction h with
  | nil => exact .nil
  | cons called decoded _ _ ih =>
      have hb' := List.forall_mem_cons.mp hb
      exact .cons called decoded hb'.1 (ih hb'.2)

theorem chainFrom_yields (limit : Int) (offset : Nat) :
    ChainFrom dis info a limit offset (yields dis info a limit offset) := by
  induction offset using yields.induct dis info a limit with
  | case1 offset r h ih =>
      rw [yields_of_go h]
      exact .cons rfl h.1 h.2 ih
  | case2 offset r h =>
      rw [yields_of_stop h]
      exact .nil

/-- Every chain is a beginning of what the disassembler yields. -/
theorem ChainFrom.prefix_yields {limit : Int} {offset : Nat} {zs : List Yield}
    (h : ChainFrom dis info a limit offset zs) : zs <+: yields dis info a limit offset := by
  induction h with
  | nil => exact List.nil_prefix
  | cons called decoded inside _ ih =>
      subst called
      rw [yields_of_go ⟨decoded, inside⟩]
      exact (List.prefix_cons_inj _).mpr ih

theorem longestChain_iff {symSize : Vma} {ys : List Yield} :
    LongestChain dis info a symSize ys ↔ ys = yields dis info a symSize.toNat 0 := by
  constructor
  · intro h
    have hle := h.longest _ (chainFrom_yields symSize.toNat 0)
    exact h.chain.prefix_yields.eq_of_length_le hle.length_le
  · rintro rfl
    exact ⟨chainFrom_yields _ 0, fun zs hz => hz.prefix_yields⟩

end Chains

/-! ## Covering a window -/

/-- The loop collects the instructions of the chain, each with the text that was printed for it. -/
def Collects (dis : Disassembler) (info : DisassembleInfo) (a symSize : Vma) (file : Ffile)
    (ys : List Yield) : Prop :=
  ∃ c, decodeWindow dis info a symSize file = some c ∧
    c.instructions = ys.map (Yield.loaded info a)

section Covers

variable {dis : Disassembler} {info : DisassembleInfo} {a symSize : Vma}

/-- What the loop goes through is a beginning of the longest chain. -/
theorem yieldsOf_prefix : yieldsOf dis info a symSize <+: yields dis info a symSize.toNat 0 :=
  ((chainFrom_yields (asInt symSize) 0).mono (asInt_le symSize)).prefix_yields

/-- It is the longest chain when the conversion to `int` cuts off nothing of it. -/
theorem yieldsOf_eq_iff : yieldsOf dis info a symSize = yields dis info a symSize.toNat 0 ↔
    ∀ y ∈ yields dis info a symSize.toNat 0, (y.offset : Int) < asInt symSize := by
  constructor
  · intro h y hy
    rw [← h] at hy
    exact (yields_offset 0 hy).2.1
  · intro h
    have hle := ((chainFrom_yields (symSize.toNat : Int) 0).limit h).prefix_yields
    exact yieldsOf_prefix.eq_of_length_le hle.length_le

end Covers

/-- **The decode loop covers a window exactly** when every instruction of the longest chain starts
below the converted size and ends below `2 ^ 31`. -/
theorem decodeWindow_covers_iff (dis : Disassembler) (info : DisassembleInfo) (a symSize : Vma)
    (file : Ffile) :
    (∃ ys, LongestChain dis info a symSize ys ∧ Collects dis info a symSize file ys) ↔
      ∃ ys, LongestChain dis info a symSize ys ∧
        ∀ y ∈ ys, (y.offset : Int) < asInt symSize ∧ (y.stop : Int) ≤ intMax := by
  simp only [longestChain_iff, exists_eq_left]
  constructor
  · rintro ⟨c, hc, hi⟩
    rw [decodeWindow_eq] at hc
    split at hc
    next hno =>
      rw [← Option.some.inj hc, decode_instructions] at hi
      have hlen := congrArg List.length hi
      rw [List.length_map, List.length_map] at hlen
      have heq := yieldsOf_prefix.eq_of_length hlen
      exact fun y hy => ⟨yieldsOf_eq_iff.mp heq y hy, hno y (heq ▸ hy)⟩
    next => cases hc
  · intro h
    have heq := yieldsOf_eq_iff.mpr fun y hy => (h y hy).1
    refine ⟨decode dis info a symSize, ?_, ?_⟩
    · rw [decodeWindow_eq, heq]
      exact if_pos fun y hy => (h y hy).2
    · rw [decode_instructions, heq]

/-! ## A window of half the address space of an `int` -/

/-- One instruction, at `0x1000`. -/
def oneNop : Disassembler := fun _ address =>
  if address = 0x1000 then instrOf 1 "nop" else ⟨0, []⟩

/-- A window of `2 ^ 31` bytes is converted to a negative size, and nothing is decoded. -/
theorem oneNop_not_covered :
    ¬∃ ys, LongestChain oneNop ⟨0x1000, 0x10, []⟩ 0x1000 0x80000000 ys ∧
      Collects oneNop ⟨0x1000, 0x10, []⟩ 0x1000 0x80000000 ⟨[], 0⟩ ys := by
  rintro ⟨ys, hys, c, hc, hi⟩
  have hnop : ChainFrom oneNop ⟨0x1000, 0x10, []⟩ 0x1000 (0x80000000 : Vma).toNat 0
      [⟨0, instrOf 1 "nop"⟩] := .cons (by decide) (by decide) (by decide) .nil
  have hnone : decodeWindow oneNop ⟨0x1000, 0x10, []⟩ 0x1000 0x80000000 ⟨[], 0⟩ =
      some ⟨[], Keyed.nil.emplace 0x1000⟩ := decodeFor_of_stop (by decide)
  rw [hnone] at hc
  rw [← Option.some.inj hc] at hi
  rw [List.map_eq_nil_iff.mp hi.symm] at hys
  exact absurd (hys.longest _ hnop).length_le (by decide)

end Befa
