import Befa.Assembly.Yields

/-!
# The first loop with its integers

`decodeLoop` counts its offset without a bound.  Here is the loop of `fetch` with the `int`s the
source has, and with the fake file that every call of the disassembler prints to.  An offset that
overflows has no defined value, and then the loop has none (`none`).

`decodeWindow_eq` says that the loop is `decode` as long as no offset overflows.  `fetchChecked` is
`fetch` with this loop, and `fetchChecked_eq` says the same of it.
-/

namespace Befa

/-! ## The loop -/

/-- What the first loop carries. -/
structure WindowState where
  /-- The fake file, after the last call of the disassembler. -/
  file : Ffile
  /-- `i_size`. -/
  iSize : Int32
  /-- `offset`, an `int`. -/
  offset : Int
  /-- `i_address`. -/
  iAddress : Vma
  /-- `instructions` and `basic_block_addresses`. -/
  acc : Collected

/-- Reset the file and call the disassembler at an offset of the symbol. -/
def callDisassembler (dis : Disassembler) (info : DisassembleInfo) (symAddress : Vma)
    (offset : Int) (file : Ffile) (acc : Collected) : WindowState :=
  let iAddress := symAddress + UInt64.ofInt offset
  let r := dis info iAddress
  { file := r.prints.foldl ffprintf file.reset
    iSize := r.size
    offset
    iAddress
    acc }

/-- The body of the loop, apart from the offset. -/
def WindowState.collected (info : DisassembleInfo) (s : WindowState) : Collected :=
  let address := matchJump s.file.buffer
  { boundaries :=
      if address ≠ noJump then
        (s.acc.boundaries.emplace address).emplace (s.iAddress + UInt64.ofInt s.iSize.toInt)
      else s.acc.boundaries
    instructions := s.acc.instructions ++
      [⟨⟨info.buffer, s.offset.toNat, UInt32.ofNat s.iSize.toInt.toNat⟩, s.file.buffer,
        s.iAddress⟩] }

/-- The loop of `fetch`, with its header. -/
def decodeFor (dis : Disassembler) (info : DisassembleInfo) (symAddress : Vma) (maxOffset : Int)
    (s : WindowState) : Option Collected :=
  if _ : 0 < s.iSize ∧ s.offset < maxOffset then
    match _ : checkInt (s.offset + s.iSize.toInt) with
    | none => none
    | some offset =>
        decodeFor dis info symAddress maxOffset
          (callDisassembler dis info symAddress offset s.file (s.collected info))
  else some s.acc
termination_by (maxOffset - s.offset).toNat
decreasing_by
  rename_i h hstep
  obtain ⟨hs, hm⟩ := h
  have hp : (0 : Int) < s.iSize.toInt := Int32.lt_iff_toInt_lt.mp hs
  have ho := checkInt_eq_some hstep
  change (maxOffset - offset).toNat < _
  omega

/-- The loop from its initial values, with what an earlier symbol left in the file. -/
def decodeWindow (dis : Disassembler) (info : DisassembleInfo) (symAddress symSize : Vma)
    (file : Ffile) : Option Collected :=
  decodeFor dis info symAddress (asInt symSize)
    (callDisassembler dis info symAddress 0 file ⟨[], Keyed.nil.emplace symAddress⟩)

/-! ## The loop and `decode` -/

section Loop

variable {dis : Disassembler} {info : DisassembleInfo} {a : Vma} {maxOffset : Int}

/-- No offset behind an instruction overflows. -/
def NoOverflow (ys : List Yield) : Prop := ∀ y ∈ ys, (y.stop : Int) ≤ intMax

instance (ys : List Yield) : Decidable (NoOverflow ys) := inferInstanceAs (Decidable (∀ y ∈ ys, _))

theorem noOverflow_cons {y : Yield} {ys : List Yield} :
    NoOverflow (y :: ys) ↔ (y.stop : Int) ≤ intMax ∧ NoOverflow ys := List.forall_mem_cons

theorem toInt_size {r : Decoded} (h : 0 < r.size) : r.size.toInt = (r.length : Int) :=
  (Int.toNat_of_nonneg (Int32.lt_iff_toInt_lt.mp h).le).symm

/-- A round collects what `collect` collects. -/
theorem collected_callDisassembler (offset : Nat) (file : Ffile) (acc : Collected)
    (h : 0 < (dis info (a + UInt64.ofNat offset)).size) :
    (callDisassembler dis info a offset file acc).collected info =
      collect info a offset (dis info (a + UInt64.ofNat offset)) acc := by
  simp only [callDisassembler, WindowState.collected, collect, ofInt_natCast, toInt_size h,
    Int.toNat_natCast]
  rfl

theorem decodeFor_of_stop {s : WindowState} (h : ¬(0 < s.iSize ∧ s.offset < maxOffset)) :
    decodeFor dis info a maxOffset s = some s.acc := by
  rw [decodeFor]
  exact dif_neg h

theorem decodeFor_of_go {s : WindowState} {offset : Int} (h : 0 < s.iSize ∧ s.offset < maxOffset)
    (ho : checkInt (s.offset + s.iSize.toInt) = some offset) :
    decodeFor dis info a maxOffset s = decodeFor dis info a maxOffset
      (callDisassembler dis info a offset s.file (s.collected info)) := by
  rw [decodeFor, dif_pos h]
  split
  next hn => rw [ho] at hn; cases hn
  next offset' hs => rw [Option.some.inj (ho.symm.trans hs)]

theorem decodeFor_of_overflow {s : WindowState} (h : 0 < s.iSize ∧ s.offset < maxOffset)
    (ho : checkInt (s.offset + s.iSize.toInt) = none) :
    decodeFor dis info a maxOffset s = none := by
  rw [decodeFor, dif_pos h]
  split
  next => rfl
  next offset' hs => rw [ho] at hs; cases hs

/-- The loop does what `decodeLoop` does, unless an offset overflows. -/
theorem decodeFor_eq (offset : Nat) (file : Ffile) (acc : Collected) :
    decodeFor dis info a maxOffset (callDisassembler dis info a offset file acc) =
      if NoOverflow (yields dis info a maxOffset offset) then
        some (decodeLoop dis info a maxOffset offset acc) else none := by
  induction offset, acc using decodeLoop.induct dis info a maxOffset generalizing file with
  | case1 offset acc r h ih =>
      have hgo : 0 < (callDisassembler dis info a offset file acc).iSize ∧
          (callDisassembler dis info a offset file acc).offset < maxOffset := by
        simp only [callDisassembler, ofInt_natCast]
        exact h
      have hsum : (callDisassembler dis info a offset file acc).offset +
          (callDisassembler dis info a offset file acc).iSize.toInt =
            ((offset + r.length : Nat) : Int) := by
        rw [Nat.cast_add, ← toInt_size h.1]
        simp only [callDisassembler, ofInt_natCast]
        rfl
      rw [yields_of_go h, decodeLoop, dif_pos h, if_congr noOverflow_cons rfl rfl]
      by_cases hfit : ((offset + r.length : Nat) : Int) ≤ intMax
      · have hcheck := hsum ▸ checkInt_of_le (Int.natCast_nonneg _) hfit
        rw [decodeFor_of_go hgo hcheck, hsum, collected_callDisassembler offset file acc h.1]
        exact (ih _).trans (if_congr (and_iff_right hfit).symm rfl rfl)
      · have hcheck := hsum ▸ checkInt_of_lt (not_le.mp hfit)
        rw [decodeFor_of_overflow hgo hcheck, if_neg fun hn => hfit hn.1]
  | case2 offset acc r h =>
      have hstop : ¬(0 < (callDisassembler dis info a offset file acc).iSize ∧
          (callDisassembler dis info a offset file acc).offset < maxOffset) := by
        simp only [callDisassembler, ofInt_natCast]
        exact h
      have hnone : NoOverflow (yields dis info a maxOffset offset) := by
        rw [yields_of_stop h]
        exact fun y hy => absurd hy List.not_mem_nil
      rw [decodeFor_of_stop hstop, if_pos hnone, decodeLoop, dif_neg h]
      rfl

/-- The loop of a window is `decode`, unless an offset overflows. -/
theorem decodeWindow_eq (symSize : Vma) (file : Ffile) :
    decodeWindow dis info a symSize file =
      if NoOverflow (yieldsOf dis info a symSize) then some (decode dis info a symSize)
      else none :=
  decodeFor_eq 0 file _

end Loop

/-! ## Both loops -/

/-- `SymbolDataLoader::fetch`, with the `int`s of its first loop. -/
def fetchChecked (dis : Option Disassembler) (sym : Symbol) (info : DisassembleInfo)
    (symSize : Vma) (file : Ffile) (blocks : Blocks) : Option (Emitted Blocks Instruction Text) :=
  match dis with
  | none => some ⟨blocks, [], some "failed to open file descriptor for disassembling".toList⟩
  | some dis =>
      (decodeWindow dis info sym.getAddress symSize file).map fun c => emitInstrs sym c blocks

/-- `fetch` has a result unless an offset overflows. -/
theorem fetchChecked_eq (dis : Disassembler) (sym : Symbol) (info : DisassembleInfo)
    (symSize : Vma) (file : Ffile) (blocks : Blocks) :
    fetchChecked (some dis) sym info symSize file blocks =
      if NoOverflow (yieldsOf dis info sym.getAddress symSize) then
        some (fetch (some dis) sym info symSize blocks) else none := by
  rw [fetchChecked, decodeWindow_eq]
  split <;> rfl

end Befa
