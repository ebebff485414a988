import Befa.Assembly.MatchJump
import Befa.Assembly.PrintBuffer
import Befa.Lib.Emit
import Befa.Lib.Keyed
import Befa.Lib.Word
import Mathlib.Data.List.Chain

/-!
# Decoding one symbol

`SymbolDataLoader::fetch` has two loops.  `decodeLoop` asks the disassembler for one instruction
after the other, until it refuses or the window of the symbol is full.  It collects the
instructions and an ordered set of *boundaries*, which are the address of the symbol and, for
each jump, its target and the address behind it.  `emitInstr` is the round of the second loop.
It walks the instructions with a cursor into the boundaries, opens a basic block when the
instruction is at the cursor, and emits the instruction with the last block there is.

The offset of the first loop counts without a bound here.  `fetchChecked` is `fetch` with the
`int` the source has.

The disassembler is a parameter.  It is a function of the buffer description and the address.

`yields` is the sequence the first loop decodes, said without the accumulators, and `IsBoundary`
is the set it collects.  `decodeLoop_instructions` and `mem_decodeLoop_boundaries` connect them.
-/

namespace Befa

/-! ## Bytes -/

/-- `array_view<uint8_t>`. -/
structure ArrayView where
  /-- The array it points into. -/
  memory : List UInt8
  /-- Where it points. -/
  start : Nat
  /-- How many bytes it shows. -/
  size : UInt32
deriving DecidableEq

/-- The bytes a view shows. -/
def ArrayView.toBytes (v : ArrayView) : List UInt8 := (v.memory.drop v.start).take v.size.toNat

/-! ## The disassembler -/

/-- The fields of `disassemble_info` that describe the bytes at hand. -/
structure DisassembleInfo where
  /-- The address of the first byte. -/
  bufferVma : Vma
  /-- The number of bytes. -/
  bufferLength : UInt32
  buffer : List UInt8

/-- What a call of the disassembler does. -/
structure Decoded where
  /-- What it returns. -/
  size : Int32
  /-- What it prints. -/
  prints : List PrintCall
deriving DecidableEq

/-- `disassembler_ftype`. -/
abbrev Disassembler := DisassembleInfo → Vma → Decoded

namespace Decoded

/-- The size of a decoded instruction. -/
def length (r : Decoded) : Nat := r.size.toInt.toNat

/-- The buffer of the fake file after a reset and the prints. -/
def text (r : Decoded) : Text := (r.prints.foldl ffprintf ⟨[], 0⟩).buffer

/-- The text of an instruction is its pieces in order, and nulls. -/
theorem text_eq (r : Decoded) : ∃ n, r.text = r.prints.flatMap (·.output) ++ List.replicate n nul :=
  (foldl_ffprintf_holds r.prints (reset_holds ⟨[], 0⟩)).buffer

theorem length_lt (r : Decoded) : r.length < 2 ^ 31 := by
  have := r.size.toInt_lt
  unfold length
  omega

theorem length_pos {r : Decoded} (h : 0 < r.size) : 0 < r.length := by
  have hi : (0 : Int) < r.size.toInt := Int32.lt_iff_toInt_lt.mp h
  unfold length
  omega

end Decoded

/-! ## Blocks and instructions -/

/-- `befa::BasicBlock`. -/
structure BasicBlock where
  /-- Where the block lies. -/
  ptr : Nat
  /-- The address of its first instruction. -/
  id : Vma
  /-- The symbol it belongs to. -/
  parent : Symbol
deriving DecidableEq

/-- `basic_block_buffer`.  The block made at a position lies at the pointer of that number, so no
two blocks of a buffer are one object. -/
structure Blocks where
  /-- The blocks, the oldest first. -/
  items : List BasicBlock
  /-- A block lies where its position says. -/
  numbered : ∀ i (h : i < items.length), items[i].ptr = i
deriving DecidableEq

namespace Blocks

/-- The buffer of a new `ExecutableFile`. -/
def nil : Blocks := ⟨[], fun _ h => absurd h (Nat.not_lt_zero _)⟩

/-- `emplace_back(make_shared(id, parent))`. -/
def add (b : Blocks) (id : Vma) (parent : Symbol) : Blocks where
  items := b.items ++ [⟨b.items.length, id, parent⟩]
  numbered := by
    intro i h
    rw [List.length_append, List.length_singleton] at h
    by_cases hi : i < b.items.length
    · rw [List.getElem_append_left hi, b.numbered i hi]
    · obtain rfl : i = b.items.length := by omega
      simp

/-- `back()`. -/
def back (b : Blocks) : Option BasicBlock := b.items.getLast?

theorem items_add (b : Blocks) (id : Vma) (parent : Symbol) :
    (b.add id parent).items = b.items ++ [⟨b.items.length, id, parent⟩] := rfl

@[simp] theorem back_add (b : Blocks) (id : Vma) (parent : Symbol) :
    (b.add id parent).back = some ⟨b.items.length, id, parent⟩ := by
  simp [add, back]

theorem back_eq_none {b : Blocks} : b.back = none ↔ b.items = [] := List.getLast?_eq_none_iff

/-- A block of the buffer is older than one that is added. -/
theorem ptr_lt {b : Blocks} {bb : BasicBlock} (h : bb ∈ b.items) : bb.ptr < b.items.length := by
  obtain ⟨i, hi, rfl⟩ := List.getElem_of_mem h
  rw [b.numbered i hi]
  exact hi

end Blocks

/-- `befa::Instruction`. -/
structure Instruction where
  bytes : ArrayView
  /-- The basic block. -/
  parent : BasicBlock
  /-- The text the disassembler printed. -/
  decoded : Text
  address : Vma
deriving DecidableEq

/-! ## The first loop -/

/-- A tuple of the vector `instructions`. -/
structure Loaded where
  bytes : ArrayView
  /-- The text. -/
  decoded : Text
  address : Vma
deriving DecidableEq

/-- What the first loop fills. -/
structure Collected where
  /-- `instructions`. -/
  instructions : List Loaded
  /-- `basic_block_addresses`. -/
  boundaries : OrdSet Vma

/-- The body of the first loop, for the instruction decoded at `offset`. -/
def collect (info : DisassembleInfo) (symAddress : Vma) (offset : Nat) (r : Decoded)
    (acc : Collected) : Collected :=
  let iAddress := symAddress + UInt64.ofNat offset
  let address := matchJump r.text
  { boundaries :=
      if address ≠ noJump then
        (acc.boundaries.emplace address).emplace (iAddress + UInt64.ofNat r.length)
      else acc.boundaries
    instructions := acc.instructions ++
      [⟨⟨info.buffer, offset, UInt32.ofNat r.length⟩, r.text, iAddress⟩] }

/-- The first loop of `fetch`.  Each round starts with a call of the disassembler. -/
def decodeLoop (dis : Disassembler) (info : DisassembleInfo) (symAddress : Vma) (maxOffset : Int)
    (offset : Nat) (acc : Collected) : Collected :=
  let r := dis info (symAddress + UInt64.ofNat offset)
  if _ : 0 < r.size ∧ (offset : Int) < maxOffset then
    decodeLoop dis info symAddress maxOffset (offset + r.length) (collect info symAddress offset r acc)
  else acc
termination_by (maxOffset - offset).toNat
decreasing_by
  rename_i h
  obtain ⟨hs, hm⟩ := h
  have hp : 0 < (dis info (symAddress + UInt64.ofNat offset)).length := Decoded.length_pos hs
  omega

/-- The first loop, from its initial values. -/
def decode (dis : Disassembler) (info : DisassembleInfo) (symAddress symSize : Vma) : Collected :=
  decodeLoop dis info symAddress (asInt symSize) 0 ⟨[], Keyed.nil.emplace symAddress⟩

/-! ## The second loop -/

/-- What the second loop carries. -/
structure EmitState where
  /-- From `bba_begin` to the end. -/
  cursor : List Vma
  /-- `basic_block_buffer`. -/
  blocks : Blocks
deriving DecidableEq

/-- Open a block when the instruction is at the cursor. -/
def openBlock (sym : Symbol) (address : Vma) (s : EmitState) : EmitState :=
  match s.cursor with
  | [] => s
  | bba :: rest => if address = bba then ⟨rest, s.blocks.add bba sym⟩ else s

/-- One round of the second loop. -/
def emitInstr (sym : Symbol) (instr : Loaded) (s : EmitState) :
    Emitted EmitState Instruction Text :=
  let s' := openBlock sym instr.address s
  match s'.blocks.back with
  | none => ⟨s', [], some "basic_block_buffer cannot be empty".toList⟩
  | some bb => ⟨s', [⟨instr.bytes, bb, instr.decoded, instr.address⟩], none⟩

/-- The second loop of `fetch`. -/
def emitInstrs (sym : Symbol) (c : Collected) (blocks : Blocks) :
    Emitted Blocks Instruction Text :=
  let r := emitAll (emitInstr sym) c.instructions ⟨c.boundaries.items, blocks⟩
  ⟨r.state.blocks, r.out, r.raised⟩

/-- `SymbolDataLoader::fetch`, as long as no offset overflows.  A target without a disassembler
gives `none`. -/
def fetch (dis : Option Disassembler) (sym : Symbol) (info : DisassembleInfo) (symSize : Vma)
    (blocks : Blocks) : Emitted Blocks Instruction Text :=
  match dis with
  | none => ⟨blocks, [], some "failed to open file descriptor for disassembling".toList⟩
  | some dis => emitInstrs sym (decode dis info sym.getAddress symSize) blocks

end Befa
