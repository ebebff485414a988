import Befa.Assembly.BlockOwners

/-!
# The bytes of an instruction

The buffer of a window starts with its section, while offsets count from the symbol.  The view of
an instruction is set up from the start of the buffer and the offset.  So an instruction of a
symbol that is not at the start of its section shows bytes that lie too low, by as much as the
symbol lies behind the start of the section.

`fetchWindow_ownBytes_iff` says when the bytes are right all the same, and no offset overflows.
-/

namespace Befa

/-- The bytes a view shows are the bytes of the section at an address. -/
def OwnBytes (fd : Bfd) (sec : Section) (bytes : ArrayView) (address : Vma) : Prop :=
  bytes.toBytes = (List.range bytes.size.toNat).map fun k =>
    fd.contents sec.origin ((address - sec.getAddress).toNat + k)

instance (fd : Bfd) (sec : Section) (bytes : ArrayView) (address : Vma) :
    Decidable (OwnBytes fd sec bytes address) := inferInstanceAs (Decidable (_ = _))

/-- Every instruction shows its own bytes. -/
def CarryOwnBytes (fd : Bfd) (sec : Section) (out : List Instruction) : Prop :=
  ∀ e ∈ out, OwnBytes fd sec e.bytes e.address

instance (fd : Bfd) (sec : Section) (out : List Instruction) :
    Decidable (CarryOwnBytes fd sec out) := inferInstanceAs (Decidable (∀ e ∈ out, _))

/-- The disassembler decodes an instruction only where the section has its bytes. -/
def StaysIn (dis : Disassembler) (fd : Bfd) (sec : Section) : Prop :=
  ∀ address, 0 < (dis (sectionInfo fd sec) address).size →
    (address - sec.getAddress).toNat + (dis (sectionInfo fd sec) address).length ≤
      sec.getSize.toNat

/-- The bytes of a section from its start agree with the bytes `shift` behind them, `count` of
them, and the buffer has them. -/
def BytesAgree (fd : Bfd) (sec : Section) (shift count : Nat) : Prop :=
  ∀ k < count, k < sec.getSize.toUInt32.toNat ∧
    fd.contents sec.origin k = fd.contents sec.origin (shift + k)

instance (fd : Bfd) (sec : Section) (shift count : Nat) :
    Decidable (BytesAgree fd sec shift count) := inferInstanceAs (Decidable (∀ k < _, _))

/-- A part of the buffer, as the bytes at another place. -/
theorem take_drop_range_eq {c : Nat → UInt8} {len start size place : Nat} :
    (((List.range len).map c).drop start).take size =
        (List.range size).map (fun k => c (place + k)) ↔
      ∀ k < size, start + k < len ∧ c (start + k) = c (place + k) := by
  constructor
  · intro h k hk
    have hlen := congrArg List.length h
    simp only [List.length_take, List.length_drop, List.length_map, List.length_range] at hlen
    have hin : start + k < len := by omega
    have hget := congrArg (·[k]?) h
    simp only [List.getElem?_take_of_lt hk, List.getElem?_drop, List.getElem?_map,
      List.getElem?_range hin, List.getElem?_range hk, Option.map_some] at hget
    exact ⟨hin, Option.some.inj hget⟩
  · intro h
    refine List.ext_getElem? fun k => ?_
    by_cases hk : k < size
    · rw [List.getElem?_take_of_lt hk, List.getElem?_drop, List.getElem?_map, List.getElem?_map,
        List.getElem?_range (h k hk).1, List.getElem?_range hk, Option.map_some, Option.map_some,
        (h k hk).2]
    · rw [List.getElem?_eq_none (by simp; omega), List.getElem?_eq_none (by simp; omega)]

section Window

variable {fd : Bfd} {dis : Disassembler}

/-- Every instruction lies as far behind the symbol in the section as its offset says. -/
theorem yields_section_offset {sec : Section} (a : Vma) (maxOffset : Int)
    (hdis : StaysIn dis fd sec) (offset : Nat)
    (h : (a + UInt64.ofNat offset - sec.getAddress).toNat =
      (a - sec.getAddress).toNat + offset) :
    ∀ y ∈ yields dis (sectionInfo fd sec) a maxOffset offset,
      (y.address a - sec.getAddress).toNat = (a - sec.getAddress).toNat + y.offset := by
  induction offset using yields.induct dis (sectionInfo fd sec) a maxOffset with
  | case1 offset r hgo ih =>
      rw [yields_of_go hgo]
      have hstay := hdis _ hgo.1
      have hsize := sec.getSize.toNat_lt
      rw [h] at hstay
      have hnext : (a + UInt64.ofNat (offset + r.length) - sec.getAddress).toNat =
          (a - sec.getAddress).toNat + (offset + r.length) := by
        have hr : (a - sec.getAddress).toNat + offset + r.length < 2 ^ 64 :=
          lt_of_le_of_lt hstay hsize
        rw [UInt64.toNat_sub, toNat_add_ofNat] at h ⊢
        rw [UInt64.toNat_sub] at h hr ⊢
        omega
      intro y hy
      cases List.mem_cons.mp hy with
      | inl he => exact he ▸ h
      | inr hm => exact ih hnext y hm
  | case2 offset r hstop =>
      rw [yields_of_stop hstop]
      exact fun y hy => absurd hy List.not_mem_nil

theorem ownBytes_loaded {sec : Section} {a : Vma} {y : Yield}
    (hpos : (y.address a - sec.getAddress).toNat = (a - sec.getAddress).toNat + y.offset) :
    OwnBytes fd sec (y.loaded (sectionInfo fd sec) a).bytes
        (y.loaded (sectionInfo fd sec) a).address ↔
      ∀ k < y.decoded.length, y.offset + k < sec.getSize.toUInt32.toNat ∧
        fd.contents sec.origin (y.offset + k) =
          fd.contents sec.origin ((a - sec.getAddress).toNat + (y.offset + k)) := by
  have hlen : (UInt32.ofNat y.decoded.length).toNat = y.decoded.length := by
    have := y.decoded.length_lt
    rw [UInt32.toNat_ofNat']
    omega
  simp only [OwnBytes, Yield.loaded, ArrayView.toBytes, sectionInfo, hlen, hpos]
  rw [take_drop_range_eq]
  simp only [Nat.add_assoc]

theorem ownBytes_yields {w : Symbol × Vma} (hdis : StaysIn dis fd w.1.parent) :
    (∀ l ∈ (windowYields fd dis w).map
        (Yield.loaded (sectionInfo fd w.1.parent) w.1.getAddress),
      OwnBytes fd w.1.parent l.bytes l.address) ↔
    BytesAgree fd w.1.parent (w.1.getAddress - w.1.parent.getAddress).toNat
      (byteCount (windowYields fd dis w)) := by
  have hpos := yields_section_offset w.1.getAddress (asInt w.2) hdis 0
    (by rw [Nat.add_zero]; exact congrArg (fun x => (x - w.1.parent.getAddress).toNat)
          (UInt64.add_zero w.1.getAddress))
  have hcover := fun k => mem_yields_bytes dis (sectionInfo fd w.1.parent) w.1.getAddress
    (asInt w.2) k 0
  rw [List.forall_mem_map]
  constructor
  · intro hall k hk
    obtain ⟨y, hy, hle, hlt⟩ := (hcover k).mpr ⟨Nat.zero_le k, by rwa [Nat.zero_add]⟩
    obtain ⟨j, rfl⟩ := Nat.exists_eq_add_of_le hle
    exact (ownBytes_loaded (hpos y hy)).mp (hall y hy) j (Nat.lt_of_add_lt_add_left hlt)
  · intro hagree y hy
    refine (ownBytes_loaded (hpos y hy)).mpr fun j hj => hagree (y.offset + j) ?_
    have hk := ((hcover (y.offset + j)).mp
      ⟨y, hy, Nat.le_add_right .., Nat.add_lt_add_left hj _⟩).2
    rwa [Nat.zero_add] at hk

/-- Whatever the offsets are, the instructions of a window show their own bytes when `fetch` raises
at once, or the bytes it decodes are the bytes at the start of the section. -/
theorem ownBytes_of_offsets (hfd : fd.disassembler = some dis) (w : Symbol × Vma)
    (blocks : Blocks) (hdis : StaysIn dis fd w.1.parent) :
    CarryOwnBytes fd w.1.parent (fetchWindow fd w blocks).out ↔
      (blocks.items = [] ∧ ¬NoneBelow w.1.getAddress (windowYields fd dis w)) ∨
      BytesAgree fd w.1.parent (w.1.getAddress - w.1.parent.getAddress).toNat
        (byteCount (windowYields fd dis w)) := by
  rw [CarryOwnBytes, fetchWindow, hfd]
  by_cases hr : (fetch (some dis) w.1 (sectionInfo fd w.1.parent) w.2 blocks).raised = none
  · have hown : (∀ e ∈ (fetch (some dis) w.1 (sectionInfo fd w.1.parent) w.2 blocks).out,
        OwnBytes fd w.1.parent e.bytes e.address) ↔
        ∀ l ∈ (fetch (some dis) w.1 (sectionInfo fd w.1.parent) w.2 blocks).out.map
          Instruction.loaded, OwnBytes fd w.1.parent l.bytes l.address := by
      rw [List.forall_mem_map]
      exact Iff.rfl
    rw [hown, fetch_loaded hr]
    refine (ownBytes_yields hdis).trans ⟨Or.inr, fun h => h.elim (fun hbad => ?_) id⟩
    -- nothing is decoded, since `fetch` does not raise
    have hnil : windowYields fd dis w = [] :=
      of_not_not fun hne => fetch_raised_iff.mpr ⟨hne, hbad⟩ hr
    rw [hnil]
    exact fun k hk => absurd hk (Nat.not_lt_zero k)
  · have hout : (fetch (some dis) w.1 (sectionInfo fd w.1.parent) w.2 blocks).out = [] :=
      emitInstrs_out_of_raised hr
    rw [hout]
    exact iff_of_true (fun e he => absurd he List.not_mem_nil)
      (Or.inl (fetch_raised_iff.mp hr).2)

/-- **The instructions of a window show their own bytes exactly when no offset overflows, and
`fetch` raises at once or the bytes it decodes are the bytes at the start of the section.** -/
theorem fetchWindow_ownBytes_iff (hfd : fd.disassembler = some dis) (w : Symbol × Vma)
    (blocks : Blocks) (hdis : StaysIn dis fd w.1.parent) :
    (∃ r, fetchWindowChecked fd w blocks = some r ∧ CarryOwnBytes fd w.1.parent r.out) ↔
      NoOverflow (windowYields fd dis w) ∧
        ((blocks.items = [] ∧ ¬NoneBelow w.1.getAddress (windowYields fd dis w)) ∨
        BytesAgree fd w.1.parent (w.1.getAddress - w.1.parent.getAddress).toNat
          (byteCount (windowYields fd dis w))) := by
  rw [← ownBytes_of_offsets hfd w blocks hdis, ← windowFits_iff hfd, fetchWindowChecked_eq]
  split
  next hno => simp [hno]
  next hover => simp [hover]

end Window

/-! ## A function behind the start of its section -/

/-- A function at an offset of a section whose bytes are all different, with one instruction. -/
def nopFunction (value : Vma) : Bfd where
  symbols := [(functionAt "f".toList value).origin]
  contents := fun _ k => UInt8.ofNat k
  disassembler := some fun _ address =>
    if address = 0x1000 + value then instrOf 1 "nop" else ⟨0, []⟩

/-- Eight bytes behind the start, the instruction shows the first byte of the section. -/
theorem nopFunction_bytes_wrong :
    ∃ r, (ExecutableFile.new (nopFunction 8)).runChecked = some r ∧
      ¬CarryOwnBytes (nopFunction 8) ⟨textSection⟩ r.out := by
  rw [ExecutableFile.runChecked_eq, if_pos (by decide +kernel)]
  exact ⟨_, rfl, by decide +kernel⟩

/-- At the start, it shows its own. -/
theorem nopFunction_bytes_right :
    ∃ r, fetchWindowChecked (nopFunction 0) (functionAt "f".toList 0, 0x10) .nil = some r ∧
      CarryOwnBytes (nopFunction 0) ⟨textSection⟩ r.out := by
  refine (fetchWindow_ownBytes_iff rfl (functionAt "f".toList 0, 0x10) .nil
    fun address h => ?_).mpr ⟨by decide +kernel, Or.inr (by decide +kernel)⟩
  by_cases ha : address = 0x1000
  · subst ha
    decide +kernel
  · rw [if_neg (by simpa using ha)] at h
    exact absurd h (by decide)

end Befa
