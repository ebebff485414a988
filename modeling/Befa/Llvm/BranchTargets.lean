import Befa.Assembly.JumpBlocks
import Befa.Assembly.JumpTargets
import Befa.Llvm.DefUse

/-!
# The targets of branches

The text of a jump is read twice.  `match_jump` takes the address from it that the stream is cut at,
and `JumpFactory` takes its first operand, which comes from another pattern.  Both read the same
number (`ConditionalJump.Shown.matchJump`, `ConditionalJump.Shown.args`), unless its digits spell a
register.

So the branches of a decompiled file lead from block to block (`branches_of_run`).
-/

namespace Befa

/-! ## Conditional jumps -/

/-- A jump that `JumpFactory` translates, with the address it goes to. -/
structure ConditionalJump where
  name : Name
  translated : name.text ∈ jumps .gt ∨ name.text ∈ jumps .le
  blanks : Nat
  target : LowerHex
  /-- Not the marker of no jump. -/
  small : hexValue target.digits < 2 ^ 64 - 1
  /-- The digits spell no register. -/
  unnamed : target.digits ∉ registerDigits

/-- The null characters behind a printed text. -/
def padding (n : Nat) : Text := List.replicate n nul

theorem head_padding {n : Nat} {c : Char} (h : c ∈ (padding n).head?) : c = nul :=
  List.eq_of_mem_replicate (List.mem_of_head? h)

theorem stops_padding {p : Char → Bool} (hp : p nul = false) (n : Nat) : Stops p (padding n) :=
  fun _ hc => head_padding hc ▸ hp

/-- No piece starts in the padding. -/
theorem split_padding (n : Nat) : split (padding n) = [] := by
  induction n with
  | zero => exact split_nil
  | succ n ih => exact (split_separator (by decide) _).trans ih

namespace ConditionalJump

variable (j : ConditionalJump)

/-- The operand. -/
def operand : HexNumber :=
  ⟨j.target.digits, j.target.nonempty, fun c hc => isHexDigit_of_isLowerHex (j.target.lower c hc)⟩

/-- `J 0x...`. -/
def text : Text := instructionText j.name (j.blanks + 1) [j.operand.text] none

def address : Vma := UInt64.ofNat (hexValue j.target.digits)

/-- The text of the instruction is that of the jump and padding. -/
def Shown (i : Instruction) : Prop := ∃ n, i.decoded = j.text ++ padding n

theorem text_append (s : Text) :
    j.text ++ s = j.name.text ++ (blanksText (j.blanks + 1) ++ (j.operand.text ++ s)) := by
  simp [text, instructionText, operandsText, commentText]

theorem listed : j.name.text ∈ jumpMnemonics := by
  have h : ∀ name ∈ jumps .gt ++ jumps .le, name ∈ jumpMnemonics := by decide +kernel
  exact h _ (List.mem_append.mpr j.translated)

variable {j} {i : Instruction}

/-- `match_jump` reads the address. -/
theorem Shown.matchJump (h : j.Shown i) : matchJump i.decoded = j.address := by
  obtain ⟨n, htext⟩ := h
  have hstops : Stops isSpaceChar (j.operand.text ++ padding n) := stops_cons.mpr (by decide)
  have hnumber : StartsWithNumber (j.operand.text ++ padding n) j.target :=
    ⟨padding n, rfl, stops_padding (by decide) n⟩
  have hcomment : ∀ t, ¬HasComment (j.operand.text ++ padding n) t := by
    intro t ht
    obtain ⟨x, sp, y, -, -, hnuls⟩ :=
      hasComment_inv j.operand.text_isWord (stops_padding (by decide) n) ht
    exact absurd (head_padding (hnuls ▸ rfl : ' ' ∈ (padding n).head?)) (by decide)
  rw [htext, text_append, matchJump_listed j.listed j.blanks hstops,
    targetOf_number hcomment hnumber, readTarget_of_lt _ (j.small.trans (by decide)), address]

theorem Shown.isJump (h : j.Shown i) : i.IsJump := by
  have hlt : hexValue j.target.digits < UInt64.size := j.small.trans (by decide)
  rw [Instruction.IsJump, h.matchJump, address, ne_eq, ← UInt64.toNat_inj,
    UInt64.toNat_ofNat_of_lt' hlt]
  exact j.small.ne

/-- The parser finds the mnemonic and the digits. -/
theorem Shown.parse (h : j.Shown i) : i.parse = [j.name.text, j.operand.digits] := by
  obtain ⟨n, htext⟩ := h
  have hblanks : Stops isWordChar (blanksText (j.blanks + 1) ++ (j.operand.text ++ padding n)) :=
    stops_cons.mpr (by decide)
  have htail : NoTail (blanksText j.blanks ++ (j.operand.text ++ padding n)) := by
    refine noTail_of_head fun c hc => ?_
    rcases mem_head?_blanksText hc with rfl | hc
    · decide
    · obtain rfl := Option.some.inj hc
      decide
  rw [Instruction.parse, htext, text_append, split_name j.name hblanks (head_ne (by decide) _)
    htail, split_blanks, split_immediate j.operand (stops_padding (by decide) n), split_padding]
  · exact fun c hc => head_padding hc ▸ by decide
  · exact not_pointerTail fun c hc => head_padding hc ▸ by decide

/-- The only operand is the address. -/
theorem Shown.args (h : j.Shown i) :
    ∃ text, i.args .nil = [.immidiate text] ∧ hexValue text = hexValue j.target.digits := by
  have hlt : hexValue j.operand.digits < 2 ^ 64 := j.small.trans (by decide)
  have hnone : (.nil : SymMap).find? (UInt64.ofNat (hexValue j.operand.digits)) = none := rfl
  obtain ⟨text, htext, hvalue⟩ := (handleExpression_digits j.operand hlt hnone).mpr j.unnamed
  refine ⟨text, ?_, hvalue⟩
  rw [Instruction.args, h.parse, List.drop_one, List.tail_cons, List.filterMap_cons_some htext,
    List.filterMap_nil]

end ConditionalJump

/-! ## Branches -/

/-- A branch comes from a jump that is translated and has an operand. -/
theorem Translates.branch {i : Instruction} {t : SymTable} {r : Emitted SymTable Ir Text}
    (h : Translates i t r) {assembly : List Instruction} {condition target : SymPtr}
    (hb : .branch assembly condition target ∈ r.out) :
    assembly = [i] ∧ (∃ name, i.getName = some name ∧ (name ∈ jumps .gt ∨ name ∈ jumps .le)) ∧
      ∃ sym ∈ i.args .nil, target = some sym := by
  refine ⟨h.assembly _ hb, ?_⟩
  cases h with
  | raises reason => exact absurd hb List.not_mem_nil
  | other => exact absurd hb List.not_mem_nil
  | call => simp at hb
  | cmp => simp [cmpIr] at hb
  | test => simp [testIr] at hb
  | @jump name constant op branch raised hname hjumps _ hbranch =>
      have hlast : .branch assembly condition target ∈ branch := by
        simpa [conditionIr] using hb
      obtain ⟨-, sym, hsym, rfl⟩ | ⟨-, rfl⟩ := hbranch
      · refine ⟨⟨name, hname, hjumps⟩, sym, hsym, ?_⟩
        cases List.mem_singleton.mp hlast
        rfl
      · exact absurd hlast List.not_mem_nil

/-- The branches that are emitted for a run lead from block to block, when its jumps do. -/
theorem ExecutableFile.branches_of_reduceInstr {fd : Bfd} {dis : Disassembler}
    (hdis : fd.disassembler = some dis)
    (h : ∀ w ∈ windows (symbolTable fd.symbols), MeetsAll w.1.getAddress (windowYields fd dis w))
    (hjumps : ∀ i ∈ (ExecutableFile.new fd).runDisassembler.out, ∀ name ∈ i.getName,
      name ∈ jumps .gt ∨ name ∈ jumps .le → ∃ j : ConditionalJump, j.Shown i)
    (t : SymTable) {assembly : List Instruction} {condition target : SymPtr}
    (hb : .branch assembly condition target ∈
      (reduceInstr factories (ExecutableFile.new fd).runDisassembler.out t).out) :
    ∃ i ∈ (ExecutableFile.new fd).runDisassembler.out, assembly = [i] ∧
      ∃ text, target = some (.immidiate text) ∧
        Leads (ExecutableFile.new fd).runDisassembler.out i (UInt64.ofNat (hexValue text)) := by
  rw [out_reduceInstr] at hb
  obtain ⟨v, hv, hb⟩ := List.mem_flatMap.mp hb
  have hi := visit_input_mem hv
  obtain ⟨hassembly, ⟨name, hname, hlisted⟩, sym, hsym, htarget⟩ :=
    (translates_of_mapped hv).branch hb
  obtain ⟨j, hj⟩ := hjumps _ hi name hname hlisted
  obtain ⟨text, hargs, hvalue⟩ := hj.args
  rw [hargs, List.mem_singleton] at hsym
  refine ⟨v.input, hi, hassembly, text, hsym ▸ htarget, ?_⟩
  have hleads := leads_of_run hdis h hi hj.isJump
  rwa [hj.matchJump, ConditionalJump.address, ← hvalue] at hleads

/-- **Branches lead from block to block**, when the jumps of a file do and no offset overflows. -/
theorem ExecutableFile.branches_of_run {fd : Bfd} {dis : Disassembler}
    (hdis : fd.disassembler = some dis)
    (h : ∀ w ∈ windows (symbolTable fd.symbols), MeetsAll w.1.getAddress (windowYields fd dis w))
    {r : Emitted ExecutableFile Instruction Text}
    (hrun : (ExecutableFile.new fd).runChecked = some r)
    (hjumps : ∀ i ∈ r.out, ∀ name ∈ i.getName,
      name ∈ jumps .gt ∨ name ∈ jumps .le → ∃ j : ConditionalJump, j.Shown i)
    (t : SymTable) {assembly : List Instruction} {condition target : SymPtr}
    (hb : .branch assembly condition target ∈ (reduceInstr factories r.out t).out) :
    ∃ i ∈ r.out, assembly = [i] ∧ ∃ text, target = some (.immidiate text) ∧
      Leads r.out i (UInt64.ofNat (hexValue text)) := by
  obtain ⟨-, rfl⟩ := runChecked_eq_some hrun
  exact branches_of_reduceInstr hdis h hjumps t hb

/-- `ja` over an instruction, and where it goes to. -/
def jumpOver : Disassembler := fun _ address =>
  if address = 0x1008 then instrOf 2 "ja     0x100b"
  else if address = 0x100a ∨ address = 0x100b then instrOf 1 "nop"
  else ⟨0, []⟩

/-- A file with one function, which jumps forward. -/
def jumpFunction : Bfd := { nopFunction 8 with disassembler := some jumpOver }

/-- The jump of the function. -/
def jumpInstr : Instruction :=
  ((ExecutableFile.new jumpFunction).runDisassembler.out.head?).getD (instructionOf "")

/-- What the jump shows. -/
def jaText : ConditionalJump where
  name := ⟨⟨"ja".toList, by decide, by decide⟩, by decide⟩
  translated := Or.inl (by decide)
  blanks := 4
  target := ⟨"100b".toList, by decide, by decide⟩
  small := by decide
  unnamed := by decide

/-- The branch leads to the second `nop`. -/
theorem ExecutableFile.branches_of_run_jump :
    ∃ i ∈ (ExecutableFile.new jumpFunction).runDisassembler.out, [jumpInstr] = [i] ∧
      ∃ text, some (.immidiate "100b".toList) = some (Sym.immidiate text) ∧
        Leads (ExecutableFile.new jumpFunction).runDisassembler.out i
          (UInt64.ofNat (hexValue text)) := by
  have hbranch : .branch [jumpInstr] (some tempResult) (some (.immidiate "100b".toList)) ∈
      (reduceInstr factories (ExecutableFile.new jumpFunction).runDisassembler.out
        flagTable).out := by
    have hout : (reduceInstr factories (ExecutableFile.new jumpFunction).runDisassembler.out
        flagTable).out.drop 3 =
        [.branch [jumpInstr] (some tempResult) (some (.immidiate "100b".toList))] := by
      decide +kernel
    exact List.mem_of_mem_drop (hout ▸ List.mem_singleton_self _)
  have hdis : jumpFunction.disassembler = some jumpOver := rfl
  have hrun : (ExecutableFile.new jumpFunction).runChecked =
      some (ExecutableFile.new jumpFunction).runDisassembler := by
    rw [ExecutableFile.runChecked_eq, if_pos (by decide +kernel)]
  refine branches_of_run hdis ?_ hrun ?_ flagTable hbranch
  · have htargets : ∀ w ∈ windows (symbolTable jumpFunction.symbols),
        w.1.getAddress.toNat + 2 ^ 32 ≤ 2 ^ 64 ∧
          ∀ y ∈ windowYields jumpFunction jumpOver w, y.target ≠ noJump →
            ∃ z ∈ windowYields jumpFunction jumpOver w, z.address w.1.getAddress = y.target := by
      decide +kernel
    exact fun w hw => MeetsAll.of_targets (htargets w hw).1
      fun y hy hjump => Or.inl ((htargets w hw).2 y hy hjump)
  · have htexts : ∀ i ∈ (ExecutableFile.new jumpFunction).runDisassembler.out,
        i.decoded = jaText.text ++ padding 1 ∨ i.getName = some "nop".toList := by
      decide +kernel
    intro i hi name hname hlisted
    rcases htexts i hi with h | h
    · exact ⟨jaText, 1, h⟩
    · obtain rfl := Option.some.inj (h.symm.trans hname)
      exact absurd hlisted (by decide)

end Befa
