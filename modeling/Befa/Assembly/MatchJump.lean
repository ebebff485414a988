import Befa.Assembly.Bfd
import Befa.Lib.Hex
import Befa.Lib.Regex

/-!
# Recognising jumps

`match_jump` looks for a jump mnemonic in the text of an instruction and reads the number behind
it.  The target is the address in the comment of a `rip` relative operand, a `0x` number, or else
whatever hexadecimal number the rest of the line starts with.
-/

namespace Befa

/-- The mnemonics of the pattern of `match_jump`, in its order. -/
def jumpMnemonics : List Text :=
  ["ja", "jae", "jb", "jbe", "jc", "jcxz", "je", "jecxz", "jg", "jge", "jl", "jle", "jna", "jnae",
    "jnb", "jnbe", "jnc", "jne", "jng", "jnge", "jnl", "jnle", "jno", "jnp", "jns", "jnz", "jo",
    "jp", "jpe", "jpo", "js", "jz", "jmp"].map String.toList

/-- `0x0*([0-9a-f]+)`. -/
def hexTarget : Regex Char :=
  .seq (.str "0x".toList) (.seq (.many true (fun c => c = '0')) (.group 1 (.plus true isLowerHex)))

/-- `\w+ PTR \[rip[^\]]+\]\s+# ` and a number. -/
def ripTarget : Regex Char :=
  .seq (.plus true isWordChar) (.seq (.str " PTR [rip".toList) (.seq (.plus true (fun c => c ≠ ']'))
    (.seq (.str "]".toList) (.seq (.plus true isSpaceChar) (.seq (.str "# ".toList) hexTarget)))))

/-- The pattern of `match_jump`.  The branches share group 1. -/
def jumpRegex : Regex Char :=
  .seq (.alts (jumpMnemonics.map .str)) (.seq (.plus true isSpaceChar)
    (.alts [ripTarget, hexTarget, .group 1 (.many true fun c => c ≠ '\n')]))

/-- What `match_jump` returns for an instruction that is no jump. -/
def noJump : UInt64 := -1

/-- What `match_jump` returns for a jump whose target it cannot read. -/
def unknownTarget : UInt64 := -2

/-- `match_jump`. -/
def matchJump (instr : Text) : UInt64 :=
  match jumpRegex.search instr with
  | none => noJump
  | some m =>
      let (addr, good) := extractHex (m.caps 1)
      if good then addr else unknownTarget

example : matchJump "jmp    0x00001001".toList = 0x1001 := by decide +kernel

example : matchJump "jmp    QWORD PTR [rip+0x12]        # 0x601018".toList = 0x601018 := by
  decide +kernel

example : matchJump "jmp    QWORD PTR [rax]".toList = unknownTarget := by decide +kernel

end Befa
