import Befa.Assembly.Bfd
import Befa.Lib.Hex
import Mathlib.Data.List.Nodup

/-!
# Symbols of operands

The classes of `namespace symbol_table`.  A *symbol* is what an operand of an instruction, or an
operand of the intermediate language, stands for.  All of them have a name and an address.  The
name of a compound symbol is computed from the names of its parts when it is built, and the
address is `2 ^ 64 - 1` unless a constructor was given one.

`registers` is the table of the registers of the machine, each with its size.
-/

namespace Befa

/-! ## Sizes -/

/-- The types of `symbol_table::types` that registers and temporaries have. -/
inductive Size where
  | bit | byte | word | dword | qword | xmm
deriving DecidableEq

/-- `type_trait::name`. -/
def Size.name : Size → Text
  | .bit => "BIT".toList
  | .byte => "BYTE".toList
  | .word => "WORD".toList
  | .dword => "DWORD".toList
  | .qword => "QWORD".toList
  | .xmm => "XMMWORD".toList

/-- `type_trait::size`, in bits. -/
def Size.bits : Size → Nat
  | .bit => 1
  | .byte => 8
  | .word => 16
  | .dword => 32
  | .qword => 64
  | .xmm => 128

/-! ## Symbols -/

/-- An object of one of the classes of `namespace symbol_table`. -/
inductive Sym where
  /-- `Symbol`. -/
  | symbol (name : Text) (address : Vma)
  /-- `Temporary(lhs, op, rhs)`. -/
  | temporary (lhs : Sym) (op : Text) (rhs : Sym)
  /-- `Temporary(op, rhs)`. -/
  | unaryTemporary (op : Text) (rhs : Sym)
  /-- `SizedTemporary(op, rhs)`. -/
  | sizedTemporary (size : Size) (op : Text) (rhs : Sym)
  /-- `SizedTemporary(temp)`. -/
  | namedTemporary (size : Size) (temp : Text)
  /-- `Register`. -/
  | register (size : Size) (name : Text)
  /-- `Function`, with the name and the address of its callee. -/
  | function (callee : Text) (address : Vma)
  /-- `Immidiate`. -/
  | immidiate (value : Text)
deriving DecidableEq

/-- A `shared_ptr` to a symbol. -/
abbrev SymPtr := Option Sym

/-- The address of a symbol that was given none. -/
def nonAddress : Vma := -1

/-- `Temporary::fetchName`, on the names of the operands.  The name of a null pointer is `""`. -/
def fetchName (rhs op lhs : Text) : Text :=
  if lhs = [] ∧ op ≠ [] then lhs ++ op ++ ("(".toList ++ rhs ++ ")".toList)
  else if op ≠ [] then "(".toList ++ lhs ++ ") ".toList ++ op ++ " (".toList ++ rhs ++ ")".toList
  else lhs ++ op ++ rhs

/-- A name with its size in front, as registers and sized temporaries have it. -/
def sizedName (size : Size) (name : Text) : Text :=
  "((".toList ++ size.name ++ ")".toList ++ name ++ ")".toList

namespace Sym

/-- `Symbol::getName`. -/
def getName : Sym → Text
  | symbol name _ => name
  | temporary lhs op rhs => fetchName rhs.getName op lhs.getName
  | unaryTemporary op rhs => fetchName rhs.getName op []
  | sizedTemporary size op rhs => sizedName size (fetchName rhs.getName op [])
  | namedTemporary _ temp => temp
  | register size name => sizedName size name
  | function callee _ => "@".toList ++ callee
  | immidiate value => value

/-- `Symbol::getAddress`. -/
def getAddress : Sym → Vma
  | symbol _ address => address
  | function _ address => address
  | _ => nonAddress

end Sym

/-! ## Registers -/

/-- The names of the registers and their sizes. -/
def registers : List (Text × Size) :=
  ([
    ("rax", .qword), ("al", .byte), ("ah", .byte), ("ax", .word), ("eax", .dword),
    ("rbx", .qword), ("bl", .byte), ("bh", .byte), ("bx", .word), ("ebx", .dword),
    ("rcx", .qword), ("cl", .byte), ("ch", .byte), ("cx", .word), ("ecx", .dword),
    ("rdx", .qword), ("dl", .byte), ("dh", .byte), ("dx", .word), ("edx", .dword),
    ("rdi", .qword), ("di", .word), ("edi", .dword), ("rsi", .qword), ("si", .word),
    ("esi", .dword), ("rsp", .qword), ("sp", .word), ("esp", .dword), ("rbp", .qword),
    ("bp", .word), ("ebp", .dword), ("rip", .qword), ("ip", .word), ("eip", .dword),
    ("rcs", .qword), ("cs", .word), ("ecs", .dword), ("rds", .qword), ("ds", .word),
    ("eds", .dword), ("res", .qword), ("es", .word), ("ees", .dword), ("rfs", .qword),
    ("fs", .word), ("efs", .dword), ("rgs", .qword), ("gs", .word), ("egs", .dword),
    ("rss", .qword), ("ss", .word), ("ess", .dword), ("cf", .bit), ("pf", .bit), ("af", .bit),
    ("zf", .bit), ("sf", .bit), ("tf", .bit), ("if", .bit), ("df", .bit), ("of", .bit),
    ("iopl", .bit), ("nt", .bit), ("rf", .bit), ("vm", .bit), ("ac", .bit), ("vif", .bit),
    ("vip", .bit), ("id", .bit), ("r8", .qword), ("r8d", .dword), ("r8w", .word), ("r8b", .byte),
    ("r8h", .byte), ("r9", .qword), ("r9d", .dword), ("r9w", .word), ("r9b", .byte),
    ("r9h", .byte), ("r10", .qword), ("r10d", .dword), ("r10w", .word), ("r10b", .byte),
    ("r10h", .byte), ("r11", .qword), ("r11d", .dword), ("r11w", .word), ("r11b", .byte),
    ("r11h", .byte), ("r12", .qword), ("r12d", .dword), ("r12w", .word), ("r12b", .byte),
    ("r12h", .byte), ("r13", .qword), ("r13d", .dword), ("r13w", .word), ("r13b", .byte),
    ("r13h", .byte), ("r14", .qword), ("r14d", .dword), ("r14w", .word), ("r14b", .byte),
    ("r14h", .byte), ("r15", .qword), ("r15d", .dword), ("r15w", .word), ("r15b", .byte),
    ("r15h", .byte), ("xmm0", .xmm), ("xmm1", .xmm), ("xmm2", .xmm), ("xmm3", .xmm),
    ("xmm4", .xmm), ("xmm5", .xmm), ("xmm6", .xmm), ("xmm7", .xmm)] :
    List (String × Size)).map fun r => (r.1.toList, r.2)

/-- The object of a register. -/
def registerOf (r : Text × Size) : Sym := .register r.2 ('_' :: r.1)

/-- `registers.find`. -/
def findRegister (name : Text) : SymPtr := (registers.find? (·.1 = name)).map registerOf

theorem registers_nodup : (registers.map Prod.fst).Nodup :=
  -- numbers are compared faster than names
  List.Nodup.of_map (fun name => name.foldl (fun n c => 256 * n + c.toNat) 0) (by decide +kernel)

theorem findRegister_of_mem {r : Text × Size} (h : r ∈ registers) :
    findRegister r.1 = some (registerOf r) := by
  obtain ⟨before, after, hs⟩ := List.append_of_mem h
  have hnodup := registers_nodup
  rw [hs, List.map_append, List.map_cons, List.nodup_append] at hnodup
  have hfind : registers.find? (·.1 = r.1) = some r := by
    refine List.find?_eq_some_iff_append.mpr ⟨by simp, before, after, hs, fun q hq => ?_⟩
    have hne : q.1 ≠ r.1 := hnodup.2.2 q.1 (List.mem_map_of_mem hq) r.1 (List.mem_cons_self ..)
    simpa using hne
  rw [findRegister, hfind, Option.map_some]

theorem findRegister_eq_none {name : Text} (h : ∀ r ∈ registers, r.1 ≠ name) :
    findRegister name = none := by
  rw [findRegister, Option.map_eq_none_iff, List.find?_eq_none]
  exact fun r hr => by simpa using h r hr

theorem registers_isWord : ∀ r ∈ registers, r.1 ≠ [] ∧ ∀ c ∈ r.1, isWordChar c = true := by
  have h : ∀ r ∈ registers, r.1 ≠ [] ∧ r.1.all isWordChar = true := by decide +kernel
  exact fun r hr => ⟨(h r hr).1, List.all_eq_true.mp (h r hr).2⟩

end Befa
