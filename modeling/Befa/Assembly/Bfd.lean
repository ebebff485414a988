import Befa.Lib.Word

/-!
# BFD records and the adapters around them

`Asection` and `Asymbol` hold the fields of the BFD records that the library reads.  A record
carries the address it lies at (`ptr`), so two records are equal exactly when they are one
object, and comparing pointers is comparing records.

`Section` and `Symbol` are the adapters of `section.hpp` and `symbol.hpp`.  A `weak_ptr` to one
of them is the adapter itself.
-/

namespace Befa

/-- A `std::string`.  A character stands for a byte. -/
abbrev Text := List Char

-- What holds of the characters of a text is decided on the text, not on all characters.
instance (priority := high) decidableForallMemText (p : Char → Prop) [DecidablePred p] (s : Text) :
    Decidable (∀ c ∈ s, p c) := List.decidableBAll p s

instance (priority := high) decidableForallMemHead (p : Char → Prop) [DecidablePred p]
    (c? : Option Char) : Decidable (∀ c ∈ c?, p c) := Option.decidableForallMem c?

/-- `bfd_vma`. -/
abbrev Vma := UInt64

/-! ## BFD -/

/-- `asection`. -/
structure Asection where
  /-- Where the record lies. -/
  ptr : Nat
  name : Text
  /-- The address the section is loaded at. -/
  vma : Vma
  size : Vma
deriving DecidableEq

/-- `asymbol`. -/
structure Asymbol where
  /-- Where the record lies. -/
  ptr : Nat
  name : Text
  /-- The offset in the section. -/
  value : Vma
  flags : UInt32
  /-- The section the symbol points to. -/
  sect : Asection
deriving DecidableEq

/-- `bfd_asymbol_value`. -/
def bfdAsymbolValue (sym : Asymbol) : Vma := sym.sect.vma + sym.value

/-- `BSF_FUNCTION`. -/
def bsfFunction : UInt32 := 0x08

/-- The symbol is flagged `BSF_FUNCTION`. -/
def Asymbol.IsFunction (sym : Asymbol) : Prop := sym.flags &&& bsfFunction ≠ 0

instance (sym : Asymbol) : Decidable sym.IsFunction := inferInstanceAs (Decidable (_ ≠ _))

/-! ## Section -/

/-- `befa::Section`. -/
structure Section where
  /-- The record it adapts. -/
  origin : Asection
deriving DecidableEq

def Section.getName (s : Section) : Text := s.origin.name

def Section.getSize (s : Section) : Vma := s.origin.size

def Section.getAddress (s : Section) : Vma := s.origin.vma

/-! ## Symbol -/

/-- `befa::Symbol<befa::Section>`. -/
structure Symbol where
  /-- The record it adapts. -/
  origin : Asymbol
  /-- The section it belongs to. -/
  parent : Section
  /-- The other records at its address. -/
  aliases : List Asymbol
deriving DecidableEq

namespace Symbol

def getName (s : Symbol) : Text := s.origin.name

/-- The origin is never null here, since the symbol table holds no null entry. -/
def getAddress (s : Symbol) : Vma := bfdAsymbolValue s.origin

/-- `getDistance(rhs)`: how far `rhs` lies behind the symbol. -/
def getDistance (s rhs : Symbol) : Vma := rhs.getAddress - s.getAddress

/-- `getDistance(fd)`: how far the end of the section lies behind the symbol. -/
def getDistanceToEnd (s : Symbol) : Vma :=
  s.parent.getSize - (s.getAddress - s.parent.getAddress)

def getFlags (s : Symbol) : UInt32 := s.origin.flags

/-- The flag test that looks at the aliases too. -/
def hasFlags (s : Symbol) (flag : UInt32) : Bool :=
  decide (s.getFlags &&& flag ≠ 0) || s.aliases.any fun a => decide (a.flags &&& flag ≠ 0)

def addAlias (s : Symbol) (a : Asymbol) : Symbol := { s with aliases := s.aliases ++ [a] }

@[simp] theorem addAlias_getAddress (s : Symbol) (a : Asymbol) :
    (s.addAlias a).getAddress = s.getAddress := rfl

/-- The records a symbol stands for. -/
def records (s : Symbol) : List Asymbol := s.origin :: s.aliases

@[simp] theorem addAlias_records (s : Symbol) (a : Asymbol) :
    (s.addAlias a).records = s.records ++ [a] := rfl

/-- A symbol is flagged when one of its records is. -/
theorem hasFlags_iff {s : Symbol} :
    s.hasFlags bsfFunction = true ↔ ∃ a ∈ s.records, a.IsFunction := by
  simp only [hasFlags, Bool.or_eq_true, decide_eq_true_eq, List.any_eq_true, records,
    List.mem_cons, exists_eq_or_imp]
  exact Iff.rfl

end Symbol

end Befa
