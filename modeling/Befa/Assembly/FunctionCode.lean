import Befa.Assembly.BlockOwners

/-!
# What is decoded as code

A run decodes a symbol when it or one of its aliases is flagged as a function, with the bytes of
the section its origin points to.  The records of a symbol share an address, but they can point
to different sections.  So the flag and the bytes may come from different sections.

`justified_iff` says for which lists of BFD symbols this cannot happen, whatever the sections hold
and whatever the disassembler does.  A file where every byte is an instruction without a text
(`silent`) decodes every window, which gives the other direction.
-/

namespace Befa

/-- Some BFD symbol flagged as a function is at the address of the symbol and in its section. -/
def Justified (syms : List Asymbol) (s : Symbol) : Prop :=
  ∃ b ∈ syms, b.IsFunction ∧ bfdAsymbolValue b = s.getAddress ∧ b.sect = s.parent.origin

instance (syms : List Asymbol) (s : Symbol) : Decidable (Justified syms s) :=
  inferInstanceAs (Decidable (∃ b ∈ syms, _))

/-- The first BFD symbol at an address. -/
def firstAt (syms : List Asymbol) (address : Vma) : Option Asymbol :=
  syms.find? fun a => bfdAsymbolValue a = address

/-- The origin of a symbol is the first BFD symbol at its address. -/
theorem firstAt_of_mem_symbolTable {syms : List Asymbol} {s : Symbol}
    (h : s ∈ symbolTable syms) : firstAt syms s.getAddress = some s.origin := by
  rw [firstAt, ← List.head?_filter, ← records_of_mem_symbolTable h]
  rfl

/-- A symbol of the table is flagged when some BFD symbol at its address is. -/
theorem hasFlags_of_mem_symbolTable {syms : List Asymbol} {s : Symbol} (h : s ∈ symbolTable syms) :
    s.hasFlags bsfFunction = true ↔
      ∃ b ∈ syms, bfdAsymbolValue b = s.getAddress ∧ b.IsFunction := by
  rw [Symbol.hasFlags_iff, records_of_mem_symbolTable h]
  simp [and_assoc]

/-! ## A disassembler that sees no jumps -/

/-- Every byte is an instruction that prints nothing. -/
def silent : Disassembler := fun _ _ => ⟨1, []⟩

theorem silent_target : matchJump (Decoded.text ⟨1, []⟩) = noJump := by decide +kernel

theorem silent_length : Decoded.length ⟨1, []⟩ = 1 := by decide

theorem silent_noneBelow (info : DisassembleInfo) (a symSize : Vma) :
    NoneBelow a (yieldsOf silent info a symSize) := by
  rintro x (rfl | ⟨y, hy, hj, _⟩)
  · exact le_refl _
  · refine absurd ?_ hj
    rw [Yield.target, (yields_offset 0 hy).2.2.2]
    exact silent_target

theorem mem_silent {info : DisassembleInfo} {a symSize : Vma} {k : Nat}
    (hk : (k : Int) < asInt symSize) : ⟨k, ⟨1, []⟩⟩ ∈ yieldsOf silent info a symSize := by
  suffices h : ∀ offset, offset ≤ k →
      ⟨k, ⟨1, []⟩⟩ ∈ yields silent info a (asInt symSize) offset from h 0 (Nat.zero_le k)
  intro offset
  induction offset using yields.induct silent info a (asInt symSize) with
  | case1 offset r h ih =>
      intro hle
      rw [yields_of_go h]
      by_cases he : offset = k
      · exact List.mem_cons.mpr (Or.inl (by rw [he]; rfl))
      · have hlt : offset + (silent info (a + UInt64.ofNat offset)).length ≤ k := by
          rw [silent, silent_length]
          omega
        exact List.mem_cons_of_mem _ (ih hlt)
  | case2 offset r h =>
      intro hle
      exact absurd ⟨(by decide : (0 : Int32) < 1), by omega⟩ h

/-- A new file where every byte is a silent instruction. -/
def silentFile (syms : List Asymbol) : ExecutableFile := .new ⟨syms, fun _ _ => 0, some silent⟩

theorem silentFile_owned (syms : List Asymbol) : (silentFile syms).Owned :=
  ExecutableFile.owned_of_noneBelow rfl fun _ _ => silent_noneBelow _ _ _

/-- A window of silent instructions ends where its last byte does, so no offset overflows. -/
theorem silentFile_fits (syms : List Asymbol) : (silentFile syms).Fits := by
  intro v _
  refine (windowFits_iff rfl).mpr fun y hy => ?_
  have hinside := (yields_offset 0 hy).2.1
  have hlt := asInt_lt v.input.2
  have hlen : y.decoded.length = 1 := by
    rw [(yields_offset 0 hy).2.2.2]
    exact silent_length
  rw [Yield.stop, hlen, intMax]
  omega

theorem silentFile_decodes (syms : List Asymbol) :
    (silentFile syms).decodes.map (·.input) = windows (symbolTable syms) :=
  visits_input ((ExecutableFile.runDisassembler_eq _).2.1.symm.trans (silentFile_owned syms).raised)

/-! ## Justified code -/

/-- **Every run over some BFD symbols decodes code of the section at hand only, exactly when each
function among them shares its address with a function in the section of the first symbol
there.** -/
theorem justified_iff (syms : List Asymbol) :
    (∀ f : ExecutableFile, f.fd.symbols = syms → ∀ v ∈ f.decodes, Justified syms v.input.1) ↔
      ∀ b ∈ syms, b.IsFunction → ∀ first, firstAt syms (bfdAsymbolValue b) = some first →
        ∃ b' ∈ syms, b'.IsFunction ∧ bfdAsymbolValue b' = bfdAsymbolValue b ∧
          b'.sect = first.sect := by
  constructor
  · intro hall b hb hfun first hfirst
    obtain ⟨s, hs, he⟩ := exists_mem_symbolTable hb
    have hflag := (hasFlags_of_mem_symbolTable hs).mpr ⟨b, hb, he.symm, hfun⟩
    have hin : s ∈ (windows (symbolTable syms)).map Prod.fst := by
      rw [windows_fst]
      exact List.mem_filter.mpr ⟨hs, hflag⟩
    rw [← silentFile_decodes, List.map_map] at hin
    obtain ⟨v, hv, rfl⟩ := List.mem_map.mp hin
    obtain ⟨b', hb', hfun', hval, hsect⟩ := hall (silentFile syms) rfl v hv
    have horigin := firstAt_of_mem_symbolTable hs
    rw [he, hfirst] at horigin
    refine ⟨b', hb', hfun', hval.trans he, hsect.trans ?_⟩
    rw [Option.some.inj horigin]
    exact parent_of_mem_symbolTable hs
  · rintro hall f rfl v hv
    obtain ⟨hs, hflag⟩ := mem_windows (visit_input_mem hv)
    obtain ⟨b, hb, hval, hfun⟩ := (hasFlags_of_mem_symbolTable hs).mp hflag
    have hfirst := firstAt_of_mem_symbolTable hs
    rw [← hval] at hfirst
    obtain ⟨b', hb', hfun', hval', hsect⟩ := hall b hb hfun _ hfirst
    exact ⟨b', hb', hfun', hval'.trans hval, hsect.trans (parent_of_mem_symbolTable hs).symm⟩

/-! ## A section symbol and an undefined function -/

/-- The comment section, loaded at zero. -/
def commentSection : Asection := ⟨1, ".comment".toList, 0, 0x2d⟩

/-- The section of undefined symbols. -/
def undefinedSection : Asection := ⟨2, "*UND*".toList, 0, 0⟩

/-- The symbol of the comment section and an undefined function, both at zero. -/
def commentSymbols : List Asymbol :=
  [⟨3, ".comment".toList, 0, 0x102, commentSection⟩,
    ⟨4, "__libc_start_main".toList, 0, bsfFunction, undefinedSection⟩]

/-- The comment section is decoded, though no function lies in it. -/
theorem commentSymbols_not_justified :
    ¬∀ v ∈ (silentFile commentSymbols).decodes, Justified commentSymbols v.input.1 := by
  decide +kernel

end Befa
