import Befa.Assembly.Listing

/-!
# What a listing shows

A listing shows an instruction by its mnemonic and the names of its operands, below the names of
its section and its symbol and the number of its block.  `Listed` is what that says of the
instruction: the operands as symbols, up to what their names do not show.

`readListing_eq_iff` says that no more and no less is shown: two listings are read alike exactly
when the two files have the same instructions, seen so.
-/

namespace Befa

open Parens

/-- An instruction as a listing shows it. -/
structure Listed where
  sec : Text
  sym : Text
  bb : Vma
  address : Vma
  name : Text
  operands : List Sym

/-- What is shown of an instruction that has a name.  Operands without a name are left out. -/
def listedOf (functions : SymMap) (i : Instruction) : Option Listed :=
  i.getName.map fun name => ⟨cString i.parent.parent.parent.getName, cString i.parent.parent.getName,
    i.parent.id, i.address, name, ((i.args functions).filter (·.getName ≠ [])).map Sym.spelled⟩

/-- The instructions of a file that are printed. -/
def ExecutableFile.listed (f : ExecutableFile) : List Listed :=
  (f.runDisassembler.out.takeWhile (·.getName.isSome)).filterMap (listedOf f.functions)

/-! ## One instruction -/

/-- The functions have names that can be told apart from what is printed around them. -/
structure ClearFunctions (functions : SymMap) : Prop where
  callees : Callees functions
  separated : ∀ e ∈ functions.items, nul ∉ e.2.getName ∧ ',' ∉ e.2.getName

/-- The pieces of an instruction can, too. -/
structure ClearInstr (i : Instruction) : Prop where
  name : ∀ name ∈ i.getName, ' ' ∉ name
  pieces : ∀ p ∈ i.parse, Unmarked p ∧ ',' ∉ p ∧ nul ∉ p

theorem cString_of_notMem {s : Text} (h : nul ∉ s) : cString s = s :=
  List.takeWhile_eq_self_iff.mpr fun c hc => by
    simp only [ne_eq, decide_eq_true_eq]
    rintro rfl
    exact h hc

section Instr

variable {functions functions' : SymMap} {i j : Instruction}

/-- The names of the operands. -/
def namesOf (functions : SymMap) (i : Instruction) : List Text :=
  ((i.args functions).filter (·.getName ≠ [])).map Sym.getName

theorem params_eq (functions : SymMap) (i : Instruction) :
    params functions i = (namesOf functions i).foldl (joinStep ", ".toList) [] := by
  rw [params, namesOf, List.filter_map]
  rfl

/-- The operands that are printed have names that are found again and can be read. -/
theorem ClearInstr.operand (hf : ClearFunctions functions) (hi : ClearInstr i) {sym : Sym}
    (h : sym ∈ (i.args functions).filter (·.getName ≠ [])) :
    sym.Readable ∧ sym.getName ≠ [] ∧ ',' ∉ sym.getName := by
  obtain ⟨hmem, hne⟩ := List.mem_filter.mp h
  obtain ⟨p, hp, hexpr⟩ := List.mem_filterMap.mp hmem
  obtain ⟨hmarks, hcomma, -⟩ := hi.pieces p (List.mem_of_mem_drop hp)
  have hparses := Parses.ofHandleExpression hexpr
  exact ⟨hparses.readable hf.callees hmarks, of_decide_eq_true hne,
    hparses.notMem (by decide) (fun e he => (hf.separated e he).2) hcomma⟩

theorem ClearInstr.cString_params (hf : ClearFunctions functions) (hi : ClearInstr i) :
    cString (params functions i) = params functions i :=
  cString_of_notMem
    (notMem_params (by decide) (by decide) (fun e he => (hf.separated e he).1)
      fun p hp => (hi.pieces p hp).2.2)

theorem ClearInstr.cString_name (hi : ClearInstr i) {name : Text} (h : i.getName = some name) :
    cString name = name :=
  cString_of_notMem (hi.pieces name (List.mem_of_head? h)).2.2

/-- Operands are printed alike when they are spelled alike. -/
theorem params_eq_iff (hf : ClearFunctions functions) (hf' : ClearFunctions functions')
    (hi : ClearInstr i) (hj : ClearInstr j) :
    params functions i = params functions' j ↔
      ((i.args functions).filter (·.getName ≠ [])).map Sym.spelled =
        ((j.args functions').filter (·.getName ≠ [])).map Sym.spelled := by
  have hsymbols : namesOf functions i = namesOf functions' j ↔ _ :=
    map_eq_map_of_iff fun sym hs sym' hs' =>
      ⟨(hi.operand hf hs).1.spelled_inj (hj.operand hf' hs').1,
        fun h => by rw [← sym.getName_spelled, h, sym'.getName_spelled]⟩
  have hnames : ∀ {functions : SymMap} {i : Instruction}, ClearFunctions functions → ClearInstr i →
      ∀ name ∈ namesOf functions i, name ≠ [] ∧ ',' ∉ name := by
    intro functions i hf hi name hname
    obtain ⟨sym, hs, rfl⟩ := List.mem_map.mp hname
    exact (hi.operand hf hs).2
  rw [params_eq, params_eq, ← hsymbols]
  exact ⟨foldl_joinStep_inj (hnames hf hi) (hnames hf' hj), fun h => by rw [h]⟩

/-- **Two rows are alike exactly when they show the same instruction.** -/
theorem rowOf_eq_iff (hf : ClearFunctions functions) (hf' : ClearFunctions functions')
    (hi : ClearInstr i) (hj : ClearInstr j) :
    rowOf functions i = rowOf functions' j ↔ listedOf functions i = listedOf functions' j := by
  rw [rowOf, rowOf, listedOf, listedOf]
  cases hn : i.getName with
  | none => cases j.getName <;> simp
  | some name =>
      cases hn' : j.getName with
      | none => simp
      | some name' =>
          have htext : name ++ " ".toList ++ params functions i =
              name' ++ " ".toList ++ params functions' j ↔
                name = name' ∧ params functions i = params functions' j := by
            rw [List.append_assoc, List.append_assoc]
            refine ⟨append_cons_inj (hi.name name hn) (hj.name name' hn'), ?_⟩
            rintro ⟨rfl, hparams⟩
            rw [hparams]
          simp only [Option.map_some, Option.some.injEq, Row.mk.injEq, Listed.mk.injEq,
            hi.cString_name hn, hj.cString_name hn', hi.cString_params hf, hj.cString_params hf',
            htext, params_eq_iff hf hf' hi hj]

end Instr

/-! ## A file -/

/-- The names and the texts of a file can be told apart in its listing. -/
structure ClearFile (fd : Bfd) : Prop where
  names : ∀ b ∈ fd.symbols, PlainName b.name ∧ PlainName b.sect.name
  functions : ∀ b ∈ fd.symbols, nul ∉ b.name ∧ ',' ∉ b.name ∧ Balanced '(' ')' b.name
  texts : ∀ i ∈ (ExecutableFile.new fd).runDisassembler.out, '\n' ∉ i.decoded ∧ ClearInstr i

theorem ClearFile.clearFunctions {fd : Bfd} (h : ClearFile fd) :
    ClearFunctions (ExecutableFile.new fd).functions := by
  have hentry : ∀ e ∈ (ExecutableFile.new fd).functions.items,
      ∃ b ∈ fd.symbols, e.2 = .function b.name e.1 := by
    intro e he
    obtain ⟨b, hb, -, heq⟩ := ExecutableFile.mem_functions he
    exact ⟨b, hb, heq⟩
  refine ⟨fun e he => ?_, fun e he => ?_⟩ <;> obtain ⟨b, hb, heq⟩ := hentry e he <;> rw [heq] <;>
    obtain ⟨hnul, hcomma, hbalanced⟩ := h.functions b hb
  · exact ⟨.function hbalanced, List.cons_ne_nil _ _⟩
  · exact ⟨List.not_mem_cons_of_ne_of_not_mem (by decide) hnul,
      List.not_mem_cons_of_ne_of_not_mem (by decide) hcomma⟩

namespace ExecutableFile

/-- The rows of two files are alike exactly when the files show the same. -/
theorem rows_eq_iff {fd fd' : Bfd} (h : ClearFile fd) (h' : ClearFile fd') :
    rows .start (ExecutableFile.new fd).listing.out =
        rows .start (ExecutableFile.new fd').listing.out ↔
      (ExecutableFile.new fd).listed = (ExecutableFile.new fd').listed := by
  have hmem : ∀ {out : List Instruction} {i : Instruction},
      i ∈ out.takeWhile (·.getName.isSome) → i ∈ out ∧ i.getName.isSome = true := fun hi =>
    ⟨(List.takeWhile_sublist _).subset hi,
      List.mem_takeWhile_imp (p := fun i : Instruction => i.getName.isSome) hi⟩
  have hinj := List.map_injective_iff.mpr (Option.some_injective Row)
  have hinj' := List.map_injective_iff.mpr (Option.some_injective Listed)
  rw [rows_listing, rows_listing, listed, listed, ← hinj.eq_iff, ← hinj'.eq_iff,
    map_some_filterMap, map_some_filterMap, map_some_filterMap, map_some_filterMap]
  · exact map_eq_map_of_iff fun i hi j hj => rowOf_eq_iff h.clearFunctions h'.clearFunctions
      (h.texts i (hmem hi).1).2 (h'.texts j (hmem hj).1).2
  all_goals
    intro i hi
    simp [rowOf, listedOf, (hmem hi).2]

/-- **Two listings are read alike exactly when the files have the same instructions**, up to what
the names of operands do not show. -/
theorem readListing_eq_iff {fd fd' : Bfd} (h : ClearFile fd) (h' : ClearFile fd')
    {mark mark' : Text} (hmark : '\n' ∉ mark) (hmark' : '\n' ∉ mark') :
    readListing mark ((ExecutableFile.new fd).print mark) =
        readListing mark' ((ExecutableFile.new fd').print mark') ↔
      (ExecutableFile.new fd).listed = (ExecutableFile.new fd').listed := by
  have hplain := plain_listing fd h.names fun i hi => (h.texts i hi).1
  have hplain' := plain_listing fd' h'.names fun i hi => (h'.texts i hi).1
  rw [print, print, readListing_unlines hmark hplain, readListing_unlines hmark' hplain',
    Option.some.injEq, rows_eq_iff h h']

theorem clearFile_nopFunction : ClearFile (nopFunction 8) where
  names := plainNames_nopFunction
  functions := List.forall_mem_singleton.mpr
    ⟨by decide, by decide, (unmarked_word (by decide)).balanced⟩
  texts := by
    have hone : ∀ i ∈ (ExecutableFile.new (nopFunction 8)).runDisassembler.out,
        '\n' ∉ i.decoded ∧ i.parse = ["nop".toList] := by decide +kernel
    intro i hi
    obtain ⟨hdecoded, hparse⟩ := hone i hi
    refine ⟨hdecoded, ?_, ?_⟩
    · rw [Instruction.getName, hparse]
      rintro name ⟨⟩
      decide
    · rw [hparse]
      exact List.forall_mem_singleton.mpr ⟨unmarked_word (by decide), by decide, by decide⟩

/-- Two programs print the instruction of a file with two marks. -/
theorem readListing_eq_iff_nopFunction :
    readListing "0x".toList ((ExecutableFile.new (nopFunction 8)).print "0x".toList) =
      readListing [] ((ExecutableFile.new (nopFunction 8)).print []) :=
  (readListing_eq_iff clearFile_nopFunction clearFile_nopFunction (by decide) (by decide)).mpr rfl

end ExecutableFile

end Befa
