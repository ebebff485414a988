import Befa.Assembly.Bfd
import Befa.Lib.Grouping
import Mathlib.Data.List.Sort

/-!
# The symbol table

`ExecutableFile::getSymbolTable` reads the BFD symbols in order.  A symbol at a new address
opens a `Symbol`, one at an address that is there already becomes an alias.  A section that is
not buffered yet is buffered.  At the end the symbols are sorted by address.

`Merged` says what the loop maintains: the symbols group the BFD symbols by address, and a parent
is the section of its origin.  `mergeSymbol_merged` is the step and `merged_mergeSymbols` the run.
The table inherits it and has strictly increasing addresses (`symbolTable_sorted`).
-/

namespace Befa

/-- The two buffers `getSymbolTable` fills. -/
structure Buffers where
  /-- `symbol_buffer`. -/
  symbolBuffer : List Symbol
  /-- `section_buffer`. -/
  sectionBuffer : List Section

/-- `contains_if` over the buffer, which leaves the match in `existing_sym`, and then
`existing_sym->addAlias(sym)`.  No match gives `none`. -/
def addToExisting (sym : Asymbol) : List Symbol → Option (List Symbol)
  | [] => none
  | s :: ss =>
      if s.getAddress = bfdAsymbolValue sym then some (s.addAlias sym :: ss)
      else (addToExisting sym ss).map (s :: ·)

/-- One round of the loop of `getSymbolTable`. -/
def mergeSymbol (b : Buffers) (sym : Asymbol) : Buffers :=
  match addToExisting sym b.symbolBuffer with
  | some ss => { b with symbolBuffer := ss }
  | none =>
      match b.sectionBuffer.find? (fun sec => sec.origin = sym.sect) with
      | some sec => { b with symbolBuffer := b.symbolBuffer ++ [⟨sym, sec, []⟩] }
      | none =>
          { symbolBuffer := b.symbolBuffer ++ [⟨sym, ⟨sym.sect⟩, []⟩]
            sectionBuffer := b.sectionBuffer ++ [⟨sym.sect⟩] }

/-- The loop of `getSymbolTable`. -/
def mergeSymbols (syms : List Asymbol) (b : Buffers) : Buffers := syms.foldl mergeSymbol b

/-- The order `getSymbolTable` sorts by. -/
def sortSymbols (ss : List Symbol) : List Symbol :=
  ss.insertionSort fun s t => bfdAsymbolValue s.origin ≤ bfdAsymbolValue t.origin

/-- The table of a list of BFD symbols. -/
def symbolTable (syms : List Asymbol) : List Symbol :=
  sortSymbols (mergeSymbols syms ⟨[], []⟩).symbolBuffer

/-- What a round does to the symbol buffer.  A buffered section of an origin is the section one
would create for it, so the sections play no part. -/
theorem mergeSymbol_symbolBuffer (b : Buffers) (sym : Asymbol) :
    (mergeSymbol b sym).symbolBuffer =
      (addToExisting sym b.symbolBuffer).getD (b.symbolBuffer ++ [⟨sym, ⟨sym.sect⟩, []⟩]) := by
  rw [mergeSymbol]
  cases addToExisting sym b.symbolBuffer with
  | some ss => rfl
  | none =>
      cases hf : b.sectionBuffer.find? (fun sec => sec.origin = sym.sect) with
      | none => rfl
      | some sec =>
          have ho : sec.origin = sym.sect := by simpa using List.find?_some hf
          simp [← ho]

theorem mergeSymbols_sections (syms : List Asymbol) {b b' : Buffers}
    (h : b.symbolBuffer = b'.symbolBuffer) :
    (mergeSymbols syms b).symbolBuffer = (mergeSymbols syms b').symbolBuffer := by
  induction syms generalizing b b' with
  | nil => exact h
  | cons sym syms ih => exact ih (by rw [mergeSymbol_symbolBuffer, mergeSymbol_symbolBuffer, h])

/-! ## What the loop maintains -/

/-- The buffer holds one `Symbol` for each address of `syms`, with the symbols at that address as
its records. -/
structure Merged (syms : List Asymbol) (ss : List Symbol) : Prop where
  /-- No address twice. -/
  distinct : ss.Pairwise fun s t => s.getAddress ≠ t.getAddress
  /-- The records are the symbols at the address, in order. -/
  records : ∀ s ∈ ss, s.records = syms.filter fun a => bfdAsymbolValue a = s.getAddress
  /-- Every address is there. -/
  covers : ∀ a ∈ syms, ∃ s ∈ ss, s.getAddress = bfdAsymbolValue a
  /-- The parent adapts the section of the origin. -/
  parent : ∀ s ∈ ss, s.parent.origin = s.origin.sect

theorem merged_nil : Merged [] [] := ⟨.nil, by simp, by simp, by simp⟩

theorem Merged.grouped {syms : List Asymbol} {ss : List Symbol} (h : Merged syms ss) :
    Grouped bfdAsymbolValue Symbol.getAddress Symbol.records syms ss :=
  ⟨h.distinct, h.records, h.covers⟩

theorem merged_of_grouped {syms : List Asymbol} {ss : List Symbol}
    (h : Grouped bfdAsymbolValue Symbol.getAddress Symbol.records syms ss)
    (hp : ∀ s ∈ ss, s.parent.origin = s.origin.sect) : Merged syms ss :=
  ⟨h.distinct, h.members, h.covers, hp⟩

theorem addToExisting_eq (sym : Asymbol) (ss : List Symbol) : addToExisting sym ss =
    updateFirst (fun s => s.getAddress = bfdAsymbolValue sym) (·.addAlias sym) ss := by
  induction ss with
  | nil => rfl
  | cons s ss ih => simp only [addToExisting, updateFirst, ih, decide_eq_true_eq]

/-- No match means that the address is new. -/
theorem addToExisting_eq_none {sym : Asymbol} {ss : List Symbol}
    (h : addToExisting sym ss = none) : ∀ s ∈ ss, s.getAddress ≠ bfdAsymbolValue sym := by
  rw [addToExisting_eq] at h
  intro s hs
  exact of_decide_eq_false (updateFirst_eq_none h s hs)

/-- A match is the one symbol of that address, and it gets the alias. -/
theorem addToExisting_eq_some {sym : Asymbol} {ss ss' : List Symbol}
    (h : addToExisting sym ss = some ss') :
    ∃ pre s post, ss = pre ++ s :: post ∧ ss' = pre ++ s.addAlias sym :: post ∧
      s.getAddress = bfdAsymbolValue sym := by
  rw [addToExisting_eq] at h
  obtain ⟨pre, s, post, hss, hss', hs⟩ := updateFirst_eq_some h
  exact ⟨pre, s, post, hss, hss', of_decide_eq_true hs⟩

/-- One symbol at a new address opens a `Symbol`. -/
theorem Merged.open {syms : List Asymbol} {ss : List Symbol} (h : Merged syms ss) {sym : Asymbol}
    {sec : Section} (hnew : ∀ s ∈ ss, s.getAddress ≠ bfdAsymbolValue sym)
    (hsec : sec.origin = sym.sect) : Merged (syms ++ [sym]) (ss ++ [⟨sym, sec, []⟩]) := by
  refine merged_of_grouped (h.grouped.snoc hnew rfl rfl) fun s hs => ?_
  rcases List.mem_append.mp hs with hs | hs
  · exact h.parent s hs
  · rw [List.mem_singleton.mp hs]
    exact hsec

/-- One symbol at an address that is there becomes an alias. -/
theorem Merged.alias {syms : List Asymbol} {pre post : List Symbol} {s : Symbol}
    (h : Merged syms (pre ++ s :: post)) {sym : Asymbol}
    (hs : s.getAddress = bfdAsymbolValue sym) :
    Merged (syms ++ [sym]) (pre ++ s.addAlias sym :: post) := by
  refine merged_of_grouped (h.grouped.update hs rfl rfl) fun t ht => ?_
  rcases List.mem_append.mp ht with ht | ht
  · exact h.parent t (List.mem_append_left _ ht)
  · rcases List.mem_cons.mp ht with rfl | ht
    · exact h.parent s (by simp)
    · exact h.parent t (by simp [ht])

theorem mergeSymbol_merged {syms : List Asymbol} {b : Buffers} (h : Merged syms b.symbolBuffer)
    (sym : Asymbol) : Merged (syms ++ [sym]) (mergeSymbol b sym).symbolBuffer := by
  rw [mergeSymbol]
  cases ha : addToExisting sym b.symbolBuffer with
  | some ss =>
      obtain ⟨pre, s, post, he, rfl, hs⟩ := addToExisting_eq_some ha
      exact (he ▸ h).alias hs
  | none =>
      have hnew := addToExisting_eq_none ha
      cases hf : b.sectionBuffer.find? (fun sec => sec.origin = sym.sect) with
      | some sec => exact h.open hnew (by simpa using List.find?_some hf)
      | none => exact h.open hnew rfl

theorem mergeSymbols_merged (later : List Asymbol) {syms : List Asymbol} {b : Buffers}
    (h : Merged syms b.symbolBuffer) :
    Merged (syms ++ later) (mergeSymbols later b).symbolBuffer := by
  induction later generalizing syms b with
  | nil => simpa [mergeSymbols] using h
  | cons sym later ih =>
      have hl := ih (mergeSymbol_merged h sym)
      rwa [List.append_assoc] at hl

/-- The loop of `getSymbolTable` merges the symbols, whatever sections are buffered. -/
theorem merged_mergeSymbols (syms : List Asymbol) (secs : List Section) :
    Merged syms (mergeSymbols syms ⟨[], secs⟩).symbolBuffer := by
  simpa using mergeSymbols_merged syms (b := ⟨[], secs⟩) merged_nil

/-! ## The sorted table -/

theorem mem_sortSymbols {ss : List Symbol} {s : Symbol} : s ∈ sortSymbols ss ↔ s ∈ ss :=
  List.mem_insertionSort _

/-- Merged symbols sort into strictly increasing addresses. -/
theorem sortSymbols_sorted {syms : List Asymbol} {ss : List Symbol} (h : Merged syms ss) :
    (sortSymbols ss).Pairwise fun s t => s.getAddress < t.getAddress :=
  List.pairwise_lt_insertionSort h.distinct

/-- The table does not depend on the sections that are buffered. -/
theorem symbolTable_sections (syms : List Asymbol) (secs : List Section) :
    sortSymbols (mergeSymbols syms ⟨[], secs⟩).symbolBuffer = symbolTable syms :=
  congrArg sortSymbols (mergeSymbols_sections syms rfl)

theorem symbolTable_sorted (syms : List Asymbol) :
    (symbolTable syms).Pairwise fun s t => s.getAddress < t.getAddress :=
  sortSymbols_sorted (merged_mergeSymbols syms [])

/-- The records of a symbol of the table are the BFD symbols at its address, in order. -/
theorem records_of_mem_symbolTable {syms : List Asymbol} {s : Symbol} (h : s ∈ symbolTable syms) :
    s.records = syms.filter fun a => bfdAsymbolValue a = s.getAddress :=
  (merged_mergeSymbols syms []).records s (mem_sortSymbols.mp h)

theorem parent_of_mem_symbolTable {syms : List Asymbol} {s : Symbol} (h : s ∈ symbolTable syms) :
    s.parent.origin = s.origin.sect :=
  (merged_mergeSymbols syms []).parent s (mem_sortSymbols.mp h)

/-- Every BFD symbol has a symbol of the table at its address. -/
theorem exists_mem_symbolTable {syms : List Asymbol} {a : Asymbol} (h : a ∈ syms) :
    ∃ s ∈ symbolTable syms, s.getAddress = bfdAsymbolValue a := by
  obtain ⟨s, hs, he⟩ := (merged_mergeSymbols syms []).covers a h
  exact ⟨s, mem_sortSymbols.mpr hs, he⟩

end Befa
