import Befa.Assembly.Ownership
import Befa.Lib.Emit

/-!
# Fetching the symbol table

`disassembler_impl::fetchSymbolTable` asks BFD how many bytes the static and the dynamic symbols
need, makes one vector for both, and has BFD fill it from the front.  BFD ends each list with a
null pointer, the second list overwrites the null of the first, and what is behind it is erased.
Then the vector grows again for the synthetic symbols.  Their records are copied, and the entries
point at the copies.

What BFD answers is a parameter (`BfdAnswers`), and a `long` is its value.  Two bounds whose sum is
no `long` are more than a vector can hold, and `resize` throws.  A store that runs past a vector has
no result (`Fault.outside`).  The memory for the synthetic symbols does not run out.  A call for the
synthetic symbols may fail without setting `temp_syn_table`, and then the pointer that is given to
`_syn_sym_table` has no value (`Fault.indeterminate`).

`fetchSymbolTable_allOrNothing_iff` says what a fetch leaves.  `Fetched.shared` says that it is the table
of a `Shared.State`, whose `bfd` has the symbols in the same order.
-/

namespace Befa

/-! ## What BFD answers -/

/-- An entry of `symbol_table`. -/
inductive SymbolPtr where
  | null
  /-- A record of BFD. -/
  | record (sym : Asymbol)
  /-- `synthetic_symbol_table.data() + i`. -/
  | synthetic (i : Nat)
deriving DecidableEq

/-- What a canonicalization does. -/
inductive Canonicalized where
  /-- It returns a negative count, and may have stored something. -/
  | failed (count : Int) (negative : count < 0) (stored : List SymbolPtr)
  /-- It stores the symbols and a null, and returns their number. -/
  | listed (symbols : List Asymbol)

namespace Canonicalized

/-- The count it returns. -/
def count : Canonicalized → Int
  | failed count _ _ => count
  | listed symbols => symbols.length

/-- What it stores. -/
def stored : Canonicalized → List SymbolPtr
  | failed _ _ stored => stored
  | listed symbols => symbols.map .record ++ [.null]

/-- The symbols it lists. -/
def symbols : Canonicalized → List Asymbol
  | failed _ _ _ => []
  | listed symbols => symbols

/-- The symbols are stored first. -/
theorem stored_eq (c : Canonicalized) : ∃ rest, c.stored = c.symbols.map .record ++ rest := by
  cases c with
  | failed _ _ stored => exact ⟨stored, rfl⟩
  | listed symbols => exact ⟨[.null], rfl⟩

theorem toNat_count (c : Canonicalized) : c.count.toNat = c.symbols.length := by
  cases c with
  | failed _ negative _ => exact Int.toNat_of_nonpos negative.le
  | listed symbols => rfl

end Canonicalized

/-- What `bfd_get_synthetic_symtab` does. -/
inductive Synthetic where
  /-- It returns a negative count, and `temp_syn_table` may not be set. -/
  | failed (count : Int) (negative : count < 0) (temp : Option (List Asymbol))
  /-- It points `temp_syn_table` at the records, and returns their number. -/
  | listed (symbols : List Asymbol)

namespace Synthetic

def count : Synthetic → Int
  | failed count _ _ => count
  | listed symbols => symbols.length

/-- The array `temp_syn_table` points at, when it is set. -/
def temp : Synthetic → Option (List Asymbol)
  | failed _ _ temp => temp
  | listed symbols => some symbols

def symbols : Synthetic → List Asymbol
  | failed _ _ _ => []
  | listed symbols => symbols

theorem toNat_count (s : Synthetic) : s.count.toNat = s.symbols.length := by
  cases s with
  | failed _ negative _ => exact Int.toNat_of_nonpos negative.le
  | listed symbols => rfl

/-- Symbols that were listed are in the array. -/
theorem temp_of_symbols {s : Synthetic} (h : s.symbols ≠ []) : s.temp = some s.symbols := by
  cases s with
  | failed _ _ _ => exact absurd rfl h
  | listed symbols => rfl

end Synthetic

/-- What BFD answers when it is asked. -/
structure BfdAnswers where
  /-- `bfd_get_symtab_upper_bound`, in bytes. -/
  symtabUpperBound : Int
  /-- `bfd_get_dynamic_symtab_upper_bound`, in bytes. -/
  dynamicSymtabUpperBound : Int
  /-- The flag `DYNAMIC` of the file. -/
  dynamic : Bool
  /-- `bfd_errmsg(bfd_get_error())`. -/
  errmsg : Text
  canonicalizeSymtab : Canonicalized
  canonicalizeDynamicSymtab : Canonicalized
  /-- `bfd_get_synthetic_symtab`, on the static and the dynamic symbols. -/
  syntheticSymtab : List SymbolPtr → List SymbolPtr → Synthetic

/-- A call of BFD. -/
inductive BfdCall where
  | symtabUpperBound | dynamicSymtabUpperBound | canonicalizeSymtab | canonicalizeDynamicSymtab
  | syntheticSymtab
deriving DecidableEq

/-- Why there is no symbol table. -/
inductive Fault where
  /-- An exception. -/
  | error (what : Text)
  /-- A load or a store outside of a vector. -/
  | outside
  /-- A pointer is read that was never set. -/
  | indeterminate
deriving DecidableEq

/-! ## Vectors -/

section Vectors

variable {α : Type}

/-- `std::vector::resize`. -/
def vectorResize (fill : α) (n : Nat) (l : List α) : List α :=
  l.take n ++ List.replicate (n - l.length) fill

/-- Store entries from a position on. -/
def storeAt (start : Nat) (entries l : List α) : Option (List α) :=
  if start + entries.length ≤ l.length then
    some (l.take start ++ (entries ++ l.drop (start + entries.length)))
  else none

/-- A store inside of a vector keeps its size and what is in front. -/
theorem storeAt_eq {start : Nat} {entries l : List α} (h : start + entries.length ≤ l.length) :
    ∃ l', storeAt start entries l = some l' ∧ l'.length = l.length ∧
      l'.take (start + entries.length) = l.take start ++ entries := by
  refine ⟨_, if_pos h, ?_, ?_⟩
  · rw [List.length_append, List.length_append, List.length_take, List.length_drop]
    omega
  · have hlen : start + entries.length = (l.take start ++ entries).length := by
      rw [List.length_append, List.length_take]
      omega
    rw [← List.append_assoc, hlen, List.take_left]

end Vectors

/-! ## The function -/

/-- The members of `disassembler_impl` that `fetchSymbolTable` fills. -/
structure Tables where
  /-- `symbol_table`. -/
  symbolTable : List SymbolPtr
  /-- `synthetic_symbol_table`.  A record that was not copied yet is zeroed. -/
  syntheticSymbolTable : List (Option Asymbol)
  /-- `_syn_sym_table`, which owns the array of `temp_syn_table`. -/
  synSymTable : Option (List Asymbol)
deriving DecidableEq

/-- `sizeof(asymbol *)`. -/
def sizeofPointer : Nat := 8

/-- `symbol_table.max_size()`. -/
def maxSize : Nat := 2 ^ 60 - 1

/-- Canonicalize into the table from a position on, if the symbols need storage.  It gives their
number and the table. -/
def canonicalize (storageNeeded : Nat) (c : Canonicalized) (start : Nat) (table : List SymbolPtr) :
    Option (Nat × List SymbolPtr) :=
  if storageNeeded ≠ 0 then (storeAt start c.stored table).map (c.count.toNat, ·)
  else some (0, table)

/-- Both canonicalizations, the dynamic symbols behind the static ones. -/
def canonicalizeBoth (b : BfdAnswers) (storageNeeded dynStorageNeeded : Nat)
    (table : List SymbolPtr) : Option (Nat × Nat × List SymbolPtr) := do
  let (numberOfSymbols, table) ← canonicalize storageNeeded b.canonicalizeSymtab 0 table
  let (numberOfDynSym, table) ← canonicalize dynStorageNeeded b.canonicalizeDynamicSymtab
    numberOfSymbols table
  return (numberOfSymbols, numberOfDynSym, table)

/-- The loop over the entries of the synthetic symbols.  It gives the entries and the copies. -/
def linkSynthetic (temp : List Asymbol) :
    Nat → List SymbolPtr → List (Option Asymbol) → Option (List SymbolPtr × List (Option Asymbol))
  | _, [], copies => some ([], copies)
  | i, _ :: entries, copies => do
      let sym ← temp[i]?
      let copies ← storeAt i [some sym] copies
      let r ← linkSynthetic temp (i + 1) entries copies
      return (.synthetic i :: r.1, r.2)

/-- The part of `fetchSymbolTable` behind the erasure. -/
def fetchSynthetic (b : BfdAnswers) (numberOfSymbols numberOfDynSym : Nat) (t : Tables) :
    Emitted Tables BfdCall Fault :=
  let s := b.syntheticSymtab (t.symbolTable.take numberOfSymbols)
    ((t.symbolTable.drop numberOfSymbols).take numberOfDynSym)
  match s.temp with
  -- `_syn_sym_table.reset(temp_syn_table, free)`
  | none => ⟨t, [.syntheticSymtab], some .indeterminate⟩
  | some temp =>
      let syntheticCount := s.count.toNat
      if 0 < syntheticCount then
        let table := vectorResize .null (syntheticCount + numberOfSymbols + numberOfDynSym)
          t.symbolTable
        let first := numberOfDynSym + numberOfSymbols
        match linkSynthetic temp 0 (table.drop first)
            (vectorResize none syntheticCount t.syntheticSymbolTable) with
        | none => ⟨t, [.syntheticSymtab], some .outside⟩
        | some (entries, copies) =>
            ⟨⟨table.take first ++ entries, copies, some temp⟩, [.syntheticSymtab], none⟩
      else ⟨{ t with synSymTable := some temp }, [.syntheticSymtab], none⟩

/-- The part of `fetchSymbolTable` from the allocation on. -/
def fetchTables (b : BfdAnswers) (storageNeeded dynStorageNeeded : Nat) (t : Tables) :
    Emitted Tables BfdCall Fault :=
  let size := (storageNeeded + dynStorageNeeded) / sizeofPointer
  -- `std::length_error`
  if maxSize < size then ⟨t, [], some (.error "vector::_M_default_append".toList)⟩
  else
    let calls := (if storageNeeded ≠ 0 then [BfdCall.canonicalizeSymtab] else []) ++
      (if dynStorageNeeded ≠ 0 then [.canonicalizeDynamicSymtab] else [])
    match canonicalizeBoth b storageNeeded dynStorageNeeded
        (vectorResize .null size t.symbolTable) with
    | none => ⟨t, calls, some .outside⟩
    | some (numberOfSymbols, numberOfDynSym, table) =>
        -- erase the null behind the symbols, and whatever a failure has left
        let table := if numberOfSymbols + numberOfDynSym < size then
          table.take (numberOfSymbols + numberOfDynSym) else table
        Emitted.andThen ⟨{ t with symbolTable := table }, calls, none⟩
          (fetchSynthetic b numberOfSymbols numberOfDynSym)

/-- `disassembler_impl::fetchSymbolTable`, as what it leaves.  It returns the symbol table. -/
def fetchSymbolTable (b : BfdAnswers) (t : Tables) : Emitted Tables BfdCall Fault :=
  if ¬t.symbolTable.isEmpty then ⟨t, [], none⟩
  else if b.symtabUpperBound < 0 then ⟨t, [.symtabUpperBound], some (.error b.errmsg)⟩
  else if b.dynamicSymtabUpperBound < 0 ∧ b.dynamic then
    ⟨t, [.symtabUpperBound, .dynamicSymtabUpperBound], some (.error b.errmsg)⟩
  else
    let storageNeeded := b.symtabUpperBound.toNat
    -- a negative bound of a file that is not dynamic counts as zero
    let dynStorageNeeded := b.dynamicSymtabUpperBound.toNat
    Emitted.andThen ⟨t, [.symtabUpperBound, .dynamicSymtabUpperBound], none⟩ fun t =>
      if storageNeeded = 0 ∧ dynStorageNeeded = 0 then ⟨t, [], none⟩
      else fetchTables b storageNeeded dynStorageNeeded t

/-! ## What a fetch leaves -/

namespace BfdAnswers

/-- What is stored fits the bound that BFD gave, the null behind the symbols included. -/
structure Fits (b : BfdAnswers) : Prop where
  static : 0 < b.symtabUpperBound →
    b.canonicalizeSymtab.stored.length ≤ b.symtabUpperBound.toNat / sizeofPointer
  dynamic : 0 < b.dynamicSymtabUpperBound →
    b.canonicalizeDynamicSymtab.stored.length ≤ b.dynamicSymtabUpperBound.toNat / sizeofPointer

/-- The static symbols. -/
def statics (b : BfdAnswers) : List Asymbol :=
  if 0 < b.symtabUpperBound then b.canonicalizeSymtab.symbols else []

/-- The dynamic symbols. -/
def dynamics (b : BfdAnswers) : List Asymbol :=
  if 0 < b.dynamicSymtabUpperBound then b.canonicalizeDynamicSymtab.symbols else []

/-- The answer for the static and the dynamic symbols. -/
def synthetic (b : BfdAnswers) : Synthetic :=
  b.syntheticSymtab (b.statics.map .record) (b.dynamics.map .record)

/-- The synthetic symbols. -/
def synthetics (b : BfdAnswers) : List Asymbol :=
  if 0 < b.symtabUpperBound ∨ 0 < b.dynamicSymtabUpperBound then b.synthetic.symbols else []

def symbols (b : BfdAnswers) : List Asymbol := b.statics ++ b.dynamics ++ b.synthetics

/-- The synthetic symbols are asked for: no bound is an error, one is positive, and a vector can hold
the pointers. -/
structure Asks (b : BfdAnswers) : Prop where
  static : 0 ≤ b.symtabUpperBound
  dynamic : 0 ≤ b.dynamicSymtabUpperBound ∨ b.dynamic = false
  some : 0 < b.symtabUpperBound ∨ 0 < b.dynamicSymtabUpperBound
  room : (b.symtabUpperBound.toNat + b.dynamicSymtabUpperBound.toNat) / sizeofPointer ≤ maxSize

/-- When the synthetic symbols are asked for, the call sets `temp_syn_table`. -/
def SetsTable (b : BfdAnswers) : Prop := b.Asks → b.synthetic.temp ≠ none

end BfdAnswers

/-- Nothing is fetched yet. -/
structure Tables.Unfetched (t : Tables) : Prop where
  symbolTable : t.symbolTable = []
  syntheticSymbolTable : t.syntheticSymbolTable = []

/-- The tables hold all the symbols. -/
structure Fetched (b : BfdAnswers) (t : Tables) : Prop where
  table : t.symbolTable = b.statics.map .record ++ b.dynamics.map .record ++
    (List.range b.synthetics.length).map .synthetic
  copies : t.syntheticSymbolTable = b.synthetics.map some

/-- A fetch into the tables raises and changes nothing, or leaves all the symbols. -/
structure AllOrNothing (b : BfdAnswers) (t : Tables) (r : Emitted Tables BfdCall Fault) : Prop where
  outcome : (∃ what, r.raised = some (.error what) ∧ r.state = t) ∨
    r.raised = none ∧ Fetched b r.state
  noNull : .null ∉ r.state.symbolTable
  inRange : ∀ i, .synthetic i ∈ r.state.symbolTable → i < r.state.syntheticSymbolTable.length
  /-- The synthetic symbols are asked for only when there may be others. -/
  asked : .syntheticSymtab ∈ r.out → 0 < b.symtabUpperBound ∨ 0 < b.dynamicSymtabUpperBound
  /-- Later calls find the table, whatever BFD would answer. -/
  again : r.state.symbolTable ≠ [] →
    ∀ later, emitAll fetchSymbolTable later r.state = ⟨r.state, [], none⟩

namespace Fetched

variable {b : BfdAnswers} {t : Tables}

theorem noNull (h : Fetched b t) : .null ∉ t.symbolTable := by
  rw [h.table]
  simp

theorem inRange (h : Fetched b t) (i : Nat) (hi : .synthetic i ∈ t.symbolTable) :
    i < t.syntheticSymbolTable.length := by
  rw [h.table] at hi
  rw [h.copies]
  simpa using hi

end Fetched

/-! ## The steps -/

/-- Symbols that fit are stored behind those in front. -/
theorem canonicalize_eq {storageNeeded start : Nat} {c : Canonicalized} {table : List SymbolPtr}
    {symbols : List Asymbol} (hsym : symbols = if 0 < storageNeeded then c.symbols else [])
    (hstart : start ≤ table.length)
    (h : 0 < storageNeeded → start + c.stored.length ≤ table.length) :
    ∃ table', canonicalize storageNeeded c start table = some (symbols.length, table') ∧
      table'.length = table.length ∧
      table'.take (start + symbols.length) = table.take start ++ symbols.map .record := by
  by_cases hs : 0 < storageNeeded
  · rw [if_pos hs] at hsym
    obtain ⟨table', hstore, hlen, htake⟩ := storeAt_eq (h hs)
    refine ⟨table', ?_, hlen, ?_⟩
    · rw [canonicalize, if_pos hs.ne', hstore, c.toNat_count, hsym]
      rfl
    · obtain ⟨rest, hrest⟩ := c.stored_eq
      rw [hrest, ← hsym] at htake
      have hfront := congrArg (List.take (start + symbols.length)) htake
      have hsize : start + symbols.length =
          (table.take start ++ symbols.map SymbolPtr.record).length := by
        rw [List.length_append, List.length_take, List.length_map]
        omega
      rw [List.take_take, List.length_append, List.length_map, Nat.min_eq_left (by omega),
        ← List.append_assoc] at hfront
      rw [hfront, hsize, List.take_left]
  · rw [if_neg hs] at hsym
    obtain rfl : storageNeeded = 0 := Nat.eq_zero_of_not_pos hs
    subst hsym
    exact ⟨table, rfl, rfl, (List.append_nil _).symm⟩

/-- The loop links the entries from the `i`-th record on, when it has copied those before. -/
theorem linkSynthetic_eq {temp : List Asymbol} (entries : List SymbolPtr) {i : Nat}
    {copies : List (Option Asymbol)} (hi : i + entries.length = temp.length)
    (hlen : copies.length = temp.length) (hcopied : copies.take i = (temp.take i).map some) :
    linkSynthetic temp i entries copies =
      some ((List.range' i entries.length).map .synthetic, temp.map some) := by
  induction entries generalizing i copies with
  | nil =>
      obtain rfl : i = temp.length := hi
      rw [← hlen, List.take_length, hlen, List.take_length] at hcopied
      rw [linkSynthetic, hcopied]
      rfl
  | cons entry entries ih =>
      rw [List.length_cons] at hi
      have hlt : i < temp.length := by omega
      have hroom : i + [some temp[i]].length ≤ copies.length := by
        rw [List.length_singleton]
        omega
      obtain ⟨copies', hstore, hlen', htake⟩ := storeAt_eq hroom
      have hnext : copies'.take (i + 1) = (temp.take (i + 1)).map some := by
        rw [List.length_singleton] at htake
        rw [htake, hcopied, List.take_succ_eq_append_getElem hlt, List.map_append,
          List.map_singleton]
      have hrest := ih (i := i + 1) (by omega) (hlen'.trans hlen) hnext
      rw [linkSynthetic, List.getElem?_eq_getElem hlt]
      simp only [Option.bind_eq_bind, Option.bind_some, hstore, hrest]
      rw [List.length_cons, List.range'_succ, List.map_cons]
      rfl

theorem vectorResize_of_le {α : Type} (fill : α) {n : Nat} {l : List α} (h : l.length ≤ n) :
    vectorResize fill n l = l ++ List.replicate (n - l.length) fill := by
  rw [vectorResize, List.take_of_length_le h]

/-- The call gets the static and the dynamic symbols. -/
theorem synthetic_of_table {b : BfdAnswers} {table : List SymbolPtr}
    (ht : table = b.statics.map .record ++ b.dynamics.map .record) :
    b.syntheticSymtab (table.take b.statics.length)
      ((table.drop b.statics.length).take b.dynamics.length) = b.synthetic := by
  have hlen₁ : (b.statics.map SymbolPtr.record).length = b.statics.length := List.length_map _
  have hlen₂ : (b.dynamics.map SymbolPtr.record).length = b.dynamics.length := List.length_map _
  rw [ht, ← hlen₁, List.take_left, List.drop_left, ← hlen₂, List.take_length, BfdAnswers.synthetic]

theorem fetchSynthetic_unset {b : BfdAnswers} {t : Tables}
    (ht : t.symbolTable = b.statics.map .record ++ b.dynamics.map .record)
    (hunset : b.synthetic.temp = none) :
    fetchSynthetic b b.statics.length b.dynamics.length t =
      ⟨t, [.syntheticSymtab], some .indeterminate⟩ := by
  rw [fetchSynthetic]
  dsimp only
  rw [synthetic_of_table ht, hunset]

theorem fetchSynthetic_eq {b : BfdAnswers} {t : Tables}
    (ht : t.symbolTable = b.statics.map .record ++ b.dynamics.map .record)
    (hcopies : t.syntheticSymbolTable = []) {temp : List Asymbol}
    (htemp : b.synthetic.temp = some temp) :
    fetchSynthetic b b.statics.length b.dynamics.length t =
      ⟨⟨t.symbolTable ++ (List.range b.synthetic.symbols.length).map .synthetic,
        b.synthetic.symbols.map some, some temp⟩, [.syntheticSymtab], none⟩ := by
  have hlen : t.symbolTable.length = b.dynamics.length + b.statics.length := by
    rw [ht, List.length_append, List.length_map, List.length_map, Nat.add_comm]
  rw [fetchSynthetic]
  dsimp only
  rw [synthetic_of_table ht, htemp]
  dsimp only
  rw [Synthetic.toNat_count]
  by_cases hpos : 0 < b.synthetic.symbols.length
  · obtain rfl : temp = b.synthetic.symbols := Option.some.inj
      (htemp.symm.trans (Synthetic.temp_of_symbols (List.ne_nil_of_length_pos hpos)))
    generalize b.synthetic.symbols = synthetics at hpos
    have htable : vectorResize .null (synthetics.length + b.statics.length + b.dynamics.length)
        t.symbolTable = t.symbolTable ++ List.replicate synthetics.length .null := by
      rw [vectorResize_of_le _ (by omega)]
      exact congrArg (t.symbolTable ++ List.replicate · _) (by omega)
    have hentries : 0 + (List.replicate synthetics.length SymbolPtr.null).length =
        synthetics.length := by
      rw [Nat.zero_add, List.length_replicate]
    have hroom : (vectorResize (none : Option Asymbol) synthetics.length []).length =
        synthetics.length := by
      rw [vectorResize_of_le _ (Nat.zero_le _), List.nil_append, List.length_replicate]
      rfl
    have hlink := linkSynthetic_eq _ hentries hroom rfl
    rw [if_pos hpos, htable, ← hlen, List.take_left, List.drop_left, hcopies, hlink,
      List.length_replicate, ← List.range_eq_range']
  · have hnil : b.synthetic.symbols = [] :=
      List.eq_nil_of_length_eq_zero (Nat.eq_zero_of_not_pos hpos)
    rw [if_neg hpos, hnil, List.length_nil, List.range_zero, List.map_nil, List.append_nil,
      List.map_nil, ← hcopies]

theorem BfdAnswers.Fits.length_statics {b : BfdAnswers} (h : b.Fits) :
    b.statics.length ≤ b.symtabUpperBound.toNat / sizeofPointer := by
  by_cases hpos : 0 < b.symtabUpperBound
  · obtain ⟨rest, hrest⟩ := b.canonicalizeSymtab.stored_eq
    have hlen := h.static hpos
    rw [hrest, List.length_append, List.length_map] at hlen
    rw [BfdAnswers.statics, if_pos hpos]
    omega
  · rw [BfdAnswers.statics, if_neg hpos]
    exact Nat.zero_le _

/-- In a table with room for both the static and the dynamic symbols stand in front. -/
theorem canonicalizeBoth_eq {b : BfdAnswers} (hfits : b.Fits) {size : Nat}
    (hsize : b.symtabUpperBound.toNat / sizeofPointer +
      b.dynamicSymtabUpperBound.toNat / sizeofPointer ≤ size) :
    ∃ table, canonicalizeBoth b b.symtabUpperBound.toNat b.dynamicSymtabUpperBound.toNat
        (List.replicate size .null) = some (b.statics.length, b.dynamics.length, table) ∧
      table.length = size ∧ table.take (b.statics.length + b.dynamics.length) =
        b.statics.map .record ++ b.dynamics.map .record := by
  have hstatics := hfits.length_statics
  have hroom := (Nat.le_add_right ..).trans hsize
  have hsym₁ : b.statics = if 0 < b.symtabUpperBound.toNat then b.canonicalizeSymtab.symbols
      else [] := if_congr Int.pos_iff_toNat_pos rfl rfl
  have hfit₁ : 0 < b.symtabUpperBound.toNat → 0 + b.canonicalizeSymtab.stored.length ≤
      (List.replicate size SymbolPtr.null).length := by
    intro hpos
    rw [List.length_replicate, Nat.zero_add]
    exact (hfits.static (Int.pos_iff_toNat_pos.mpr hpos)).trans hroom
  obtain ⟨table₁, hstore₁, hlen₁, htake₁⟩ := canonicalize_eq hsym₁ (Nat.zero_le _) hfit₁
  rw [List.length_replicate] at hlen₁
  have hsym₂ : b.dynamics = if 0 < b.dynamicSymtabUpperBound.toNat then
      b.canonicalizeDynamicSymtab.symbols else [] := if_congr Int.pos_iff_toNat_pos rfl rfl
  have hfit₂ : 0 < b.dynamicSymtabUpperBound.toNat →
      b.statics.length + b.canonicalizeDynamicSymtab.stored.length ≤ table₁.length := by
    intro hpos
    rw [hlen₁]
    exact (Nat.add_le_add hstatics (hfits.dynamic (Int.pos_iff_toNat_pos.mpr hpos))).trans hsize
  obtain ⟨table₂, hstore₂, hlen₂, htake₂⟩ :=
    canonicalize_eq hsym₂ (hlen₁ ▸ hstatics.trans hroom) hfit₂
  rw [Nat.zero_add, List.take_zero, List.nil_append] at htake₁
  refine ⟨table₂, ?_, hlen₂.trans hlen₁, htake₁ ▸ htake₂⟩
  rw [canonicalizeBoth, hstore₁]
  simp only [Option.bind_eq_bind, Option.bind_some, hstore₂, Option.pure_def]

/-- From the allocation on, a fetch raises when a vector cannot hold the pointers.  Else it leaves
all the symbols, if the call for the synthetic ones sets its pointer. -/
theorem fetchTables_spec {b : BfdAnswers} (hfits : b.Fits) {t : Tables} (ht : t.Unfetched)
    {r : Emitted Tables BfdCall Fault}
    (hr : r = fetchTables b b.symtabUpperBound.toNat b.dynamicSymtabUpperBound.toNat t)
    (hsome : 0 < b.symtabUpperBound ∨ 0 < b.dynamicSymtabUpperBound) :
    if (b.symtabUpperBound.toNat + b.dynamicSymtabUpperBound.toNat) / sizeofPointer ≤ maxSize then
      if b.synthetic.temp = none then r.raised = some .indeterminate
      else r.raised = none ∧ Fetched b r.state
    else ∃ what, r = ⟨t, [], some (.error what)⟩ := by
  obtain ⟨htable, hcopies⟩ := ht
  have hsize : b.symtabUpperBound.toNat / sizeofPointer +
      b.dynamicSymtabUpperBound.toNat / sizeofPointer ≤
        (b.symtabUpperBound.toNat + b.dynamicSymtabUpperBound.toNat) / sizeofPointer := by
    unfold sizeofPointer
    omega
  subst hr
  rw [fetchTables]
  dsimp only
  generalize (b.symtabUpperBound.toNat + b.dynamicSymtabUpperBound.toNat) / sizeofPointer = size
    at hsize ⊢
  by_cases hmax : size ≤ maxSize
  · obtain ⟨table, hstore, hlen, htake⟩ := canonicalizeBoth_eq hfits hsize
    have herase : (if b.statics.length + b.dynamics.length < size then
        table.take (b.statics.length + b.dynamics.length) else table) =
          b.statics.map .record ++ b.dynamics.map .record := by
      rw [← htake]
      split
      next => rfl
      next h => exact (List.take_of_length_le (hlen ▸ Nat.not_lt.mp h)).symm
    have hnew : vectorResize .null size t.symbolTable = List.replicate size .null := by
      rw [htable, vectorResize_of_le _ (Nat.zero_le _)]
      rfl
    rw [if_pos hmax, if_neg (Nat.not_lt.mpr hmax), hnew, hstore]
    simp only [herase]
    rw [Emitted.andThen_of_none rfl]
    cases htemp : b.synthetic.temp with
    | none =>
        rw [if_pos rfl, fetchSynthetic_unset (t := ⟨_, _, _⟩) rfl htemp]
    | some temp =>
        have hsynthetics : b.synthetics = b.synthetic.symbols := if_pos hsome
        rw [if_neg (Option.some_ne_none _),
          fetchSynthetic_eq (t := ⟨_, _, _⟩) rfl hcopies htemp, ← hsynthetics]
        exact ⟨rfl, rfl, rfl⟩
  · rw [if_neg hmax, if_pos (Nat.not_le.mp hmax)]
    exact ⟨_, rfl⟩

/-! ## The whole function -/

/-- Once there is a symbol table BFD is not asked again. -/
theorem fetchSymbolTable_again {t : Tables} (h : t.symbolTable ≠ []) (later : List BfdAnswers) :
    emitAll fetchSymbolTable later t = ⟨t, [], none⟩ := by
  induction later with
  | nil => rfl
  | cons b later ih =>
      have hb : fetchSymbolTable b t = ⟨t, [], none⟩ := if_pos (by simpa using h)
      rw [emitAll_cons, hb, Emitted.andThen_of_none rfl, ih]
      rfl

/-- A fetch that asks for the synthetic symbols in vain reads a pointer that was never set.  Every
other one raises and changes nothing, or leaves all the symbols. -/
theorem fetchSymbolTable_outcome {b : BfdAnswers} (hfits : b.Fits) {t : Tables}
    (ht : t.Unfetched) :
    (¬b.SetsTable ∧ (fetchSymbolTable b t).raised = some .indeterminate) ∨
      b.SetsTable ∧ ((∃ what, (fetchSymbolTable b t).raised = some (.error what) ∧
          (fetchSymbolTable b t).state = t) ∨
        (fetchSymbolTable b t).raised = none ∧ Fetched b (fetchSymbolTable b t).state) := by
  have hempty : ¬¬t.symbolTable.isEmpty = true := not_not_intro (by rw [ht.symbolTable]; rfl)
  have hquiet : ¬b.Asks → b.SetsTable := fun h hasks => absurd hasks h
  rw [fetchSymbolTable, if_neg hempty]
  split
  next hstatic =>
    exact Or.inr ⟨hquiet fun h => absurd h.static (not_le.mpr hstatic), Or.inl ⟨_, rfl, rfl⟩⟩
  next hstatic =>
    split
    next hdynamic =>
      refine Or.inr ⟨hquiet fun h => ?_, Or.inl ⟨_, rfl, rfl⟩⟩
      rcases h.dynamic with hbound | hflag
      · exact absurd hbound (not_le.mpr hdynamic.1)
      · rw [hflag] at hdynamic
        exact absurd hdynamic.2 Bool.false_ne_true
    next hdynamic =>
      dsimp only
      rw [Emitted.andThen_of_none rfl]
      split
      next hzero =>
        have hstatic : ¬0 < b.symtabUpperBound := by omega
        have hdynamic : ¬0 < b.dynamicSymtabUpperBound := by omega
        refine Or.inr ⟨hquiet fun h => h.some.elim hstatic hdynamic, Or.inr ⟨rfl, ?_, ?_⟩⟩
        · simp [BfdAnswers.statics, BfdAnswers.dynamics, BfdAnswers.synthetics, hstatic, hdynamic,
            ht.symbolTable]
        · simp [BfdAnswers.synthetics, hstatic, hdynamic, ht.syntheticSymbolTable]
      next hzero =>
        have hsome : 0 < b.symtabUpperBound ∨ 0 < b.dynamicSymtabUpperBound := by omega
        have hspec := fetchTables_spec hfits ht rfl hsome
        split at hspec
        next hroom =>
          have hflag : 0 ≤ b.dynamicSymtabUpperBound ∨ b.dynamic = false := by
            rw [or_iff_not_imp_left, not_le]
            exact fun hbound => eq_false_of_ne_true fun hflag => hdynamic ⟨hbound, hflag⟩
          split at hspec
          next hunset =>
            have hasks : b.Asks := ⟨not_lt.mp hstatic, hflag, hsome, hroom⟩
            exact Or.inl ⟨fun h => h hasks hunset, hspec⟩
          next hset => exact Or.inr ⟨fun _ => hset, Or.inr hspec⟩
        next hroom =>
          obtain ⟨what, h⟩ := hspec
          rw [h]
          exact Or.inr ⟨hquiet fun h => hroom h.room, Or.inl ⟨what, rfl, rfl⟩⟩

theorem fetchSymbolTable_asked {b : BfdAnswers} {t : Tables}
    (h : .syntheticSymtab ∈ (fetchSymbolTable b t).out) :
    0 < b.symtabUpperBound ∨ 0 < b.dynamicSymtabUpperBound := by
  by_contra hnone
  have hzero : b.symtabUpperBound.toNat = 0 ∧ b.dynamicSymtabUpperBound.toNat = 0 := by omega
  rw [fetchSymbolTable] at h
  simp only [hzero, and_self, if_true] at h
  split at h
  next => cases h
  next =>
    split at h
    next => simp at h
    next =>
      split at h <;> simp [Emitted.andThen] at h

/-- **Fetching the symbols is all or nothing exactly when the call for the synthetic ones sets its
pointer**, if it is made. -/
theorem fetchSymbolTable_allOrNothing_iff {b : BfdAnswers} (hfits : b.Fits) {t : Tables}
    (ht : t.Unfetched) : AllOrNothing b t (fetchSymbolTable b t) ↔ b.SetsTable := by
  rcases fetchSymbolTable_outcome hfits ht with ⟨hunset, hraised⟩ | ⟨hset, houtcome⟩
  · refine iff_of_false (fun h => ?_) hunset
    rcases h.outcome with ⟨what, herror, -⟩ | ⟨hnone, -⟩
    · rw [hraised] at herror
      cases herror
    · rw [hraised] at hnone
      cases hnone
  · refine iff_of_true ⟨houtcome, ?_, ?_, fetchSymbolTable_asked, fetchSymbolTable_again⟩ hset
    · rcases houtcome with ⟨_, _, hsame⟩ | ⟨_, hfetched⟩
      · rw [hsame, ht.symbolTable]
        exact List.not_mem_nil
      · exact hfetched.noNull
    · rcases houtcome with ⟨_, _, hsame⟩ | ⟨_, hfetched⟩
      · rw [hsame, ht.symbolTable]
        exact fun i hi => absurd hi List.not_mem_nil
      · exact hfetched.inRange

/-- A function of a library, and the stub that calls it. -/
def stubAnswers : BfdAnswers where
  symtabUpperBound := 16
  dynamicSymtabUpperBound := 16
  dynamic := true
  errmsg := []
  canonicalizeSymtab := .failed (-1) (by decide) [.null, .null]
  canonicalizeDynamicSymtab := .listed [⟨0, "puts".toList, 0, 0, ⟨0, "*UND*".toList, 0, 0⟩⟩]
  syntheticSymtab := fun _ _ =>
    .listed [⟨1, "puts@plt".toList, 0x10, bsfFunction, ⟨1, ".plt".toList, 0x400, 0x20⟩⟩]

theorem stubAnswers_allOrNothing :
    AllOrNothing stubAnswers ⟨[], [], none⟩ (fetchSymbolTable stubAnswers ⟨[], [], none⟩) :=
  (fetchSymbolTable_allOrNothing_iff ⟨by decide, by decide⟩ ⟨rfl, rfl⟩).mpr
    fun _ => Option.some_ne_none _

/-- A file of a format that has no synthetic symbols. -/
def formatAnswers : BfdAnswers where
  symtabUpperBound := 16
  dynamicSymtabUpperBound := -1
  dynamic := false
  errmsg := []
  canonicalizeSymtab := .listed [⟨0, "main".toList, 0, bsfFunction, ⟨0, ".text".toList, 0, 0x10⟩⟩]
  canonicalizeDynamicSymtab := .failed (-1) (by decide) []
  syntheticSymtab := fun _ _ => .failed (-1) (by decide) none

/-- The call for the synthetic symbols only says that it has failed. -/
theorem formatAnswers_not_allOrNothing :
    ¬∀ b : BfdAnswers, b.Fits → ∀ t : Tables, t.Unfetched →
      AllOrNothing b t (fetchSymbolTable b t) := by
  intro h
  have houtcome := (h formatAnswers ⟨by decide, by decide⟩ ⟨[], [], none⟩ ⟨rfl, rfl⟩).outcome
  have hraised : (fetchSymbolTable formatAnswers ⟨[], [], none⟩).raised = some .indeterminate := by
    decide +kernel
  rcases houtcome with ⟨what, herror, -⟩ | ⟨hnone, -⟩
  · rw [hraised] at herror
    cases herror
  · rw [hraised] at hnone
    cases hnone

/-! ## The file with pointers -/

/-- The reference an entry is, in a file whose synthetic records lie at `storage`. -/
def Tables.ref (t : Tables) (storage : Shared.Ptr) : SymbolPtr → Option Shared.SymRef
  | .null => none
  | .record sym => some ⟨sym, none⟩
  | .synthetic i => (t.syntheticSymbolTable[i]?).join.map (⟨·, some storage⟩)

/-- A table that is fetched is what a file with the same symbols lists. -/
theorem Fetched.shared {b : BfdAnswers} {t : Tables} (h : Fetched b t) {w : Shared.State}
    (hw : w.live.symbolTable = []) (hsymbols : w.live.fd.bfd.symbols = b.symbols)
    (hsynthetic : w.live.fd.synthetic = b.synthetics.length) :
    t.symbolTable.map (t.ref w.next) = w.fetchSymbolTable.live.symbolTable.map some := by
  have hrecord : ∀ l : List Asymbol, (l.map SymbolPtr.record).map (t.ref w.next) =
      (l.map fun sym => (⟨sym, none⟩ : Shared.SymRef)).map some := by
    intro l
    rw [List.map_map, List.map_map]
    rfl
  have hcopied : ((List.range b.synthetics.length).map .synthetic).map (t.ref w.next) =
      (b.synthetics.map fun sym => (⟨sym, some w.next⟩ : Shared.SymRef)).map some := by
    refine List.ext_getElem (by simp) fun i hi hi' => ?_
    rw [List.length_map, List.length_map] at hi'
    simp [Tables.ref, h.copies, List.getElem?_eq_getElem hi']
  have hcount : b.symbols.length - b.synthetics.length =
      (b.statics ++ b.dynamics).length := by
    rw [BfdAnswers.symbols, List.length_append, Nat.add_sub_cancel]
  rw [Shared.State.fetchSymbolTable, if_pos (by rw [hw]; rfl), h.table, List.map_append,
    List.map_append, hrecord, hrecord, hcopied]
  dsimp only
  rw [hsymbols, hsynthetic, hcount, BfdAnswers.symbols, List.take_left, List.drop_left,
    List.map_append, List.map_append, List.map_append]

end Befa
