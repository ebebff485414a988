import Befa.Assembly.BlockOwners
import Befa.Assembly.BlockStream
import Befa.Assembly.OperandNames
import Befa.Lib.Printed

/-!
# The listing of a file

The program prints the stream of a run.  It reduces the stream with the block, the symbol and the
section of the last instruction, and prints a header when the id or the name at hand is another
one.  The operands of an instruction are printed by name, with the functions of the file by their
addresses, and those without a name are left out.

`Line` is a line as it is printed.  `readListing` reads a text back, line by line, with the headers
in force at each instruction.
-/

namespace Befa

/-! ## Lines -/

/-- What `%s` prints of `c_str()`. -/
def cString (s : Text) : Text := s.takeWhile (· ≠ nul)

/-- A line of the listing. -/
inductive Line where
  /-- The header of a section. -/
  | sec (name : Text) (address : Vma)
  /-- The header of a symbol. -/
  | sym (name : Text) (address : Vma)
  /-- The header of a block, with the address of the instruction it is printed for. -/
  | bb (id address : Vma)
  /-- An instruction. -/
  | instr (address : Vma) (text : Text)
deriving DecidableEq

/-- ` <0x%08lx>:`. -/
def addressText (address : Vma) : Text := " <0x".toList ++ hexNumeral 8 address.toNat ++ ">:".toList

/-- The text of a line without its break.  Programs differ in the mark they put in front of the
address of an instruction. -/
def Line.text (mark : Text) : Line → Text
  | sec name address => name ++ addressText address
  | sym name address => "  ".toList ++ (name ++ addressText address)
  | bb id address => "    BasicBlock #".toList ++ (decNumeral id.toNat ++ addressText address)
  | instr address text =>
      "      <".toList ++ (mark ++ (hexNumeral 8 address.toNat ++ ("> ".toList ++ text)))

/-! ## Printing -/

/-- The accumulator of the reduction. -/
structure Last where
  bb : Vma
  sym : Text
  sec : Text
deriving DecidableEq

/-- Its first value. -/
def Last.start : Last := ⟨-1, [], []⟩

/-- Its value behind an instruction of a block. -/
def BasicBlock.last (bb : BasicBlock) : Last := ⟨bb.id, bb.parent.getName, bb.parent.parent.getName⟩

/-- The headers that are printed in front of an instruction of a block. -/
def headers (last : Last) (bb : BasicBlock) (address : Vma) : List Line :=
  let sym := bb.parent
  let sec := sym.parent
  (if last.sec ≠ sec.getName then [.sec (cString sec.getName) sec.getAddress] else []) ++
    ((if last.sym ≠ sym.getName then [.sym (cString sym.getName) sym.getAddress] else []) ++
      (if last.bb ≠ bb.id then [.bb bb.id address] else []))

/-- The operands of an instruction by name. -/
def params (functions : SymMap) (i : Instruction) : Text :=
  (((i.args functions).map Sym.getName).filter (· ≠ [])).foldl (joinStep ", ".toList) []

/-- The line of an instruction. -/
def instrLine (functions : SymMap) (name : Text) (i : Instruction) : Line :=
  .instr i.address (cString name ++ " ".toList ++ cString (params functions i))

/-- The reduction of one instruction. -/
def printInstr (functions : SymMap) (i : Instruction) (last : Last) : Emitted Last Line Text :=
  let lines := headers last i.parent i.address
  match (i.getArgs functions).raised, i.getName with
  | some reason, _ => ⟨last, lines, some reason⟩
  | none, none => ⟨last, lines, some "first() requires a stream with at least one value".toList⟩
  | none, some name => ⟨i.parent.last, lines ++ [instrLine functions name i], none⟩

/-- The lines the program prints for a file. -/
def ExecutableFile.listing (f : ExecutableFile) : Emitted Last Line Text :=
  let f' := f.generateTable.1
  let printed := emitAll (printInstr f.functions) f'.runDisassembler.out .start
  { printed with raised := printed.raised.or f'.runDisassembler.raised }

/-- What is printed. -/
def ExecutableFile.print (f : ExecutableFile) (mark : Text) : Text :=
  unlines (f.listing.out.map (Line.text mark))


/-! ## Reading a listing -/

/-- A name and an address of the end of a line. -/
def parseHeader (s : Text) : Option (Text × Vma) :=
  (s.dropSuffix? ">:".toList).bind fun s =>
    ((s.rdropWhile isLowerHex).dropSuffix? " <0x".toList).map fun name =>
      (name, UInt64.ofNat (hexValue (s.rtakeWhile isLowerHex)))

/-- Read a line. -/
def Line.parse (mark s : Text) : Option Line :=
  match s.dropPrefix? ("      <".toList ++ mark) with
  | some rest =>
      ((rest.dropWhile isLowerHex).dropPrefix? "> ".toList).map fun text =>
        .instr (UInt64.ofNat (hexValue (rest.takeWhile isLowerHex))) text
  | none =>
  match s.dropPrefix? "    BasicBlock #".toList with
  | some rest => (parseHeader rest).map fun x => .bb (UInt64.ofNat (decValue x.1)) x.2
  | none =>
  match s.dropPrefix? "  ".toList with
  | some rest => (parseHeader rest).map fun x => .sym x.1 x.2
  | none => (parseHeader s).map fun x => .sec x.1 x.2

/-- An instruction of a listing, with the headers it stands under. -/
structure Row where
  sec : Text
  sym : Text
  bb : Vma
  address : Vma
  text : Text
deriving DecidableEq

/-- The instructions of some lines, behind the headers `last`. -/
def rows : Last → List Line → List Row
  | _, [] => []
  | last, .sec name _ :: ls => rows { last with sec := name } ls
  | last, .sym name _ :: ls => rows { last with sym := name } ls
  | last, .bb id _ :: ls => rows { last with bb := id } ls
  | last, .instr address text :: ls => ⟨last.sec, last.sym, last.bb, address, text⟩ :: rows last ls

/-- Read a listing. -/
def readListing (mark s : Text) : Option (List Row) :=
  ((linesOf s).mapM (Line.parse mark)).map (rows .start)

/-! ## A line is read back -/

theorem parseHeader_eq (name : Text) (address : Vma) :
    parseHeader (name ++ addressText address) = some (name, address) := by
  have hhex := isLowerHex_hexNumeral 8 address.toNat
  have hlast : ∀ c ∈ (name ++ " <0x".toList).getLast?, isLowerHex c = false := by
    intro c hc
    rw [List.getLast?_append_of_ne_nil _ (by decide)] at hc
    obtain rfl := Option.some.inj (Option.mem_def.mp hc)
    decide
  obtain ⟨htake, hdrop⟩ := rtakeWhile_append hhex hlast
  have hsuffix : (name ++ addressText address).dropSuffix? ">:".toList =
      some (name ++ " <0x".toList ++ hexNumeral 8 address.toNat) :=
    List.dropSuffix?_eq_some_iff.mpr ⟨">:".toList, by simp [addressText], by simp⟩
  have hmark : (name ++ " <0x".toList).dropSuffix? " <0x".toList = some name :=
    List.dropSuffix?_eq_some_iff.mpr ⟨_, rfl, by simp⟩
  rw [parseHeader, hsuffix, Option.bind_some, hdrop, hmark, htake, hexValue_hexNumeral]
  simp

/-- No header looks like another one. -/
def Line.Legible : Line → Prop
  | sec name _ => ∀ c ∈ name.head?, c ≠ ' '
  | sym name _ => ∀ c ∈ name.head?, c ≠ ' '
  | _ => True

theorem dropPrefix?_self (p s : Text) : (p ++ s).dropPrefix? p = some s :=
  List.dropPrefix?_append_of_beq s (by simp)

theorem dropPrefix?_cons (c : Char) (p s : Text) :
    (c :: s).dropPrefix? (c :: p) = s.dropPrefix? p := by
  rw [List.dropPrefix?, if_pos (beq_self_eq_true c)]

theorem dropPrefix?_ne {c d : Char} (h : c ≠ d) (p s : Text) :
    (c :: s).dropPrefix? (d :: p) = none := by
  rw [List.dropPrefix?, if_neg (by simpa using h)]

/-- Behind a name there is one blank. -/
theorem dropPrefix?_blanks {name : Text} (h : ∀ c ∈ name.head?, c ≠ ' ') (address : Vma)
    (p : Text) : (name ++ addressText address).dropPrefix? (' ' :: ' ' :: p) = none := by
  cases name with
  | nil =>
      rw [List.nil_append, addressText, List.append_assoc]
      exact (dropPrefix?_cons ..).trans (dropPrefix?_ne (by decide) ..)
  | cons c name => exact dropPrefix?_ne (h c rfl) ..

theorem Line.text_sec (mark name : Text) (address : Vma) :
    (Line.sec name address).text mark = name ++ addressText address := rfl

theorem Line.text_sym (mark name : Text) (address : Vma) :
    (Line.sym name address).text mark = "  ".toList ++ (name ++ addressText address) := rfl

theorem Line.text_bb (mark : Text) (id address : Vma) : (Line.bb id address).text mark =
    "    BasicBlock #".toList ++ (decNumeral id.toNat ++ addressText address) := rfl

theorem Line.text_instr (mark : Text) (address : Vma) (text : Text) :
    (Line.instr address text).text mark =
      "      <".toList ++ (mark ++ (hexNumeral 8 address.toNat ++ ("> ".toList ++ text))) := rfl

theorem Line.parse_text (mark : Text) {l : Line} (h : l.Legible) :
    Line.parse mark (l.text mark) = some l := by
  cases l with
  | instr address text =>
      have hhex := isLowerHex_hexNumeral 8 address.toNat
      have hself : ((Line.instr address text).text mark).dropPrefix? ("      <".toList ++ mark) =
          some (hexNumeral 8 address.toNat ++ ("> ".toList ++ text)) := by
        have htext : (Line.instr address text).text mark = ("      <".toList ++ mark) ++
            (hexNumeral 8 address.toNat ++ ("> ".toList ++ text)) := (List.append_assoc ..).symm
        rw [htext, dropPrefix?_self]
      rw [parse, hself]
      dsimp only
      rw [List.takeWhile_append_of_pos hhex, List.dropWhile_append_of_pos hhex]
      have hstop : ("> ".toList ++ text).takeWhile isLowerHex = [] ∧
          ("> ".toList ++ text).dropWhile isLowerHex = "> ".toList ++ text := ⟨rfl, rfl⟩
      rw [hstop.1, hstop.2, List.append_nil, dropPrefix?_self, hexValue_hexNumeral]
      simp
  | bb id address =>
      have hself : ((Line.bb id address).text mark).dropPrefix? "    BasicBlock #".toList =
          some (decNumeral id.toNat ++ addressText address) := dropPrefix?_self _ _
      have hinstr : ((Line.bb id address).text mark).dropPrefix? ("      <".toList ++ mark) =
          none := rfl
      rw [parse, hinstr, hself]
      dsimp only
      rw [parseHeader_eq, Option.map_some, decValue_decNumeral]
      simp
  | sym name address =>
      have hself : ((Line.sym name address).text mark).dropPrefix? "  ".toList =
          some (name ++ addressText address) := dropPrefix?_self _ _
      have hother : ∀ p, ((Line.sym name address).text mark).dropPrefix?
          (' ' :: ' ' :: ' ' :: ' ' :: p) = none := fun p =>
        (dropPrefix?_cons ..).trans ((dropPrefix?_cons ..).trans (dropPrefix?_blanks h address p))
      have hinstr : ((Line.sym name address).text mark).dropPrefix? ("      <".toList ++ mark) =
          none := hother ("  <".toList ++ mark)
      have hbb : ((Line.sym name address).text mark).dropPrefix? "    BasicBlock #".toList =
          none := hother "BasicBlock #".toList
      rw [parse, hinstr, hbb, hself]
      dsimp only
      rw [parseHeader_eq, Option.map_some]
  | sec name address =>
      have hother : ∀ p, ((Line.sec name address).text mark).dropPrefix? (' ' :: ' ' :: p) =
          none := fun p => by rw [text_sec, dropPrefix?_blanks h]
      have hinstr : ((Line.sec name address).text mark).dropPrefix? ("      <".toList ++ mark) =
          none := hother ("    <".toList ++ mark)
      have hbb : ((Line.sec name address).text mark).dropPrefix? "    BasicBlock #".toList =
          none := hother "  BasicBlock #".toList
      have hsym : ((Line.sec name address).text mark).dropPrefix? "  ".toList = none := hother []
      rw [parse, hinstr, hbb, hsym]
      dsimp only
      rw [text_sec, parseHeader_eq, Option.map_some]

/-! ## The rows of a listing -/

/-- What the headers show of an accumulator. -/
def Last.shown (last : Last) : Last := ⟨last.bb, cString last.sym, cString last.sec⟩

/-- The instruction of a row, when it has a name. -/
def rowOf (functions : SymMap) (i : Instruction) : Option Row :=
  i.getName.map fun name => ⟨cString i.parent.parent.parent.getName, cString i.parent.parent.getName,
    i.parent.id, i.address, cString name ++ " ".toList ++ cString (params functions i)⟩

/-- The headers in front of an instruction bring a reader to its block. -/
theorem rows_headers (last : Last) (bb : BasicBlock) (address : Vma) (ls : List Line) :
    rows last.shown (headers last bb address ++ ls) = rows bb.last.shown ls := by
  obtain ⟨id, sym, sec⟩ := last
  simp only [headers]
  split_ifs <;> simp_all [rows, Last.shown, BasicBlock.last]

theorem printInstr_of_some (functions : SymMap) {i : Instruction} {name : Text}
    (h : i.getName = some name) (last : Last) : printInstr functions i last =
      ⟨i.parent.last, headers last i.parent i.address ++ [instrLine functions name i], none⟩ := by
  rw [printInstr, Instruction.getArgs_eq, h]

theorem printInstr_of_none (functions : SymMap) {i : Instruction} (h : i.getName = none)
    (last : Last) : printInstr functions i last = ⟨last, headers last i.parent i.address,
      some "first() requires a stream with at least one value".toList⟩ := by
  rw [printInstr, Instruction.getArgs_eq, h]

/-- The lines of some instructions have the rows of those that are printed. -/
theorem rows_emitAll (functions : SymMap) (is : List Instruction) (last : Last) :
    rows last.shown (emitAll (printInstr functions) is last).out =
      (is.takeWhile (·.getName.isSome)).filterMap (rowOf functions) := by
  induction is generalizing last with
  | nil => rfl
  | cons i is ih =>
      cases h : i.getName with
      | none =>
          have hp := printInstr_of_none functions h last
          have hrows := rows_headers last i.parent i.address []
          rw [List.append_nil] at hrows
          rw [emitAll_cons, hp, Emitted.andThen_of_some rfl, hrows]
          simp [h, rows]
      | some name =>
          have hp := printInstr_of_some functions h last
          rw [emitAll_cons, hp, Emitted.andThen_of_none rfl, List.append_assoc, rows_headers,
            List.singleton_append, instrLine, rows, ih]
          simp [h, rowOf, Last.shown, BasicBlock.last]

/-! ## Lines stay lines -/

/-- A name that can be told from the lines around it. -/
def PlainName (name : Text) : Prop := '\n' ∉ name ∧ ∀ c ∈ name.head?, c ≠ ' '

/-- A line that can be read back. -/
def Line.Plain : Line → Prop
  | sec name _ => PlainName name
  | sym name _ => PlainName name
  | bb _ _ => True
  | instr _ text => '\n' ∉ text

theorem Line.Plain.legible {l : Line} (h : l.Plain) : l.Legible := by
  cases l with
  | sec name address => exact h.2
  | sym name address => exact h.2
  | bb id address => trivial
  | instr address text => trivial

theorem newline_hexNumeral (width n : Nat) : '\n' ∉ hexNumeral width n := fun h =>
  absurd (isLowerHex_hexNumeral width n _ h) (by decide)

theorem newline_append {s t : Text} (hs : '\n' ∉ s) (ht : '\n' ∉ t) : '\n' ∉ s ++ t :=
  fun h => (List.mem_append.mp h).elim hs ht

theorem newline_addressText (address : Vma) : '\n' ∉ addressText address :=
  newline_append (newline_append (by decide) (newline_hexNumeral _ _)) (by decide)

theorem newline_decNumeral (n : Nat) : '\n' ∉ decNumeral n := fun h =>
  absurd (isDigit_decNumeral n _ h) (by decide)

theorem Line.Plain.text {mark : Text} (hmark : '\n' ∉ mark) {l : Line} (h : l.Plain) :
    '\n' ∉ l.text mark := by
  cases l with
  | sec name address =>
      rw [text_sec]
      exact newline_append h.1 (newline_addressText _)
  | sym name address =>
      rw [text_sym]
      exact newline_append (by decide) (newline_append h.1 (newline_addressText _))
  | bb id address =>
      rw [text_bb]
      exact newline_append (by decide)
        (newline_append (newline_decNumeral _) (newline_addressText _))
  | instr address text =>
      rw [text_instr]
      exact newline_append (by decide) (newline_append hmark
        (newline_append (newline_hexNumeral _ _) (newline_append (by decide) h)))

theorem mapM_parse {mark : Text} {ls : List Line} (h : ∀ l ∈ ls, l.Legible) :
    (ls.map (Line.text mark)).mapM (Line.parse mark) = some ls := by
  induction ls with
  | nil => rfl
  | cons l ls ih =>
      rw [List.map_cons, List.mapM_cons, Line.parse_text mark (h l (List.mem_cons_self ..)),
        ih fun l' hl' => h l' (List.mem_cons_of_mem _ hl')]
      rfl

/-- Plain lines are read back. -/
theorem readListing_unlines {mark : Text} (hmark : '\n' ∉ mark) {ls : List Line}
    (h : ∀ l ∈ ls, l.Plain) :
    readListing mark (unlines (ls.map (Line.text mark))) = some (rows .start ls) := by
  have hlines : ∀ s ∈ ls.map (Line.text mark), '\n' ∉ s := by
    intro s hs
    obtain ⟨l, hl, rfl⟩ := List.mem_map.mp hs
    exact (h l hl).text hmark
  rw [readListing, linesOf_unlines hlines, mapM_parse fun l hl => (h l hl).legible]
  rfl

/-! ## The lines of a run -/

theorem newline_cString {s : Text} (h : '\n' ∉ s) : '\n' ∉ cString s := fun hc =>
  h (List.takeWhile_sublist _ |>.subset hc)

theorem PlainName.cString {name : Text} (h : PlainName name) : PlainName (cString name) := by
  refine ⟨newline_cString h.1, fun c hc => h.2 c ?_⟩
  cases name with
  | nil => exact hc
  | cons a name =>
      rw [Befa.cString, List.takeWhile_cons] at hc
      split at hc
      · exact hc
      · cases hc

/-- The operands of an instruction have the characters of its pieces and of the functions. -/
theorem notMem_params {functions : SymMap} {c : Char} (hc : isNameChar c = false) (hsep : c ≠ ',')
    (hf : ∀ e ∈ functions.items, c ∉ e.2.getName) {i : Instruction} (h : ∀ p ∈ i.parse, c ∉ p) :
    c ∉ params functions i := by
  have hjoin : c ∉ ", ".toList := by
    have hmarks := notMem_marks hc
    simp_all
  refine notMem_foldl_joinStep hjoin List.not_mem_nil fun l hl => ?_
  obtain ⟨sym, hsym, rfl⟩ := List.mem_map.mp (List.mem_of_mem_filter hl)
  obtain ⟨p, hp, hexpr⟩ := List.mem_filterMap.mp hsym
  exact (Parses.ofHandleExpression hexpr).notMem hc hf (h p (List.mem_of_mem_drop hp))

/-- The names that an instruction is printed with. -/
structure PlainInstr (i : Instruction) : Prop where
  decoded : '\n' ∉ i.decoded
  sym : PlainName i.parent.parent.getName
  sec : PlainName i.parent.parent.parent.getName

theorem plain_headers (last : Last) {i : Instruction} (h : PlainInstr i) :
    ∀ l ∈ headers last i.parent i.address, l.Plain := by
  intro l hl
  simp only [headers, List.mem_append] at hl
  rcases hl with hl | hl | hl <;> split at hl <;>
    first
    | cases hl; done
    | rw [List.mem_singleton.mp hl]
  · exact h.sec.cString
  · exact h.sym.cString
  · trivial

theorem plain_printInstr {functions : SymMap} (hf : ∀ e ∈ functions.items, '\n' ∉ e.2.getName)
    {i : Instruction} (h : PlainInstr i) (last : Last) :
    ∀ l ∈ (printInstr functions i last).out, l.Plain := by
  cases hn : i.getName with
  | none =>
      rw [printInstr_of_none functions hn]
      exact plain_headers last h
  | some name =>
      rw [printInstr_of_some functions hn]
      refine List.forall_mem_append.mpr ⟨plain_headers last h, List.forall_mem_singleton.mpr ?_⟩
      have hpieces : ∀ p ∈ i.parse, '\n' ∉ p := fun p hp hc => h.decoded (mem_of_mem_split hp hc)
      have hname := hpieces name (List.mem_of_head? hn)
      exact newline_append (newline_append (newline_cString hname) (by decide))
        (newline_cString (notMem_params (by decide) (by decide) hf hpieces))

namespace ExecutableFile

/-- A run is the same behind `generate_table`. -/
theorem runDisassembler_generateTable (f : ExecutableFile) :
    f.generateTable.1.runDisassembler.out = f.runDisassembler.out ∧
      f.generateTable.1.runDisassembler.raised = f.runDisassembler.raised := by
  have hfd : f.generateTable.1.fd = f.fd := f.fd_getSymbolTable
  have hblocks : f.generateTable.1.basicBlockBuffer = f.basicBlockBuffer :=
    f.basicBlockBuffer_getSymbolTable
  obtain ⟨hout, hraised, -⟩ := f.generateTable.1.runDisassembler_eq
  obtain ⟨hout', hraised', -⟩ := f.runDisassembler_eq
  rw [hout, hraised, hout', hraised', hfd, hblocks]
  exact ⟨rfl, rfl⟩

/-- The owner of an instruction is a symbol of the table. -/
theorem owner_mem_symbolTable {fd : Bfd} {i : Instruction}
    (h : i ∈ (ExecutableFile.new fd).runDisassembler.out) :
    i.parent.parent ∈ symbolTable fd.symbols := by
  have hheld := (Streamed.run (.new fd)).held i h
  rw [(runDisassembler_eq (.new fd)).2.2] at hheld
  rcases emitAll_fetchWindow_blocks fd _ _ i.parent hheld with hold | ⟨w, hw, hown⟩
  · exact absurd hold List.not_mem_nil
  · exact hown ▸ (mem_windows hw).1

/-- The lines of a run are plain. -/
theorem plain_listing (fd : Bfd) (hnames : ∀ b ∈ fd.symbols, PlainName b.name ∧ PlainName b.sect.name)
    (htexts : ∀ i ∈ (ExecutableFile.new fd).runDisassembler.out, '\n' ∉ i.decoded) :
    ∀ l ∈ (ExecutableFile.new fd).listing.out, l.Plain := by
  have hfunctions : ∀ e ∈ (ExecutableFile.new fd).functions.items, '\n' ∉ e.2.getName := by
    intro e he
    obtain ⟨b, hb, -, heq⟩ := mem_functions he
    rw [heq]
    exact newline_append (by decide) (hnames b hb).1.1
  have hinstr : ∀ i ∈ (ExecutableFile.new fd).runDisassembler.out, PlainInstr i := by
    intro i hi
    have hown := owner_mem_symbolTable hi
    have horigin : i.parent.parent.origin ∈ i.parent.parent.records := List.mem_cons_self ..
    rw [records_of_mem_symbolTable hown] at horigin
    have hb := hnames _ (List.mem_of_mem_filter horigin)
    rw [← parent_of_mem_symbolTable hown] at hb
    exact ⟨htexts i hi, hb.1, hb.2⟩
  rw [listing, (runDisassembler_generateTable _).1]
  refine emitAll_history (I := fun (o : List Line) _ => ∀ l ∈ o, l.Plain) (o := [])
    (fun i hi o t ho => ?_) (by simp)
  exact List.forall_mem_append.mpr ⟨ho, plain_printInstr hfunctions (hinstr i hi) t⟩

/-- The rows of a run. -/
theorem rows_listing (f : ExecutableFile) : rows .start f.listing.out =
    (f.runDisassembler.out.takeWhile (·.getName.isSome)).filterMap (rowOf f.functions) := by
  rw [listing, (runDisassembler_generateTable _).1]
  exact rows_emitAll _ _ .start

/-- **A listing is read back**: it shows every printed instruction, under its own section, symbol
and block. -/
theorem readListing_print (fd : Bfd) {mark : Text} (hmark : '\n' ∉ mark)
    (hnames : ∀ b ∈ fd.symbols, PlainName b.name ∧ PlainName b.sect.name)
    (htexts : ∀ i ∈ (ExecutableFile.new fd).runDisassembler.out, '\n' ∉ i.decoded) :
    readListing mark ((ExecutableFile.new fd).print mark) =
      some (((ExecutableFile.new fd).runDisassembler.out.takeWhile (·.getName.isSome)).filterMap
        (rowOf (ExecutableFile.new fd).functions)) := by
  rw [print, readListing_unlines hmark (plain_listing fd hnames htexts), rows_listing]

theorem plainNames_nopFunction : ∀ b ∈ (nopFunction 8).symbols,
    PlainName b.name ∧ PlainName b.sect.name := by
  unfold PlainName
  decide

/-- The listing of a file with one instruction. -/
theorem readListing_print_nopFunction :
    readListing "0x".toList ((ExecutableFile.new (nopFunction 8)).print "0x".toList) =
      some (((ExecutableFile.new (nopFunction 8)).runDisassembler.out.takeWhile
        (·.getName.isSome)).filterMap (rowOf (ExecutableFile.new (nopFunction 8)).functions)) :=
  readListing_print (nopFunction 8) (by decide) plainNames_nopFunction (by decide +kernel)

end ExecutableFile

end Befa
