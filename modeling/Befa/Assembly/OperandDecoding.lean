import Befa.Assembly.InstructionText

/-!
# Decoding the operands of an instruction

`getArgs` turns the pieces of an instruction into symbols, one for each.  Pieces carry no mark of
the kind of operand they come from, so an immediate without its `0x` may spell a register, and a
memory operand is one only if `dereference` knows its size.

`immediate_decodes_iff` says which immediates are decoded as numbers, and `dereference_iff` which
memory operands are decoded as dereferences.  Empty brackets are no piece, and then the words in
front of them are pieces of their own.
-/

namespace Befa

/-! ## Symbols of pieces -/

/-- The symbols of pieces. -/
def symbolsOf (functions : SymMap) (pieces : List Text) : List Sym :=
  pieces.filterMap (handleExpression functions)

section Symbols

variable (functions : SymMap)

theorem symbolsOf_append (l m : List Text) :
    symbolsOf functions (l ++ m) = symbolsOf functions l ++ symbolsOf functions m :=
  List.filterMap_append

theorem length_symbolsOf (pieces : List Text) :
    (symbolsOf functions pieces).length = pieces.length := by
  induction pieces with
  | nil => rfl
  | cons p ps ih =>
      obtain ⟨sym, hs⟩ := Option.isSome_iff_exists.mp (handleExpression_isSome functions p)
      rw [symbolsOf, List.filterMap_cons_some hs, List.length_cons, List.length_cons]
      exact congrArg Nat.succ ih

theorem getElem?_symbolsOf (pieces : List Text) (i : Nat) :
    (symbolsOf functions pieces)[i]? = pieces[i]?.bind (handleExpression functions) := by
  induction pieces generalizing i with
  | nil => rfl
  | cons p ps ih =>
      obtain ⟨sym, hs⟩ := Option.isSome_iff_exists.mp (handleExpression_isSome functions p)
      rw [symbolsOf, List.filterMap_cons_some hs]
      cases i with
      | zero => exact hs.symm
      | succ i => exact ih i

end Symbols

/-- An instruction with a text of its own. -/
def Instruction.withText (i : Instruction) (text : Text) : Instruction := { i with decoded := text }

/-- The symbols of a text that is made of chunks. -/
theorem getArgs_withText (i : Instruction) (mnemonic : Name) (blanks : Nat)
    {chunks : List (Text × List Text)} (hc : ∀ k ∈ chunks, Chunk k.1 k.2)
    (hb : chunks ≠ [] → 0 < blanks) (comment : Option Comment) (functions : SymMap) :
    (i.withText (instructionText mnemonic blanks (chunks.map Prod.fst) comment)).getArgs functions =
      ⟨(), symbolsOf functions (chunks.flatMap Prod.snd) ++
        symbolsOf functions (commentPieces comment), none⟩ := by
  rw [Instruction.getArgs_eq, Instruction.args, Instruction.parse, Instruction.withText,
    split_instructionText mnemonic blanks hc hb comment, ← symbolsOf_append]
  rfl

/-- Every operand that is one piece has the symbol of its piece. -/
theorem getElem?_getArgs (i : Instruction) (mnemonic : Name) (blanks : Nat) (hb : 0 < blanks)
    (operands : List Operand) (comment : Option Comment) (functions : SymMap) {k : Nat}
    {o : Operand} (hk : operands[k]? = some o) :
    ((i.withText (instructionText mnemonic blanks (operands.map Operand.text)
      comment)).getArgs functions).out[k]? = handleExpression functions o.piece := by
  have hchunks : ∀ x ∈ operands.map Operand.chunkText, Chunk x.1 x.2 := fun _ => chunk_of_mem
  have hmap : (operands.flatMap fun o => (Operand.chunkText o).2) = operands.map Operand.piece :=
    List.map_eq_flatMap.symm
  have hargs := getArgs_withText i mnemonic blanks hchunks (fun _ => hb) comment functions
  rw [List.map_map, List.flatMap_map, hmap] at hargs
  have hpiece : (operands.map Operand.piece)[k]? = some o.piece := by
    rw [List.getElem?_map, hk, Option.map_some]
  have hlt : k < (symbolsOf functions (operands.map Operand.piece)).length := by
    rw [length_symbolsOf]
    exact (List.getElem?_eq_some_iff.mp hpiece).1
  have hout := congrArg (fun e => e.out[k]?) hargs
  refine hout.trans ?_
  rw [List.getElem?_append_left hlt, getElem?_symbolsOf, hpiece, Option.bind_some]

/-! ## Immediates -/

/-- The digits that spell a register. -/
def registerDigits : List Text := ["ac", "af", "cf", "df"].map String.toList

theorem findRegister_digits {digits : Text} (hd : ∀ c ∈ digits, isHexDigit c = true) :
    (findRegister digits).isSome ↔ digits ∈ registerDigits := by
  have hnames : ∀ r ∈ registers, r.1.all isHexDigit = true → r.1 ∈ registerDigits := by
    decide +kernel
  have hknown : ∀ d ∈ registerDigits, (findRegister d).isSome := by decide +kernel
  refine ⟨fun h => ?_, hknown digits⟩
  rw [findRegister, Option.isSome_map, List.find?_isSome] at h
  obtain ⟨r, hr, he⟩ := h
  obtain rfl := of_decide_eq_true he
  exact hnames r hr (List.all_eq_true.mpr hd)

/-- What `address` takes from a run of digits has the same value. -/
theorem fullMatch_address {digits : Text} {c : Regex.Captures Char}
    (hd : ∀ c ∈ digits, isHexDigit c = true) (h : address.fullMatch digits = some c) :
    c 1 ≠ [] ∧ (∀ d ∈ c 1, isHexDigit d = true) ∧ hexValue (c 1) = hexValue digits := by
  obtain ⟨hne, hchars, mark, zeros, hmark, hz, rfl⟩ := fullMatch_address_spec h
  have hnil : mark = [] := by
    refine hmark.resolve_left fun hx => ?_
    exact absurd (hd 'x' (by simp [hx])) (by decide)
  subst hnil
  exact ⟨hne, hchars, (hexValue_zeros hz _).symm⟩

theorem findFunction_digits {functions : SymMap} {digits : Text}
    (hd : ∀ c ∈ digits, isHexDigit c = true) (hv : hexValue digits < 2 ^ 64)
    (hf : functions.find? (UInt64.ofNat (hexValue digits)) = none) :
    findFunction functions digits = none := by
  cases h : address.fullMatch digits with
  | none => rw [findFunction, h]
  | some c =>
      obtain ⟨hne, hchars, hvalue⟩ := fullMatch_address hd h
      rw [findFunction, h]
      simp only [strToVma]
      rw [extractHex_digits hchars, readHex_of_lt hne (hvalue ▸ hv), hvalue, hf, Option.map_none]

/-- The argument is an immediate of a value. -/
def IsImmediate (arg : Option Sym) (value : Nat) : Prop :=
  ∃ text, arg = some (.immidiate text) ∧ hexValue text = value

theorem handleExpression_digits {functions : SymMap} (n : HexNumber)
    (hv : hexValue n.digits < 2 ^ 64)
    (hf : functions.find? (UInt64.ofNat (hexValue n.digits)) = none) :
    IsImmediate (handleExpression functions n.digits) (hexValue n.digits) ↔
      n.digits ∉ registerDigits := by
  have hfunction := findFunction_digits n.hex hv hf
  rw [← findRegister_digits n.hex]
  cases hr : findRegister n.digits with
  | some register =>
      rw [handleExpression_register hfunction hr]
      refine iff_of_false ?_ (by simp)
      rintro ⟨text, he, -⟩
      obtain ⟨r, -, rfl⟩ := Option.map_eq_some_iff.mp hr
      cases he
  | none =>
      have hlang : number.Lang n.digits :=
        ⟨[], n.digits, rfl, Or.inr rfl, Regex.lang_plus.mpr ⟨n.nonempty, n.hex⟩⟩
      obtain ⟨c, hc, htext⟩ : ∃ c, number.fullMatch n.digits = some c ∧ c 1 = n.digits :=
        Regex.fullMatch_group hlang
      rw [handleExpression_number hfunction hr hc, htext]
      exact iff_of_true ⟨n.digits, rfl, rfl⟩ (by simp)

/-- **Immediate operands decode to themselves** unless their digits spell a register. -/
theorem immediate_decodes_iff (i : Instruction) (mnemonic : Name) (blanks : Nat) (hb : 0 < blanks)
    (operands : List Operand) (comment : Option Comment) (functions : SymMap) (k : Nat)
    (n : HexNumber) (hk : operands[k]? = some (.immediate n)) (hv : hexValue n.digits < 2 ^ 64)
    (hf : functions.find? (UInt64.ofNat (hexValue n.digits)) = none) :
    IsImmediate (((i.withText (instructionText mnemonic blanks (operands.map Operand.text)
        comment)).getArgs functions).out[k]?) (hexValue n.digits) ↔
      n.digits ∉ registerDigits := by
  rw [getElem?_getArgs i mnemonic blanks hb operands comment functions hk]
  exact handleExpression_digits n hv hf

/-- An instruction without a text. -/
def textless : Instruction where
  bytes := ⟨[], 0, 0⟩
  parent := ⟨0, 0, ⟨⟨0, "f".toList, 0, bsfFunction, ⟨0, ".text".toList, 0, 0x10⟩⟩,
    ⟨⟨0, ".text".toList, 0, 0x10⟩⟩, []⟩⟩
  decoded := []
  address := 0

/-- `mov    eax,0xab`. -/
theorem immediate_ab : IsImmediate
    (((textless.withText "mov    eax,0xab".toList).getArgs .nil).out[1]?) 0xab :=
  (immediate_decodes_iff textless ⟨⟨"mov".toList, by decide, by decide⟩, by decide⟩ 4
    (by decide)
    [.register ⟨⟨"eax".toList, by decide, by decide⟩, by decide⟩,
      .immediate ⟨"ab".toList, by decide, by decide⟩]
    none .nil 1 ⟨"ab".toList, by decide, by decide⟩ rfl (by decide) rfl).mpr (by decide)

/-- `0xac` is taken for the flag `ac`. -/
theorem immediate_ac : ¬IsImmediate
    (((textless.withText "mov    eax,0xac".toList).getArgs .nil).out[1]?) 0xac := by
  have hregister : ((textless.withText "mov    eax,0xac".toList).getArgs .nil).out[1]? =
      some (.register .bit "_ac".toList) := by decide +kernel
  rintro ⟨text, he, -⟩
  rw [hregister] at he
  cases he

/-! ## Memory operands -/

/-- An operand with a size and an address. -/
inductive MemoryOperand where
  /-- `W PTR [e]`, or `W PTR seg:[e]`. -/
  | bracketed (size : Name) (seg : Option Word) (inner : Inner)
  /-- `W PTR []`, or `W PTR seg:[]`. -/
  | empty (size : Name) (seg : Option Name)
  /-- `W PTR seg:0x...`. -/
  | absolute (size seg : Name) (value : HexNumber)

namespace MemoryOperand

/-- The size word. -/
def size : MemoryOperand → Text
  | bracketed size _ _ => size.text
  | empty size _ => size.text
  | absolute size _ _ => size.text

/-- The text of the address. -/
def addressText : MemoryOperand → Text
  | bracketed _ _ inner => inner.text
  | empty _ _ => []
  | absolute _ _ value => value.text

def text : MemoryOperand → Text
  | bracketed size seg inner => pointerText size.toWord seg inner
  | empty size seg =>
      size.text ++ (" PTR ".toList ++ (segmentText (seg.map Name.toWord) ++ "[]".toList))
  | absolute size seg value =>
      size.text ++ (" PTR ".toList ++ (seg.text ++ (":".toList ++ value.text)))

def pieces : MemoryOperand → List Text
  | bracketed size seg inner => [pointerText size.toWord seg inner]
  | empty size seg => size.text :: "PTR".toList :: seg.toList.map (·.text)
  | absolute size seg value => [size.text, "PTR".toList, seg.text, value.digits]

end MemoryOperand

/-- `PTR`. -/
def ptrName : Name := ⟨⟨"PTR".toList, by decide, by decide⟩, by decide⟩

theorem noTail_of_segment {seg : Word} {s : Text} : NoTail (seg.text ++ ':' :: s) :=
  noTail_of_word seg.chars (stops_cons.mpr (by decide)) fun r hr => by cases hr

/-- Behind a segment a number is no tail of a pointer. -/
theorem noTail_of_absolute (seg : Name) (value : HexNumber) (s : Text) :
    NoTail ("PTR".toList ++ ' ' :: (seg.text ++ ':' :: (value.text ++ s))) := by
  intro u v hu hl
  obtain ⟨sg, y, hsg, rfl⟩ := pointerTail_inv hl
  have htail : seg.text ++ ':' :: (value.text ++ s) = sg ++ '[' :: y ++ v := by
    injection hu with _ h
    injection h with _ h
    injection h with _ h
    injection h with _ h
    injection h with _ h
  rw [List.append_assoc] at htail
  have hcolon : Stops isWordChar (':' :: (value.text ++ s)) := stops_cons.mpr (by decide)
  rcases segment_inv hsg with rfl | ⟨w, hw, rfl⟩
  · have hstop : Stops isWordChar ('[' :: y ++ v) := stops_cons.mpr (by decide)
    exact seg.nonempty (append_stops_inj seg.chars (v := []) (by simp) hcolon hstop htail).1
  · rw [List.append_assoc] at htail
    have hstop : Stops isWordChar ([':'] ++ ('[' :: y ++ v)) := stops_cons.mpr (by decide)
    have hrest := (append_stops_inj seg.chars hw hcolon hstop htail).2
    have hhead := congrArg List.head? (List.cons.inj hrest).2
    exact absurd (Option.some.inj hhead) (by decide)

/-- A text that ends a segment ends it in one way. -/
theorem segment_inj {sg : Text} {seg : Option Word} {x y : Text} (hs : segment.Lang sg)
    (h : sg ++ '[' :: x = segmentText seg ++ '[' :: y) : x = y := by
  have hbracket : ∀ r : Text, Stops isWordChar ('[' :: r) := fun r => stops_cons.mpr (by decide)
  have hcolon : ∀ r : Text, Stops isWordChar ([':'] ++ '[' :: r) :=
    fun r => stops_cons.mpr (by decide)
  rcases segment_inv hs with rfl | ⟨w, hw, rfl⟩
  · cases seg with
    | none => exact (List.cons.inj h).2
    | some seg =>
        rw [segmentText, List.append_assoc] at h
        have hnil := append_stops_inj (u := []) (by simp) seg.chars (hbracket _) (hcolon y) h
        exact absurd hnil.1.symm seg.nonempty
  · cases seg with
    | none =>
        rw [List.append_assoc] at h
        have hrest := (append_stops_inj hw (v := []) (by simp) (hcolon x) (hbracket y) h).2
        exact absurd (List.cons.inj hrest).1 (by decide)
    | some seg =>
        rw [segmentText, List.append_assoc, List.append_assoc] at h
        have hrest := (append_stops_inj hw seg.chars (hcolon x) (hcolon y) h).2
        exact (List.cons.inj (List.cons.inj hrest).2).2

/-- Between empty brackets there is no address. -/
theorem not_bracketed_empty {g : Regex Char → Regex Char} {s : Text}
    (hg : ∀ r w, (g r).Lang w → r.Lang w) (u v : Text) (hu : '[' :: ']' :: s = u ++ v) :
    ¬(bracketed g).Lang u := by
  rintro ⟨a, b, rfl, ha, e, f, rfl, he, -⟩
  obtain rfl := Regex.lang_str.mp ha
  obtain ⟨hne, hchars⟩ := Regex.lang_plus.mp (hg _ _ he)
  obtain ⟨c, w, rfl⟩ := List.exists_cons_of_ne_nil hne
  obtain rfl := (List.cons.inj (List.cons.inj hu).2).1
  exact absurd (hchars ']' (List.mem_cons_self ..)) (by decide)

/-- Empty brackets are no piece. -/
theorem split_emptyBrackets (s : Text) : split ('[' :: ']' :: s) = split s := by
  have hrun : Regex.run parseRegex ('[' :: ']' :: s) .none = [] :=
    run_parseRegex_eq_nil (stops_cons.mpr (by decide)) (head_ne (by decide) _)
      (head_ne (by decide) _)
      (Regex.run_eq_nil_iff.mpr (not_bracketed_empty fun _ _ h => h))
  rw [split_eq, Regex.search_of_nil hrun, ← split_eq, split_separator (by decide)]

/-- Empty brackets are no tail of a pointer. -/
theorem noTail_of_empty (seg : Option Word) (s : Text) :
    NoTail ("PTR".toList ++ ' ' :: (segmentText seg ++ '[' :: ']' :: s)) := by
  rintro u v hu ⟨a, b, rfl, ha, sg, e, rfl, hsg, he⟩
  obtain rfl := Regex.lang_str.mp ha
  have htail : segmentText seg ++ '[' :: ']' :: s = sg ++ (e ++ v) := by
    rw [List.append_assoc, List.append_assoc] at hu
    exact (List.append_right_inj " PTR ".toList).mp hu
  obtain ⟨d, f, rfl, hd, hf⟩ := he
  obtain rfl := Regex.lang_str.mp hd
  have hinner := segment_inj hsg htail.symm
  exact not_bracketed_empty (g := id) (fun _ _ h => h) ("[".toList ++ f) v
    (congrArg ('[' :: ·) hinner.symm) ⟨"[".toList, f, rfl, Regex.lang_str.mpr rfl, hf⟩

/-- Behind `PTR` the segment of empty brackets is a piece. -/
theorem split_emptyTail (seg : Option Name) (s : Text) :
    split (segmentText (seg.map Name.toWord) ++ '[' :: ']' :: s) =
      seg.toList.map (·.text) ++ split s := by
  cases seg with
  | none => exact split_emptyBrackets s
  | some seg =>
      have hname := split_name seg (s := ':' :: '[' :: ']' :: s) (stops_cons.mpr (by decide))
        (head_ne (by decide) _) (not_pointerTail (head_ne (by decide) _))
      rw [split_separator (by decide), split_emptyBrackets] at hname
      rw [Option.map_some, segmentText, List.append_assoc]
      exact hname

/-- A size and `PTR` are pieces where no tail of a pointer follows. -/
theorem chunk_of_ptr (size : Name) {rest : Text} {pieces : List Text}
    (hsize : ∀ s, NoTail (ptrName.text ++ ' ' :: (rest ++ s)))
    (hptr : ∀ s, NoTail (rest ++ s))
    (hsplit : ∀ s, Ends s → split (rest ++ s) = pieces ++ split s) :
    Chunk (size.text ++ (" PTR ".toList ++ rest)) (size.text :: "PTR".toList :: pieces) := by
  have htext : ∀ s, size.text ++ (" PTR ".toList ++ rest) ++ s =
      size.text ++ ' ' :: (ptrName.text ++ ' ' :: (rest ++ s)) := by
    intro s
    simp [ptrName]
  have hblank : ∀ r : Text, Stops isWordChar (' ' :: r) := fun r => stops_cons.mpr (by decide)
  refine ⟨fun s hs => ?_, fun s _ => ?_⟩
  · rw [htext, split_name size (hblank _) (head_ne (by decide) _) (hsize s),
      split_separator (by decide), split_name ptrName (hblank _) (head_ne (by decide) _) (hptr s),
      split_separator (by decide), hsplit s hs]
    rfl
  · rw [htext]
    exact noTail_of_ptr size.toWord _

theorem MemoryOperand.chunk (m : MemoryOperand) : Chunk m.text m.pieces := by
  cases m with
  | bracketed size seg inner => exact (Operand.memory size.toWord seg inner).chunk
  | empty size seg =>
      have hrest : ∀ s, segmentText (seg.map Name.toWord) ++ "[]".toList ++ s =
          segmentText (seg.map Name.toWord) ++ '[' :: ']' :: s := by
        intro s
        simp
      refine chunk_of_ptr size (fun s => ?_) (fun s => ?_) fun s _ => ?_
      · rw [hrest]
        exact noTail_of_empty _ s
      · rw [hrest]
        cases seg with
        | none => exact noTail_of_head (head_ne (by decide) _)
        | some seg =>
            rw [Option.map_some, segmentText, List.append_assoc]
            exact noTail_of_segment
      · rw [hrest]
        exact split_emptyTail seg s
  | absolute size seg value =>
      have hrest : ∀ s, seg.text ++ (":".toList ++ value.text) ++ s =
          seg.text ++ ':' :: (value.text ++ s) := by
        intro s
        simp
      refine chunk_of_ptr size (fun s => ?_) (fun s => ?_) fun s hs => ?_
      · rw [hrest]
        exact noTail_of_absolute seg value s
      · rw [hrest]
        exact noTail_of_segment
      · rw [hrest, split_name seg (stops_cons.mpr (by decide)) (head_ne (by decide) _)
            (not_pointerTail (head_ne (by decide) _)), split_separator (by decide),
          split_immediate value hs.stops hs.ne_dot hs.not_pointerTail]
        rfl

/-! ## Dereferences -/

theorem isWord_of_lang_address {expr : Text} (h : address.Lang expr) :
    ∀ c ∈ expr, isWordChar c = true := by
  obtain ⟨u, _, rfl, hu, zeros, d, rfl, hz, hd⟩ := h
  intro c hc
  rcases List.mem_append.mp hc with hc | hc
  · rcases hu with hu | rfl
    · rw [Regex.lang_str.mp hu] at hc
      exact List.all_eq_true.mp (by decide : "0x".toList.all isWordChar = true) c hc
    · cases hc
  · rcases List.mem_append.mp hc with hc | hc
    · rw [of_decide_eq_true (hz c hc)]
      rfl
    · exact isWordChar_of_isHexDigit ((Regex.lang_plus.mp hd).2 c hc)

theorem findFunction_none {functions : SymMap} {expr : Text} {c : Char} (hc : c ∈ expr)
    (hw : isWordChar c = false) : findFunction functions expr = none := by
  have h : address.fullMatch expr = none := by
    refine Regex.fullMatch_eq_none.mpr fun h => ?_
    have := isWord_of_lang_address h c hc
    rw [hw] at this
    cases this
  rw [findFunction, h]

section Pointers

variable {size : Word} {seg : Option Word} {inner : Inner}

theorem dereference_lang (hsize : size.text ∈ sizeWords)
    (hdots : ∀ c ∈ inner.text, isDot c = true) :
    dereference.Lang (pointerText size seg inner) := by
  have hsegment : segment.Lang (segmentText seg) := by
    cases seg with
    | none => exact Or.inr rfl
    | some seg => exact Or.inl ⟨seg.text, ":".toList, rfl,
        Regex.lang_plus.mpr ⟨seg.nonempty, seg.chars⟩, Regex.lang_str.mpr rfl⟩
  have hword := Regex.lang_alts.mpr ⟨_, List.mem_map_of_mem hsize, Regex.lang_str.mpr rfl⟩
  exact ⟨size.text, _, rfl, hword, " PTR ".toList, _, rfl, Regex.lang_str.mpr rfl,
    segmentText seg, _, rfl, hsegment, "[".toList, _, rfl, Regex.lang_str.mpr rfl,
    inner.text, _, rfl, hdots, Regex.lang_str.mpr rfl⟩

/-- The groups of `dereference` take the size and the address of a pointer. -/
theorem dereference_pointer {c : Regex.Captures Char}
    (h : dereference.fullMatch (pointerText size seg inner) = some c) :
    c 1 = size.text ∧ c 2 = inner.text := by
  obtain ⟨hword, -, sg, hsg, htext⟩ := fullMatch_dereference_spec h
  have hwords : ∀ w ∈ sizeWords, w.all isWordChar = true := by decide
  have hblank : ∀ r : Text, Stops isWordChar (" PTR ".toList ++ r) :=
    fun r => stops_cons.mpr (by decide)
  obtain ⟨hsize, htail⟩ := append_stops_inj size.chars (List.all_eq_true.mp (hwords _ hword))
    (hblank _) (hblank _) htext
  have hinner := segment_inj hsg (List.append_cancel_left htail).symm
  exact ⟨hsize.symm, List.append_cancel_right hinner⟩

/-- A symbol that stands for what lies at an address. -/
def IsDereference (functions : SymMap) (size address : Text) (sym : Sym) : Prop :=
  ∃ type sub, sym = .sizedTemporary type "*".toList sub ∧ type.name = size ∧
    handleExpression functions address = some sub

/-- An expression that is no function, register, number or dereference has no size. -/
theorem handleExpression_unsized {functions : SymMap} {expr : Text} {type : Size} {op : Text}
    {sub : Sym} (hf : findFunction functions expr = none) (hr : findRegister expr = none)
    (hn : number.fullMatch expr = none) (hd : dereference.fullMatch expr = none) :
    handleExpression functions expr ≠ some (.sizedTemporary type op sub) := by
  have hoperation : ∀ l o r, createOperation l o r ≠ some (.sizedTemporary type op sub) := by
    intro l o r h
    cases l <;> cases r <;> cases h
  cases hm : multiplication.fullMatch expr with
  | some c => rw [handleExpression_multiplication hf hr hn hd hm]; exact hoperation _ _ _
  | none =>
      cases ha : addOrSubstract.fullMatch expr with
      | some c => rw [handleExpression_addOrSubstract hf hr hn hd hm ha]; exact hoperation _ _ _
      | none => rw [handleExpression_symbol hf hr hn hd hm ha]; simp

theorem createDereference_eq {size : Text} (hs : size ∈ sizeWords) (sub : Sym) :
    ∃ type, createDereference size (some sub) = some (.sizedTemporary type "*".toList sub) ∧
      type.name = size := by
  have hfind : ∀ w ∈ sizeWords, (temporarySizes.find? (·.name = w)).isSome := by decide +kernel
  obtain ⟨type, htype⟩ := Option.isSome_iff_exists.mp (hfind size hs)
  refine ⟨type, ?_, by simpa using List.find?_some htype⟩
  rw [createDereference, htype, Option.bind_some, Option.map_some]

theorem handleExpression_pointer (functions : SymMap) (size : Word) (seg : Option Word)
    (inner : Inner) :
    (∃ sym, handleExpression functions (pointerText size seg inner) = some sym ∧
      IsDereference functions size.text inner.text sym) ↔
        size.text ∈ sizeWords ∧ ∀ c ∈ inner.text, isDot c = true := by
  have hblank : ' ' ∈ pointerText size seg inner := by simp [pointerText]
  have hf : findFunction functions (pointerText size seg inner) = none :=
    findFunction_none hblank (by decide)
  have hr := findRegister_none hblank (by decide)
  have hn := number_none hblank (by decide)
  cases hd : dereference.fullMatch (pointerText size seg inner) with
  | some c =>
      obtain ⟨hsize, hinner⟩ := dereference_pointer hd
      obtain ⟨hword, hdots, -⟩ := fullMatch_dereference_spec hd
      obtain ⟨sub, hsub⟩ := Option.isSome_iff_exists.mp
        (handleExpression_isSome functions inner.text)
      rw [hsize] at hword
      rw [hinner] at hdots
      obtain ⟨type, hcreate, hname⟩ := createDereference_eq hword sub
      rw [handleExpression_dereference hf hr hn hd, hsize, hinner, hsub, hcreate]
      exact iff_of_true ⟨_, rfl, type, sub, rfl, hname, hsub⟩ ⟨hword, hdots⟩
  | none =>
      refine iff_of_false ?_ fun h => ?_
      · rintro ⟨sym, hsym, type, sub, rfl, -⟩
        exact handleExpression_unsized hf hr hn hd hsym
      · exact Regex.fullMatch_eq_none.mp hd (dereference_lang h.1 h.2)

end Pointers

/-! ## The arguments of an instruction with a memory operand -/

/-- An operand of an instruction. -/
inductive AnyOperand where
  | plain (o : Operand)
  | memory (m : MemoryOperand)

/-- The text of an operand, and the pieces it becomes. -/
def AnyOperand.chunkText : AnyOperand → Text × List Text
  | plain o => o.chunkText
  | memory m => (m.text, m.pieces)

theorem AnyOperand.chunk (o : AnyOperand) : Chunk o.chunkText.1 o.chunkText.2 := by
  cases o with
  | plain o => exact o.chunk
  | memory m => exact m.chunk

/-- The pieces of operands. -/
def piecesOf (operands : List AnyOperand) : List Text := operands.flatMap (·.chunkText.2)

/-- A memory operand has one argument, which is a dereference.  The operands around it have their
own arguments. -/
def OneDereference (i : Instruction) (functions : SymMap) (before : List Text) (m : MemoryOperand)
    (after : List Text) : Prop :=
  ∃ arg, IsDereference functions m.size m.addressText arg ∧ i.getArgs functions =
    ⟨(), symbolsOf functions before ++ arg :: symbolsOf functions after, none⟩

/-- `dereference` knows the size, and an address lies on one line between brackets. -/
def MemoryOperand.Known : MemoryOperand → Prop
  | bracketed size _ inner => size.text ∈ sizeWords ∧ ∀ c ∈ inner.text, isDot c = true
  | empty _ _ => False
  | absolute _ _ _ => False

/-- Around other arguments, a memory operand has the symbols of its own pieces. -/
theorem oneDereference_iff (i : Instruction) (mnemonic : Name) (blanks : Nat) (hb : 0 < blanks)
    (before : List AnyOperand) (m : MemoryOperand) (after : List AnyOperand)
    (comment : Option Comment) (functions : SymMap) :
    OneDereference (i.withText (instructionText mnemonic blanks
        ((before ++ .memory m :: after).map (·.chunkText.1)) comment)) functions
      (piecesOf before) m (piecesOf after ++ commentPieces comment) ↔
    ∃ arg, IsDereference functions m.size m.addressText arg ∧
      symbolsOf functions m.pieces = [arg] := by
  have hchunks : ∀ x ∈ (before ++ .memory m :: after).map AnyOperand.chunkText,
      Chunk x.1 x.2 := by
    intro x hx
    obtain ⟨o, -, rfl⟩ := List.mem_map.mp hx
    exact o.chunk
  have hargs := getArgs_withText i mnemonic blanks hchunks (fun _ => hb) comment functions
  have hpieces : ((before ++ .memory m :: after).map AnyOperand.chunkText).flatMap Prod.snd =
      piecesOf before ++ (m.pieces ++ piecesOf after) := by
    simp [piecesOf, List.flatMap_map, AnyOperand.chunkText]
  rw [hpieces, List.map_map, symbolsOf_append, symbolsOf_append, List.append_assoc,
    List.append_assoc, ← symbolsOf_append functions (piecesOf after)] at hargs
  have hsame : ∀ arg, (symbolsOf functions (piecesOf before) ++ (symbolsOf functions m.pieces ++
      symbolsOf functions (piecesOf after ++ commentPieces comment)) =
      symbolsOf functions (piecesOf before) ++
        arg :: symbolsOf functions (piecesOf after ++ commentPieces comment)) ↔
      symbolsOf functions m.pieces = [arg] := by
    intro arg
    rw [List.append_right_inj, ← List.singleton_append, List.append_left_inj]
  refine exists_congr fun arg => and_congr_right fun _ => ?_
  rw [← hsame arg]
  refine Iff.trans (Eq.congr_left hargs) ?_
  simp

/-- Two pieces or more have no single symbol. -/
theorem symbolsOf_ne_singleton {functions : SymMap} {pieces : List Text} {p : Sym → Prop}
    (h : 2 ≤ pieces.length) : ¬∃ arg, p arg ∧ symbolsOf functions pieces = [arg] := by
  rintro ⟨arg, -, hone⟩
  have hlen := congrArg List.length hone
  rw [length_symbolsOf, List.length_singleton] at hlen
  omega

/-- **A memory operand decodes to one dereference** just when its size is known. -/
theorem dereference_iff (i : Instruction) (mnemonic : Name) (blanks : Nat) (hb : 0 < blanks)
    (before : List AnyOperand) (m : MemoryOperand) (after : List AnyOperand)
    (comment : Option Comment) (functions : SymMap) :
    OneDereference (i.withText (instructionText mnemonic blanks
        ((before ++ .memory m :: after).map (·.chunkText.1)) comment)) functions
      (piecesOf before) m (piecesOf after ++ commentPieces comment) ↔ m.Known := by
  rw [oneDereference_iff i mnemonic blanks hb]
  cases m with
  | bracketed size seg inner =>
      have hpointer := handleExpression_pointer functions size.toWord seg inner
      obtain ⟨sym, hsym⟩ := Option.isSome_iff_exists.mp
        (handleExpression_isSome functions (pointerText size.toWord seg inner))
      have hone : symbolsOf functions (MemoryOperand.bracketed size seg inner).pieces = [sym] := by
        rw [MemoryOperand.pieces, symbolsOf, List.filterMap_cons_some hsym]
        rfl
      rw [MemoryOperand.Known, ← hpointer, hone, hsym]
      constructor
      · rintro ⟨arg, harg, h⟩
        obtain rfl := List.singleton_inj.mp h
        exact ⟨sym, rfl, harg⟩
      · rintro ⟨arg, h, harg⟩
        obtain rfl := Option.some.inj h
        exact ⟨sym, harg, rfl⟩
  | empty size seg => exact iff_of_false (symbolsOf_ne_singleton (Nat.le_add_left 2 _)) not_false
  | absolute size seg value =>
      exact iff_of_false (symbolsOf_ne_singleton (Nat.le_add_left 2 _)) not_false

/-- `mov    eax,DWORD PTR [rax]`. -/
theorem dereference_dword : OneDereference
    (textless.withText "mov    eax,DWORD PTR [rax]".toList) .nil ["eax".toList]
    (.bracketed ⟨⟨"DWORD".toList, by decide, by decide⟩, by decide⟩ none
      ⟨"rax".toList, by decide, by decide⟩) [] :=
  (dereference_iff textless ⟨⟨"mov".toList, by decide, by decide⟩, by decide⟩ 4 (by decide)
    [.plain (.register ⟨⟨"eax".toList, by decide, by decide⟩, by decide⟩)]
    (.bracketed ⟨⟨"DWORD".toList, by decide, by decide⟩, by decide⟩ none
      ⟨"rax".toList, by decide, by decide⟩) [] none .nil).mpr ⟨by decide, by decide⟩

/-- `YMMWORD` is no size of `dereference`, and the text is split at the `+`. -/
theorem dereference_ymm : ¬OneDereference
    (textless.withText "vmovdqa ymm0,YMMWORD PTR [rax+0x20]".toList) .nil ["ymm0".toList]
    (.bracketed ⟨⟨"YMMWORD".toList, by decide, by decide⟩, by decide⟩ none
      ⟨"rax+0x20".toList, by decide, by decide⟩) [] := by
  have hargs : (textless.withText "vmovdqa ymm0,YMMWORD PTR [rax+0x20]".toList).getArgs .nil =
      ⟨(), [.symbol "ymm0".toList nonAddress, .temporary
        (.symbol "YMMWORD PTR [rax".toList nonAddress) "+".toList
        (.symbol "0x20]".toList nonAddress)], none⟩ := by decide +kernel
  have hbefore : symbolsOf .nil ["ymm0".toList] = [.symbol "ymm0".toList nonAddress] := by
    decide +kernel
  rintro ⟨arg, ⟨type, sub, rfl, -⟩, h⟩
  rw [hargs, hbefore] at h
  cases h

end Befa
