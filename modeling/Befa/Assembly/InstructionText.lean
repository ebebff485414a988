import Befa.Assembly.AddressExpr
import Befa.Lib.RegexFirst

/-!
# The text of an instruction

The disassembler prints a mnemonic, blanks, the operands with commas between them, and sometimes a
comment with an address.  `instructionText` is such a text.  An `Operand` is a register, a `0x`
number, a memory operand `W PTR [e]` with or without a segment, or a bare `[e]`.

`parse_regex` has seven alternatives.  For each of them there is a lemma that says where it has no
way.  `Chunk` says that a text is cut into certain pieces wherever it stands among the operands,
and every operand is a chunk of one piece (`Operand.chunk`).  `split_instructionText` cuts a whole
text into its chunks.
-/

namespace Befa

open Regex (run First Captures)

/-! ## Texts -/

/-- A run of word characters. -/
structure Word where
  text : Text
  nonempty : text ≠ []
  chars : ∀ c ∈ text, isWordChar c = true

/-- A word that starts with no digit. -/
structure Name extends Word where
  start : ∀ c ∈ text.head?, c.isDigit = false

/-- What stands between brackets that are not empty. -/
structure Inner where
  text : Text
  nonempty : text ≠ []
  chars : ∀ c ∈ text, c ≠ ']'

/-- `seg:`, if there is a segment. -/
def segmentText : Option Word → Text
  | none => []
  | some seg => seg.text ++ ":".toList

/-- `W PTR seg:[e]`. -/
def pointerText (size : Word) (seg : Option Word) (inner : Inner) : Text :=
  size.text ++ (" PTR ".toList ++ (segmentText seg ++ ("[".toList ++ (inner.text ++ "]".toList))))

/-- An operand that is one piece. -/
inductive Operand where
  | register (name : Name)
  | immediate (value : HexNumber)
  | memory (size : Word) (seg : Option Word) (inner : Inner)
  | bracket (inner : Inner)

namespace Operand

def text : Operand → Text
  | register name => name.text
  | immediate value => value.text
  | memory size seg inner => pointerText size seg inner
  | bracket inner => "[".toList ++ (inner.text ++ "]".toList)

/-- The piece an operand becomes. -/
def piece : Operand → Text
  | register name => name.text
  | immediate value => value.digits
  | memory size seg inner => pointerText size seg inner
  | bracket inner => inner.text

end Operand

/-- A comment with an address, behind blanks. -/
structure Comment where
  blanks : Nat
  value : HexNumber

def blanksText (n : Nat) : Text := List.replicate n ' '

def commentText : Option Comment → Text
  | none => []
  | some c => blanksText c.blanks ++ ("# ".toList ++ c.value.text)

/-- Operands with commas between them. -/
def operandsText : List Text → Text
  | [] => []
  | t :: ts => t ++ ts.flatMap (',' :: ·)

/-- `mnemonic op1,...,opn # 0x...`. -/
def instructionText (mnemonic : Name) (blanks : Nat) (operands : List Text)
    (comment : Option Comment) : Text :=
  mnemonic.text ++ (blanksText blanks ++ (operandsText operands ++ commentText comment))

/-! ## The alternatives of the pattern -/

/-- `\w*\.\w+`. -/
def dotted : Regex Char :=
  .group 1 (.seq (.many true isWordChar) (.seq (.str ".".toList) (.plus true isWordChar)))

/-- `# 0x0*[0-9a-fA-F]+`. -/
def commentNumber : Regex Char :=
  .seq (.str "# 0x".toList) (.seq (.many true (fun c => c = '0')) (.plus true isHexDigit))

/-- ` PTR (?:\w+:)?\[[^\]]+\]`. -/
def pointerTail : Regex Char := .seq (.str " PTR ".toList) (.seq segment (bracketed id))

/-- `\w+ PTR (?:\w+:)?\[[^\]]+\]`. -/
def pointer : Regex Char := .group 1 (.seq (.plus true isWordChar) pointerTail)

/-- `0x0*?([0-9a-fA-F]+)`. -/
def immediateNumber : Regex Char :=
  .seq (.str "0x".toList)
    (.seq (.many false (fun c => c = '0')) (.group 1 (.plus true isHexDigit)))

/-- `\w+\w+\w+`. -/
def threeWords : Regex Char :=
  .group 1 (.seq (.plus true isWordChar) (.seq (.plus true isWordChar) (.plus true isWordChar)))

theorem parseRegex_eq : parseRegex = .alts [dotted, commentNumber, pointer, bracketed (.group 1),
    immediateNumber, threeWords, .group 1 (.plus true isWordChar)] := rfl

section Alternatives

variable {w s : Text} {c : Captures Char}

theorem dotted_nil (hw : ∀ c ∈ w, isWordChar c = true) (hs : Stops isWordChar s)
    (hd : ∀ c ∈ s.head?, c ≠ '.') : run dotted (w ++ s) c = [] := by
  refine Regex.run_group_eq_nil (Regex.run_eq_nil_iff.mpr ?_)
  rintro u v hu ⟨a, b, rfl, ha, d, e, rfl, hdot, -⟩
  rw [Regex.lang_str.mp hdot, List.append_assoc] at hu
  have hstop : Stops isWordChar (".".toList ++ e ++ v) := stops_cons.mpr (by decide)
  obtain ⟨-, rfl⟩ := append_stops_inj hw ha hs hstop hu
  exact hd '.' rfl rfl

theorem commentNumber_nil (h : ∀ c ∈ s.head?, c ≠ '#') : run commentNumber s c = [] := by
  refine Regex.run_eq_nil_iff.mpr ?_
  rintro u v rfl ⟨a, b, rfl, ha, -⟩
  rw [Regex.lang_str.mp ha] at h
  exact h '#' rfl rfl

theorem pointer_nil (hw : ∀ c ∈ w, isWordChar c = true) (hs : Stops isWordChar s)
    (hp : ∀ u v, s = u ++ v → ¬pointerTail.Lang u) : run pointer (w ++ s) c = [] := by
  refine Regex.run_group_eq_nil (Regex.run_eq_nil_iff.mpr ?_)
  rintro u v hu ⟨a, b, rfl, ha, hb⟩
  have hstop : Stops isWordChar (b ++ v) := by
    obtain ⟨d, e, rfl, hd, -⟩ := hb
    rw [Regex.lang_str.mp hd]
    exact stops_cons.mpr (by decide)
  rw [List.append_assoc] at hu
  obtain ⟨-, rfl⟩ := append_stops_inj hw (Regex.lang_plus.mp ha).2 hs hstop hu
  exact hp b v rfl hb

theorem bracketed_nil {inner : Regex Char → Regex Char} (h : ∀ c ∈ s.head?, c ≠ '[') :
    run (bracketed inner) s c = [] := by
  refine Regex.run_eq_nil_iff.mpr ?_
  rintro u v rfl ⟨a, b, rfl, ha, -⟩
  rw [Regex.lang_str.mp ha] at h
  exact h '[' rfl rfl

theorem immediateNumber_nil (h : ∀ c ∈ s.head?, c ≠ '0') : run immediateNumber s c = [] := by
  refine Regex.run_eq_nil_iff.mpr ?_
  rintro u v rfl ⟨a, b, rfl, ha, -⟩
  rw [Regex.lang_str.mp ha] at h
  exact h '0' rfl rfl

theorem twoWords_nil {y : Text} (hs : Stops isWordChar s) (hlen : y.length < 2) :
    run (.seq (.plus true isWordChar) (.plus true isWordChar)) (y ++ s) c = [] := by
  refine Regex.run_eq_nil_iff.mpr ?_
  rintro u v hu ⟨a, b, rfl, ha, hb⟩
  obtain ⟨hane, hac⟩ := Regex.lang_plus.mp ha
  obtain ⟨hbne, hbc⟩ := Regex.lang_plus.mp hb
  have hall : ∀ x ∈ a ++ b, isWordChar x = true := by simpa [or_imp, forall_and] using ⟨hac, hbc⟩
  have hle := length_le_of_stops hall hs hu
  have ha' := List.length_pos_iff.mpr hane
  have hb' := List.length_pos_iff.mpr hbne
  rw [List.length_append] at hle
  omega

theorem threeWords_nil {y : Text} (hs : Stops isWordChar s) (hlen : y.length < 3) :
    run threeWords (y ++ s) c = [] := by
  refine Regex.run_group_eq_nil (Regex.run_eq_nil_iff.mpr ?_)
  rintro u v hu ⟨a, b, rfl, ha, d, e, rfl, hd, he⟩
  obtain ⟨hane, hac⟩ := Regex.lang_plus.mp ha
  obtain ⟨hdne, hdc⟩ := Regex.lang_plus.mp hd
  obtain ⟨hene, hec⟩ := Regex.lang_plus.mp he
  have hle := length_le_of_stops (u := a ++ (d ++ e))
    (by simpa [or_imp, forall_and] using ⟨hac, hdc, hec⟩) hs hu
  have ha' := List.length_pos_iff.mpr hane
  have hd' := List.length_pos_iff.mpr hdne
  have he' := List.length_pos_iff.mpr hene
  rw [List.length_append, List.length_append] at hle
  omega

/-- A word of at least three characters is three words. -/
theorem first_threeWords (hw : ∀ c ∈ w, isWordChar c = true) (hlen : 3 ≤ w.length)
    (hs : Stops isWordChar s) : First threeWords (w ++ s) c ⟨w, s, c.set 1 w⟩ := by
  obtain ⟨a, b, hab⟩ : ∃ a b, w.drop (w.length - 2) = [a] ++ [b] :=
    List.length_eq_two.mp (by rw [List.length_drop]; omega)
  have hsplit : w.take (w.length - 2) ++ ([a] ++ [b]) = w := by
    rw [← hab, List.take_append_drop]
  have hne : w.take (w.length - 2) ≠ [] :=
    List.ne_nil_of_length_pos (by rw [List.length_take]; omega)
  have hx : ∀ c ∈ w.take (w.length - 2), isWordChar c = true :=
    fun c hc => hw c (List.mem_of_mem_take hc)
  have ha : isWordChar a = true := hw a (by rw [← hsplit]; simp)
  have hb : isWordChar b = true := hw b (by rw [← hsplit]; simp)
  have hone : First (.plus true isWordChar) ([b] ++ s) c ⟨[b], s, c⟩ :=
    Regex.first_plus (by simp) (by simpa using hb) hs
  have htwo : First (.seq (.plus true isWordChar) (.plus true isWordChar)) ([a] ++ [b] ++ s) c
      ⟨[a] ++ [b], s, c⟩ := by
    rw [List.append_assoc]
    refine Regex.first_plus_leave (by simp) (by simpa using ha) (by simpa using hb) hs ?_ hone
    intro y hy
    rw [List.length_eq_zero_iff.mp (Nat.lt_one_iff.mp hy)]
    exact Regex.run_plus_eq_nil hs
  have hthree := Regex.first_group (n := 1) (Regex.first_plus_leave (z := [a] ++ [b]) hne hx
    (by simpa using ⟨ha, hb⟩) hs (fun y hy => twoWords_nil hs hy) htwo)
  rwa [← List.append_assoc, hsplit] at hthree

end Alternatives

/-! ## The first piece of a text -/

theorem split_eq (s : Text) : split s =
    match parseRegex.search s with
    | none => []
    | some m => m.caps 1 :: split m.rest := by
  rw [split]
  split
  next h => rw [h]
  next h => rw [h]

/-- A piece lies in the text. -/
theorem mem_of_mem_split {s p : Text} (hp : p ∈ split s) {c : Char} (hc : c ∈ p) : c ∈ s := by
  induction s using split.induct with
  | case1 s h =>
      rw [split_eq, h] at hp
      cases hp
  | case2 s m h ih =>
      rw [split_eq, h] at hp
      rcases List.mem_cons.mp hp with rfl | hp
      · exact Regex.mem_of_search h hc
      · obtain ⟨before, hs, -⟩ := Regex.search_sound h
        rw [hs]
        exact List.mem_append_right _ (List.mem_append_right _ (ih hp))

theorem split_of_first {s : Text} {m : Regex.Match Char} (h : First parseRegex s Captures.none m) :
    split s = m.caps 1 :: split m.rest := by
  rw [split_eq, Regex.search_of_first h]

/-- The characters that start no piece. -/
def isSeparator (c : Char) : Bool := !isWordChar c && c ≠ '.' && c ≠ '#' && c ≠ '['

/-- Where no word, member or comment starts, only brackets do. -/
theorem run_parseRegex_eq_nil {s : Text} (hs : Stops isWordChar s) (hd : ∀ c ∈ s.head?, c ≠ '.')
    (hh : ∀ c ∈ s.head?, c ≠ '#') (hb : run (bracketed (.group 1)) s Captures.none = []) :
    run parseRegex s Captures.none = [] := by
  have hzero : ∀ c ∈ s.head?, c ≠ '0' := by
    rintro c hc rfl
    exact absurd (hs '0' hc) (by decide)
  have hnil : ∀ {t : Regex Char},
      run (.seq (.plus true isWordChar) t) s Captures.none = [] := by
    intro t
    refine Regex.run_seq_eq_nil fun m hm => ?_
    rw [Regex.run_plus_eq_nil hs] at hm
    cases hm
  rw [parseRegex_eq]
  refine Regex.run_alts_eq_nil fun q hq => ?_
  simp only [List.mem_cons, List.not_mem_nil, or_false] at hq
  rcases hq with rfl | rfl | rfl | rfl | rfl | rfl | rfl
  · exact dotted_nil (w := []) (by simp) hs hd
  · exact commentNumber_nil hh
  · exact Regex.run_group_eq_nil hnil
  · exact hb
  · exact immediateNumber_nil hzero
  · exact Regex.run_group_eq_nil hnil
  · exact Regex.run_group_eq_nil (Regex.run_plus_eq_nil hs)

theorem run_parseRegex_separator {c : Char} (hc : isSeparator c = true) (s : Text) :
    run parseRegex (c :: s) Captures.none = [] := by
  simp only [isSeparator, Bool.and_eq_true, Bool.not_eq_true', decide_eq_true_eq] at hc
  obtain ⟨⟨⟨hword, hdot⟩, hhash⟩, hbracket⟩ := hc
  exact run_parseRegex_eq_nil (stops_cons.mpr hword) (by simpa using hdot) (by simpa using hhash)
    (bracketed_nil (by simpa using hbracket))

/-! ## Pieces -/

/-- A name is a piece, unless a pointer follows. -/
theorem split_name (name : Name) {s : Text} (hs : Stops isWordChar s) (hd : ∀ c ∈ s.head?, c ≠ '.')
    (hp : ∀ u v, s = u ++ v → ¬pointerTail.Lang u) :
    split (name.text ++ s) = name.text :: split s := by
  obtain ⟨c, w, hw⟩ := List.exists_cons_of_ne_nil name.nonempty
  have hc : isWordChar c = true := name.chars c (by rw [hw]; simp)
  have hdigit : c.isDigit = false := name.start c (by rw [hw]; rfl)
  have hhash : c ≠ '#' := by rintro rfl; exact absurd hc (by decide)
  have hbracket : c ≠ '[' := by rintro rfl; exact absurd hc (by decide)
  have hzero : c ≠ '0' := by rintro rfl; exact absurd hdigit (by decide)
  have hbefore : ∀ q ∈ [dotted, commentNumber, pointer, bracketed (.group 1), immediateNumber],
      run q (name.text ++ s) Captures.none = [] := by
    intro q hq
    simp only [List.mem_cons, List.not_mem_nil, or_false] at hq
    rcases hq with rfl | rfl | rfl | rfl | rfl
    · exact dotted_nil name.chars hs hd
    · exact commentNumber_nil (by rw [hw]; simpa using hhash)
    · exact pointer_nil name.chars hs hp
    · exact bracketed_nil (by rw [hw]; simpa using hbracket)
    · exact immediateNumber_nil (by rw [hw]; simpa using hzero)
  rcases Nat.lt_or_ge name.text.length 3 with hlen | hlen
  · have hthree : run threeWords (name.text ++ s) Captures.none = [] := threeWords_nil hs hlen
    have hbefore' := List.forall_mem_append.mpr ⟨hbefore, List.forall_mem_singleton.mpr hthree⟩
    exact split_of_first (Regex.first_alts _ [] hbefore'
      (Regex.first_group (Regex.first_plus name.nonempty name.chars hs)))
  · exact split_of_first (Regex.first_alts _ [.group 1 (.plus true isWordChar)] hbefore
      (first_threeWords name.chars hlen hs))

theorem not_pointerTail {s : Text} (h : ∀ c ∈ s.head?, c ≠ ' ') (u v : Text) (hs : s = u ++ v) :
    ¬pointerTail.Lang u := by
  rintro ⟨a, b, rfl, ha, -⟩
  rw [Regex.lang_str.mp ha] at hs
  exact h ' ' (by rw [hs]; rfl) rfl

/-- A number loses its `0x`. -/
theorem split_immediate (value : HexNumber) {s : Text} (hs : Stops isWordChar s)
    (hd : ∀ c ∈ s.head?, c ≠ '.') (hp : ∀ u v, s = u ++ v → ¬pointerTail.Lang u) :
    split (value.text ++ s) = value.digits :: split s := by
  have hchars : ∀ c ∈ value.text, isWordChar c = true := value.text_isWord
  have hbefore : ∀ q ∈ [dotted, commentNumber, pointer, bracketed (.group 1)],
      run q (value.text ++ s) Captures.none = [] := by
    intro q hq
    simp only [List.mem_cons, List.not_mem_nil, or_false] at hq
    rcases hq with rfl | rfl | rfl | rfl
    · exact dotted_nil hchars hs hd
    · exact commentNumber_nil (by simp [HexNumber.text])
    · exact pointer_nil hchars hs hp
    · exact bracketed_nil (by simp [HexNumber.text])
  have hstop : Stops isHexDigit s := fun c hc =>
    Bool.eq_false_iff.mpr fun h => absurd (isWordChar_of_isHexDigit h) (by simp [hs c hc])
  have hnumber : First immediateNumber (value.text ++ s) Captures.none
      ⟨value.text, s, Captures.none.set 1 value.digits⟩ :=
    Regex.first_seq (Regex.first_str "0x".toList) (Regex.first_seq Regex.first_lazy
      (Regex.first_group (Regex.first_plus value.nonempty value.hex hstop)))
  exact split_of_first
    (Regex.first_alts _ [threeWords, .group 1 (.plus true isWordChar)] hbefore hnumber)

theorem head_ne {a b : Char} (h : a ≠ b) (s : Text) : ∀ c ∈ (a :: s).head?, c ≠ b := by
  simpa using h

theorem first_inner (inner : Inner) (s : Text) (c : Captures Char) :
    First (.plus true fun c => c ≠ ']') (inner.text ++ ("]".toList ++ s)) c
      ⟨inner.text, "]".toList ++ s, c⟩ :=
  Regex.first_plus inner.nonempty (fun c hc => decide_eq_true (inner.chars c hc))
    (stops_cons.mpr (by decide : decide (']' ≠ ']') = false))

theorem first_bracketed (inner : Inner) (s : Text) (c : Captures Char) :
    First (bracketed id) ("[".toList ++ (inner.text ++ "]".toList) ++ s) c
      ⟨"[".toList ++ (inner.text ++ "]".toList), s, c⟩ := by
  rw [List.append_assoc, List.append_assoc]
  exact Regex.first_seq (Regex.first_str _) (Regex.first_seq (first_inner inner s c)
    (Regex.first_str _))

theorem first_segment (seg : Option Word) {s : Text} (hs : s.head? = some '[') (c : Captures Char) :
    First segment (segmentText seg ++ s) c ⟨segmentText seg, s, c⟩ := by
  have hword : Stops isWordChar s := fun c hc => by
    obtain rfl : '[' = c := Option.some.inj (hs.symm.trans hc)
    decide
  cases seg with
  | none =>
      refine Regex.first_opt_none (Regex.run_seq_eq_nil fun m hm => ?_)
      rw [show segmentText none ++ s = s from rfl, Regex.run_plus_eq_nil hword] at hm
      cases hm
  | some seg =>
      have hcolon : Stops isWordChar (":".toList ++ s) := stops_cons.mpr (by decide)
      rw [segmentText, List.append_assoc]
      exact Regex.first_opt (Regex.first_seq
        (Regex.first_plus seg.nonempty seg.chars hcolon) (Regex.first_str _))

/-- A pointer is one piece. -/
theorem split_pointer (size : Word) (seg : Option Word) (inner : Inner) (s : Text) :
    split (pointerText size seg inner ++ s) = pointerText size seg inner :: split s := by
  have hblank : Stops isWordChar (" PTR ".toList ++
      (segmentText seg ++ ("[".toList ++ (inner.text ++ "]".toList) ++ s))) :=
    stops_cons.mpr (by decide)
  obtain ⟨c, w, hw⟩ := List.exists_cons_of_ne_nil size.nonempty
  have hc : isWordChar c = true := size.chars c (by rw [hw]; simp)
  have hhash : c ≠ '#' := by rintro rfl; exact absurd hc (by decide)
  have htext : pointerText size seg inner ++ s = size.text ++ (" PTR ".toList ++
      (segmentText seg ++ ("[".toList ++ (inner.text ++ "]".toList) ++ s))) := by
    simp only [pointerText, List.append_assoc]
  have hbefore : ∀ q ∈ [dotted, commentNumber],
      run q (pointerText size seg inner ++ s) Captures.none = [] := by
    intro q hq
    simp only [List.mem_cons, List.not_mem_nil, or_false] at hq
    rcases hq with rfl | rfl
    · rw [htext]; exact dotted_nil size.chars hblank (head_ne (by decide) _)
    · rw [htext]; exact commentNumber_nil (by rw [hw]; simpa using hhash)
  have hpointer : First pointer (pointerText size seg inner ++ s) Captures.none
      ⟨pointerText size seg inner, s, Captures.none.set 1 (pointerText size seg inner)⟩ := by
    rw [htext]
    exact Regex.first_group (Regex.first_seq (Regex.first_plus size.nonempty size.chars hblank)
      (Regex.first_seq (Regex.first_str _) (Regex.first_seq (first_segment seg rfl _)
        (first_bracketed inner s _))))
  exact split_of_first (Regex.first_alts _
    [bracketed (.group 1), immediateNumber, threeWords, .group 1 (.plus true isWordChar)]
    hbefore hpointer)

/-- Bare brackets are dropped. -/
theorem split_bracket (inner : Inner) (s : Text) :
    split ("[".toList ++ (inner.text ++ "]".toList) ++ s) = inner.text :: split s := by
  have htext : "[".toList ++ (inner.text ++ "]".toList) ++ s =
      "[".toList ++ (inner.text ++ ("]".toList ++ s)) := by
    simp only [List.append_assoc]
  have hstop : Stops isWordChar ("[".toList ++ (inner.text ++ ("]".toList ++ s))) :=
    stops_cons.mpr (by decide)
  have hbefore : ∀ q ∈ [dotted, commentNumber, pointer],
      run q ("[".toList ++ (inner.text ++ ("]".toList ++ s))) Captures.none = [] := by
    intro q hq
    simp only [List.mem_cons, List.not_mem_nil, or_false] at hq
    rcases hq with rfl | rfl | rfl
    · exact dotted_nil (w := []) (by simp) hstop (head_ne (by decide) _)
    · exact commentNumber_nil (head_ne (by decide) _)
    · exact pointer_nil (w := []) (by simp) hstop (not_pointerTail (head_ne (by decide) _))
  have hinner : First (bracketed (.group 1)) ("[".toList ++ (inner.text ++ ("]".toList ++ s)))
      Captures.none ⟨"[".toList ++ (inner.text ++ "]".toList), s, Captures.none.set 1 inner.text⟩ :=
    Regex.first_seq (Regex.first_str _) (Regex.first_seq
      (Regex.first_group (first_inner inner s _)) (Regex.first_str _))
  rw [htext]
  exact split_of_first (Regex.first_alts _
    [immediateNumber, threeWords, .group 1 (.plus true isWordChar)] hbefore hinner)

/-- A comment is an empty piece. -/
theorem split_comment (value : HexNumber) {s : Text} (hs : Stops isHexDigit s) :
    split ("# ".toList ++ value.text ++ s) = [] :: split s := by
  have htext : "# ".toList ++ value.text ++ s = "# 0x".toList ++ (value.digits ++ s) := rfl
  have hstop : Stops isWordChar ("# 0x".toList ++ (value.digits ++ s)) :=
    stops_cons.mpr (by decide)
  have hbefore : ∀ q ∈ [dotted],
      run q ("# 0x".toList ++ (value.digits ++ s)) Captures.none = [] := by
    intro q hq
    rw [List.mem_singleton.mp hq]
    exact dotted_nil (w := []) (by simp) hstop (head_ne (by decide) _)
  have hzeros : Stops (fun c => decide (c = '0')) s := by
    intro c hc
    refine decide_eq_false ?_
    rintro rfl
    exact absurd (hs '0' hc) (by decide)
  obtain ⟨x, d, hxd, hne, -, hfirst⟩ := Regex.exists_first_many (c := Captures.none)
    value.nonempty hzeros (Regex.run_plus_eq_nil (g := true) hs)
  have hd : ∀ c ∈ d, isHexDigit c = true := fun c hc => value.hex c (by rw [hxd]; simp [hc])
  have hnumber := Regex.first_seq (Regex.first_str "# 0x".toList)
    (hfirst _ (Regex.first_plus hne hd hs))
  rw [htext]
  exact split_of_first (Regex.first_alts _ [pointer, bracketed (.group 1), immediateNumber,
    threeWords, .group 1 (.plus true isWordChar)] hbefore hnumber)

theorem split_separator {c : Char} (hc : isSeparator c = true) (s : Text) :
    split (c :: s) = split s := by
  rw [split_eq, Regex.search_of_nil (run_parseRegex_separator hc s), ← split_eq]

theorem split_blanks (n : Nat) (s : Text) : split (blanksText n ++ s) = split s := by
  induction n with
  | zero => rfl
  | succ n ih =>
      rw [blanksText, List.replicate_succ, List.cons_append, split_separator (by decide)]
      exact ih

/-! ## Chunks -/

/-- What may follow an operand: the next operand, or blanks and perhaps a comment. -/
def Ends (s : Text) : Prop :=
  (∃ r, s = ',' :: r) ∨ ∃ k r, s = blanksText k ++ r ∧ ∀ c ∈ r.head?, c = '#'

theorem mem_head?_blanksText {k : Nat} {r : Text} {c : Char} (h : c ∈ (blanksText k ++ r).head?) :
    c = ' ' ∨ c ∈ r.head? := by
  cases k with
  | zero => exact Or.inr h
  | succ k => exact Or.inl (Option.some.inj h).symm

theorem ends_blanks (k : Nat) (comment : Option Comment) :
    Ends (blanksText k ++ commentText comment) := by
  cases comment with
  | none => exact Or.inr ⟨k, [], rfl, by simp⟩
  | some c =>
      refine Or.inr ⟨k + c.blanks, "# ".toList ++ c.value.text, ?_, by simp⟩
      rw [commentText, blanksText, blanksText, blanksText, ← List.replicate_append_replicate,
        List.append_assoc]

theorem ends_commentText (comment : Option Comment) : Ends (commentText comment) :=
  ends_blanks 0 comment

theorem Ends.head {s : Text} (h : Ends s) : ∀ c ∈ s.head?, c = ',' ∨ c = ' ' ∨ c = '#' := by
  rintro c hc
  rcases h with ⟨r, rfl⟩ | ⟨k, r, rfl, hr⟩
  · exact Or.inl (Option.some.inj hc).symm
  · exact Or.inr ((mem_head?_blanksText hc).imp_right (hr c))

theorem Ends.stops {s : Text} (h : Ends s) : Stops isWordChar s := by
  intro c hc
  rcases h.head c hc with rfl | rfl | rfl <;> decide

theorem Ends.ne_dot {s : Text} (h : Ends s) : ∀ c ∈ s.head?, c ≠ '.' := by
  intro c hc
  rcases h.head c hc with rfl | rfl | rfl <;> decide

/-- The tail of a pointer has a bracket, perhaps behind a segment, behind its `PTR`. -/
theorem pointerTail_inv {u : Text} (h : pointerTail.Lang u) :
    ∃ seg y, segment.Lang seg ∧ u = ' ' :: ("PTR".toList ++ ' ' :: (seg ++ '[' :: y)) := by
  obtain ⟨a, b, rfl, ha, e, f, rfl, he, g, i, rfl, hg, -⟩ := h
  obtain rfl := Regex.lang_str.mp ha
  obtain rfl := Regex.lang_str.mp hg
  exact ⟨e, i, he, rfl⟩

/-- A segment is empty, or words in front of a colon. -/
theorem segment_inv {seg : Text} (h : segment.Lang seg) :
    seg = [] ∨ ∃ w, (∀ c ∈ w, isWordChar c = true) ∧ seg = w ++ [':'] := by
  rcases h with ⟨w, k, rfl, hw, hk⟩ | rfl
  · exact Or.inr ⟨w, (Regex.lang_plus.mp hw).2, by rw [Regex.lang_str.mp hk]; rfl⟩
  · exact Or.inl rfl

/-- A text that is no tail of a pointer, behind a blank. -/
def NoTail (s : Text) : Prop := ∀ u v, ' ' :: s = u ++ v → ¬pointerTail.Lang u

theorem noTail_of_head {s : Text} (h : ∀ c ∈ s.head?, c ≠ 'P') : NoTail s := by
  intro u v hs hu
  obtain ⟨w, d, y, -, -, rfl⟩ := pointerTail_inv hu
  exact h 'P' (by rw [(List.cons.inj hs).2]; rfl) rfl

/-- A word is no tail when neither a segment nor a bracket comes behind the blank it stops at. -/
theorem noTail_of_word {w s : Text} (hw : ∀ c ∈ w, isWordChar c = true) (hs : Stops isWordChar s)
    (h : ∀ r, s = ' ' :: r → ∃ x t, r = x ++ t ∧ (∀ c ∈ x, isWordChar c = true) ∧
      Stops isWordChar t ∧ ∀ c ∈ t.head?, c ≠ ':' ∧ c ≠ '[') : NoTail (w ++ s) := by
  intro u v hsplit hu
  obtain ⟨seg, y, hseg, rfl⟩ := pointerTail_inv hu
  have htail : w ++ s = "PTR".toList ++ ' ' :: (seg ++ '[' :: y) ++ v := (List.cons.inj hsplit).2
  rw [List.append_assoc, List.cons_append, List.append_assoc] at htail
  have hptr : ∀ c ∈ "PTR".toList, isWordChar c = true :=
    List.all_eq_true.mp (by decide : "PTR".toList.all isWordChar = true)
  obtain ⟨-, rfl⟩ := append_stops_inj hw hptr hs (stops_cons.mpr (by decide)) htail
  obtain ⟨x, t, hx, hxw, ht, hne⟩ := h _ rfl
  rcases segment_inv hseg with rfl | ⟨w', hw', rfl⟩
  · have hstop : Stops isWordChar ('[' :: y ++ v) := stops_cons.mpr (by decide)
    obtain ⟨-, rfl⟩ := append_stops_inj (u := []) (by simp) hxw hstop ht hx
    exact (hne '[' rfl).2 rfl
  · rw [List.append_assoc] at hx
    have hstop : Stops isWordChar ([':'] ++ ('[' :: y ++ v)) := stops_cons.mpr (by decide)
    obtain ⟨-, rfl⟩ := append_stops_inj hw' hxw hstop ht hx
    exact (hne ':' rfl).1 rfl

/-- A text that is cut into certain pieces wherever it stands among the operands. -/
structure Chunk (text : Text) (pieces : List Text) : Prop where
  splits : ∀ s, Ends s → split (text ++ s) = pieces ++ split s
  noTail : ∀ s, Ends s → NoTail (text ++ s)

theorem Ends.blank {s : Text} (h : Ends (' ' :: s)) : ∀ c ∈ s.head?, c = ' ' ∨ c = '#' := by
  intro c hc
  rcases h with ⟨_, h⟩ | ⟨k, r, h, hr⟩
  · cases h
  · cases k with
    | zero => exact absurd (hr ' ' (by rw [← show ' ' :: s = r from h]; rfl)) (by decide)
    | succ k =>
        obtain rfl := (List.cons.inj h).2
        exact (mem_head?_blanksText hc).imp_right (hr c)

theorem Ends.not_pointerTail {s : Text} (h : Ends s) (u v : Text) (hs : s = u ++ v) :
    ¬pointerTail.Lang u := by
  cases s with
  | nil => exact Befa.not_pointerTail (by simp) u v hs
  | cons c s =>
      rcases eq_or_ne c ' ' with rfl | hc
      · refine noTail_of_head (fun d hd => ?_) u v hs
        rcases h.blank d hd with rfl | rfl <;> decide
      · exact Befa.not_pointerTail (head_ne hc s) u v hs

theorem Name.noTail (name : Name) {s : Text} (hs : Ends s) : NoTail (name.text ++ s) := by
  refine noTail_of_word name.chars hs.stops ?_
  rintro r rfl
  refine ⟨[], r, rfl, by simp, fun c hc => ?_, fun c hc => ?_⟩ <;>
    rcases hs.blank c hc with rfl | rfl <;> decide

/-- Two words with a blank between them are no tail. -/
theorem noTail_of_ptr (size : Word) (s : Text) :
    NoTail (size.text ++ (" PTR ".toList ++ s)) := by
  refine noTail_of_word size.chars (stops_cons.mpr (by decide)) ?_
  intro r hr
  obtain rfl := (List.cons.inj hr).2
  exact ⟨"PTR".toList, ' ' :: s, rfl,
    List.all_eq_true.mp (by decide : "PTR".toList.all isWordChar = true),
    stops_cons.mpr (by decide), by simp⟩

theorem Operand.chunk (o : Operand) : Chunk o.text [o.piece] := by
  cases o with
  | register name =>
      refine ⟨fun s hs => ?_, fun s hs => name.noTail hs⟩
      exact split_name name hs.stops hs.ne_dot hs.not_pointerTail
  | immediate value =>
      refine ⟨fun s hs => ?_, fun s hs => ?_⟩
      · exact split_immediate value hs.stops hs.ne_dot hs.not_pointerTail
      · exact noTail_of_head (head_ne (by decide) _)
  | memory size seg inner =>
      refine ⟨fun s hs => split_pointer size seg inner s, fun s hs => ?_⟩
      rw [Operand.text, pointerText, List.append_assoc, List.append_assoc]
      exact noTail_of_ptr size _
  | bracket inner =>
      refine ⟨fun s hs => split_bracket inner s, fun s hs => ?_⟩
      exact noTail_of_head (head_ne (by decide) _)

/-- An operand with its piece. -/
def Operand.chunkText (o : Operand) : Text × List Text := (o.text, [o.piece])

theorem chunk_of_mem {operands : List Operand} {k : Text × List Text}
    (h : k ∈ operands.map Operand.chunkText) : Chunk k.1 k.2 := by
  obtain ⟨o, -, rfl⟩ := List.mem_map.mp h
  exact o.chunk

/-! ## A whole text -/

/-- What stands behind an operand: more operands with commas, then a comment. -/
def afterText (chunks : List (Text × List Text)) (comment : Option Comment) : Text :=
  chunks.flatMap (fun k => ',' :: k.1) ++ commentText comment

theorem ends_afterText (chunks : List (Text × List Text)) (comment : Option Comment) :
    Ends (afterText chunks comment) := by
  cases chunks with
  | nil => exact ends_commentText comment
  | cons k ks => exact Or.inl ⟨_, rfl⟩

/-- A comment is one empty piece. -/
def commentPieces (comment : Option Comment) : List Text := List.replicate comment.toList.length []

theorem split_nil : split [] = [] := by
  rw [split_eq]
  rfl

theorem split_commentText (comment : Option Comment) :
    split (commentText comment) = commentPieces comment := by
  cases comment with
  | none => exact split_nil
  | some c =>
      have h := split_comment c.value (s := []) stops_nil
      rw [List.append_nil, split_nil] at h
      rw [commentText, split_blanks, h]
      rfl

theorem split_afterText {chunks : List (Text × List Text)} (hc : ∀ k ∈ chunks, Chunk k.1 k.2)
    (comment : Option Comment) :
    split (afterText chunks comment) = chunks.flatMap Prod.snd ++ commentPieces comment := by
  induction chunks with
  | nil => exact split_commentText comment
  | cons k ks ih =>
      have htext : afterText (k :: ks) comment = ',' :: (k.1 ++ afterText ks comment) := by
        simp [afterText]
      have hrest := ih fun x hx => hc x (List.mem_cons_of_mem _ hx)
      rw [htext, split_separator (by decide),
        (hc k (List.mem_cons_self ..)).splits _ (ends_afterText ks comment), hrest,
        List.flatMap_cons, List.append_assoc]

theorem operandsText_append (chunks : List (Text × List Text)) (k : Text × List Text)
    (comment : Option Comment) :
    operandsText ((k :: chunks).map Prod.fst) ++ commentText comment =
      k.1 ++ afterText chunks comment := by
  simp [operandsText, afterText, List.flatMap_map]

/-- Behind the mnemonic and its blanks no tail of a pointer comes. -/
theorem not_pointerTail_blanks {n : Nat} {s : Text} (hs : NoTail s) (hn : 0 < n) (u v : Text)
    (h : blanksText n ++ s = u ++ v) : ¬pointerTail.Lang u := by
  obtain ⟨n, rfl⟩ := Nat.exists_eq_succ_of_ne_zero (Nat.ne_of_gt hn)
  cases n with
  | zero => exact hs u v h
  | succ n => exact noTail_of_head (head_ne (by decide) _) u v h

/-- **A text is cut into its mnemonic and the pieces of its chunks.**  A comment is one more,
empty, piece. -/
theorem split_instructionText (mnemonic : Name) (blanks : Nat) {chunks : List (Text × List Text)}
    (hc : ∀ k ∈ chunks, Chunk k.1 k.2) (hb : chunks ≠ [] → 0 < blanks)
    (comment : Option Comment) :
    split (instructionText mnemonic blanks (chunks.map Prod.fst) comment) =
      mnemonic.text :: (chunks.flatMap Prod.snd ++ commentPieces comment) := by
  have hends : Ends (blanksText blanks ++ commentText comment) := ends_blanks blanks comment
  cases chunks with
  | nil =>
      have h := split_name mnemonic hends.stops hends.ne_dot hends.not_pointerTail
      rw [split_blanks, split_commentText] at h
      exact h
  | cons k ks =>
      have hk := hc k (List.mem_cons_self ..)
      have hrest := split_afterText (fun x hx => hc x (List.mem_cons_of_mem _ hx)) comment
      obtain ⟨n, rfl⟩ := Nat.exists_eq_succ_of_ne_zero (Nat.ne_of_gt (hb (List.cons_ne_nil _ _)))
      have hafter := ends_afterText ks comment
      have hname := split_name mnemonic (s := blanksText (n + 1) ++ (k.1 ++ afterText ks comment))
        (stops_cons.mpr (by decide)) (head_ne (by decide) _)
        (not_pointerTail_blanks (hk.noTail _ hafter) (Nat.succ_pos n))
      rw [instructionText, operandsText_append, hname, split_blanks, hk.splits _ hafter, hrest,
        List.flatMap_cons, List.append_assoc]

/-- **Operand splitting.**  Every match takes a character, so the loop ends. -/
theorem split_operands (mnemonic : Name) (blanks : Nat) (operands : List Operand)
    (hb : operands ≠ [] → 0 < blanks) (comment : Option Comment) :
    split (instructionText mnemonic blanks (operands.map Operand.text) comment) =
        mnemonic.text :: (operands.map Operand.piece ++ commentPieces comment) ∧
      ∀ s m, parseRegex.search s = some m → m.rest.length < s.length := by
  refine ⟨?_, fun s m => Regex.search_rest_length parseRegex_ne_nil⟩
  have hsplit := split_instructionText mnemonic blanks (fun _ => chunk_of_mem)
    (fun h => hb (by simpa using h)) comment
  rw [List.map_map, List.flatMap_map] at hsplit
  rw [List.map_eq_flatMap (f := Operand.piece)]
  exact hsplit

/-- `mov    eax,DWORD PTR [rax]  # 0xff`. -/
theorem split_operands_mov : split "mov    eax,DWORD PTR [rax]  # 0xff".toList =
    ["mov", "eax", "DWORD PTR [rax]", ""].map String.toList :=
  (split_operands ⟨⟨"mov".toList, by decide, by decide⟩, by decide⟩ 4
    [.register ⟨⟨"eax".toList, by decide, by decide⟩, by decide⟩,
      .memory ⟨"DWORD".toList, by decide, by decide⟩ none ⟨"rax".toList, by decide, by decide⟩]
    (fun _ => by decide) (some ⟨2, "ff".toList, by decide, by decide⟩)).1

end Befa
