import Befa.Assembly.InstructionText
import Befa.Lib.RegexNext

/-!
# Pieces without backtracking

`split` searches for a pattern of seven alternatives, and the engine goes back when one of them
fails.  `scan` finds the same pieces from the left to the right.  At each position it takes whole
runs of characters, and what follows a run decides what the token is.

There is one lemma per alternative (`reported_dotted` and so on).  `split_eq_scan` says that they
agree on every text, those that no disassembler prints included.
-/

namespace Befa

open Regex (run Captures next Avoids)

/-! ## The scanner -/

/-- A piece, and what follows the text it was found in. -/
structure Token where
  piece : Text
  rest : Text
deriving DecidableEq

/-- `w.w`.  The first word may be missing. -/
def dottedToken (s : Text) : Option Token :=
  ((s.dropWhile isWordChar).dropPrefix? ".".toList).bind fun t =>
    (takeRun isWordChar t).map fun w => ⟨s.takeWhile isWordChar ++ ('.' :: w.1), w.2⟩

/-- `# 0x...`.  The piece is empty. -/
def commentToken (s : Text) : Option Token :=
  (s.dropPrefix? "# 0x".toList).bind fun t => (takeRun isHexDigit t).map fun d => ⟨[], d.2⟩

/-- What stands between brackets, and what follows them. -/
def inBrackets (s : Text) : Option (Text × Text) :=
  (s.dropPrefix? "[".toList).bind fun t =>
    (takeRun (fun c => c ≠ ']') t).bind fun e =>
      (e.2.dropPrefix? "]".toList).map fun rest => (e.1, rest)

/-- `[e]` or `seg:[e]`, and what follows it. -/
def pointedTo (s : Text) : Option (Text × Text) :=
  ((takeRun isWordChar s).bind fun seg =>
    (seg.2.dropPrefix? ":".toList).bind fun t =>
      (inBrackets t).map fun e => (seg.1 ++ (':' :: '[' :: (e.1 ++ [']'])), e.2)).or
    ((inBrackets s).map fun e => ('[' :: (e.1 ++ [']']), e.2))

/-- `W PTR [e]` or `W PTR seg:[e]`. -/
def pointerToken (s : Text) : Option Token :=
  (takeRun isWordChar s).bind fun size =>
    (size.2.dropPrefix? " PTR ".toList).bind fun t =>
      (pointedTo t).map fun e => ⟨size.1 ++ (" PTR ".toList ++ e.1), e.2⟩

/-- `[e]`.  The piece is `e`. -/
def bracketToken (s : Text) : Option Token := (inBrackets s).map fun e => ⟨e.1, e.2⟩

/-- `0x...`.  The piece is its digits. -/
def numberToken (s : Text) : Option Token :=
  (s.dropPrefix? "0x".toList).bind fun t => (takeRun isHexDigit t).map fun d => ⟨d.1, d.2⟩

/-- A word. -/
def wordToken (s : Text) : Option Token := (takeRun isWordChar s).map fun w => ⟨w.1, w.2⟩

/-- The token at the start of a text. -/
def token (s : Text) : Option Token :=
  (dottedToken s).or ((commentToken s).or ((pointerToken s).or ((bracketToken s).or
    ((numberToken s).or (wordToken s)))))

/-! ## What the engine reports -/

/-- What the engine reports at the start of a text. -/
def reported (r : Regex Char) (s : Text) : Option Token :=
  (next r s Captures.none).map fun m => ⟨m.caps 1, m.rest⟩

theorem reported_alt (r t : Regex Char) (s : Text) :
    reported (.alt r t) s = (reported r s).or (reported t s) := by
  rw [reported, Regex.next_alt, Option.map_or]
  rfl

theorem reported_of_nil {r : Regex Char} {s : Text} (h : run r s Captures.none = []) :
    reported r s = none := by
  rw [reported, Regex.next_eq_none.mpr h]
  rfl

theorem reported_dotted (s : Text) : reported dotted s = dottedToken s := by
  have havoids : Avoids (.seq (.str ".".toList) (.plus true isWordChar)) isWordChar :=
    Avoids.str_seq (by decide : isWordChar '.' = false) []
  rw [reported, dotted, Regex.next_group, Regex.next_many_seq havoids, Regex.next_str_seq,
    dottedToken]
  cases (s.dropWhile isWordChar).dropPrefix? ".".toList with
  | none => rfl
  | some t =>
      rw [Option.bind_some, Option.bind_some, Regex.next_plus]
      cases takeRun isWordChar t with
      | none => rfl
      | some w => rfl

theorem zero_isHexDigit (c : Char) (h : decide (c = '0') = true) : isHexDigit c = true := by
  rw [of_decide_eq_true h]
  decide

theorem reported_comment (s : Text) : reported commentNumber s = commentToken s := by
  rw [reported, commentNumber, Regex.next_str_seq, commentToken]
  cases s.dropPrefix? "# 0x".toList with
  | none => rfl
  | some t =>
      rw [Option.bind_some, Option.bind_some, Regex.next_many_plus zero_isHexDigit, Regex.next_plus]
      cases takeRun isHexDigit t with
      | none => rfl
      | some d => rfl

theorem reported_number (s : Text) : reported immediateNumber s = numberToken s := by
  rw [reported, immediateNumber, Regex.next_str_seq, numberToken]
  cases s.dropPrefix? "0x".toList with
  | none => rfl
  | some t =>
      rw [Option.bind_some, Option.bind_some, Regex.next_lazy_plus zero_isHexDigit,
        Regex.next_group, Regex.next_plus]
      cases takeRun isHexDigit t with
      | none => rfl
      | some d => rfl

/-- What a repetition inside of brackets is followed by is outside of its class. -/
theorem avoids_closing : Avoids (.str "]".toList) fun c => c ≠ ']' := by
  intro a s c ha
  have hne : a ≠ ']' := by simpa using ha
  rw [← Regex.next_eq_none, Regex.next_str]
  simp [List.dropPrefix?, hne]

/-- Brackets whose inside is recorded or not. -/
theorem next_bracketed {inner : Regex Char → Regex Char}
    {record : Captures Char → Text → Captures Char}
    (h : ∀ t c, next (.seq (inner (.plus true fun c => c ≠ ']')) (.str "]".toList)) t c =
      (takeRun (fun c => c ≠ ']') t).bind fun e => (next (.str "]".toList) e.2 (record c e.1)).map
        (Regex.Match.append ⟨e.1, e.2, record c e.1⟩))
    (s : Text) (c : Captures Char) : next (bracketed inner) s c =
      (inBrackets s).map fun e => ⟨'[' :: (e.1 ++ [']']), e.2, record c e.1⟩ := by
  rw [bracketed, Regex.next_str_seq, inBrackets]
  cases s.dropPrefix? "[".toList with
  | none => rfl
  | some t =>
      rw [Option.bind_some, Option.bind_some, h]
      cases takeRun (fun c => decide (c ≠ ']')) t with
      | none => rfl
      | some e =>
          rw [Option.bind_some, Option.bind_some, Regex.next_str]
          cases e.2.dropPrefix? "]".toList with
          | none => rfl
          | some u => rfl

theorem next_bracketed_id (s : Text) (c : Captures Char) : next (bracketed id) s c =
    (inBrackets s).map fun e => ⟨'[' :: (e.1 ++ [']']), e.2, c⟩ :=
  @next_bracketed id (fun c _ => c) (fun _ _ => Regex.next_plus_seq avoids_closing) s c

theorem reported_bracketed (s : Text) : reported (bracketed (.group 1)) s = bracketToken s := by
  rw [reported, next_bracketed fun _ _ => Regex.next_group_plus_seq avoids_closing, bracketToken,
    Option.map_map]
  rfl

/-- The segment is taken if there is one. -/
theorem next_pointed (s : Text) (c : Captures Char) :
    next (.seq segment (bracketed id)) s c = (pointedTo s).map fun e => ⟨e.1, e.2, c⟩ := by
  have havoids : Avoids (.seq (.str ":".toList) (bracketed id)) isWordChar :=
    Avoids.str_seq (by decide : isWordChar ':' = false) []
  rw [segment, Regex.next_opt_seq, Regex.next_seq_assoc, Regex.next_plus_seq havoids,
    next_bracketed_id, pointedTo, Option.map_or, Option.map_map]
  congr 1
  cases takeRun isWordChar s with
  | none => rfl
  | some seg =>
      rw [Option.bind_some, Option.bind_some, Regex.next_str_seq]
      cases seg.2.dropPrefix? ":".toList with
      | none => rfl
      | some t =>
          rw [Option.bind_some, Option.bind_some, next_bracketed_id]
          cases inBrackets t with
          | none => rfl
          | some e => rfl

theorem reported_pointer (s : Text) : reported pointer s = pointerToken s := by
  have havoids : Avoids pointerTail isWordChar :=
    Avoids.str_seq (by decide : isWordChar ' ' = false) _
  rw [reported, pointer, Regex.next_group, Regex.next_plus_seq havoids, pointerToken]
  cases takeRun isWordChar s with
  | none => rfl
  | some size =>
      rw [Option.bind_some, Option.bind_some, pointerTail, Regex.next_str_seq]
      cases size.2.dropPrefix? " PTR ".toList with
      | none => rfl
      | some t =>
          rw [Option.bind_some, Option.bind_some, next_pointed]
          cases pointedTo t with
          | none => rfl
          | some e => rfl

theorem reported_words (s : Text) :
    (reported threeWords s).or (reported (.group 1 (.plus true isWordChar)) s) = wordToken s := by
  have hword : reported (.group 1 (.plus true isWordChar)) s = wordToken s := by
    rw [reported, Regex.next_group, Regex.next_plus, wordToken]
    cases takeRun isWordChar s with
    | none => rfl
    | some w => rfl
  rw [hword, wordToken]
  cases h : takeRun isWordChar s with
  | none =>
      have hnil : run threeWords ([] ++ s) Captures.none = [] :=
        threeWords_nil (takeRun_eq_none.mp h) (by decide)
      rw [List.nil_append] at hnil
      rw [reported_of_nil hnil]
      rfl
  | some w =>
      obtain ⟨rfl, -, hw, hs⟩ := takeRun_eq_some.mp h
      -- three words in sequence are a word of at least three characters
      rcases Nat.lt_or_ge w.1.length 3 with hlen | hlen
      · rw [reported_of_nil (threeWords_nil hs hlen)]
        rfl
      · have hthree : next threeWords (w.1 ++ w.2) Captures.none =
            some ⟨w.1, w.2, Captures.none.set 1 w.1⟩ := first_threeWords hw hlen hs
        rw [reported, hthree]
        rfl

theorem reported_parseRegex (s : Text) : reported parseRegex s = token s := by
  have hnone : reported (.alts []) s = none := reported_of_nil (by cases s <;> rfl)
  rw [parseRegex_eq]
  simp only [Regex.alts] at hnone ⊢
  simp only [reported_alt, reported_dotted, reported_comment, reported_pointer,
    reported_bracketed, reported_number, hnone, Option.or_none]
  rw [reported_words, token]

/-! ## The pieces -/

/-- A token takes something, and leaves the rest. -/
theorem token_suffix {s : Text} {t : Token} (h : token s = some t) :
    ∃ u, u ≠ [] ∧ s = u ++ t.rest := by
  rw [← reported_parseRegex] at h
  obtain ⟨m, hm, rfl⟩ := Option.map_eq_some_iff.mp h
  obtain ⟨hs, hl⟩ := Regex.mem_run_sound (List.mem_of_head? hm)
  exact ⟨m.taken, parseRegex_ne_nil _ hl, hs⟩

theorem token_rest_length {s : Text} {t : Token} (h : token s = some t) :
    t.rest.length < s.length := by
  obtain ⟨u, hu, hs⟩ := token_suffix h
  have hpos := List.length_pos_iff.mpr hu
  have hlen := congrArg List.length hs
  rw [List.length_append] at hlen
  omega

/-- The pieces of a text.  A character at which no token starts is skipped. -/
def scan : Text → List Text
  | [] => []
  | c :: s =>
      match _ : token (c :: s) with
      | some t => t.piece :: scan t.rest
      | none => scan s
termination_by s => s.length
decreasing_by
  · exact token_rest_length ‹_›
  · exact Nat.lt_succ_self _

/-- The engine reports a token at the start of a text, and the pieces go on behind it. -/
theorem split_of_token {c : Char} {s : Text} {t : Token} (h : token (c :: s) = some t) :
    split (c :: s) = t.piece :: split t.rest := by
  rw [← reported_parseRegex] at h
  obtain ⟨m, hm, rfl⟩ := Option.map_eq_some_iff.mp h
  exact split_of_first hm

/-- Where no token starts it moves on by a character. -/
theorem split_of_token_none {c : Char} {s : Text} (h : token (c :: s) = none) :
    split (c :: s) = split s := by
  rw [← reported_parseRegex, reported, Option.map_eq_none_iff, Regex.next_eq_none] at h
  rw [split_eq, Regex.search_of_nil h, ← split_eq]

/-- Cutting a text into pieces is scanning it. -/
theorem split_eq_scan (s : Text) : split s = scan s := by
  induction s using scan.induct with
  | case1 => rw [scan, split_nil]
  | case2 c s t h ih =>
      rw [scan, split_of_token h, ih]
      split
      next t' h' =>
        obtain rfl := Option.some.inj (h.symm.trans h')
        rfl
      next h' => rw [h] at h'; cases h'
  | case3 c s h ih =>
      rw [scan, split_of_token_none h, ih]
      split
      next t' h' => rw [h] at h'; cases h'
      next => rfl

end Befa
