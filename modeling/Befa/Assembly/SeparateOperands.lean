import Befa.Assembly.Scanner

/-!
# Operands are cut one by one

A bracket that is not closed reaches over the comma behind an operand.  Nothing else does, so a
text whose brackets are closed is cut alone whatever follows its comma (`split_divider`).

`split_operandsText` says it for a list of texts with commas between them.  The texts need not be
operands that a disassembler prints.  Only their brackets have to be closed, and those of the last
one may be open.
-/

namespace Befa

/-- Behind each opening bracket there is a closing one. -/
def BracketsClosed (s : Text) : Prop := ∀ u v, s = u ++ '[' :: v → ']' ∈ v

theorem BracketsClosed.of_append {u v : Text} (h : BracketsClosed (u ++ v)) : BracketsClosed v :=
  fun x y hv => h (u ++ x) y (by rw [hv, List.append_assoc])

/-- Brackets are closed behind a word and a literal. -/
theorem BracketsClosed.behind {p : Char → Bool} {l s u : Text} {x : Text × Text}
    (hs : BracketsClosed s) (h : takeRun p s = some x) (h' : x.2.dropPrefix? l = some u) :
    BracketsClosed u := by
  rw [(takeRun_eq_some.mp h).1] at hs
  have hrest := hs.of_append
  rw [eq_append_of_dropPrefix? h'] at hrest
  exact hrest.of_append

theorem bracketsClosed_nil : BracketsClosed [] :=
  fun u v h => absurd h.symm (List.append_ne_nil_of_right_ne_nil u (List.cons_ne_nil _ v))

theorem bracketsClosed_cons {a : Char} {s : Text} :
    BracketsClosed (a :: s) ↔ (a = '[' → ']' ∈ s) ∧ BracketsClosed s := by
  constructor
  · intro h
    exact ⟨fun ha => h [] s (by rw [ha]; rfl), BracketsClosed.of_append (u := [a]) h⟩
  · rintro ⟨ha, hs⟩ u v h
    cases u with
    | nil =>
        obtain ⟨rfl, rfl⟩ := List.cons.inj h
        exact ha rfl
    | cons b u => exact hs u v (List.cons.inj h).2

instance decidableBracketsClosed : DecidablePred BracketsClosed
  | [] => .isTrue bracketsClosed_nil
  | _ :: s =>
      have := decidableBracketsClosed s
      decidable_of_iff _ bracketsClosed_cons.symm

/-- The characters that are in no word and in no literal of the pattern. -/
def isDivider (c : Char) : Bool := isSeparator c && c ≠ ' ' && c ≠ ':' && c ≠ ']'

/-- What stands behind a token in a longer text. -/
def Token.behind (w : Text) (k : Token) : Token := ⟨k.piece, k.rest ++ w⟩

section Divider

variable {c : Char} {s t : Text}

theorem isSeparator_of_isDivider (hc : isDivider c = true) : isSeparator c = true := by
  simp only [isDivider, Bool.and_eq_true] at hc
  exact hc.1.1.1

theorem not_isWordChar_of_isDivider (hc : isDivider c = true) : isWordChar c = false := by
  have hsep := isSeparator_of_isDivider hc
  simp only [isSeparator, Bool.and_eq_true, Bool.not_eq_true'] at hsep
  exact hsep.1.1.1

theorem stops_isWordChar (hc : isDivider c = true) : Stops isWordChar (c :: t) :=
  stops_cons.mpr (not_isWordChar_of_isDivider hc)

theorem stops_isHexDigit (hc : isDivider c = true) : Stops isHexDigit (c :: t) :=
  Regex.stops_subclass (fun _ => isWordChar_of_isHexDigit) (stops_isWordChar hc)

/-- A literal of the pattern does not reach over a divider. -/
theorem literal_append {l : Text} (hl : ∀ a ∈ l, isDivider a = false) (hc : isDivider c = true) :
    (s ++ c :: t).dropPrefix? l = (s.dropPrefix? l).map (· ++ c :: t) := by
  refine dropPrefix?_append_cons fun hmem => ?_
  rw [hl c hmem] at hc
  cases hc

theorem dottedToken_append (hc : isDivider c = true) :
    dottedToken (s ++ c :: t) = (dottedToken s).map (Token.behind (c :: t)) := by
  obtain ⟨htake, hdrop⟩ := takeWhile_dropWhile_append (s := s) (.inl (stops_isWordChar (t := t) hc))
  rw [dottedToken, dottedToken, htake, hdrop, literal_append (by decide) hc]
  cases (s.dropWhile isWordChar).dropPrefix? ".".toList with
  | none => rfl
  | some u =>
      rw [Option.map_some, Option.bind_some, Option.bind_some,
        takeRun_append (.inl (stops_isWordChar hc))]
      cases takeRun isWordChar u with
      | none => rfl
      | some w => rfl

theorem commentToken_append (hc : isDivider c = true) :
    commentToken (s ++ c :: t) = (commentToken s).map (Token.behind (c :: t)) := by
  rw [commentToken, commentToken, literal_append (by decide) hc]
  cases s.dropPrefix? "# 0x".toList with
  | none => rfl
  | some u =>
      rw [Option.map_some, Option.bind_some, Option.bind_some,
        takeRun_append (.inl (stops_isHexDigit hc))]
      cases takeRun isHexDigit u with
      | none => rfl
      | some d => rfl

theorem numberToken_append (hc : isDivider c = true) :
    numberToken (s ++ c :: t) = (numberToken s).map (Token.behind (c :: t)) := by
  rw [numberToken, numberToken, literal_append (by decide) hc]
  cases s.dropPrefix? "0x".toList with
  | none => rfl
  | some u =>
      rw [Option.map_some, Option.bind_some, Option.bind_some,
        takeRun_append (.inl (stops_isHexDigit hc))]
      cases takeRun isHexDigit u with
      | none => rfl
      | some d => rfl

theorem wordToken_append (hc : isDivider c = true) :
    wordToken (s ++ c :: t) = (wordToken s).map (Token.behind (c :: t)) := by
  rw [wordToken, wordToken, takeRun_append (.inl (stops_isWordChar hc))]
  cases takeRun isWordChar s with
  | none => rfl
  | some w => rfl

/-- What is in closed brackets ends in them. -/
theorem inBrackets_append (hs : BracketsClosed s) (hc : isDivider c = true) :
    inBrackets (s ++ c :: t) = (inBrackets s).map fun e => (e.1, e.2 ++ c :: t) := by
  rw [inBrackets, inBrackets, literal_append (by decide) hc]
  cases h : s.dropPrefix? "[".toList with
  | none => rfl
  | some u =>
      have hs' : s = "[".toList ++ u := eq_append_of_dropPrefix? h
      -- the run stops at this bracket, and not at the divider
      have hclosed : ']' ∈ u := hs [] u hs'
      rw [Option.map_some, Option.bind_some, Option.bind_some,
        takeRun_append (.inr ⟨']', hclosed, by decide⟩)]
      cases takeRun (fun c => decide (c ≠ ']')) u with
      | none => rfl
      | some e =>
          rw [Option.map_some, Option.bind_some, Option.bind_some, literal_append (by decide) hc]
          cases e.2.dropPrefix? "]".toList with
          | none => rfl
          | some v => rfl

theorem pointedTo_append (hs : BracketsClosed s) (hc : isDivider c = true) :
    pointedTo (s ++ c :: t) = (pointedTo s).map fun e => (e.1, e.2 ++ c :: t) := by
  rw [pointedTo, pointedTo, inBrackets_append hs hc, takeRun_append (.inl (stops_isWordChar hc)),
    Option.map_or, Option.map_map, Option.map_map]
  congr 1
  cases h : takeRun isWordChar s with
  | none => rfl
  | some seg =>
      rw [Option.map_some, Option.bind_some, Option.bind_some, literal_append (by decide) hc]
      cases h' : seg.2.dropPrefix? ":".toList with
      | none => rfl
      | some u =>
          have hu : BracketsClosed u := hs.behind h h'
          rw [Option.map_some, Option.bind_some, Option.bind_some, inBrackets_append hu hc]
          cases inBrackets u with
          | none => rfl
          | some e => rfl

theorem pointerToken_append (hs : BracketsClosed s) (hc : isDivider c = true) :
    pointerToken (s ++ c :: t) = (pointerToken s).map (Token.behind (c :: t)) := by
  rw [pointerToken, pointerToken, takeRun_append (.inl (stops_isWordChar hc))]
  cases h : takeRun isWordChar s with
  | none => rfl
  | some size =>
      rw [Option.map_some, Option.bind_some, Option.bind_some, literal_append (by decide) hc]
      cases h' : size.2.dropPrefix? " PTR ".toList with
      | none => rfl
      | some u =>
          have hu : BracketsClosed u := hs.behind h h'
          rw [Option.map_some, Option.bind_some, Option.bind_some, pointedTo_append hu hc]
          cases pointedTo u with
          | none => rfl
          | some e => rfl

theorem bracketToken_append (hs : BracketsClosed s) (hc : isDivider c = true) :
    bracketToken (s ++ c :: t) = (bracketToken s).map (Token.behind (c :: t)) := by
  rw [bracketToken, bracketToken, inBrackets_append hs hc, Option.map_map, Option.map_map]
  rfl

/-- The token at the start of a text is the same in front of a divider. -/
theorem token_append (hs : BracketsClosed s) (hc : isDivider c = true) :
    token (s ++ c :: t) = (token s).map (Token.behind (c :: t)) := by
  rw [token, token, dottedToken_append hc, commentToken_append hc, pointerToken_append hs hc,
    bracketToken_append hs hc, numberToken_append hc, wordToken_append hc]
  simp only [Option.map_or]

/-- A text is cut alone in front of a divider. -/
theorem split_divider (hs : BracketsClosed s) (hc : isDivider c = true) (t : Text) :
    split (s ++ c :: t) = split s ++ split t := by
  induction s using scan.induct with
  | case1 => rw [split_nil, List.nil_append, List.nil_append,
      split_separator (isSeparator_of_isDivider hc)]
  | case2 a s k h ih =>
      have htoken := token_append (t := t) hs hc
      rw [h, Option.map_some, List.cons_append] at htoken
      obtain ⟨u, -, hu⟩ := token_suffix h
      rw [hu] at hs
      rw [split_of_token h, List.cons_append, split_of_token htoken, Token.behind, ih hs.of_append,
        List.cons_append]
  | case3 a s h ih =>
      have htoken := token_append (t := t) hs hc
      rw [h, Option.map_none, List.cons_append] at htoken
      have hrest : BracketsClosed s := BracketsClosed.of_append (u := [a]) hs
      rw [split_of_token_none h, List.cons_append, split_of_token_none htoken, ih hrest]

end Divider

/-- **Operands are cut one by one**, whatever they hold, when the brackets of all but the last are
closed. -/
theorem split_operandsText {operands : List Text}
    (h : ∀ s ∈ operands.dropLast, BracketsClosed s) :
    split (operandsText operands) = operands.flatMap split := by
  cases operands with
  | nil => exact split_nil
  | cons s operands =>
      rw [operandsText, List.flatMap_cons]
      induction operands generalizing s with
      | nil => simp
      | cons s' operands ih =>
          rw [List.dropLast_cons_cons] at h
          obtain ⟨hs, hmore⟩ := List.forall_mem_cons.mp h
          rw [List.flatMap_cons, List.cons_append, split_divider hs (by decide), ih s' hmore,
            List.flatMap_cons]

/-- Masks are no operands of `Operand`. -/
theorem split_operandsText_vaddpd : split "vaddpd zmm1{k2},zmm3,[rax+rbx*8]".toList =
    ["vaddpd", "zmm1", "k2", "zmm3", "rax+rbx*8"].map String.toList :=
  (@split_operandsText ["vaddpd zmm1{k2}".toList, "zmm3".toList, "[rax+rbx*8]".toList]
    (by decide)).trans (by decide +kernel)

end Befa
