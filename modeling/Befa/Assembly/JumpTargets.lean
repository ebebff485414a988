import Befa.Assembly.MatchJump
import Befa.Assembly.OperandDecoding

/-!
# Targets of jumps

`match_jump` searches the text of an instruction for a mnemonic with a blank behind it.  It is not
tied to the start of the text, so `ljmp` is a jump too.  What stands behind the blanks is a `rip`
relative operand with a comment, a `0x` number, or else a line, of which a stream reads whatever
hexadecimal digits it starts with.

`matchJump_eq` separates the two steps.  `behindJump` finds the operand and `targetOf` reads it.
`matchJump_iff` says for which instructions the target is the one that is meant.
-/

namespace Befa

open Regex (run First Captures)

/-! ## Finding the operand -/

/-- The operand of the jump that a text starts with. -/
def jumpOperand (s : Text) : Option Text :=
  (jumpMnemonics.find? fun j => j.isPrefixOf s && (s.drop j.length).head?.any isSpaceChar).map
    fun j => (s.drop j.length).dropWhile isSpaceChar

/-- The operand behind the leftmost mnemonic with a blank behind it. -/
def behindJump : Text → Option Text
  | [] => none
  | c :: s => (jumpOperand (c :: s)).or (behindJump s)

theorem jumpMnemonics_isWord : ∀ j ∈ jumpMnemonics, ∀ c ∈ j, isWordChar c = true := by
  have h : ∀ j ∈ jumpMnemonics, j.all isWordChar = true := by decide +kernel
  exact fun j hj => List.all_eq_true.mp (h j hj)

theorem blanksText_space (n : Nat) : ∀ c ∈ blanksText n, isSpaceChar c = true := by
  intro c hc
  rw [List.eq_of_mem_replicate hc]
  rfl

theorem stops_of_space {s : Text} (hne : s ≠ []) (hs : ∀ c ∈ s, isSpaceChar c = true) (t : Text) :
    Stops isWordChar (s ++ t) := by
  obtain ⟨c, s, rfl⟩ := List.exists_cons_of_ne_nil hne
  refine stops_cons.mpr (Bool.eq_false_iff.mpr fun hc => ?_)
  have := isSpaceChar_of_isWordChar hc
  rw [hs c (List.mem_cons_self ..)] at this
  cases this

theorem jumpOperand_some {s operand : Text} (h : jumpOperand s = some operand) :
    ∃ j ∈ jumpMnemonics, ∃ sp, s = j ++ (sp ++ operand) ∧ sp ≠ [] ∧
      (∀ c ∈ sp, isSpaceChar c = true) ∧ Stops isSpaceChar operand := by
  obtain ⟨j, hfind, rfl⟩ := Option.map_eq_some_iff.mp h
  have hp := List.find?_some hfind
  rw [Bool.and_eq_true, List.isPrefixOf_iff_prefix] at hp
  obtain ⟨⟨r, rfl⟩, hspace⟩ := hp
  rw [List.drop_left] at hspace ⊢
  refine ⟨j, List.mem_of_find?_eq_some hfind, r.takeWhile isSpaceChar, ?_, ?_, ?_,
    stops_dropWhile isSpaceChar r⟩
  · rw [List.takeWhile_append_dropWhile]
  · cases r with
    | nil => cases hspace
    | cons c r =>
        rw [List.takeWhile_cons, if_pos (by simpa using hspace)]
        exact List.cons_ne_nil _ _
  · exact List.all_eq_true.mp List.all_takeWhile

theorem jumpOperand_none {s : Text} (h : jumpOperand s = none) {j r : Text} (hj : j ∈ jumpMnemonics)
    (hs : s = j ++ r) : Stops isSpaceChar r := by
  rw [jumpOperand, Option.map_eq_none_iff, List.find?_eq_none] at h
  have hnot := h j hj
  subst hs
  rw [List.drop_left, List.isPrefixOf_iff_prefix.mpr ⟨r, rfl⟩, Bool.true_and] at hnot
  intro c hc
  rw [Option.mem_def.mp hc] at hnot
  simpa using hnot

theorem jumpOperand_eq {j sp operand : Text} (hj : j ∈ jumpMnemonics) (hne : sp ≠ [])
    (hsp : ∀ c ∈ sp, isSpaceChar c = true) (ho : Stops isSpaceChar operand) :
    jumpOperand (j ++ (sp ++ operand)) = some operand := by
  cases h : jumpOperand (j ++ (sp ++ operand)) with
  | none =>
      obtain ⟨c, sp, rfl⟩ := List.exists_cons_of_ne_nil hne
      have hstop := stops_cons.mp (jumpOperand_none h hj rfl)
      rw [hsp c (List.mem_cons_self ..)] at hstop
      cases hstop
  | some operand' =>
      obtain ⟨j', hj', sp', hs, hne', hsp', ho'⟩ := jumpOperand_some h
      have hrest := (append_stops_inj (jumpMnemonics_isWord j hj) (jumpMnemonics_isWord j' hj')
        (stops_of_space hne hsp _) (stops_of_space hne' hsp' _) hs).2
      rw [(append_stops_inj hsp hsp' ho ho' hrest).2]

theorem behindJump_stops {s operand : Text} (h : behindJump s = some operand) :
    Stops isSpaceChar operand := by
  induction s with
  | nil => cases h
  | cons c s ih =>
      rw [behindJump, Option.or_eq_some_iff] at h
      rcases h with h | ⟨-, h⟩
      · obtain ⟨j, -, sp, -, -, -, hstops⟩ := jumpOperand_some h
        exact hstops
      · exact ih h

/-! ## Reading the operand -/

/-- What the pattern of `match_jump` has behind the blanks. -/
def operandRegex : Regex Char :=
  .alts [ripTarget, hexTarget, .group 1 (.many true fun c => c ≠ '\n')]

/-- The number a stream reads, if it reads one. -/
def readTarget (x : UInt64 × Bool) : UInt64 := if x.2 then x.1 else unknownTarget

/-- What the pattern hands to the stream. -/
def targetText (operand : Text) : Text :=
  match (run operandRegex operand Captures.none).head? with
  | some m => m.caps 1
  | none => []

/-- The target an operand is read as. -/
def targetOf (operand : Text) : UInt64 := readTarget (extractHex (targetText operand))

theorem exists_first_operand (s : Text) : ∃ m, First operandRegex s Captures.none m := by
  have hlang : operandRegex.Lang [] :=
    Regex.lang_alts.mpr ⟨.group 1 (.many true fun c => c ≠ '\n'), by simp, by simp [Regex.Lang]⟩
  obtain ⟨m, hm, -⟩ := Regex.run_complete hlang s Captures.none
  obtain ⟨k, ks, hk⟩ := List.exists_cons_of_ne_nil (List.ne_nil_of_mem hm)
  exact ⟨k, Regex.first_iff.mpr ⟨ks, hk⟩⟩

theorem targetText_of_first {s : Text} {m : Regex.Match Char}
    (h : First operandRegex s Captures.none m) : targetText s = m.caps 1 := by
  rw [targetText, h]

/-- Where no jump starts the pattern has no way. -/
theorem run_jumpRegex_nil {s : Text} (h : jumpOperand s = none) :
    run jumpRegex s Captures.none = [] := by
  refine Regex.run_seq_eq_nil fun m hm => ?_
  obtain ⟨hmem, hs, -⟩ := Regex.mem_run_words hm
  refine Regex.run_seq_eq_nil fun k hk => ?_
  rw [Regex.run_plus_eq_nil (jumpOperand_none h hmem hs)] at hk
  cases hk

/-- Where a jump starts the pattern takes its operand. -/
theorem first_jumpRegex {s operand : Text} (h : jumpOperand s = some operand) :
    ∃ m, First jumpRegex s Captures.none m ∧ m.caps 1 = targetText operand := by
  obtain ⟨j, hj, sp, rfl, hne, hsp, ho⟩ := jumpOperand_some h
  obtain ⟨m, hm⟩ := exists_first_operand operand
  have htail := Regex.first_seq (Regex.first_plus hne hsp ho) hm
  refine ⟨_, Regex.first_words hj htail fun j' hj' s' hs' hrun => ?_, (targetText_of_first hm).symm⟩
  have hstop : Stops isWordChar s' := by
    refine fun c hc => Bool.eq_false_iff.mpr fun hword => hrun ?_
    refine Regex.run_seq_eq_nil fun k hk => ?_
    rw [Regex.run_plus_eq_nil] at hk
    · cases hk
    · intro d hd
      obtain rfl := Option.some.inj ((Option.mem_def.mp hc).symm.trans hd)
      exact isSpaceChar_of_isWordChar hword
  exact (append_stops_inj (jumpMnemonics_isWord j hj) (jumpMnemonics_isWord j' hj')
    (stops_of_space hne hsp _) hstop hs').1.symm

/-- `match_jump` finds an operand and reads it. -/
theorem matchJump_eq (s : Text) :
    matchJump s = match behindJump s with
      | none => noJump
      | some operand => targetOf operand := by
  induction s with
  | nil =>
      have hsearch : jumpRegex.search [] = none := by
        rw [Regex.search, run_jumpRegex_nil (s := []) rfl]
        rfl
      rw [matchJump, hsearch]
      rfl
  | cons c s ih =>
      cases h : jumpOperand (c :: s) with
      | none =>
          rw [matchJump, Regex.search_of_nil (run_jumpRegex_nil h), ← matchJump, ih, behindJump, h,
            Option.none_or]
      | some operand =>
          obtain ⟨m, hm, hcaps⟩ := first_jumpRegex h
          rw [matchJump, Regex.search_of_first hm, behindJump, h, Option.some_or]
          simp only [hcaps]
          rfl

/-! ## The number of an operand

The pattern tries the comment of a `rip` relative operand first, then a `0x` number, and then the
line.  There is one lemma for each. -/

/-- A number in lower case, as `match_jump` reads it. -/
structure LowerHex where
  digits : Text
  nonempty : digits ≠ []
  lower : ∀ c ∈ digits, isLowerHex c = true

/-- The text starts with `0x` and the number. -/
def StartsWithNumber (s : Text) (t : LowerHex) : Prop :=
  ∃ rest, s = "0x".toList ++ (t.digits ++ rest) ∧ Stops isLowerHex rest

/-- The text starts with `W PTR [rip...]`, blanks, `# ` and the number. -/
def HasComment (s : Text) (t : LowerHex) : Prop :=
  ∃ (size : Word) (offset : Inner) (blanks number : Text), blanks ≠ [] ∧
    (∀ c ∈ blanks, isSpaceChar c = true) ∧ StartsWithNumber number t ∧
    s = size.text ++ (" PTR [rip".toList ++ (offset.text ++ ("]".toList ++
      (blanks ++ ("# ".toList ++ number)))))

/-- A `0x` number loses leading zeros only. -/
theorem first_hexTarget {s : Text} {t : LowerHex} (h : StartsWithNumber s t) (c : Captures Char) :
    ∃ m, First hexTarget s c m ∧ extractHex (m.caps 1) = readHex t.digits := by
  obtain ⟨rest, rfl, hrest⟩ := h
  have hzero : Stops (fun c => decide (c = '0')) rest := by
    refine fun c hc => Bool.eq_false_iff.mpr fun h => ?_
    rw [of_decide_eq_true h] at hc
    exact absurd (hrest '0' hc) (by decide)
  obtain ⟨x, d, hxd, hne, hx, hfirst⟩ := Regex.exists_first_many (c := c)
    (t := .group 1 (.plus true isLowerHex)) t.nonempty (p := fun c => c = '0') hzero
    (Regex.run_group_eq_nil (Regex.run_plus_eq_nil hrest))
  have hd : ∀ c ∈ d, isLowerHex c = true := fun c hc => t.lower c (by rw [hxd]; simp [hc])
  have hgroup := hfirst _ (Regex.first_group (Regex.first_plus hne hd hrest))
  refine ⟨_, Regex.first_seq (Regex.first_str _) hgroup, ?_⟩
  have hvalue : hexValue d = hexValue t.digits := by
    rw [hxd, hexValue_zeros fun c hc => of_decide_eq_true (hx c hc)]
  have hcaps : extractHex d = readHex d :=
    extractHex_digits fun c hc => isHexDigit_of_isLowerHex (hd c hc)
  exact hcaps.trans (readHex_congr hne t.nonempty hvalue)

/-- A `0x` number goes as far as its digits do. -/
theorem startsWithNumber_of_lang {u : Text} (h : hexTarget.Lang u) (v : Text) :
    ∃ t, StartsWithNumber (u ++ v) t := by
  obtain ⟨a, _, rfl, ha, zeros, d, rfl, hz, hd⟩ := h
  obtain ⟨hne, hlower⟩ := Regex.lang_plus.mp hd
  have hall : ∀ c ∈ zeros ++ (d ++ v.takeWhile isLowerHex), isLowerHex c = true := by
    refine List.forall_mem_append.mpr ⟨fun c hc => ?_,
      List.forall_mem_append.mpr ⟨hlower, List.all_eq_true.mp List.all_takeWhile⟩⟩
    rw [of_decide_eq_true (hz c hc)]
    rfl
  refine ⟨⟨zeros ++ (d ++ v.takeWhile isLowerHex), by simp [hne], hall⟩,
    v.dropWhile isLowerHex, ?_, stops_dropWhile isLowerHex v⟩
  rw [Regex.lang_str.mp ha]
  simp [List.takeWhile_append_dropWhile]

theorem run_hexTarget_nil {s : Text} {c : Captures Char} (h : ∀ t, ¬StartsWithNumber s t) :
    run hexTarget s c = [] := by
  refine Regex.run_eq_nil_iff.mpr ?_
  rintro u v rfl hu
  obtain ⟨t, ht⟩ := startsWithNumber_of_lang hu v
  exact h t ht

theorem first_ripTarget {s : Text} {t : LowerHex} (h : HasComment s t) (c : Captures Char) :
    ∃ m, First ripTarget s c m ∧ extractHex (m.caps 1) = readHex t.digits := by
  obtain ⟨size, offset, blanks, number, hne, hblanks, hnumber, rfl⟩ := h
  obtain ⟨m, hm, hcaps⟩ := first_hexTarget hnumber c
  have hsize : Stops isWordChar (" PTR [rip".toList ++ (offset.text ++ ("]".toList ++
      (blanks ++ ("# ".toList ++ number))))) := stops_cons.mpr (by decide)
  have hstop : Stops isSpaceChar ("# ".toList ++ number) := stops_cons.mpr (by decide)
  exact ⟨_, Regex.first_seq (Regex.first_plus size.nonempty size.chars hsize)
    (Regex.first_seq (Regex.first_str _) (Regex.first_seq (first_inner offset _ _)
      (Regex.first_seq (Regex.first_str _) (Regex.first_seq (Regex.first_plus hne hblanks hstop)
        (Regex.first_seq (Regex.first_str _) hm))))), hcaps⟩

theorem run_ripTarget_nil {s : Text} {c : Captures Char} (h : ∀ t, ¬HasComment s t) :
    run ripTarget s c = [] := by
  refine Regex.run_eq_nil_iff.mpr ?_
  rintro u v rfl ⟨w, _, rfl, hw, a, _, rfl, ha, x, _, rfl, hx, b, _, rfl, hb, sp, _, rfl, hsp,
    d, n, rfl, hd, hn⟩
  obtain ⟨hwne, hword⟩ := Regex.lang_plus.mp hw
  obtain ⟨hxne, hinner⟩ := Regex.lang_plus.mp hx
  obtain ⟨hspne, hspace⟩ := Regex.lang_plus.mp hsp
  obtain ⟨t, ht⟩ := startsWithNumber_of_lang hn v
  refine h t ⟨⟨w, hwne, hword⟩, ⟨x, hxne, fun c hc => of_decide_eq_true (hinner c hc)⟩, sp, n ++ v,
    hspne, hspace, ht, ?_⟩
  rw [Regex.lang_str.mp ha, Regex.lang_str.mp hb, Regex.lang_str.mp hd]
  simp

theorem targetOf_comment {s : Text} {t : LowerHex} (h : HasComment s t) :
    targetOf s = readTarget (readHex t.digits) := by
  obtain ⟨m, hm, hcaps⟩ := first_ripTarget h Captures.none
  have hfirst := Regex.first_alts [] [hexTarget, .group 1 (.many true fun c => c ≠ '\n')]
    (by simp) hm
  rw [targetOf, targetText_of_first hfirst, hcaps]

theorem targetOf_number {s : Text} {t : LowerHex} (hc : ∀ t, ¬HasComment s t)
    (h : StartsWithNumber s t) : targetOf s = readTarget (readHex t.digits) := by
  obtain ⟨m, hm, hcaps⟩ := first_hexTarget h Captures.none
  have hfirst := Regex.first_alts [ripTarget] [.group 1 (.many true fun c => c ≠ '\n')]
    (List.forall_mem_singleton.mpr (run_ripTarget_nil hc)) hm
  rw [targetOf, targetText_of_first hfirst, hcaps]

theorem first_line (s : Text) : First (.many true fun c => c ≠ '\n') s Captures.none
    ⟨s.takeWhile fun c => c ≠ '\n', s.dropWhile fun c => c ≠ '\n', Captures.none⟩ := by
  have h := Regex.first_many (u := s.takeWhile fun c => c ≠ '\n')
    (s := s.dropWhile fun c => c ≠ '\n') (c := Captures.none)
    (List.all_eq_true.mp List.all_takeWhile) (stops_dropWhile (fun c => decide (c ≠ '\n')) s)
  rwa [List.takeWhile_append_dropWhile] at h

theorem targetOf_line {s : Text} (hc : ∀ t, ¬HasComment s t) (hn : ∀ t, ¬StartsWithNumber s t) :
    targetOf s = readTarget (extractHex (s.takeWhile fun c => c ≠ '\n')) := by
  have hbefore : ∀ q ∈ [ripTarget, hexTarget], run q s Captures.none = [] :=
    List.forall_mem_cons.mpr ⟨run_ripTarget_nil hc,
      List.forall_mem_singleton.mpr (run_hexTarget_nil hn)⟩
  rw [targetOf, targetText_of_first (Regex.first_alts _ [] hbefore
    (Regex.first_group (first_line s)))]
  rfl

/-- Digits that spell an address are read as it. -/
theorem readTarget_of_lt (t : LowerHex) (hv : hexValue t.digits < 2 ^ 64) :
    readTarget (readHex t.digits) = UInt64.ofNat (hexValue t.digits) := by
  rw [readHex_of_lt t.nonempty hv]
  rfl

/-- Behind the size of an operand with a comment are brackets, with a blank behind them. -/
theorem hasComment_inv {w s : Text} {t : LowerHex} (hw : ∀ c ∈ w, isWordChar c = true)
    (hs : Stops isWordChar s) (h : HasComment (w ++ s) t) :
    ∃ x sp y, (∀ c ∈ x, decide (c ≠ ']') = true) ∧ sp ≠ [] ∧
      s = " PTR ".toList ++ ('[' :: ("rip".toList ++ x ++ (']' :: (sp ++ y)))) := by
  obtain ⟨size, offset, sp, number, hsp, -, -, heq⟩ := h
  have hstop : Stops isWordChar (" PTR [rip".toList ++ (offset.text ++ ("]".toList ++
      (sp ++ ("# ".toList ++ number))))) := stops_cons.mpr (by decide)
  obtain ⟨-, rfl⟩ := append_stops_inj hw size.chars hs hstop heq
  exact ⟨offset.text, sp, "# ".toList ++ number, fun c hc => decide_eq_true (offset.chars c hc),
    hsp, by simp⟩

theorem targetOf_hex (t : LowerHex) (hv : hexValue t.digits < 2 ^ 64) :
    targetOf ("0x".toList ++ t.digits) = UInt64.ofNat (hexValue t.digits) := by
  have hchars : ∀ c ∈ "0x".toList ++ t.digits, isWordChar c = true :=
    List.forall_mem_append.mpr ⟨by decide, fun c hc =>
      isWordChar_of_isHexDigit (isHexDigit_of_isLowerHex (t.lower c hc))⟩
  have hcomment : ∀ t', ¬HasComment ("0x".toList ++ t.digits) t' := by
    intro t' h
    rw [← List.append_nil ("0x".toList ++ t.digits)] at h
    obtain ⟨x, sp, y, -, -, hnil⟩ := hasComment_inv hchars stops_nil h
    cases hnil
  have hnumber : StartsWithNumber ("0x".toList ++ t.digits) t := ⟨[], by simp, stops_nil⟩
  rw [targetOf_number hcomment hnumber, readTarget_of_lt t hv]

/-- `W PTR [rip...]  # 0x...`. -/
def ripText (size : Word) (offset : Inner) (gap : Nat) (t : LowerHex) : Text :=
  size.text ++ (" PTR [rip".toList ++ (offset.text ++ ("]".toList ++
    (blanksText (gap + 1) ++ ("# ".toList ++ ("0x".toList ++ t.digits))))))

theorem targetOf_rip (size : Word) (offset : Inner) (gap : Nat) (t : LowerHex)
    (hv : hexValue t.digits < 2 ^ 64) :
    targetOf (ripText size offset gap t) = UInt64.ofNat (hexValue t.digits) := by
  have hcomment : HasComment (ripText size offset gap t) t :=
    ⟨size, offset, blanksText (gap + 1), "0x".toList ++ t.digits, List.cons_ne_nil _ _,
      blanksText_space (gap + 1), ⟨[], by simp, stops_nil⟩, rfl⟩
  rw [targetOf_comment hcomment, readTarget_of_lt t hv]

/-! ## Operands without an address -/

/-- A register, or a memory operand without a comment. -/
inductive OtherOperand where
  | register (name : Name)
  | memory (m : MemoryOperand)
  | bracket (inner : Inner)

namespace OtherOperand

def text : OtherOperand → Text
  | register name => name.text
  | memory m => m.text
  | bracket inner => "[".toList ++ (inner.text ++ "]".toList)

/-- The word an operand starts with. -/
def leading : OtherOperand → Text
  | register name => name.text
  | memory m => m.size
  | bracket _ => []

/-- The hexadecimal digits an operand starts with. -/
def leadingDigits (o : OtherOperand) : Text := o.leading.takeWhile isHexDigit

end OtherOperand

/-- A memory operand ends with its brackets. -/
theorem pointer_no_comment (seg : Option Word) (inner : Inner) {x sp y : Text}
    (hx : ∀ c ∈ x, decide (c ≠ ']') = true) (hsp : sp ≠ []) :
    " PTR ".toList ++ (segmentText seg ++ ("[".toList ++ (inner.text ++ "]".toList))) ≠
      " PTR ".toList ++ ('[' :: ("rip".toList ++ x ++ (']' :: (sp ++ y)))) := by
  intro h
  have htail := List.append_cancel_left h
  cases seg with
  | none =>
      have hinner : inner.text ++ "]".toList = "rip".toList ++ x ++ (']' :: (sp ++ y)) :=
        (List.cons.inj htail).2
      have hstop : ∀ r : Text, Stops (fun c => decide (c ≠ ']')) (']' :: r) :=
        fun r => stops_cons.mpr (by decide)
      have hrip : ∀ c ∈ "rip".toList ++ x, decide (c ≠ ']') = true :=
        List.forall_mem_append.mpr ⟨by decide, hx⟩
      have hrest := (append_stops_inj (fun c hc => decide_eq_true (inner.chars c hc)) hrip
        (hstop []) (hstop (sp ++ y)) hinner).2
      exact hsp (List.append_eq_nil_iff.mp (List.cons.inj hrest).2.symm).1
  | some seg =>
      obtain ⟨c, w, hw⟩ := List.exists_cons_of_ne_nil seg.nonempty
      rw [segmentText, hw] at htail
      obtain rfl := (List.cons.inj htail).1
      exact absurd (seg.chars '[' (by rw [hw]; simp)) (by decide)

theorem absolute_no_comment (seg : Name) (s x y : Text) :
    " PTR ".toList ++ (seg.text ++ s) ≠ " PTR ".toList ++ ('[' :: ("rip".toList ++ x ++ y)) := by
  intro h
  have htail := List.append_cancel_left h
  obtain ⟨c, w, hw⟩ := List.exists_cons_of_ne_nil seg.nonempty
  rw [hw] at htail
  obtain rfl := (List.cons.inj htail).1
  exact absurd (seg.chars '[' (by rw [hw]; simp)) (by decide)

theorem empty_no_comment (seg : Option Name) (x : Text) {y : Text} :
    " PTR ".toList ++ (segmentText (seg.map Name.toWord) ++ "[]".toList) ≠
      " PTR ".toList ++ ('[' :: ("rip".toList ++ x ++ y)) := by
  cases seg with
  | none =>
      intro h
      have hhead := (List.cons.inj (List.append_cancel_left h)).2
      exact absurd (List.cons.inj hhead).1 (by decide)
  | some seg =>
      rw [Option.map_some, segmentText, List.append_assoc]
      exact absolute_no_comment seg _ x y

namespace OtherOperand

/-- An operand is a word and what stops it. -/
theorem text_eq (o : OtherOperand) : ∃ s, o.text = o.leading ++ s ∧ Stops isWordChar s := by
  cases o with
  | register name => exact ⟨[], by simp [text, leading], stops_nil⟩
  | bracket inner => exact ⟨_, rfl, stops_cons.mpr (by decide)⟩
  | memory m =>
      cases m with
      | bracketed size seg inner => exact ⟨_, rfl, stops_cons.mpr (by decide)⟩
      | empty size seg => exact ⟨_, rfl, stops_cons.mpr (by decide)⟩
      | absolute size seg value => exact ⟨_, rfl, stops_cons.mpr (by decide)⟩

theorem leading_isWord (o : OtherOperand) : ∀ c ∈ o.leading, isWordChar c = true := by
  cases o with
  | register name => exact name.chars
  | bracket inner => exact fun c hc => absurd hc List.not_mem_nil
  | memory m =>
      cases m with
      | bracketed size seg inner => exact size.chars
      | empty size seg => exact size.chars
      | absolute size seg value => exact size.chars

theorem no_comment (o : OtherOperand) (t : LowerHex) : ¬HasComment o.text t := by
  intro h
  obtain ⟨s, htext, hs⟩ := o.text_eq
  rw [htext] at h
  obtain ⟨x, sp, y, hx, hsp, rfl⟩ := hasComment_inv o.leading_isWord hs h
  cases o with
  | register name => simp [text, leading] at htext
  | bracket inner => cases htext
  | memory m =>
      cases m with
      | bracketed size seg inner =>
          rw [text, MemoryOperand.text, pointerText, leading] at htext
          exact pointer_no_comment seg inner hx hsp (List.append_cancel_left htext)
      | empty size seg =>
          rw [text, MemoryOperand.text, leading] at htext
          exact empty_no_comment seg _ (List.append_cancel_left htext)
      | absolute size seg value =>
          rw [text, MemoryOperand.text, leading] at htext
          exact absolute_no_comment seg _ x _ (List.append_cancel_left htext)

/-- An operand starts with a name or a bracket. -/
theorem head_text (o : OtherOperand) :
    ∀ c ∈ o.text.head?, c = '[' ∨ (isWordChar c = true ∧ c.isDigit = false) := by
  have hname : ∀ (name : Name) (s : Text), ∀ c ∈ (name.text ++ s).head?,
      c = '[' ∨ (isWordChar c = true ∧ c.isDigit = false) := by
    intro name s c hc
    obtain ⟨d, w, hw⟩ := List.exists_cons_of_ne_nil name.nonempty
    rw [hw] at hc
    obtain rfl := Option.some.inj hc
    exact Or.inr ⟨name.chars d (by rw [hw]; simp), name.start d (by rw [hw]; rfl)⟩
  cases o with
  | register name => simpa [text] using hname name []
  | bracket inner => exact fun c hc => Or.inl (Option.some.inj hc).symm
  | memory m =>
      cases m with
      | bracketed size seg inner => exact hname size _
      | empty size seg => exact hname size _
      | absolute size seg value => exact hname size _

end OtherOperand

/-! ## Reading a line -/

theorem takeWhile_leading {w s : Text} (hs : Stops isWordChar s) :
    (w ++ s).takeWhile isHexDigit = w.takeWhile isHexDigit := by
  have hnil : s.takeWhile isHexDigit = [] := by
    cases s with
    | nil => rfl
    | cons c s =>
        have hc : isHexDigit c = false := Bool.eq_false_iff.mpr fun h =>
          absurd (isWordChar_of_isHexDigit h) (by simp [stops_cons.mp hs])
        rw [List.takeWhile_cons, hc, if_neg Bool.false_ne_true]
  rw [List.takeWhile_append, hnil, List.append_nil]
  split
  next h => exact (List.takeWhile_prefix _).eq_of_length h |>.symm
  next => rfl

/-- No hexadecimal digit ends a line. -/
theorem takeWhile_line (s : Text) :
    (s.takeWhile fun c => c ≠ '\n').takeWhile isHexDigit = s.takeWhile isHexDigit := by
  induction s with
  | nil => rfl
  | cons c s ih =>
      by_cases hc : c = '\n'
      · subst hc
        rfl
      · rw [List.takeWhile_cons, if_pos (by simpa using hc), List.takeWhile_cons,
          List.takeWhile_cons, ih]

/-- The stream reads a line whose operand has no address. -/
theorem targetOf_other (o : OtherOperand) :
    targetOf o.text = readTarget (readHex o.leadingDigits) := by
  obtain ⟨s, htext, hs⟩ := o.text_eq
  have hzero : ∀ c ∈ o.text.head?, c ≠ '0' := by
    intro c hc
    rcases o.head_text c hc with rfl | ⟨-, h⟩
    · decide
    · rintro rfl
      exact absurd h (by decide)
  have hnumber : ∀ t, ¬StartsWithNumber o.text t := by
    rintro t ⟨rest, heq, -⟩
    exact hzero '0' (by rw [heq]; rfl) rfl
  have hhead : ∀ c ∈ (o.text.takeWhile fun c => c ≠ '\n').head?, c ∈ o.text.head? := by
    intro c hc
    cases h : o.text with
    | nil => rw [h] at hc; cases hc
    | cons d rest =>
        rw [h, List.takeWhile_cons] at hc
        split at hc
        · exact hc
        · cases hc
  rw [targetOf_line o.no_comment hnumber, extractHex_plain, takeWhile_line, htext,
    takeWhile_leading hs, OtherOperand.leadingDigits]
  · intro c hc
    rcases o.head_text c (hhead c hc) with rfl | ⟨h, -⟩
    · decide
    · exact isSpaceChar_of_isWordChar h
  · refine takeSign_plain fun c hc => ?_
    rcases o.head_text c (hhead c hc) with rfl | ⟨h, -⟩
    · decide
    · constructor <;> rintro rfl <;> exact absurd h (by decide)
  · exact dropHexPrefix_plain fun c hc => hzero c (hhead c hc)

/-! ## Reading the marker -/

/-- The number of an operand is the marker of no jump: the one in its comment, else its `0x` number,
else the one that its line starts with. -/
inductive SpellsNoJump (operand : Text) : Prop where
  | comment {t : LowerHex} (commented : HasComment operand t)
      (value : hexValue t.digits = 2 ^ 64 - 1)
  | number {t : LowerHex} (plain : ∀ t, ¬HasComment operand t)
      (start : StartsWithNumber operand t) (value : hexValue t.digits = 2 ^ 64 - 1)
  | line (plain : ∀ t, ¬HasComment operand t) (bare : ∀ t, ¬StartsWithNumber operand t)
      (value : hexValue (signedDigits (operand.takeWhile fun c => c ≠ '\n')).2 =
        if (signedDigits (operand.takeWhile fun c => c ≠ '\n')).1 then 1 else 2 ^ 64 - 1)

theorem readTarget_eq_noJump (x : UInt64 × Bool) :
    readTarget x = noJump ↔ x = (noJump, true) := by
  obtain ⟨value, good⟩ := x
  cases good with
  | true => simp [readTarget]
  | false => simp [readTarget, unknownTarget, noJump]

theorem readHex_eq_noJump (digits : Text) :
    readHex digits = (noJump, true) ↔ hexValue digits = 2 ^ 64 - 1 :=
  readHex_eq_pos digits (by decide)

/-- A stream reads the marker from its digits, or from a one behind a minus. -/
theorem extractHex_eq_noJump {s : Text} (hs : Stops isSpaceChar s) :
    extractHex s = (noJump, true) ↔
      hexValue (signedDigits s).2 = if (signedDigits s).1 then 1 else 2 ^ 64 - 1 := by
  rw [extractHex_signed hs]
  obtain ⟨sign, digits⟩ := signedDigits s
  cases sign with
  | false => exact readHex_eq_noJump digits
  | true =>
      have hone : readHex digits = (1, true) ↔ hexValue digits = 1 :=
        readHex_eq_pos digits (by decide)
      refine Iff.trans ?_ hone
      obtain ⟨value, good⟩ := readHex digits
      cases good with
      | true => simp [noJump]
      | false => simp

theorem stops_line {s : Text} (hs : Stops isSpaceChar s) :
    Stops isSpaceChar (s.takeWhile fun c => c ≠ '\n') := by
  cases s with
  | nil => exact stops_nil
  | cons c s =>
      rw [List.takeWhile_cons]
      split
      · exact stops_cons.mpr (stops_cons.mp hs)
      · exact stops_nil

/-- An operand is read as the marker of no jump when it spells it. -/
theorem targetOf_eq_noJump {operand : Text} (hs : Stops isSpaceChar operand) :
    targetOf operand = noJump ↔ SpellsNoJump operand := by
  have hdigits : ∀ t : LowerHex, targetOf operand = readTarget (readHex t.digits) →
      (targetOf operand = noJump ↔ hexValue t.digits = 2 ^ 64 - 1) := fun t h => by
    rw [h, readTarget_eq_noJump, readHex_eq_noJump]
  have hline := extractHex_eq_noJump (stops_line hs)
  constructor
  · intro h
    by_cases hc : ∃ t, HasComment operand t
    · obtain ⟨t, ht⟩ := hc
      exact .comment ht ((hdigits t (targetOf_comment ht)).mp h)
    · have hplain := not_exists.mp hc
      by_cases hn : ∃ t, StartsWithNumber operand t
      · obtain ⟨t, ht⟩ := hn
        exact .number hplain ht ((hdigits t (targetOf_number hplain ht)).mp h)
      · have hbare := not_exists.mp hn
        rw [targetOf_line hplain hbare, readTarget_eq_noJump, hline] at h
        exact .line hplain hbare h
  · rintro (⟨ht, hv⟩ | ⟨hplain, ht, hv⟩ | ⟨hplain, hbare, hv⟩)
    · exact (hdigits _ (targetOf_comment ht)).mpr hv
    · exact (hdigits _ (targetOf_number hplain ht)).mpr hv
    · rw [targetOf_line hplain hbare, readTarget_eq_noJump, hline]
      exact hv

/-! ## Instructions -/

/-- The text of an instruction, with what `match_jump` is meant to return for it. -/
inductive JumpText where
  /-- `J 0x...`. -/
  | direct (jump : Text) (listed : jump ∈ jumpMnemonics) (blanks : Nat) (t : LowerHex)
      (small : hexValue t.digits < 2 ^ 64 - 2)
  /-- `J W PTR [rip...]  # 0x...`. -/
  | ripRelative (jump : Text) (listed : jump ∈ jumpMnemonics) (blanks : Nat) (size : Word)
      (offset : Inner) (gap : Nat) (t : LowerHex) (small : hexValue t.digits < 2 ^ 64)
  /-- `J` and a register or a memory operand without a comment. -/
  | other (jump : Text) (listed : jump ∈ jumpMnemonics) (blanks : Nat) (operand : OtherOperand)
  /-- Another mnemonic, and any operands. -/
  | unlisted (mnemonic : Name) (unlisted : mnemonic.text ∉ jumpMnemonics) (rest : Text)
      (stops : Stops isWordChar rest)

namespace JumpText

def text : JumpText → Text
  | direct jump _ blanks t _ => jump ++ (blanksText (blanks + 1) ++ ("0x".toList ++ t.digits))
  | ripRelative jump _ blanks size offset gap t _ =>
      jump ++ (blanksText (blanks + 1) ++ ripText size offset gap t)
  | other jump _ blanks operand => jump ++ (blanksText (blanks + 1) ++ operand.text)
  | unlisted mnemonic _ rest _ => mnemonic.text ++ rest

/-- The target that is meant. -/
def target : JumpText → UInt64
  | direct _ _ _ t _ => UInt64.ofNat (hexValue t.digits)
  | ripRelative _ _ _ _ _ _ t _ => UInt64.ofNat (hexValue t.digits)
  | other _ _ _ _ => unknownTarget
  | unlisted _ _ _ _ => noJump

/-- The digits a stream finds in an operand spell no address. -/
def SpellsNone (digits : Text) : Prop :=
  digits = [] ∨ 2 ^ 64 ≤ hexValue digits ∨ hexValue digits = 2 ^ 64 - 2

/-- An operand without an address starts with no digits of one, and in front of no blank a listed
mnemonic ends, unless the number behind it is the marker itself. -/
def Meant : JumpText → Prop
  | other _ _ _ operand => SpellsNone operand.leadingDigits
  | unlisted mnemonic _ rest _ => ∀ operand, behindJump (mnemonic.text ++ rest) = some operand →
      SpellsNoJump operand
  | _ => True

end JumpText

/-- A listed mnemonic at the start of a text is the leftmost one. -/
theorem matchJump_listed {jump operand : Text} (hj : jump ∈ jumpMnemonics) (blanks : Nat)
    (ho : Stops isSpaceChar operand) :
    matchJump (jump ++ (blanksText (blanks + 1) ++ operand)) = targetOf operand := by
  have hfind : jumpOperand (jump ++ (blanksText (blanks + 1) ++ operand)) = some operand :=
    jumpOperand_eq hj (List.cons_ne_nil _ _) (blanksText_space (blanks + 1)) ho
  have hcons : ∃ c s, jump ++ (blanksText (blanks + 1) ++ operand) = c :: s := by
    refine List.exists_cons_of_ne_nil ?_
    simp [blanksText]
  obtain ⟨c, s, hs⟩ := hcons
  rw [matchJump_eq, hs, behindJump, ← hs, hfind, Option.some_or]

theorem readTarget_readHex (digits : Text) :
    readTarget (readHex digits) = unknownTarget ↔ JumpText.SpellsNone digits := by
  unfold JumpText.SpellsNone
  by_cases hnil : digits = []
  · subst hnil
    exact iff_of_true rfl (Or.inl rfl)
  · by_cases hlt : hexValue digits < 2 ^ 64
    · rw [readHex_of_lt hnil hlt]
      have hvalue : UInt64.ofNat (hexValue digits) = unknownTarget ↔
          hexValue digits = 2 ^ 64 - 2 := by
        rw [← UInt64.toNat_inj, UInt64.toNat_ofNat_of_lt' hlt]
        rfl
      refine hvalue.trans ⟨fun h => Or.inr (Or.inr h), ?_⟩
      rintro (h | h | h)
      · exact absurd h hnil
      · omega
      · exact h
    · rw [readHex, if_neg (by simpa using hnil), if_neg hlt]
      exact iff_of_true rfl (Or.inr (Or.inl (by omega)))

/-- **Jump target extraction.** -/
theorem matchJump_iff (t : JumpText) : matchJump t.text = t.target ↔ t.Meant := by
  cases t with
  | direct jump listed blanks t small =>
      refine iff_of_true ?_ trivial
      have hzero : Stops isSpaceChar ("0x".toList ++ t.digits) := stops_cons.mpr (by decide)
      rw [JumpText.text, matchJump_listed listed blanks hzero, targetOf_hex t (by omega),
        JumpText.target]
  | ripRelative jump listed blanks size offset gap t small =>
      refine iff_of_true ?_ trivial
      have hsize : Stops isSpaceChar (ripText size offset gap t) := by
        obtain ⟨c, w, hw⟩ := List.exists_cons_of_ne_nil size.nonempty
        rw [ripText, hw]
        exact stops_cons.mpr (isSpaceChar_of_isWordChar (size.chars c (by rw [hw]; simp)))
      rw [JumpText.text, matchJump_listed listed blanks hsize, targetOf_rip size offset gap t small,
        JumpText.target]
  | other jump listed blanks operand =>
      have hstart : Stops isSpaceChar operand.text := by
        intro c hc
        rcases operand.head_text c hc with rfl | ⟨h, -⟩
        · decide
        · exact isSpaceChar_of_isWordChar h
      rw [JumpText.text, matchJump_listed listed blanks hstart, targetOf_other]
      exact readTarget_readHex operand.leadingDigits
  | unlisted mnemonic unlisted rest stops =>
      rw [JumpText.text, matchJump_eq, JumpText.target, JumpText.Meant]
      cases h : behindJump (mnemonic.text ++ rest) with
      | none => exact iff_of_true rfl (by simp)
      | some operand =>
          simp only [Option.some.injEq, forall_eq']
          exact targetOf_eq_noJump (behindJump_stops h)

/-- The letters of `eax` are read as `0xea`. -/
theorem matchJump_eax : matchJump "jmp    eax".toList ≠ unknownTarget := by
  have h : matchJump "jmp    eax".toList = 0xea := by decide +kernel
  rw [h]
  decide

end Befa
