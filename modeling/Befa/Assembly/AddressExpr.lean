import Befa.Assembly.InstructionParser

/-!
# Address expressions

An address expression is a sum of registers, `0x` numbers and scaled registers.  `handleExpression`
looks for a multiplication before it looks for an addition, so the text is cut at every `*` first.
What lies between two of them is a sum of *atoms*, that is, of registers and numerals.  The tree is
the product of these sums (`treeValue_product`), while the usual value is a sum of products.

`keepsMeaning_iff` says for which shapes of expressions the two agree.
-/

namespace Befa

/-! ## Values -/

/-- The value of a numeral. -/
def numeralValue (value : Text) : UInt64 := UInt64.ofNat (hexValue (dropHexPrefix value))

/-- The operators of binary operands. -/
def applyOp (op : Text) (x y : UInt64) : UInt64 :=
  if op = ['*'] then x * y else if op = ['+'] then x + y else x - y

/-- The value of a symbol, when the symbols it is made of have the values `ρ`. -/
def Sym.eval (ρ : Sym → UInt64) : Sym → UInt64
  | .temporary lhs op rhs => applyOp op (lhs.eval ρ) (rhs.eval ρ)
  | .immidiate value => numeralValue value
  | sym => ρ sym

/-- The value of the tree of a text, parsed without functions. -/
def treeValue (ρ : Sym → UInt64) (text : Text) : Option UInt64 :=
  (handleExpression .nil text).map (Sym.eval ρ)

/-! ## Expressions -/

/-- The operators between terms. -/
inductive Sign where
  | plus | minus
deriving DecidableEq

/-- The character of a sign. -/
def Sign.char : Sign → Char
  | plus => '+'
  | minus => '-'

/-- What a sign does. -/
def Sign.apply : Sign → UInt64 → UInt64 → UInt64
  | plus, x, y => x + y
  | minus, x, y => x - y

/-- The name of a register that is no hexadecimal number. -/
structure RegisterName where
  /-- The row of the table. -/
  row : Text × Size
  /-- It is in the table. -/
  known : row ∈ registers
  /-- Some character of the name is no digit. -/
  notHex : ∃ c ∈ row.1, isHexDigit c = false

/-- A number behind `0x`. -/
structure HexNumber where
  digits : Text
  nonempty : digits ≠ []
  hex : ∀ c ∈ digits, isHexDigit c = true

/-- A scale is a single digit, or a `0x` number. -/
inductive Scale where
  | digit (d : Char) (h : d.isDigit = true)
  | number (n : HexNumber)

/-- A term of an address expression. -/
inductive Term where
  | register (r : RegisterName)
  | number (n : HexNumber)
  | scaled (r : RegisterName) (k : Scale)

/-- A term, and further terms behind signs. -/
structure AddressExpr where
  head : Term
  tail : List (Sign × Term)

/-- Things behind signs. -/
def signedText {α : Type} (text : α → Text) (l : List (Sign × α)) : Text :=
  l.flatMap fun x => x.1.char :: text x.2

/-- Values behind signs, from left to right. -/
def signedValue {α : Type} (value : α → UInt64) (v : UInt64) (l : List (Sign × α)) : UInt64 :=
  l.foldl (fun v x => x.1.apply v (value x.2)) v

def RegisterName.text (r : RegisterName) : Text := r.row.1

def RegisterName.value (ρ : Sym → UInt64) (r : RegisterName) : UInt64 := ρ (registerOf r.row)

def HexNumber.text (n : HexNumber) : Text := '0' :: 'x' :: n.digits

def HexNumber.value (n : HexNumber) : UInt64 := UInt64.ofNat (hexValue n.digits)

def Scale.text : Scale → Text
  | digit d _ => [d]
  | number n => n.text

def Scale.value : Scale → UInt64
  | digit d _ => UInt64.ofNat (hexDigit d)
  | number n => n.value

namespace Term

def text : Term → Text
  | register r => r.text
  | number n => n.text
  | scaled r k => r.text ++ '*' :: k.text

def value (ρ : Sym → UInt64) : Term → UInt64
  | register r => r.value ρ
  | number n => n.value
  | scaled r k => r.value ρ * k.value

end Term

namespace AddressExpr

/-- The text of an expression. -/
def text (e : AddressExpr) : Text := e.head.text ++ signedText Term.text e.tail

/-- The usual value: `*` binds tighter than the signs, and these associate to the left. -/
def value (ρ : Sym → UInt64) (e : AddressExpr) : UInt64 :=
  signedValue (Term.value ρ) (e.head.value ρ) e.tail

end AddressExpr

/-! ## Sums and products -/

/-- What stands between two operators. -/
inductive Atom where
  | register (r : RegisterName)
  | numeral (k : Scale)

def Atom.text : Atom → Text
  | register r => r.text
  | numeral k => k.text

def Atom.value (ρ : Sym → UInt64) : Atom → UInt64
  | register r => r.value ρ
  | numeral k => k.value

/-- What stands between two `*`. -/
structure Sum where
  head : Atom
  tail : List (Sign × Atom)

namespace Sum

def text (s : Sum) : Text := s.head.text ++ signedText Atom.text s.tail

def value (ρ : Sym → UInt64) (s : Sum) : UInt64 :=
  signedValue (Atom.value ρ) (s.head.value ρ) s.tail

/-- One more atom. -/
def snoc (s : Sum) (sign : Sign) (a : Atom) : Sum := ⟨s.head, s.tail ++ [(sign, a)]⟩

@[simp] theorem text_single (a : Atom) : (⟨a, []⟩ : Sum).text = a.text := by
  simp [text, signedText]

@[simp] theorem text_snoc (s : Sum) (sign : Sign) (a : Atom) :
    (s.snoc sign a).text = s.text ++ sign.char :: a.text := by
  simp [text, snoc, signedText]

@[simp] theorem value_snoc (ρ : Sym → UInt64) (s : Sum) (sign : Sign) (a : Atom) :
    (s.snoc sign a).value ρ = sign.apply (s.value ρ) (a.value ρ) := by
  simp [value, snoc, signedValue]

end Sum

/-- A product of sums. -/
structure Product where
  head : Sum
  tail : List Sum

namespace Product

def text (p : Product) : Text := p.head.text ++ p.tail.flatMap fun s => '*' :: s.text

def value (ρ : Sym → UInt64) (p : Product) : UInt64 :=
  p.tail.foldl (fun v s => v * s.value ρ) (p.head.value ρ)

/-- One more sum in front. -/
def cons (s : Sum) (p : Product) : Product := ⟨s, p.head :: p.tail⟩

@[simp] theorem text_single (s : Sum) : (⟨s, []⟩ : Product).text = s.text := by
  simp [text]

theorem text_snoc (s : Sum) (init : List Sum) (last : Sum) :
    (⟨s, init ++ [last]⟩ : Product).text = (⟨s, init⟩ : Product).text ++ '*' :: last.text := by
  simp [text]

theorem value_snoc (ρ : Sym → UInt64) (s : Sum) (init : List Sum) (last : Sum) :
    (⟨s, init ++ [last]⟩ : Product).value ρ = (⟨s, init⟩ : Product).value ρ * last.value ρ := by
  simp [value]

@[simp] theorem text_cons (s : Sum) (p : Product) :
    (cons s p).text = s.text ++ '*' :: p.text := by
  simp [text, cons]

end Product

/-- The sums between the `*`, when the text starts with a sum. -/
def factorsFrom (current : Sum) : List (Sign × Term) → Product
  | [] => ⟨current, []⟩
  | (sign, .register r) :: rest => factorsFrom (current.snoc sign (.register r)) rest
  | (sign, .number n) :: rest => factorsFrom (current.snoc sign (.numeral (.number n))) rest
  | (sign, .scaled r k) :: rest =>
      .cons (current.snoc sign (.register r)) (factorsFrom ⟨.numeral k, []⟩ rest)

/-- The sums between the `*` of an expression. -/
def AddressExpr.factors (e : AddressExpr) : Product :=
  match e.head with
  | .register r => factorsFrom ⟨.register r, []⟩ e.tail
  | .number n => factorsFrom ⟨.numeral (.number n), []⟩ e.tail
  | .scaled r k => .cons ⟨.register r, []⟩ (factorsFrom ⟨.numeral k, []⟩ e.tail)

theorem factorsFrom_text (current : Sum) (tail : List (Sign × Term)) :
    (factorsFrom current tail).text = current.text ++ signedText Term.text tail := by
  induction tail generalizing current with
  | nil => simp [factorsFrom, Product.text, signedText]
  | cons x rest ih =>
      obtain ⟨sign, term⟩ := x
      cases term with
      | register r => simp [factorsFrom, ih, signedText, Term.text, Atom.text]
      | number n => simp [factorsFrom, ih, signedText, Term.text, Atom.text, Scale.text]
      | scaled r k =>
          simp [factorsFrom, ih, signedText, Term.text, Atom.text]

theorem factors_text (e : AddressExpr) : e.factors.text = e.text := by
  obtain ⟨head, tail⟩ := e
  cases head with
  | register r => simp [AddressExpr.factors, factorsFrom_text, AddressExpr.text, Term.text, Atom.text]
  | number n =>
      simp [AddressExpr.factors, factorsFrom_text, AddressExpr.text, Term.text, Atom.text, Scale.text]
  | scaled r k =>
      simp [AddressExpr.factors, factorsFrom_text, AddressExpr.text, Term.text, Atom.text]

/-! ## The characters of a text -/

theorem HexNumber.text_isWord (n : HexNumber) : ∀ c ∈ n.text, isWordChar c = true := by
  intro c hc
  rcases List.mem_cons.mp hc with rfl | hc
  · rfl
  · rcases List.mem_cons.mp hc with rfl | hc
    · rfl
    · exact isWordChar_of_isHexDigit (n.hex c hc)

theorem Atom.text_isWord (a : Atom) : ∀ c ∈ a.text, isWordChar c = true := by
  cases a with
  | register r => exact (registers_isWord r.row r.known).2
  | numeral k =>
      cases k with
      | digit d h =>
          intro c hc
          rw [List.mem_singleton.mp hc]
          simp [isWordChar, Char.isAlphanum, h]
      | number n => exact n.text_isWord

theorem Atom.text_ne_nil (a : Atom) : a.text ≠ [] := by
  cases a with
  | register r => exact (registers_isWord r.row r.known).1
  | numeral k =>
      cases k with
      | digit d h => exact List.cons_ne_nil _ _
      | number n => exact List.cons_ne_nil _ _

/-- The characters of a sum. -/
def isSumChar (c : Char) : Bool := isWordChar c || (c = '+' || c = '-')

/-- The characters of a product. -/
def isProductChar (c : Char) : Bool := isSumChar c || c = '*'

theorem Sum.text_chars (s : Sum) : ∀ c ∈ s.text, isSumChar c = true := by
  intro c hc
  rcases List.mem_append.mp hc with hc | hc
  · simp [isSumChar, s.head.text_isWord c hc]
  · obtain ⟨⟨sign, a⟩, _, hc⟩ := List.mem_flatMap.mp hc
    rcases List.mem_cons.mp hc with rfl | hc
    · cases sign <;> rfl
    · simp [isSumChar, a.text_isWord c hc]

theorem Sum.text_ne_nil (s : Sum) : s.text ≠ [] :=
  List.append_ne_nil_of_left_ne_nil s.head.text_ne_nil _

theorem Product.text_chars (p : Product) : ∀ c ∈ p.text, isProductChar c = true := by
  intro c hc
  rcases List.mem_append.mp hc with hc | hc
  · simp [isProductChar, p.head.text_chars c hc]
  · obtain ⟨s, _, hc⟩ := List.mem_flatMap.mp hc
    rcases List.mem_cons.mp hc with rfl | hc
    · rfl
    · simp [isProductChar, s.text_chars c hc]

theorem Product.text_ne_nil (p : Product) : p.text ≠ [] :=
  List.append_ne_nil_of_left_ne_nil p.head.text_ne_nil _

/-! ## What the patterns refuse -/

/-- The characters of a number are those of words. -/
theorem isWord_of_lang_number {expr : Text} (h : number.Lang expr) :
    ∀ c ∈ expr, isWordChar c = true := by
  obtain ⟨u, v, rfl, hu, hv⟩ := h
  intro c hc
  rcases List.mem_append.mp hc with hc | hc
  · rcases hu with ⟨x, zeros, rfl, hx, hz⟩ | rfl
    · rcases List.mem_append.mp hc with hc | hc
      · rw [Regex.lang_str.mp hx] at hc
        exact List.all_eq_true.mp (by decide : "0x".toList.all isWordChar = true) c hc
      · rw [of_decide_eq_true (hz c hc)]
        rfl
    · cases hc
  · exact isWordChar_of_isHexDigit ((Regex.lang_plus.mp hv).2 c hc)

theorem number_none {expr : Text} {c : Char} (hc : c ∈ expr) (hw : isWordChar c = false) :
    number.fullMatch expr = none := by
  refine Regex.fullMatch_eq_none.mpr fun h => ?_
  have := isWord_of_lang_number h c hc
  rw [hw] at this
  cases this

theorem findRegister_none {expr : Text} {c : Char} (hc : c ∈ expr) (hw : isWordChar c = false) :
    findRegister expr = none := by
  refine findRegister_eq_none fun r hr he => ?_
  have := (registers_isWord r hr).2 c (he ▸ hc)
  rw [hw] at this
  cases this

theorem dereference_none {expr : Text} (h : ∀ c ∈ expr, isProductChar c = true) :
    dereference.fullMatch expr = none := by
  refine Regex.fullMatch_eq_none.mpr ?_
  rintro ⟨u, v, rfl, hu, w, x, rfl, hw, hx⟩
  rw [Regex.lang_str.mp hw] at h
  have := h ' ' (by simp)
  revert this
  decide

/-! ## The value of a tree -/

section Values

variable {ρ : Sym → UInt64}

theorem findFunction_nil (expr : Text) : findFunction .nil expr = none := by
  unfold findFunction
  cases address.fullMatch expr <;> rfl

/-- A numeral stands for its number. -/
theorem treeValue_numeral {expr : Text} (hr : findRegister expr = none) (hn : number.Lang expr) :
    treeValue ρ expr = some (numeralValue expr) := by
  obtain ⟨c, hc, h1⟩ : ∃ c, number.fullMatch expr = some c ∧ c 1 = expr := Regex.fullMatch_group hn
  rw [treeValue, handleExpression_number (findFunction_nil expr) hr hc, h1]
  rfl

theorem findRegister_digit {d : Char} (hd : d.isDigit = true) (rest : Text) :
    findRegister (d :: rest) = none := by
  have hletter : ∀ r ∈ registers, r.1.head?.any Char.isDigit = false := by decide +kernel
  refine findRegister_eq_none fun r hr he => ?_
  have := hletter r hr
  rw [he, List.head?_cons, Option.any_some, hd] at this
  cases this

theorem HexNumber.treeValue (n : HexNumber) : treeValue ρ n.text = some n.value := by
  refine treeValue_numeral (findRegister_digit rfl _) ?_
  exact ⟨"0x".toList, n.digits, rfl,
    Or.inl ⟨"0x".toList, [], rfl, Regex.lang_str.mpr rfl, fun c hc => absurd hc List.not_mem_nil⟩,
    Regex.lang_plus.mpr ⟨n.nonempty, n.hex⟩⟩

theorem Scale.treeValue (k : Scale) : treeValue ρ k.text = some k.value := by
  cases k with
  | number n => exact n.treeValue
  | digit d h =>
      have hd : isHexDigit d = true := by simp [isHexDigit, isLowerHex, h]
      refine (treeValue_numeral (findRegister_digit h []) ?_).trans ?_
      · exact ⟨[], [d], rfl, Or.inr rfl, Regex.lang_plus.mpr ⟨List.cons_ne_nil _ _, by simpa using hd⟩⟩
      · simp [numeralValue, dropHexPrefix, hexValue, value]

theorem treeValue_atom (a : Atom) : treeValue ρ a.text = some (a.value ρ) := by
  cases a with
  | numeral k => exact k.treeValue
  | register r =>
      show Option.map (Sym.eval ρ) (handleExpression .nil r.row.1) = _
      rw [handleExpression_register (findFunction_nil _) (findRegister_of_mem r.known)]
      rfl

theorem isDot_of_isProductChar {c : Char} (h : isProductChar c = true) : isDot c = true := by
  by_contra hd
  have hc : c = '\n' ∨ c = '\r' := by
    simp only [isDot, Bool.and_eq_true, decide_eq_true_eq, not_and_or, not_not] at hd
    exact hd
  rcases hc with rfl | rfl
  · revert h; decide
  · revert h; decide

/-- The tree of an operation is the operation of the trees. -/
theorem treeValue_operation {expr l r op : Text} {x y : UInt64}
    (he : handleExpression .nil expr =
      createOperation (handleExpression .nil l) op (handleExpression .nil r))
    (hx : treeValue ρ l = some x) (hy : treeValue ρ r = some y) :
    treeValue ρ expr = some (applyOp op x y) := by
  obtain ⟨lhs, hl, rfl⟩ := Option.map_eq_some_iff.mp hx
  obtain ⟨rhs, hr, rfl⟩ := Option.map_eq_some_iff.mp hy
  rw [treeValue, he, hl, hr]
  rfl

/-- A text is cut at its last `*`. -/
theorem treeValue_mul {l r : Text} {x y : UInt64} (hl : l ≠ [])
    (hlc : ∀ c ∈ l, isProductChar c = true) (hr : r ≠ []) (hrc : ∀ c ∈ r, isSumChar c = true)
    (hx : treeValue ρ l = some x) (hy : treeValue ρ r = some y) :
    treeValue ρ (l ++ '*' :: r) = some (x * y) := by
  have hrp : ∀ c ∈ r, isProductChar c = true := fun c hc => by simp [isProductChar, hrc c hc]
  have hall := List.forall_mem_append.mpr ⟨hlc, List.forall_mem_cons.mpr
    ⟨(by decide : isProductChar '*' = true), hrp⟩⟩
  have hstar : ∀ c ∈ r, decide (c = '*') = false := by
    intro c hc
    refine decide_eq_false ?_
    rintro rfl
    exact absurd (hrc _ hc) (by decide)
  have hop : '*' ∈ l ++ '*' :: r := List.mem_append_right _ (List.mem_cons_self ..)
  obtain ⟨c, hc, h1, h2, h3⟩ := Regex.fullMatch_binary_last (o := '*') hl
    (fun c hc => isDot_of_isProductChar (hlc c hc)) rfl hr
    (fun c hc => isDot_of_isProductChar (hrp c hc)) hstar
  show treeValue ρ (l ++ '*' :: r) = some (applyOp ['*'] x y)
  refine treeValue_operation (l := l) (r := r) ?_ hx hy
  rw [handleExpression_multiplication (findFunction_nil _) (findRegister_none hop rfl)
    (number_none hop rfl) (dereference_none hall) hc, h1, h2, h3]

/-- A text without `*` is cut at its last sign. -/
theorem treeValue_sign {l r : Text} {x y : UInt64} (sign : Sign) (hl : l ≠ [])
    (hlc : ∀ c ∈ l, isSumChar c = true) (hr : r ≠ []) (hrc : ∀ c ∈ r, isWordChar c = true)
    (hx : treeValue ρ l = some x) (hy : treeValue ρ r = some y) :
    treeValue ρ (l ++ sign.char :: r) = some (sign.apply x y) := by
  have hrs : ∀ c ∈ r, isSumChar c = true := fun c hc => by simp [isSumChar, hrc c hc]
  have hchar : isSumChar sign.char = true ∧ isWordChar sign.char = false ∧
      (decide (sign.char = '+') || decide (sign.char = '-')) = true := by
    cases sign <;> decide
  have hsum := List.forall_mem_append.mpr ⟨hlc, List.forall_mem_cons.mpr ⟨hchar.1, hrs⟩⟩
  have hall : ∀ c ∈ l ++ sign.char :: r, isProductChar c = true :=
    fun c hc => by simp [isProductChar, hsum c hc]
  have hstar : ∀ c ∈ l ++ sign.char :: r, decide (c = '*') = false := by
    intro c hc
    refine decide_eq_false ?_
    rintro rfl
    exact absurd (hsum _ hc) (by decide)
  have hsign : ∀ c ∈ r, (decide (c = '+') || decide (c = '-')) = false := by
    intro c hc
    refine Bool.eq_false_iff.mpr fun h => ?_
    have hw := hrc c hc
    rcases Bool.or_eq_true .. ▸ h with h | h
    · rw [of_decide_eq_true h] at hw; cases hw
    · rw [of_decide_eq_true h] at hw; cases hw
  have hop : sign.char ∈ l ++ sign.char :: r := List.mem_append_right _ (List.mem_cons_self ..)
  obtain ⟨c, hc, h1, h2, h3⟩ := Regex.fullMatch_binary_last (p := fun c => c = '+' || c = '-') hl
    (fun c hc => isDot_of_isProductChar (hall c (List.mem_append_left _ hc))) hchar.2.2 hr
    (fun c hc => isDot_of_isProductChar (hall c (List.mem_append_right _ (List.mem_cons_of_mem _ hc))))
    hsign
  have happly : sign.apply x y = applyOp [sign.char] x y := by cases sign <;> rfl
  rw [happly]
  refine treeValue_operation (l := l) (r := r) ?_ hx hy
  rw [handleExpression_addOrSubstract (findFunction_nil _) (findRegister_none hop hchar.2.1)
    (number_none hop hchar.2.1) (dereference_none hall) (Regex.fullMatch_binary_none hstar) hc,
    h1, h2, h3]

theorem treeValue_sum (s : Sum) : treeValue ρ s.text = some (s.value ρ) := by
  obtain ⟨head, tail⟩ := s
  induction tail using List.reverseRecOn with
  | nil => rw [Sum.text_single]; exact treeValue_atom head
  | append_singleton init last ih =>
      obtain ⟨sign, a⟩ := last
      show treeValue ρ (Sum.snoc ⟨head, init⟩ sign a).text =
        some ((Sum.snoc ⟨head, init⟩ sign a).value ρ)
      rw [Sum.text_snoc, Sum.value_snoc]
      exact treeValue_sign sign (Sum.text_ne_nil _) (Sum.text_chars _) a.text_ne_nil a.text_isWord
        ih (treeValue_atom a)

theorem treeValue_product (p : Product) : treeValue ρ p.text = some (p.value ρ) := by
  obtain ⟨head, tail⟩ := p
  induction tail using List.reverseRecOn with
  | nil => rw [Product.text_single]; exact treeValue_sum head
  | append_singleton init last ih =>
      rw [Product.text_snoc, Product.value_snoc]
      exact treeValue_mul (Product.text_ne_nil _) (Product.text_chars _) last.text_ne_nil
        last.text_chars ih (treeValue_sum last)

/-- **The tree of an expression is the product of the sums between its `*`.** -/
theorem treeValue_text (e : AddressExpr) : treeValue ρ e.text = some (e.factors.value ρ) := by
  rw [← factors_text]
  exact treeValue_product _

end Values

/-! ## The shapes whose meaning is kept -/

/-- The kinds of terms. -/
inductive Kind where
  | register | number | scaled
deriving DecidableEq

/-- The kind of a term. -/
def Term.kind : Term → Kind
  | register _ => .register
  | number _ => .number
  | scaled _ _ => .scaled

/-- The kinds of the terms of an expression, and its signs. -/
structure Shape where
  head : Kind
  tail : List (Sign × Kind)
deriving DecidableEq

/-- The shape of an expression. -/
def AddressExpr.shape (e : AddressExpr) : Shape :=
  ⟨e.head.kind, e.tail.map fun x => (x.1, x.2.kind)⟩

/-- The tree of an expression has its usual value, whatever the registers hold. -/
def KeepsMeaning (e : AddressExpr) : Prop := ∀ ρ, treeValue ρ e.text = some (e.value ρ)

theorem keepsMeaning_def {e : AddressExpr} :
    KeepsMeaning e ↔ ∀ ρ, e.factors.value ρ = e.value ρ := by
  simp only [KeepsMeaning, treeValue_text, Option.some.injEq]

/-- Terms that are not scaled join the sum in front of them. -/
theorem factorsFrom_unscaled {init : List (Sign × Term)} (h : ∀ x ∈ init, x.2.kind ≠ .scaled)
    (rest : List (Sign × Term)) (current : Sum) :
    ∃ joined : Sum, factorsFrom current (init ++ rest) = factorsFrom joined rest ∧
      ∀ ρ, joined.value ρ = signedValue (Term.value ρ) (current.value ρ) init := by
  induction init generalizing current with
  | nil => exact ⟨current, rfl, fun _ => rfl⟩
  | cons x init ih =>
      obtain ⟨sign, term⟩ := x
      have hinit := fun y hy => h y (List.mem_cons_of_mem _ hy)
      cases term with
      | register r =>
          obtain ⟨joined, he, hv⟩ := ih hinit (current.snoc sign (.register r))
          exact ⟨joined, he, fun ρ => by rw [hv, Sum.value_snoc]; rfl⟩
      | number n =>
          obtain ⟨joined, he, hv⟩ := ih hinit (current.snoc sign (.numeral (.number n)))
          exact ⟨joined, he, fun ρ => by rw [hv, Sum.value_snoc]; rfl⟩
      | scaled r k => exact absurd rfl (h _ (List.mem_cons_self ..))

theorem keepsMeaning_single {e : AddressExpr} (h : e.tail = []) : KeepsMeaning e := by
  obtain ⟨head, tail⟩ := e
  subst h
  refine keepsMeaning_def.mpr fun ρ => ?_
  cases head <;> rfl

theorem keepsMeaning_unscaled {e : AddressExpr} (hh : e.head.kind ≠ .scaled)
    (ht : ∀ x ∈ e.tail, x.2.kind ≠ .scaled) : KeepsMeaning e := by
  obtain ⟨head, tail⟩ := e
  have key : ∀ (a : Atom) (ρ : Sym → UInt64), (factorsFrom ⟨a, []⟩ tail).value ρ =
      signedValue (Term.value ρ) (a.value ρ) tail := by
    intro a ρ
    obtain ⟨joined, he, hv⟩ := factorsFrom_unscaled ht [] ⟨a, []⟩
    rw [List.append_nil] at he
    rw [he]
    exact hv ρ
  refine keepsMeaning_def.mpr fun ρ => ?_
  cases head with
  | register r => exact key (.register r) ρ
  | number n => exact key (.numeral (.number n)) ρ
  | scaled r k => exact absurd rfl hh

/-! ## Texts that lose their meaning -/

/-- A term of a kind. -/
def Kind.term (r : RegisterName) (n : HexNumber) (k : Scale) : Kind → Term
  | register => .register r
  | number => .number n
  | scaled => .scaled r k

theorem Kind.kind_term (r : RegisterName) (n : HexNumber) (k : Scale) (kind : Kind) :
    (kind.term r n k).kind = kind := by
  cases kind <;> rfl

def rax : RegisterName :=
  ⟨("rax".toList, .qword), by decide +kernel, 'r', by decide, by decide⟩

def rbx : RegisterName :=
  ⟨("rbx".toList, .qword), by decide +kernel, 'r', by decide, by decide⟩

/-- One register holds one, and the others zero. -/
def oneInRax (sym : Sym) : UInt64 := if sym = registerOf rax.row then 1 else 0

/-- A term that is one. -/
def Kind.one : Kind → Term :=
  Kind.term rax ⟨['1'], by decide, List.all_eq_true.mp rfl⟩ (.digit '1' rfl)

/-- A term that is zero. -/
def Kind.zero : Kind → Term :=
  Kind.term rbx ⟨['0'], by decide, List.all_eq_true.mp rfl⟩ (.digit '2' rfl)

theorem Kind.value_one (kind : Kind) : kind.one.value oneInRax = 1 := by
  cases kind <;> decide +kernel

theorem Kind.value_zero (kind : Kind) : kind.zero.value oneInRax = 0 := by
  cases kind <;> decide +kernel

theorem value_rbx : (Atom.register rbx).value oneInRax = 0 := by decide +kernel

/-- Terms that are zero. -/
def zeros (l : List (Sign × Kind)) : List (Sign × Term) := l.map fun x => (x.1, x.2.zero)

theorem Sign.apply_zero (sign : Sign) (v : UInt64) : sign.apply v 0 = v := by
  cases sign with
  | plus => exact UInt64.add_zero v
  | minus => exact UInt64.sub_zero v

theorem signedValue_zeros (v : UInt64) (l : List (Sign × Kind)) :
    signedValue (Term.value oneInRax) v (zeros l) = v := by
  induction l generalizing v with
  | nil => rfl
  | cons x l ih =>
      show signedValue (Term.value oneInRax) (x.1.apply v (x.2.zero.value oneInRax)) (zeros l) = v
      rw [ih, Kind.value_zero, Sign.apply_zero]

theorem Product.value_cons_zero {ρ : Sym → UInt64} {s : Sum} (hs : s.value ρ = 0) (p : Product) :
    (Product.cons s p).value ρ = 0 := by
  have hfold : ∀ l : List Sum, l.foldl (fun v t => v * t.value ρ) 0 = 0 := by
    intro l
    induction l with
    | nil => rfl
    | cons t l ih => rw [List.foldl_cons, UInt64.zero_mul, ih]
  show List.foldl _ (s.value ρ) (p.head :: p.tail) = 0
  rw [hs]
  exact hfold _

/-- A sum of zeros is a factor, when a scaled term ends it. -/
theorem factorsFrom_zeros {l : List (Sign × Kind)} (h : ∃ x ∈ l, x.2 = .scaled)
    (rest : List (Sign × Term)) {current : Sum} (hc : current.value oneInRax = 0) :
    (factorsFrom current (zeros l ++ rest)).value oneInRax = 0 := by
  induction l generalizing current with
  | nil => obtain ⟨_, hx, _⟩ := h; cases hx
  | cons x l ih =>
      obtain ⟨sign, kind⟩ := x
      have hvalue : ∀ a : Atom, a.value oneInRax = 0 → (current.snoc sign a).value oneInRax = 0 := by
        intro a ha
        rw [Sum.value_snoc, hc, ha, Sign.apply_zero]
      have hrest : kind ≠ .scaled → ∃ x ∈ l, x.2 = .scaled := by
        intro hk
        obtain ⟨x, hx, he⟩ := h
        rcases List.mem_cons.mp hx with rfl | hx
        · exact absurd he hk
        · exact ⟨x, hx, he⟩
      cases kind with
      | register => exact ih (hrest (by decide)) (hvalue _ value_rbx)
      | number => exact ih (hrest (by decide)) (hvalue _ (by decide +kernel))
      | scaled => exact Product.value_cons_zero (hvalue _ value_rbx) _

/-- The last term of an expression is not the only one that counts. -/
theorem scaled_before_last {head : Kind} {init : List (Sign × Kind)}
    (h : head = .scaled ∨ ∃ x ∈ init, x.2 = .scaled) (sign : Sign) (last : Kind) :
    ¬KeepsMeaning ⟨head.zero, zeros init ++ [(sign, last.one)]⟩ := by
  intro hk
  have hvalue := keepsMeaning_def.mp hk oneInRax
  have husual : AddressExpr.value oneInRax ⟨head.zero, zeros init ++ [(sign, last.one)]⟩ =
      sign.apply 0 1 := by
    show signedValue (Term.value oneInRax) (head.zero.value oneInRax) (zeros init ++ _) = _
    rw [signedValue, List.foldl_append]
    show sign.apply (signedValue _ _ (zeros init)) (last.one.value oneInRax) = _
    rw [signedValue_zeros, Kind.value_zero, Kind.value_one]
  have htree : (AddressExpr.factors ⟨head.zero, zeros init ++ [(sign, last.one)]⟩).value oneInRax =
      0 := by
    cases head with
    | register => exact factorsFrom_zeros (h.resolve_left (by decide)) _ (by decide +kernel)
    | number => exact factorsFrom_zeros (h.resolve_left (by decide)) _ (by decide +kernel)
    | scaled => exact Product.value_cons_zero (by decide +kernel) _
  rw [husual, htree] at hvalue
  cases sign <;> revert hvalue <;> decide

/-- A scaled last term multiplies what stands before it. -/
theorem scaled_last {head : Kind} {init : List (Sign × Kind)} (hh : head ≠ .scaled)
    (hi : ∀ x ∈ init, x.2 ≠ .scaled) (sign : Sign) :
    ¬KeepsMeaning ⟨head.one, zeros init ++ [(sign, Kind.scaled.zero)]⟩ := by
  intro hk
  have hvalue := keepsMeaning_def.mp hk oneInRax
  have husual : AddressExpr.value oneInRax
      ⟨head.one, zeros init ++ [(sign, Kind.scaled.zero)]⟩ = 1 := by
    show signedValue (Term.value oneInRax) (head.one.value oneInRax) (zeros init ++ _) = _
    rw [signedValue, List.foldl_append]
    show sign.apply (signedValue _ _ (zeros init)) (Kind.scaled.zero.value oneInRax) = _
    rw [signedValue_zeros, Kind.value_one, Kind.value_zero, Sign.apply_zero]
  have hzeros : ∀ x ∈ zeros init, x.2.kind ≠ .scaled := by
    intro x hx
    obtain ⟨y, hy, rfl⟩ := List.mem_map.mp hx
    exact Kind.kind_term .. ▸ hi y hy
  have key : ∀ current : Sum, current.value oneInRax = 1 →
      (factorsFrom current (zeros init ++ [(sign, Kind.scaled.zero)])).value oneInRax = 2 := by
    intro current hc
    obtain ⟨joined, he, hv⟩ :=
      factorsFrom_unscaled hzeros [(sign, Kind.scaled.zero)] current
    rw [he]
    show (joined.snoc sign (.register rbx)).value oneInRax * (2 : UInt64) = 2
    rw [Sum.value_snoc, hv, hc, signedValue_zeros, value_rbx, Sign.apply_zero]
    decide
  have htree : (AddressExpr.factors
      ⟨head.one, zeros init ++ [(sign, Kind.scaled.zero)]⟩).value oneInRax = 2 := by
    cases head with
    | register => exact key _ (by decide +kernel)
    | number => exact key _ (by decide +kernel)
    | scaled => exact absurd rfl hh
  rw [husual, htree] at hvalue
  exact absurd hvalue (by decide)

/-- **The expressions of a shape keep their meaning exactly when it has one term, or no scaled
term.** -/
theorem keepsMeaning_iff (σ : Shape) :
    (∀ e : AddressExpr, e.shape = σ → KeepsMeaning e) ↔
      σ.tail = [] ∨ (σ.head ≠ .scaled ∧ ∀ x ∈ σ.tail, x.2 ≠ .scaled) := by
  obtain ⟨head, tail⟩ := σ
  refine ⟨fun hall => ?_, fun hσ e he => ?_⟩
  · rcases List.eq_nil_or_concat' tail with rfl | ⟨init, ⟨sign, last⟩, rfl⟩
    · exact Or.inl rfl
    refine Or.inr (of_not_not fun hscaled => ?_)
    by_cases hb : head = .scaled ∨ ∃ x ∈ init, x.2 = .scaled
    · refine scaled_before_last hb sign last (hall _ ?_)
      simp [AddressExpr.shape, zeros, Kind.zero, Kind.one, Kind.kind_term, Function.comp_def]
    · obtain ⟨hh, hi⟩ := not_or.mp hb
      have hi' : ∀ x ∈ init, x.2 ≠ .scaled := fun x hx he => hi ⟨x, hx, he⟩
      have hlast : last = .scaled := by
        refine of_not_not fun hl => hscaled ⟨hh, fun x hx => ?_⟩
        rcases List.mem_append.mp hx with hx | hx
        · exact hi' x hx
        · rw [List.mem_singleton.mp hx]; exact hl
      subst hlast
      refine scaled_last hh hi' sign (hall _ ?_)
      simp [AddressExpr.shape, zeros, Kind.zero, Kind.one, Kind.kind_term, Function.comp_def]
  · obtain ⟨rfl, rfl⟩ := Shape.mk.injEq .. ▸ he
    rcases hσ with hnil | ⟨hh, ht⟩
    · exact keepsMeaning_single (List.map_eq_nil_iff.mp hnil)
    · exact keepsMeaning_unscaled hh fun x hx => ht _ (List.mem_map_of_mem hx)

/-- `eax*0x8+0x666`. -/
def scaledPlus : AddressExpr where
  head := .scaled ⟨("eax".toList, .dword), by decide +kernel, 'x', by decide, by decide⟩
    (.number ⟨['8'], by decide, List.all_eq_true.mp rfl⟩)
  tail := [(.plus, .number ⟨['6', '6', '6'], by decide, List.all_eq_true.mp rfl⟩)]

/-- A displacement behind a scaled register is added to the scale. -/
theorem scaledPlus_loses_meaning :
    scaledPlus.text = "eax*0x8+0x666".toList ∧ ¬KeepsMeaning scaledPlus := by
  refine ⟨by decide, fun h => ?_⟩
  exact absurd (h fun _ => 0) (by decide +kernel)

end Befa
