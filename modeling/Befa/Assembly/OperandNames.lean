import Befa.Assembly.AddressTable
import Befa.Assembly.InstructionText
import Befa.Assembly.OwnBytes
import Befa.Lib.Parens

/-!
# The names of operands

`Parses` says which symbols an operand can become.  It has one constructor for each way
`handleExpression` returns, so what holds of the symbols of operands is proved by induction on it.

A symbol is printed by its name, and the names of compound symbols are put together from those of
their parts.  `Parts` are the parts of one name, and a name has one reading as parts
(`Parts.text_inj`).  So a name tells the whole symbol, up to what it does not show
(`Sym.Readable.spelled_inj`).
-/

namespace Befa

open Parens

/-! ## What an operand becomes -/

/-- The symbol of an operand. -/
inductive Parses (functions : SymMap) : Text → Sym → Prop where
  | function {expr : Text} {e : Vma × Sym} : e ∈ functions.items → Parses functions expr e.2
  | register {r : Text × Size} : r ∈ registers → Parses functions r.1 (registerOf r)
  | immidiate {expr : Text} : number.Lang expr → Parses functions expr (.immidiate expr)
  | dereference {before inner : Text} {size : Size} {sub : Sym} : Parses functions inner sub →
      Parses functions (before ++ (inner ++ "]".toList)) (.sizedTemporary size "*".toList sub)
  | operation {l r : Text} {op : Char} {lhs rhs : Sym} : l ≠ [] → op = '*' ∨ op = '+' ∨ op = '-' →
      Parses functions l lhs → Parses functions r rhs →
      Parses functions (l ++ op :: r) (.temporary lhs [op] rhs)
  | symbol {expr : Text} : ¬number.Lang expr → Parses functions expr (.symbol expr nonAddress)

theorem createOperation_eq_some {lhs rhs : SymPtr} {op : Text} {sym : Sym}
    (h : createOperation lhs op rhs = some sym) :
    ∃ l r, lhs = some l ∧ rhs = some r ∧ sym = .temporary l op r := by
  cases lhs with
  | none => cases h
  | some l =>
      cases rhs with
      | none => cases h
      | some r => exact ⟨l, r, rfl, rfl, (Option.some.inj h).symm⟩

theorem Parses.ofHandleExpression {functions : SymMap} {expr : Text} {sym : Sym}
    (h : handleExpression functions expr = some sym) : Parses functions expr sym := by
  induction expr using handleExpression.induct functions generalizing sym with
  | case1 expr function hf =>
      rw [handleExpression_function hf] at h
      obtain rfl := Option.some.inj h
      rw [findFunction] at hf
      split at hf
      · cases hf
      · obtain ⟨e, hfind, rfl⟩ := Option.map_eq_some_iff.mp hf
        exact .function (Keyed.mem_of_find? hfind)
  | case2 expr hf register hr =>
      rw [handleExpression_register hf hr] at h
      obtain rfl := Option.some.inj h
      obtain ⟨r, hfind, rfl⟩ := Option.map_eq_some_iff.mp hr
      have hname : r.1 = expr := by simpa using List.find?_some hfind
      exact hname ▸ .register (List.mem_of_find?_eq_some hfind)
  | case3 expr hf hr result hn =>
      rw [handleExpression_number hf hr hn] at h
      obtain rfl := Option.some.inj h
      have hlang : number.Lang expr := Regex.fullMatch_isSome.mp (hn ▸ rfl)
      obtain ⟨c, hc, htext⟩ : ∃ c, number.fullMatch expr = some c ∧ c 1 = expr :=
        Regex.fullMatch_group hlang
      rw [Option.some.inj (hn.symm.trans hc), htext]
      exact .immidiate hlang
  | case4 expr hf hr hn result hd ih =>
      rw [handleExpression_dereference hf hr hn hd] at h
      obtain ⟨size, -, h⟩ := Option.bind_eq_some_iff.mp h
      obtain ⟨sub, hsub, rfl⟩ := Option.map_eq_some_iff.mp h
      obtain ⟨-, -, seg, -, hs⟩ := fullMatch_dereference_spec hd
      rw [← List.append_assoc, ← List.append_assoc, ← List.append_assoc] at hs
      exact hs ▸ .dereference (ih hsub)
  | case5 expr hf hr hn hd result hm ihl ihr =>
      rw [handleExpression_multiplication hf hr hn hd hm] at h
      obtain ⟨lhs, rhs, hl, hr, rfl⟩ := createOperation_eq_some h
      obtain ⟨op, hop, htext, hs, hne, -⟩ := Regex.fullMatch_binary_spec hm
      rw [hs, htext]
      exact .operation hne (Or.inl (of_decide_eq_true hop)) (ihl hl) (ihr hr)
  | case6 expr hf hr hn hd hm result ha ihl ihr =>
      rw [handleExpression_addOrSubstract hf hr hn hd hm ha] at h
      obtain ⟨lhs, rhs, hl, hr, rfl⟩ := createOperation_eq_some h
      obtain ⟨op, hop, htext, hs, hne, -⟩ := Regex.fullMatch_binary_spec ha
      rw [hs, htext]
      exact .operation hne (Or.inr (by simpa using hop)) (ihl hl) (ihr hr)
  | case7 expr hf hr hn hd hm ha =>
      rw [handleExpression_symbol hf hr hn hd hm ha] at h
      obtain rfl := Option.some.inj h
      exact .symbol (Regex.fullMatch_eq_none.mp hn)

/-! ## Parts of a name -/

/-- No parenthesis and no mark of a function. -/
def Unmarked (s : Text) : Prop := ∀ c ∈ s, c ≠ '(' ∧ c ≠ ')' ∧ c ≠ '@'

theorem Unmarked.balanced {s : Text} (h : Unmarked s) : Balanced '(' ')' s :=
  .of_forall fun c hc => ⟨(h c hc).1, (h c hc).2.1⟩

/-- What a name is put together from. -/
inductive Parts where
  /-- A text. -/
  | plain (s : Text)
  /-- The name of a function. -/
  | callee (name : Text)
  /-- A name with a size. -/
  | sized (size name : Text)
  /-- An operator between two names. -/
  | operation (lhs : Text) (op : Char) (rhs : Text)

/-- The name. -/
def Parts.text : Parts → Text
  | plain s => s
  | callee name => '@' :: name
  | sized size name => '(' :: (('(' :: (size ++ ')' :: name)) ++ [')'])
  | operation lhs op rhs => '(' :: (lhs ++ ')' :: ' ' :: op :: ' ' :: '(' :: (rhs ++ [')']))

/-- The parts keep their parentheses to themselves. -/
def Parts.Closed : Parts → Prop
  | plain s => Unmarked s
  | callee name => Balanced '(' ')' name
  | sized size name => Balanced '(' ')' size ∧ Balanced '(' ')' name
  | operation lhs op rhs => Balanced '(' ')' lhs ∧ (op ≠ '(' ∧ op ≠ ')') ∧ Balanced '(' ')' rhs

theorem Parts.Closed.balanced {p : Parts} (h : p.Closed) : Balanced '(' ')' p.text := by
  cases p with
  | plain s => exact Unmarked.balanced h
  | callee name => exact .cons (by decide) (by decide) h
  | sized size name => exact (Balanced.paren h.1 h.2).wrap
  | operation lhs op rhs =>
      obtain ⟨hl, ⟨ho, hc⟩, hr⟩ := h
      exact .paren hl (.cons (by decide) (by decide)
        (.cons ho hc (.cons (by decide) (by decide) hr.wrap)))

/-- An unmarked text starts with no mark. -/
theorem Unmarked.ne_cons {s t : Text} (h : Unmarked s) {c : Char} (hc : c = '(' ∨ c = '@') :
    s ≠ c :: t := by
  rintro rfl
  obtain ⟨hopen, -, hat⟩ := h c (List.mem_cons_self ..)
  exact hc.elim hopen hat

/-- A size ends a name and an operator does not. -/
theorem sized_ne_operation {size name lhs rhs : Text} {op : Char}
    (hs : (Parts.sized size name).Closed) (ho : (Parts.operation lhs op rhs).Closed) :
    (Parts.sized size name).text ≠ (Parts.operation lhs op rhs).text := by
  intro h
  have hinner := append_close_inj (by decide) (Balanced.paren hs.1 hs.2) ho.1 (List.cons.inj h).2
  cases hinner.2

/-- **A name is put together in one way.** -/
theorem Parts.text_inj {p q : Parts} (hp : p.Closed) (hq : q.Closed) (h : p.text = q.text) :
    p = q := by
  have hne : '(' ≠ ')' := by decide
  cases p with
  | plain s =>
      cases q with
      | plain t => exact congrArg plain h
      | callee name => exact absurd h (hp.ne_cons (Or.inr rfl))
      | sized size name => exact absurd h (hp.ne_cons (Or.inl rfl))
      | operation lhs op rhs => exact absurd h (hp.ne_cons (Or.inl rfl))
  | callee name =>
      cases q with
      | plain t => exact absurd h.symm (hq.ne_cons (Or.inr rfl))
      | callee name' => exact congrArg callee (List.cons.inj h).2
      | sized size name => exact absurd (List.cons.inj h).1 (by decide)
      | operation lhs op rhs => exact absurd (List.cons.inj h).1 (by decide)
  | sized size name =>
      cases q with
      | plain t => exact absurd h.symm (hq.ne_cons (Or.inl rfl))
      | callee name => exact absurd (List.cons.inj h).1 (by decide)
      | sized size' name' =>
          have hinner := append_close_inj hne (Balanced.paren hp.1 hp.2)
            (Balanced.paren hq.1 hq.2) (List.cons.inj h).2
          obtain ⟨rfl, rfl⟩ := append_close_inj hne hp.1 hq.1 (List.cons.inj hinner.1).2
          rfl
      | operation lhs op rhs => exact absurd h (sized_ne_operation hp hq)
  | operation lhs op rhs =>
      cases q with
      | plain t => exact absurd h.symm (hq.ne_cons (Or.inl rfl))
      | callee name => exact absurd (List.cons.inj h).1 (by decide)
      | sized size name => exact absurd h.symm (sized_ne_operation hq hp)
      | operation lhs' op' rhs' =>
          obtain ⟨rfl, hrest⟩ := append_close_inj hne hp.1 hq.1 (List.cons.inj h).2
          simp only [List.cons.injEq, true_and] at hrest
          obtain ⟨rfl, hrest⟩ := hrest
          obtain ⟨rfl, -⟩ := append_close_inj hne hp.2.2 hq.2.2 hrest
          rfl

/-! ## The name of a symbol -/

/-- The parts of the name of the symbol of an operand. -/
def Sym.parts : Sym → Parts
  | symbol name _ => .plain name
  | temporary lhs op rhs => .operation lhs.getName (op.headD ' ') rhs.getName
  | unaryTemporary op rhs => .plain (op ++ rhs.getName)
  | sizedTemporary size op rhs => .sized size.name (fetchName rhs.getName op [])
  | namedTemporary _ temp => .plain temp
  | register size name => .sized size.name name
  | function callee _ => .callee callee
  | immidiate value => .plain value

/-- The symbol without what its name does not show: addresses, and the size of a temporary that was
given a name. -/
def Sym.spelled : Sym → Sym
  | symbol name _ => .symbol name nonAddress
  | namedTemporary _ temp => .symbol temp nonAddress
  | function callee _ => .function callee nonAddress
  | temporary lhs op rhs => .temporary lhs.spelled op rhs.spelled
  | sizedTemporary size op rhs => .sizedTemporary size op rhs.spelled
  | sym => sym

/-- A symbol whose name can be read. -/
inductive Sym.Readable : Sym → Prop where
  | symbol {name : Text} {address : Vma} : Unmarked name → ¬number.Lang name →
      Readable (.symbol name address)
  | named {size : Size} {temp : Text} : Unmarked temp → ¬number.Lang temp →
      Readable (.namedTemporary size temp)
  | immidiate {value : Text} : Unmarked value → number.Lang value → Readable (.immidiate value)
  | register {size : Size} {name : Text} : Unmarked name → Readable (.register size ('_' :: name))
  | function {callee : Text} {address : Vma} : Balanced '(' ')' callee →
      Readable (.function callee address)
  | dereference {size : Size} {sub : Sym} : Readable sub →
      Readable (.sizedTemporary size "*".toList sub)
  | operation {lhs rhs : Sym} {op : Char} : lhs.getName ≠ [] → op ≠ '(' ∧ op ≠ ')' →
      Readable lhs → Readable rhs → Readable (.temporary lhs [op] rhs)

theorem Size.balanced_name (size : Size) : Balanced '(' ')' size.name := by
  refine .of_forall ?_
  cases size <;> decide

theorem Size.name_inj {size size' : Size} (h : size.name = size'.name) : size = size' := by
  cases size <;> cases size' <;> first | rfl | exact absurd h (by decide)

/-- A word has no mark in it. -/
theorem unmarked_word {w : Text} (h : ∀ c ∈ w, isWordChar c = true) : Unmarked w := by
  refine fun c hc => ⟨?_, ?_, ?_⟩ <;>
  · rintro rfl
    exact absurd (h _ hc) (by decide)

theorem fetchName_dereference (sub : Text) :
    fetchName sub "*".toList [] = '*' :: '(' :: (sub ++ [')']) := rfl

theorem fetchName_operation {lhs : Text} (h : lhs ≠ []) (op : Char) (rhs : Text) :
    fetchName rhs [op] lhs = (Parts.operation lhs op rhs).text := by
  simp [fetchName, h, Parts.text]

namespace Sym.Readable

/-- The name is put together from its parts. -/
theorem parts {sym : Sym} (h : sym.Readable) :
    sym.parts.Closed ∧ sym.getName = sym.parts.text := by
  induction h with
  | symbol hu _ => exact ⟨hu, rfl⟩
  | named hu _ => exact ⟨hu, rfl⟩
  | immidiate hu _ => exact ⟨hu, rfl⟩
  | register hu =>
      refine ⟨⟨Size.balanced_name _, .cons (by decide) (by decide) hu.balanced⟩, ?_⟩
      simp [Sym.getName, sizedName, Sym.parts, Parts.text]
  | function hbal => exact ⟨hbal, rfl⟩
  | dereference _ ih =>
      obtain ⟨hclosed, hname⟩ := ih
      refine ⟨⟨Size.balanced_name _, ?_⟩, ?_⟩
      · rw [fetchName_dereference, hname]
        exact .cons (by decide) (by decide) hclosed.balanced.wrap
      · simp [Sym.getName, sizedName, Sym.parts, Parts.text]
  | @operation lhs rhs op hne hop _ _ ihl ihr =>
      obtain ⟨hcl, hnl⟩ := ihl
      obtain ⟨hcr, hnr⟩ := ihr
      refine ⟨⟨hnl ▸ hcl.balanced, hop, hnr ▸ hcr.balanced⟩, ?_⟩
      exact fetchName_operation hne op _

theorem parts_inj {sym sym' : Sym} (h : sym.Readable) (h' : sym'.Readable)
    (hname : sym.getName = sym'.getName) : sym.parts = sym'.parts :=
  Parts.text_inj h.parts.1 h'.parts.1 (h.parts.2.symm.trans (hname.trans h'.parts.2))

/-- **Symbols of one name are spelled alike.** -/
theorem spelled_inj {sym sym' : Sym} (h : sym.Readable) (h' : sym'.Readable)
    (hname : sym.getName = sym'.getName) : sym.spelled = sym'.spelled := by
  induction h generalizing sym' with
  | symbol hu hn =>
      have hparts := parts_inj (.symbol hu hn) h' hname
      cases h' with
      | symbol _ _ | named _ _ =>
          obtain rfl := Parts.plain.inj hparts
          rfl
      | immidiate _ hn' =>
          obtain rfl := Parts.plain.inj hparts
          exact absurd hn' hn
      | _ => cases hparts
  | named hu hn =>
      have hparts := parts_inj (.named hu hn) h' hname
      cases h' with
      | symbol _ _ | named _ _ =>
          obtain rfl := Parts.plain.inj hparts
          rfl
      | immidiate _ hn' =>
          obtain rfl := Parts.plain.inj hparts
          exact absurd hn' hn
      | _ => cases hparts
  | immidiate hu hn =>
      have hparts := parts_inj (.immidiate hu hn) h' hname
      cases h' with
      | symbol _ hn' | named _ hn' =>
          obtain rfl := Parts.plain.inj hparts
          exact absurd hn hn'
      | immidiate _ _ =>
          obtain rfl := Parts.plain.inj hparts
          rfl
      | _ => cases hparts
  | register hu =>
      have hparts := parts_inj (.register hu) h' hname
      cases h' with
      | register _ =>
          obtain ⟨hsize, hnames⟩ := Parts.sized.inj hparts
          rw [Size.name_inj hsize, hnames]
      | dereference _ =>
          obtain ⟨-, hnames⟩ := Parts.sized.inj hparts
          cases hnames
      | _ => cases hparts
  | function hbal =>
      have hparts := parts_inj (.function hbal) h' hname
      cases h' with
      | function _ =>
          obtain rfl := Parts.callee.inj hparts
          rfl
      | _ => cases hparts
  | dereference hsub ih =>
      have hparts := parts_inj (.dereference hsub) h' hname
      cases h' with
      | register _ =>
          obtain ⟨-, hnames⟩ := Parts.sized.inj hparts
          cases hnames
      | dereference hsub' =>
          obtain ⟨hsize, hnames⟩ := Parts.sized.inj hparts
          rw [fetchName_dereference, fetchName_dereference] at hnames
          rw [Sym.spelled, Sym.spelled, Size.name_inj hsize, ih hsub' (by simpa using hnames)]
      | _ => cases hparts
  | operation hne hop hl hr ihl ihr =>
      have hparts := parts_inj (.operation hne hop hl hr) h' hname
      cases h' with
      | operation hne' hop' hl' hr' =>
          obtain ⟨hnl, hops, hnr⟩ := Parts.operation.inj hparts
          obtain rfl := hops
          rw [Sym.spelled, Sym.spelled, ihl hl' hnl, ihr hr' hnr]
          rfl
      | _ => cases hparts

end Sym.Readable

/-! ## The symbol of an operand -/

/-- The symbols that operands are looked up in have names that can be read, and some name. -/
def Callees (functions : SymMap) : Prop :=
  ∀ e ∈ functions.items, e.2.Readable ∧ e.2.getName ≠ []

namespace Parses

variable {functions : SymMap} {expr : Text} {sym : Sym}

/-- An operand that is not empty has a name that is not empty. -/
theorem getName_ne_nil (hf : Callees functions) (h : Parses functions expr sym) (he : expr ≠ []) :
    sym.getName ≠ [] := by
  cases h with
  | function hmem => exact (hf _ hmem).2
  | register => exact List.cons_ne_nil _ _
  | immidiate => exact he
  | dereference => exact List.cons_ne_nil _ _
  | operation =>
      simp only [Sym.getName, fetchName]
      split_ifs <;> simp_all
  | symbol => exact he

/-- The symbol of an operand has a name that can be read. -/
theorem readable (hf : Callees functions) (he : Unmarked expr) (h : Parses functions expr sym) :
    sym.Readable := by
  induction h with
  | function hmem => exact (hf _ hmem).1
  | register hr => exact .register (unmarked_word (registers_isWord _ hr).2)
  | immidiate hn => exact .immidiate he hn
  | dereference _ ih => exact .dereference (ih fun c hc => he c (by simp [hc]))
  | operation hl hop hlhs _ ihl ihr =>
      refine .operation (hlhs.getName_ne_nil hf hl) ?_ (ihl fun c hc => he c (by simp [hc]))
        (ihr fun c hc => he c (by simp [hc]))
      rcases hop with rfl | rfl | rfl <;> decide
  | symbol hn => exact .symbol he hn

end Parses

/-! ## The characters of a name -/

/-- A character that the names of operands bring along. -/
def isNameChar (c : Char) : Bool := isWordChar c || c ∈ "()*+- ".toList

theorem notMem_word {c : Char} (hc : isWordChar c = false) {w : Text}
    (h : ∀ c ∈ w, isWordChar c = true) : c ∉ w := fun hmem => by
  rw [h c hmem] at hc
  cases hc

section Characters

variable {c : Char}

theorem isWordChar_of_isNameChar (hc : isNameChar c = false) : isWordChar c = false :=
  (Bool.or_eq_false_iff.mp hc).1

theorem notMem_marks (hc : isNameChar c = false) : c ∉ "()*+- ".toList :=
  of_decide_eq_false (Bool.or_eq_false_iff.mp hc).2

theorem notMem_sizedName (hc : isNameChar c = false) (size : Size) {name : Text}
    (h : c ∉ name) : c ∉ sizedName size name := by
  have hmarks := notMem_marks hc
  have hsize : c ∉ size.name := by
    refine notMem_word (isWordChar_of_isNameChar hc) ?_
    cases size <;> decide
  simp only [sizedName, List.mem_append, not_or]
  simp_all

theorem notMem_fetchName (hc : isNameChar c = false) {rhs op lhs : Text} (hr : c ∉ rhs)
    (ho : c ∉ op) (hl : c ∉ lhs) : c ∉ fetchName rhs op lhs := by
  have hmarks := notMem_marks hc
  unfold fetchName
  split_ifs <;> simp_all

/-- The name of an operand has the characters of the operand, and of functions and marks. -/
theorem Parses.notMem (hc : isNameChar c = false) {functions : SymMap}
    (hf : ∀ e ∈ functions.items, c ∉ e.2.getName) {expr : Text} {sym : Sym}
    (h : Parses functions expr sym) (he : c ∉ expr) : c ∉ sym.getName := by
  have hword := isWordChar_of_isNameChar hc
  have hmarks := notMem_marks hc
  induction h with
  | function hmem => exact hf _ hmem
  | @register r hr =>
      have hname := notMem_word hword (registers_isWord r hr).2
      have hmark : c ≠ '_' := by
        rintro rfl
        cases hword
      exact notMem_sizedName hc _ (List.not_mem_cons_of_ne_of_not_mem hmark hname)
  | immidiate => exact he
  | dereference _ ih =>
      have hsub := ih fun hmem => he (by simp [hmem])
      have hop : c ∉ "*".toList := fun hmem => hmarks (by simp_all)
      exact notMem_sizedName hc _ (notMem_fetchName hc hsub hop List.not_mem_nil)
  | operation _ hop _ _ ihl ihr =>
      have hl := ihl fun hmem => he (by simp [hmem])
      have hr := ihr fun hmem => he (by simp [hmem])
      refine notMem_fetchName hc hr (fun hmem => hmarks ?_) hl
      obtain rfl := List.mem_singleton.mp hmem
      rcases hop with rfl | rfl | rfl <;> decide
  | symbol => exact he

end Characters

theorem Sym.getName_spelled (sym : Sym) : sym.spelled.getName = sym.getName := by
  induction sym with
  | temporary lhs op rhs ihl ihr => rw [spelled, getName, getName, ihl, ihr]
  | sizedTemporary size op rhs ih => rw [spelled, getName, getName, ih]
  | _ => rfl

/-! ## The operands of a file -/

/-- The symbols that operands are looked up in. -/
def ExecutableFile.functions (f : ExecutableFile) : SymMap :=
  Keyed.ofList (f.generateTable.2.items.map fun e => (e.1, e.2.sym))

/-- A function has the name of a BFD symbol at its address. -/
theorem ExecutableFile.mem_functions {f : ExecutableFile} {e : Vma × Sym}
    (h : e ∈ f.functions.items) :
    ∃ b ∈ f.fd.symbols, bfdAsymbolValue b = e.1 ∧ e.2 = .function b.name e.1 := by
  obtain ⟨entry, hmem, rfl⟩ := List.mem_map.mp (Keyed.mem_of_mem_ofList h)
  obtain ⟨hs, ha⟩ := generateTable_inv (Keyed.find?_of_mem hmem)
  have horigin : entry.2.asmSymbol.origin ∈ entry.2.asmSymbol.records := List.mem_cons_self ..
  rw [records_of_mem_symbolTable hs] at horigin
  refine ⟨_, List.mem_of_mem_filter horigin, ha, ?_⟩
  rw [FunctionOf.sym, ha]
  rfl

/-- **Operands that are printed alike are the same**, up to the addresses of functions. -/
theorem ExecutableFile.getName_eq_iff (f : ExecutableFile)
    (hnames : ∀ b ∈ f.fd.symbols, Balanced '(' ')' b.name) {i j : Instruction}
    (hi : ∀ p ∈ i.parse, Unmarked p) (hj : ∀ p ∈ j.parse, Unmarked p) {sym sym' : Sym}
    (hs : sym ∈ i.args f.functions) (hs' : sym' ∈ j.args f.functions) :
    sym.getName = sym'.getName ↔ sym.spelled = sym'.spelled := by
  have hf : Callees f.functions := fun e he => by
    obtain ⟨b, hb, -, heq⟩ := mem_functions he
    rw [heq]
    exact ⟨.function (hnames b hb), List.cons_ne_nil _ _⟩
  obtain ⟨p, hp, h⟩ := List.mem_filterMap.mp hs
  obtain ⟨q, hq, h'⟩ := List.mem_filterMap.mp hs'
  constructor
  · exact ((Parses.ofHandleExpression h).readable hf (hi p (List.mem_of_mem_drop hp))).spelled_inj
      ((Parses.ofHandleExpression h').readable hf (hj q (List.mem_of_mem_drop hq)))
  · intro heq
    rw [← sym.getName_spelled, heq, sym'.getName_spelled]

/-- A file with one function. -/
def oneFunction : ExecutableFile := .new (nopFunction 8)

/-- `not eax` and `not al`. -/
def notInstr (register : Text) : Instruction :=
  ⟨⟨[], 0, 2⟩, ⟨0, 0x1008, functionAt "f".toList 8⟩, "not ".toList ++ register, 0x1008⟩

theorem parse_notInstr (register : Name) :
    (notInstr register.text).parse = ["not".toList, register.text] := by
  have hchunk : ∀ k ∈ [(register.text, [register.text])], Chunk k.1 k.2 := by
    intro k hk
    obtain rfl := List.mem_singleton.mp hk
    exact Operand.chunk (.register register)
  have hsplit := split_instructionText ⟨⟨"not".toList, by decide, by decide⟩, by decide⟩ 1 hchunk
    (fun _ => by decide) none
  simpa [notInstr, Instruction.parse, instructionText, operandsText, blanksText, commentText,
    commentPieces] using hsplit

theorem unmarked_notInstr (register : Name) :
    ∀ p ∈ (notInstr register.text).parse, Unmarked p := by
  rw [parse_notInstr]
  exact List.forall_mem_cons.mpr ⟨unmarked_word (by decide),
    List.forall_mem_singleton.mpr (unmarked_word register.chars)⟩

theorem mem_args_notInstr (functions : SymMap) (register : Name) {sym : Sym}
    (ha : (address.fullMatch register.text).isNone) (hr : findRegister register.text = some sym) :
    sym ∈ (notInstr register.text).args functions := by
  rw [Instruction.args, parse_notInstr]
  exact List.mem_filterMap.mpr ⟨register.text, List.mem_cons_self ..,
    handleExpression_registerName ha hr⟩

theorem balanced_oneFunction : ∀ b ∈ oneFunction.fd.symbols, Balanced '(' ')' b.name :=
  List.forall_mem_singleton.mpr (unmarked_word (by decide)).balanced

/-- The two operands have two names. -/
theorem getName_eq_iff_not : (registerOf ("eax".toList, .dword)).getName =
      (registerOf ("al".toList, .byte)).getName ↔
    (registerOf ("eax".toList, .dword)).spelled = (registerOf ("al".toList, .byte)).spelled :=
  oneFunction.getName_eq_iff balanced_oneFunction
    (unmarked_notInstr ⟨⟨"eax".toList, by decide, by decide⟩, by decide⟩)
    (unmarked_notInstr ⟨⟨"al".toList, by decide, by decide⟩, by decide⟩)
    (mem_args_notInstr _ ⟨⟨"eax".toList, by decide, by decide⟩, by decide⟩ (by decide +kernel)
      (by decide +kernel))
    (mem_args_notInstr _ ⟨⟨"al".toList, by decide, by decide⟩, by decide⟩ (by decide +kernel)
      (by decide +kernel))

end Befa
