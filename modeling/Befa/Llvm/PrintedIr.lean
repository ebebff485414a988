import Befa.Assembly.OperandNames
import Befa.Lib.Printed
import Befa.Llvm.DefUse

/-!
# The printed code

`Ir.toString` prints an intermediate instruction with the names of its operands.  `Statement` is
what the text shows, and a text shows one statement (`Statement.text_inj`): the equals sign ends the name of what
is assigned to, and a comma separates the operands of a comparison.

A name tells its symbol, up to what it does not show (`Sym.Readable.spelled_inj`).  So two runs that
are printed alike emitted the same instructions, up to that and to the assembly they come from
(`toString_of_run`).
-/

namespace Befa

/-- No separator of names. -/
def Unseparated (s : Text) : Prop := ',' ∉ s ∧ '=' ∉ s

instance decidableUnseparated (s : Text) : Decidable (Unseparated s) :=
  inferInstanceAs (Decidable (',' ∉ s ∧ '=' ∉ s))

/-- A separator that occurs once is found again. -/
theorem separated_inj {c : Char} (hc : c ≠ ' ') {l r l' r' : Text} (hl : c ∉ l) (hr : c ∉ r)
    (h : l ++ c :: ' ' :: r = l' ++ c :: ' ' :: r') : l = l' ∧ r = r' := by
  have hnot : c ∉ ' ' :: r := by simp [hc, hr]
  obtain ⟨rfl, -, hrest⟩ := (List.append_cons_inj_of_notMem hl hnot).mp h
  exact ⟨rfl, (List.cons.inj hrest).2⟩

/-! ## Statements -/

/-- What is assigned, by the names of the operands. -/
inductive Shown where
  | binary (lhs op rhs : Text)
  | cmp (op : CmpType) (lhs rhs : Text)
  | unary (op operand : Text)
  | call (target : Text)

/-- What the text of an instruction shows. -/
inductive Statement where
  | assign (target : Text) (shown : Shown)
  | branch (condition target : Text)

namespace Shown

def text : Shown → Text
  | binary lhs op rhs => '(' :: (lhs ++ ')' :: ' ' :: (op ++ ' ' :: '(' :: (rhs ++ [')'])))
  | cmp op lhs rhs => "icmp ".toList ++ (op.toStr ++ ' ' :: (lhs ++ ',' :: ' ' :: rhs))
  | unary op operand => op ++ '(' :: (operand ++ [')'])
  | call target => "call ".toList ++ (target ++ "()".toList)

/-- The operators are those of the factories, and the names can be told apart. -/
def Closed : Shown → Prop
  | binary lhs op rhs => Parens.Balanced '(' ')' lhs ∧ (op = "AND".toList ∨ op = "OR".toList) ∧
      Unseparated lhs ∧ Unseparated rhs
  | cmp _ lhs rhs => Unseparated lhs ∧ Unseparated rhs
  | unary op operand => (op = "MSB".toList ∨ op = "BitwiseXNOR".toList) ∧ Unseparated operand
  | call target => Unseparated target

theorem Closed.notMem {shown : Shown} (h : shown.Closed) : '=' ∉ shown.text := by
  cases shown with
  | binary lhs op rhs =>
      obtain ⟨-, hop, hl, hr⟩ := h
      rcases hop with rfl | rfl <;> simp [text, hl.2, hr.2]
  | cmp op lhs rhs => cases op <;> simp [text, CmpType.toStr, h.1.2, h.2.2]
  | unary op operand => rcases h.1 with rfl | rfl <;> simp [text, h.2.2]
  | call target => simp [text, h.2]

/-- **What is assigned is shown in one way.** -/
theorem text_inj {shown shown' : Shown} (h : shown.Closed) (h' : shown'.Closed)
    (htext : shown.text = shown'.text) : shown = shown' := by
  cases shown with
  | binary lhs op rhs =>
      obtain ⟨hl, hop, -, -⟩ := h
      cases shown' with
      | binary lhs' op' rhs' =>
          obtain ⟨hl', hop', -, -⟩ := h'
          obtain ⟨rfl, hrest⟩ := Parens.append_close_inj (by decide) hl hl' (List.cons.inj htext).2
          rcases hop with rfl | rfl <;> rcases hop' with rfl | rfl <;> simp_all
      | cmp op' lhs' rhs' => cases (List.cons.inj htext).1
      | unary op' operand' => rcases h'.1 with rfl | rfl <;> cases (List.cons.inj htext).1
      | call target' => cases (List.cons.inj htext).1
  | cmp op lhs rhs =>
      cases shown' with
      | cmp op' lhs' rhs' =>
          have hrest := List.append_cancel_left htext
          obtain rfl : op = op' := by
            cases op <;> cases op' <;> first | rfl | cases hrest
          obtain ⟨rfl, rfl⟩ := separated_inj (by decide) h.1.1 h.2.1
            (List.cons.inj (List.append_cancel_left hrest)).2
          rfl
      | binary lhs' op' rhs' => cases (List.cons.inj htext).1
      | unary op' operand' => rcases h'.1 with rfl | rfl <;> cases (List.cons.inj htext).1
      | call target' => cases (List.cons.inj htext).1
  | unary op operand =>
      obtain ⟨hop, -⟩ := h
      cases shown' with
      | unary op' operand' =>
          obtain ⟨hop', -⟩ := h'
          obtain rfl : op = op' := by
            rcases hop with rfl | rfl <;> rcases hop' with rfl | rfl <;>
              first | rfl | cases (List.cons.inj htext).1
          have hrest := (List.cons.inj (List.append_cancel_left htext)).2
          rw [List.append_cancel_right hrest]
      | binary lhs' op' rhs' => rcases hop with rfl | rfl <;> cases (List.cons.inj htext).1
      | cmp op' lhs' rhs' => rcases hop with rfl | rfl <;> cases (List.cons.inj htext).1
      | call target' => rcases hop with rfl | rfl <;> cases (List.cons.inj htext).1
  | call target =>
      cases shown' with
      | call target' =>
          rw [List.append_cancel_right (List.append_cancel_left htext)]
      | binary lhs' op' rhs' => cases (List.cons.inj htext).1
      | cmp op' lhs' rhs' => cases (List.cons.inj htext).1
      | unary op' operand' => rcases h'.1 with rfl | rfl <;> cases (List.cons.inj htext).1

end Shown

namespace Statement

def text : Statement → Text
  | assign target shown => target ++ ' ' :: '=' :: ' ' :: shown.text
  | branch condition target => "br ".toList ++ (condition ++ ',' :: ' ' :: ("address ".toList ++ target))

def Closed : Statement → Prop
  | assign target shown => Unseparated target ∧ shown.Closed
  | branch condition target => Unseparated condition ∧ Unseparated target

/-- **A text shows one statement.** -/
theorem text_inj {s s' : Statement} (h : s.Closed) (h' : s'.Closed) (htext : s.text = s'.text) :
    s = s' := by
  have hassign : ∀ target shown, '=' ∈ (assign target shown).text := by simp [text]
  have hbranch : ∀ {condition target}, (branch condition target).Closed →
      '=' ∉ (branch condition target).text := by
    intro condition target hc
    simp [text, hc.1.2, hc.2.2]
  cases s with
  | assign target shown =>
      cases s' with
      | assign target' shown' =>
          have hleft : '=' ∉ target ++ [' '] := by simp [h.1.2]
          have hboth := separated_inj (by decide) hleft h.2.notMem
            (by simpa [text] using htext : target ++ [' '] ++ '=' :: ' ' :: shown.text =
              target' ++ [' '] ++ '=' :: ' ' :: shown'.text)
          rw [List.append_cancel_right hboth.1, Shown.text_inj h.2 h'.2 hboth.2]
      | branch condition' target' => exact absurd (htext ▸ hassign ..) (hbranch h')
  | branch condition target =>
      cases s' with
      | assign target' shown' => exact absurd (htext ▸ hassign ..) (hbranch h)
      | branch condition' target' =>
          have hright : ',' ∉ "address ".toList ++ target := by simp [h.2.1]
          obtain ⟨rfl, hrest⟩ := separated_inj (by decide) h.1.1 hright
            (List.append_cancel_left htext)
          rw [List.append_cancel_left hrest]

end Statement

/-! ## Operands -/

/-- A pointer is null, or its symbol has a name that can be read and is not empty. -/
def Printable (p : SymPtr) : Prop :=
  ∀ sym, p = some sym → sym.Readable ∧ sym.getName ≠ [] ∧ Unseparated sym.getName

theorem printable_some {sym : Sym} : Printable (some sym) ↔
    sym.Readable ∧ sym.getName ≠ [] ∧ Unseparated sym.getName :=
  ⟨fun h => h sym rfl, fun h _ hs => Option.some.inj hs ▸ h⟩

namespace Printable

variable {p q : SymPtr}

theorem unseparated (h : Printable p) : Unseparated (nameOf p) := by
  cases p with
  | none => exact ⟨List.not_mem_nil, List.not_mem_nil⟩
  | some sym => exact (printable_some.mp h).2.2

theorem balanced (h : Printable p) : Parens.Balanced '(' ')' (nameOf p) := by
  cases p with
  | none => exact .nil
  | some sym =>
      obtain ⟨hclosed, hname⟩ := (printable_some.mp h).1.parts
      show Parens.Balanced '(' ')' sym.getName
      exact hname ▸ hclosed.balanced

theorem spelled_inj (h : Printable p) (h' : Printable q) (hname : nameOf p = nameOf q) :
    p.map Sym.spelled = q.map Sym.spelled := by
  cases p with
  | none =>
      cases q with
      | none => rfl
      | some sym => exact absurd hname.symm (printable_some.mp h').2.1
  | some sym =>
      cases q with
      | none => exact absurd hname (printable_some.mp h).2.1
      | some sym' =>
          exact congrArg some ((printable_some.mp h).1.spelled_inj (printable_some.mp h').1 hname)

end Printable

theorem nameOf_map_spelled (p : SymPtr) : nameOf (p.map Sym.spelled) = nameOf p := by
  cases p with
  | none => rfl
  | some sym => exact sym.getName_spelled

/-! ## Instructions -/

/-- The instruction without its assembly, and its operands without what their names do not show. -/
def Ir.spelled : Ir → Ir
  | binary _ target lhs op rhs =>
      .binary [] (target.map Sym.spelled) (lhs.map Sym.spelled) op (rhs.map Sym.spelled)
  | cmp _ result lhs op rhs =>
      .cmp [] (result.map Sym.spelled) (lhs.map Sym.spelled) op (rhs.map Sym.spelled)
  | unary _ target op operand => .unary [] (target.map Sym.spelled) op (operand.map Sym.spelled)
  | call _ result target => .call [] (result.map Sym.spelled) (target.map Sym.spelled)
  | branch _ condition target => .branch [] (condition.map Sym.spelled) (target.map Sym.spelled)

/-- An instruction of the factories whose operands can be told apart. -/
inductive Ir.Readable : Ir → Prop where
  | binary {assembly : List Instruction} {target : SymPtr} {lhs : Sym} {op : Text} {rhs : SymPtr} :
      op = "AND".toList ∨ op = "OR".toList → Printable target → Printable (some lhs) →
      Printable rhs → Readable (.binary assembly target (some lhs) op rhs)
  | cmp {assembly : List Instruction} {result lhs : SymPtr} {op : CmpType} {rhs : SymPtr} :
      Printable result → Printable lhs → Printable rhs → Readable (.cmp assembly result lhs op rhs)
  | unary {assembly : List Instruction} {target : SymPtr} {op : Text} {operand : SymPtr} :
      op = "MSB".toList ∨ op = "BitwiseXNOR".toList → Printable target → Printable operand →
      Readable (.unary assembly target op operand)
  | call {assembly : List Instruction} {result target : SymPtr} : Printable result →
      Printable target → Readable (.call assembly result target)
  | branch {assembly : List Instruction} {condition target : SymPtr} : Printable condition →
      Printable target → Readable (.branch assembly condition target)

namespace Ir

/-- What the text of an instruction shows. -/
def statement : Ir → Statement
  | .binary _ target lhs op rhs => .assign (nameOf target) (.binary (nameOf lhs) op (nameOf rhs))
  | .cmp _ result lhs op rhs => .assign (nameOf result) (.cmp op (nameOf lhs) (nameOf rhs))
  | .unary _ target op operand => .assign (nameOf target) (.unary op (nameOf operand))
  | .call _ result target => .assign (nameOf result) (.call (nameOf target))
  | .branch _ condition target => .branch (nameOf condition) (nameOf target)

theorem Readable.statement {ir : Ir} (h : ir.Readable) :
    ir.statement.Closed ∧ ir.toString = ir.statement.text := by
  cases h with
  | @binary assembly target lhs op rhs hop ht hl hr =>
      refine ⟨⟨ht.unseparated, hl.balanced, hop, hl.unseparated, hr.unseparated⟩, ?_⟩
      have hne : nameOf (some lhs) ≠ [] := (printable_some.mp hl).2.1
      rcases hop with rfl | rfl <;>
        simp [toString, Ir.statement, Statement.text, Shown.text, fetchName, hne]
  | cmp ht hl hr =>
      refine ⟨⟨ht.unseparated, hl.unseparated, hr.unseparated⟩, ?_⟩
      simp [toString, Ir.statement, Statement.text, Shown.text]
  | unary hop ht ho =>
      refine ⟨⟨ht.unseparated, hop, ho.unseparated⟩, ?_⟩
      rcases hop with rfl | rfl <;>
        simp [toString, Ir.statement, Statement.text, Shown.text, fetchName]
  | call hr ht =>
      refine ⟨⟨hr.unseparated, ht.unseparated⟩, ?_⟩
      simp [toString, Ir.statement, Statement.text, Shown.text]
  | branch hc ht =>
      refine ⟨⟨hc.unseparated, ht.unseparated⟩, ?_⟩
      simp [toString, Ir.statement, Statement.text]

theorem toString_spelled (ir : Ir) : ir.spelled.toString = ir.toString := by
  cases ir <;> simp only [spelled, toString, nameOf_map_spelled]

/-- **Instructions that are printed alike are the same**, up to what names do not show. -/
theorem Readable.toString_inj {ir ir' : Ir} (h : ir.Readable) (h' : ir'.Readable) :
    ir.toString = ir'.toString ↔ ir.spelled = ir'.spelled := by
  constructor
  · intro htext
    have hstatement := Statement.text_inj h.statement.1 h'.statement.1
      (h.statement.2.symm.trans (htext.trans h'.statement.2))
    cases h with
    | binary _ ht hl hr =>
        cases h' with
        | binary _ ht' hl' hr' =>
            obtain ⟨hnt, hshown⟩ := Statement.assign.inj hstatement
            obtain ⟨hnl, rfl, hnr⟩ := Shown.binary.inj hshown
            simp only [spelled, ht.spelled_inj ht' hnt, hl.spelled_inj hl' hnl,
              hr.spelled_inj hr' hnr]
        | _ => simp [Ir.statement] at hstatement
    | cmp ht hl hr =>
        cases h' with
        | cmp ht' hl' hr' =>
            obtain ⟨hnt, hshown⟩ := Statement.assign.inj hstatement
            obtain ⟨rfl, hnl, hnr⟩ := Shown.cmp.inj hshown
            simp only [spelled, ht.spelled_inj ht' hnt, hl.spelled_inj hl' hnl,
              hr.spelled_inj hr' hnr]
        | _ => simp [Ir.statement] at hstatement
    | unary _ ht ho =>
        cases h' with
        | unary _ ht' ho' =>
            obtain ⟨hnt, hshown⟩ := Statement.assign.inj hstatement
            obtain ⟨rfl, hno⟩ := Shown.unary.inj hshown
            simp only [spelled, ht.spelled_inj ht' hnt, ho.spelled_inj ho' hno]
        | _ => simp [Ir.statement] at hstatement
    | call hr ht =>
        cases h' with
        | call hr' ht' =>
            obtain ⟨hnr, hshown⟩ := Statement.assign.inj hstatement
            obtain hnt := Shown.call.inj hshown
            simp only [spelled, hr.spelled_inj hr' hnr, ht.spelled_inj ht' hnt]
        | _ => simp [Ir.statement] at hstatement
    | branch hc ht =>
        cases h' with
        | branch hc' ht' =>
            obtain ⟨hnc, hnt⟩ := Statement.branch.inj hstatement
            simp only [spelled, hc.spelled_inj hc' hnc, ht.spelled_inj ht' hnt]
        | _ => simp [Ir.statement] at hstatement
  · intro heq
    rw [← ir.toString_spelled, heq, ir'.toString_spelled]

end Ir

/-! ## The symbols of a run -/

/-- A text without marks and separators that is not empty, as the piece of a comment is. -/
def Simple (s : Text) : Prop := s ≠ [] ∧ Unmarked s ∧ Unseparated s

instance decidableSimple (s : Text) : Decidable (Simple s) :=
  inferInstanceAs (Decidable (s ≠ [] ∧ (∀ c ∈ s, c ≠ '(' ∧ c ≠ ')' ∧ c ≠ '@') ∧ ',' ∉ s ∧ '=' ∉ s))

theorem Simple.symbol {s : Text} (h : Simple s) (hn : ¬number.Lang s) (address : Vma) :
    Printable (some (.symbol s address)) :=
  printable_some.mpr ⟨.symbol h.2.1 hn, h.1, h.2.2⟩

theorem Simple.immidiate {s : Text} (h : Simple s) (hn : number.Lang s) :
    Printable (some (.immidiate s)) :=
  printable_some.mpr ⟨.immidiate h.2.1 hn, h.1, h.2.2⟩

theorem Parses.unseparated {functions : SymMap} {expr : Text} {sym : Sym}
    (hf : ∀ e ∈ functions.items, Printable (some e.2)) (he : Unseparated expr)
    (h : Parses functions expr sym) : Unseparated sym.getName :=
  ⟨h.notMem (by decide) (fun e hmem => (printable_some.mp (hf e hmem)).2.2.1) he.1,
    h.notMem (by decide) (fun e hmem => (printable_some.mp (hf e hmem)).2.2.2) he.2⟩

theorem Parses.printable {functions : SymMap} {expr : Text} {sym : Sym}
    (hf : ∀ e ∈ functions.items, Printable (some e.2)) (he : Simple expr)
    (h : Parses functions expr sym) : Printable (some sym) := by
  have hcallees : Callees functions := fun e hmem =>
    ⟨(printable_some.mp (hf e hmem)).1, (printable_some.mp (hf e hmem)).2.1⟩
  exact printable_some.mpr
    ⟨h.readable hcallees he.2.1, h.getName_ne_nil hcallees he.1, h.unseparated hf he.2.2⟩

/-- The symbols of a table are printable. -/
def SymTable.AllPrintable (t : SymTable) : Prop := ∀ e ∈ t.items, Printable (some e.2)

namespace SymTable.AllPrintable

variable {t : SymTable}

theorem toMap (ht : t.AllPrintable) : ∀ e ∈ t.toMap.items, Printable (some e.2) := by
  intro e he
  obtain ⟨x, hx, rfl⟩ := List.mem_map.mp (Keyed.mem_of_mem_ofList he)
  exact ht x hx

theorem findSymbol (ht : t.AllPrintable) (name : Text) : Printable (t.findSymbol name) := by
  intro sym hsym
  obtain ⟨x, hx, rfl⟩ := Option.map_eq_some_iff.mp hsym
  exact printable_some.mp (ht x (List.mem_of_find?_eq_some hx))

theorem getOrCreate (ht : t.AllPrintable) {name : Text} {sym r : Sym} {t' : SymTable}
    (hsym : Printable (some sym)) (h : t.getOrCreate name sym = .ok (r, t')) :
    Printable (some r) ∧ t'.AllPrintable := by
  cases hname : t.find? name with
  | some x =>
      rw [getOrCreate_of_some sym hname] at h
      cases h
      exact ⟨ht x (Keyed.mem_of_find? hname), ht⟩
  | none =>
      rw [getOrCreate_of_none sym hname] at h
      cases hkey : t.find? (addressKey sym.getAddress) with
      | some y => rw [addSymbol_of_some hkey] at h; cases h
      | none =>
          rw [addSymbol_of_none hkey] at h
          cases h
          refine ⟨hsym, fun e he => ?_⟩
          rcases Keyed.mem_emplace.mp he with he | ⟨rfl, -⟩
          · exact ht e he
          · exact hsym

end SymTable.AllPrintable

theorem printable_args {i : Instruction} {functions : SymMap}
    (hi : ∀ p ∈ i.parse, Simple p) (hf : ∀ e ∈ functions.items, Printable (some e.2)) {sym : Sym}
    (hs : sym ∈ i.args functions) : Printable (some sym) := by
  obtain ⟨p, hp, h⟩ := List.mem_filterMap.mp hs
  exact (Parses.ofHandleExpression h).printable hf (hi p (List.mem_of_mem_drop hp))

/-! ## The temporaries -/

theorem printable_temporary : Printable (some temporary) :=
  Simple.symbol (by decide) (Regex.fullMatch_eq_none.mp (by decide +kernel)) _

theorem printable_tempResult : Printable (some tempResult) :=
  Simple.symbol (by decide) (Regex.fullMatch_eq_none.mp (by decide +kernel)) _

theorem printable_temp2Result : Printable (some temp2Result) :=
  Simple.symbol (by decide) (Regex.fullMatch_eq_none.mp (by decide +kernel)) _

theorem printable_constant {value : Text} (h : value = "0".toList ∨ value = "1".toList) :
    Printable (some (.immidiate value)) := by
  rcases h with rfl | rfl <;>
    exact Simple.immidiate (by decide) (Regex.fullMatch_isSome.mp (by decide +kernel))

theorem printable_resultOfTheCall : Printable (some resultOfTheCall) := by
  have hsimple : Simple "ResultOfTheCall".toList := by decide
  exact printable_some.mpr ⟨.named hsimple.2.1 (Regex.fullMatch_eq_none.mp (by decide +kernel)),
    hsimple.1, hsimple.2.2⟩

/-! ## Runs -/

/-- What the factories emit for an instruction is readable, and the table stays printable. -/
theorem Translates.readable {i : Instruction} {t : SymTable} {r : Emitted SymTable Ir Text}
    (h : Translates i t r) (hi : ∀ p ∈ i.parse, Simple p) (ht : t.AllPrintable) :
    (∀ ir ∈ r.out, ir.Readable) ∧ r.state.AllPrintable := by
  have harg : ∀ {sym : Sym}, sym ∈ i.args t.toMap → Printable (some sym) :=
    fun hs => printable_args hi ht.toMap hs
  cases h with
  | raises reason => exact ⟨fun _ h => absurd h List.not_mem_nil, ht⟩
  | other => exact ⟨fun _ h => absurd h List.not_mem_nil, ht⟩
  | call _ htarget hget =>
      obtain ⟨hresult, ht'⟩ := ht.getOrCreate printable_resultOfTheCall hget
      exact ⟨List.forall_mem_singleton.mpr (.call hresult (harg htarget)), ht'⟩
  | cmp _ hzf hcf ha hb =>
      have hz : Printable (some _) := hzf ▸ ht.findSymbol _
      have hc : Printable (some _) := hcf ▸ ht.findSymbol _
      exact ⟨List.forall_mem_cons.mpr ⟨.cmp hz (harg ha) (harg hb),
        List.forall_mem_singleton.mpr (.cmp hc (harg ha) (harg hb))⟩, ht⟩
  | test _ hzf hsf hpf ha hb =>
      have hz : Printable (some _) := hzf ▸ ht.findSymbol _
      have hs : Printable (some _) := hsf ▸ ht.findSymbol _
      have hp : Printable (some _) := hpf ▸ ht.findSymbol _
      refine ⟨?_, ht⟩
      simp only [testIr, List.forall_mem_cons]
      exact ⟨.binary (Or.inl rfl) printable_temporary (harg ha) (harg hb),
        .unary (Or.inl rfl) hs printable_temporary,
        .cmp hz printable_temporary (printable_constant (Or.inl rfl)),
        .unary (Or.inr rfl) hp printable_temporary, fun _ h => absurd h List.not_mem_nil⟩
  | @jump name constant op branch raised _ _ hconstant hbranch =>
      have hconst := printable_constant (hconstant.imp And.left And.left)
      have hcondition : ∀ ir ∈ conditionIr i (t.findSymbol "_cf".toList)
          (t.findSymbol "_zf".toList) constant op, ir.Readable := by
        simp only [conditionIr, List.forall_mem_cons]
        exact ⟨.cmp printable_tempResult (ht.findSymbol _) hconst,
          .cmp printable_temp2Result (ht.findSymbol _) hconst,
          .binary (hconstant.imp And.right And.right) printable_tempResult printable_temp2Result
            printable_tempResult, fun _ h => absurd h List.not_mem_nil⟩
      refine ⟨List.forall_mem_append.mpr ⟨hcondition, ?_⟩, ht⟩
      obtain ⟨-, target, htarget, rfl⟩ | ⟨-, rfl⟩ := hbranch
      · have hnil : ∀ e ∈ (.nil : SymMap).items, Printable (some e.2) :=
          fun _ h => absurd h List.not_mem_nil
        exact List.forall_mem_singleton.mpr
          (.branch printable_tempResult (printable_args hi hnil htarget))
      · exact fun _ h => absurd h List.not_mem_nil

/-- All instructions of a run are readable. -/
theorem readable_of_run {o : List Instruction} {t : SymTable}
    (ho : ∀ i ∈ o, ∀ p ∈ i.parse, Simple p) (ht : t.AllPrintable) :
    ∀ ir ∈ (reduceInstr factories o t).out, ir.Readable := by
  have hstep : ∀ i ∈ o, ∀ (out : List Ir) (t : SymTable),
      (∀ ir ∈ out, ir.Readable) ∧ t.AllPrintable →
        (∀ ir ∈ out ++ (mapInstr factories i t).out, ir.Readable) ∧
          (mapInstr factories i t).state.AllPrintable := by
    intro i hi out t ⟨hout, ht⟩
    obtain ⟨hnew, ht'⟩ := (mapInstr_translates i t).readable (ho i hi) ht
    exact ⟨List.forall_mem_append.mpr ⟨hout, hnew⟩, ht'⟩
  exact (emitAll_history hstep ⟨fun _ h => absurd h List.not_mem_nil, ht⟩).1

/-- **Runs that are printed alike emitted the same instructions**, up to the assembly and to what
names do not show. -/
theorem toString_of_run {o o' : List Instruction} {t t' : SymTable}
    (ho : ∀ i ∈ o, ∀ p ∈ i.parse, Simple p) (ho' : ∀ i ∈ o', ∀ p ∈ i.parse, Simple p)
    (ht : t.AllPrintable) (ht' : t'.AllPrintable) :
    (reduceInstr factories o t).out.map Ir.toString =
        (reduceInstr factories o' t').out.map Ir.toString ↔
      (reduceInstr factories o t).out.map Ir.spelled =
        (reduceInstr factories o' t').out.map Ir.spelled := by
  exact map_eq_map_of_iff fun ir hir ir' hir' =>
    (readable_of_run ho ht ir hir).toString_inj (readable_of_run ho' ht' ir' hir')

theorem registerTable_allPrintable : registerTable.AllPrintable := by
  intro e he
  obtain ⟨r, hr, rfl⟩ := List.mem_map.mp (Keyed.mem_of_mem_ofList he)
  have hname := registers_isWord r hr
  have hparses : Parses .nil r.1 (registerOf r) := .register hr
  have hword : ∀ {c : Char}, isWordChar c = false → c ∉ r.1 := fun hc => notMem_word hc hname.2
  exact hparses.printable (fun _ h => absurd h List.not_mem_nil)
    ⟨hname.1, unmarked_word hname.2, hword (by decide), hword (by decide)⟩

/-- A `cmp` and a `test` of the same registers. -/
theorem toString_of_run_cmp_test :
    (reduceInstr factories [instructionOf "cmp    eax, ebx"] registerTable).out.map Ir.toString =
        (reduceInstr factories [instructionOf "test   eax, ebx"] registerTable).out.map
          Ir.toString ↔
      (reduceInstr factories [instructionOf "cmp    eax, ebx"] registerTable).out.map Ir.spelled =
        (reduceInstr factories [instructionOf "test   eax, ebx"] registerTable).out.map
          Ir.spelled :=
  toString_of_run (List.forall_mem_singleton.mpr (by decide +kernel))
    (List.forall_mem_singleton.mpr (by decide +kernel)) registerTable_allPrintable
    registerTable_allPrintable

end Befa
