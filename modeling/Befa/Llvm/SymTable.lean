import Befa.Assembly.InstructionParser
import Mathlib.Data.Char
import Mathlib.Data.List.Infix
import Mathlib.Data.List.Lex

/-!
# The symbol table of the decompiler

`SymTable` is a map from names to symbols, which the factories of the decompiler read and extend.
`toMap` shows it by address and `findSymbol` searches it by the names of the symbols.

The key of a new symbol is made by assigning its address to a string, which keeps one character:
the low byte of the address.  So the symbols that `addSymbol` adds have at most 256 different keys,
and `getOrCreate` does not look a symbol up under the key it stores it with.  `storeLaw_iff` says
when additions succeed and when a created symbol is found again.
-/

namespace Befa

/-- `SymTable`, the map itself.  No entry is a null pointer. -/
abbrev SymTable := OrdMap Text Sym

/-- The result of a call, as the decompiler creates it. -/
def resultOfTheCall : Sym := .namedTemporary .dword "ResultOfTheCall".toList

namespace SymTable

/-- `find_symbol`, by name. -/
def findSymbol (t : SymTable) (name : Text) : SymPtr :=
  (t.items.find? fun x => decide (name <:+: x.2.getName)).map Prod.snd

/-- The only symbol whose name contains a text is found. -/
theorem findSymbol_of_unique {t : SymTable} {name : Text} {x : Text × Sym} (hx : x ∈ t.items)
    (hin : name <:+: x.2.getName) (hu : ∀ y ∈ t.items, name <:+: y.2.getName → y = x) :
    t.findSymbol name = some x.2 := by
  rw [findSymbol]
  cases hf : t.items.find? fun y => decide (name <:+: y.2.getName) with
  | none => exact absurd (decide_eq_true hin) (List.find?_eq_none.mp hf x hx)
  | some y =>
      have hy : name <:+: y.2.getName := by simpa using List.find?_some hf
      rw [hu y (List.mem_of_find?_eq_some hf) hy, Option.map_some]

/-- `to_map`. -/
def toMap (t : SymTable) : SymMap := Keyed.ofList (t.items.map fun x => (x.2.getAddress, x.2))

/-- `name = sym->getAddress()`.  The address becomes a `char`. -/
def addressKey (address : Vma) : Text := [Char.ofUInt8 address.toUInt8]

/-- `add_symbol`.  It returns the symbol and the new table.  A taken key raises, and the table stays
as it is. -/
def addSymbol (t : SymTable) (sym : Sym) : Except Text (Sym × SymTable) :=
  match t.find? (addressKey sym.getAddress) with
  | some _ => .error "Failed to insert symbol into symbol table".toList
  | none => .ok (sym, t.emplace (addressKey sym.getAddress, sym))

/-- `get_or_create`, with the symbol its arguments construct. -/
def getOrCreate (t : SymTable) (name : Text) (sym : Sym) : Except Text (Sym × SymTable) :=
  match t.find? name with
  | some entry => .ok (entry.2, t)
  | none => t.addSymbol sym

example : addressKey 0x400800 = ['\x00'] := by decide

/-- Keys are equal when the low bytes of the addresses are. -/
theorem addressKey_inj {a b : Vma} : addressKey a = addressKey b ↔ a.toUInt8 = b.toUInt8 := by
  refine ⟨fun h => ?_, fun h => by rw [addressKey, h, addressKey]⟩
  have hval : a.toUInt8.toUInt32 = b.toUInt8.toUInt32 :=
    congrArg Char.val (List.singleton_inj.mp h)
  exact UInt8.toUInt32_inj.mp hval

theorem addSymbol_of_none {t : SymTable} {sym : Sym}
    (h : t.find? (addressKey sym.getAddress) = none) :
    t.addSymbol sym = .ok (sym, t.emplace (addressKey sym.getAddress, sym)) := by
  rw [addSymbol, h]

theorem addSymbol_of_some {t : SymTable} {sym : Sym} {x : Text × Sym}
    (h : t.find? (addressKey sym.getAddress) = some x) :
    t.addSymbol sym = .error "Failed to insert symbol into symbol table".toList := by
  rw [addSymbol, h]

theorem getOrCreate_of_some {t : SymTable} {name : Text} {x : Text × Sym} (sym : Sym)
    (h : t.find? name = some x) : t.getOrCreate name sym = .ok (x.2, t) := by
  rw [getOrCreate, h]

theorem getOrCreate_of_none {t : SymTable} {name : Text} (sym : Sym) (h : t.find? name = none) :
    t.getOrCreate name sym = t.addSymbol sym := by
  rw [getOrCreate, h]

/-! ## Operations -/

/-- A call of one of the two operations that may change the table. -/
inductive Op where
  | addSymbol (sym : Sym)
  | getOrCreate (name : Text) (sym : Sym)

/-- What a call returns. -/
def Op.call : Op → SymTable → Except Text (Sym × SymTable)
  | .addSymbol sym, t => t.addSymbol sym
  | .getOrCreate name sym, t => t.getOrCreate name sym

/-- The table behind a call. -/
def Op.after (op : Op) (t : SymTable) : SymTable :=
  match op.call t with
  | .ok (_, t') => t'
  | .error _ => t

/-- The table behind a sequence of calls, of which some may have raised. -/
def after (ops : List Op) (t : SymTable) : SymTable := ops.foldl (fun t op => op.after t) t

/-- An addition that succeeds keeps every entry. -/
theorem find?_addSymbol {t t' : SymTable} {sym r : Sym} {k : Text} {x : Text × Sym}
    (h : t.addSymbol sym = .ok (r, t')) (hk : t.find? k = some x) : t'.find? k = some x := by
  cases hf : t.find? (addressKey sym.getAddress) with
  | some y => rw [addSymbol_of_some hf] at h; cases h
  | none =>
      rw [addSymbol_of_none hf] at h
      cases h
      exact Keyed.find?_emplace_of_some _ hk

theorem find?_getOrCreate {t t' : SymTable} {name k : Text} {sym r : Sym} {x : Text × Sym}
    (h : t.getOrCreate name sym = .ok (r, t')) (hk : t.find? k = some x) : t'.find? k = some x := by
  cases hf : t.find? name with
  | some y => rw [getOrCreate_of_some sym hf] at h; cases h; exact hk
  | none => rw [getOrCreate_of_none sym hf] at h; exact find?_addSymbol h hk

theorem Op.find?_after (op : Op) {t : SymTable} {k : Text} {x : Text × Sym}
    (hk : t.find? k = some x) : (op.after t).find? k = some x := by
  rw [Op.after]
  split
  next r t' h =>
    cases op with
    | addSymbol sym => exact find?_addSymbol h hk
    | getOrCreate name sym => exact find?_getOrCreate h hk
  next => exact hk

theorem find?_after (ops : List Op) {t : SymTable} {k : Text} {x : Text × Sym}
    (hk : t.find? k = some x) : (after ops t).find? k = some x := by
  induction ops generalizing t with
  | nil => exact hk
  | cons op ops ih => exact ih (op.find?_after hk)

/-! ## The law of the store -/

/-- Two symbols can be added one after the other, and both are found afterwards. -/
def AddsBoth (t : SymTable) (a b : Sym) : Prop :=
  ∃ t₁ t₂, t.addSymbol a = .ok (a, t₁) ∧ t₁.addSymbol b = .ok (b, t₂) ∧
    ∃ k l, k ≠ l ∧ t₂.find? k = some (k, a) ∧ t₂.find? l = some (l, b)

/-- What `get_or_create` returned for a name, it returns for that name ever after, and leaves the
table alone. -/
def CreatesOnce (t : SymTable) (name : Text) (sym : Sym) : Prop :=
  ∀ r t₁, t.getOrCreate name sym = .ok (r, t₁) →
    ∀ ops sym', (after ops t₁).getOrCreate name sym' = .ok (r, after ops t₁)

theorem addsBoth_iff (t : SymTable) (a b : Sym) :
    AddsBoth t a b ↔
      t.find? (addressKey a.getAddress) = none ∧ t.find? (addressKey b.getAddress) = none ∧
        a.getAddress.toUInt8 ≠ b.getAddress.toUInt8 := by
  refine ⟨?_, ?_⟩
  · intro ⟨t₁, t₂, ha, hb, _⟩
    cases hfa : t.find? (addressKey a.getAddress) with
    | some x => rw [addSymbol_of_some hfa] at ha; cases ha
    | none =>
        rw [addSymbol_of_none hfa] at ha
        cases ha
        cases hfb : (t.emplace (addressKey a.getAddress, a)).find? (addressKey b.getAddress) with
        | some x => rw [addSymbol_of_some hfb] at hb; cases hb
        | none =>
            rw [Keyed.find?_emplace, Option.or_eq_none_iff] at hfb
            refine ⟨rfl, hfb.1, fun he => ?_⟩
            have := hfb.2
            rw [if_pos (addressKey_inj.mpr he)] at this
            cases this
  · intro ⟨hfa, hfb, hne⟩
    have hkey : addressKey a.getAddress ≠ addressKey b.getAddress :=
      fun h => hne (addressKey_inj.mp h)
    have hfb' : (t.emplace (addressKey a.getAddress, a)).find? (addressKey b.getAddress) = none := by
      rw [Keyed.find?_emplace_ne t hkey, hfb]
    refine ⟨_, _, addSymbol_of_none hfa, addSymbol_of_none hfb', _, _, hkey, ?_, ?_⟩
    · exact Keyed.find?_emplace_of_some _ (Keyed.find?_emplace_self hfa)
    · exact Keyed.find?_emplace_self hfb'

theorem createsOnce_iff (t : SymTable) (name : Text) (sym : Sym) :
    CreatesOnce t name sym ↔ (t.find? name).isSome ∨ name = addressKey sym.getAddress ∨
      (t.find? (addressKey sym.getAddress)).isSome := by
  cases hname : t.find? name with
  | some x =>
      refine iff_of_true (fun r t₁ h ops sym' => ?_) (Or.inl rfl)
      rw [getOrCreate_of_some sym hname] at h
      cases h
      exact getOrCreate_of_some sym' (find?_after ops hname)
  | none =>
      cases hkey : t.find? (addressKey sym.getAddress) with
      | some x =>
          refine iff_of_true (fun r t₁ h => ?_) (Or.inr (Or.inr rfl))
          rw [getOrCreate_of_none sym hname, addSymbol_of_some hkey] at h
          cases h
      | none =>
          have hcall : t.getOrCreate name sym =
              .ok (sym, t.emplace (addressKey sym.getAddress, sym)) := by
            rw [getOrCreate_of_none sym hname, addSymbol_of_none hkey]
          refine ⟨fun h => Or.inr (Or.inl (of_not_not fun hne => ?_)), ?_⟩
          · -- the second call creates the symbol again
            have hagain := h _ _ hcall [] sym
            have hmiss : (t.emplace (addressKey sym.getAddress, sym)).find? name = none := by
              rw [Keyed.find?_emplace_ne t (Ne.symm hne), hname]
            have htaken := Keyed.find?_emplace_self (a := (addressKey sym.getAddress, sym)) hkey
            exact absurd (hagain.symm.trans ((getOrCreate_of_none sym hmiss).trans
              (addSymbol_of_some htaken))) (by simp)
          · rintro (h | rfl | h)
            · cases h
            · intro r t₁ h ops sym'
              rw [hcall] at h
              cases h
              exact getOrCreate_of_some sym' (find?_after ops (Keyed.find?_emplace_self hkey))
            · cases h

/-- **Two symbols can both be added exactly when their keys are free and the low bytes of their
addresses differ.  A symbol is created once exactly when its name is a key already, is the key it is
stored under, or nothing is created.** -/
theorem storeLaw_iff (t : SymTable) :
    (∀ a b, AddsBoth t a b ↔
      t.find? (addressKey a.getAddress) = none ∧ t.find? (addressKey b.getAddress) = none ∧
        a.getAddress.toUInt8 ≠ b.getAddress.toUInt8) ∧
    (∀ name sym, CreatesOnce t name sym ↔ (t.find? name).isSome ∨
      name = addressKey sym.getAddress ∨ (t.find? (addressKey sym.getAddress)).isSome) :=
  ⟨addsBoth_iff t, createsOnce_iff t⟩

/-- Two symbols of different names and addresses collide, and the result of a call is not found. -/
theorem storeLaw_broken :
    ¬AddsBoth .nil (.symbol "a".toList 0x100) (.symbol "b".toList 0x200) ∧
      ¬CreatesOnce .nil "Temporary".toList resultOfTheCall := by
  refine ⟨fun h => ?_, fun h => ?_⟩
  · exact ((addsBoth_iff ..).mp h).2.2 (by decide)
  · rcases (createsOnce_iff ..).mp h with h | h | h
    · cases h
    · exact absurd h (by decide)
    · cases h

end SymTable

/-- The table of the registers. -/
def registerTable : SymTable := Keyed.ofList (registers.map fun r => (r.1, registerOf r))

theorem registerTable_find? {r : Text × Size} (hr : r ∈ registers) :
    registerTable.find? r.1 = some (r.1, registerOf r) := by
  have hnodup : ((registers.map fun r => (r.1, registerOf r)).map Prod.fst).Nodup := by
    rw [List.map_map]
    exact registers_nodup
  exact Keyed.find?_ofList_of_mem hnodup (List.mem_map_of_mem hr)

/-- A register is found by its name when no other name contains it. -/
theorem registerTable_findSymbol {r : Text × Size} {name : Text} (hr : r ∈ registers)
    (hname : '_' :: r.1 = name)
    (hu : ∀ q ∈ registers, name <:+: (registerOf q).getName → q = r) :
    registerTable.findSymbol name = some (.register r.2 name) := by
  have hin : name <:+: (registerOf r).getName := by
    rw [registerOf, hname]
    exact ⟨"((".toList ++ r.2.name ++ ")".toList, ")".toList, rfl⟩
  rw [SymTable.findSymbol_of_unique (Keyed.mem_of_find? (registerTable_find? hr)) hin, registerOf,
    hname]
  intro y hy hin'
  obtain ⟨q, hq, rfl⟩ := List.mem_map.mp (Keyed.mem_of_mem_ofList hy)
  rw [hu q hq hin']

end Befa
