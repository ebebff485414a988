import Befa.Assembly.WindowOrder

/-!
# Windows and sections

The window of a symbol ends with its section when no function comes behind it, and else at the
next function, wherever that lies.  The two distances are differences of 64-bit words.

`staysInside_iff` says when the window of a symbol stays inside of its section.  Only the second
kind of window can leave it, when the next function lies in another section.
-/

namespace Befa

/-- The address of the symbol lies in its section, the end included. -/
structure Symbol.InSection (s : Symbol) : Prop where
  fromStart : s.parent.getAddress.toNat ≤ s.getAddress.toNat
  toEnd : s.getAddress.toNat ≤ s.parent.getAddress.toNat + s.parent.getSize.toNat

/-- The distance that `sym_size` stands for, without a wrap-around. -/
def exactSize (s : Symbol) (rest : List Symbol) : Int :=
  match closest s rest with
  | none => s.parent.getSize.toNat - (s.getAddress.toNat - s.parent.getAddress.toNat : Int)
  | some c => c.getAddress.toNat - s.getAddress.toNat

/-- The window of a symbol is the distance it stands for, and ends inside of the section. -/
structure StaysInside (s : Symbol) (rest : List Symbol) : Prop where
  exact : ((symSize s rest).toNat : Int) = exactSize s rest
  inside : s.getAddress.toNat + (symSize s rest).toNat ≤
    s.parent.getAddress.toNat + s.parent.getSize.toNat

/-- There is no function behind the symbol, or there is one that lies in its section or at the end
of it. -/
def FunctionInside (s : Symbol) (rest : List Symbol) : Prop :=
  (∀ c ∈ rest, c.origin.IsFunction → ¬s.getAddress < c.getAddress) ∨
    ∃ c ∈ rest, c.origin.IsFunction ∧ s.getAddress < c.getAddress ∧
      c.getAddress.toNat ≤ s.parent.getAddress.toNat + s.parent.getSize.toNat

/-! ## The function a window ends at -/

theorem closest_none_iff {s : Symbol} {rest : List Symbol} :
    closest s rest = none ↔ ∀ c ∈ rest, c.origin.IsFunction → ¬s.getAddress < c.getAddress := by
  rw [closest, List.find?_eq_none]
  simp only [List.mem_cons, decide_eq_true_eq, forall_eq_or_imp, not_and]
  exact and_iff_right fun _ => lt_irrefl _

/-- In a sorted table no function behind the symbol comes before the closest one. -/
theorem closest_some {s c : Symbol} {rest : List Symbol} (h : closest s rest = some c)
    (hsorted : (s :: rest).Pairwise fun x y => x.getAddress ≤ y.getAddress) :
    c ∈ rest ∧ c.origin.IsFunction ∧ s.getAddress < c.getAddress ∧
      ∀ d ∈ rest, d.origin.IsFunction → s.getAddress < d.getAddress →
        c.getAddress ≤ d.getAddress := by
  obtain ⟨hc, before, after, hsplit, hbefore⟩ := List.find?_eq_some_iff_append.mp h
  obtain ⟨hfun, hlt⟩ := of_decide_eq_true hc
  have hmem : c ∈ s :: rest := hsplit ▸ List.mem_append_right _ (List.mem_cons_self ..)
  refine ⟨(List.mem_cons.mp hmem).resolve_left fun he => lt_irrefl _ (he ▸ hlt), hfun, hlt, ?_⟩
  intro d hd hdfun hdlt
  rw [hsplit] at hsorted
  have hd' : d ∈ before ++ c :: after := hsplit ▸ List.mem_cons_of_mem _ hd
  rcases List.mem_append.mp hd' with hd' | hd'
  · have hnot := hbefore d hd'
    rw [Bool.not_eq_true', decide_eq_false_iff_not] at hnot
    exact absurd ⟨hdfun, hdlt⟩ hnot
  · rcases List.mem_cons.mp hd' with rfl | hd'
    · exact le_refl _
    · exact (List.pairwise_cons.mp (List.pairwise_append.mp hsorted).2.1).1 d hd'

/-! ## Windows -/

/-- A window that ends with its section is exact and stays inside. -/
theorem staysInside_of_none {s : Symbol} {rest : List Symbol} (hs : s.InSection)
    (h : closest s rest = none) : StaysInside s rest := by
  obtain ⟨hstart, hend⟩ := hs
  have hle : s.parent.getAddress ≤ s.getAddress := UInt64.le_iff_toNat_le.mpr hstart
  have hoff : (s.getAddress - s.parent.getAddress).toNat =
      s.getAddress.toNat - s.parent.getAddress.toNat := UInt64.toNat_sub_of_le _ _ hle
  have hin : s.getAddress - s.parent.getAddress ≤ s.parent.getSize := by
    rw [UInt64.le_iff_toNat_le, hoff]
    omega
  have hsize : (symSize s rest).toNat =
      s.parent.getSize.toNat - (s.getAddress.toNat - s.parent.getAddress.toNat) := by
    rw [symSize, h, ← hoff]
    exact UInt64.toNat_sub_of_le _ _ hin
  constructor
  · rw [exactSize, h, hsize]
    dsimp only
    omega
  · rw [hsize]
    omega

/-- A window that ends at a function is exact, and stays inside when the function does. -/
theorem staysInside_of_some {s c : Symbol} {rest : List Symbol} (h : closest s rest = some c)
    (hlt : s.getAddress < c.getAddress) :
    StaysInside s rest ↔
      c.getAddress.toNat ≤ s.parent.getAddress.toNat + s.parent.getSize.toNat := by
  have hlt' := UInt64.lt_iff_toNat_lt.mp hlt
  have hsize : (symSize s rest).toNat = c.getAddress.toNat - s.getAddress.toNat := by
    rw [symSize, h]
    exact UInt64.toNat_sub_of_le _ _ hlt.le
  constructor
  · rintro ⟨-, hin⟩
    rw [hsize] at hin
    omega
  · intro hin
    constructor
    · rw [exactSize, h, hsize]
      dsimp only
      omega
    · rw [hsize]
      omega

/-- The window of a symbol in its section stays inside of it, when the functions behind it say
so. -/
theorem staysInside_iff {s : Symbol} {rest : List Symbol}
    (hsorted : (s :: rest).Pairwise fun x y => x.getAddress ≤ y.getAddress) (hs : s.InSection) :
    StaysInside s rest ↔ FunctionInside s rest := by
  cases h : closest s rest with
  | none => exact iff_of_true (staysInside_of_none hs h) (Or.inl (closest_none_iff.mp h))
  | some c =>
      obtain ⟨hmem, hfun, hlt, hleast⟩ := closest_some h hsorted
      rw [staysInside_of_some h hlt]
      constructor
      · intro hin
        exact Or.inr ⟨c, hmem, hfun, hlt, hin⟩
      · rintro (hnone | ⟨d, hd, hdfun, hdlt, hin⟩)
        · exact absurd hlt (hnone c hmem hfun)
        · exact (UInt64.le_iff_toNat_le.mp (hleast d hd hdfun hdlt)).trans hin

/-! ## The windows of a table -/

theorem sublist_of_mem_iterators {α : Type} {l rest : List α} {a : α}
    (h : (a, rest) ∈ iterators l) : (a :: rest).Sublist l := by
  induction l with
  | nil => cases h
  | cons b l ih =>
      rcases List.mem_cons.mp h with he | h
      · obtain ⟨rfl, rfl⟩ := Prod.mk.inj he
        exact List.Sublist.refl _
      · exact (ih h).cons b

/-- A window is that of a symbol of the table, with the symbols behind it. -/
theorem window_of_mem {table : List Symbol}
    (hsorted : table.Pairwise fun x y => x.getAddress ≤ y.getAddress) {w : Symbol × Vma}
    (hw : w ∈ windows table) :
    ∃ rest, (w.1, rest) ∈ iterators table ∧ w.2 = symSize w.1 rest ∧
      (w.1 :: rest).Pairwise fun x y => x.getAddress ≤ y.getAddress := by
  rw [windows, List.mem_filterMap] at hw
  obtain ⟨⟨s, rest⟩, hite, hw⟩ := hw
  obtain ⟨-, rfl⟩ := window_eq_some hw
  exact ⟨rest, hite, rfl, hsorted.sublist (sublist_of_mem_iterators hite)⟩

/-- **The window of a decoded symbol stays inside of its section** exactly when no function comes
behind the symbol, or one does that lies in the section or at the end of it. -/
theorem windows_stayInside_iff {table : List Symbol}
    (hsorted : table.Pairwise fun x y => x.getAddress ≤ y.getAddress) {w : Symbol × Vma}
    (hw : w ∈ windows table) (hs : w.1.InSection) :
    ∃ rest, (w.1, rest) ∈ iterators table ∧ w.2 = symSize w.1 rest ∧
      (StaysInside w.1 rest ↔ FunctionInside w.1 rest) := by
  obtain ⟨rest, hite, hsize, hbehind⟩ := window_of_mem hsorted hw
  exact ⟨rest, hite, hsize, staysInside_iff hbehind hs⟩

/-- Two functions of one section. -/
theorem windows_stayInside_text :
    ∃ rest, (functionAt "f".toList 0, rest) ∈
        iterators [functionAt "f".toList 0, functionAt "g".toList 8] ∧
      8 = symSize (functionAt "f".toList 0) rest ∧
      (StaysInside (functionAt "f".toList 0) rest ↔
        FunctionInside (functionAt "f".toList 0) rest) :=
  windows_stayInside_iff (w := (functionAt "f".toList 0, 8)) (by decide) (by decide +kernel)
    ⟨by decide, by decide⟩

/-- In every run the windows of symbols in their sections are those of the table. -/
theorem ExecutableFile.decodes_stayInside (f : ExecutableFile)
    {v : Visit (Symbol × Vma) Blocks Instruction Text} (hv : v ∈ f.decodes)
    (hs : v.input.1.InSection) :
    ∃ rest, (v.input.1, rest) ∈ iterators (symbolTable f.fd.symbols) ∧
      v.input.2 = symSize v.input.1 rest ∧
      (StaysInside v.input.1 rest ↔ FunctionInside v.input.1 rest) := by
  have hsorted := (symbolTable_sorted f.fd.symbols).imp fun h => h.le
  obtain ⟨rest, hite, hsize, hbehind⟩ := window_of_mem hsorted (visit_input_mem hv)
  exact ⟨rest, hite, hsize, staysInside_iff hbehind hs⟩

/-! ## A function in the next section -/

/-- A section of sixteen bytes at `0x400`, in front of the text section. -/
def initSection : Asection := ⟨5, ".init".toList, 0x400, 0x10⟩

/-- A function of that section, and one of the text section. -/
def initSymbols : List Asymbol :=
  [⟨6, "_init".toList, 0, bsfFunction, initSection⟩, (functionAt "f".toList 0).origin]

/-- The window of the first function has `0xc00` bytes, and its section sixteen. -/
theorem initSymbols_leave :
    ∃ s rest, (s, rest) ∈ iterators (symbolTable initSymbols) ∧
      s.hasFlags bsfFunction = true ∧ s.InSection ∧ ¬StaysInside s rest := by
  refine ⟨⟨⟨6, "_init".toList, 0, bsfFunction, initSection⟩, ⟨initSection⟩, []⟩,
    [functionAt "f".toList 0], by decide +kernel, by decide, ⟨by decide, by decide⟩, fun h => ?_⟩
  exact absurd h.inside (by decide)

end Befa
