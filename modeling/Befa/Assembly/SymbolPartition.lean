import Befa.Assembly.BufferInvariant

/-!
# The symbols of a file

`getSymbolTable` makes symbols of the records that `fetchSymbolTable` lists.  Whatever was called
before, no record is lost and none is there twice.  A symbol has all records of its address, the
first of them as its origin, and its parent is the one buffered section of that origin.
-/

namespace Befa.Shared

/-- The parent of a symbol is the only section of its origin's section. -/
theorem Held.parent_unique {b : Buffers} (h : Held b) {s : Symbol} (hs : s ∈ b.symbolBuffer) :
    ∃ sec, b.sectionBuffer.filter (fun t => t.ptr = s.parent) = [sec] ∧
      b.sectionBuffer.filter (fun t => t.origin = s.origin.record.sect) = [sec] := by
  obtain ⟨sec, hsec, hp, ho⟩ := h.parents s hs
  exact ⟨sec, List.filter_eq_singleton h.sections.distinct hsec hp,
    List.filter_eq_singleton h.origins hsec ho⟩

/-- The aliases of a symbol lie at its address. -/
theorem alias_getAddress {l : List SymRef} {ss : List Symbol} (h : Merged l ss) {s : Symbol}
    (hs : s ∈ ss) : ∀ a ∈ s.aliases, a.getAddress = s.getAddress := by
  intro a ha
  have hr : a ∈ s.records := List.mem_cons_of_mem _ ha
  rw [h.members s hs] at hr
  exact of_decide_eq_true (List.mem_filter.mp hr).2

/-- After any calls, the symbols of `getSymbolTable` partition the records that `fetchSymbolTable`
lists. -/
theorem getSymbolTable_partition (sort : SectionSort) (source : Source) (cs : List Call) :
    let f := ((State.new source).calls sort cs).getSymbolTable.live
    f.symbolTable.map (·.record) = source.bfd.symbols ∧
    f.symbolBuffer.Pairwise (fun s t => s.getAddress < t.getAddress) ∧
    (f.symbolBuffer.flatMap Symbol.records).Perm f.symbolTable ∧
    (∀ r, ∀ s ∈ f.symbolBuffer, ∀ t ∈ f.symbolBuffer, r ∈ s.records → r ∈ t.records → s = t) ∧
    ∀ s ∈ f.symbolBuffer,
      (∀ a ∈ s.aliases, a.getAddress = s.getAddress) ∧
      s.origin :: s.aliases = f.symbolTable.filter (fun r => r.getAddress = s.getAddress) ∧
      ∃ sec, f.sectionBuffer.filter (fun t => t.ptr = s.parent) = [sec] ∧
        f.sectionBuffer.filter (fun t => t.origin = s.origin.record.sect) = [sec] := by
  intro f
  have hw := calls_running sort cs (new_running source)
  obtain ⟨hm, hsorted⟩ := getSymbolTable_listed hw.sound
  refine ⟨(getSymbolTable_opened hw.opened hw.sound).2, hsorted, hm.perm, ?_, ?_⟩
  · intro r s hs t ht hrs hrt
    exact hm.unique hs ht hrs hrt
  · intro s hs
    exact ⟨alias_getAddress hm hs, hm.members s hs,
      (getSymbolTable_sound hw.sound).held.parent_unique hs⟩

end Befa.Shared
