import Befa.Assembly.BufferInvariant

/-!
# Listing the sections

`getSections` and `getSymbolTable` append to one buffer, and `getSections` sorts it the first time
only.  The sections that `getSymbolTable` appends are those of a first symbol at its address that
`fetchSections` does not list (`foreignSections`).

A file whose symbols come first is sorted with all its sections (`Behind`).  In a file whose
sections come first, the foreign sections stand behind the sorted ones in the order of their
symbols (`Ahead`), and a later listing is in order exactly when they happen to fit (`FitsBehind`).
-/

namespace Befa.Shared

/-! ## Foreign sections -/

/-- The sections that a list of symbols brings to a buffer of `known` ones, in order. -/
def foreignSections (known : List Asection) (syms : List Asymbol) : List Asection :=
  firstsBy id (((firstsBy bfdAsymbolValue syms).map (·.sect)).filter (· ∉ known))

section Foreign

variable {known : List Asection} {syms : List Asymbol} {a : Asymbol}

theorem foreignSections_snoc_of_address (h : ∃ b ∈ syms, bfdAsymbolValue b = bfdAsymbolValue a) :
    foreignSections known (syms ++ [a]) = foreignSections known syms := by
  rw [foreignSections, firstsBy_snoc_of_old h, foreignSections]

theorem foreignSections_snoc_of_known (h : a.sect ∈ known) :
    foreignSections known (syms ++ [a]) = foreignSections known syms := by
  rcases Classical.em (∃ b ∈ syms, bfdAsymbolValue b = bfdAsymbolValue a) with hb | hb
  · exact foreignSections_snoc_of_address hb
  · rw [foreignSections, firstsBy_snoc_of_new fun b hm he => hb ⟨b, hm, he⟩, foreignSections]
    simp [h]

theorem mem_foreignSections {o : Asection} : o ∈ foreignSections known syms ↔
    o ∈ ((firstsBy bfdAsymbolValue syms).map (·.sect)).filter (· ∉ known) := by
  have h : (∃ p ∈ foreignSections known syms, id p = o) ↔ _ := exists_mem_firstsBy
  simpa only [id, exists_eq_right] using h

theorem foreignSections_snoc_of_foreign (h : a.sect ∈ foreignSections known syms) :
    foreignSections known (syms ++ [a]) = foreignSections known syms := by
  rcases Classical.em (∃ b ∈ syms, bfdAsymbolValue b = bfdAsymbolValue a) with hb | hb
  · exact foreignSections_snoc_of_address hb
  · have hf := mem_foreignSections.mp h
    rw [foreignSections, firstsBy_snoc_of_new fun b hm he => hb ⟨b, hm, he⟩, foreignSections,
      List.map_append, List.filter_append]
    have hk : a.sect ∉ known := by simpa using (List.mem_filter.mp hf).2
    have hone : [a.sect].filter (· ∉ known) = [a.sect] := by simp [hk]
    rw [List.map_singleton, hone, firstsBy_snoc_of_old ⟨a.sect, hf, rfl⟩]

theorem foreignSections_snoc_of_new (hb : ∀ b ∈ syms, bfdAsymbolValue b ≠ bfdAsymbolValue a)
    (hk : a.sect ∉ known) (hf : a.sect ∉ foreignSections known syms) :
    foreignSections known (syms ++ [a]) = foreignSections known syms ++ [a.sect] := by
  have hone : [a.sect].filter (· ∉ known) = [a.sect] := by simp [hk]
  rw [foreignSections, firstsBy_snoc_of_new hb, List.map_append, List.filter_append,
    List.map_singleton, hone, firstsBy_snoc_of_new, foreignSections]
  intro o ho he
  exact hf (mem_foreignSections.mpr (by rwa [← show o = a.sect from he]))

end Foreign

/-! ## The loop of `getSymbolTable` -/

/-- Sections `base`, with what symbols bring behind them. -/
def Extends (base : List Section) (known : List Asection) (syms : List Asymbol)
    (secs : List Section) : Prop :=
  ∃ new, secs = base ++ new ∧ new.map (·.origin) = foreignSections known syms

/-- An address has a symbol when it has a record. -/
theorem exists_symbol_iff {l : List SymRef} {ss : List Symbol} (h : Merged l ss) {v : Vma} :
    (∃ s ∈ ss, s.getAddress = v) ↔ ∃ r ∈ l, r.getAddress = v := by
  constructor
  · rintro ⟨s, hs, rfl⟩
    have ho : s.origin ∈ s.records := List.mem_cons_self ..
    rw [h.members s hs] at ho
    exact ⟨s.origin, List.mem_of_mem_filter ho, rfl⟩
  · rintro ⟨r, hr, rfl⟩
    exact h.covers r hr

theorem mergeSymbol_extends {base : List Section} {known : List Asection} {l : List SymRef}
    {b : Buffers} (hknown : ∀ o, (∃ sec ∈ base, sec.origin = o) ↔ o ∈ known)
    (hm : Merged l b.symbolBuffer) (h : Extends base known (l.map (·.record)) b.sectionBuffer)
    (sym : SymRef) :
    Extends base known ((l ++ [sym]).map (·.record)) (mergeSymbol b sym).sectionBuffer := by
  obtain ⟨new, hb, hnew⟩ := h
  have hf : ∀ o, (∃ sec ∈ new, sec.origin = o) ↔ o ∈ foreignSections known (l.map (·.record)) := by
    intro o
    rw [← hnew, List.mem_map]
  rw [List.map_append, List.map_singleton]
  obtain ⟨pre, s, post, hs, hadr, he⟩ | ⟨hadr, ⟨sec, hsec, ho, he⟩ | ⟨hsec, he⟩⟩ :=
    mergeSymbol_cases b sym
  · rw [he]
    obtain ⟨r, hr, hadr⟩ := (exists_symbol_iff hm).mp ⟨s, by simp [hs], hadr⟩
    rw [Extends, foreignSections_snoc_of_address ⟨r.record, List.mem_map_of_mem hr, hadr⟩]
    exact ⟨new, hb, hnew⟩
  · rw [he, Extends]
    rw [hb] at hsec
    rcases List.mem_append.mp hsec with hsec | hsec
    · rw [foreignSections_snoc_of_known ((hknown _).mp ⟨sec, hsec, ho⟩)]
      exact ⟨new, hb, hnew⟩
    · rw [foreignSections_snoc_of_foreign ((hf _).mp ⟨sec, hsec, ho⟩)]
      exact ⟨new, hb, hnew⟩
  · have haddress : ∀ a ∈ l.map (·.record), bfdAsymbolValue a ≠ bfdAsymbolValue sym.record := by
      intro a ha hae
      obtain ⟨r, hr, rfl⟩ := List.mem_map.mp ha
      obtain ⟨s, hs, hadr'⟩ := (exists_symbol_iff hm).mpr ⟨r, hr, hae⟩
      exact hadr s hs hadr'
    have hk : sym.record.sect ∉ known := by
      intro hk
      obtain ⟨sec, hmem, ho⟩ := (hknown _).mpr hk
      exact hsec sec (by simp [hb, hmem]) ho
    have hnf : sym.record.sect ∉ foreignSections known (l.map (·.record)) := by
      intro hnf
      obtain ⟨sec, hmem, ho⟩ := (hf _).mpr hnf
      exact hsec sec (by simp [hb, hmem]) ho
    rw [he, Extends, foreignSections_snoc_of_new haddress hk hnf]
    exact ⟨new ++ [⟨b.next, sym.record.sect⟩], by rw [hb, List.append_assoc], by simp [hnew]⟩

theorem mergeSymbols_extends {base : List Section} {known : List Asection} (later : List SymRef)
    {l : List SymRef} {b : Buffers} (hknown : ∀ o, (∃ sec ∈ base, sec.origin = o) ↔ o ∈ known)
    (hm : Merged l b.symbolBuffer) (h : Extends base known (l.map (·.record)) b.sectionBuffer) :
    Extends base known ((l ++ later).map (·.record)) (mergeSymbols later b).sectionBuffer := by
  induction later generalizing l b with
  | nil => simpa [mergeSymbols] using h
  | cons sym later ih =>
      have hl := ih (mergeSymbol_grouped hm sym) (mergeSymbol_extends hknown hm h sym)
      rwa [List.append_assoc] at hl

/-! ## What the calls do to the section buffer -/

/-- The sections of `fetchSections` are buffered. -/
def Complete (source : Source) (secs : List Section) : Prop :=
  ∀ o ∈ source.sections, ∃ sec ∈ secs, sec.origin = o

/-- The symbols are listed, if there are any. -/
def Filled (source : Source) (w : State) : Prop :=
  w.live.symbolBuffer = [] → source.bfd.symbols = []

/-- The addresses do not increase. -/
abbrev Descending (secs : List Section) : Prop :=
  secs.Pairwise fun s t => t.origin.vma ≤ s.origin.vma

/-- A section that is there is not added. -/
theorem addSections_of_complete {secs : List Asection} {b : Ptr × List Section}
    (h : ∀ o ∈ secs, ∃ sec ∈ b.2, sec.origin = o) : secs.foldl addSection b = b := by
  induction secs with
  | nil => rfl
  | cons o secs ih =>
      have ho : addSection b o = b := by
        rcases addSection_cases b o with ⟨-, he⟩ | ⟨hnew, -⟩
        · exact he
        · obtain ⟨sec, hsec, hp⟩ := h o (List.mem_cons_self ..)
          exact absurd hp (hnew sec hsec)
      rw [List.foldl_cons, ho]
      exact ih fun p hp => h p (List.mem_cons_of_mem _ hp)

/-- The loop buffers the sections it reads, and no others. -/
theorem exists_mem_addSections {secs : List Asection} {b : Ptr × List Section} {o : Asection} :
    (∃ sec ∈ (secs.foldl addSection b).2, sec.origin = o) ↔
      (∃ sec ∈ b.2, sec.origin = o) ∨ o ∈ secs := by
  induction secs generalizing b with
  | nil => simp
  | cons p secs ih =>
      rw [List.foldl_cons, ih, List.mem_cons, ← or_assoc]
      refine or_congr_left ?_
      rcases addSection_cases b p with ⟨hp, he⟩ | ⟨-, he⟩
      · rw [he]
        refine (or_iff_left_of_imp ?_).symm
        rintro rfl
        exact hp
      · rw [he]
        simp only [List.mem_append, List.mem_singleton, or_and_right, exists_or, exists_eq_left]
        exact or_congr_right eq_comm

section Calls

variable {sort : SectionSort} {source : Source} {w : State}

theorem getSections_sectionBuffer (h : Opened source w) :
    (w.getSections sort).live.sectionBuffer =
      if w.live.sectionsSorted then
        (source.sections.foldl addSection (w.next, w.live.sectionBuffer)).2
      else sort.run (source.sections.foldl addSection (w.next, w.live.sectionBuffer)).2 := by
  have hs := fetchSections_sections h
  unfold State.getSections
  rw [fetchSections_eq, hs]

@[simp] theorem getSections_symbolBuffer :
    (w.getSections sort).live.symbolBuffer = w.live.symbolBuffer := by
  unfold State.getSections
  rw [fetchSections_eq]

/-- A listing has the buffered sections and those of `fetchSections`. -/
theorem exists_mem_getSections (h : Opened source w) {o : Asection} :
    (∃ sec ∈ (w.getSections sort).live.sectionBuffer, sec.origin = o) ↔
      (∃ sec ∈ w.live.sectionBuffer, sec.origin = o) ∨ o ∈ source.sections := by
  rw [getSections_sectionBuffer h]
  split
  · exact exists_mem_addSections
  · rw [← exists_mem_addSections (b := (w.next, w.live.sectionBuffer))]
    exact exists_congr fun sec => and_congr_left fun _ => (sort.perm _).mem_iff

theorem getSections_complete (h : Opened source w) :
    Complete source (w.getSections sort).live.sectionBuffer :=
  fun _ ho => (exists_mem_getSections h).mpr (Or.inr ho)

/-- The first listing is sorted. -/
theorem getSections_descending (h : Opened source w) (hs : w.live.sectionsSorted = false) :
    Descending (w.getSections sort).live.sectionBuffer := by
  rw [getSections_sectionBuffer h, hs]
  exact sort.sorted _

/-- A later listing leaves a buffer that has every section. -/
theorem getSections_of_complete (h : Opened source w) (hs : w.live.sectionsSorted = true)
    (hc : Complete source w.live.sectionBuffer) :
    (w.getSections sort).live.sectionBuffer = w.live.sectionBuffer := by
  rw [getSections_sectionBuffer h, if_pos hs,
    addSections_of_complete (b := (w.next, w.live.sectionBuffer)) hc]

@[simp] theorem getSymbolTable_sectionsSorted :
    w.getSymbolTable.live.sectionsSorted = w.live.sectionsSorted := by
  unfold State.getSymbolTable State.fetchSymbolTable
  split
  · split <;> rfl
  · rfl

theorem getSymbolTable_filled (h : Running source w) : Filled source w.getSymbolTable := by
  intro he
  obtain ⟨hm, -⟩ := getSymbolTable_listed h.sound
  obtain ⟨-, htable⟩ := getSymbolTable_opened h.opened h.sound
  rw [he] at hm
  have hnil : w.getSymbolTable.live.symbolTable = [] :=
    List.eq_nil_iff_forall_not_mem.mpr fun r hr => by
      obtain ⟨s, hs, -⟩ := hm.covers r hr
      cases hs
  rw [← htable, hnil, List.map_nil]

/-- Symbols that are listed stay. -/
theorem getSymbolTable_of_listed (hs : w.live.symbolBuffer ≠ []) : w.getSymbolTable = w :=
  if_neg fun he => hs (List.isEmpty_iff.mp he)

/-- The symbols bring the foreign sections, once. -/
theorem getSymbolTable_extends (h : Running source w) (hs : w.live.symbolBuffer = [])
    {known : List Asection}
    (hknown : ∀ o, (∃ sec ∈ w.live.sectionBuffer, sec.origin = o) ↔ o ∈ known) :
    Extends w.live.sectionBuffer known source.bfd.symbols
      w.getSymbolTable.live.sectionBuffer := by
  obtain ⟨-, htable⟩ := fetchSymbolTable_opened h.opened
  have hrun := mergeSymbols_extends w.fetchSymbolTable.live.symbolTable
    (b := ⟨w.fetchSymbolTable.next, [], w.fetchSymbolTable.live.sectionBuffer⟩) hknown Grouped.nil
    ⟨[], by simp, rfl⟩
  rw [List.nil_append, htable] at hrun
  unfold State.getSymbolTable
  rwa [if_pos (by rw [hs]; rfl)]

/-- A file whose symbols are listed keeps its sections. -/
theorem getSymbolTable_of_filled (h : Running source w) (hf : Filled source w) :
    w.getSymbolTable.live.sectionBuffer = w.live.sectionBuffer := by
  rcases Classical.em (w.live.symbolBuffer = []) with hs | hs
  · obtain ⟨new, he, hnew⟩ := getSymbolTable_extends h hs fun o => List.mem_map.symm
    rw [hf hs] at hnew
    rw [he, List.map_eq_nil_iff.mp hnew, List.append_nil]
  · rw [getSymbolTable_of_listed hs]

/-- The other calls do to the sections what `getSymbolTable` does. -/
theorem call_of_ne (sort : SectionSort) (w : State) {c : Call} (hc : c ≠ .getSections) :
    (w.call sort c).live.sectionBuffer = w.getSymbolTable.live.sectionBuffer ∧
      (w.call sort c).live.symbolBuffer = w.getSymbolTable.live.symbolBuffer ∧
      (w.call sort c).live.sectionsSorted = w.live.sectionsSorted := by
  cases c with
  | getSections => exact absurd rfl hc
  | getSymbolTable => exact ⟨rfl, rfl, getSymbolTable_sectionsSorted⟩
  | generateTable => exact ⟨rfl, rfl, getSymbolTable_sectionsSorted⟩
  | runDisassembler => exact ⟨rfl, rfl, getSymbolTable_sectionsSorted⟩

end Calls

/-! ## Symbols first -/

/-- The symbols were listed before the sections. -/
structure Behind (source : Source) (w : State) : Prop where
  filled : Filled source w
  /-- The listing that sorts has every section. -/
  settled : w.live.sectionsSorted = true →
    Complete source w.live.sectionBuffer ∧ Descending w.live.sectionBuffer

section Behind

variable {sort : SectionSort} {source : Source} {w : State}

theorem getSections_behind (hw : Running source w) (h : Behind source w) :
    Behind source (w.getSections sort) ∧
      Descending (w.getSections sort).live.sectionBuffer := by
  have hd : Descending (w.getSections sort).live.sectionBuffer := by
    cases hs : w.live.sectionsSorted with
    | false => exact getSections_descending hw.opened hs
    | true =>
        rw [getSections_of_complete hw.opened hs (h.settled hs).1]
        exact (h.settled hs).2
  refine ⟨⟨?_, fun _ => ⟨getSections_complete hw.opened, hd⟩⟩, hd⟩
  rw [Filled, getSections_symbolBuffer]
  exact h.filled

theorem call_behind (hw : Running source w) (h : Behind source w) (c : Call) :
    Behind source (w.call sort c) := by
  rcases Classical.em (c = .getSections) with rfl | hc
  · exact (getSections_behind hw h).1
  · obtain ⟨hsec, hsym, hs⟩ := call_of_ne sort w hc
    refine ⟨?_, ?_⟩
    · rw [Filled, hsym]
      exact getSymbolTable_filled hw
    · rw [hsec, hs, getSymbolTable_of_filled hw h.filled]
      exact h.settled

/-- A file on which the first call lists symbols. -/
theorem new_behind (sort : SectionSort) {c : Call} (hc : c ≠ .getSections) :
    Behind source ((State.new source).call sort c) := by
  obtain ⟨-, hsym, hs⟩ := call_of_ne sort (State.new source) hc
  refine ⟨?_, fun he => ?_⟩
  · rw [Filled, hsym]
    exact getSymbolTable_filled (new_running source)
  · rw [hs] at he
    cases he

end Behind

/-! ## Sections first -/

/-- The sections were listed before the symbols.  Behind the sorted sections of `fetchSections`
there are `foreign` ones. -/
structure Ahead (source : Source) (foreign : List Asection) (w : State) : Prop where
  sorted : w.live.sectionsSorted = true
  placed : ∃ base new, w.live.sectionBuffer = base ++ new ∧ Descending base ∧
    (∀ o, (∃ sec ∈ base, sec.origin = o) ↔ o ∈ source.sections) ∧ new.map (·.origin) = foreign

/-- The addresses of the foreign sections do not increase, and are not larger than the others. -/
def FitsBehind (source : Source) (foreign : List Asection) : Prop :=
  foreign.Pairwise (fun s t => t.vma ≤ s.vma) ∧
    ∀ s ∈ source.sections, ∀ t ∈ foreign, t.vma ≤ s.vma

section Ahead

variable {sort : SectionSort} {source : Source} {foreign : List Asection} {w : State}

theorem Ahead.complete (h : Ahead source foreign w) : Complete source w.live.sectionBuffer := by
  obtain ⟨base, new, hb, -, hbase, -⟩ := h.placed
  intro o ho
  obtain ⟨sec, hsec, he⟩ := (hbase o).mpr ho
  exact ⟨sec, by simp [hb, hsec], he⟩

/-- The buffer is in order when the foreign sections fit. -/
theorem Ahead.descending_iff (h : Ahead source foreign w) :
    Descending w.live.sectionBuffer ↔ FitsBehind source foreign := by
  obtain ⟨base, new, hb, hd, hbase, rfl⟩ := h.placed
  rw [hb, Descending, List.pairwise_append, FitsBehind, List.pairwise_map]
  refine (and_iff_right hd).trans (and_congr_right fun _ => ?_)
  constructor
  · intro hall o ho p hp
    obtain ⟨s, hs, rfl⟩ := (hbase o).mpr ho
    obtain ⟨t, ht, rfl⟩ := List.mem_map.mp hp
    exact hall s hs t ht
  · intro hall s hs t ht
    exact hall s.origin ((hbase _).mp ⟨s, hs, rfl⟩) t.origin (List.mem_map_of_mem ht)

theorem getSections_ahead (hw : Running source w) (h : Ahead source foreign w) :
    Ahead source foreign (w.getSections sort) := by
  refine ⟨rfl, ?_⟩
  rw [getSections_of_complete hw.opened h.sorted h.complete]
  exact h.placed

/-- A file on which the first call lists sections. -/
theorem new_ahead : Ahead source [] ((State.new source).getSections sort) := by
  refine ⟨rfl, _, [], (List.append_nil _).symm, ?_, ?_, rfl⟩
  · exact getSections_descending (new_opened source) rfl
  · intro o
    rw [exists_mem_getSections (new_opened source)]
    simp [State.new, ExecutableFile.new]

/-- The symbols bring the foreign sections. -/
theorem call_ahead_of_unlisted (hw : Running source w) (h : Ahead source [] w)
    (hs : w.live.symbolBuffer = []) {c : Call} (hc : c ≠ .getSections) :
    Ahead source (foreignSections source.sections source.bfd.symbols) (w.call sort c) ∧
      Filled source (w.call sort c) := by
  obtain ⟨hsec, hsym, hsorted⟩ := call_of_ne sort w hc
  obtain ⟨base, new, hb, hd, hbase, hnew⟩ := h.placed
  rw [List.map_eq_nil_iff.mp hnew, List.append_nil] at hb
  refine ⟨⟨hsorted.trans h.sorted, ?_⟩, ?_⟩
  · obtain ⟨added, he, hadded⟩ := getSymbolTable_extends hw hs (by rwa [hb])
    exact ⟨base, added, by rw [hsec, he, hb], hd, hbase, hadded⟩
  · rw [Filled, hsym]
    exact getSymbolTable_filled hw

theorem call_ahead_of_filled (hw : Running source w) (h : Ahead source foreign w)
    (hf : Filled source w) (c : Call) :
    Ahead source foreign (w.call sort c) ∧ Filled source (w.call sort c) := by
  rcases Classical.em (c = .getSections) with rfl | hc
  · refine ⟨getSections_ahead hw h, ?_⟩
    rw [Filled, State.call, getSections_symbolBuffer]
    exact hf
  · obtain ⟨hsec, hsym, hsorted⟩ := call_of_ne sort w hc
    refine ⟨⟨hsorted.trans h.sorted, ?_⟩, ?_⟩
    · rw [hsec, getSymbolTable_of_filled hw hf]
      exact h.placed
    · rw [Filled, hsym]
      exact getSymbolTable_filled hw

/-- Until the symbols are listed there is no foreign section, and from then on there are all. -/
theorem calls_ahead (cs : List Call) (hw : Running source w) (h : Ahead source [] w)
    (hs : w.live.symbolBuffer = []) :
    ((∀ c ∈ cs, c = .getSections) → Ahead source [] (w.calls sort cs)) ∧
      ((∃ c ∈ cs, c ≠ .getSections) →
        Ahead source (foreignSections source.sections source.bfd.symbols) (w.calls sort cs)) := by
  induction cs generalizing w with
  | nil => exact ⟨fun _ => h, fun ⟨_, hc, _⟩ => absurd hc List.not_mem_nil⟩
  | cons c cs ih =>
      have hrun := call_running sort hw c
      rcases Classical.em (c = .getSections) with rfl | hc
      · have hrest := ih hrun (getSections_ahead hw h) (by rw [State.call]; simpa using hs)
        exact ⟨fun hall => hrest.1 fun d hd => hall d (List.mem_cons_of_mem _ hd),
          fun hex => hrest.2 (by simpa using hex)⟩
      · refine ⟨fun hall => absurd (hall c (List.mem_cons_self ..)) hc, fun _ => ?_⟩
        exact (calls_invariant sort (I := fun v => Ahead source
            (foreignSections source.sections source.bfd.symbols) v ∧ Filled source v)
          (fun v d hv hI => call_ahead_of_filled hv hI.1 hI.2 d) cs hrun
          (call_ahead_of_unlisted hw h hs hc)).1

end Ahead

/-! ## Listings -/

/-- What `getSections` has to return after the calls `pre`. -/
structure GoodListing (sort : SectionSort) (source : Source) (pre : List Call)
    (secs : List Section) : Prop where
  descending : Descending secs
  /-- No section twice. -/
  distinct : (secs.map (·.origin)).Nodup
  complete : Complete source secs
  /-- The parents of the symbols that `getSymbolTable` returned before. -/
  parents : ∀ p q, pre = p ++ .getSymbolTable :: q →
    ∀ s ∈ ((State.new source).calls sort (p ++ [.getSymbolTable])).live.symbolBuffer,
      ∃ sec ∈ secs, sec.ptr = s.parent

/-- Every call of `getSections` returns what it has to. -/
def ListsSections (sort : SectionSort) (source : Source) (cs : List Call) : Prop :=
  ∀ pre post, cs = pre ++ .getSections :: post → GoodListing sort source pre
    ((State.new source).calls sort (pre ++ [.getSections])).live.sectionBuffer

/-- Sections are listed first, then symbols, and then sections again. -/
def Straddles (cs : List Call) : Prop :=
  ∃ pre c post, cs = .getSections :: (pre ++ c :: post) ∧ c ≠ .getSections ∧ .getSections ∈ post

section Listing

variable {sort : SectionSort} {source : Source} {w : State}

theorem calls_append (p q : List Call) : w.calls sort (p ++ q) = (w.calls sort p).calls sort q :=
  List.foldl_append

theorem calls_getSections (pre : List Call) :
    w.calls sort (pre ++ [.getSections]) = (w.calls sort pre).getSections sort :=
  calls_append ..

/-- Symbols that are listed stay. -/
theorem mem_call_symbolBuffer {s : Symbol} (hs : s ∈ w.live.symbolBuffer) (c : Call) :
    s ∈ (w.call sort c).live.symbolBuffer := by
  rcases Classical.em (c = .getSections) with rfl | hc
  · rw [State.call, getSections_symbolBuffer]
    exact hs
  · rw [(call_of_ne sort w hc).2.1, getSymbolTable_of_listed (List.ne_nil_of_mem hs)]
    exact hs

/-- Only the order of a listing can go wrong. -/
theorem goodListing_iff (pre : List Call) : GoodListing sort source pre
    ((State.new source).calls sort (pre ++ [.getSections])).live.sectionBuffer ↔
      Descending ((State.new source).calls sort (pre ++ [.getSections])).live.sectionBuffer := by
  refine ⟨fun h => h.descending, fun hd => ?_⟩
  have hpre := calls_running sort pre (new_running source)
  have hw := calls_running sort (pre ++ [.getSections]) (new_running source)
  refine ⟨hd, hw.sound.held.origins, ?_, ?_⟩
  · rw [calls_getSections]
    exact getSections_complete hpre.opened
  · rintro p q rfl s hs
    have hp := calls_running sort (p ++ [.getSymbolTable]) (new_running source)
    have hsplit : p ++ .getSymbolTable :: q ++ [.getSections] =
        p ++ [.getSymbolTable] ++ (q ++ [.getSections]) := by simp
    rw [hsplit, calls_append] at hw ⊢
    have hmem := calls_invariant sort (I := fun v => s ∈ v.live.symbolBuffer)
      (fun _ c _ hI => mem_call_symbolBuffer hI c) (q ++ [.getSections]) hp hs
    obtain ⟨sec, hsec, hparent, -⟩ := hw.sound.held.parents s hmem
    exact ⟨sec, hsec, hparent⟩

/-- A listing behind calls of which the first lists symbols. -/
theorem descending_of_symbols_first {c : Call} (hc : c ≠ .getSections) (pre : List Call) :
    Descending ((State.new source).calls sort (c :: pre ++ [.getSections])).live.sectionBuffer := by
  have hrun := call_running sort (new_running source) c
  have hbehind := calls_invariant sort (fun _ d hv hI => call_behind hv hI d) pre hrun
    (new_behind sort hc)
  rw [calls_getSections]
  exact (getSections_behind (calls_running sort pre hrun) hbehind).2

/-- A listing behind calls of which the first lists sections. -/
theorem descending_iff_of_sections_first (pre : List Call) :
    Descending ((State.new source).calls sort
        (.getSections :: pre ++ [.getSections])).live.sectionBuffer ↔
      ((∃ c ∈ pre, c ≠ .getSections) →
        FitsBehind source (foreignSections source.sections source.bfd.symbols)) := by
  have hrun := call_running sort (new_running source) .getSections
  have hpre := calls_running sort pre hrun
  obtain ⟨hall, hex⟩ := calls_ahead pre hrun new_ahead (by rw [State.call]; rfl)
  rw [calls_getSections]
  rcases Classical.em (∃ c ∈ pre, c ≠ .getSections) with hc | hc
  · rw [imp_iff_right hc]
    exact (getSections_ahead hpre (hex hc)).descending_iff
  · have hfits : FitsBehind source [] := ⟨.nil, by simp⟩
    have ha := hall fun c hm => by_contra fun hne => hc ⟨c, hm, hne⟩
    exact iff_of_true ((getSections_ahead hpre ha).descending_iff.mpr hfits) fun h => absurd h hc

end Listing

/-- The listings are right unless one straddles the symbols and the foreign sections do not fit. -/
theorem listsSections_iff (sort : SectionSort) (source : Source) (cs : List Call) :
    ListsSections sort source cs ↔
      ¬Straddles cs ∨ FitsBehind source (foreignSections source.sections source.bfd.symbols) := by
  constructor
  · intro h
    refine or_iff_not_imp_left.mpr fun hs => ?_
    obtain ⟨pre, c, post, rfl, hc, hpost⟩ := not_not.mp hs
    obtain ⟨q, r, rfl⟩ := List.append_of_mem hpost
    have hlist := (h (.getSections :: (pre ++ c :: q)) r (by simp)).descending
    exact (descending_iff_of_sections_first _).mp hlist ⟨c, by simp, hc⟩
  · rintro h pre post rfl
    rw [goodListing_iff]
    cases pre with
    | nil =>
        rw [calls_getSections]
        exact getSections_descending (new_opened source) rfl
    | cons c pre =>
        rcases Classical.em (c = .getSections) with rfl | hc
        · rw [descending_iff_of_sections_first]
          rintro ⟨d, hd, hne⟩
          obtain ⟨a, b, rfl⟩ := List.append_of_mem hd
          exact h.resolve_left fun hs => hs ⟨a, d, b ++ .getSections :: post, by simp, hne, by simp⟩
        · exact descending_of_symbols_first hc pre

/-- A section at 0x1000, and a symbol of one at 0x2000 that `fetchSections` does not list. -/
def foreignSource : Source where
  bfd :=
    { symbols := [⟨0, "x".toList, 0, 0, ⟨2, ".far".toList, 0x2000, 8⟩⟩]
      contents := fun _ _ => 0
      disassembler := none }
  sections := [⟨1, ".text".toList, 0x1000, 8⟩]
  synthetic := 0

/-- Listed a second time, behind the symbols, the sections are not in order. -/
theorem foreignSource_straddled :
    ¬ListsSections .insertion foreignSource [.getSections, .getSymbolTable, .getSections] := by
  intro h
  have hlist := (h [.getSections, .getSymbolTable] [] rfl).descending
  exact absurd hlist (by decide +kernel)

end Befa.Shared
