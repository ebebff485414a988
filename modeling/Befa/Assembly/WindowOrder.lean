import Befa.Assembly.FunctionCode

/-!
# The order of the windows

A symbol is decoded when it or one of its aliases is flagged as a function.  Its window ends at
the next symbol that is flagged as a function itself.  So a window runs over the symbols behind it
that are functions by an alias only, and those are decoded once more on their own.

`WindowsEnd` says in terms of the table when a run decodes no address twice, and
`increasing_iff` that it is exact: the addresses a run emits increase strictly, whatever the
sections hold and whatever the disassembler does, exactly when the table has the property.  A run
whose offsets overflow has no result.  The windows are converted to `int` before use, which shortens
those of `2 ^ 31` bytes and more.
-/

namespace Befa

/-- Every window of the table ends before the next symbol that is decoded with a window of its
own, and before the end of the address space. -/
structure WindowsEnd (table : List Symbol) : Prop where
  /-- A window that ends at the function `c`, and a symbol decoded in between. -/
  atFunction : ∀ pre s mid c post, table = pre ++ s :: (mid ++ c :: post) →
    s.hasFlags bsfFunction = true → c.origin.IsFunction →
    (∀ m ∈ mid, ¬m.origin.IsFunction) → ∀ t ∈ mid, t.hasFlags bsfFunction = true →
    0 < asInt (c.getAddress - t.getAddress) →
    s.getAddress.toNat + asInt (c.getAddress - s.getAddress) ≤ t.getAddress.toNat
  /-- A window that ends with its section, and a symbol decoded behind it. -/
  atSectionEnd : ∀ pre s post, table = pre ++ s :: post → s.hasFlags bsfFunction = true →
    (∀ m ∈ post, ¬m.origin.IsFunction) →
    s.getAddress.toNat + asInt s.getDistanceToEnd ≤ 2 ^ 64 ∧
    ∀ t ∈ post, t.hasFlags bsfFunction = true → 0 < asInt t.getDistanceToEnd →
      s.getAddress.toNat + asInt s.getDistanceToEnd ≤ t.getAddress.toNat

/-! ## The windows of a table -/

theorem windows_cons_of_flag {s : Symbol} (table : List Symbol)
    (h : s.hasFlags bsfFunction = true) :
    windows (s :: table) = (s, symSize s table) :: windows table :=
  List.filterMap_cons_some (if_pos h)

theorem windows_cons_of_not {s : Symbol} (table : List Symbol)
    (h : ¬s.hasFlags bsfFunction = true) : windows (s :: table) = windows table :=
  List.filterMap_cons_none (if_neg h)

theorem forall_windows {P : Symbol × Vma → Prop} (table : List Symbol) :
    (∀ w ∈ windows table, P w) ↔
      ∀ pre s post, table = pre ++ s :: post → s.hasFlags bsfFunction = true →
        P (s, symSize s post) := by
  induction table with
  | nil => simp [windows, iterators]
  | cons s table ih =>
      constructor
      · intro hall pre t post hsplit ht
        cases pre with
        | nil =>
            obtain ⟨rfl, rfl⟩ := List.cons.inj hsplit
            exact hall _ (windows_cons_of_flag table ht ▸ List.mem_cons_self ..)
        | cons p pre =>
            obtain ⟨rfl, rfl⟩ := List.cons.inj hsplit
            refine ih.mp (fun w hw => hall w ?_) pre t post rfl ht
            by_cases hs : s.hasFlags bsfFunction = true
            · rw [windows_cons_of_flag _ hs]
              exact List.mem_cons_of_mem _ hw
            · rwa [windows_cons_of_not _ hs]
      · intro hall w hw
        have htail := ih.mpr fun pre t post hsplit =>
          hall (s :: pre) t post (congrArg (s :: ·) hsplit)
        by_cases hs : s.hasFlags bsfFunction = true
        · rw [windows_cons_of_flag _ hs] at hw
          cases List.mem_cons.mp hw with
          | inl he => exact he ▸ hall [] s table rfl hs
          | inr hm => exact htail w hm
        · exact htail w (windows_cons_of_not _ hs ▸ hw)

theorem pairwise_windows {R : Symbol × Vma → Symbol × Vma → Prop} (table : List Symbol) :
    (windows table).Pairwise R ↔
      ∀ pre s post, table = pre ++ s :: post → s.hasFlags bsfFunction = true →
        ∀ w ∈ windows post, R (s, symSize s post) w := by
  induction table with
  | nil => simp [windows, iterators]
  | cons s table ih =>
      constructor
      · intro hp pre t post hsplit ht
        cases pre with
        | nil =>
            obtain ⟨rfl, rfl⟩ := List.cons.inj hsplit
            rw [windows_cons_of_flag _ ht] at hp
            exact (List.pairwise_cons.mp hp).1
        | cons p pre =>
            obtain ⟨rfl, rfl⟩ := List.cons.inj hsplit
            refine ih.mp ?_ pre t post rfl ht
            by_cases hs : s.hasFlags bsfFunction = true
            · rw [windows_cons_of_flag _ hs] at hp
              exact (List.pairwise_cons.mp hp).2
            · rwa [windows_cons_of_not _ hs] at hp
      · intro hall
        have htail := ih.mpr fun pre t post hsplit =>
          hall (s :: pre) t post (congrArg (s :: ·) hsplit)
        by_cases hs : s.hasFlags bsfFunction = true
        · rw [windows_cons_of_flag _ hs]
          exact List.Pairwise.cons (hall [] s table rfl hs) htail
        · rwa [windows_cons_of_not _ hs]

/-- The window of a symbol ends at the first function behind it. -/
theorem symSize_of_function {s c : Symbol} {mid post : List Symbol}
    (hlt : s.getAddress < c.getAddress) (hmid : ∀ m ∈ mid, ¬m.origin.IsFunction)
    (hc : c.origin.IsFunction) :
    symSize s (mid ++ c :: post) = c.getAddress - s.getAddress := by
  have hclosest : closest s (mid ++ c :: post) = some c := by
    refine List.find?_eq_some_iff_append.mpr ⟨decide_eq_true ⟨hc, hlt⟩, s :: mid, post, rfl, ?_⟩
    intro m hm
    simp only [Bool.not_eq_true', decide_eq_false_iff_not]
    intro ⟨hf, hlt'⟩
    cases List.mem_cons.mp hm with
    | inl he => exact lt_irrefl _ (he ▸ hlt')
    | inr hm => exact hmid m hm hf
  rw [symSize, hclosest]
  rfl

theorem symSize_of_last {s : Symbol} {post : List Symbol}
    (hpost : ∀ m ∈ post, ¬m.origin.IsFunction) : symSize s post = s.getDistanceToEnd := by
  have hclosest : closest s post = none := by
    refine List.find?_eq_none.mpr fun m hm => ?_
    rw [decide_eq_true_eq]
    intro ⟨hf, hlt⟩
    cases List.mem_cons.mp hm with
    | inl he => exact lt_irrefl _ (he ▸ hlt)
    | inr hm => exact hpost m hm hf
  rw [symSize, hclosest]

theorem first_function (post : List Symbol) :
    (∀ m ∈ post, ¬m.origin.IsFunction) ∨ ∃ mid c rest, post = mid ++ c :: rest ∧
      c.origin.IsFunction ∧ ∀ m ∈ mid, ¬m.origin.IsFunction := by
  cases h : post.find? (fun m => decide m.origin.IsFunction) with
  | none => exact Or.inl fun m hm => by simpa using List.find?_eq_none.mp h m hm
  | some c =>
      obtain ⟨hc, mid, rest, rfl, hmid⟩ := List.find?_eq_some_iff_append.mp h
      exact Or.inr ⟨mid, c, rest, rfl, by simpa using hc, fun m hm => by simpa using hmid m hm⟩

/-- One window ends before another starts, unless the other is empty. -/
def EndsBefore (w w' : Symbol × Vma) : Prop :=
  0 < asInt w'.2 → w.1.getAddress.toNat + asInt w.2 ≤ w'.1.getAddress.toNat

/-- A distance upwards, converted to `int`, does not reach beyond its end. -/
theorem add_asInt_le {a b : Vma} (h : a ≤ b) : a.toNat + asInt (b - a) ≤ b.toNat := by
  have hle := asInt_le (b - a)
  rw [UInt64.toNat_sub_of_le _ _ h] at hle
  have hab := UInt64.le_iff_toNat_le.mp h
  omega

/-- Two elements of a list: the second one comes at the first one or before it, or behind it. -/
theorem split_cases {α : Type} {mid rest mid' rest' : List α} {t c : α}
    (h : mid ++ t :: rest = mid' ++ c :: rest') :
    c ∈ mid ++ [t] ∨ ∃ a, mid' = mid ++ t :: a ∧ rest = a ++ c :: rest' := by
  rcases List.append_eq_append_iff.mp h with ⟨a, rfl, ha⟩ | ⟨a, rfl, ha⟩
  · cases a with
    | nil => exact Or.inl (by simp [(List.cons.inj ha).1])
    | cons b a =>
        obtain ⟨rfl, rfl⟩ := List.cons.inj ha
        exact Or.inr ⟨a, rfl, rfl⟩
  · cases a with
    | nil => exact Or.inl (by simp [(List.cons.inj ha).1])
    | cons b a =>
        obtain ⟨rfl, _⟩ := List.cons.inj ha
        exact Or.inl (by simp)

/-- The property of the table says that its windows end before the next ones start. -/
theorem windowsEnd_iff {table : List Symbol}
    (hsorted : table.Pairwise fun s t => s.getAddress < t.getAddress) :
    WindowsEnd table ↔ (windows table).Pairwise EndsBefore ∧
      ∀ w ∈ windows table, w.1.getAddress.toNat + asInt w.2 ≤ 2 ^ 64 := by
  rw [pairwise_windows, forall_windows]
  have hbehind : ∀ {pre s post}, table = pre ++ s :: post →
      (s :: post).Pairwise fun s t => s.getAddress < t.getAddress := fun h =>
    (List.pairwise_append.mp (h ▸ hsorted)).2.1
  constructor
  · intro ⟨hfun, hend⟩
    constructor
    · intro pre s post hsplit hs
      have hp := List.pairwise_cons.mp (hbehind hsplit)
      refine (forall_windows _).mpr fun mid t rest hpost ht hpos => ?_
      subst hpost
      rcases first_function (mid ++ t :: rest) with hnone | ⟨mid', c, rest', heq, hc, hmid'⟩
      · rw [symSize_of_last hnone]
        have hlast := (hend pre s _ hsplit hs hnone).2 t (by simp) ht
        rw [symSize_of_last fun m hm => hnone m (by simp [hm])] at hpos
        exact hlast hpos
      · have hc' : c ∈ mid ++ t :: rest := heq ▸ by simp
        have hlt := hp.1 c hc'
        rw [heq, symSize_of_function hlt hmid' hc]
        rcases split_cases heq with hle | ⟨a, rfl, rfl⟩
        · have htc := (List.pairwise_append.mp hp.2).2.2
          refine (add_asInt_le hlt.le).trans (Int.ofNat_le.mpr (UInt64.le_iff_toNat_le.mp ?_))
          cases List.mem_append.mp hle with
          | inl hm => exact (htc c hm t (List.mem_cons_self ..)).le
          | inr hm => exact List.mem_singleton.mp hm ▸ le_refl _
        · have htc : t.getAddress < c.getAddress := by
            have h := (List.pairwise_cons.mp (List.pairwise_append.mp hp.2).2.1).1
            exact h c (by simp)
          have hmid'' : ∀ m ∈ a, ¬m.origin.IsFunction := fun m hm => hmid' m (by simp [hm])
          rw [symSize_of_function htc hmid'' hc] at hpos
          exact hfun pre s _ c rest' (hsplit.trans (by rw [heq])) hs hc hmid' t (by simp) ht hpos
    · intro pre s post hsplit hs
      have hp := List.pairwise_cons.mp (hbehind hsplit)
      rcases first_function post with hnone | ⟨mid, c, rest, rfl, hc, hmid⟩
      · rw [symSize_of_last hnone]
        exact (hend pre s post hsplit hs hnone).1
      · have hlt := hp.1 c (by simp)
        rw [symSize_of_function hlt hmid hc]
        exact (add_asInt_le hlt.le).trans (by have := c.getAddress.toNat_lt; omega)
  · intro ⟨hpair, hall⟩
    constructor
    · intro pre s mid c post hsplit hs hc hmid t ht htf hpos
      obtain ⟨mid₁, mid₂, rfl⟩ := List.append_of_mem ht
      have hp := List.pairwise_cons.mp (hbehind hsplit)
      have hlt := hp.1 c (by simp)
      have htc : t.getAddress < c.getAddress :=
        (List.pairwise_append.mp hp.2).2.2 t (by simp) c (List.mem_cons_self ..)
      have hmid₂ : ∀ m ∈ mid₂, ¬m.origin.IsFunction := fun m hm => hmid m (by simp [hm])
      have hr := (forall_windows _).mp (hpair pre s _ hsplit hs) mid₁ t (mid₂ ++ c :: post)
        (by simp) htf
      rw [symSize_of_function hlt hmid hc, symSize_of_function htc hmid₂ hc] at hr
      exact hr hpos
    · intro pre s post hsplit hs hnone
      have hsize := symSize_of_last (s := s) hnone
      refine ⟨hsize ▸ hall pre s post hsplit hs, fun t ht htf hpos => ?_⟩
      obtain ⟨mid, rest, rfl⟩ := List.append_of_mem ht
      have hsize' : symSize t rest = _ := symSize_of_last fun m hm => hnone m (by simp [hm])
      have hr := (forall_windows _).mp (hpair pre s _ hsplit hs) mid t rest rfl htf
      rw [hsize, hsize'] at hr
      exact hr hpos

/-! ## The addresses of a run -/

/-- The addresses a run emits, call by call. -/
theorem runDisassembler_addresses (f : ExecutableFile) :
    f.runDisassembler.out.map (·.address) =
      f.decodes.flatMap fun v => v.result.out.map (·.address) := by
  rw [(ExecutableFile.runDisassembler_eq f).1, emitAll_out, List.map_flatMap]
  rfl

theorem fetchWindow_addresses (fd : Bfd) (w : Symbol × Vma) (blocks : Blocks) :
    (fetchWindow fd w blocks).out = [] ∨ ∃ dis, (fetchWindow fd w blocks).out.map (·.address) =
      (windowYields fd dis w).map (·.address w.1.getAddress) := by
  rw [fetchWindow]
  cases fd.disassembler with
  | none => exact Or.inl rfl
  | some dis =>
      by_cases hr : (fetch (some dis) w.1 (sectionInfo fd w.1.parent) w.2 blocks).raised = none
      · have h := congrArg (List.map Loaded.address) (fetch_loaded hr)
        rw [List.map_map, List.map_map] at h
        exact Or.inr ⟨dis, h⟩
      · exact Or.inl (emitInstrs_out_of_raised hr)

/-- In a window that ends inside the address space, addresses are offsets from the symbol. -/
theorem toNat_address {dis : Disassembler} {info : DisassembleInfo} {a symSize : Vma} {y : Yield}
    (hin : a.toNat + asInt symSize ≤ 2 ^ 64) (hy : y ∈ yieldsOf dis info a symSize) :
    (y.address a).toNat = a.toNat + y.offset := by
  have hlt := (yields_offset 0 hy).2.1
  exact toNat_add_ofNat_of_lt (by omega)

/-- What a call of `fetch` emits for a window that ends inside the address space. -/
theorem fetchWindow_increasing {fd : Bfd} {w : Symbol × Vma} {blocks : Blocks}
    (hin : w.1.getAddress.toNat + asInt w.2 ≤ 2 ^ 64) :
    ((fetchWindow fd w blocks).out.map (·.address)).Pairwise (· < ·) ∧
      ∀ p ∈ (fetchWindow fd w blocks).out.map (·.address), w.1.getAddress.toNat ≤ p.toNat ∧
        (p.toNat : Int) < w.1.getAddress.toNat + asInt w.2 := by
  rcases fetchWindow_addresses fd w blocks with hout | ⟨dis, hout⟩
  · rw [hout]
    exact ⟨.nil, fun p hp => absurd hp List.not_mem_nil⟩
  · rw [hout]
    constructor
    · refine List.pairwise_map.mpr ((yieldsOf_offsets ..).imp_of_mem fun {y z} hy hz hlt => ?_)
      rw [UInt64.lt_iff_toNat_lt, toNat_address hin hy, toNat_address hin hz]
      omega
    · intro p hp
      obtain ⟨y, hy, rfl⟩ := List.mem_map.mp hp
      have hlt := (yields_offset 0 hy).2.1
      rw [toNat_address hin hy]
      omega

/-- Windows that end before the next ones start emit increasing addresses. -/
theorem increasing_of_endsBefore {f : ExecutableFile}
    (hends : (windows (symbolTable f.fd.symbols)).Pairwise EndsBefore)
    (hin : ∀ w ∈ windows (symbolTable f.fd.symbols),
      w.1.getAddress.toNat + asInt w.2 ≤ 2 ^ 64) :
    (f.runDisassembler.out.map (·.address)).Pairwise (· < ·) := by
  rw [runDisassembler_addresses, List.pairwise_flatMap]
  have hfetch : ∀ v ∈ f.decodes, v.result = fetchWindow f.fd v.input v.before ∧
      v.input.1.getAddress.toNat + asInt v.input.2 ≤ 2 ^ 64 :=
    fun v hv => ⟨visit_result hv, hin _ (visit_input_mem hv)⟩
  refine ⟨fun v hv => ?_, ?_⟩
  · rw [(hfetch v hv).1]
    exact (fetchWindow_increasing (hfetch v hv).2).1
  · have hpair := hends.sublist (visited_inputs (fetchWindow f.fd) _
      f.basicBlockBuffer).sublist
    refine (List.pairwise_map.mp hpair).imp_of_mem fun {v v'} hv hv' hbefore p hp p' hp' => ?_
    rw [(hfetch v hv).1] at hp
    rw [(hfetch v' hv').1] at hp'
    obtain ⟨_, hlt⟩ := (fetchWindow_increasing (hfetch v hv).2).2 p hp
    obtain ⟨hle', hlt'⟩ := (fetchWindow_increasing (hfetch v' hv').2).2 p' hp'
    have hend := hbefore (by omega)
    rw [UInt64.lt_iff_toNat_lt]
    omega

/-- What the silent file emits for a window: an instruction at every offset, in order. -/
theorem silent_addresses {syms : List Asymbol} {v : Visit (Symbol × Vma) Blocks Instruction Text}
    (hv : v ∈ (silentFile syms).decodes) :
    v.result.out.map (·.address) =
      (windowYields (silentFile syms).fd silent v.input).map (·.address v.input.1.getAddress) := by
  have hr : v.result.raised = none := (emitAll_raised ..).mp
    ((ExecutableFile.runDisassembler_eq _).2.1.symm.trans (silentFile_owned syms).raised) v hv
  rw [visit_result hv] at hr ⊢
  have h := congrArg (List.map Loaded.address) (fetch_loaded hr)
  rwa [List.map_map, List.map_map] at h

/-- When the addresses of a sequence increase, they increase with the offsets. -/
theorem address_lt_of_offset_lt {dis : Disassembler} {info : DisassembleInfo} {a symSize : Vma}
    (hinc : ((yieldsOf dis info a symSize).map (·.address a)).Pairwise (· < ·)) {y z : Yield}
    (hy : y ∈ yieldsOf dis info a symSize) (hz : z ∈ yieldsOf dis info a symSize)
    (hlt : y.offset < z.offset) : y.address a < z.address a := by
  have hpair := (List.pairwise_map.mp hinc).and (yieldsOf_offsets dis info a symSize)
  obtain ⟨pre, post, hsplit⟩ := List.append_of_mem hy
  rw [hsplit] at hpair hz
  have hp := List.pairwise_append.mp hpair
  cases List.mem_append.mp hz with
  | inl hz => exact absurd (hp.2.2 z hz y (List.mem_cons_self ..)).2 (lt_asymm hlt)
  | inr hz =>
      cases List.mem_cons.mp hz with
      | inl he => exact absurd (he ▸ hlt) (lt_irrefl _)
      | inr hz => exact ((List.pairwise_cons.mp hp.2.1).1 z hz).1

/-- When the silent file emits increasing addresses, its windows end before the next ones
start. -/
theorem endsBefore_of_increasing {syms : List Asymbol}
    (h : ((silentFile syms).runDisassembler.out.map (·.address)).Pairwise (· < ·)) :
    (windows (symbolTable syms)).Pairwise EndsBefore ∧
      ∀ w ∈ windows (symbolTable syms), w.1.getAddress.toNat + asInt w.2 ≤ 2 ^ 64 := by
  rw [runDisassembler_addresses, List.pairwise_flatMap] at h
  obtain ⟨hwithin, hacross⟩ := h
  have hsorted := windows_sorted syms
  rw [← silentFile_decodes] at hsorted ⊢
  rw [List.pairwise_map] at hsorted ⊢
  have hmem : ∀ v ∈ (silentFile syms).decodes, ∀ k : Nat, (k : Int) < asInt v.input.2 →
      v.input.1.getAddress + UInt64.ofNat k ∈ v.result.out.map (·.address) := by
    intro v hv k hk
    rw [silent_addresses hv]
    exact List.mem_map.mpr ⟨_, mem_silent hk, rfl⟩
  constructor
  · refine (hacross.and hsorted).imp_of_mem fun {v v'} hv hv' ⟨hx, hlt⟩ hpos => ?_
    by_contra hover
    -- the start of the second window lies in the first one too
    have ha := UInt64.lt_iff_toNat_lt.mp hlt
    have hfirst := hmem v hv (v'.input.1.getAddress.toNat - v.input.1.getAddress.toNat) (by omega)
    have hsecond := hmem v' hv' 0 hpos
    have he : v.input.1.getAddress + UInt64.ofNat
        (v'.input.1.getAddress.toNat - v.input.1.getAddress.toNat) = v'.input.1.getAddress := by
      have hb := v'.input.1.getAddress.toNat_lt
      refine UInt64.toNat_inj.mp ((toNat_add_ofNat_of_lt (by omega)).trans (by omega))
    rw [he] at hfirst
    exact lt_irrefl _ ((hx _ hfirst _ hsecond).trans_eq (UInt64.add_zero _))
  · intro w hw
    obtain ⟨v, hv, rfl⟩ := List.mem_map.mp hw
    by_contra hover
    -- the window wraps around to address zero
    have hwrap := hwithin v hv
    rw [silent_addresses hv] at hwrap
    have ha := v.input.1.getAddress.toNat_lt
    have hlt := address_lt_of_offset_lt hwrap (mem_silent (k := 0) (by omega))
      (mem_silent (k := 2 ^ 64 - v.input.1.getAddress.toNat) (by omega)) (by dsimp only; omega)
    rw [UInt64.lt_iff_toNat_lt, Yield.address, Yield.address, toNat_add_ofNat,
      toNat_add_ofNat] at hlt
    dsimp only at hlt
    omega

/-- A run has a result, and the addresses it emits increase. -/
def ExecutableFile.Increasing (f : ExecutableFile) : Prop :=
  ∃ r, f.runChecked = some r ∧ (r.out.map (·.address)).Pairwise (· < ·)

theorem ExecutableFile.increasing_iff_of_fits {f : ExecutableFile} (h : f.Fits) :
    f.Increasing ↔ (f.runDisassembler.out.map (·.address)).Pairwise (· < ·) := by
  rw [Increasing, runChecked_eq, if_pos h]
  simp only [Option.some.injEq, exists_eq_left']

/-- **The runs over some BFD symbols emit increasing addresses, all but those whose offsets
overflow, exactly when the windows of their table end before the next symbols that are decoded.** -/
theorem increasing_iff (syms : List Asymbol) :
    (∀ f : ExecutableFile, f.fd.symbols = syms → (f.Increasing ↔ f.Fits)) ↔
      WindowsEnd (symbolTable syms) := by
  rw [windowsEnd_iff (symbolTable_sorted syms)]
  constructor
  · intro hall
    have hfits := silentFile_fits syms
    have hinc := (hall (silentFile syms) rfl).mpr hfits
    exact endsBefore_of_increasing ((ExecutableFile.increasing_iff_of_fits hfits).mp hinc)
  · rintro ⟨hends, hin⟩ f rfl
    refine ⟨fun ⟨r, hr, _⟩ => (ExecutableFile.runChecked_eq_some hr).1, fun hfits => ?_⟩
    exact (ExecutableFile.increasing_iff_of_fits hfits).mpr (increasing_of_endsBefore hends hin)

/-! ## A function by an alias -/

/-- A function, an object with a function as its alias, and a function behind them. -/
def aliasSymbols : List Asymbol :=
  [(functionAt "f".toList 0).origin, ⟨20, "data".toList, 4, 0x10, textSection⟩,
    ⟨21, "g".toList, 4, bsfFunction, textSection⟩, (functionAt "h".toList 8).origin]

/-- The bytes of the alias are decoded twice. -/
theorem aliasSymbols_not_increasing :
    (silentFile aliasSymbols).Fits ∧ ¬(silentFile aliasSymbols).Increasing := by
  have hfits := silentFile_fits aliasSymbols
  rw [ExecutableFile.increasing_iff_of_fits hfits]
  exact ⟨hfits, by decide +kernel⟩

end Befa
