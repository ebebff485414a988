import Befa.Assembly.BlockStream
import Befa.Assembly.WindowOrder

/-!
# Jumps and blocks

A jump should be the last instruction of its block, with the first one of a block behind it and at
its target.  That holds when no boundary of a function is passed over (`MeetsAll`), for which it is
enough that jumps go to instructions of their function or behind all of them.

`fetch_starts` and `fetch_jumps_last` are about one function and `leads_of_run` is about a file.  A
jump out of its function is not followed: its target starts a block only when it lies in the same
function.
-/

namespace Befa

/-! ## One behind the other -/

section Loop

variable {dis : Disassembler} {info : DisassembleInfo} {a : Vma} {maxOffset : Int}

/-- An instruction starts where the one before it stops. -/
theorem yields_stop (offset : Nat) :
    (yields dis info a maxOffset offset).IsChain fun y z => z.offset = y.stop := by
  induction offset using yields.induct dis info a maxOffset with
  | case1 offset r h ih =>
      rw [yields_of_go h]
      cases hrest : yields dis info a maxOffset (offset + r.length) with
      | nil => exact .singleton _
      | cons z zs =>
          rw [hrest] at ih
          exact .cons_cons (yields_head hrest) ih
  | case2 offset r h =>
      rw [yields_of_stop h]
      exact .nil

end Loop

theorem yieldsOf_next (dis : Disassembler) (info : DisassembleInfo) (a symSize : Vma) :
    (yieldsOf dis info a symSize).IsChain fun y z => z.address a = y.next a := by
  refine (yields_stop 0).imp fun y z hz => ?_
  rw [Yield.address, Yield.next, Yield.address, hz, Yield.stop, UInt64.ofNat_add, UInt64.add_assoc]

/-! ## One function -/

/-- No boundary of the symbol at `a` is passed over. -/
structure MeetsAll (a : Vma) (ys : List Yield) : Prop where
  noneBelow : NoneBelow a ys
  met : BoundariesMet a ys

section Targets

variable {dis : Disassembler} {info : DisassembleInfo} {a symSize : Vma}

/-- Away from the end of the address space no window wraps around. -/
theorem add_asInt_le_of_add_le (ha : a.toNat + 2 ^ 32 ≤ 2 ^ 64) :
    a.toNat + asInt symSize ≤ 2 ^ 64 := by
  have hlt := asInt_lt symSize
  omega

/-- Behind an instruction comes the next one, or none. -/
theorem next_cases (ha : a.toNat + 2 ^ 32 ≤ 2 ^ 64) {y : Yield}
    (hy : y ∈ yieldsOf dis info a symSize) :
    (∃ z ∈ yieldsOf dis info a symSize, z.address a = y.next a) ∨
      ∀ z ∈ yieldsOf dis info a symSize, z.address a < y.next a := by
  have hin : a.toNat + asInt symSize ≤ 2 ^ 64 := add_asInt_le_of_add_le ha
  obtain ⟨pre, post, hsplit⟩ := List.append_of_mem hy
  cases post with
  | cons z post =>
      have hnext := yieldsOf_next dis info a symSize
      rw [hsplit] at hnext
      exact Or.inl ⟨z, by simp [hsplit], (List.isChain_append_cons_cons.mp hnext).2.1⟩
  | nil =>
      refine Or.inr fun z hz => ?_
      have hoffsets := yieldsOf_offsets dis info a symSize
      have hle : z.offset ≤ y.offset := by
        rw [hsplit] at hz hoffsets
        rcases List.mem_append.mp hz with hz | hz
        · exact ((List.pairwise_append.mp hoffsets).2.2 z hz y (List.mem_singleton_self _)).le
        · rw [List.mem_singleton.mp hz]
      have hlt := yieldsOf_offset_lt hy
      have hlen := Decoded.length_lt y.decoded
      have hpos := (yields_offset 0 hy).2.2.1
      have hnext : (y.next a).toNat = a.toNat + y.offset + y.decoded.length := by
        rw [Yield.next, toNat_add_ofNat_of_lt] <;> rw [toNat_address hin hy]
        omega
      rw [UInt64.lt_iff_toNat_lt, toNat_address hin hz, hnext]
      omega

/-- It is enough that every jump goes to an instruction of the symbol, or behind all of them. -/
theorem MeetsAll.of_targets (ha : a.toNat + 2 ^ 32 ≤ 2 ^ 64)
    (h : ∀ y ∈ yieldsOf dis info a symSize, y.target ≠ noJump →
      (∃ z ∈ yieldsOf dis info a symSize, z.address a = y.target) ∨
        ∀ z ∈ yieldsOf dis info a symSize, z.address a < y.target) :
    MeetsAll a (yieldsOf dis info a symSize) := by
  have hin : a.toNat + asInt symSize ≤ 2 ^ 64 := add_asInt_le_of_add_le ha
  have hle : ∀ z ∈ yieldsOf dis info a symSize, a ≤ z.address a := by
    intro z hz
    rw [UInt64.le_iff_toNat_le, toNat_address hin hz]
    exact Nat.le_add_right _ _
  have hknown : ∀ x, IsBoundary a (yieldsOf dis info a symSize) x → x = a ∨
      (∃ z ∈ yieldsOf dis info a symSize, z.address a = x) ∨
        (yieldsOf dis info a symSize ≠ [] ∧
          ∀ z ∈ yieldsOf dis info a symSize, z.address a < x) := by
    rintro x (rfl | ⟨y, hy, hjump, rfl | rfl⟩)
    · exact Or.inl rfl
    · exact Or.inr ((h y hy hjump).imp_right (And.intro (List.ne_nil_of_mem hy)))
    · exact Or.inr ((next_cases ha hy).imp_right (And.intro (List.ne_nil_of_mem hy)))
  refine ⟨fun x hx => ?_, fun pre y post hsplit hne _ x hx hlt => ?_⟩
  · rcases hknown x hx with rfl | ⟨z, hz, rfl⟩ | ⟨hne, hall⟩
    · exact le_refl _
    · exact hle z hz
    · obtain ⟨z, hz⟩ := List.exists_mem_of_ne_nil _ hne
      exact (hle z hz).trans (hall z hz).le
  · have hy : y ∈ yieldsOf dis info a symSize := by simp [hsplit]
    rcases hknown x hx with rfl | ⟨z, hz, rfl⟩ | ⟨-, hall⟩
    · obtain ⟨z, zs, rfl⟩ := List.exists_cons_of_ne_nil hne
      exact ⟨z, List.mem_cons_self .., yieldsOf_head hsplit⟩
    · refine ⟨z, ?_, rfl⟩
      rw [UInt64.lt_iff_toNat_lt, toNat_address hin hz, toNat_address hin hy] at hlt
      have hoffsets := yieldsOf_offsets dis info a symSize
      rw [hsplit] at hz hoffsets
      rcases List.mem_append.mp hz with hz | hz
      · exact hz
      · rcases List.mem_cons.mp hz with rfl | hz
        · exact absurd hlt (lt_irrefl _)
        · have hyz := (List.pairwise_cons.mp (List.pairwise_append.mp hoffsets).2.1).1 z hz
          omega
    · exact absurd (hall y hy) (not_lt.mpr hlt.le)

end Targets

/-- The instruction is a jump. -/
def Instruction.IsJump (i : Instruction) : Prop := matchJump i.decoded ≠ noJump

/-- From `i` to `j` the blocks do not go back, and behind a jump they go on. -/
def GoesOn (i j : Instruction) : Prop :=
  i.parent.ptr ≤ j.parent.ptr ∧ (i.IsJump → i.parent.ptr < j.parent.ptr)

instance : Trans GoesOn GoesOn GoesOn :=
  ⟨fun hij hjk => ⟨hij.1.trans hjk.1, fun hi => (hij.2 hi).trans_le hjk.1⟩⟩

section Fetch

variable {dis : Disassembler} {info : DisassembleInfo} {sym : Symbol} {symSize : Vma}
  {blocks : Blocks}

/-- The yield of an emitted instruction. -/
theorem exists_yield (hr : (fetch (some dis) sym info symSize blocks).raised = none)
    {i : Instruction} (hi : i ∈ (fetch (some dis) sym info symSize blocks).out) :
    ∃ y ∈ yieldsOf dis info sym.getAddress symSize,
      y.target = matchJump i.decoded ∧ y.address sym.getAddress = i.address := by
  have hmem := List.mem_map_of_mem (f := Instruction.loaded) hi
  rw [fetch_loaded hr] at hmem
  obtain ⟨y, hy, he⟩ := List.mem_map.mp hmem
  exact ⟨y, hy, congrArg (fun l : Loaded => matchJump l.decoded) he, congrArg Loaded.address he⟩

/-- An instruction at a boundary has a block of its address. -/
theorem fetch_starts
    (h : MeetsAll sym.getAddress (yieldsOf dis info sym.getAddress symSize)) :
    ∀ j ∈ (fetch (some dis) sym info symSize blocks).out,
      IsBoundary sym.getAddress (yieldsOf dis info sym.getAddress symSize) j.address →
        j.parent.id = j.address := by
  intro j hj hb
  have hr : (fetch (some dis) sym info symSize blocks).raised = none :=
    (fetch_owner h.noneBelow).1
  obtain ⟨pre, post, hout⟩ := List.append_of_mem hj
  rcases List.eq_nil_or_concat pre with rfl | ⟨pre, prev, rfl⟩
  · -- the first instruction opens a block, since no boundary lies below the symbol
    have hi := decode_instructions dis info sym.getAddress symSize
    cases hy : yieldsOf dis info sym.getAddress symSize with
    | nil =>
        obtain ⟨y, hmem, -⟩ := exists_yield hr hj
        rw [hy] at hmem
        cases hmem
    | cons y ys =>
        rw [hy, List.map_cons] at hi
        obtain ⟨s, bb, -, -, hid, -, -, hout'⟩ :=
          emitInstrs_of_opens sym hi ((opens_first_iff blocks hy).mpr h.noneBelow)
        rw [← fetch_some, hout, List.nil_append] at hout'
        rw [(List.cons.inj hout').1]
        exact hid
  · have hchain := (fetch_cuts_of_not_raised hr).mpr h.met
    rw [hout, List.concat_eq_append, List.append_assoc, List.singleton_append] at hchain
    have hcut : Cut _ prev j := (List.isChain_append_cons_cons.mp hchain).2.1
    exact (hcut.mpr hb).2

/-- The instruction behind a jump is at a boundary. -/
theorem fetch_behind_jump (hr : (fetch (some dis) sym info symSize blocks).raised = none) :
    (fetch (some dis) sym info symSize blocks).out.IsChain fun i j => i.IsJump →
      IsBoundary sym.getAddress (yieldsOf dis info sym.getAddress symSize) j.address := by
  have hyields : ((yieldsOf dis info sym.getAddress symSize).map
      (Yield.loaded info sym.getAddress)).IsChain fun l m => matchJump l.decoded ≠ noJump →
        IsBoundary sym.getAddress (yieldsOf dis info sym.getAddress symSize) m.address := by
    rw [List.isChain_map]
    refine (yieldsOf_next dis info sym.getAddress symSize).imp_of_mem_imp
      fun y z hy _ hz hjump => ?_
    exact Or.inr ⟨y, hy, hjump, Or.inr hz⟩
  rwa [← fetch_loaded hr, List.isChain_map] at hyields

/-- A jump is the last instruction of its block. -/
theorem fetch_jumps_last
    (h : MeetsAll sym.getAddress (yieldsOf dis info sym.getAddress symSize)) :
    (fetch (some dis) sym info symSize blocks).out.Pairwise fun i j =>
      i.IsJump → j.parent ≠ i.parent := by
  have hr : (fetch (some dis) sym info symSize blocks).raised = none :=
    (fetch_owner h.noneBelow).1
  have hcuts := (fetch_cuts_of_not_raised hr).mpr h.met
  have hbehind := fetch_behind_jump hr
  have hordered : (fetch (some dis) sym info symSize blocks).out.IsChain fun i j =>
      i.parent.ptr ≤ j.parent.ptr := by
    have hs : Streamed blocks ([] ++ (emitInstrs sym _ blocks).out) _ :=
      (Streamed.start blocks).emitInstrs (decode dis info sym.getAddress symSize)
    rw [List.nil_append, ← fetch_some] at hs
    exact hs.ordered.isChain
  -- a block that was left is never come to again, so one step is enough
  have hgoesOn : (fetch (some dis) sym info symSize blocks).out.IsChain GoesOn := by
    rw [List.isChain_iff_forall_rel_of_append_cons_cons] at hcuts hbehind hordered ⊢
    intro i j pre post hout
    have hle := hordered hout
    refine ⟨hle, fun hi => lt_of_le_of_ne hle ?_⟩
    exact (((hcuts hout).mpr (hbehind hout hi)).1).symm
  rw [List.isChain_iff_pairwise] at hgoesOn
  exact hgoesOn.imp fun hij hi he => (hij.2 hi).ne (by rw [he])

end Fetch

/-! ## A file -/

/-- The first instruction of a block lies at its id. -/
theorem StartsAt.address {pre post : List Instruction} {j : Instruction}
    (h : StartsAt (pre ++ j :: post) j.parent) (hfirst : ∀ k ∈ pre, k.parent ≠ j.parent) :
    j.address = j.parent.id := by
  obtain ⟨pre', e, post', hsplit, hparent, haddress, hpre'⟩ := h
  rcases List.append_eq_append_iff.mp hsplit with ⟨mid, rfl, hj⟩ | ⟨mid, rfl, he⟩
  · cases mid with
    | nil =>
        obtain rfl := (List.cons.inj hj).1
        exact haddress
    | cons k mid =>
        obtain rfl := (List.cons.inj hj).1
        exact absurd rfl (hpre' j (by simp))
  · cases mid with
    | nil =>
        obtain rfl := (List.cons.inj he).1
        exact haddress
    | cons k mid =>
        obtain rfl := (List.cons.inj he).1
        exact absurd hparent (hfirst e (by simp))

/-- An instruction of a stream that leads from a block to blocks. -/
structure Leads (out : List Instruction) (i : Instruction) (target : Vma) : Prop where
  /-- No later instruction is of its block. -/
  last : ∀ pre post, out = pre ++ i :: post → ∀ j ∈ post, j.parent ≠ i.parent
  /-- The instruction behind it is the first one of its block. -/
  next : ∀ pre j post, out = pre ++ i :: j :: post →
    j.parent.id = j.address ∧ ∀ k ∈ pre ++ [i], k.parent ≠ j.parent
  /-- An instruction of the same function at the target is the first one of its block. -/
  first : ∀ j ∈ out, j.parent.parent = i.parent.parent → j.address = target →
    j.parent.id = j.address ∧ StartsAt out j.parent

section File

variable {fd : Bfd} {dis : Disassembler}

theorem visit_fetch (hdis : fd.disassembler = some dis)
    {v : Visit (Symbol × Vma) Blocks Instruction Text} (hv : v ∈ (ExecutableFile.new fd).decodes) :
    v.result = fetch (some dis) v.input.1 (sectionInfo fd v.input.1.parent) v.input.2 v.before := by
  rw [visit_result hv, fetchWindow]
  exact congrArg (fun d => fetch d _ _ _ _) hdis

/-- The symbols that are decoded lie at increasing addresses. -/
theorem decodes_sorted (f : ExecutableFile) :
    f.decodes.Pairwise fun v w => v.input.1.getAddress < w.input.1.getAddress := by
  have h := (windows_sorted f.fd.symbols).sublist
    (visited_inputs (fetchWindow f.fd) _ f.basicBlockBuffer).sublist
  rwa [List.pairwise_map] at h

theorem eq_of_decodes {f : ExecutableFile} {v w : Visit (Symbol × Vma) Blocks Instruction Text}
    (hv : v ∈ f.decodes) (hw : w ∈ f.decodes) (h : v.input.1 = w.input.1) : v = w := by
  have hnodup : (f.decodes.map fun v => v.input.1.getAddress).Nodup :=
    List.pairwise_map.mpr ((decodes_sorted f).imp fun hlt => hlt.ne)
  exact List.inj_on_of_nodup_map hnodup hv hw (by rw [h])

/-- **A jump of a file leads from block to block**, when no boundary of a function is passed
over. -/
theorem ExecutableFile.leads_of_run (hdis : fd.disassembler = some dis)
    (h : ∀ w ∈ windows (symbolTable fd.symbols), MeetsAll w.1.getAddress (windowYields fd dis w))
    {i : Instruction} (hi : i ∈ (ExecutableFile.new fd).runDisassembler.out) (hjump : i.IsJump) :
    Leads (ExecutableFile.new fd).runDisassembler.out i (matchJump i.decoded) := by
  have hmeets : ∀ v ∈ (ExecutableFile.new fd).decodes,
      MeetsAll v.input.1.getAddress (windowYields fd dis v.input) :=
    fun v hv => h _ (visit_input_mem hv)
  have howned := owned_of_noneBelow (f := .new fd) hdis fun w hw => (h w hw).noneBelow
  have hout : (ExecutableFile.new fd).runDisassembler.out =
      (ExecutableFile.new fd).decodes.flatMap (·.result.out) :=
    (runDisassembler_eq _).1.trans (emitAll_out ..)
  have hvisit : ∀ j ∈ (ExecutableFile.new fd).runDisassembler.out,
      ∃ v ∈ (ExecutableFile.new fd).decodes, j ∈ v.result.out ∧ j.parent.parent = v.input.1 := by
    intro j hj
    rw [hout] at hj
    obtain ⟨v, hv, hj⟩ := List.mem_flatMap.mp hj
    exact ⟨v, hv, hj, howned.owner v hv j hj⟩
  have hlast : (ExecutableFile.new fd).runDisassembler.out.Pairwise fun i j =>
      i.IsJump → j.parent ≠ i.parent := by
    rw [hout, List.pairwise_flatMap]
    refine ⟨fun v hv => ?_, (decodes_sorted _).imp_of_mem fun {v w} hv hw hlt i hi j hj _ he => ?_⟩
    · rw [visit_fetch hdis hv]
      exact fetch_jumps_last (hmeets v hv)
    · rw [← howned.owner v hv i hi, ← howned.owner w hw j hj, he] at hlt
      exact lt_irrefl _ hlt
  have hstream := Streamed.run (.new fd)
  have hstarted : ∀ j ∈ (ExecutableFile.new fd).runDisassembler.out,
      StartsAt (ExecutableFile.new fd).runDisassembler.out j.parent :=
    fun j hj => hstream.started _ (hstream.held j hj) (Nat.zero_le _)
  have hbehind : ∀ pre post, (ExecutableFile.new fd).runDisassembler.out = pre ++ i :: post →
      ∀ j ∈ post, j.parent ≠ i.parent := by
    intro pre post hsplit j hj
    rw [hsplit] at hlast
    exact (List.pairwise_cons.mp (List.pairwise_append.mp hlast).2.1).1 j hj hjump
  refine ⟨hbehind, fun pre j post hsplit => ?_, fun j hj hsame htarget => ?_⟩
  · have hij := hbehind pre (j :: post) hsplit j (List.mem_cons_self ..)
    -- an older instruction of the block of `j` would put `i` into it
    have hfirst : ∀ k ∈ pre ++ [i], k.parent ≠ j.parent := by
      intro k hk hkj
      rcases List.mem_append.mp hk with hk | hk
      · obtain ⟨front, mid, rfl⟩ := List.append_of_mem hk
        have hout : (ExecutableFile.new fd).runDisassembler.out =
            front ++ k :: (mid ++ [i]) ++ j :: post := by simpa using hsplit
        have hik : i.parent = k.parent := hstream.between hout hkj (by simp)
        exact hij (hkj.symm.trans hik.symm)
      · exact hij ((List.mem_singleton.mp hk) ▸ hkj.symm)
    have hsplit' : (ExecutableFile.new fd).runDisassembler.out = (pre ++ [i]) ++ j :: post := by
      simpa using hsplit
    have hj := hstarted j (by simp [hsplit])
    rw [hsplit'] at hj
    exact ⟨(hj.address hfirst).symm, hfirst⟩
  · obtain ⟨v, hv, hiv, hiowner⟩ := hvisit i hi
    obtain ⟨w, hw, hjw, hjowner⟩ := hvisit j hj
    obtain rfl := eq_of_decodes hw hv (by rw [← hjowner, hsame, hiowner])
    rw [visit_fetch hdis hw] at hiv hjw
    have hr : (fetch (some dis) w.input.1 _ w.input.2 w.before).raised = none :=
      (fetch_owner (hmeets w hw).noneBelow).1
    obtain ⟨y, hy, hyt, -⟩ := exists_yield hr hiv
    have hid := fetch_starts (hmeets w hw) j hjw
      (Or.inr ⟨y, hy, hyt ▸ hjump, Or.inl (htarget.trans hyt.symm)⟩)
    exact ⟨hid, hstarted j hj⟩

end File

end Befa
