import Befa.Llvm.DefUse

/-!
# Factories that come and go

Factories are registered and removed while a mapper reads its stream, and `factories` may hold one
class several times.  Each instruction goes to all of them in order.

At most one class does something with an instruction that has a name (`dispatches_factories`).  So
the mapper emits what the mapper with one factory of each class emits on another stream, where each
instruction stands as often as a registered factory handles it (`run_eq_reduceInstr`).
-/

namespace Befa

/-! ## The mapper -/

/-- The classes of factories. -/
inductive FactoryClass where
  | call | compare | jump
deriving DecidableEq

/-- `operator()` of the class. -/
def FactoryClass.factory : FactoryClass → Factory
  | call => callFactory
  | compare => compareFactory
  | jump => jumpFactory

/-- `InstructionMapper`. -/
structure Mapper where
  /-- `factories`, each with its address. -/
  factories : List (Nat × FactoryClass)
  /-- `symbol_table`, as the reduction passes it on. -/
  table : SymTable

namespace Mapper

def registerFactory (m : Mapper) (ptr : Nat) (k : FactoryClass) : Mapper :=
  { m with factories := m.factories ++ [(ptr, k)] }

def removeFactory (m : Mapper) (ptr : Nat) : Mapper :=
  { m with factories := m.factories.filter (·.1 ≠ ptr) }

/-- What happens to a mapper. -/
inductive Event where
  | register (ptr : Nat) (k : FactoryClass)
  | remove (ptr : Nat)
  /-- `reduce_instr` reads an instruction. -/
  | next (i : Instruction)

/-- What an event leaves. -/
def on : Event → Mapper → Emitted Mapper Ir Text
  | .register ptr k, m => ⟨m.registerFactory ptr k, [], none⟩
  | .remove ptr, m => ⟨m.removeFactory ptr, [], none⟩
  | .next i, m =>
      let r := mapInstr (m.factories.map (·.2.factory)) i m.table
      ⟨{ m with table := r.state }, r.out, r.raised⟩

def run (events : List Event) (m : Mapper) : Emitted Mapper Ir Text := emitAll on events m

end Mapper

/-! ## Who handles an instruction -/

namespace FactoryClass

/-- The mnemonics of a class. -/
def names : FactoryClass → List Text
  | call => ["call".toList]
  | compare => ["cmp".toList, "test".toList]
  | jump => jumps .gt ++ jumps .le

/-- A class does something with an instruction.  Without a name, each class raises. -/
def handles (i : Instruction) (k : FactoryClass) : Bool := i.getName.all fun name => name ∈ k.names

theorem names_disjoint {k k' : FactoryClass} (hne : k' ≠ k) : ∀ name ∈ k.names, name ∉ k'.names := by
  cases k <;> cases k' <;> first | exact absurd rfl hne | decide

variable {i : Instruction} {k : FactoryClass} {t : SymTable} {name : Text}

theorem handles_of_some (hn : i.getName = some name) : k.handles i = true ↔ name ∈ k.names := by
  rw [handles, hn, Option.all_some, decide_eq_true_eq]

theorem factory_of_notMem (hn : i.getName = some name) (h : name ∉ k.names) :
    k.factory i t = ⟨t, [], none⟩ := by
  cases k with
  | call => exact callFactory_other hn (List.ne_of_not_mem_cons h)
  | compare =>
      exact compareFactory_other hn (List.ne_of_not_mem_cons h)
        (List.ne_of_not_mem_cons (List.not_mem_of_not_mem_cons h))
  | jump =>
      obtain ⟨hgt, hle⟩ := not_or.mp (fun hor => h (List.mem_append.mpr hor))
      exact jumpFactory_other hn (jumpCondition_eq_none.mpr ⟨hgt, hle⟩)

theorem factory_of_none (hn : i.getName = none) : k.factory i t = raise t emptyError := by
  cases k with
  | call => rw [factory, callFactory, hn]
  | compare => rw [factory, compareFactory, hn]
  | jump => rw [factory, jumpFactory, hn]

/-- A class that does nothing with an instruction. -/
theorem factory_of_not_handles (h : k.handles i = false) : k.factory i t = ⟨t, [], none⟩ := by
  cases hn : i.getName with
  | none => simp [handles, hn] at h
  | some name =>
      refine factory_of_notMem hn fun hmem => ?_
      rw [(handles_of_some hn).mpr hmem] at h
      cases h

/-- The class that handles an instruction does what all classes do. -/
theorem factory_of_handles (h : k.handles i = true) : k.factory i t = mapInstr factories i t := by
  rw [mapInstr_factories]
  cases hn : i.getName with
  | none =>
      have hcall : callFactory i t = raise t emptyError := factory_of_none (k := .call) hn
      rw [factory_of_none hn, hcall, Emitted.andThen_of_some rfl]
  | some name =>
      have hsilent : ∀ k', k' ≠ k → k'.factory i = fun s => ⟨s, [], none⟩ := fun k' hne =>
        funext fun s => factory_of_notMem hn (names_disjoint hne name ((handles_of_some hn).mp h))
      cases k with
      | call =>
          have hcompare : compareFactory i = _ := hsilent .compare (by decide)
          have hjump : jumpFactory i = _ := hsilent .jump (by decide)
          simp only [hcompare, hjump, Emitted.andThen_silent]
          rfl
      | compare =>
          have hcall : callFactory i = _ := hsilent .call (by decide)
          have hjump : jumpFactory i = _ := hsilent .jump (by decide)
          simp only [hcall, hjump, Emitted.andThen_silent, Emitted.silent_andThen]
          rfl
      | jump =>
          have hcall : callFactory i = _ := hsilent .call (by decide)
          have hcompare : compareFactory i = _ := hsilent .compare (by decide)
          simp only [hcall, hcompare, Emitted.silent_andThen]
          rfl

end FactoryClass

/-! ## The stream of a mapper -/

namespace Mapper

/-- How many registered factories handle an instruction. -/
def handlers (fs : List (Nat × FactoryClass)) (i : Instruction) : Nat := fs.countP (·.2.handles i)

/-- One instruction is mapped as often as it is handled. -/
theorem mapInstr_eq_replicate (fs : List (Nat × FactoryClass)) (i : Instruction) (t : SymTable) :
    mapInstr (fs.map (·.2.factory)) i t =
      reduceInstr Befa.factories (List.replicate (handlers fs i) i) t := by
  induction fs generalizing t with
  | nil => rfl
  | cons f fs ih =>
      have hcons : mapInstr ((f :: fs).map (·.2.factory)) i t =
          (f.2.factory i t).andThen (mapInstr (fs.map (·.2.factory)) i) := rfl
      rw [hcons, funext ih]
      cases hf : f.2.handles i with
      | true =>
          have hcount : handlers (f :: fs) i = handlers fs i + 1 := List.countP_cons_of_pos hf
          rw [FactoryClass.factory_of_handles hf, hcount, List.replicate_succ]
          rfl
      | false =>
          have hcount : handlers (f :: fs) i = handlers fs i :=
            List.countP_cons_of_neg (by simp [hf])
          rw [FactoryClass.factory_of_not_handles hf, Emitted.silent_andThen, hcount]

/-- Each instruction of some events, as often as a factory that is registered handles it. -/
def stream : List (Nat × FactoryClass) → List Event → List Instruction
  | _, [] => []
  | fs, .register ptr k :: events => stream (fs ++ [(ptr, k)]) events
  | fs, .remove ptr :: events => stream (fs.filter (·.1 ≠ ptr)) events
  | fs, .next i :: events => List.replicate (handlers fs i) i ++ stream fs events

/-- What a reduction shows of a mapper. -/
def shown (r : Emitted Mapper Ir Text) : Emitted SymTable Ir Text := ⟨r.state.table, r.out, r.raised⟩

theorem shown_andThen (fs : List (Nat × FactoryClass)) (r : Emitted SymTable Ir Text)
    (k : Mapper → Emitted Mapper Ir Text) :
    shown (Emitted.andThen ⟨⟨fs, r.state⟩, r.out, r.raised⟩ k) =
      r.andThen fun t => shown (k ⟨fs, t⟩) := by
  obtain ⟨t, out, raised⟩ := r
  cases raised with
  | some e => rfl
  | none => rfl

/-- **A mapper whose factories come and go is the mapper with one factory of each class, on the
stream of its events.** -/
theorem run_eq_reduceInstr (events : List Event) (m : Mapper) :
    shown (run events m) = reduceInstr Befa.factories (stream m.factories events) m.table := by
  induction events generalizing m with
  | nil => rfl
  | cons e events ih =>
      rw [run, emitAll_cons]
      cases e with
      | register ptr k =>
          rw [on, Emitted.silent_andThen]
          exact ih _
      | remove ptr =>
          rw [on, Emitted.silent_andThen]
          exact ih _
      | next i =>
          have hmap := mapInstr_eq_replicate m.factories i m.table
          have happend := emitAll_append (mapInstr Befa.factories)
            (List.replicate (handlers m.factories i) i) (stream m.factories events) m.table
          rw [on, hmap, stream]
          refine (shown_andThen m.factories _ _).trans (Eq.trans ?_ happend.symm)
          exact congrArg _ (funext fun t => ih ⟨m.factories, t⟩)

end Mapper

end Befa
