import Befa.Assembly.Bfd
import Mathlib.Data.List.Basic

/-!
# Handles of files

An `ExecutableFile` adapts a `bfd` and closes it in its destructor.  Objects are moved but not
copied, and a move leaves a null pointer behind.

A program is a sequence of what it does to its objects, and what reaches BFD is its `log`.  The
account of a handle is a conservation law (`Accounts`): once it is opened, a handle is held by one
object, or it was closed once, or a move assignment has overwritten it.  No handle is in two of
these places, so none is closed twice, and the log keeps the order that BFD asks for (`Obeys`).
-/

namespace Befa.Handles

/-- A `bfd *` that is not null.  Each call of `bfd_openr` gives a new one. -/
abbrev Handle := Nat

/-- A call of BFD. -/
inductive BfdCall where
  /-- `bfd_init`. -/
  | init
  /-- `bfd_target_list`. -/
  | targetList
  /-- `bfd_openr`, with what it returns. -/
  | openr (path target : Text) (fd : Option Handle)
  /-- `bfd_check_format`. -/
  | checkFormat (fd : Handle)
  /-- `bfd_close`. -/
  | close (fd : Handle)
  /-- A call of a member function that passes `_fd` on. -/
  | pass (fd : Handle)
deriving DecidableEq

/-- An `ExecutableFile`, as far as its handle goes. -/
structure File where
  /-- `_fd`. -/
  fd : Option Handle
  /-- `is_valid`. -/
  isValid : Bool
deriving DecidableEq

/-- A program that is running. -/
structure Program where
  /-- `bfd_was_init`. -/
  bfdWasInit : Bool
  /-- The handle that comes next. -/
  next : Handle
  /-- The objects that were made, those that are destroyed as `none`. -/
  objects : List (Option File)
  log : List BfdCall
deriving DecidableEq

/-- What BFD answers when a file is opened. -/
structure Answers where
  /-- The names `bfd_target_list` returns. -/
  targets : List Text
  /-- Whether `bfd_openr` opens the file. -/
  opens : Bool
  /-- Whether `bfd_check_format` finds an object file. -/
  isObject : Bool

namespace Program

def start : Program := ⟨false, 0, [], []⟩

def call (p : Program) (c : BfdCall) : Program := { p with log := p.log ++ [c] }

/-- An object that is alive. -/
def get (p : Program) (i : Nat) : Option File := p.objects[i]?.join

def put (p : Program) (i : Nat) (o : Option File) : Program :=
  { p with objects := p.objects.set i o }

/-- `ExecutableFile(fd)`. -/
def construct (p : Program) (fd : Handle) : Program :=
  { p with objects := p.objects ++ [some ⟨some fd, true⟩] }

/-- `ExecutableFile(ExecutableFile &&)`. -/
def moveConstruct (p : Program) (i : Nat) : Option Program :=
  (p.get i).map fun rhs =>
    let p := { p with objects := p.objects ++ [some rhs] }
    p.put i (some { rhs with fd := none })

/-- `operator=(ExecutableFile &&)`.  The handle of the left side is overwritten. -/
def moveAssign (p : Program) (i j : Nat) : Option Program :=
  (p.get i).bind fun _ => (p.get j).map fun rhs =>
    (p.put i (some rhs)).put j (some { rhs with fd := none })

/-- `~ExecutableFile`. -/
def destroy (p : Program) (i : Nat) : Option Program :=
  (p.get i).map fun o => ((o.fd.elim p fun fd => p.call (.close fd)).put i none)

/-- A member function that passes the handle on to BFD, which dereferences it. -/
def pass (p : Program) (i : Nat) : Option Program :=
  (p.get i).bind fun o => o.fd.map fun fd => p.call (.pass fd)

/-- The target that is passed on.  A bad target ends the program, and so does the first one of
none. -/
def target (target : Text) (targets : List Text) : Option Text :=
  if target = [] then targets.head?
  else if targets.contains target then some target else none

/-- `ExecutableFile::open`.  Where it throws, there is no new object. -/
def openFile (p : Program) (path target : Text) (a : Answers) : Option Program :=
  let p := if p.bfdWasInit then p else { p with bfdWasInit := true }.call .init
  let p := p.call .targetList
  (Program.target target a.targets).bind fun target =>
    if a.opens then
      let fd := p.next
      let p := { p with next := fd + 1 }.call (.openr path target (some fd))
      let p := p.call (.checkFormat fd)
      if a.isObject then
        -- the object is moved into what is returned and destroyed
        let i := p.objects.length
        ((p.construct fd).moveConstruct i).bind fun p => p.destroy i
      else some (p.call (.close fd))
    else some (p.call (.openr path target none))

end Program

/-- What a program does. -/
inductive Op where
  | openFile (path target : Text) (a : Answers)
  | moveConstruct (i : Nat)
  | moveAssign (i j : Nat)
  | destroy (i : Nat)
  | pass (i : Nat)

/-- One step.  An object that is not alive has none. -/
def Program.op (p : Program) : Op → Option Program
  | .openFile path target a => p.openFile path target a
  | .moveConstruct i => p.moveConstruct i
  | .moveAssign i j => p.moveAssign i j
  | .destroy i => p.destroy i
  | .pass i => p.pass i

def Program.run (p : Program) (ops : List Op) : Option Program := ops.foldlM Program.op p

/-! ## What BFD asks for -/

/-- What BFD knows of its callers. -/
structure BfdState where
  initialised : Bool
  /-- The handles that are open. -/
  opened : List Handle

/-- BFD is initialised once and before everything else, and a handle is passed on while it is
open. -/
def BfdState.step (s : BfdState) : BfdCall → Option BfdState
  | .init => if s.initialised then none else some { s with initialised := true }
  | .targetList => if s.initialised then some s else none
  | .openr _ _ none => if s.initialised then some s else none
  | .openr _ _ (some fd) =>
      if s.initialised ∧ fd ∉ s.opened then some { s with opened := fd :: s.opened } else none
  | .checkFormat fd => if fd ∈ s.opened then some s else none
  | .close fd =>
      if fd ∈ s.opened then some { s with opened := s.opened.filter (· ≠ fd) } else none
  | .pass fd => if fd ∈ s.opened then some s else none

/-- The log keeps to the order. -/
def Obeys (log : List BfdCall) : Prop := (log.foldlM BfdState.step ⟨false, []⟩).isSome = true

/-! ## Where a handle is -/

/-- Whether an object holds a handle. -/
def holds (fd : Handle) (o : Option File) : Bool := o.bind File.fd = some fd

namespace Program

/-- How many objects hold a handle. -/
def holders (p : Program) (fd : Handle) : Nat := p.objects.countP (holds fd)

/-- How often a handle was closed. -/
def closes (p : Program) (fd : Handle) : Nat := p.log.count (.close fd)

/-- The handle that a step overwrites. -/
def overwritten (p : Program) : Op → List Handle
  | .moveAssign i _ => ((p.get i).bind File.fd).toList
  | _ => []

/-- The handles that a run overwrites. -/
def allOverwritten (p : Program) : List Op → List Handle
  | [] => []
  | o :: ops => p.overwritten o ++ (p.op o).elim [] fun p => p.allOverwritten ops

end Program

/-- **The account of a handle.**  Once it is opened, it is in one place: an object holds it, or it
was closed, or it is one of `lost`. -/
def Accounts (lost : List Handle) (p : Program) : Prop :=
  ∀ fd, p.holders fd + p.closes fd + lost.count fd = if fd < p.next then 1 else 0

section Counting

variable {p : Program} {i : Nat} {o : File}

theorem get_eq_some : p.get i = some o ↔ p.objects[i]? = some (some o) := by
  simp [Program.get, Option.join_eq_some_iff]

theorem length_of_get (h : p.get i = some o) : i < p.objects.length :=
  (List.getElem?_eq_some_iff.mp (get_eq_some.mp h)).1

/-- An object of a longer list. -/
theorem get_append {o' : File}
    (h : ({ p with objects := p.objects ++ [some o'] } : Program).get i = some o) :
    p.get i = some o ∨ o = o' := by
  rw [get_eq_some, List.getElem?_append] at h
  split at h
  · exact Or.inl (get_eq_some.mpr h)
  · have hmem := List.mem_of_getElem? h
    simp only [List.mem_singleton, Option.some.injEq] at hmem
    exact Or.inr hmem

/-- An object after another one was replaced. -/
theorem get_put {j : Nat} {o' : Option File} (h : (p.put i o').get j = some o) :
    j = i ∧ o' = some o ∨ p.get j = some o := by
  rw [get_eq_some, Program.put, List.getElem?_set] at h
  split at h
  · next heq =>
    split at h
    · exact Or.inl ⟨heq.symm, Option.some.inj h⟩
    · cases h
  · exact Or.inr (get_eq_some.mpr h)

theorem countP_holds (fd : Handle) (o : Option File) :
    (if holds fd o = true then 1 else 0) = (o.bind File.fd).toList.count fd := by
  cases h : o.bind File.fd with
  | none => simp [holds, h]
  | some fd' => simp [holds, h, List.count_singleton]

/-- Replacing an object moves its handle out and another one in. -/
theorem holders_put (h : p.get i = some o) (o' : Option File) (fd : Handle) :
    (p.put i o').holders fd + o.fd.toList.count fd =
      p.holders fd + (o'.bind File.fd).toList.count fd := by
  have hlen := length_of_get h
  have hget : p.objects[i] = some o := (List.getElem?_eq_some_iff.mp (get_eq_some.mp h)).2
  have hmem : holds fd (some o) = true → 0 < p.objects.countP (holds fd) := fun ht =>
    List.countP_pos_iff.mpr ⟨some o, hget ▸ List.getElem_mem hlen, ht⟩
  have hold := countP_holds fd (some o)
  have hnew := countP_holds fd o'
  have hself : ((some o).bind File.fd) = o.fd := rfl
  rw [hself] at hold
  rw [Program.holders, Program.put, List.countP_set hlen, hget, ← hold, ← hnew, Program.holders]
  by_cases ht : holds fd (some o) = true
  · have := hmem ht
    simp only [if_pos ht]
    omega
  · simp only [if_neg ht]
    omega

end Counting

/-! ## What a program keeps -/

/-- The log is one that BFD has followed. -/
structure Tracks (p : Program) (s : BfdState) : Prop where
  log : p.log.foldlM BfdState.step ⟨false, []⟩ = some s
  initialised : s.initialised = p.bfdWasInit
  opened : ∀ fd, fd ∈ s.opened ↔ fd < p.next ∧ p.closes fd = 0

/-- What holds of a running program, when `lost` are the handles that no object holds. -/
structure Sound (lost : List Handle) (p : Program) : Prop where
  accounts : Accounts lost p
  tracks : ∃ s, Tracks p s
  /-- A file is valid, also after it was moved from. -/
  valid : ∀ i o, p.get i = some o → o.isValid = true

theorem closes_call (p : Program) (c : BfdCall) (fd : Handle) :
    (p.call c).closes fd = p.closes fd + if c = .close fd then 1 else 0 := by
  simp [Program.closes, Program.call, List.count_singleton]

theorem start_sound : Sound [] .start where
  accounts fd := by simp [Program.start, Program.holders, Program.closes]
  tracks := ⟨⟨false, []⟩, rfl, rfl, fun fd => by simp [Program.start]⟩
  valid i o h := by simp [Program.start, Program.get] at h

namespace Sound

variable {lost : List Handle} {p : Program} {fd : Handle}

/-- A call that opens and closes nothing. -/
theorem call (h : Sound lost p) {c : BfdCall} (hc : ∀ fd, c ≠ .close fd)
    (hstep : ∀ s, Tracks p s → s.step c = some s) : Sound lost (p.call c) where
  accounts fd := by
    rw [closes_call, if_neg (hc fd)]
    exact h.accounts fd
  tracks := by
    obtain ⟨s, hs⟩ := h.tracks
    refine ⟨s, ?_, hs.initialised, fun fd => ?_⟩
    · rw [Program.call, List.foldlM_append, hs.log]
      simp [hstep s hs]
    · rw [closes_call, if_neg (hc fd)]
      exact hs.opened fd
  valid := h.valid

/-- BFD is initialised when it was not before. -/
theorem init (h : Sound lost p) (hp : p.bfdWasInit = false) :
    Sound lost ({ p with bfdWasInit := true }.call .init) where
  accounts fd := by
    rw [closes_call, if_neg (by simp)]
    exact h.accounts fd
  tracks := by
    obtain ⟨s, hs⟩ := h.tracks
    have hinit : s.initialised = false := hs.initialised.trans hp
    refine ⟨{ s with initialised := true }, ?_, rfl, fun fd => ?_⟩
    · rw [Program.call, List.foldlM_append, hs.log]
      simp [BfdState.step, hinit]
    · rw [closes_call, if_neg (by simp)]
      exact hs.opened fd
  valid := h.valid

/-- A new handle is in the hands of `open`. -/
theorem openr (h : Sound lost p) (hp : p.bfdWasInit = true) (path target : Text) :
    Sound (p.next :: lost)
      ({ p with next := p.next + 1 }.call (.openr path target (some p.next))) where
  accounts fd := by
    have hfd := h.accounts fd
    have hcount : (p.next :: lost).count fd = lost.count fd + if p.next = fd then 1 else 0 := by
      rw [List.count_cons]
      simp
    rw [closes_call, if_neg (by simp), hcount]
    show p.holders fd + (p.closes fd + 0) + _ = if fd < p.next + 1 then 1 else 0
    clear hcount
    by_cases heq : p.next = fd
    · subst heq
      rw [if_neg (lt_irrefl _)] at hfd
      rw [if_pos rfl, if_pos (Nat.lt_succ_self _)]
      omega
    · have hlt : fd < p.next + 1 ↔ fd < p.next :=
        Nat.lt_succ_iff_lt_or_eq.trans (or_iff_left (Ne.symm heq))
      rw [if_neg heq, if_congr hlt rfl rfl]
      omega
  tracks := by
    obtain ⟨s, hs⟩ := h.tracks
    have hnew : p.next ∉ s.opened := fun hm => absurd ((hs.opened _).mp hm).1 (lt_irrefl _)
    have hcloses : p.closes p.next = 0 := by
      have hfd := h.accounts p.next
      rw [if_neg (lt_irrefl _)] at hfd
      omega
    refine ⟨{ s with opened := p.next :: s.opened }, ?_, hs.initialised, fun fd => ?_⟩
    · rw [Program.call, List.foldlM_append, hs.log]
      simp [BfdState.step, hs.initialised, hp, hnew]
    · rw [closes_call, if_neg (by simp)]
      show fd ∈ p.next :: s.opened ↔ fd < p.next + 1 ∧ p.closes fd + 0 = 0
      rw [List.mem_cons, hs.opened fd]
      constructor
      · rintro (rfl | ⟨hlt, hc⟩)
        · exact ⟨Nat.lt_succ_self _, hcloses⟩
        · exact ⟨Nat.lt_succ_of_lt hlt, hc⟩
      · rintro ⟨hlt, hc⟩
        rcases Nat.lt_succ_iff_lt_or_eq.mp hlt with hlt | heq
        · exact Or.inr ⟨hlt, hc⟩
        · exact Or.inl heq
  valid := h.valid

/-- A handle that was not closed yet is open. -/
theorem opened (h : Sound lost p) (hfd : 0 < p.holders fd + lost.count fd) {s : BfdState}
    (hs : Tracks p s) : fd ∈ s.opened := by
  have hacc := h.accounts fd
  refine (hs.opened fd).mpr ?_
  split at hacc
  · next hlt => exact ⟨hlt, by omega⟩
  · omega

/-- A handle in nobody's hands is closed. -/
theorem close (h : Sound (fd :: lost) p) : Sound lost (p.call (.close fd)) where
  accounts fd' := by
    have hacc := h.accounts fd'
    rw [List.count_cons] at hacc
    rw [closes_call]
    simp only [beq_iff_eq, BfdCall.close.injEq] at hacc ⊢
    show p.holders fd' + _ + _ = if fd' < p.next then 1 else 0
    omega
  tracks := by
    obtain ⟨s, hs⟩ := h.tracks
    have hopen : fd ∈ s.opened := h.opened (by rw [List.count_cons_self]; omega) hs
    refine ⟨{ s with opened := s.opened.filter (· ≠ fd) }, ?_, hs.initialised, fun fd' => ?_⟩
    · rw [Program.call, List.foldlM_append, hs.log]
      simp [BfdState.step, hopen]
    · rw [closes_call]
      show fd' ∈ s.opened.filter (· ≠ fd) ↔ fd' < p.next ∧ _
      rw [List.mem_filter, hs.opened fd']
      simp only [BfdCall.close.injEq, decide_eq_true_eq]
      by_cases heq : fd = fd'
      · simp [heq]
      · simp [heq, Ne.symm heq]
  valid := h.valid

/-- A new object takes a handle that is in nobody's hands. -/
theorem add {o : File} (h : Sound (o.fd.toList ++ lost) p) (hvalid : o.isValid = true) :
    Sound lost { p with objects := p.objects ++ [some o] } where
  accounts fd := by
    have hacc := h.accounts fd
    have hcount : (if holds fd (some o) = true then 1 else 0) = o.fd.toList.count fd :=
      countP_holds fd (some o)
    rw [List.count_append] at hacc
    show (p.objects ++ [some o]).countP (holds fd) + p.closes fd + _ = _
    rw [List.countP_append, List.countP_singleton, hcount]
    show p.holders fd + _ + _ + _ = if fd < p.next then 1 else 0
    omega
  tracks := by
    obtain ⟨s, hs⟩ := h.tracks
    exact ⟨s, hs.log, hs.initialised, hs.opened⟩
  valid i x hx := by
    rcases get_append hx with hx | rfl
    · exact h.valid i x hx
    · exact hvalid

/-- An object is replaced.  The handle of the new one was in nobody's hands, and that of the old
one is now. -/
theorem replace {i : Nat} {o : File} {o' : Option File}
    (h : Sound ((o'.bind File.fd).toList ++ lost) p) (hget : p.get i = some o)
    (hvalid : ∀ x, o' = some x → x.isValid = true) :
    Sound (o.fd.toList ++ lost) (p.put i o') where
  accounts fd := by
    have hacc := h.accounts fd
    have hput := holders_put hget o' fd
    rw [List.count_append] at hacc ⊢
    show _ + p.closes fd + _ = if fd < p.next then 1 else 0
    omega
  tracks := by
    obtain ⟨s, hs⟩ := h.tracks
    exact ⟨s, hs.log, hs.initialised, hs.opened⟩
  valid j x hx := by
    rcases get_put hx with ⟨-, hx⟩ | hx
    · exact hvalid x hx
    · exact h.valid j x hx

/-- The new one has no handle. -/
theorem release {i : Nat} {o : File} {o' : Option File} (h : Sound lost p)
    (hget : p.get i = some o) (hfd : o'.bind File.fd = none)
    (hvalid : ∀ x, o' = some x → x.isValid = true) :
    Sound (o.fd.toList ++ lost) (p.put i o') := by
  have hlost : Sound ((o'.bind File.fd).toList ++ lost) p := by rwa [hfd]
  exact hlost.replace hget hvalid

/-- A call with a handle that was not closed. -/
theorem call_open (h : Sound lost p) (fd : Handle) (hfd : 0 < p.holders fd + lost.count fd)
    {c : BfdCall} (hc : c = .checkFormat fd ∨ c = .pass fd) : Sound lost (p.call c) := by
  apply h.call
  · rintro fd' rfl
    rcases hc with hc | hc <;> cases hc
  · intro s hs
    have hopen := h.opened hfd hs
    rcases hc with rfl | rfl <;> exact if_pos hopen

theorem moveConstruct (h : Sound lost p) {i : Nat} {p' : Program}
    (hp : p.moveConstruct i = some p') : Sound lost p' := by
  obtain ⟨rhs, hget, rfl⟩ := Option.map_eq_some_iff.mp hp
  have hvalid := h.valid i rhs hget
  have hcomm : ({ p with objects := p.objects ++ [some rhs] } : Program).put i
        (some { rhs with fd := none }) =
      { p.put i (some { rhs with fd := none }) with
        objects := (p.put i (some { rhs with fd := none })).objects ++ [some rhs] } := by
    simp only [Program.put, List.set_append_left _ _ (length_of_get hget)]
  show Sound lost (Program.put _ i _)
  rw [hcomm]
  have hmoved : Sound (rhs.fd.toList ++ lost) (p.put i (some { rhs with fd := none })) :=
    h.release hget rfl (by rintro x ⟨⟩; exact hvalid)
  exact hmoved.add hvalid

/-- The handle that a move assignment overwrites is in nobody's hands from then on. -/
theorem moveAssign (h : Sound lost p) {i j : Nat} {p' : Program}
    (hp : p.moveAssign i j = some p') : Sound (((p.get i).bind File.fd).toList ++ lost) p' := by
  obtain ⟨lhs, hlhs, hp⟩ := Option.bind_eq_some_iff.mp hp
  obtain ⟨rhs, hrhs, rfl⟩ := Option.map_eq_some_iff.mp hp
  have hvalid := h.valid j rhs hrhs
  have hmoved : Sound (rhs.fd.toList ++ lost) (p.put j (some { rhs with fd := none })) :=
    h.release hrhs rfl (by rintro x ⟨⟩; exact hvalid)
  rw [hlhs, Option.bind_some]
  by_cases hij : i = j
  · -- An object that is assigned to itself loses its handle.
    subst hij
    obtain rfl : lhs = rhs := Option.some.inj (hlhs.symm.trans hrhs)
    simpa only [Program.put, List.set_set] using hmoved
  · have hcomm : (p.put i (some rhs)).put j (some { rhs with fd := none }) =
        (p.put j (some { rhs with fd := none })).put i (some rhs) := by
      simp only [Program.put, List.set_comm _ _ hij]
    have hget : (p.put j (some { rhs with fd := none })).get i = some lhs := by
      rw [get_eq_some, Program.put, List.getElem?_set_ne (Ne.symm hij)]
      exact get_eq_some.mp hlhs
    rw [hcomm]
    exact Sound.replace hmoved hget (by rintro x ⟨⟩; exact hvalid)

theorem destroy (h : Sound lost p) {i : Nat} {p' : Program} (hp : p.destroy i = some p') :
    Sound lost p' := by
  obtain ⟨o, hget, rfl⟩ := Option.map_eq_some_iff.mp hp
  have hfreed : Sound (o.fd.toList ++ lost) (p.put i none) :=
    h.release hget rfl (by rintro x ⟨⟩)
  cases hfd : o.fd with
  | none =>
    rw [hfd] at hfreed
    exact hfreed
  | some fd =>
    rw [hfd] at hfreed
    exact hfreed.close

theorem pass (h : Sound lost p) {i : Nat} {p' : Program} (hp : p.pass i = some p') :
    Sound lost p' := by
  obtain ⟨o, hget, hp⟩ := Option.bind_eq_some_iff.mp hp
  obtain ⟨fd, hfd, rfl⟩ := Option.map_eq_some_iff.mp hp
  refine h.call_open fd ?_ (Or.inr rfl)
  have hpos : 0 < p.holders fd := by
    refine List.countP_pos_iff.mpr ⟨some o, ?_, ?_⟩
    · exact List.mem_of_getElem? (get_eq_some.mp hget)
    · simp [holds, hfd]
  omega

theorem openFile (h : Sound lost p) {path target : Text} {a : Answers} {p' : Program}
    (hp : p.openFile path target a = some p') : Sound lost p' := by
  rw [Program.openFile] at hp
  obtain ⟨p₁, hp₁, hinit, h₁⟩ : ∃ p₁,
      (if p.bfdWasInit then p else { p with bfdWasInit := true }.call .init) = p₁ ∧
        p₁.bfdWasInit = true ∧ Sound lost p₁ := by
    refine ⟨_, rfl, ?_⟩
    split
    · next hwas => exact ⟨hwas, h⟩
    · next hwas => exact ⟨rfl, h.init (Bool.eq_false_iff.mpr hwas)⟩
  rw [hp₁] at hp
  obtain ⟨p₂, hp₂, hinit₂, h₂⟩ : ∃ p₂, p₁.call .targetList = p₂ ∧ p₂.bfdWasInit = true ∧
      Sound lost p₂ :=
    ⟨_, rfl, hinit, h₁.call (by simp) fun s hs => if_pos (hs.initialised.trans hinit)⟩
  simp only [hp₂] at hp
  obtain ⟨name, -, hp⟩ := Option.bind_eq_some_iff.mp hp
  split at hp
  · next hopens =>
    -- The handle is in the hands of `open` until an object takes it.
    have h₃ := (h₂.openr hinit₂ path name).call_open p₂.next
      (by rw [List.count_cons_self]; omega) (Or.inl rfl)
    split at hp
    · next hobject =>
      obtain ⟨p₄, hmove, hdestroy⟩ := Option.bind_eq_some_iff.mp hp
      have h₄ : Sound lost _ := h₃.add (o := ⟨some p₂.next, true⟩) rfl
      exact (h₄.moveConstruct hmove).destroy hdestroy
    · next hobject =>
      obtain rfl := Option.some.inj hp
      exact h₃.close
  · next hopens =>
    obtain rfl := Option.some.inj hp
    exact h₂.call (by simp) fun s hs => if_pos (hs.initialised.trans hinit₂)

end Sound

/-- One step keeps the account, with the handle that it overwrites. -/
theorem Sound.op {lost : List Handle} {p p' : Program} {o : Op} (h : Sound lost p)
    (hp : p.op o = some p') : Sound (p.overwritten o ++ lost) p' := by
  cases o with
  | openFile path target a => exact h.openFile hp
  | moveConstruct i => exact h.moveConstruct hp
  | moveAssign i j => exact h.moveAssign hp
  | destroy i => exact h.destroy hp
  | pass i => exact h.pass hp

theorem Sound.perm {lost lost' : List Handle} {p : Program} (h : Sound lost p)
    (hperm : lost.Perm lost') : Sound lost' p where
  accounts fd := by
    rw [← hperm.count_eq]
    exact h.accounts fd
  tracks := h.tracks
  valid := h.valid

/-- A run keeps the account. -/
theorem Sound.run {ops : List Op} : ∀ {lost : List Handle} {p p' : Program}, Sound lost p →
    p.run ops = some p' → Sound (p.allOverwritten ops ++ lost) p' := by
  induction ops with
  | nil =>
    intro lost p p' h hp
    obtain rfl := Option.some.inj hp
    exact h
  | cons o ops ih =>
    intro lost p p' h hp
    rw [Program.run, List.foldlM_cons] at hp
    obtain ⟨q, hq, hrest⟩ := Option.bind_eq_some_iff.mp hp
    have hrun := ih (h.op hq) hrest
    rw [Program.allOverwritten, hq]
    refine hrun.perm ?_
    simp only [Option.elim_some, List.append_assoc]
    rw [← List.append_assoc, ← List.append_assoc]
    exact List.perm_append_comm.append_right lost

/-- **No handle is closed twice.**  In any run, each handle that was opened is held by one object,
or was closed once, or was overwritten by one move assignment.  The calls of BFD keep to its order,
and every object calls itself valid. -/
theorem handles_of_run {ops : List Op} {p : Program} (h : Program.start.run ops = some p) :
    (∀ fd, p.holders fd + p.closes fd + (Program.start.allOverwritten ops).count fd =
      if fd < p.next then 1 else 0) ∧
    Obeys p.log ∧ ∀ i o, p.get i = some o → o.isValid = true := by
  have hsound := start_sound.run h
  rw [List.append_nil] at hsound
  obtain ⟨s, hs⟩ := hsound.tracks
  exact ⟨hsound.accounts, by rw [Obeys, hs.log]; rfl, hsound.valid⟩

/-- Two files are opened, and the second is assigned to the first before both are destroyed. -/
def reassigned : List Op :=
  [.openFile ['a'] [] ⟨[['e', 'l', 'f']], true, true⟩,
    .openFile ['b'] [] ⟨[['e', 'l', 'f']], true, true⟩, .moveAssign 1 3, .pass 1, .destroy 1,
    .destroy 3]

/-- The handle of the first file is lost, and that of the second is closed. -/
theorem handles_of_run_reassigned : ∃ p, Program.start.run reassigned = some p ∧
    Obeys p.log ∧ p.holders 0 + p.closes 0 + [0].count 0 = 1 ∧ p.closes 0 = 0 ∧
    p.holders 1 + p.closes 1 + [0].count 1 = 1 ∧ p.closes 1 = 1 :=
  have hrun : Program.start.run reassigned =
      some ((Program.start.run reassigned).get (by decide)) := (Option.some_get _).symm
  have hsound := handles_of_run hrun
  ⟨_, hrun, hsound.2.1, hsound.1 0, by decide, hsound.1 1, by decide⟩

end Befa.Handles
