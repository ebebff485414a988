import Befa.Assembly.Bfd

/-!
# The print buffer

The disassembler prints an instruction in pieces.  Each piece goes through `ffprintf`, which
appends it to the buffer of a fake file.  The buffer is grown to the length of the format first.
When the output does not fit, it is grown again and the piece printed once more.

`Ffile.Holds` is what the calls maintain: the buffer is the text printed so far and null
characters behind it.  `ffprintf_holds` is one call and `foldl_ffprintf_holds` a run of them.
-/

namespace Befa

/-- `disassembler_impl::ffile`. -/
structure Ffile where
  /-- What was printed, and padding. -/
  buffer : Text
  /-- Where the next piece goes. -/
  pos : Nat
deriving DecidableEq

/-- `ffile::reset`. -/
def Ffile.reset (_ : Ffile) : Ffile := ⟨[], 0⟩

/-- The arguments of a call of `ffprintf`. -/
structure PrintCall where
  format : Text
  /-- What `vsnprintf` makes of the format and the arguments behind it. -/
  output : Text
deriving DecidableEq

/-- The null character. -/
def nul : Char := '\x00'

/-- `std::string::resize`. -/
def resize (n : Nat) (s : Text) : Text := s.take n ++ List.replicate (n - s.length) nul

/-- `vsnprintf` into the buffer from `pos` on, `size` characters at most.  The last of them is
the terminating null. -/
def vsnprintf (buffer : Text) (pos size : Nat) (output : Text) : Text :=
  match size with
  | 0 => buffer
  | n + 1 =>
      buffer.take pos ++ (output.take n ++ [nul]) ++
        buffer.drop (pos + (output.take n).length + 1)

/-- The loop of `ffprintf`. -/
def ffprintfLoop (f : Ffile) (alloc : Nat) (output : Text) : Ffile :=
  let f' := { f with buffer := vsnprintf (resize (alloc + f.pos) f.buffer) f.pos alloc output }
  if alloc ≤ output.length then ffprintfLoop f' (alloc + (output.length - alloc + 1)) output
  else f'
termination_by output.length + 1 - alloc

/-- `ffprintf`. -/
def ffprintf (f : Ffile) (call : PrintCall) : Ffile :=
  let f' := ffprintfLoop f call.format.length call.output
  { f' with pos := f'.pos + call.output.length }

/-! ## What the buffer holds -/

/-- The buffer is `text` and nulls behind it. -/
structure Ffile.Holds (f : Ffile) (text : Text) : Prop where
  /-- The next piece goes behind the text. -/
  pos : f.pos = text.length
  /-- The rest is padding. -/
  buffer : ∃ n, f.buffer = text ++ List.replicate n nul

theorem reset_holds (f : Ffile) : f.reset.Holds [] := ⟨rfl, 0, rfl⟩

@[simp] theorem length_resize (n : Nat) (s : Text) : (resize n s).length = n := by
  rw [resize, List.length_append, List.length_take, List.length_replicate]
  omega

theorem resize_padding (n m : Nat) : resize n (List.replicate m nul) = List.replicate n nul := by
  rw [resize, List.take_replicate, List.length_replicate, List.replicate_append_replicate]
  exact congrArg (List.replicate · nul) (by omega)

/-- A pass keeps the text.  An output that fits stands behind it, with a null and what was there
before. -/
theorem vsnprintf_resize (text output junk : Text) (alloc : Nat) :
    ∃ junk', vsnprintf (resize (alloc + text.length) (text ++ junk)) text.length alloc output =
      text ++ junk' ∧ (output.length < alloc →
        junk' = output ++ nul :: (resize alloc junk).drop (output.length + 1)) := by
  have hres : resize (alloc + text.length) (text ++ junk) = text ++ resize alloc junk := by
    rw [resize, resize, List.take_append, List.length_append,
      List.take_of_length_le (Nat.le_add_left ..), Nat.add_sub_cancel, List.append_assoc,
      Nat.add_comm text.length, Nat.add_sub_add_right]
  rw [hres]
  cases alloc with
  | zero => exact ⟨_, rfl, fun h => absurd h (Nat.not_lt_zero _)⟩
  | succ n =>
      refine ⟨output.take n ++ nul :: (resize (n + 1) junk).drop ((output.take n).length + 1),
        ?_, ?_⟩
      · rw [vsnprintf, List.take_left, Nat.add_assoc, List.drop_append]
        simp
      · intro h
        rw [List.take_of_length_le (Nat.le_of_lt_succ h)]

/-- A pass whose buffer is long enough ends the loop. -/
theorem ffprintfLoop_fits {text output junk : Text} {alloc : Nat} (h : output.length < alloc) :
    ffprintfLoop ⟨text ++ junk, text.length⟩ alloc output =
      ⟨text ++ output ++ nul :: (resize alloc junk).drop (output.length + 1), text.length⟩ := by
  obtain ⟨junk', hv, hj⟩ := vsnprintf_resize text output junk alloc
  rw [ffprintfLoop, if_neg (Nat.not_le.mpr h)]
  dsimp only
  rw [hv, hj h, List.append_assoc]

/-- The second pass has room for the output and its null, and leaves nothing of the first. -/
theorem ffprintfLoop_grows {text output junk : Text} {alloc : Nat} (h : alloc ≤ output.length) :
    ffprintfLoop ⟨text ++ junk, text.length⟩ alloc output =
      ⟨text ++ output ++ [nul], text.length⟩ := by
  obtain ⟨junk', hv, _⟩ := vsnprintf_resize text output junk alloc
  have hgrown : alloc + (output.length - alloc + 1) = output.length + 1 := by omega
  rw [ffprintfLoop, if_pos h]
  dsimp only
  rw [hv, hgrown, ffprintfLoop_fits (Nat.lt_succ_self _),
    List.drop_eq_nil_of_le (Nat.le_of_eq (length_resize ..))]

/-- A piece that was printed stands behind the text, with at least one null behind it. -/
theorem ffprintfLoop_eq {f : Ffile} {text : Text} (h : f.Holds text) (alloc : Nat)
    (output : Text) : ∃ n, ffprintfLoop f alloc output =
      ⟨text ++ output ++ List.replicate (n + 1) nul, text.length⟩ := by
  obtain ⟨buffer, pos⟩ := f
  obtain ⟨hpos, n, hbuf⟩ := h
  dsimp only at hpos hbuf
  subst hpos hbuf
  by_cases hfit : output.length < alloc
  · rw [ffprintfLoop_fits hfit, resize_padding, List.drop_replicate, ← List.replicate_succ]
    exact ⟨_, rfl⟩
  · exact ⟨0, ffprintfLoop_grows (Nat.not_lt.mp hfit)⟩

theorem ffprintf_holds {f : Ffile} {text : Text} (h : f.Holds text) (call : PrintCall) :
    (ffprintf f call).Holds (text ++ call.output) := by
  obtain ⟨n, hloop⟩ := ffprintfLoop_eq h call.format.length call.output
  rw [ffprintf, hloop]
  exact ⟨List.length_append.symm, n + 1, rfl⟩

/-- A run of calls leaves the outputs in order. -/
theorem foldl_ffprintf_holds (calls : List PrintCall) {f : Ffile} {text : Text}
    (h : f.Holds text) : (calls.foldl ffprintf f).Holds (text ++ calls.flatMap (·.output)) := by
  induction calls generalizing f text with
  | nil => simpa using h
  | cons call calls ih =>
      have hr := ih (ffprintf_holds h call)
      rwa [List.append_assoc, ← List.flatMap_cons] at hr

end Befa
