/-
What the calls on descriptors leave alone, and where descriptors come from.

The lemmas of `StoreSpec` carried along the loops of `Session`. `fileDescWrite` and `ftruncate` write only where the descriptor
is open for writing. `FdTable.has_allocFd`, `FdTable.has_put`: a table holds the descriptors it held, and the new one.
-/
import Kontsnor.Fs.CallsSpec
import Kontsnor.Fs.Session

namespace Kontsnor.Fs

open Fallible (Keeps Respects)
open OpenFlags

variable {n0 total : ℕ} {R : Ino → Node → Prop} {d : FileDescription}

/-! ## Loops over chunks -/

/-- the descriptor keeps its node and its flags -/
def FileDescription.Same (d d' : FileDescription) : Prop := d'.ino = d.ino ∧ d'.flags = d.flags

section

variable (h : isWritable d.flags = true → MayWrite R d.ino)
include h

theorem keeps_descWrite {bytes : List UInt8} :
    Keeps (Holds n0 R) (d.write bytes) fun r => d.Same r.2 := by
  refine .get fun s _ => ?_
  refine .check fun hw => ?_
  rw [Bool.not_eq_false] at hw
  refine .ite (fun _ => ?_) fun _ => ?_
  · exact (keeps_write (h hw) _ bytes).bind fun n _ => .pure ⟨rfl, rfl⟩
  · exact (keeps_write (h hw) _ bytes).bind fun n _ => .pure ⟨rfl, rfl⟩

theorem keeps_fileDescWrite {left : ℕ}
    {bytes : List UInt8} : Keeps (Holds n0 R) (fileDescWrite left d bytes total) fun r => d.Same r.2 := by
  induction left generalizing d bytes total with
  | zero => exact .pure ⟨rfl, rfl⟩
  | succ left ih =>
    refine .get fun s _ => ?_
    refine .early ⟨rfl, rfl⟩ fun _ => ?_
    refine (keeps_descWrite h).attempt.bind fun result hresult => ?_
    match result with
    | none => exact .early ⟨rfl, rfl⟩ fun _ => .fail
    | some (0, d') =>
      have hsame : d.Same d' := hresult (0, d') rfl
      exact .pure hsame
    | some (n + 1, d') =>
      obtain ⟨hino, hflags⟩ := hresult _ rfl
      refine .early ⟨hino, hflags⟩ fun _ => ?_
      have hd' : isWritable d'.flags = true → MayWrite R d'.ino := by
        rw [hflags, hino]
        exact h
      exact (ih hd').mono fun r hr => ⟨hr.1.trans hino, hr.2.trans hflags⟩

end

theorem keeps_pwrite64 {left : ℕ} {i : Ino} (h : MayWrite R i) {offset : ℕ} {bytes : List UInt8} :
    Respects (Holds n0 R) (pwrite64 left i offset bytes total) := by
  induction left generalizing offset bytes total with
  | zero => exact .pure trivial
  | succ left ih =>
    refine .early trivial fun _ => ?_
    refine (keeps_write h offset _).attempt.bind fun result _ => ?_
    match result with
    | none => exact .early trivial fun _ => .fail
    | some 0 => exact .pure trivial
    | some (n + 1) => exact .early trivial fun _ => ih

section

variable (h : isWritable d.flags = true → MayWrite R d.ino)
include h

theorem keeps_writev {iov : List (Option (List UInt8))} :
    Keeps (Holds n0 R) (writev d iov total) fun r => d.Same r.2 := by
  induction iov generalizing d total with
  | nil => exact .pure ⟨rfl, rfl⟩
  | cons buffer rest ih =>
    cases buffer with
    | none => exact .early ⟨rfl, rfl⟩ fun _ => .fail
    | some bytes =>
      refine (keeps_fileDescWrite h).attempt.bind fun result hresult => ?_
      match result with
      | none => exact .early ⟨rfl, rfl⟩ fun _ => .fail
      | some (n, d') =>
        obtain ⟨hino, hflags⟩ := hresult _ rfl
        have hd' : isWritable d'.flags = true → MayWrite R d'.ino := by
          rw [hflags, hino]
          exact h
        exact (ih hd').mono fun r hr => ⟨hr.1.trans hino, hr.2.trans hflags⟩

end

theorem keeps_ftruncate (h : isWritable d.flags = true → MayResize R d.ino) (length : ℕ) :
    Respects (Holds n0 R) (ftruncate d length) := by
  refine .get fun s _ => ?_
  refine .check fun hw => ?_
  refine .check fun _ => ?_
  rw [Bool.not_eq_false] at hw
  exact keeps_truncate (h hw) length

theorem keeps_descRead (d : FileDescription) (count : ℕ) : Keeps (Holds n0 R) (d.read count) fun d' => d.Same d' := by
  refine .get fun s _ => ?_
  refine .check fun _ => ?_
  refine .ite (fun _ => ?_) fun _ => ?_
  · exact (keeps_read _ _ _).bind fun _ _ => .pure ⟨rfl, rfl⟩
  · exact (keeps_read _ _ _).bind fun _ _ => .pure ⟨rfl, rfl⟩

/-! ## Descriptors -/

end Kontsnor.Fs

namespace Kontsnor.Process.FdTable

variable {δ : Type} {t : FdTable δ} {d d' : δ}

def Has (t : FdTable δ) (d : δ) : Prop := some d ∈ t.entries

theorem has_of_lookup {fd : ℤ} (h : t.lookup fd = some d) : t.Has d := by
  unfold lookup at h
  split_ifs at h
  exact List.mem_of_getElem? (Option.join_eq_some_iff.1 h)

theorem has_put {i : ℕ} (h : (t.put i d).Has d') : d' = d ∨ t.Has d' := by
  rcases List.mem_or_eq_of_mem_set h with h | h
  · exact .inr h
  · cases h
    exact .inl rfl

theorem has_push {cloexec : Bool} (h : (t.push d cloexec).Has d') : d' = d ∨ t.Has d' := by
  rcases List.mem_append.1 h with h | h
  · exact .inr h
  · cases List.mem_singleton.1 h
    exact .inl rfl

theorem has_allocFd {rlimit : ℕ} {cloexec : Bool} (h : (t.allocFd rlimit d cloexec).2.Has d') : d' = d ∨ t.Has d' := by
  unfold allocFd allocBelow at h
  split at h
  · exact .inr h
  · exact has_put h
  · split at h
    · exact .inr h
    · exact has_put h
    · split_ifs at h
      · exact has_push h
      · exact .inr h

end Kontsnor.Process.FdTable
