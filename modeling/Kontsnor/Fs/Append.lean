/-
Appending to a regular file through several descriptions (`fs/file.rs`, `syscall/fs/io.rs`, `fs/ext/file.rs`).

`file_desc_write` writes parts of 4096 bytes. For each, `FileDescription::write` takes the lock of the description's offset, reads
the length of the file and calls `write_page_cache`. That goes page by page: under the locks of the inode it makes the file longer,
and it releases them before it copies the bytes. The lock of the offset belongs to the description, so another description may read
the same length in between.

`File` is the system: any number of calls, each critical section one step. An allocation, a page or the inode may fail at any time.

**Main result.** `appends_apart`, for runs in which a call reads the length only while no other call is inside a part, and fails
only before a part has made the file longer.
-/
import Kontsnor.Core.Runs

namespace Kontsnor.Fs.Append

open List Runs

inductive Pc
  /-- before a part, or after the last -/
  | idle
  /-- `written` bytes of the part at `offset` are written, and the lock of the description's offset is held -/
  | part (offset written : ℕ)
  | done
  deriving DecidableEq

/-- a `write` of `count` bytes; `totalWritten` is what it returns, if it is not 0 -/
structure Call where
  description : ℕ
  count : ℕ
  totalWritten : ℕ
  pc : Pc

/-- bytes that a call has written -/
structure Range where
  call : ℕ
  start : ℕ
  len : ℕ
  deriving DecidableEq

def Range.Apart (a b : Range) : Prop := a.start + a.len ≤ b.start ∨ b.start + b.len ≤ a.start

structure File where
  size : ℕ
  calls : List Call
  ranges : List Range

inductive Event
  | start (description count : ℕ)
  /-- the next step of a call; `fails`: it meets an error -/
  | advance (call : ℕ) (fails : Bool)

/-- in a part, with the lock of the offset -/
def Call.inside (c : Call) : Bool :=
  match c.pc with
  | .part _ _ => true
  | _ => false

/-- the bytes of a part that is not finished -/
def Call.written (c : Call) : ℕ :=
  match c.pc with
  | .part _ written => written
  | _ => 0

namespace File

variable (s : File)

def setCall (i : ℕ) (c : Call) : File := { s with calls := s.calls.set i c }

def advance (i : ℕ) (c : Call) (fails : Bool) : File :=
  match c.pc with
  | .idle =>
    if c.totalWritten < c.count then
      if s.calls.any fun other => other.description = c.description && other.inside then s
      else s.setCall i { c with pc := .part s.size 0 }
    else s.setCall i { c with pc := .done }
  | .part offset written =>
    let chunkSize := min (c.count - c.totalWritten) 4096
    if fails then s.setCall i { c with pc := .done }
    else if written < chunkSize then
      let current := offset + written
      let bytesToWrite := min (chunkSize - written) (4096 - current % 4096)
      { s.setCall i { c with pc := .part offset (written + bytesToWrite) } with
        size := max s.size (current + bytesToWrite)
        ranges := s.ranges ++ [⟨i, current, bytesToWrite⟩] }
    else s.setCall i { c with totalWritten := c.totalWritten + written, pc := .idle }
  | .done => s

def step : Event → File
  | .start description count => { s with calls := s.calls ++ [⟨description, count, 0, .idle⟩] }
  | .advance i fails =>
    match s.calls[i]? with
    | some c => s.advance i c fails
    | none => s

def returned : ℕ := (s.calls.map Call.totalWritten).sum

/-- nobody is in a part when a call reads the length; an error comes before a part has written anything -/
def alone : Event → Bool
  | .start _ _ => true
  | .advance i fails =>
    match s.calls[i]? with
    | some ⟨_, count, total, .idle⟩ => count ≤ total || s.calls.all (!·.inside)
    | some ⟨_, _, _, .part _ written⟩ => !fails || written = 0
    | _ => true

/-! ## The invariant -/

structure Inv (initial : ℕ) (s : File) : Prop where
  below : ∀ r ∈ s.ranges, r.start + r.len ≤ s.size
  apart : ∀ a ∈ s.ranges, ∀ b ∈ s.ranges, a.call ≠ b.call → a.Apart b
  /-- one call is in a part, and it writes at the end of the file -/
  inside : ∀ (i : ℕ) (c : Call) offset written, s.calls[i]? = some c → c.pc = .part offset written →
    offset + written = s.size ∧ ∀ (j : ℕ) (c' : Call), s.calls[j]? = some c' → c'.inside = true → j = i
  length : s.size = initial + (s.calls.map fun c => c.totalWritten + c.written).sum

variable {s s' : File} {i initial : ℕ} {c c' : Call}

theorem sum_set {f : Call → ℕ} {l : List Call} (hi : l[i]? = some c) (c' : Call) :
    ((l.set i c').map f).sum + f c = (l.map f).sum + f c' := by
  induction l generalizing i with
  | nil => cases hi
  | cons x l ih =>
    cases i with
    | zero =>
      cases hi
      simp
      omega
    | succ i =>
      have := ih (i := i) hi
      simp only [set_cons_succ, map_cons, sum_cons]
      omega

theorem Inv.set (h : s.Inv initial) (hi : s.calls[i]? = some c) (hcalls : s'.calls = s.calls.set i c')
    (hbelow : ∀ r ∈ s'.ranges, r.start + r.len ≤ s'.size)
    (hapart : ∀ a ∈ s'.ranges, ∀ b ∈ s'.ranges, a.call ≠ b.call → a.Apart b)
    (hself : ∀ offset written, c'.pc = .part offset written → offset + written = s'.size)
    (hothers : s'.size = s.size ∧ c'.inside = false ∨ ∀ (j : ℕ) (x : Call), s.calls[j]? = some x → x.inside = true → j = i)
    (hsum : s'.size + (c.totalWritten + c.written) = s.size + (c'.totalWritten + c'.written)) : s'.Inv initial := by
  have hget (j : ℕ) (x : Call) (hx : s'.calls[j]? = some x) : j = i ∧ x = c' ∨ j ≠ i ∧ s.calls[j]? = some x := by
    rw [hcalls, getElem?_set] at hx
    split_ifs at hx with hij
    · exact .inl ⟨hij.symm, (Option.some.inj hx).symm⟩
    · exact .inr ⟨fun heq => hij heq.symm, hx⟩
  refine ⟨hbelow, hapart, fun j x offset written hx hpc => ?_, ?_⟩
  · have hxin : x.inside = true := by simp [Call.inside, hpc]
    rcases hget j x hx with ⟨rfl, rfl⟩ | ⟨hj, hx⟩
    · refine ⟨hself _ _ hpc, fun k y hy hyin => ?_⟩
      rcases hget k y hy with ⟨rfl, -⟩ | ⟨-, hy⟩
      · rfl
      · rcases hothers with ⟨-, hout⟩ | hothers
        · simp [hout] at hxin
        · exact hothers k y hy hyin
    · rcases hothers with ⟨hsize, hout⟩ | hothers
      · obtain ⟨hend, hone⟩ := h.inside j x _ _ hx hpc
        refine ⟨hend.trans hsize.symm, fun k y hy hyin => ?_⟩
        rcases hget k y hy with ⟨-, rfl⟩ | ⟨-, hy⟩
        · simp [hout] at hyin
        · exact hone k y hy hyin
      · exact absurd (hothers j x hx hxin) hj
  · have hset := sum_set (f := fun c => c.totalWritten + c.written) hi c'
    have hlen := h.length
    rw [hcalls]
    omega

theorem inv_advance (h : s.Inv initial) (hi : s.calls[i]? = some c) {fails : Bool}
    (hC : s.alone (.advance i fails) = true) : (s.advance i c fails).Inv initial := by
  obtain ⟨description, count, total, pc⟩ := c
  simp only [alone, hi] at hC
  unfold advance
  cases pc with
  | idle =>
    dsimp only
    split_ifs with hleft hlock
    · exact h
    · refine h.set hi rfl h.below h.apart (fun offset written hpc => ?_) (.inr fun j x hx hxin => ?_) rfl
      · cases hpc
        rfl
      · simp only [Nat.not_le.2 hleft, decide_false, Bool.false_or, all_eq_true] at hC
        have hout := hC x (mem_of_getElem? hx)
        simp [hxin] at hout
    · exact h.set hi rfl h.below h.apart nofun (.inl ⟨rfl, rfl⟩) rfl
  | part offset written =>
    obtain ⟨hend, hone⟩ := h.inside i _ _ _ hi rfl
    dsimp only
    split_ifs with hfails hleft
    · refine h.set hi rfl h.below h.apart nofun (.inl ⟨rfl, rfl⟩) ?_
      simp [hfails] at hC
      simp [setCall, Call.written, hC]
    · -- the file ends where the part goes on
      refine h.set hi rfl (fun r hr => ?_) ?_ (fun _ _ hpc => ?_) (.inr hone) ?_
      · rcases mem_append.1 hr with hr | hr
        · exact (h.below r hr).trans (le_max_left _ _)
        · rw [mem_singleton.1 hr]
          exact le_max_right _ _
      · intro a ha b hb hne
        rcases mem_append.1 ha with ha | ha <;> rcases mem_append.1 hb with hb | hb
        · exact h.apart a ha b hb hne
        · rw [mem_singleton.1 hb]
          exact .inl ((h.below a ha).trans hend.ge)
        · rw [mem_singleton.1 ha]
          exact .inr ((h.below b hb).trans hend.ge)
        · rw [mem_singleton.1 ha, mem_singleton.1 hb] at hne
          exact absurd rfl hne
      · cases hpc
        dsimp only
        omega
      · simp only [Call.written]
        omega
    · refine h.set hi rfl h.below h.apart nofun (.inl ⟨rfl, rfl⟩) ?_
      simp [setCall, Call.written]
  | done => exact h

theorem inv_step (s : File) (e : Event) (h : s.Inv initial) (hC : s.alone e = true) : (s.step e).Inv initial := by
  cases e with
  | start description count =>
    have hget (j : ℕ) (x : Call) (hx : (s.calls ++ [⟨description, count, 0, .idle⟩])[j]? = some x) (hxin : x.inside = true) :
        s.calls[j]? = some x := by
      rw [getElem?_append] at hx
      split_ifs at hx
      · exact hx
      · obtain rfl := mem_singleton.1 (mem_of_getElem? hx)
        cases hxin
    refine ⟨h.below, h.apart, fun i c offset written hi hpc => ?_, ?_⟩
    · obtain ⟨hend, hone⟩ := h.inside i c _ _ (hget i c hi (by simp [Call.inside, hpc])) hpc
      exact ⟨hend, fun j x hx hxin => hone j x (hget j x hx hxin) hxin⟩
    · simp [step, h.length, Call.written]
  | advance i fails =>
    dsimp only [step]
    cases hi : s.calls[i]? with
    | none => exact h
    | some c => exact inv_advance h hi hC

def start (size : ℕ) : File := ⟨size, [], []⟩

/-- **Appends do not collide** if the calls meet `alone`: what two calls have written does not overlap, and once all have
returned the file is longer by what they have returned. -/
theorem appends_apart (size : ℕ) (es : List Event) (hes : Each step (fun s e => s.alone e = true) (start size) es) :
    (∀ a ∈ (run step (start size) es).ranges, ∀ b ∈ (run step (start size) es).ranges, a.call ≠ b.call → a.Apart b) ∧
    ((∀ c ∈ (run step (start size) es).calls, c.pc = .done) →
      (run step (start size) es).size = size + (run step (start size) es).returned) := by
  have hstart : Inv size (start size) := by
    refine ⟨?_, ?_, ?_, rfl⟩ <;> simp [start]
  have h := invariant inv_step hstart hes
  refine ⟨h.apart, fun hdone => ?_⟩
  rw [h.length, returned]
  congr 2
  refine map_congr_left fun c hc => ?_
  simp [Call.written, hdone c hc]

/-- two calls through two descriptions, one after the other -/
theorem appends_apart_two :
    let es := [.start 0 5, .start 1 3] ++ replicate 4 (.advance 0 false) ++ replicate 4 (.advance 1 false)
    Each step (fun s e => s.alone e = true) (start 10) es ∧ (run step (start 10) es).size = 10 + 8 := by
  refine ⟨by decide, ?_⟩
  exact (appends_apart 10 _ (by decide)).2 (by decide)

/-- two calls read the length before either writes: both write to the first byte, and the file grows by one -/
theorem appends_collide :
    let s := run step (start 0) ([.start 0 1, .start 1 1] ++ [.advance 0 false, .advance 1 false] ++
      replicate 3 (.advance 0 false) ++ replicate 3 (.advance 1 false))
    (∀ c ∈ s.calls, c.pc = .done) ∧ s.ranges = [⟨0, 0, 1⟩, ⟨1, 0, 1⟩] ∧ s.size = 1 ∧ s.returned = 2 := by
  decide

end File

end Kontsnor.Fs.Append
