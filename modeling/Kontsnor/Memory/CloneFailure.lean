/-
`clone_parent_page_table` when it fails (`memory/virtual.rs`).

The walk allocates a frame for each table of the child on its way down, marks the parent's pages copy-on-write and counts a
reference to each. It returns at the first frame that it does not get, or at an entry without a frame, and takes nothing back.

**Main result.** `failed_clone_traceless_iff`. A trace is a change of the allocator, the reference counts or the parent's entries.

`allocate_frame` hands out the frames of a list. A table is the list of its used entries, and an entry is `none` if `frame()`
fails for it; pages that the walk skips are not in the lists. Left out: the child's entries.
-/
import Kontsnor.Core.Fallible
import Kontsnor.Memory.AddressSpace

namespace Kontsnor.Memory

open List Function
open Fallible (forEach bind_ok bind_error)

structure Cloning where
  free : List ℕ
  refs : ℕ → UInt8
  /-- address and flags of the parent's leaf entries -/
  entry : ℕ → ℕ × PageFlags

namespace Cloning

/-- a table of the parent, by its used entries -/
abbrev Table (α : Type) := List (Option α)

variable {α : Type} (isShared : ℕ → Bool) (pml4 : Table (Table (Table (Table ℕ))))

/-- `allocate_frame`, with the error of its caller -/
def allocate (error : String) : EStateM String Cloning Unit := do
  let s ← get
  match s.free with
  | [] => throw error
  | frame :: rest => set { s with free := rest, refs := update s.refs frame 1 }

/-- an entry of an upper level: a table for the child, and what is below -/
def cloneEntry (error invalid : String) (below : α → EStateM String Cloning Unit) :
    Option (List α) → EStateM String Cloning Unit
  | none => do
    allocate error
    throw invalid
  | some entries => do
    allocate error
    forEach below entries

/-- an entry of the last level -/
def clonePage : Option ℕ → EStateM String Cloning Unit
  | none => throw "Invalid frame in parent PT"
  | some page => modify fun s =>
    let (frame, flags) := s.entry page
    { s with
      entry := update s.entry page (frame, Machine.cowFlags (isShared page) flags)
      refs := update s.refs frame (s.refs frame + 1) }

def cloneParentPageTable : EStateM String Cloning Unit := do
  allocate "Failed to allocate physical frame for user PML4"
  forEach
    (cloneEntry "Failed to allocate child PDPT frame" "Invalid frame in parent PML4"
      (cloneEntry "Failed to allocate child PD frame" "Invalid frame in parent PDPT"
        (cloneEntry "Failed to allocate child PT frame" "Invalid frame in parent PD" (clonePage isShared)))) pml4

/-- an error leaves no trace -/
def Traceless (s : Cloning) : Prop :=
  ∀ e s', cloneParentPageTable isShared pml4 s = .error e s' → s' = s

/-- the frames that an entry takes, given those of the entries below it; no number of frames is enough for one without a frame -/
def need (below : α → ℕ∞) : Option (List α) → ℕ∞
  | none => ⊤
  | some entries => 1 + (entries.map below).sum

/-- the frames for the tables of the child -/
def tables : ℕ∞ :=
  1 + (pml4.map (need (need (need fun page => if page.isNone then ⊤ else 0)))).sum

/-- the walk returns if there are `n` frames, and takes them -/
def Takes (x : EStateM String Cloning Unit) (n : ℕ∞) : Prop :=
  ∀ s, (n ≤ s.free.length → ∃ s', x s = .ok () s' ∧ s'.free.length + n = s.free.length) ∧
    (s.free.length < n → ∃ e s', x s = .error e s' ∧ s'.free.length ≤ s.free.length)

theorem takes_throw (error : String) : Takes (throw error) ⊤ :=
  fun s => ⟨fun h => absurd h (by simp), fun _ => ⟨error, s, rfl, le_rfl⟩⟩

theorem takes_modify {f : Cloning → Cloning} (h : ∀ s, (f s).free = s.free) : Takes (modify f) 0 :=
  fun s => ⟨fun _ => ⟨f s, rfl, by rw [h, add_zero]⟩, fun h => absurd h (by simp)⟩

theorem takes_allocate (error : String) : Takes (allocate error) 1 := by
  rintro ⟨free, refs, entry⟩
  cases free with
  | nil => exact ⟨fun h => absurd h (by simp), fun _ => ⟨error, _, rfl, le_rfl⟩⟩
  | cons frame rest => exact ⟨fun _ => ⟨_, rfl, by simp⟩, fun h => absurd h (by simp)⟩

theorem Takes.bind {x y : EStateM String Cloning Unit} {m n : ℕ∞} (hx : Takes x m) (hy : Takes y n) :
    Takes (do x; y) (m + n) := by
  intro s
  by_cases hm : m ≤ s.free.length
  · obtain ⟨s1, hr, hfree⟩ := (hx s).1 hm
    obtain ⟨hok, herr⟩ := hy s1
    have hfinite : m ≠ ⊤ := ne_top_of_le_ne_top (ENat.natCast_ne_top _) hm
    have hless : s1.free.length ≤ s.free.length := by
      have h : (s1.free.length : ℕ∞) ≤ s.free.length := hfree ▸ le_self_add
      exact_mod_cast h
    rw [bind_ok hr, ← hfree, add_comm _ m]
    refine ⟨fun h => ?_, fun h => ?_⟩
    · obtain ⟨s', hs', hfree'⟩ := hok ((ENat.add_le_add_iff_left hfinite).mp h)
      exact ⟨s', hs', by rw [← hfree', add_left_comm]⟩
    · obtain ⟨e, s', hs', hfree'⟩ := herr ((ENat.add_lt_add_iff_left hfinite).mp h)
      exact ⟨e, s', hs', hfree'.trans hless⟩
  · obtain ⟨e, s', hr, hfree⟩ := (hx s).2 (not_le.mp hm)
    exact ⟨fun h => absurd (le_self_add.trans h) hm, fun _ => ⟨e, s', bind_error hr _, hfree⟩⟩

variable {f : α → EStateM String Cloning Unit} {n : α → ℕ∞}

theorem takes_forEach (h : ∀ a, Takes (f a) (n a)) (as : List α) : Takes (forEach f as) (as.map n).sum := by
  induction as with
  | nil => exact fun s => ⟨fun _ => ⟨s, rfl, add_zero _⟩, fun h => absurd h (by simp)⟩
  | cons a as ih =>
    exact (h a).bind ih

theorem takes_clonePage : ∀ page, Takes (clonePage isShared page) (if page.isNone then ⊤ else 0)
  | none => takes_throw _
  | some _ => takes_modify fun _ => rfl

theorem takes_cloneEntry (h : ∀ a, Takes (f a) (n a))
    (error invalid : String) : ∀ entry, Takes (cloneEntry error invalid f entry) (need n entry)
  | none => by
    have hnone := (takes_allocate error).bind (takes_throw invalid)
    rwa [add_top] at hnone
  | some entries => (takes_allocate error).bind (takes_forEach h entries)

/-- **Failed forks.** An error leaves no trace exactly if there is no frame at all, or one for each table and no entry of the
parent without a frame. -/
theorem failed_clone_traceless_iff (isShared : ℕ → Bool) (pml4 : Table (Table (Table (Table ℕ)))) (s : Cloning) :
    Traceless isShared pml4 s ↔ s.free = [] ∨ tables pml4 ≤ s.free.length := by
  obtain ⟨free, refs, entry⟩ := s
  cases free with
  | nil => exact ⟨fun _ => .inl rfl, fun _ _ _ hr => by cases hr; rfl⟩
  | cons frame rest =>
    -- the frame of the PML4 is gone, and the rest of the walk puts none back
    obtain ⟨hok, herr⟩ := takes_forEach (takes_cloneEntry (takes_cloneEntry (takes_cloneEntry (takes_clonePage isShared)
      _ _) _ _) "Failed to allocate child PDPT frame" "Invalid frame in parent PML4") pml4 ⟨rest, update refs frame 1, entry⟩
    rw [or_iff_right (cons_ne_nil _ _), tables, length_cons, Nat.cast_succ, add_comm,
      ENat.add_le_add_iff_right ENat.one_ne_top]
    constructor
    · intro h
      by_contra hfew
      obtain ⟨e, s', hr, hfree⟩ := herr (not_le.mp hfew)
      rw [h e s' hr] at hfree
      exact absurd hfree (Nat.not_succ_le_self _)
    · intro hall e s' hr
      obtain ⟨s1, hr', -⟩ := hok hall
      cases hr.symm.trans hr'

/-- four frames for the five tables: the first page is left copy-on-write -/
theorem failed_clone_traces : ¬Traceless (fun _ => false) [some [some [some [some 0], some [some 512]]]]
    ⟨[1, 2, 3, 4], fun _ => 0, fun _ => (9, ⟨true, false, true, false⟩)⟩ := by
  intro h
  have hsame := congrArg (fun s : Cloning => s.entry 0) (h _ _ rfl)
  exact absurd hsame (by decide)

end Cloning

end Kontsnor.Memory
