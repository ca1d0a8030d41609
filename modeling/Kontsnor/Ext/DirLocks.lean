/-
The inode locks that calls on one ext directory take (`fs/ext/dir.rs`).

The raw inode has a mutex and the VFS inode a reader-writer lock. How many blocks a call walks through, and which of them the
extent cache has, is given with the call.

Calls take the raw lock before the VFS lock, but `remove_directory_entry` keeps the VFS lock while it resolves blocks.

**Main result.** `no_deadlock_on_directory`.
-/
import Kontsnor.Core.LockOrder

namespace Kontsnor.Ext.DirLocks

open Runs LockOrder List

/-! ## Calls -/

/-- the locks of the directory (`none`) and of its children -/
inductive Lock
  | raw (child : Option ℕ)
  | vfs (child : Option ℕ)
  deriving DecidableEq

section

variable (i : Option ℕ)

def resolveBlock (cached : Bool) : List (Instr Lock) := if cached then [] else [.take false (.raw i), .drop (.raw i)]

/-- `readdir_dir_entry`, and `lookup_dir_entry` where the name cache has no answer -/
def walk (cached : List Bool) : List (Instr Lock) := .take true (.vfs i) :: .drop (.vfs i) :: cached.flatMap (resolveBlock i)

/-- `add_directory_entry`, `dec_nlink` -/
def both : List (Instr Lock) := [.take false (.raw i), .take false (.vfs i), .drop (.vfs i), .drop (.raw i)]

end

def removeDirectoryEntry (cached : List Bool) : List (Instr Lock) :=
  .take true (.vfs none) :: (cached.flatMap (resolveBlock none) ++ [.drop (.vfs none)])

inductive Call
  | lookupDirEntry (cached : List Bool)
  | readdirDirEntry (cached : List Bool)
  | addDirectoryEntry
  | removeDirectoryEntry (cached : List Bool)
  | createDirEntry (cached : List Bool) (isDir : Bool)
  | rmdirDirEntry (cached : List Bool) (child : Option ℕ) (childCached cached' : List Bool)

namespace Call

def program : Call → List (Instr Lock)
  | .lookupDirEntry cached => walk none cached
  | .readdirDirEntry cached => walk none cached
  | .addDirectoryEntry => both none
  | .removeDirectoryEntry cached => DirLocks.removeDirectoryEntry cached
  -- a directory counts in the links of its parent
  | .createDirEntry cached isDir => walk none cached ++ (both none ++ if isDir then both none else [])
  -- `child.inode()` and `child.readdir()`; the raw lock of the parent is kept to the end
  | .rmdirDirEntry cached child childCached cached' =>
    walk none cached ++ (walk child [] ++ (walk child childCached ++ (DirLocks.removeDirectoryEntry cached' ++
      ([.take false (.raw none), .take false (.vfs none), .drop (.vfs none)] ++
        (both child ++ (both child ++ [.drop (.raw none)]))))))

/-- an entry is removed, and the extent cache does not have all blocks or the entry is the directory's own -/
def removes : Call → Bool
  | .removeDirectoryEntry cached => cached.any not
  | .rmdirDirEntry _ child _ cached => child.isNone || cached.any not
  | _ => false

/-- both locks are taken, the raw lock first -/
def inserts : Call → Bool
  | .addDirectoryEntry | .createDirEntry .. | .rmdirDirEntry .. => true
  | _ => false

end Call

/-! ## The order -/

/-- children come last -/
def rank (rawFirst : Bool) : Lock → ℕ
  | .raw none => if rawFirst then 3 else 2
  | .vfs none => if rawFirst then 2 else 3
  | .raw (some _) => 1
  | .vfs (some _) => 0

variable {b : Bool} {cached : List Bool}

theorem ordered_resolve {i : Option ℕ} {held : List (Bool × Lock)} {rest : List (Instr Lock)}
    (h : cached.any not = true → ∀ x ∈ held, rank b (.raw i) < rank b x.2) (hrest : Ordered (rank b) held rest) :
    Ordered (rank b) held (cached.flatMap (resolveBlock i) ++ rest) := by
  induction cached with
  | nil => exact hrest
  | cons c cached ih =>
    cases c with
    | true => exact ih h
    | false =>
      refine ⟨h rfl, ?_⟩
      have hheld : (((false, .raw i) :: held).filter fun x => x.2 ≠ .raw i) = held := by
        rw [filter_cons_of_neg (by simp), filter_eq_self]
        intro x hx
        refine decide_eq_true fun heq => ?_
        have hlt := h rfl x hx
        rw [heq] at hlt
        exact Nat.lt_irrefl _ hlt
      change Ordered (rank b) (filter _ _) _
      rw [hheld]
      exact ih fun _ => h rfl

theorem ordered_walk (i : Option ℕ) (cached : List Bool) : Ordered (rank b) [] (walk i cached) := by
  have hblocks : Ordered (rank b) [] (cached.flatMap (resolveBlock i) ++ []) := ordered_resolve (by simp) rfl
  exact ⟨by simp, by simpa [Ordered] using hblocks⟩

theorem ordered_remove (h : cached.any not = true → b = false) : Ordered (rank b) [] (removeDirectoryEntry cached) := by
  refine ⟨by simp, ordered_resolve (fun hany x hx => ?_) (by simp [Ordered])⟩
  rw [mem_singleton.1 hx, h hany]
  decide

/-- **One call.** It takes locks in one of two orders, whichever way it nests them. -/
theorem ordered_program {call : Call} (hr : call.removes → b = false) (hi : call.inserts → b = true) :
    Ordered (rank b) [] call.program := by
  cases call with
  | lookupDirEntry cached => exact ordered_walk none cached
  | readdirDirEntry cached => exact ordered_walk none cached
  | addDirectoryEntry => simp [Call.program, both, Ordered, rank, hi rfl]
  | removeDirectoryEntry cached => exact ordered_remove hr
  | createDirEntry cached isDir =>
    refine (ordered_walk none cached).append ?_
    cases isDir <;> simp [both, Ordered, rank, hi rfl]
  | rmdirDirEntry cached child childCached cached' =>
    cases child with
    | none => cases (hr rfl).symm.trans (hi rfl)
    | some child =>
      refine (ordered_walk none cached).append ((ordered_walk _ []).append ((ordered_walk _ childCached).append ?_))
      refine (ordered_remove hr).append ?_
      simp [both, Ordered, rank, hi rfl]

/-! ## Runs -/

section

variable {ι : Type} [Fintype ι] [DecidableEq ι]

/-- **No deadlock on a directory.** In every interleaving of calls by any number of CPUs, if none of them removes an entry from
blocks outside the extent cache, or none takes both locks. -/
theorem no_deadlock_on_directory (events : List (Event Call ι))
    (h : (∀ c call, .call c call ∈ events → ¬call.removes) ∨ ∀ c call, .call c call ∈ events → ¬call.inserts) :
    ¬Deadlock (run (step Call.program) idle events) := by
  obtain ⟨b, hb⟩ : ∃ b, ∀ c call, .call c call ∈ events → Ordered (rank b) [] call.program := by
    rcases h with h | h
    · exact ⟨true, fun c call hcall => ordered_program (fun hr => absurd hr (h c call hcall)) fun _ => rfl⟩
    · exact ⟨false, fun c call hcall => ordered_program (fun _ => rfl) fun hi => absurd hi (h c call hcall)⟩
  exact no_deadlock hb

end

theorem no_deadlock_on_directory_cached : ¬Deadlock (run (step Call.program) idle
    [.call (0 : Fin 2) (.removeDirectoryEntry [true]), .advance 0, .call 1 .addDirectoryEntry, .advance 1]) := by
  refine no_deadlock_on_directory _ (.inl fun c call hcall => ?_)
  simp only [mem_cons, Event.call.injEq, reduceCtorEq, not_mem_nil, or_false, false_or] at hcall
  rcases hcall with ⟨-, rfl⟩ | ⟨-, rfl⟩ <;> decide

/-- **Removal and insertion wait for each other.** CPU 0 has the VFS lock and goes for the raw inode; CPU 1 has locked the raw
inode and goes for the VFS lock, to write. -/
theorem removal_deadlocks : Deadlock (run (step Call.program) idle
    [.call (0 : Fin 2) (.removeDirectoryEntry [false]), .advance 0, .call 1 .addDirectoryEntry, .advance 1]) := by
  refine ⟨Set.univ, ⟨0, trivial⟩, fun c _ => ?_⟩
  fin_cases c
  · exact ⟨1, trivial, by decide, _, _, _, rfl, _, mem_singleton_self _, rfl⟩
  · exact ⟨0, trivial, by decide, _, _, _, rfl, _, mem_singleton_self _, rfl⟩

end Kontsnor.Ext.DirLocks
