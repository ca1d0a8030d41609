/-
The directory name cache (`fs/dcache.rs`), which all mounted filesystems share.

An entry is found by the number of its directory and a 64-bit hash of its name. Neither the name nor the filesystem is stored,
so it answers for every name with that hash, and for every filesystem that has a directory of that number. The counters of hits
and generations are never read by a lookup, and left out.

`record` says what the calls mean: for each filesystem, directory and name, what was stored last and not invalidated since.

**Main result.** `dcacheLookup_exact`.
-/
import Kontsnor.Core.Runs

namespace Kontsnor.Fs.Dcache

open Runs Function

/-! ## The cache -/

def fnv1a (bytes : List UInt8) : UInt64 :=
  bytes.foldl (fun hash b => (hash ^^^ b.toUInt64) * 1099511628211) 14695981039346656037

def locateBucket (parentIno nameHash : UInt64) : UInt64 × UInt64 :=
  let mixed := parentIno * 2654435761 + nameHash
  (mixed &&& 63, (mixed >>> 6) &&& 63)

structure DcacheEntry (Inode : Type) where
  parentIno : UInt64
  nameHash : UInt64
  /-- `none` for a name that does not exist -/
  inode : Option Inode

/-- the buckets of all shards -/
abbrev DcacheShards (Inode : Type) := UInt64 × UInt64 → Option (DcacheEntry Inode)

section

variable {Inode : Type} (c : DcacheShards Inode) (parentIno : UInt64) (name : List UInt8)

def dcacheLookup : Option (Option Inode) :=
  match c (locateBucket parentIno (fnv1a name)) with
  | some entry => if entry.parentIno = parentIno ∧ entry.nameHash = fnv1a name then some entry.inode else none
  | none => none

/-- an entry replaces whatever is in its bucket -/
def store (inode : Option Inode) : DcacheShards Inode :=
  update c (locateBucket parentIno (fnv1a name)) (some ⟨parentIno, fnv1a name, inode⟩)

def dcacheInsert (inode : Inode) : DcacheShards Inode := store c parentIno name (some inode)

def dcacheInsertNegative : DcacheShards Inode := store c parentIno name none

def dcacheInvalidateInode : DcacheShards Inode := fun b =>
  match c b with
  | some entry => if entry.parentIno = parentIno then none else some entry
  | none => none

def dcacheInvalidateEntry : DcacheShards Inode :=
  match c (locateBucket parentIno (fnv1a name)) with
  | some entry =>
    if entry.parentIno = parentIno ∧ entry.nameHash = fnv1a name then update c (locateBucket parentIno (fnv1a name)) none else c
  | none => c

end

/-! ## Calls -/

/-- a name in a directory of a filesystem -/
structure Dentry where
  fs : ℕ
  parentIno : UInt64
  name : List UInt8
  deriving DecidableEq

inductive Call (Inode : Type)
  | insert (d : Dentry) (inode : Inode)
  | insertNegative (d : Dentry)
  | invalidateEntry (d : Dentry)
  | invalidateInode (fs : ℕ) (parentIno : UInt64)

variable {Inode : Type}

/-- the filesystem that makes the call is not passed on -/
def step (c : DcacheShards Inode) : Call Inode → DcacheShards Inode
  | .insert d inode => dcacheInsert c d.parentIno d.name inode
  | .insertNegative d => dcacheInsertNegative c d.parentIno d.name
  | .invalidateEntry d => dcacheInvalidateEntry c d.parentIno d.name
  | .invalidateInode _ parentIno => dcacheInvalidateInode c parentIno

/-- what the filesystem of the call knows from it -/
def record (r : Dentry → Option (Option Inode)) : Call Inode → Dentry → Option (Option Inode)
  | .insert d inode => update r d (some (some inode))
  | .insertNegative d => update r d (some none)
  | .invalidateEntry d => update r d none
  | .invalidateInode fs parentIno => fun d => if d.fs = fs ∧ d.parentIno = parentIno then none else r d

/-- the number and the hash of `d` belong to no other name that is stored -/
def Call.Apart (d : Dentry) : Call Inode → Prop
  | .insert d' _ | .insertNegative d' => d'.parentIno = d.parentIno → fnv1a d'.name = fnv1a d.name → d' = d
  | _ => True

/-- a lookup returns only what is recorded -/
def Exact (c : DcacheShards Inode) (r : Dentry → Option (Option Inode)) (d : Dentry) : Prop :=
  ∀ inode, dcacheLookup c d.parentIno d.name = some inode → r d = some inode

/-! ## Lookups after a call -/

variable {c : DcacheShards Inode} {r : Dentry → Option (Option Inode)} {d d' : Dentry} {v : Option Inode} {n : List UInt8}

theorem dcacheLookup_eq_some {p : UInt64} : dcacheLookup c p n = some v ↔
    ∃ e, c (locateBucket p (fnv1a n)) = some e ∧ e.parentIno = p ∧ e.nameHash = fnv1a n ∧ e.inode = v := by
  unfold dcacheLookup
  cases c (locateBucket p (fnv1a n)) with
  | none => simp
  | some e => simp [and_assoc]

theorem Exact.store (h : Exact c r d) (hd : d'.parentIno = d.parentIno → fnv1a d'.name = fnv1a d.name → d' = d) :
    Exact (store c d'.parentIno d'.name v) (update r d' (some v)) d := by
  intro w hw
  obtain ⟨e, he, hp, hn, hv⟩ := dcacheLookup_eq_some.1 hw
  rw [Dcache.store, update_apply] at he
  split_ifs at he with hb
  · cases he
    rw [hd hp hn, update_self]
    exact congrArg some hv
  · have hne : d ≠ d' := by
      rintro rfl
      exact hb rfl
    rw [update_of_ne hne]
    exact h w (dcacheLookup_eq_some.2 ⟨e, he, hp, hn, hv⟩)

theorem invalidateEntry_eq_some {p : UInt64} {b : UInt64 × UInt64} {e : DcacheEntry Inode}
    (h : dcacheInvalidateEntry c p n b = some e) :
    c b = some e ∧ (b = locateBucket p (fnv1a n) → e.parentIno = p → e.nameHash ≠ fnv1a n) := by
  unfold dcacheInvalidateEntry at h
  cases hb : c (locateBucket p (fnv1a n)) with
  | none =>
    rw [hb] at h
    refine ⟨h, ?_⟩
    rintro rfl
    cases hb.symm.trans h
  | some entry =>
    rw [hb] at h
    dsimp only at h
    split_ifs at h with hit
    · rw [update_apply] at h
      split_ifs at h with hne
      exact ⟨h, fun heq => absurd heq hne⟩
    · refine ⟨h, ?_⟩
      rintro rfl hp hn
      cases hb.symm.trans h
      exact hit ⟨hp, hn⟩

/-- **Step.** A call keeps a lookup exact, unless it stores another name under the same number and hash. -/
theorem exact_step (h : Exact c r d) {call : Call Inode} (hd : call.Apart d) : Exact (step c call) (record r call) d := by
  cases call with
  | insert d' inode => exact h.store hd
  | insertNegative d' => exact h.store hd
  | invalidateEntry d' =>
    intro w hw
    obtain ⟨e, he, hp, hn, hv⟩ := dcacheLookup_eq_some.1 hw
    obtain ⟨hold, hother⟩ := invalidateEntry_eq_some he
    have hne : d ≠ d' := by
      rintro rfl
      exact hother rfl hp hn
    change update r d' none d = some w
    rw [update_of_ne hne]
    exact h w (dcacheLookup_eq_some.2 ⟨e, hold, hp, hn, hv⟩)
  | invalidateInode fs parentIno =>
    intro w hw
    obtain ⟨e, he, hp, hn, hv⟩ := dcacheLookup_eq_some.1 hw
    change dcacheInvalidateInode c parentIno _ = some e at he
    unfold dcacheInvalidateInode at he
    cases hb : c (locateBucket d.parentIno (fnv1a d.name)) with
    | none =>
      rw [hb] at he
      cases he
    | some entry =>
      rw [hb] at he
      dsimp only at he
      split_ifs at he with hother
      cases he
      change (if d.fs = fs ∧ d.parentIno = parentIno then none else r d) = some w
      rw [if_neg fun heq => hother (hp.trans heq.2)]
      exact h w (dcacheLookup_eq_some.2 ⟨e, hb, hp, hn, hv⟩)

/-- **The name cache is exact.** Whatever the filesystems call, a lookup returns only what the calls of its own filesystem
stored last for that directory and that name and have not invalidated since, as long as no other name is stored under the
same number and hash. -/
theorem dcacheLookup_exact (d : Dentry) (calls : List (Call Inode)) (h : ∀ call ∈ calls, call.Apart d) :
    Exact (run step (fun _ => none) calls) (run record (fun _ => none) calls) d := by
  induction calls using List.reverseRecOn with
  | nil => exact nofun
  | append_singleton calls call ih =>
    rw [run_concat, run_concat]
    refine exact_step (ih fun call' hcall => h call' (List.mem_append_left _ hcall)) (h call ?_)
    exact List.mem_append_right _ (List.mem_singleton_self call)

theorem dcacheLookup_exact_two :
    Exact (run step (fun _ => none) [.insert ⟨0, 2, [97]⟩ 12, .insert ⟨1, 7, [97]⟩ 5, .insertNegative ⟨0, 2, [98]⟩])
      (run record (fun _ => none) [.insert ⟨0, 2, [97]⟩ 12, .insert ⟨1, 7, [97]⟩ 5, .insertNegative ⟨0, 2, [98]⟩])
      ⟨0, 2, [97]⟩ := by
  refine dcacheLookup_exact _ _ fun call hcall => ?_
  fin_cases hcall
  · exact fun _ _ => rfl
  · exact fun h _ => absurd h (by decide)
  · exact fun _ h => absurd h (by decide)

/-- two filesystems with a file `a` in their root directories: the second one is given the file of the first -/
theorem dcache_answers_other_filesystem :
    let calls : List (Call ℕ) := [.insert ⟨0, 2, [97]⟩ 12]
    dcacheLookup (run step (fun _ => none) calls) 2 [97] = some (some 12) ∧
      run record (fun _ => none) calls ⟨1, 2, [97]⟩ = none := by decide +kernel

end Kontsnor.Fs.Dcache
