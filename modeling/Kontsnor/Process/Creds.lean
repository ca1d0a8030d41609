/-
The credentials of a task (`syscall/process/creds.rs`): `setuid`, `setreuid`, `setresuid` and their siblings for groups, and
what `execve` makes of them.

A task has three user ids and three group ids. `setuid` by a task with effective uid 0 sets the real and the effective id and
leaves the saved one. The calls on group ids ask for effective uid 0, except `setgid`, which asks for effective gid 0.
-/
import Kontsnor.Errno
import Kontsnor.Core.Runs

namespace Kontsnor.Process

open Runs (run)

/-! ## The calls -/

structure Ids where
  real : UInt32
  effective : UInt32
  saved : UInt32
  deriving DecidableEq, Repr

/-- `u32::MAX` as an argument leaves the id as it is -/
def KEEP : UInt32 := 0xFFFFFFFF

namespace Ids

def Has (ids : Ids) (id : UInt32) : Prop := id = ids.real ∨ id = ids.effective ∨ id = ids.saved

instance (ids : Ids) (id : UInt32) : Decidable (ids.Has id) := inferInstanceAs (Decidable (_ ∨ _ ∨ _))

def choose (id old : UInt32) : UInt32 := if id ≠ KEEP then id else old

variable (privileged : Bool)

def set (id : UInt32) (ids : Ids) : Except Errno Ids :=
  if privileged then .ok { ids with real := id, effective := id }
  else if id = ids.real then .ok { ids with effective := id }
  else .error .EPERM

def setre (real effective : UInt32) (ids : Ids) : Except Errno Ids :=
  if privileged = false ∧ real ≠ KEEP ∧ real ≠ ids.real ∧ real ≠ ids.effective then .error .EPERM
  else if privileged = false ∧ effective ≠ KEEP ∧ ¬ids.Has effective then .error .EPERM
  else .ok ⟨choose real ids.real, choose effective ids.effective, ids.saved⟩

def setres (real effective saved : UInt32) (ids : Ids) : Except Errno Ids :=
  if privileged = false ∧ real ≠ KEEP ∧ ¬ids.Has real then .error .EPERM
  else if privileged = false ∧ effective ≠ KEEP ∧ ¬ids.Has effective then .error .EPERM
  else if privileged = false ∧ saved ≠ KEEP ∧ ¬ids.Has saved then .error .EPERM
  else .ok ⟨choose real ids.real, choose effective ids.effective, choose saved ids.saved⟩

end Ids

structure Creds where
  uids : Ids
  gids : Ids
  deriving DecidableEq, Repr

namespace Creds

variable (c : Creds)

def withUids (uids : Ids) : Creds := { c with uids }

def withGids (gids : Ids) : Creds := { c with gids }

def isRoot : Bool := c.uids.effective == 0

end Creds

def sysSetuid (uid : UInt32) (c : Creds) : Except Errno Creds := (c.uids.set c.isRoot uid).map c.withUids

/-- the test is on the effective gid here -/
def sysSetgid (gid : UInt32) (c : Creds) : Except Errno Creds := (c.gids.set (c.gids.effective == 0) gid).map c.withGids

def sysSetreuid (ruid euid : UInt32) (c : Creds) : Except Errno Creds := (c.uids.setre c.isRoot ruid euid).map c.withUids

def sysSetregid (rgid egid : UInt32) (c : Creds) : Except Errno Creds := (c.gids.setre c.isRoot rgid egid).map c.withGids

def sysSetresuid (ruid euid suid : UInt32) (c : Creds) : Except Errno Creds :=
  (c.uids.setres c.isRoot ruid euid suid).map c.withUids

def sysSetresgid (rgid egid sgid : UInt32) (c : Creds) : Except Errno Creds :=
  (c.gids.setres c.isRoot rgid egid sgid).map c.withGids

/-- the effective ids of a task that executes a file -/
def calculateExecCreds (mode : UInt16) (fileUid fileGid realUid realGid : UInt32) : UInt32 × UInt32 :=
  (if mode &&& 0o4000 ≠ 0 then fileUid else realUid, if mode &&& 0o2000 ≠ 0 then fileGid else realGid)

inductive CredCall where
  | setuid (uid : UInt32)
  | setgid (gid : UInt32)
  | setreuid (ruid euid : UInt32)
  | setregid (rgid egid : UInt32)
  | setresuid (ruid euid suid : UInt32)
  | setresgid (rgid egid sgid : UInt32)
  deriving DecidableEq, Repr

namespace CredCall

def result (c : Creds) : CredCall → Except Errno Creds
  | setuid uid => sysSetuid uid c
  | setgid gid => sysSetgid gid c
  | setreuid ruid euid => sysSetreuid ruid euid c
  | setregid rgid egid => sysSetregid rgid egid c
  | setresuid ruid euid suid => sysSetresuid ruid euid suid c
  | setresgid rgid egid sgid => sysSetresgid rgid egid sgid c

/-- a call on the user ids -/
def OnUids : CredCall → Prop
  | setuid _ | setreuid _ _ | setresuid _ _ _ => True
  | setgid _ | setregid _ _ | setresgid _ _ _ => False

end CredCall

/-- a call that fails leaves the credentials as they are -/
def perform (c : Creds) (call : CredCall) : Creds := (call.result c).toOption.getD c

/-! ## Ids that a call without privilege can give -/

namespace Ids

variable {ids ids' : Ids} {id real effective saved : UInt32}

/-- all three ids are among those of `ids'` -/
structure Within (ids ids' : Ids) : Prop where
  real : ids'.Has ids.real
  effective : ids'.Has ids.effective
  saved : ids'.Has ids.saved

theorem Within.refl (ids : Ids) : ids.Within ids := ⟨.inl rfl, .inr (.inl rfl), .inr (.inr rfl)⟩

theorem Within.has {ids0 : Ids} (h : ids.Within ids0) (hid : ids.Has id) : ids0.Has id := by
  rcases hid with rfl | rfl | rfl
  · exact h.real
  · exact h.effective
  · exact h.saved

theorem Within.trans {ids0 : Ids} (h : ids'.Within ids) (h₀ : ids.Within ids0) : ids'.Within ids0 :=
  ⟨h₀.has h.real, h₀.has h.effective, h₀.has h.saved⟩

theorem has_choose {old : UInt32} (hold : ids.Has old) (h : id ≠ KEEP → ids.Has id) : ids.Has (choose id old) := by
  unfold choose
  split_ifs with hk
  · exact h hk
  · exact hold

theorem set_within (h : ids.set false id = .ok ids') : ids'.Within ids := by
  rw [set, if_neg Bool.false_ne_true] at h
  split_ifs at h with hid
  cases h
  exact ⟨.inl rfl, .inl hid, .inr (.inr rfl)⟩

theorem setre_within (h : ids.setre false real effective = .ok ids') : ids'.Within ids := by
  rw [setre] at h
  split_ifs at h with hr he
  cases h
  simp only [true_and, not_and, not_not] at hr he
  refine ⟨has_choose (.inl rfl) fun hk => ?_, has_choose (.inr (.inl rfl)) he, .inr (.inr rfl)⟩
  by_cases hreal : real = ids.real
  · exact .inl hreal
  · exact .inr (.inl (hr hk hreal))

theorem setres_within (h : ids.setres false real effective saved = .ok ids') : ids'.Within ids := by
  rw [setres] at h
  split_ifs at h with hr he hs
  cases h
  simp only [true_and, not_and, not_not] at hr he hs
  exact ⟨has_choose (.inl rfl) hr, has_choose (.inr (.inl rfl)) he, has_choose (.inr (.inr rfl)) hs⟩

/-- none of the ids is 0 -/
structure NoRoot (ids : Ids) : Prop where
  real : ids.real ≠ 0
  effective : ids.effective ≠ 0
  saved : ids.saved ≠ 0

theorem noRoot_iff : ids.NoRoot ↔ ¬ids.Has 0 := by
  constructor
  · rintro ⟨h1, h2, h3⟩ (h | h | h)
    · exact h1 h.symm
    · exact h2 h.symm
    · exact h3 h.symm
  · intro h
    exact ⟨fun h0 => h (.inl h0.symm), fun h0 => h (.inr (.inl h0.symm)), fun h0 => h (.inr (.inr h0.symm))⟩

theorem NoRoot.of_within (h : ids.NoRoot) (hw : ids'.Within ids) : ids'.NoRoot :=
  noRoot_iff.2 fun h0 => noRoot_iff.1 h (hw.has h0)

theorem exists_not_has (ids : Ids) : ∃ id, ¬ids.Has id := by
  have hcard : ({ids.real, ids.effective, ids.saved} : Finset UInt32).card < ({0, 1, 2, 3} : Finset UInt32).card :=
    lt_of_le_of_lt Finset.card_le_three (by decide)
  obtain ⟨id, _, hid⟩ := Finset.exists_mem_notMem_of_card_lt_card hcard
  refine ⟨id, fun h => hid ?_⟩
  simpa [Has] using h

end Ids

section Calls

variable {c c' : Creds} {call : CredCall}

theorem perform_eq (c : Creds) (call : CredCall) : perform c call = c ∨ call.result c = .ok (perform c call) := by
  unfold perform
  cases call.result c with
  | error e => exact .inl rfl
  | ok c' => exact .inr rfl

theorem map_eq_ok {f : Ids → Creds} {r : Except Errno Ids} (h : r.map f = .ok c') : ∃ ids, r = .ok ids ∧ c' = f ids := by
  cases r with
  | error e => cases h
  | ok ids =>
    cases h
    exact ⟨ids, rfl, rfl⟩

/-- without effective uid 0, the user ids of a call are among those before it -/
theorem result_uids (h : c.isRoot = false) (hr : call.result c = .ok c') : c'.uids.Within c.uids := by
  cases call with
  | setuid uid =>
    obtain ⟨ids, hids, rfl⟩ := map_eq_ok hr
    rw [h] at hids
    exact Ids.set_within hids
  | setreuid ruid euid =>
    obtain ⟨ids, hids, rfl⟩ := map_eq_ok hr
    rw [h] at hids
    exact Ids.setre_within hids
  | setresuid ruid euid suid =>
    obtain ⟨ids, hids, rfl⟩ := map_eq_ok hr
    rw [h] at hids
    exact Ids.setres_within hids
  | setgid gid | setregid rgid egid | setresgid rgid egid sgid =>
    obtain ⟨ids, _, rfl⟩ := map_eq_ok hr
    exact Ids.Within.refl c.uids

/-- for the group ids, `setgid` asks for effective gid 0 -/
theorem result_gids (h : c.isRoot = false) (hg : c.gids.effective ≠ 0) (hr : call.result c = .ok c') :
    c'.gids.Within c.gids := by
  have hgid : (c.gids.effective == 0) = false := beq_false_of_ne hg
  cases call with
  | setgid gid =>
    obtain ⟨ids, hids, rfl⟩ := map_eq_ok hr
    rw [hgid] at hids
    exact Ids.set_within hids
  | setregid rgid egid =>
    obtain ⟨ids, hids, rfl⟩ := map_eq_ok hr
    rw [h] at hids
    exact Ids.setre_within hids
  | setresgid rgid egid sgid =>
    obtain ⟨ids, hids, rfl⟩ := map_eq_ok hr
    rw [h] at hids
    exact Ids.setres_within hids
  | setuid uid | setreuid ruid euid | setresuid ruid euid suid =>
    obtain ⟨ids, _, rfl⟩ := map_eq_ok hr
    exact Ids.Within.refl c.gids

section

variable (h : c.uids.NoRoot)
include h

theorem isRoot_of_noRoot : c.isRoot = false := beq_false_of_ne h.effective

theorem perform_uids (call : CredCall) : (perform c call).uids.Within c.uids := by
  rcases perform_eq c call with heq | hok
  · rw [heq]
    exact Ids.Within.refl c.uids
  · exact result_uids (isRoot_of_noRoot h) hok

theorem perform_gids (hg : c.gids.NoRoot) (call : CredCall) : (perform c call).gids.Within c.gids := by
  rcases perform_eq c call with heq | hok
  · rw [heq]
    exact Ids.Within.refl c.gids
  · exact result_gids (isRoot_of_noRoot h) hg.effective hok

/-- without root ids, the user ids of a run stay among those at its start -/
theorem run_uids (calls : List CredCall) : (run perform c calls).uids.Within c.uids := by
  induction calls generalizing c with
  | nil => exact Ids.Within.refl c.uids
  | cons call calls ih =>
    have hstep := perform_uids h call
    exact (ih (h.of_within hstep)).trans hstep

theorem run_gids (hg : c.gids.NoRoot) (calls : List CredCall) : (run perform c calls).gids.Within c.gids := by
  induction calls generalizing c with
  | nil => exact Ids.Within.refl c.gids
  | cons call calls ih =>
    have hstep := perform_gids h hg call
    exact (ih (h.of_within (perform_uids h call)) (hg.of_within hstep)).trans hstep

end

end Calls

/-! ## Dropping root -/

/-- a task with effective uid 0 sets two of its ids with `setuid` -/
theorem sysSetuid_root {c : Creds} (h : c.uids.effective = 0) (u : UInt32) :
    sysSetuid u c = .ok (c.withUids ⟨u, u, c.uids.saved⟩) := by
  have hroot : c.isRoot = true := beq_iff_eq.2 h
  rw [sysSetuid, hroot]
  rfl

/-- **Dropping root is permanent exactly if the saved uid was not 0.** -/
theorem setuid_permanent_iff (c : Creds) (u : UInt32) (hroot : c.uids.effective = 0) (hu : u ≠ 0) :
    (∀ c', sysSetuid u c = .ok c' → ∀ calls, (∀ call ∈ calls, call.OnUids) → (run perform c' calls).uids.NoRoot) ↔
      c.uids.saved ≠ 0 := by
  rw [sysSetuid_root hroot]
  constructor
  · intro h
    exact (h _ rfl [] (by simp)).saved
  · rintro hsaved _ ⟨⟩ calls _
    have hnone : (c.withUids ⟨u, u, c.uids.saved⟩).uids.NoRoot := ⟨hu, hu, hsaved⟩
    exact hnone.of_within (run_uids hnone calls)

/-- a set-user-id program of user 7 that root runs: its saved uid is not 0 -/
theorem setuid_permanent_seven : sysSetuid 1000 ⟨⟨0, 0, 7⟩, ⟨0, 0, 0⟩⟩ = .ok ⟨⟨1000, 1000, 7⟩, ⟨0, 0, 0⟩⟩ ∧
    (run perform ⟨⟨1000, 1000, 7⟩, ⟨0, 0, 0⟩⟩ [.setresuid KEEP 7 KEEP, .setuid 0]).uids.NoRoot :=
  ⟨rfl, (setuid_permanent_iff ⟨⟨0, 0, 7⟩, ⟨0, 0, 0⟩⟩ 1000 rfl (by decide)).2 (by decide) _ rfl _
    (by simp [CredCall.OnUids])⟩

/-- root drops to user 1000 and is root again: the saved uid was left at 0 -/
theorem setuid_undone : sysSetuid 1000 ⟨⟨0, 0, 0⟩, ⟨0, 0, 0⟩⟩ = .ok ⟨⟨1000, 1000, 0⟩, ⟨0, 0, 0⟩⟩ ∧
    (run perform ⟨⟨1000, 1000, 0⟩, ⟨0, 0, 0⟩⟩ [.setresuid KEEP 0 KEEP, .setuid 0]).uids = ⟨0, 0, 0⟩ := by
  decide

/-! ## Closure -/

/-- a group id that is 0 can be made the effective one, and then `setgid` sets any -/
theorem gids_escape {c : Creds} (h : c.uids.NoRoot) (h0 : c.gids.Has 0) (gid : UInt32) :
    (run perform c [.setresgid KEEP 0 KEEP, .setgid gid]).gids = ⟨gid, gid, c.gids.saved⟩ := by
  have hroot := isRoot_of_noRoot h
  have hfirst : perform c (.setresgid KEEP 0 KEEP) = c.withGids ⟨c.gids.real, 0, c.gids.saved⟩ := by
    have hkeep : ∀ old, Ids.choose KEEP old = old := fun old => if_neg (by simp)
    have hzero : ∀ old, Ids.choose 0 old = 0 := fun old => if_pos (by decide)
    simp [perform, CredCall.result, sysSetresgid, hroot, Ids.setres, h0, hkeep, hzero, Except.map, Except.toOption]
  rw [run, List.foldl_cons, hfirst]
  simp [perform, CredCall.result, sysSetgid, Ids.set, Creds.withGids, Except.map, Except.toOption]

/-- **A task without root ids is confined to its ids exactly if none of its group ids is 0.** -/
theorem credentials_closed_iff (c : Creds) (h : c.uids.NoRoot) :
    (∀ calls, (run perform c calls).uids.Within c.uids ∧ (run perform c calls).gids.Within c.gids) ↔ c.gids.NoRoot := by
  constructor
  · intro hclosed
    refine Ids.noRoot_iff.2 fun h0 => ?_
    obtain ⟨gid, hgid⟩ := c.gids.exists_not_has
    have hwithin := (hclosed [.setresgid KEEP 0 KEEP, .setgid gid]).2
    rw [gids_escape h h0] at hwithin
    exact hgid hwithin.real
  · intro hg calls
    exact ⟨run_uids h calls, run_gids h hg calls⟩

theorem credentials_closed_user :
    (run perform ⟨⟨1000, 1000, 1001⟩, ⟨100, 100, 100⟩⟩ [.setresuid KEEP 1001 KEEP, .setgid 5]).uids.Within
      ⟨1000, 1000, 1001⟩ ∧
    (run perform ⟨⟨1000, 1000, 1001⟩, ⟨100, 100, 100⟩⟩ [.setresuid KEEP 1001 KEEP, .setgid 5]).gids.Within
      ⟨100, 100, 100⟩ :=
  (credentials_closed_iff ⟨⟨1000, 1000, 1001⟩, ⟨100, 100, 100⟩⟩ ⟨by decide, by decide, by decide⟩).2
    ⟨by decide, by decide, by decide⟩ _

/-- a task with effective gid 0 and no root uid gives itself group 5 -/
theorem group_zero_escapes :
    (run perform ⟨⟨1000, 1000, 1000⟩, ⟨0, 0, 0⟩⟩ [.setgid 5]).gids = ⟨5, 5, 0⟩ ∧ ¬(⟨0, 0, 0⟩ : Ids).Has 5 := by
  decide

end Kontsnor.Process
