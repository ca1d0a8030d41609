/-
Advisory locks on the bytes of a file (`syscall/fs/io.rs`): F_SETLK, F_SETLKW and their OFD variants, flock, and the
releases when a descriptor is closed, a description is dropped or a task ends.

The table of a file is a list of ranges with an owner and a type; length 0 stands for "without end". A request first takes its
range out of the ranges of its owner, which can leave two pieces of each, and then adds itself. flock asks for the range without
end from 0, and an OFD lock has the same owner as flock on the same description. A call that waits tries again and again, each
time under the lock of the table; `step` is one such try.

**Main result.** `locks_exact`.
-/
import Kontsnor.Errno
import Kontsnor.Core.Runs

namespace Kontsnor.Fs.RangeLocks

open List Runs Option

inductive LockType
  | shared | exclusive
  deriving DecidableEq, Repr

inductive LockOwner
  | flock (fdDescPtr : ℕ)
  | fcntl (pid : ℕ)
  deriving DecidableEq, Repr

structure FileRangeLock where
  owner : LockOwner
  typ : LockType
  start : UInt64
  /-- 0 means without end -/
  len : UInt64
  deriving DecidableEq, Repr

/-- what the user passes to fcntl -/
structure Flock where
  lType : Int16
  lWhence : Int16
  lStart : Int64
  lLen : Int64
  deriving DecidableEq, Repr

def U64_MAX : UInt64 := 18446744073709551615

/-! ## Ranges -/

/-- where a request starts; `i64` sums wrap around -/
def resolveStart (fl : Flock) (currentOffset fileSize : UInt64) : Except Errno UInt64 :=
  let from_ (val : Int64) : Except Errno UInt64 := if val < 0 then .error .EINVAL else .ok val.toUInt64
  if fl.lWhence = 0 then from_ fl.lStart
  else if fl.lWhence = 1 then from_ (currentOffset.toInt64 + fl.lStart)
  else if fl.lWhence = 2 then from_ (fileSize.toInt64 + fl.lStart)
  else .error .EINVAL

def resolveLockRange (fl : Flock) (currentOffset fileSize : UInt64) : Except Errno (UInt64 × UInt64) := do
  let start ← resolveStart fl currentOffset fileSize
  if 0 < fl.lLen then pure (start, fl.lLen.toUInt64)
  else if fl.lLen < 0 then
    let newStart := start.toInt64 + fl.lLen
    if newStart < 0 then throw .EINVAL
    else pure (newStart.toUInt64, (-fl.lLen).toUInt64)
  else pure (start, 0)

def saturatingAdd (a b : UInt64) : UInt64 := if a.toNat + b.toNat < 2 ^ 64 then a + b else U64_MAX

def rangesOverlap (start1 len1 start2 len2 : UInt64) : Bool :=
  let end1 := if len1 = 0 then U64_MAX else saturatingAdd start1 len1
  let end2 := if len2 = 0 then U64_MAX else saturatingAdd start2 len2
  start1 < end2 && start2 < end1

def conflicting (reqOwner : LockOwner) (reqTyp : LockType) (reqStart reqLen : UInt64) (lock : FileRangeLock) : Bool :=
  lock.owner != reqOwner && rangesOverlap reqStart reqLen lock.start lock.len &&
    (reqTyp == .exclusive || lock.typ == .exclusive)

def conflicts (existing : List FileRangeLock) (reqOwner : LockOwner) (reqTyp : LockType) (reqStart reqLen : UInt64) : Bool :=
  existing.any (conflicting reqOwner reqTyp reqStart reqLen)

variable (lock : FileRangeLock)

/-- the piece of a lock before a range that is taken out -/
def pieceBefore (uStart : UInt64) : List FileRangeLock :=
  if lock.start < uStart then [{ lock with start := lock.start, len := uStart - lock.start }] else []

def pieceBehind (uEnd : UInt64) : List FileRangeLock :=
  let lEnd := if lock.len = 0 then U64_MAX else lock.start + lock.len
  if uEnd < lEnd then [{ lock with start := uEnd, len := if lock.len = 0 then 0 else lEnd - uEnd }] else []

def subtractRange (uStart uLen : UInt64) : List FileRangeLock :=
  if !rangesOverlap lock.start lock.len uStart uLen then [lock]
  else pieceBefore lock uStart ++ pieceBehind lock (if uLen = 0 then U64_MAX else uStart + uLen)

/-! ## Operations -/

variable (locks : List FileRangeLock) (owner : LockOwner)

/-- the ranges of the owner without the range, and all the others -/
def subtractOwn (start len : UInt64) : List FileRangeLock :=
  locks.flatMap fun lock => if lock.owner = owner then subtractRange lock start len else [lock]

def retainOthers : List FileRangeLock :=
  locks.filter fun lock => lock.owner != owner

inductive Outcome
  | ok
  | error (e : Errno)
  /-- the caller yields and tries again -/
  | waits
  deriving DecidableEq, Repr

structure SetlkArgs where
  owner : LockOwner
  fl : Flock
  currentOffset : UInt64
  fileSize : UInt64
  /-- F_SETLKW or F_OFD_SETLKW -/
  blocking : Bool
  deriving DecidableEq, Repr

/-- the type of a lock; `none` if it is neither for reading nor for writing -/
def lockType (lType : Int16) : Option LockType :=
  if lType = 0 then some .shared else if lType = 1 then some .exclusive else none

/-- a request that is neither refused nor has to wait -/
def tryLock (typ : LockType) (start len : UInt64) (blocking : Bool)
    (without : List FileRangeLock) : Outcome × List FileRangeLock :=
  if conflicts locks owner typ start len then (if blocking then .waits else .error .EAGAIN, locks)
  else (.ok, without ++ [⟨owner, typ, start, len⟩])

variable (a : SetlkArgs)

/-- fcntl with F_SETLK, F_SETLKW, F_OFD_SETLK or F_OFD_SETLKW -/
def setlk : Outcome × List FileRangeLock :=
  match resolveLockRange a.fl a.currentOffset a.fileSize with
  | .error e => (.error e, locks)
  | .ok (start, len) =>
    if a.fl.lType = 2 then (.ok, subtractOwn locks a.owner start len)
    else
      match lockType a.fl.lType with
      | none => (.error .EINVAL, locks)
      | some typ => tryLock locks a.owner typ start len a.blocking (subtractOwn locks a.owner start len)

def flockType (operation : Int32) : Option LockType :=
  if operation &&& 2 ≠ 0 then some .exclusive else if operation &&& 1 ≠ 0 then some .shared else none

def flock (locks : List FileRangeLock) (fdDescPtr : ℕ) (operation : Int32) : Outcome × List FileRangeLock :=
  let owner := LockOwner.flock fdDescPtr
  if operation &&& 8 ≠ 0 then (.ok, retainOthers locks owner)
  else
    match flockType operation with
    | none => (.error .EINVAL, locks)
    | some typ => tryLock locks owner typ 0 0 (operation &&& 4 = 0) (retainOthers locks owner)

inductive Op
  | setlk (a : SetlkArgs)
  | flock (fdDescPtr : ℕ) (operation : Int32)
  /-- the description is dropped -/
  | releaseFlockLocks (fdDescPtr : ℕ)
  /-- the task ends, or closes a descriptor of the file -/
  | releaseFcntlLocks (pid : ℕ)

def perform : Op → Outcome × List FileRangeLock
  | .setlk a => setlk locks a
  | .flock fdDescPtr operation => flock locks fdDescPtr operation
  | .releaseFlockLocks fdDescPtr => (.ok, retainOthers locks (.flock fdDescPtr))
  | .releaseFcntlLocks pid => (.ok, retainOthers locks (.fcntl pid))

def step (op : Op) : List FileRangeLock := (perform locks op).2

/-! ## Bytes -/

section

variable (start len : UInt64)

/-- where a range ends; one without end goes to the end of the addresses -/
def rangeEnd : ℕ := if len = 0 then 18446744073709551615 else start.toNat + len.toNat

/-- byte `b` is in the range -/
def Within (b : ℕ) : Prop := start.toNat ≤ b ∧ b < rangeEnd start len

instance (b : ℕ) : Decidable (Within start len b) := by unfold Within; infer_instance

end

def FileRangeLock.covers (l : FileRangeLock) (b : ℕ) : Prop := Within l.start l.len b

instance (l : FileRangeLock) (b : ℕ) : Decidable (l.covers b) := by unfold FileRangeLock.covers; infer_instance

/-- what an owner has on a byte -/
def heldAt (b : ℕ) : Option LockType :=
  (locks.find? fun l => l.owner = owner ∧ l.covers b).map FileRangeLock.typ

/-- what an operation asks for -/
structure Request where
  owner : LockOwner
  start : UInt64
  len : UInt64
  typ : Option LockType
  deriving DecidableEq, Repr

def SetlkArgs.request : Option Request :=
  match resolveLockRange a.fl a.currentOffset a.fileSize with
  | .error _ => none
  | .ok (start, len) =>
    if a.fl.lType = 2 then some ⟨a.owner, start, len, none⟩
    else (lockType a.fl.lType).map fun typ => ⟨a.owner, start, len, some typ⟩

def flockRequest (fdDescPtr : ℕ) (operation : Int32) : Option Request :=
  if operation &&& 8 ≠ 0 then some ⟨.flock fdDescPtr, 0, 0, none⟩
  else (flockType operation).map fun typ => ⟨.flock fdDescPtr, 0, 0, some typ⟩

/-- `none` for an operation that is not valid -/
def Op.request : Op → Option Request
  | .setlk a => a.request
  | .flock fdDescPtr operation => flockRequest fdDescPtr operation
  | .releaseFlockLocks fdDescPtr => some ⟨.flock fdDescPtr, 0, 0, none⟩
  | .releaseFcntlLocks pid => some ⟨.fcntl pid, 0, 0, none⟩

/-- the range has a byte, and its end is an address -/
structure Fits (start len : UInt64) : Prop where
  pos : start.toNat < rangeEnd start len
  le : rangeEnd start len ≤ 18446744073709551615

variable {start len s : UInt64}

theorem Fits.of_le (hpos : 0 < len.toNat) (hle : start.toNat + len.toNat ≤ 18446744073709551615) : Fits start len := by
  have hne : len ≠ 0 := fun h => by
    rw [h] at hpos
    exact absurd hpos (lt_irrefl 0)
  constructor
  · rw [rangeEnd, if_neg hne]
    omega
  · rw [rangeEnd, if_neg hne]
    exact hle

theorem Fits.open (hlt : start.toNat < 18446744073709551615) : Fits start 0 := by
  constructor
  · rw [rangeEnd, if_pos rfl]
    exact hlt
  · rw [rangeEnd, if_pos rfl]

theorem toNat_end (h : Fits start len) : (if len = 0 then U64_MAX else start + len).toNat = rangeEnd start len := by
  have hle := h.le
  unfold rangeEnd at hle ⊢
  split_ifs at hle ⊢
  · rfl
  · rw [UInt64.toNat_add, Nat.mod_eq_of_lt (by omega)]

theorem toNat_saturatingEnd (h : Fits start len) :
    (if len = 0 then U64_MAX else saturatingAdd start len).toNat = rangeEnd start len := by
  rw [← toNat_end h]
  have hle := h.le
  unfold rangeEnd at hle
  split_ifs at hle ⊢
  · rfl
  · rw [saturatingAdd, if_pos (by omega)]

theorem rangesOverlap_lt {l s' l' : UInt64} (h : Fits s l) (h' : Fits s' l') :
    rangesOverlap s l s' l' = true ↔ s.toNat < rangeEnd s' l' ∧ s'.toNat < rangeEnd s l := by
  unfold rangesOverlap
  rw [Bool.and_eq_true, decide_eq_true_eq, decide_eq_true_eq, UInt64.lt_iff_toNat_lt, UInt64.lt_iff_toNat_lt,
    toNat_saturatingEnd h, toNat_saturatingEnd h']

/-- the check for an overlap finds a common byte, if there is one -/
theorem rangesOverlap_iff {l s' l' : UInt64} (h : Fits s l) (h' : Fits s' l') :
    rangesOverlap s l s' l' = true ↔ ∃ b, Within s l b ∧ Within s' l' b := by
  rw [rangesOverlap_lt h h']
  have hpos := h.pos
  have hpos' := h'.pos
  constructor
  · rintro ⟨hlt, hlt'⟩
    exact ⟨max s.toNat s'.toNat, ⟨le_max_left _ _, by omega⟩, le_max_right _ _, by omega⟩
  · rintro ⟨b, ⟨hb, hbe⟩, hb', hbe'⟩
    omega

/-! ## Pieces -/

/-- what is left of a lock: locks of the same owner and type that have no byte in common, and together its bytes that `keep`
holds for -/
structure Pieces (keep : ℕ → Prop) (ps : List FileRangeLock) : Prop where
  owner : ∀ p ∈ ps, p.owner = lock.owner
  typ : ∀ p ∈ ps, p.typ = lock.typ
  fits : ∀ p ∈ ps, Fits p.start p.len
  covers : ∀ b, (∃ p ∈ ps, p.covers b) ↔ lock.covers b ∧ keep b
  apart : ps.Pairwise fun p q => ∀ b, ¬ (p.covers b ∧ q.covers b)

variable {lock : FileRangeLock} {keep : ℕ → Prop} {u : UInt64}

theorem Pieces.nil (h : ∀ b, lock.covers b → ¬ keep b) : Pieces lock keep [] := by
  refine ⟨nofun, nofun, nofun, fun b => ?_, Pairwise.nil⟩
  constructor
  · rintro ⟨p, hp, -⟩
    cases hp
  · rintro ⟨hb, hk⟩
    exact absurd hk (h b hb)

theorem Pieces.singleton {p : FileRangeLock} (howner : p.owner = lock.owner) (htyp : p.typ = lock.typ)
    (hfits : Fits p.start p.len) (h : ∀ b, p.covers b ↔ lock.covers b ∧ keep b) : Pieces lock keep [p] := by
  refine ⟨fun q hq => ?_, fun q hq => ?_, fun q hq => ?_, fun b => ?_, pairwise_singleton _ _⟩
  · rw [mem_singleton.1 hq, howner]
  · rw [mem_singleton.1 hq, htyp]
  · rw [mem_singleton.1 hq]
    exact hfits
  · rw [← h b]
    constructor
    · rintro ⟨q, hq, hb⟩
      rwa [mem_singleton.1 hq] at hb
    · exact fun hb => ⟨p, mem_singleton_self p, hb⟩

theorem Pieces.append {keep' : ℕ → Prop} {ps ps' : List FileRangeLock} (h : Pieces lock keep ps)
    (h' : Pieces lock keep' ps') (hapart : ∀ b, ¬ (keep b ∧ keep' b)) :
    Pieces lock (fun b => keep b ∨ keep' b) (ps ++ ps') := by
  refine ⟨fun p hp => ?_, fun p hp => ?_, fun p hp => ?_, fun b => ?_, pairwise_append.2 ⟨h.apart, h'.apart, ?_⟩⟩
  · exact (mem_append.1 hp).elim (h.owner p) (h'.owner p)
  · exact (mem_append.1 hp).elim (h.typ p) (h'.typ p)
  · exact (mem_append.1 hp).elim (h.fits p) (h'.fits p)
  · rw [and_or_left, ← h.covers b, ← h'.covers b]
    constructor
    · rintro ⟨p, hp, hb⟩
      rcases mem_append.1 hp with hp | hp
      · exact .inl ⟨p, hp, hb⟩
      · exact .inr ⟨p, hp, hb⟩
    · rintro (⟨p, hp, hb⟩ | ⟨p, hp, hb⟩)
      · exact ⟨p, mem_append_left _ hp, hb⟩
      · exact ⟨p, mem_append_right _ hp, hb⟩
  · rintro p hp q hq b ⟨hb, hb'⟩
    exact hapart b ⟨((h.covers b).1 ⟨p, hp, hb⟩).2, ((h'.covers b).1 ⟨q, hq, hb'⟩).2⟩

theorem rangeEnd_sub (h : s < u) : rangeEnd s (u - s) = u.toNat := by
  have hsub : (u - s).toNat = u.toNat - s.toNat := UInt64.toNat_sub_of_le _ _ (UInt64.le_of_lt h)
  rw [UInt64.lt_iff_toNat_lt] at h
  have hne : u - s ≠ 0 := fun h0 => by
    rw [h0] at hsub
    change 0 = _ at hsub
    omega
  rw [rangeEnd, if_neg hne, hsub]
  omega

theorem pieces_before (hl : Fits lock.start lock.len)
    (hu : u.toNat < rangeEnd lock.start lock.len) : Pieces lock (· < u.toNat) (pieceBefore lock u) := by
  have hle := hl.le
  unfold pieceBefore
  split_ifs with hlt
  · have hend := rangeEnd_sub hlt
    refine .singleton rfl rfl ⟨?_, ?_⟩ fun b => ?_
    · rw [hend]
      exact hlt
    · rw [hend]
      omega
    · unfold FileRangeLock.covers Within
      dsimp only
      omega
  · rw [UInt64.lt_iff_toNat_lt] at hlt
    refine .nil fun b hb => ?_
    unfold FileRangeLock.covers Within at hb
    omega

/-- the piece behind a range is without end if the lock was -/
theorem rangeEnd_behind (hfits : Fits s len) (h : u < if len = 0 then U64_MAX else s + len) :
    rangeEnd u (if len = 0 then 0 else (if len = 0 then U64_MAX else s + len) - u) = rangeEnd s len := by
  have hend := toNat_end hfits
  by_cases hlen : len = 0
  · rw [if_pos hlen, rangeEnd, rangeEnd, if_pos rfl, if_pos hlen]
  · rw [if_neg hlen] at h hend
    rw [if_neg hlen, if_neg hlen, ← hend]
    exact rangeEnd_sub h

theorem pieces_behind (hl : Fits lock.start lock.len) (hu : lock.start.toNat < u.toNat) :
    Pieces lock (u.toNat ≤ ·) (pieceBehind lock u) := by
  have hle := hl.le
  have hlast := toNat_end hl
  unfold pieceBehind
  by_cases hlt : u < if lock.len = 0 then U64_MAX else lock.start + lock.len
  · rw [if_pos hlt]
    have hend := rangeEnd_behind hl hlt
    rw [UInt64.lt_iff_toNat_lt, hlast] at hlt
    refine .singleton rfl rfl ⟨?_, ?_⟩ fun b => ?_
    · rw [hend]
      exact hlt
    · rw [hend]
      exact hle
    · unfold FileRangeLock.covers Within
      dsimp only
      omega
  · rw [if_neg hlt]
    rw [UInt64.lt_iff_toNat_lt, hlast] at hlt
    refine .nil fun b hb => ?_
    unfold FileRangeLock.covers Within at hb
    omega

theorem pieces_subtractRange {uStart uLen : UInt64} (hl : Fits lock.start lock.len)
    (hu : Fits uStart uLen) : Pieces lock (fun b => ¬ Within uStart uLen b) (subtractRange lock uStart uLen) := by
  unfold subtractRange
  cases hover : rangesOverlap lock.start lock.len uStart uLen with
  | false =>
    refine .singleton rfl rfl hl fun b => ⟨fun hb => ⟨hb, fun hb' => ?_⟩, And.left⟩
    rw [(rangesOverlap_iff hl hu).2 ⟨b, hb, hb'⟩] at hover
    cases hover
  | true =>
    obtain ⟨hlt, hlt'⟩ := (rangesOverlap_lt hl hu).1 hover
    have hend := toNat_end hu
    have hpos := hu.pos
    have hboth := (pieces_before hl hlt').append (pieces_behind hl (by rw [hend]; exact hlt))
      (fun b => by rw [hend]; omega)
    have hkeep : (fun b => b < uStart.toNat ∨ (if uLen = 0 then U64_MAX else uStart + uLen).toNat ≤ b) =
        fun b => ¬ Within uStart uLen b := by
      funext b
      unfold Within
      rw [hend, eq_iff_iff]
      omega
    rw [hkeep] at hboth
    exact hboth

/-! ## Requests -/

theorem toNat_toUInt64 {x : Int64} (h : ¬ x < 0) : (x.toUInt64.toNat : ℤ) = x.toInt := by
  have h0 : (0 : Int64) ≤ x := Int64.not_lt.1 h
  rw [Int64.toNat_toUInt64_of_le h0]
  rw [Int64.le_iff_toInt_le] at h0
  exact Int.toNat_of_nonneg h0

theorem resolveStart_spec {fl : Flock} {currentOffset fileSize : UInt64}
    (h : resolveStart fl currentOffset fileSize = .ok start) : ∃ val : Int64, ¬ val < 0 ∧ start = val.toUInt64 := by
  have hfrom {val : Int64} (hval : (if val < 0 then Except.error .EINVAL else .ok val.toUInt64 : Except Errno UInt64) = .ok start) :
      ∃ val : Int64, ¬ val < 0 ∧ start = val.toUInt64 := by
    split_ifs at hval with hneg
    cases hval
    exact ⟨val, hneg, rfl⟩
  unfold resolveStart at h
  split_ifs at h
  · exact hfrom h
  · exact hfrom h
  · exact hfrom h

theorem fits_resolveLockRange {fl : Flock} {currentOffset fileSize : UInt64}
    (h : resolveLockRange fl currentOffset fileSize = .ok (start, len)) : Fits start len := by
  unfold resolveLockRange at h
  cases hstart : resolveStart fl currentOffset fileSize with
  | error e =>
    rw [hstart] at h
    cases h
  | ok s =>
    obtain ⟨val, hval, rfl⟩ := resolveStart_spec hstart
    rw [hstart] at h
    change (if 0 < fl.lLen then _ else _) = _ at h
    have hnat := toNat_toUInt64 hval
    have hlt := val.toInt_lt
    have hlen := fl.lLen.toInt_lt
    by_cases hpos : 0 < fl.lLen
    · rw [if_pos hpos] at h
      obtain ⟨rfl, rfl⟩ := Prod.mk.inj (Except.ok.inj h)
      rw [Int64.lt_iff_toInt_lt] at hpos
      change 0 < fl.lLen.toInt at hpos
      have hlnat := toNat_toUInt64 (x := fl.lLen) (by rw [Int64.lt_iff_toInt_lt]; exact not_lt.2 hpos.le)
      exact .of_le (by omega) (by omega)
    · rw [if_neg hpos] at h
      by_cases hneg : fl.lLen < 0
      · rw [if_pos hneg] at h
        by_cases hnew : val.toUInt64.toInt64 + fl.lLen < 0
        · exact absurd ((if_pos hnew).symm.trans h) nofun
        · obtain ⟨rfl, rfl⟩ := Prod.mk.inj (Except.ok.inj ((if_neg hnew).symm.trans h))
          rw [Int64.toInt64_toUInt64] at hnew ⊢
          have hlow := fl.lLen.le_toInt
          rw [Int64.lt_iff_toInt_lt] at hval hneg
          change fl.lLen.toInt < 0 at hneg
          have hsum : (val + fl.lLen).toInt = val.toInt + fl.lLen.toInt := by
            rw [Int64.toInt_add]
            exact Int.bmod_eq_of_le (by omega) (by omega)
          have hsnat := toNat_toUInt64 hnew
          rw [Int64.lt_iff_toInt_lt, hsum] at hnew
          have hminus : (-fl.lLen).toInt = -fl.lLen.toInt := by
            rw [Int64.toInt_neg]
            exact Int.bmod_eq_of_le (by omega) (by omega)
          have hlnat := toNat_toUInt64 (x := -fl.lLen) (by
            rw [Int64.lt_iff_toInt_lt, hminus]
            change ¬ -fl.lLen.toInt < 0
            omega)
          exact .of_le (by omega) (by omega)
      · rw [if_neg hneg] at h
        obtain ⟨rfl, rfl⟩ := Prod.mk.inj (Except.ok.inj h)
        exact .open (by omega)

/-! ## Tables -/

/-- two locks can stand in one table: of one owner, or if one is exclusive, they have no byte in common -/
def Compatible (l l' : FileRangeLock) : Prop :=
  l.owner = l'.owner ∨ l.typ = .exclusive ∨ l'.typ = .exclusive → ∀ b, ¬ (l.covers b ∧ l'.covers b)

theorem Compatible.symm {l l' : FileRangeLock} (h : Compatible l l') : Compatible l' l := by
  intro hor b hb
  refine h ?_ b hb.symm
  rcases hor with howner | htyp | htyp
  · exact .inl howner.symm
  · exact .inr (.inr htyp)
  · exact .inr (.inl htyp)

instance : Std.Symm Compatible := ⟨fun _ _ h => h.symm⟩

structure Sound : Prop where
  fits : ∀ l ∈ locks, Fits l.start l.len
  compatible : locks.Pairwise Compatible

/-- a lock of the owner on the byte is in the table -/
def Holds (b : ℕ) (typ : LockType) : Prop :=
  ∃ l ∈ locks, l.owner = owner ∧ l.covers b ∧ l.typ = typ

theorem Sound.nil : Sound [] := ⟨nofun, Pairwise.nil⟩

variable {locks : List FileRangeLock}

/-- two different locks of a table are compatible, whatever their order -/
theorem Sound.eq_or_compatible (h : Sound locks) {l l' : FileRangeLock} (hl : l ∈ locks)
    (hl' : l' ∈ locks) : l = l' ∨ Compatible l l' := by
  by_cases heq : l = l'
  · exact .inl heq
  · exact .inr (h.compatible.forall hl hl' heq)

variable {owner : LockOwner} {typ : LockType} {locks' : List FileRangeLock} {op : Op}

theorem heldAt_eq_some (h : Sound locks) {b : ℕ} : heldAt locks owner b = some typ ↔ Holds locks owner b typ := by
  unfold heldAt
  constructor
  · intro hheld
    obtain ⟨l, hfind, htyp⟩ := map_eq_some_iff.1 hheld
    have hl := find?_some hfind
    rw [decide_eq_true_eq] at hl
    exact ⟨l, mem_of_find?_eq_some hfind, hl.1, hl.2, htyp⟩
  · rintro ⟨l, hl, howner, hb, htyp⟩
    cases hfind : locks.find? fun l => l.owner = owner ∧ l.covers b with
    | none =>
      have hnone := find?_eq_none.1 hfind l hl
      exact absurd (decide_eq_true ⟨howner, hb⟩) hnone
    | some l' =>
      have hl' := find?_some hfind
      rw [decide_eq_true_eq] at hl'
      rcases h.eq_or_compatible hl (mem_of_find?_eq_some hfind) with heq | hc
      · rw [← heq, ← htyp]
        rfl
      · exact absurd ⟨hb, hl'.2⟩ (hc (.inl (howner.trans hl'.1.symm)) b)

theorem Holds.lt (h : Sound locks) {b : ℕ} (hb : Holds locks owner b typ) : b < 18446744073709551615 := by
  obtain ⟨l, hl, -, hb, -⟩ := hb
  exact lt_of_lt_of_le hb.2 (h.fits l hl).le

theorem Sound.flatMap (h : Sound locks) {f : FileRangeLock → List FileRangeLock}
    {keep : FileRangeLock → ℕ → Prop} (hf : ∀ l ∈ locks, Pieces l (keep l) (f l)) :
    Sound (locks.flatMap f) ∧
      ∀ o b t, Holds (locks.flatMap f) o b t ↔ ∃ l ∈ locks, l.owner = o ∧ l.covers b ∧ l.typ = t ∧ keep l b := by
  refine ⟨⟨fun p hp => ?_, pairwise_flatMap.2 ⟨fun l hl => ?_, ?_⟩⟩, fun o b t => ?_⟩
  · obtain ⟨l, hl, hp⟩ := mem_flatMap.1 hp
    exact (hf l hl).fits p hp
  · exact (hf l hl).apart.imp fun {p q} hpq => (fun _ => hpq : Compatible p q)
  · -- pieces of compatible locks are compatible
    refine h.compatible.imp_of_mem fun {l l'} hl hl' hc p hp q hq hor b hb => ?_
    have hp' := hf l hl
    have hq' := hf l' hl'
    rw [hp'.owner p hp, hp'.typ p hp, hq'.owner q hq, hq'.typ q hq] at hor
    exact hc hor b ⟨((hp'.covers b).1 ⟨p, hp, hb.1⟩).1, ((hq'.covers b).1 ⟨q, hq, hb.2⟩).1⟩
  · constructor
    · rintro ⟨p, hp, howner, hb, htyp⟩
      obtain ⟨l, hl, hp⟩ := mem_flatMap.1 hp
      have hl' := hf l hl
      obtain ⟨hlb, hkeep⟩ := (hl'.covers b).1 ⟨p, hp, hb⟩
      exact ⟨l, hl, (hl'.owner p hp).symm.trans howner, hlb, (hl'.typ p hp).symm.trans htyp, hkeep⟩
    · rintro ⟨l, hl, howner, hb, htyp, hkeep⟩
      have hl' := hf l hl
      obtain ⟨p, hp, hpb⟩ := (hl'.covers b).2 ⟨hb, hkeep⟩
      exact ⟨p, mem_flatMap.2 ⟨l, hl, hp⟩, (hl'.owner p hp).trans howner, hpb, (hl'.typ p hp).trans htyp⟩

/-- the owner has lost the range, and nothing else has changed -/
structure Cleared (locks : List FileRangeLock) (owner : LockOwner) (start len : UInt64) (locks' : List FileRangeLock) : Prop where
  sound : Sound locks'
  holds : ∀ o b t, Holds locks' o b t ↔ Holds locks o b t ∧ ¬ (o = owner ∧ Within start len b)

theorem cleared_subtractOwn (h : Sound locks) (owner : LockOwner)
    (hfits : Fits start len) : Cleared locks owner start len (subtractOwn locks owner start len) := by
  have hpieces (l : FileRangeLock) (hl : l ∈ locks) : Pieces l (fun b => ¬ (l.owner = owner ∧ Within start len b))
      (if l.owner = owner then subtractRange l start len else [l]) := by
    split_ifs with howner
    · have hsub := pieces_subtractRange (h.fits l hl) hfits
      have hkeep : (fun b => ¬ (l.owner = owner ∧ Within start len b)) = fun b => ¬ Within start len b := by
        funext b
        rw [howner, eq_self_iff_true, true_and]
      rw [hkeep]
      exact hsub
    · exact .singleton rfl rfl (h.fits l hl) fun b => ⟨fun hb => ⟨hb, fun hc => howner hc.1⟩, And.left⟩
  obtain ⟨hsound, hholds⟩ := h.flatMap hpieces
  refine ⟨hsound, fun o b t => (hholds o b t).trans ?_⟩
  constructor
  · rintro ⟨l, hl, rfl, hb, htyp, hkeep⟩
    exact ⟨⟨l, hl, rfl, hb, htyp⟩, hkeep⟩
  · rintro ⟨⟨l, hl, rfl, hb, htyp⟩, hkeep⟩
    exact ⟨l, hl, rfl, hb, htyp, hkeep⟩

/-- dropping all locks of an owner takes the range without end from it -/
theorem cleared_retainOthers (h : Sound locks) (owner : LockOwner) :
    Cleared locks owner 0 0 (retainOthers locks owner) := by
  refine ⟨⟨fun l hl => h.fits l (mem_of_mem_filter hl), h.compatible.filter _⟩, fun o b t => ?_⟩
  constructor
  · rintro ⟨l, hl, rfl, hb, htyp⟩
    obtain ⟨hl, hne⟩ := mem_filter.1 hl
    rw [bne_iff_ne] at hne
    exact ⟨⟨l, hl, rfl, hb, htyp⟩, fun hc => hne hc.1⟩
  · rintro ⟨hholds, hkeep⟩
    have hlt := hholds.lt h
    obtain ⟨l, hl, rfl, hb, htyp⟩ := hholds
    refine ⟨l, mem_filter.2 ⟨hl, ?_⟩, rfl, hb, htyp⟩
    rw [bne_iff_ne]
    exact fun howner => hkeep ⟨howner, Nat.zero_le b, hlt⟩

/-- the range has the type the owner asked for, and nothing else has changed -/
structure Changed (locks : List FileRangeLock) (r : Request) (locks' : List FileRangeLock) : Prop where
  sound : Sound locks'
  held : ∀ o b, heldAt locks' o b = if o = r.owner ∧ Within r.start r.len b then r.typ else heldAt locks o b

theorem Changed.of_holds {r : Request} (h : Sound locks) (h' : Sound locks')
    (hholds : ∀ o b t, Holds locks' o b t ↔ if o = r.owner ∧ Within r.start r.len b then r.typ = some t else Holds locks o b t) :
    Changed locks r locks' := by
  refine ⟨h', fun o b => ext fun t => ?_⟩
  rw [heldAt_eq_some h', hholds]
  split_ifs
  · exact Iff.rfl
  · exact (heldAt_eq_some h).symm

theorem Cleared.changed (h : Sound locks)
    (hclear : Cleared locks owner start len locks') : Changed locks ⟨owner, start, len, none⟩ locks' := by
  refine .of_holds h hclear.sound fun o b t => ?_
  rw [hclear.holds]
  split_ifs with hin
  · exact ⟨fun hc => absurd hin hc.2, nofun⟩
  · exact ⟨And.left, fun hc => ⟨hc, hin⟩⟩

/-- a lock is added for the range, where no other owner's lock is in the way -/
theorem Cleared.add (h : Sound locks)
    (hclear : Cleared locks owner start len locks') (hfits : Fits start len)
    (hfree : conflicts locks owner typ start len = false) :
    Changed locks ⟨owner, start, len, some typ⟩ (locks' ++ [⟨owner, typ, start, len⟩]) := by
  have hcompatible : ∀ l ∈ locks', Compatible l ⟨owner, typ, start, len⟩ := by
    rintro l hl hor b ⟨hb, hin⟩
    obtain ⟨⟨l0, hl0, howner, hb0, htyp⟩, hkeep⟩ := (hclear.holds l.owner b l.typ).1 ⟨l, hl, rfl, hb, rfl⟩
    have hne : l.owner ≠ owner := fun heq => hkeep ⟨heq, hin⟩
    have hnone := any_eq_false.1 hfree l0 hl0
    refine hnone ?_
    have hover : rangesOverlap start len l0.start l0.len = true :=
      (rangesOverlap_iff hfits (h.fits l0 hl0)).2 ⟨b, hin, hb0⟩
    rw [conflicting, howner, htyp, hover, bne_iff_ne.2 hne, Bool.true_and, Bool.true_and, Bool.or_eq_true, beq_iff_eq,
      beq_iff_eq]
    rcases hor with heq | hex | hex
    · exact absurd heq hne
    · exact .inr hex
    · exact .inl hex
  have hsound : Sound (locks' ++ [⟨owner, typ, start, len⟩]) := by
    refine ⟨fun l hl => ?_, pairwise_append.2 ⟨hclear.sound.compatible, pairwise_singleton _ _, ?_⟩⟩
    · rcases mem_append.1 hl with hl | hl
      · exact hclear.sound.fits l hl
      · rw [mem_singleton.1 hl]
        exact hfits
    · intro l hl l' hl'
      rw [mem_singleton.1 hl']
      exact hcompatible l hl
  refine .of_holds h hsound fun o b t => ?_
  constructor
  · rintro ⟨l, hl, rfl, hb, rfl⟩
    rcases mem_append.1 hl with hl | hl
    · obtain ⟨hholds, hkeep⟩ := (hclear.holds l.owner b l.typ).1 ⟨l, hl, rfl, hb, rfl⟩
      rw [if_neg hkeep]
      exact hholds
    · rw [mem_singleton.1 hl] at hb ⊢
      rw [if_pos ⟨rfl, hb⟩]
  · split_ifs with hin
    · intro htyp
      obtain ⟨rfl, hin⟩ := hin
      exact ⟨_, mem_append_right _ (mem_singleton_self _), rfl, hin, some.inj htyp⟩
    · intro hholds
      obtain ⟨l, hl, howner, hb, htyp⟩ := (hclear.holds o b t).2 ⟨hholds, hin⟩
      exact ⟨l, mem_append_left _ hl, howner, hb, htyp⟩

/-! ## Steps and runs -/

/-- an operation that succeeds makes the change it asks for; another one makes none -/
structure Exact (locks : List FileRangeLock) (op : Op) : Prop where
  changed : (perform locks op).1 = .ok → ∃ r, op.request = some r ∧ Changed locks r (step locks op)
  unchanged : (perform locks op).1 ≠ .ok → step locks op = locks

theorem Exact.of_ok {r : Request} (hreq : op.request = some r)
    (hp : perform locks op = (.ok, locks')) (h : Changed locks r locks') : Exact locks op := by
  refine ⟨fun _ => ⟨r, hreq, ?_⟩, fun hne => ?_⟩
  · rw [step, hp]
    exact h
  · rw [hp] at hne
    exact absurd rfl hne

theorem Exact.of_same {o : Outcome} (ho : o ≠ .ok) (hp : perform locks op = (o, locks)) : Exact locks op := by
  refine ⟨fun hok => ?_, fun _ => ?_⟩
  · rw [hp] at hok
    exact absurd hok ho
  · rw [step, hp]

/-- a try is exact, whichever way the old locks of the owner are taken away -/
theorem Exact.of_tryLock {without : List FileRangeLock} (h : Sound locks)
    {blocking : Bool} (hreq : op.request = some ⟨owner, start, len, some typ⟩) (hfits : Fits start len)
    (hclear : Cleared locks owner start len without)
    (hp : perform locks op = tryLock locks owner typ start len blocking without) : Exact locks op := by
  unfold tryLock at hp
  cases hconflict : conflicts locks owner typ start len with
  | true =>
    rw [hconflict, if_pos rfl] at hp
    refine .of_same ?_ hp
    split_ifs <;> exact nofun
  | false =>
    rw [hconflict, if_neg Bool.false_ne_true] at hp
    exact .of_ok hreq hp (hclear.add h hfits hconflict)

section

variable (h : Sound locks)
include h

theorem exact_setlk (a : SetlkArgs) : Exact locks (.setlk a) := by
  have hp : perform locks (.setlk a) = setlk locks a := rfl
  have hr : (Op.setlk a).request = a.request := rfl
  unfold setlk at hp
  unfold SetlkArgs.request at hr
  cases hrange : resolveLockRange a.fl a.currentOffset a.fileSize with
  | error e =>
    rw [hrange] at hp
    exact .of_same (fun hc => by cases hc) hp
  | ok range =>
    have hfits := fits_resolveLockRange hrange
    have hclear := cleared_subtractOwn h a.owner hfits
    rw [hrange] at hp hr
    dsimp only at hp hr
    by_cases hun : a.fl.lType = 2
    · rw [if_pos hun] at hp hr
      exact .of_ok hr hp (hclear.changed h)
    rw [if_neg hun] at hp hr
    cases htyp : lockType a.fl.lType with
    | none =>
      rw [htyp] at hp
      exact .of_same (fun hc => by cases hc) hp
    | some typ =>
      rw [htyp] at hp hr
      exact .of_tryLock h hr hfits hclear hp

theorem exact_flock (fdDescPtr : ℕ) (operation : Int32) : Exact locks (.flock fdDescPtr operation) := by
  have hp : perform locks (.flock fdDescPtr operation) = flock locks fdDescPtr operation := rfl
  have hr : (Op.flock fdDescPtr operation).request = flockRequest fdDescPtr operation := rfl
  have hclear := cleared_retainOthers h (.flock fdDescPtr)
  unfold flock at hp
  unfold flockRequest at hr
  by_cases hun : operation &&& 8 ≠ 0
  · rw [if_pos hun] at hp hr
    exact .of_ok hr hp (hclear.changed h)
  rw [if_neg hun] at hp hr
  cases htyp : flockType operation with
  | none =>
    rw [htyp] at hp
    exact .of_same (fun hc => by cases hc) hp
  | some typ =>
    rw [htyp] at hp hr
    exact .of_tryLock h hr (.open (by decide)) hclear hp

/-- every operation is exact on a sound table -/
theorem exact_of_sound (op : Op) : Exact locks op := by
  cases op with
  | setlk a => exact exact_setlk h a
  | flock fdDescPtr operation => exact exact_flock h fdDescPtr operation
  | releaseFlockLocks fdDescPtr => exact .of_ok rfl rfl ((cleared_retainOthers h _).changed h)
  | releaseFcntlLocks pid => exact .of_ok rfl rfl ((cleared_retainOthers h _).changed h)

theorem sound_step (op : Op) : Sound (step locks op) := by
  have hexact := exact_of_sound h op
  by_cases hok : (perform locks op).1 = .ok
  · obtain ⟨r, -, hchanged⟩ := hexact.changed hok
    exact hchanged.sound
  · rw [hexact.unchanged hok]
    exact h

theorem sound_run (ops : List Op) : Sound (run step locks ops) := by
  induction ops generalizing locks with
  | nil => exact h
  | cons op ops ih => exact ih (sound_step h op)

end

/-- **Byte-range locks are exact.** In every table that a run of operations reaches:
- an owner has one lock at most on a byte;
- an operation that succeeds gives its owner what it asks for on the bytes it asks for, and changes nothing else; one that is
  refused or has to wait changes nothing;
- where an owner has an exclusive lock, no other owner has a lock. -/
theorem locks_exact (ops : List Op) :
    ((run step [] ops).Pairwise fun l l' => l.owner = l'.owner → ∀ b, ¬ (l.covers b ∧ l'.covers b)) ∧
    (∀ op, (perform (run step [] ops) op).1 = .ok → ∃ r, op.request = some r ∧
      ∀ o b, heldAt (step (run step [] ops) op) o b =
        if o = r.owner ∧ Within r.start r.len b then r.typ else heldAt (run step [] ops) o b) ∧
    (∀ op, (perform (run step [] ops) op).1 ≠ .ok → step (run step [] ops) op = run step [] ops) ∧
    ∀ o o' b, o ≠ o' → heldAt (run step [] ops) o b = some .exclusive → heldAt (run step [] ops) o' b = none := by
  have h := sound_run Sound.nil ops
  refine ⟨h.compatible.imp fun hc howner => hc (.inl howner), fun op hok => ?_,
    fun op hno => (exact_of_sound h op).unchanged hno, fun o o' b hne hex => ?_⟩
  · obtain ⟨r, hr, hchanged⟩ := (exact_of_sound h op).changed hok
    exact ⟨r, hr, hchanged.held⟩
  · rw [eq_none_iff_forall_ne_some]
    intro t ht
    obtain ⟨l, hl, howner, hb, htyp⟩ := (heldAt_eq_some h).1 hex
    obtain ⟨l', hl', howner', hb', -⟩ := (heldAt_eq_some h).1 ht
    rcases h.eq_or_compatible hl hl' with heq | hc
    · exact hne (howner.symm.trans ((congrArg FileRangeLock.owner heq).trans howner'))
    · exact hc (.inr (.inl htyp)) b ⟨hb, hb'⟩

end Kontsnor.Fs.RangeLocks
