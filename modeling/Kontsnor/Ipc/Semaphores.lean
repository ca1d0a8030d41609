/-
System V semaphores (`syscall/ipc.rs`): semop and semtimedop.

A call of semop holds the lock of its set from the check of the indices to its end, so calls on a set follow each other. It makes
its operations one after the other and never goes back:
- an operation that takes more than there is ends the call if it has IPC_NOWAIT, and what the operations before it have done
  stays (the call returns 11, not -11); without the flag it takes what there is, and the call goes on as if it had waited;
- an operation that adds more than fits is cut off at 32767;
- the amount -32768 has no negation in an `i16`: the value goes below zero.

**Main result.** `semop_exact`, for calls that stay clear of this (`Registry.goes`).
-/
import Kontsnor.Errno
import Kontsnor.Core.Runs

namespace Kontsnor.Ipc

open Bool Runs

def IPC_NOWAIT : Int16 := 0o4000

structure SemBuf where
  semNum : UInt16
  semOp : Int16
  semFlg : Int16
  deriving DecidableEq, Repr

structure SemArray where
  values : List Int16
  deriving DecidableEq, Repr

/-- `SEM_REGISTRY`, in the order of the ids -/
structure Registry where
  sets : List (Int32 × SemArray)
  deriving DecidableEq, Repr

namespace SemBuf

def idx (op : SemBuf) : ℕ := op.semNum.toNat

def nowait (op : SemBuf) : Bool := op.semFlg &&& IPC_NOWAIT != 0

end SemBuf

/-! ## The calls -/

def saturatingAdd (a b : Int16) : Int16 := Int16.ofInt (max (-32768) (min 32767 (a.toInt + b.toInt)))

/-- what an operation makes of its semaphore; `none` if the call gives up -/
def SemBuf.change (op : SemBuf) (val : Int16) : Option Int16 :=
  if op.semOp < 0 then
    let dec := -op.semOp
    if val < dec then
      if op.nowait then none
      -- "decrement what we can or wait"
      else some 0
    else some (val - dec)
  else if 0 < op.semOp then some (saturatingAdd val op.semOp)
  else some val

/-- the loop of semtimedop: whether it came to its end, and the values it leaves -/
def attempt : List SemBuf → List Int16 → Bool × List Int16
  | [], values => (true, values)
  | op :: ops, values =>
    match op.change (values.getD op.idx 0) with
    | none => (false, values)
    | some val => attempt ops (values.set op.idx val)

structure SemopArgs where
  semid : Int32
  /-- the pointer to the operations is null -/
  null : Bool
  /-- the operations can be read -/
  readable : Bool
  ops : List SemBuf
  deriving DecidableEq, Repr

namespace Registry

variable (s : Registry)

def get (id : Int32) : Option SemArray := (s.sets.find? fun e => e.1 == id).map Prod.snd

def setValues (id : Int32) (values : List Int16) : Registry :=
  { s with sets := s.sets.map fun e => if e.1 = id then (id, { e.2 with values }) else e }

def semtimedop (a : SemopArgs) : ℤ × Registry :=
  if a.ops.length = 0 || 256 < a.ops.length || a.null then (Errno.EINVAL.toInt, s)
  else if !a.readable then (Errno.EFAULT.toInt, s)
  else
    match s.get a.semid with
    | none => (Errno.EINVAL.toInt, s)
    | some set =>
      if a.ops.any fun op => set.values.length ≤ op.idx then (Errno.EFBIG.toInt, s)
      else
        let (finished, values) := attempt a.ops set.values
        -- the sign is turned once more
        (if finished then 0 else -Errno.EAGAIN.toInt, s.setValues a.semid values)

def semop (a : SemopArgs) : Registry := (s.semtimedop a).2

end Registry

/-! ## Exact arithmetic -/

/-- the sum of what the operations on semaphore `i` add, by `f` -/
def sumOn (f : ℤ → ℤ) (ops : List SemBuf) (i : ℕ) : ℤ :=
  (ops.map fun op => if op.idx = i then f op.semOp.toInt else 0).sum

variable (values : List Int16) (ops : List SemBuf)

section

variable (i : ℕ)

/-- the sum of the operations on semaphore `i` -/
def net : ℤ := sumOn id ops i

/-- the units that the operations give to semaphore `i` -/
def given : ℤ := sumOn (max 0) ops i

def taken : ℤ := sumOn (fun x => max 0 (-x)) ops i

/-- the operations in exact arithmetic, from the levels that those before have left: each takes no more than there is and adds no
more than fits, or it gives up at once and there is nothing to undo -/
def goes (start : List ℤ) : List ℤ → List SemBuf → Bool
  | _, [] => true
  | level, op :: ops =>
    let next := level.getD op.idx 0 + op.semOp.toInt
    if op.semOp.toInt < 0 && next < 0 then op.nowait && op.semOp != -32768 && level == start
    else next ≤ 32767 && goes start (level.set op.idx next) ops

def levels : List ℤ := values.map Int16.toInt

/-- along the loop, each operation that takes something finds it -/
def Covered : Prop :=
  ∀ pre op post, ops = pre ++ op :: post → op.semOp < 0 → -op.semOp.toInt ≤ ((attempt pre values).2.getD op.idx 0).toInt

theorem getD_levels : (levels values).getD i 0 = (values.getD i 0).toInt := by
  unfold levels
  rw [List.getD_eq_getElem?_getD, List.getD_eq_getElem?_getD, List.getElem?_map]
  cases values[i]? <;> rfl

theorem levels_set (x : Int16) : levels (values.set i x) = (levels values).set i x.toInt := List.map_set

end

variable {op : SemBuf}

theorem change_of_fits {val : Int16} (hneg : op.semOp.toInt < 0 → 0 ≤ val.toInt + op.semOp.toInt)
    (hle : val.toInt + op.semOp.toInt ≤ 32767) : ∃ x, op.change val = some x ∧ x.toInt = val.toInt + op.semOp.toInt := by
  have hval := val.toInt_lt
  have hval' := val.le_toInt
  have hzero : (0 : Int16).toInt = 0 := rfl
  unfold SemBuf.change
  by_cases hlt : op.semOp < 0
  · rw [if_pos hlt]
    rw [Int16.lt_iff_toInt_lt, hzero] at hlt
    have hdec : (-op.semOp).toInt = -op.semOp.toInt := by
      rw [Int16.toInt_neg]
      exact Int.bmod_eq_of_le (by omega) (by omega)
    have henough : ¬ val < -op.semOp := by
      rw [Int16.lt_iff_toInt_lt, hdec]
      omega
    refine ⟨val - -op.semOp, if_neg henough, ?_⟩
    rw [Int16.toInt_sub, hdec]
    have hsub : val.toInt - -op.semOp.toInt = val.toInt + op.semOp.toInt := by ring
    rw [hsub]
    exact Int.bmod_eq_of_le (by omega) (by omega)
  · rw [if_neg hlt]
    rw [Int16.lt_iff_toInt_lt, hzero] at hlt
    by_cases hpos : 0 < op.semOp
    · rw [if_pos hpos]
      refine ⟨_, rfl, ?_⟩
      have hcut : max (-32768) (min 32767 (val.toInt + op.semOp.toInt)) = val.toInt + op.semOp.toInt := by omega
      rw [saturatingAdd, hcut, Int16.toInt_ofInt]
      exact Int.bmod_eq_of_le (by change -((65536 : ℕ) / 2 : ℤ) ≤ _; omega) (by change _ < ((65536 : ℕ) + 1 : ℤ) / 2; omega)
    · rw [if_neg hpos]
      rw [Int16.lt_iff_toInt_lt, hzero] at hpos
      exact ⟨val, rfl, by omega⟩

theorem change_of_refused {val : Int16} (hneg : op.semOp.toInt < 0) (hless : val.toInt + op.semOp.toInt < 0)
    (hnowait : op.nowait = true) (hmin : op.semOp ≠ -32768) : op.change val = none := by
  have hop := op.semOp.le_toInt
  have hne : op.semOp.toInt ≠ -32768 := fun h => hmin (Int16.toInt_inj.1 h)
  have hdec : (-op.semOp).toInt = -op.semOp.toInt := by
    rw [Int16.toInt_neg]
    exact Int.bmod_eq_of_le (by omega) (by omega)
  have hlt : op.semOp < 0 := by
    rw [Int16.lt_iff_toInt_lt]
    exact hneg
  have hshort : val < -op.semOp := by
    rw [Int16.lt_iff_toInt_lt, hdec]
    omega
  unfold SemBuf.change
  rw [if_pos hlt]
  exact (if_pos hshort).trans (if_pos hnowait)

/-! ## One call -/

theorem sumOn_cons (f : ℤ → ℤ) (ops : List SemBuf) (i : ℕ) :
    sumOn f (op :: ops) i = (if op.idx = i then f op.semOp.toInt else 0) + sumOn f ops i := rfl

theorem net_eq (i : ℕ) : net ops i = given ops i - taken ops i := by
  unfold net given taken
  induction ops with
  | nil => rfl
  | cons op ops ih =>
    rw [sumOn_cons, sumOn_cons, sumOn_cons, ih]
    split_ifs
    · have hparts : id op.semOp.toInt = max 0 op.semOp.toInt - max 0 (-op.semOp.toInt) := by
        change op.semOp.toInt = _
        omega
      rw [hparts]
      ring
    · ring

/-- the operations have been made, all of them -/
structure Made (values' : List Int16) : Prop where
  sum : ∀ i, (values'.getD i 0).toInt = (values.getD i 0).toInt + net ops i
  covered : Covered values ops
  /-- a level that is not below zero stays so -/
  floor : ∀ i, min 0 (values.getD i 0).toInt ≤ (values'.getD i 0).toInt

theorem getD_set {i : ℕ} (hi : i < values.length) (x : Int16) (j : ℕ) :
    (values.set i x).getD j 0 = if i = j then x else values.getD j 0 := by
  rw [List.getD_eq_getElem?_getD, List.getD_eq_getElem?_getD, List.getElem?_set]
  split_ifs with h
  · rfl
  · rfl

theorem Made.cons {ops : List SemBuf} {values values' : List Int16} {x : Int16} (hidx : op.idx < values.length)
    (hchange : op.change (values.getD op.idx 0) = some x) (hx : x.toInt = (values.getD op.idx 0).toInt + op.semOp.toInt)
    (hneg : op.semOp.toInt < 0 → 0 ≤ x.toInt) (h : Made (values.set op.idx x) ops values') :
    Made values (op :: ops) values' := by
  refine ⟨fun i => ?_, ?_, fun i => ?_⟩
  · rw [h.sum i, getD_set values hidx, net, net, sumOn_cons]
    split_ifs with hi
    · rw [hx, ← hi]
      change _ = _ + (op.semOp.toInt + _)
      ring
    · ring
  · intro pre op' post heq hlt
    cases pre with
    | nil =>
      obtain ⟨rfl, rfl⟩ := List.cons.inj heq
      have hlt' : op.semOp.toInt < 0 := Int16.lt_iff_toInt_lt.1 hlt
      change -op.semOp.toInt ≤ (values.getD op.idx 0).toInt
      omega
    | cons op0 pre =>
      obtain ⟨rfl, hrest⟩ := List.cons.inj heq
      have hstep : attempt (op :: pre) values = attempt pre (values.set op.idx x) := by
        rw [attempt, hchange]
      rw [hstep]
      exact h.covered pre op' post hrest hlt
  · have hfloor := h.floor i
    rw [getD_set values hidx] at hfloor
    split_ifs at hfloor with hi
    · subst hi
      by_cases hlt : op.semOp.toInt < 0
      · have hfit := hneg hlt
        omega
      · omega
    · exact hfloor

/-- a call that goes well makes all of its operations or leaves the values it started from -/
theorem attempt_of_goes {start : List ℤ} {ops : List SemBuf} {values : List Int16}
    (hidx : ∀ op ∈ ops, op.idx < values.length) (h : goes start (levels values) ops = true) :
    ((attempt ops values).1 = true ∧ Made values ops (attempt ops values).2) ∨
      ((attempt ops values).1 = false ∧ levels (attempt ops values).2 = start) := by
  induction ops generalizing values with
  | nil =>
    left
    refine ⟨rfl, fun i => (add_zero _).symm, fun pre op post heq => ?_, fun i => min_le_right _ _⟩
    cases pre <;> cases heq
  | cons op ops ih =>
    have hhead := hidx op List.mem_cons_self
    rw [goes, getD_levels] at h
    by_cases hout : (decide (op.semOp.toInt < 0) && decide ((values.getD op.idx 0).toInt + op.semOp.toInt < 0)) = true
    · -- given up, before anything has changed
      rw [if_pos hout, and_eq_true, and_eq_true, bne_iff_ne, beq_iff_eq] at h
      rw [and_eq_true, decide_eq_true_eq, decide_eq_true_eq] at hout
      obtain ⟨⟨hnowait, hmin⟩, hstart⟩ := h
      right
      rw [attempt, change_of_refused hout.1 hout.2 hnowait hmin]
      exact ⟨rfl, hstart⟩
    · rw [if_neg hout, and_eq_true, decide_eq_true_eq] at h
      rw [and_eq_true, decide_eq_true_eq, decide_eq_true_eq] at hout
      obtain ⟨hle, hrest⟩ := h
      obtain ⟨x, hchange, hx⟩ := change_of_fits (fun hneg => not_lt.1 fun hlt => hout ⟨hneg, hlt⟩) hle
      rw [← hx, ← levels_set] at hrest
      have hidx' : ∀ op' ∈ ops, op'.idx < (values.set op.idx x).length := by
        intro op' hop'
        rw [List.length_set]
        exact hidx op' (List.mem_cons_of_mem op hop')
      rw [attempt, hchange]
      rcases ih hidx' hrest with ⟨hdone, hmade⟩ | hleft
      · left
        refine ⟨hdone, hmade.cons hhead hchange hx fun hneg => ?_⟩
        by_contra hlt
        rw [hx] at hlt
        exact hout ⟨hneg, not_le.1 hlt⟩
      · right
        exact hleft

theorem levels_injective : Function.Injective levels :=
  List.map_injective_iff.2 fun _ _ h => Int16.toInt_inj.1 h

namespace Registry

section

variable (s : Registry)

def value (id : Int32) (i : ℕ) : ℤ := (s.get id).elim 0 fun set => (set.values.getD i 0).toInt

/-- the set on which the call comes to its loop, if it is not refused before -/
def admits (a : SemopArgs) : Option SemArray :=
  if a.ops.length = 0 || 256 < a.ops.length || a.null || !a.readable then none
  else (s.get a.semid).filter fun set => a.ops.all fun op => op.idx < set.values.length

/-- a call that comes to its loop goes well on the values it finds -/
def goes (a : SemopArgs) : Prop := ∀ set ∈ s.admits a, Ipc.goes (levels set.values) (levels set.values) a.ops = true

instance (a : SemopArgs) : Decidable (s.goes a) :=
  match h : s.admits a with
  | none => isTrue fun set hset => by rw [h] at hset; cases hset
  | some set =>
    if hgoes : Ipc.goes (levels set.values) (levels set.values) a.ops = true then
      isTrue fun set' hset => by rw [h] at hset; cases hset; exact hgoes
    else isFalse fun hall => hgoes (hall set h)

theorem get_setValues (id : Int32) (values : List Int16) (id' : Int32) :
    (s.setValues id values).get id' = if id' = id then (s.get id).map fun set => { set with values } else s.get id' := by
  unfold get setValues
  generalize s.sets = sets
  induction sets with
  | nil => split_ifs <;> rfl
  | cons e sets ih =>
    by_cases he : e.1 = id
    · by_cases hid : id' = id
      · simp [he, hid]
      · have hne : ¬ id = id' := fun h => hid h.symm
        simpa [he, hid, hne] using ih
    · by_cases hid : id' = id
      · simpa [he, hid] using ih
      · by_cases he' : e.1 = id'
        · simp [he', hid]
        · simpa [he, he', hid] using ih

end

/-- what semop is for -/
structure Exact (s : Registry) (a : SemopArgs) : Prop where
  /-- a call that returns 0 has made the sum of its operations -/
  sum : (s.semtimedop a).1 = 0 → ∀ id i, (s.semop a).value id i = s.value id i + if id = a.semid then net a.ops i else 0
  /-- and none of them has taken more than there was -/
  covered : (s.semtimedop a).1 = 0 → ∃ set, s.get a.semid = some set ∧ Covered set.values a.ops
  /-- any other call has done nothing -/
  unchanged : (s.semtimedop a).1 ≠ 0 → ∀ id, (s.semop a).get id = s.get id

variable {s : Registry} {set : SemArray}

theorem value_setValues {id : Int32} (hset : s.get id = some set) {values : List Int16}
    (id' : Int32) (i : ℕ) :
    (s.setValues id values).value id' i = if id' = id then (values.getD i 0).toInt else s.value id' i := by
  unfold value
  rw [get_setValues]
  split_ifs
  · rw [hset]
    rfl
  · rfl

theorem value_of_get {id : Int32} (hset : s.get id = some set) (i : ℕ) :
    s.value id i = (set.values.getD i 0).toInt := by
  unfold value
  rw [hset]
  rfl

theorem Exact.of_early {a : SemopArgs} {e : Errno} (h : s.semtimedop a = (e.toInt, s)) : s.Exact a := by
  have hne : (s.semtimedop a).1 ≠ 0 := by
    rw [h]
    change e.toInt ≠ 0
    cases e <;> decide
  refine ⟨fun h0 => absurd h0 hne, fun h0 => absurd h0 hne, fun _ id => ?_⟩
  rw [semop, h]

/-- the call fails before its loop, or it finds its set, with all of its semaphores there -/
theorem semtimedop_cases (s : Registry) (a : SemopArgs) :
    (∃ e : Errno, s.semtimedop a = (e.toInt, s)) ∨
    ∃ set, s.get a.semid = some set ∧ set ∈ s.admits a ∧ (∀ op ∈ a.ops, op.idx < set.values.length) ∧
      s.semtimedop a = (if (attempt a.ops set.values).1 then 0 else 11, s.setValues a.semid (attempt a.ops set.values).2) := by
  unfold semtimedop
  split_ifs with h1 h2
  · exact .inl ⟨_, rfl⟩
  · exact .inl ⟨_, rfl⟩
  have hadmits : s.admits a = (s.get a.semid).filter fun set => a.ops.all fun op => op.idx < set.values.length :=
    if_neg fun h => ((or_eq_true _ _).mp h).elim h1 h2
  rw [hadmits]
  cases hget : s.get a.semid with
  | none => exact .inl ⟨_, rfl⟩
  | some set =>
    dsimp only
    by_cases h3 : (a.ops.any fun op => decide (set.values.length ≤ op.idx)) = true
    · rw [if_pos h3]
      exact .inl ⟨_, rfl⟩
    · right
      rw [if_neg h3]
      rw [not_eq_true, List.any_eq_false] at h3
      have hidx : ∀ op ∈ a.ops, op.idx < set.values.length := fun op hop =>
        not_le.1 fun hle => h3 op hop (decide_eq_true hle)
      exact ⟨set, rfl, Option.filter_eq_some_iff.2 ⟨rfl, List.all_eq_true.2 fun op hop => decide_eq_true (hidx op hop)⟩,
        hidx, rfl⟩

/-- a call that goes well is exact, and leaves no level below zero that was not -/
theorem exact_of_goes {a : SemopArgs} (h : s.goes a) :
    s.Exact a ∧ ((s.semtimedop a).1 = 0 → ∀ id i, min 0 (s.value id i) ≤ (s.semop a).value id i) := by
  rcases semtimedop_cases s a with ⟨e, hearly⟩ | ⟨set, hget, hadmits, hidx, hcall⟩
  · refine ⟨.of_early hearly, fun h0 => ?_⟩
    rw [hearly] at h0
    cases e <;> cases h0
  have hvalue (id : Int32) (i : ℕ) : (s.semop a).value id i =
      if id = a.semid then (((attempt a.ops set.values).2).getD i 0).toInt else s.value id i := by
    rw [semop, hcall]
    exact value_setValues hget id i
  rcases attempt_of_goes hidx (h set hadmits) with ⟨hdone, hmade⟩ | ⟨hgiven, hback⟩
  · have h0 : (s.semtimedop a).1 = 0 := by
      rw [hcall, hdone]
      rfl
    refine ⟨⟨fun _ id i => ?_, fun _ => ⟨set, hget, hmade.covered⟩, fun hne => absurd h0 hne⟩, fun _ id i => ?_⟩
    · rw [hvalue]
      split_ifs with hid
      · rw [hid, value_of_get hget]
        exact hmade.sum i
      · exact (add_zero _).symm
    · rw [hvalue]
      split_ifs with hid
      · rw [hid, value_of_get hget]
        exact hmade.floor i
      · exact min_le_right _ _
  · have hne : (s.semtimedop a).1 ≠ 0 := by
      rw [hcall, hgiven]
      change (11 : ℤ) ≠ 0
      decide
    refine ⟨⟨fun h0 => absurd h0 hne, fun h0 => absurd h0 hne, fun _ id => ?_⟩, fun h0 => absurd h0 hne⟩
    rw [semop, hcall, get_setValues, levels_injective hback]
    split_ifs with hid
    · rw [hid, hget]
      rfl
    · rfl

/-! ## Runs of calls -/

/-- the units that the calls of a run which returned 0 have given, or taken, by `f` -/
def ledger (f : List SemBuf → ℕ → ℤ) (id : Int32) (i : ℕ) : Registry → List SemopArgs → ℤ
  | _, [] => 0
  | s, a :: calls =>
    (if a.semid = id ∧ (s.semtimedop a).1 = 0 then f a.ops i else 0) + ledger f id i (s.semop a) calls

/-- along a run, a value is what it was at first, with what has been given and taken; and it is not below zero if it was not -/
theorem value_run {calls : List SemopArgs} (h : Each semop goes s calls) (id : Int32) (i : ℕ) :
    (run semop s calls).value id i = s.value id i + ledger given id i s calls - ledger taken id i s calls ∧
      min 0 (s.value id i) ≤ (run semop s calls).value id i := by
  induction calls generalizing s with
  | nil =>
    refine ⟨?_, min_le_right _ _⟩
    change s.value id i = s.value id i + 0 - 0
    ring
  | cons a calls ih =>
    obtain ⟨hexact, hfloor⟩ := exact_of_goes h.1
    obtain ⟨hsum, hlow⟩ := ih h.2
    have hrun : run semop s (a :: calls) = run semop (s.semop a) calls := rfl
    rw [hrun, ledger, ledger]
    by_cases h0 : (s.semtimedop a).1 = 0
    · have hstep := hexact.sum h0 id i
      have hlow' := hfloor h0 id i
      refine ⟨?_, by omega⟩
      rw [hsum, hstep]
      by_cases hid : id = a.semid
      · rw [if_pos hid, if_pos ⟨hid.symm, h0⟩, if_pos ⟨hid.symm, h0⟩, net_eq]
        ring
      · rw [if_neg hid, if_neg fun hc => hid hc.1.symm, if_neg fun hc => hid hc.1.symm]
        ring
    · have hsame : (s.semop a).value id i = s.value id i := by
        unfold value
        rw [hexact.unchanged h0 id]
      rw [hsame] at hsum hlow
      refine ⟨?_, hlow⟩
      rw [hsum, if_neg fun hc => h0 hc.2, if_neg fun hc => h0 hc.2]
      ring

/-- **semop is atomic and never overdraws** in a run of calls that go well: each call is exact, and on every semaphore the units
taken are at most those that were there and those that were given. -/
theorem semop_exact {s : Registry} {calls : List SemopArgs} (h : Each semop goes s calls) :
    Each semop Exact s calls ∧
      ∀ id i, ledger taken id i s calls ≤ max 0 (s.value id i) + ledger given id i s calls := by
  refine ⟨h.mono fun _ _ hgoes => (exact_of_goes hgoes).1, fun id i => ?_⟩
  obtain ⟨hsum, hfloor⟩ := value_run h id i
  omega

/-- one set of two semaphores -/
def pair (v w : Int16) : Registry := ⟨[(1, ⟨[v, w]⟩)]⟩

def opOn (num : UInt16) (op : Int16) (nowait : Bool) : SemBuf := ⟨num, op, if nowait then IPC_NOWAIT else 0⟩

def callOn (ops : List SemBuf) : SemopArgs := ⟨1, false, true, ops⟩

/-- a unit handed over, and then asked for in vain -/
theorem semop_exact_pair :
    Each semop Exact (pair 0 1) [callOn [opOn 1 (-1) true, opOn 0 1 false], callOn [opOn 1 (-1) true]] ∧
      ∀ id i, ledger taken id i (pair 0 1) [callOn [opOn 1 (-1) true, opOn 0 1 false], callOn [opOn 1 (-1) true]] ≤
        max 0 ((pair 0 1).value id i) +
          ledger given id i (pair 0 1) [callOn [opOn 1 (-1) true, opOn 0 1 false], callOn [opOn 1 (-1) true]] :=
  semop_exact (by decide +kernel)

/-- a call takes a unit that is not there, and returns 0; one that gives up (with 11) has given a unit on the way; one adds to a
semaphore that is full; and one makes a value negative -/
theorem semop_overdraws :
    (pair 0 0).semtimedop (callOn [opOn 0 (-1) false]) = (0, pair 0 0) ∧
    (pair 0 0).semtimedop (callOn [opOn 0 1 false, opOn 1 (-1) true]) = (11, pair 1 0) ∧
    (pair 32767 0).semtimedop (callOn [opOn 0 1 false]) = (0, pair 32767 0) ∧
    (pair 0 0).semtimedop (callOn [opOn 0 (-32768) true]) = (0, pair (-32768) 0) ∧
    ¬ (pair 0 0).Exact (callOn [opOn 0 (-1) false]) := by
  refine ⟨by decide +kernel, by decide +kernel, by decide +kernel, by decide +kernel, fun h => ?_⟩
  have hsum := h.sum (by decide +kernel) 1 0
  revert hsum
  decide +kernel

end Registry

end Kontsnor.Ipc
