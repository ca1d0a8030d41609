/-
Descriptor tables (`process/fd.rs`, and the calls of fcntl, execve, fork and pidfd_getfd that work on them).

A new descriptor is searched from `nextFreeFd` upwards, then below it, and at last behind the table; dup2, dup3, F_DUPFD and
pidfd_getfd leave the hint alone, and close lowers it. Two things go wrong:
- execve closes descriptors without lowering the hint (unless the table was shared, and is copied with the hint at 0). If there
  is also a free slot behind the hint, the next descriptor is not the lowest one;
- F_DUPFD never looks at RLIMIT_NOFILE.

A table is followed through the calls; after a fork it is the child's. What a task does with a table it shares is a call on it.
-/
import Kontsnor.Core.Runs

namespace Kontsnor.Process

open Bool List Runs Nat

def resize {α : Type} (xs : List α) (n : ℕ) (x : α) : List α := (xs ++ replicate (n - xs.length) x).take n

/-- a descriptor table, over any type of descriptions -/
structure FdTable (δ : Type) where
  entries : List (Option δ)
  cloexec : List Bool
  nextFreeFd : ℕ
  deriving DecidableEq, Repr

variable {δ : Type}

/-- what a loop over slots comes to -/
inductive Scan
  | found (i : ℕ)
  /-- a slot at the limit -/
  | limit
  | exhausted
  deriving DecidableEq, Repr

inductive FdCall (δ : Type)
  /-- a call that makes a description and asks for a number for it -/
  | alloc (desc : δ) (cloexec : Bool)
  | close (fd : ℤ)
  | dup (fd : ℤ)
  | dup2 (oldfd newfd : ℤ)
  | dup3 (oldfd newfd : ℤ) (cloexec : Bool)
  /-- F_DUPFD or F_DUPFD_CLOEXEC -/
  | dupfd (fd startFd : ℤ) (cloexec : Bool)
  | fork
  /-- `shared`: other tasks have the table too -/
  | execve (shared : Bool)
  /-- `desc`: what is found in the table of the other task -/
  | pidfdGetfd (desc : Option δ) (cloexec : Bool)
  deriving DecidableEq, Repr

namespace FdTable

def new (stdin stdout stderr : δ) : FdTable δ := ⟨[some stdin, some stdout, some stderr], [false, false, false], 0⟩

variable (t : FdTable δ)

def get (i : ℕ) : Option δ := t.entries[i]?.join

def taken (i : ℕ) : Bool := (t.get i).isSome

/-- the description behind a descriptor of a user -/
def lookup (fd : ℤ) : Option δ := if fd < 0 then none else t.get fd.toNat

/-! ## The calls -/

def setCloexec (i : ℕ) (cloexec : Bool) : FdTable δ :=
  { t with cloexec := (if t.cloexec.length ≤ i then resize t.cloexec (i + 1) false else t.cloexec).set i cloexec }

/-- the loop over `k` slots from `i` on -/
def scan (t : FdTable δ) (rlimit : ℕ) : ℕ → ℕ → Scan
  | 0, _ => .exhausted
  | k + 1, i => if rlimit ≤ i then .limit else if t.taken i then t.scan rlimit k (i + 1) else .found i

def put (i : ℕ) (desc : δ) : FdTable δ := { t with entries := t.entries.set i (some desc) }

/-- a slot is filled, and the hint is set behind it -/
def fill (i : ℕ) (desc : δ) (cloexec : Bool) : FdTable δ :=
  { (t.put i desc).setCloexec i cloexec with nextFreeFd := i + 1 }

/-- the table is extended by one slot -/
def push (desc : δ) (cloexec : Bool) : FdTable δ :=
  { entries := t.entries ++ [some desc]
    cloexec := (resize t.cloexec (t.entries.length + 1) false).set t.entries.length cloexec
    nextFreeFd := t.entries.length + 1 }

/-- the search when there is nothing behind the hint -/
def allocBelow (rlimit : ℕ) (desc : δ) (cloexec : Bool) : Option ℕ × FdTable δ :=
  match t.scan rlimit (min t.nextFreeFd t.entries.length) 0 with
  | .limit => (none, t)
  | .found i => (some i, t.fill i desc cloexec)
  | .exhausted => if t.entries.length < rlimit then (some t.entries.length, t.push desc cloexec) else (none, t)

/-- `current_task_alloc_fd_with_flags_and_path`; `current_task_dup_fd` is the same search -/
def allocFd (rlimit : ℕ) (desc : δ) (cloexec : Bool) : Option ℕ × FdTable δ :=
  match t.scan rlimit (t.entries.length - t.nextFreeFd) t.nextFreeFd with
  | .limit => (none, t)
  | .found i => (some i, t.fill i desc cloexec)
  | .exhausted => t.allocBelow rlimit desc cloexec

def closeFd (fd : ℤ) : FdTable δ :=
  if (t.lookup fd).isSome then
    let i := fd.toNat
    { entries := t.entries.set i none
      cloexec := if i < t.cloexec.length then t.cloexec.set i false else t.cloexec
      nextFreeFd := if i < t.nextFreeFd then i else t.nextFreeFd }
  else t

variable (rlimit : ℕ)

def dupFd (fd : ℤ) : Option ℕ × FdTable δ :=
  match t.lookup fd with
  | none => (none, t)
  | some desc => t.allocFd rlimit desc false

/-- a description is put into a slot that is named, whatever was there -/
def place (i : ℕ) (desc : δ) (cloexec : Bool) : FdTable δ :=
  let entries := if t.entries.length ≤ i then resize t.entries (i + 1) none else t.entries
  ({ t with entries := entries.set i (some desc) } : FdTable δ).setCloexec i cloexec

def dup2Fd (rlimit : ℕ) (oldfd newfd : ℤ) : Option ℕ × FdTable δ :=
  if oldfd < 0 || newfd < 0 || 1024 ≤ newfd then (none, t)
  else if (rlimit : ℤ) ≤ newfd then (none, t)
  else
    match t.lookup oldfd with
    | none => (none, t)
    | some desc => if oldfd = newfd then (some newfd.toNat, t) else (some newfd.toNat, t.place newfd.toNat desc false)

def dup3Fd (rlimit : ℕ) (oldfd newfd : ℤ) (cloexec : Bool) : Option ℕ × FdTable δ :=
  if oldfd < 0 || newfd < 0 || oldfd = newfd then (none, t)
  else if (rlimit : ℤ) ≤ newfd then (none, t)
  else
    match t.lookup oldfd with
    | none => (none, t)
    | some desc => (some newfd.toNat, t.place newfd.toNat desc cloexec)

/-- the loop of F_DUPFD over the slots from `i` on, of which there are `k` -/
def firstFree (t : FdTable δ) : ℕ → ℕ → ℕ
  | 0, i => i
  | k + 1, i => if t.taken i then t.firstFree k (i + 1) else i

/-- F_DUPFD and F_DUPFD_CLOEXEC -/
def dupfd (fd startFd : ℤ) (cloexec : Bool) : Option ℕ × FdTable δ :=
  if startFd < 0 then (none, t)
  else
    match t.lookup fd with
    | none => (none, t)
    | some desc =>
      let newFd := t.firstFree (t.entries.length - startFd.toNat) startFd.toNat
      (some newFd, t.place newFd desc cloexec)

def fork : FdTable δ := { t with nextFreeFd := 0 }

/-- descriptors with the flag are closed; the hint stays -/
def closeOnExec : FdTable δ :=
  { t with
    entries := t.entries.mapIdx fun i e => if t.cloexec.getD i false then none else e
    cloexec := t.cloexec.mapIdx fun i b => if i < t.entries.length then false else b }

def execve (shared : Bool) : FdTable δ :=
  (if shared then { t with nextFreeFd := 0 } else t).closeOnExec

def pidfdGetfd (desc : Option δ) (cloexec : Bool) : Option ℕ × FdTable δ :=
  match desc with
  | none => (none, t)
  | some desc =>
    match t.scan rlimit t.entries.length 0 with
    | .found i =>
      (some i, { t with
        entries := t.entries.set i (some desc)
        cloexec := if i < t.cloexec.length then t.cloexec.set i cloexec else t.cloexec })
    | _ =>
      if t.entries.length < rlimit then
        (some t.entries.length, { t with entries := t.entries ++ [some desc], cloexec := t.cloexec ++ [cloexec] })
      else (none, t)

/-- the number a call returns, and the table it leaves -/
def perform (rlimit : ℕ) (t : FdTable δ) : FdCall δ → Option ℕ × FdTable δ
  | .alloc desc cloexec => t.allocFd rlimit desc cloexec
  | .close fd => (none, t.closeFd fd)
  | .dup fd => t.dupFd rlimit fd
  | .dup2 oldfd newfd => t.dup2Fd rlimit oldfd newfd
  | .dup3 oldfd newfd cloexec => t.dup3Fd rlimit oldfd newfd cloexec
  | .dupfd fd startFd cloexec => t.dupfd fd startFd cloexec
  | .fork => (none, t.fork)
  | .execve shared => (none, t.execve shared)
  | .pidfdGetfd desc cloexec => t.pidfdGetfd rlimit desc cloexec

def step (t : FdTable δ) (c : FdCall δ) : FdTable δ := (t.perform rlimit c).2

/-! ## The lowest free number -/

end FdTable

/-- the number from which a call searches, if it does not name one -/
def FdCall.searchesFrom : FdCall δ → Option ℕ
  | .alloc _ _ | .dup _ | .pidfdGetfd _ _ => some 0
  | .dupfd _ startFd _ => some startFd.toNat
  | _ => none

namespace FdTable

/-- `n` is the lowest free number from `from_` on -/
structure Lowest (t : FdTable δ) (from_ n : ℕ) : Prop where
  ge : from_ ≤ n
  free : t.taken n = false
  below : ∀ m, from_ ≤ m → m < n → t.taken m = true

structure Good (rlimit : ℕ) (t : FdTable δ) (c : FdCall δ) : Prop where
  /-- a number that the call has chosen is the lowest free one, and now taken -/
  lowest : ∀ from_ n, c.searchesFrom = some from_ → (t.perform rlimit c).1 = some n →
    t.Lowest from_ n ∧ (t.step rlimit c).taken n = true
  /-- what is new in the table is below the limit -/
  within : ∀ n, (t.step rlimit c).taken n = true → (t.step rlimit c).get n ≠ t.get n → n < rlimit

section

variable (rlimit : ℕ) (t : FdTable δ)

/-- no slot below the hint is free, or none from the hint up to the limit -/
def hintGood : Prop :=
  (∀ f < t.nextFreeFd, f < t.entries.length → t.taken f = true) ∨
    ∀ i < t.entries.length, t.nextFreeFd ≤ i → i < rlimit → t.taken i = true

instance : Decidable (t.hintGood rlimit) := by unfold hintGood; infer_instance

def meets : FdCall δ → Prop
  | .alloc _ _ => t.hintGood rlimit
  | .dup fd => (t.lookup fd).isSome = true → t.hintGood rlimit
  -- a number in the range that was asked for is free
  | .dupfd fd startFd _ => 0 ≤ startFd → (t.lookup fd).isSome = true → ∃ n < rlimit, startFd.toNat ≤ n ∧ t.taken n = false
  | _ => True

instance (c : FdCall δ) : Decidable (t.meets rlimit c) := by
  cases c <;> unfold meets <;> infer_instance

end

variable {t t' : FdTable δ} {rlimit n i : ℕ} {desc : δ} {c : FdCall δ} {xs : List (Option δ)}

theorem scan_spec (t : FdTable δ) (rlimit k i : ℕ) :
    (∃ j, t.scan rlimit k i = .found j ∧ j < i + k ∧ j < rlimit ∧ t.Lowest i j) ∨
    (t.scan rlimit k i = .limit ∧ ∃ m, i ≤ m ∧ m < i + k ∧ rlimit ≤ m ∧ ∀ m', i ≤ m' → m' < m → t.taken m' = true) ∨
    (t.scan rlimit k i = .exhausted ∧ ∀ m, i ≤ m → m < i + k → m < rlimit ∧ t.taken m = true) := by
  induction k generalizing i with
  | zero =>
    right; right
    exact ⟨rfl, fun m h1 h2 => by omega⟩
  | succ k ih =>
    unfold scan
    by_cases hlimit : rlimit ≤ i
    · rw [if_pos hlimit]
      right; left
      exact ⟨rfl, i, le_rfl, by omega, hlimit, fun m' h1 h2 => by omega⟩
    rw [if_neg hlimit]
    by_cases htaken : t.taken i = true
    · rw [if_pos htaken]
      have hhead {m : ℕ} (hm : i ≤ m) (hnext : i + 1 ≤ m → t.taken m = true) : t.taken m = true := by
        by_cases heq : m = i
        · rw [heq]
          exact htaken
        · exact hnext (by omega)
      rcases ih (i + 1) with ⟨j, hscan, hlt, hj, hlow⟩ | ⟨hscan, m, h1, h2, h3, h4⟩ | ⟨hscan, hall⟩
      · left
        have hge := hlow.ge
        exact ⟨j, hscan, by omega, hj, by omega, hlow.free, fun m hm hmj => hhead hm fun h => hlow.below m h hmj⟩
      · right; left
        exact ⟨hscan, m, by omega, by omega, h3, fun m' h hm' => hhead h fun h' => h4 m' h' hm'⟩
      · right; right
        refine ⟨hscan, fun m hm hmk => ⟨?_, hhead hm fun h => (hall m h (by omega)).2⟩⟩
        by_cases heq : m = i
        · omega
        · exact (hall m (by omega) (by omega)).1
    · rw [if_neg htaken]
      left
      exact ⟨i, rfl, by omega, by omega, le_rfl, eq_false_iff.2 htaken, fun m h1 h2 => by omega⟩

theorem taken_of_length_le (h : t.entries.length ≤ n) : t.taken n = false := by
  unfold taken get
  rw [getElem?_eq_none h]
  rfl

/-- `t'` is `t` with a description in slot `i` -/
structure Put (t : FdTable δ) (i : ℕ) (t' : FdTable δ) : Prop where
  taken : t'.taken i = true
  get : ∀ n ≠ i, t'.get n = t.get n
  length : t.entries.length ≤ t'.entries.length

theorem put_of_entries (h : i < t.entries.length) (he : t'.entries = t.entries.set i (some desc)) : Put t i t' := by
  constructor
  · unfold FdTable.taken FdTable.get
    rw [he, getElem?_set_self h]
    rfl
  · intro n hn
    unfold FdTable.get
    rw [he, getElem?_set_ne hn.symm]
  · rw [he, length_set]

theorem put_of_append (he : t'.entries = t.entries ++ [some desc]) : Put t t.entries.length t' := by
  constructor
  · unfold FdTable.taken FdTable.get
    rw [he, getElem?_concat_length]
    rfl
  · intro n hn
    unfold FdTable.get
    rw [he]
    by_cases hlt : n < t.entries.length
    · rw [getElem?_append_left hlt]
    · rw [getElem?_eq_none (by rw [length_append, length_singleton]; omega), getElem?_eq_none (by omega)]
  · rw [he, length_append]
    omega

theorem getElem?_resize (h : xs.length ≤ i) (n : ℕ) : (resize xs (i + 1) none)[n]?.join = xs[n]?.join := by
  unfold resize
  rw [getElem?_take]
  by_cases hn : n < xs.length
  · rw [if_pos (by omega), getElem?_append_left hn]
  · rw [getElem?_eq_none (not_lt.1 hn)]
    split_ifs with hni
    · rw [getElem?_append_right (not_lt.1 hn), getElem?_replicate]
      split_ifs <;> rfl
    · rfl

theorem length_resize (h : xs.length ≤ i) : (resize xs (i + 1) none).length = i + 1 := by
  unfold resize
  rw [length_take, length_append, length_replicate]
  omega

theorem put_place (t : FdTable δ) (i : ℕ) (desc : δ) (cloexec : Bool) : Put t i (t.place i desc cloexec) := by
  unfold place
  dsimp only
  by_cases hle : t.entries.length ≤ i
  · rw [if_pos hle]
    have hgrow : Put { t with entries := resize t.entries (i + 1) none } i
        (({ t with entries := (resize t.entries (i + 1) none).set i (some desc) } : FdTable δ).setCloexec i cloexec) :=
      put_of_entries (by rw [length_resize hle]; omega) rfl
    refine ⟨hgrow.taken, fun n hn => (hgrow.get n hn).trans ?_, ?_⟩
    · exact getElem?_resize hle n
    · have hlen := hgrow.length
      rw [length_resize hle] at hlen
      omega
  · rw [if_neg hle]
    exact put_of_entries (not_le.1 hle) rfl

/-! ## One call -/

theorem Good.of_same (h : t.perform rlimit c = (none, t)) : Good rlimit t c := by
  refine ⟨fun from_ n _ hn => ?_, fun n _ hne => ?_⟩
  · rw [h] at hn
    cases hn
  · rw [step, h] at hne
    exact absurd rfl hne

theorem Good.of_put (h : t.perform rlimit c = (some n, t')) (hput : Put t n t')
    (hlt : n < rlimit) (hlow : ∀ from_, c.searchesFrom = some from_ → t.Lowest from_ n) : Good rlimit t c := by
  have hstep : t.step rlimit c = t' := by rw [step, h]
  refine ⟨fun from_ m hfrom hm => ?_, fun m _ hne => ?_⟩
  · rw [h] at hm
    cases hm
    rw [hstep]
    exact ⟨hlow from_ hfrom, hput.taken⟩
  · rw [hstep] at hne
    by_contra hge
    exact hne (hput.get m fun heq => by omega)

/-- the search finds the lowest free number exactly if the hint is good; and it is good where nothing is found -/
theorem allocFd_spec (t : FdTable δ) (rlimit : ℕ) (desc : δ) (cloexec : Bool) :
    (t.allocFd rlimit desc cloexec = (none, t) ∧ t.hintGood rlimit) ∨
    ∃ n t', t.allocFd rlimit desc cloexec = (some n, t') ∧ Put t n t' ∧ t'.nextFreeFd = n + 1 ∧ n < rlimit ∧
      (t.Lowest 0 n ↔ t.hintGood rlimit) := by
  unfold allocFd
  rcases scan_spec t rlimit (t.entries.length - t.nextFreeFd) t.nextFreeFd with
    ⟨j, hscan, hlt, hj, hlow⟩ | ⟨hscan, m, h1, h2, h3, h4⟩ | ⟨hscan, hall⟩
  · rw [hscan]
    have hge := hlow.ge
    have hlen : j < t.entries.length := by omega
    right
    refine ⟨j, _, rfl, put_of_entries hlen rfl, rfl, hj, fun hzero => .inl fun f hf _ => hzero.below f (zero_le f) (by omega), ?_⟩
    rintro (hbelow | habove)
    · refine ⟨zero_le j, hlow.free, fun m _ hm => ?_⟩
      by_cases hmf : m < t.nextFreeFd
      · exact hbelow m hmf (by omega)
      · exact hlow.below m (not_lt.1 hmf) hm
    · have hfree := habove j hlen hge hj
      rw [hlow.free] at hfree
      cases hfree
  · rw [hscan]
    left
    exact ⟨rfl, .inr fun i hi hge hir => h4 i hge (by omega)⟩
  · rw [hscan]
    have hgood : t.hintGood rlimit := .inr fun i hi hge _ => (hall i hge (by omega)).2
    unfold allocBelow
    rcases scan_spec t rlimit (min t.nextFreeFd t.entries.length) 0 with
      ⟨j, hscan', hlt, hj, hlow⟩ | ⟨hscan', -⟩ | ⟨hscan', hall'⟩
    · rw [hscan']
      right
      exact ⟨j, _, rfl, put_of_entries (by omega) rfl, rfl, hj, fun _ => hgood, fun _ => hlow⟩
    · rw [hscan']
      left
      exact ⟨rfl, hgood⟩
    · rw [hscan']
      split_ifs with hlen
      · right
        refine ⟨_, _, rfl, put_of_append rfl, rfl, hlen, fun _ => hgood,
          fun _ => ⟨zero_le _, taken_of_length_le le_rfl, ?_⟩⟩
        intro m _ hm
        by_cases hmf : m < t.nextFreeFd
        · exact (hall' m (zero_le m) (by omega)).2
        · exact (hall m (not_lt.1 hmf) (by omega)).2
      · left
        exact ⟨rfl, hgood⟩

theorem good_iff_of_allocFd {cloexec : Bool} (hfrom : c.searchesFrom = some 0)
    (h : t.perform rlimit c = t.allocFd rlimit desc cloexec) : Good rlimit t c ↔ t.hintGood rlimit := by
  rcases allocFd_spec t rlimit desc cloexec with ⟨hnone, hgood⟩ | ⟨n, t', hsome, hput, -, hlt, hiff⟩
  · exact ⟨fun _ => hgood, fun _ => .of_same (h.trans hnone)⟩
  · have hcall := h.trans hsome
    constructor
    · intro hg
      exact hiff.1 (hg.lowest 0 n hfrom (by rw [hcall])).1
    · intro hg
      refine .of_put hcall hput hlt fun from_ hfrom' => ?_
      rw [hfrom] at hfrom'
      cases hfrom'
      exact hiff.2 hg

section

variable (t : FdTable δ)

theorem firstFree_spec (k i : ℕ) (hk : t.entries.length ≤ i + k) : t.Lowest i (t.firstFree k i) := by
  induction k generalizing i with
  | zero =>
    refine ⟨le_rfl, ?_, fun m h1 h2 => absurd h2 (not_lt.2 h1)⟩
    exact taken_of_length_le (by change _ ≤ i; omega)
  | succ k ih =>
    unfold firstFree
    by_cases htaken : t.taken i = true
    · rw [if_pos htaken]
      have hlow := ih (i + 1) (by omega)
      have hge := hlow.ge
      refine ⟨by omega, hlow.free, fun m h1 h2 => ?_⟩
      by_cases heq : m = i
      · rw [heq]
        exact htaken
      · exact hlow.below m (by omega) h2
    · rw [if_neg htaken]
      exact ⟨le_rfl, eq_false_iff.2 htaken, fun m h1 h2 => absurd h2 (not_lt.2 h1)⟩

variable (rlimit : ℕ)

/-- F_DUPFD always finds the lowest number; it is below the limit if there is one -/
theorem good_dupfd_iff (fd startFd : ℤ) (cloexec : Bool) :
    Good rlimit t (.dupfd fd startFd cloexec) ↔ t.meets rlimit (.dupfd fd startFd cloexec) := by
  have hp : t.perform rlimit (.dupfd fd startFd cloexec) = t.dupfd fd startFd cloexec := rfl
  unfold dupfd at hp
  change _ ↔ (0 ≤ startFd → (t.lookup fd).isSome = true → _)
  by_cases hneg : startFd < 0
  · rw [if_pos hneg] at hp
    exact ⟨fun _ h0 => absurd h0 (not_le.2 hneg), fun _ => .of_same hp⟩
  rw [if_neg hneg] at hp
  cases hlook : t.lookup fd with
  | none =>
    rw [hlook] at hp
    exact ⟨fun _ _ h => absurd h false_ne_true, fun _ => .of_same hp⟩
  | some desc =>
    rw [hlook] at hp
    set n := t.firstFree (t.entries.length - startFd.toNat) startFd.toNat with hn
    have hlow : t.Lowest startFd.toNat n := firstFree_spec t _ _ (by omega)
    have hput := put_place t n desc cloexec
    constructor
    · intro hg _ _
      refine ⟨n, hg.within n ?_ ?_, hlow.ge, hlow.free⟩
      · rw [step, hp]
        exact hput.taken
      · rw [step, hp]
        intro heq
        have htaken : t.taken n = true := by
          unfold taken
          rw [← heq]
          exact hput.taken
        rw [hlow.free] at htaken
        cases htaken
    · intro hex
      obtain ⟨m, hm, hge, hfree⟩ := hex (not_lt.1 hneg) rfl
      have hle : n ≤ m := by
        by_contra hlt
        rw [hlow.below m hge (not_le.1 hlt)] at hfree
        cases hfree
      refine .of_put hp hput (by omega) fun from_ hfrom => ?_
      cases hfrom
      exact hlow

theorem good_onto {c : FdCall δ} {oldfd newfd : ℤ} {bad : Bool} {onto : δ → Option ℕ × FdTable δ}
    (hp : t.perform rlimit c = if decide (oldfd < 0) || decide (newfd < 0) || bad then (none, t)
      else if (rlimit : ℤ) ≤ newfd then (none, t)
      else match t.lookup oldfd with
        | none => (none, t)
        | some desc => onto desc)
    (honto : ∀ desc, t.perform rlimit c = onto desc → newfd.toNat < rlimit → Good rlimit t c) : Good rlimit t c := by
  split_ifs at hp with hbad hlimit
  · exact .of_same hp
  · exact .of_same hp
  cases hlook : t.lookup oldfd with
  | none =>
    rw [hlook] at hp
    exact .of_same hp
  | some desc =>
    rw [hlook] at hp
    refine honto desc hp ?_
    have hpos : ¬ newfd < 0 := fun h => hbad (by rw [decide_eq_true h, Bool.or_true, Bool.true_or])
    omega

theorem good_dup2 (oldfd newfd : ℤ) : Good rlimit t (.dup2 oldfd newfd) := by
  refine good_onto t rlimit rfl fun desc hp hlt => ?_
  by_cases heq : oldfd = newfd
  · rw [if_pos heq] at hp
    refine ⟨nofun, fun n _ hne => ?_⟩
    rw [step, hp] at hne
    exact absurd rfl hne
  · rw [if_neg heq] at hp
    exact .of_put hp (put_place t _ desc false) hlt nofun

theorem good_dup3 (oldfd newfd : ℤ) (cloexec : Bool) : Good rlimit t (.dup3 oldfd newfd cloexec) :=
  good_onto t rlimit rfl fun desc hp hlt => .of_put hp (put_place t _ desc cloexec) hlt nofun

theorem good_pidfdGetfd (desc : Option δ) (cloexec : Bool) : Good rlimit t (.pidfdGetfd desc cloexec) := by
  have hp : t.perform rlimit (.pidfdGetfd desc cloexec) = t.pidfdGetfd rlimit desc cloexec := rfl
  unfold pidfdGetfd at hp
  cases desc with
  | none => exact .of_same hp
  | some desc =>
    rcases scan_spec t rlimit t.entries.length 0 with ⟨j, hscan, hlt, hj, hlow⟩ | ⟨hscan, m, h1, h2, h3, -⟩ | ⟨hscan, hall⟩
    · rw [hscan] at hp
      refine .of_put hp (put_of_entries (by omega) rfl) hj fun from_ hfrom => ?_
      cases hfrom
      exact hlow
    · rw [hscan] at hp
      dsimp only at hp
      rw [if_neg (by omega)] at hp
      exact .of_same hp
    · rw [hscan] at hp
      dsimp only at hp
      by_cases hlen : t.entries.length < rlimit
      · rw [if_pos hlen] at hp
        refine .of_put hp (put_of_append rfl) hlen fun from_ hfrom => ?_
        cases hfrom
        exact ⟨zero_le _, taken_of_length_le le_rfl, fun m hm hlt => (hall m hm (by omega)).2⟩
      · rw [if_neg hlen] at hp
        exact .of_same hp

end

theorem Good.of_closing (hfrom : c.searchesFrom = none)
    (h : ∀ n, (t.step rlimit c).taken n = true → (t.step rlimit c).get n = t.get n) : Good rlimit t c := by
  refine ⟨fun from_ n hsome _ => ?_, fun n htaken hne => absurd (h n htaken) hne⟩
  rw [hfrom] at hsome
  cases hsome

theorem get_closeFd {fd : ℤ} (h : (t.closeFd fd).taken n = true) : (t.closeFd fd).get n = t.get n := by
  unfold closeFd at *
  split_ifs at h ⊢ with hopen
  · unfold taken get at *
    rw [getElem?_set] at *
    split_ifs at h ⊢ with heq hlt
    · cases h
    · cases h
    · rfl
  · rfl

theorem get_closeOnExec (t : FdTable δ) (n : ℕ) :
    t.closeOnExec.get n = if t.cloexec.getD n false = true then none else t.get n := by
  unfold closeOnExec get
  rw [getElem?_mapIdx]
  cases t.entries[n]? with
  | none =>
    split_ifs <;> rfl
  | some e =>
    rfl

theorem get_execve (shared : Bool) :
    (t.execve shared).get n = if t.cloexec.getD n false = true then none else t.get n := by
  cases shared with
  | false => exact get_closeOnExec t n
  | true => exact get_closeOnExec { t with nextFreeFd := 0 } n

theorem get_of_taken_execve {shared : Bool} (h : (t.execve shared).taken n = true) :
    (t.execve shared).get n = t.get n := by
  unfold taken at h
  rw [get_execve] at h ⊢
  split_ifs at h ⊢
  · cases h
  · rfl

/-- **One call.** It returns the lowest free number and stays below the limit exactly if it meets the condition. -/
theorem good_iff_meets (rlimit : ℕ) (t : FdTable δ) (c : FdCall δ) : Good rlimit t c ↔ t.meets rlimit c := by
  cases c with
  | alloc desc cloexec => exact good_iff_of_allocFd rfl rfl
  | close fd => exact ⟨fun _ => trivial, fun _ => .of_closing rfl fun n => get_closeFd⟩
  | dup fd =>
    have hp : t.perform rlimit (.dup fd) = t.dupFd rlimit fd := rfl
    unfold dupFd at hp
    change _ ↔ ((t.lookup fd).isSome = true → _)
    cases hlook : t.lookup fd with
    | none =>
      rw [hlook] at hp
      exact ⟨fun _ h => absurd h false_ne_true, fun _ => .of_same hp⟩
    | some desc =>
      rw [hlook] at hp
      rw [good_iff_of_allocFd rfl hp]
      exact ⟨fun h _ => h, fun h => h rfl⟩
  | dup2 oldfd newfd => exact ⟨fun _ => trivial, fun _ => good_dup2 t rlimit oldfd newfd⟩
  | dup3 oldfd newfd cloexec => exact ⟨fun _ => trivial, fun _ => good_dup3 t rlimit oldfd newfd cloexec⟩
  | dupfd fd startFd cloexec => exact good_dupfd_iff t rlimit fd startFd cloexec
  | fork => exact ⟨fun _ => trivial, fun _ => .of_closing rfl fun n _ => rfl⟩
  | execve shared => exact ⟨fun _ => trivial, fun _ => .of_closing rfl fun n => get_of_taken_execve⟩
  | pidfdGetfd desc cloexec => exact ⟨fun _ => trivial, fun _ => good_pidfdGetfd t rlimit desc cloexec⟩

/-! ## Runs -/

/-- **Lowest free descriptor within the limit.** Along a run of calls from the table of a new task, every call returns the lowest
free number and installs nothing at or above the limit, exactly if every call meets the condition. -/
theorem calls_lowest_iff (rlimit : ℕ) (stdin stdout stderr : δ) (calls : List (FdCall δ)) :
    Each (step rlimit) (Good rlimit) (new stdin stdout stderr) calls ↔
      Each (step rlimit) (meets rlimit) (new stdin stdout stderr) calls := by
  constructor
  · exact Each.mono fun t c => (good_iff_meets rlimit t c).1
  · exact Each.mono fun t c => (good_iff_meets rlimit t c).2

/-- three files are opened, the first to be closed on execve; the last is closed, and a program is started: then the next number
is 5, though 3 is free. And F_DUPFD goes to the limit and beyond -/
theorem calls_not_lowest :
    ¬ Each (step 1024) (Good 1024) (new 0 1 2)
      [.alloc 3 true, .alloc 4 false, .alloc 5 false, .close 5, .execve false, .alloc 6 false] ∧
    ((run (step 1024) (new 0 1 2) [.alloc 3 true, .alloc 4 false, .alloc 5 false, .close 5, .execve false]).perform 1024
      (.alloc 6 false)).1 = some 5 ∧
    ¬ Good 16 (new 0 1 2) (.dupfd 0 20 false) := by
  refine ⟨fun h => ?_, by decide +kernel, fun h => ?_⟩
  · have hmeets := h.mono fun t c => (good_iff_meets 1024 t c).1
    revert hmeets
    decide +kernel
  · have hmeets := (good_iff_meets 16 _ _).1 h
    revert hmeets
    decide +kernel

end FdTable

end Kontsnor.Process
