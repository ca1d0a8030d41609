/-
No wake-up is lost, except one that the fast path of `wake_all` drops.

Four facts hold in every state that is reached:
- `Exclusive`: whoever is at a place inside the `SCHEDULER` lock holds it.
- `Booked`: `sequence` is the number of raises modulo `2 ^ 64`, and a token that number at the start of the wait. So a
  token is not current once a wake-up has started (`Booked.stale`).
- `Counted`: `waiter_count` covers the queue, so no `fetch_sub` goes below zero and a zero means an empty queue.
- `Heard`: a waiter in the queue, or past its check, that a wake-up has started for has a waker under way.

The last needs that no waker returns from the fast path while a waiter is past its check and not in the queue yet.
-/
import Kontsnor.Sync.WaitQueue

namespace Kontsnor.Sync

open List Function

/-! ## Where threads are -/

/-- the waiter holds `SCHEDULER` -/
def WaiterPc.inside : WaiterPc → Bool
  | locked _ | checked | blocked | queued => true
  | _ => false

/-- the waiter has found its token current, and is not in the queue yet -/
def WaiterPc.committed : WaiterPc → Bool
  | checked | blocked => true
  | _ => false

theorem WaiterPc.inside_of_committed {pc : WaiterPc} (h : pc.committed = true) : pc.inside = true := by
  cases pc <;> first | rfl | cases h

/-- the token the waiter compares with -/
def WaiterPc.token? : WaiterPc → Option UInt64
  | sampled token | calling token | locked token => some token
  | _ => none

/-- the waker holds `SCHEDULER` -/
def WakerPc.holds : WakerPc → Bool
  | outside own | bumped own | slow own => own
  | _ => true

/-- the wake-up is under way, and has not emptied the queue yet -/
def WakerPc.active : WakerPc → Bool
  | bumped _ | slow _ | holding _ | rebumped _ => true
  | _ => false

/-- the wake-up is over -/
def WakerPc.returned : WakerPc → Bool
  | outside _ => true
  | _ => false

/-- how many waiters `waiter_count` still has to be lowered by -/
def WakerPc.owed : WakerPc → ℕ
  | popped _ numPids => numPids
  | _ => 0

variable (s : State)

@[simp] theorem waiter_goto (pid q : ℕ) (pc : WaiterPc) :
    (s.goto pid pc).waiter q = if q = pid then pc else s.waiter q := update_apply ..

@[simp] theorem waker_move (id k : ℕ) (pc : WakerPc) :
    (s.move id pc).waker k = if k = id then pc else s.waker k := update_apply ..

/-! ## The lock -/

/-- `SCHEDULER` is held by whoever is at a place inside it -/
structure Exclusive : Prop where
  waiter : ∀ pid, (s.waiter pid).inside = true → s.scheduler = some (.waiter pid)
  waker : ∀ id, (s.waker id).holds = true → s.scheduler = some (.waker id)

namespace Exclusive

variable {s : State} {pid id : ℕ}

section

variable (h : Exclusive s)
include h

omit h in
/-- what another thread holds is not free, nor held by this one -/
theorem other {s' : State} {t t' : Thread} (hlock : s'.scheduler = s.scheduler ∨ s.scheduler = none ∨ s.scheduler = some t)
    (hne : t' ≠ t) (ht : s.scheduler = some t') : s'.scheduler = some t' := by
  rcases hlock with hsame | hfree | hown
  · exact hsame.trans ht
  · cases hfree.symm.trans ht
  · exact absurd (Option.some.inj (ht.symm.trans hown)) hne

theorem waiterGoes {s' : State} {pc : WaiterPc} (hwaiter : s'.waiter = update s.waiter pid pc) (hwaker : s'.waker = s.waker)
    (hpc : pc.inside = true → s'.scheduler = some (.waiter pid))
    (hlock : s'.scheduler = s.scheduler ∨ s.scheduler = none ∨ (s.waiter pid).inside = true) : Exclusive s' := by
  have hlock := hlock.imp_right (Or.imp_right (h.waiter pid))
  refine ⟨fun q hq => ?_, fun k hk => other hlock nofun (h.waker k (hwaker ▸ hk))⟩
  rw [hwaiter, update_apply] at hq
  split_ifs at hq with he
  · exact he ▸ hpc hq
  · exact other hlock (fun heq => he (Thread.waiter.inj heq)) (h.waiter q hq)

theorem wakerGoes {s' : State} {pc : WakerPc} (hwaiter : s'.waiter = s.waiter) (hwaker : s'.waker = update s.waker id pc)
    (hpc : pc.holds = true → s'.scheduler = some (.waker id))
    (hlock : s'.scheduler = s.scheduler ∨ s.scheduler = none ∨ (s.waker id).holds = true) : Exclusive s' := by
  have hlock := hlock.imp_right (Or.imp_right (h.waker id))
  refine ⟨fun q hq => other hlock nofun (h.waiter q (hwaiter ▸ hq)), fun k hk => ?_⟩
  rw [hwaker, update_apply] at hk
  split_ifs at hk with he
  · exact he ▸ hpc hk
  · exact other hlock (fun heq => he (Thread.waker.inj heq)) (h.waker k hk)

theorem waiterStep (e : Event) : Exclusive (waiterStep s pid (s.waiter pid) e) := by
  have hout : ∀ {pc : WaiterPc} {lock : Option Thread}, pc.inside = false → pc.inside = true → lock = some (.waiter pid) :=
    fun h1 h2 => by rw [h1] at h2; cases h2
  have hin := h.waiter pid
  unfold Sync.waiterStep
  split <;> rename_i hpc <;> try rw [hpc] at hin
  · exact h.waiterGoes rfl rfl (hout rfl) (.inl rfl)
  · split_ifs
    · exact h.waiterGoes rfl rfl (hout rfl) (.inl rfl)
    · exact h.waiterGoes rfl rfl (hout rfl) (.inl rfl)
  · split_ifs with hfree
    · exact h.waiterGoes rfl rfl (fun _ => rfl) (.inr (.inl hfree))
    · exact h
  · split_ifs
    · exact h.waiterGoes rfl rfl hin (.inl rfl)
    · exact h.waiterGoes rfl rfl (hout rfl) (.inr (.inr (by rw [hpc]; rfl)))
  · split_ifs
    · exact h.waiterGoes rfl rfl (hout rfl) (.inr (.inr (by rw [hpc]; rfl)))
    · exact h.waiterGoes rfl rfl hin (.inl rfl)
  · exact h.waiterGoes rfl rfl hin (.inl rfl)
  · exact h.waiterGoes rfl rfl (hout rfl) (.inr (.inr (by rw [hpc]; rfl)))
  · split_ifs
    · exact h.waiterGoes rfl rfl (hout rfl) (.inl rfl)
    · exact h.waiterGoes rfl rfl (hout rfl) (.inl rfl)
  · split_ifs
    · exact h.waiterGoes rfl rfl (hout rfl) (.inl rfl)
    · exact h
  · exact h.waiterGoes rfl rfl (hout rfl) (.inl rfl)
  · exact h.waiterGoes rfl rfl (hout rfl) (.inl rfl)
  · exact h

theorem wakerStep (e : Event) : Exclusive (wakerStep s id (s.waker id) e) := by
  have hin := h.waker id
  unfold Sync.wakerStep
  split <;> rename_i hpc <;> try rw [hpc] at hin
  · exact ⟨h.waiter, h.waker⟩
  · exact h.wakerGoes rfl rfl hin (.inl rfl)
  · split_ifs
    · exact h.wakerGoes rfl rfl hin (.inl rfl)
    · exact h.wakerGoes rfl rfl hin (.inl rfl)
  · exact h.wakerGoes rfl rfl hin (.inl rfl)
  · split_ifs with hfree
    · exact h.wakerGoes rfl rfl (fun _ => rfl) (.inr (.inl hfree))
    · exact h
  · exact h.wakerGoes rfl rfl hin (.inl rfl)
  · exact h.wakerGoes rfl rfl hin (.inl rfl)
  · exact h.wakerGoes rfl rfl hin (.inl rfl)
  · exact h.wakerGoes rfl rfl hin (.inl rfl)
  · exact h.wakerGoes rfl rfl hin (.inl rfl)
  · exact h.wakerGoes rfl rfl nofun (.inr (.inr (by rw [hpc]; rfl)))
  · split_ifs with hfree
    · exact h.wakerGoes rfl rfl (fun _ => rfl) (.inr (.inl hfree))
    · exact h
  · exact h.wakerGoes rfl rfl nofun (.inr (.inr (by rw [hpc]; rfl)))
  · exact h

theorem step (e : Event) : Exclusive (step s e) := by
  unfold Sync.step
  split
  · exact h.waiterStep e
  · exact h.wakerStep e
  · split
    · split_ifs
      · exact ⟨h.waiter, h.waker⟩
      · exact h
    · exact ⟨h.waiter, h.waker⟩

end

end Exclusive

/-! ## Tokens -/

/-- the books are right: `sequence` is the number of raises, and the token of a waiter the number at its start -/
structure Booked (s : State) : Prop where
  sequence : s.sequence = UInt64.ofNat s.bumps
  sampled : ∀ pid, s.sampledAt pid ≤ s.bumps
  later : ∀ pid, s.later pid = true → s.sampledAt pid < s.bumps
  token : ∀ pid t, (s.waiter pid).token? = some t → t = UInt64.ofNat (s.sampledAt pid)

namespace Booked

variable {s : State} {pid id : ℕ}

section

variable (h : Booked s)
include h

theorem goto {pc : WaiterPc} (hpc : ∀ t, pc.token? = some t → (s.waiter pid).token? = some t) :
    Booked (s.goto pid pc) where
  sequence := h.sequence
  sampled := h.sampled
  later := h.later
  token q t hq := by
    rw [waiter_goto] at hq
    split_ifs at hq with he
    · subst he; exact h.token q t (hpc t hq)
    · exact h.token q t hq

theorem sample (pid : ℕ) : Booked (s.sample pid) where
  sequence := h.sequence
  sampled q := by
    simp only [State.sample, update_apply]
    split_ifs
    · exact le_rfl
    · exact h.sampled q
  later q hq := by
    simp only [State.sample, update_apply] at hq ⊢
    split_ifs at hq ⊢
    exact h.later q hq
  token q t hq := by
    simp only [State.sample, update_apply] at hq ⊢
    split_ifs at hq ⊢
    · cases hq; exact h.sequence
    · exact h.token q t hq

theorem raise : Booked s.raise where
  sequence := by
    simp only [State.raise, h.sequence, UInt64.ofNat_add]
    rfl
  sampled q := (h.sampled q).trans (Nat.le_succ _)
  later q hq := (h.later q hq).trans (Nat.lt_succ_self _)
  token := h.token

theorem start : Booked s.start where
  sequence := h.raise.sequence
  sampled := h.raise.sampled
  later q _ := Nat.lt_succ_of_le (h.sampled q)
  token := h.token

theorem change {s' : State} (hs : (s'.sequence, s'.bumps, s'.sampledAt, s'.later, s'.waiter) =
    (s.sequence, s.bumps, s.sampledAt, s.later, s.waiter)) : Booked s' := by
  obtain ⟨h1, h2, h3, h4, h5⟩ : s'.sequence = s.sequence ∧ s'.bumps = s.bumps ∧ s'.sampledAt = s.sampledAt ∧
      s'.later = s.later ∧ s'.waiter = s.waiter := by simpa using hs
  constructor
  · rw [h1, h2]; exact h.sequence
  · rw [h2, h3]; exact h.sampled
  · rw [h2, h3, h4]; exact h.later
  · rw [h3, h5]; exact h.token

theorem waiterStep (e : Event) : Booked (waiterStep s pid (s.waiter pid) e) := by
  have hnone : ∀ pc : WaiterPc, pc.token? = none → ∀ t, pc.token? = some t → (s.waiter pid).token? = some t :=
    fun pc h1 t h2 => by rw [h1] at h2; cases h2
  unfold Sync.waiterStep
  split <;> rename_i hpc
  · exact h.sample pid
  · split_ifs
    · exact h.goto (hnone _ rfl)
    · exact h.goto fun t ht => by rw [hpc]; exact ht
  · split_ifs
    · exact (h.goto fun t ht => by rw [hpc]; exact ht).change rfl
    · exact h
  · split_ifs
    · exact h.goto (hnone _ rfl)
    · exact (h.goto (hnone _ rfl)).change rfl
  · split_ifs
    · exact (h.goto (hnone _ rfl)).change rfl
    · exact (h.goto (hnone _ rfl)).change rfl
  · exact (h.goto (hnone _ rfl)).change rfl
  · exact (h.goto (hnone _ rfl)).change rfl
  · split_ifs
    · exact h.goto (hnone _ rfl)
    · exact (h.goto (hnone _ rfl)).change rfl
  · split_ifs
    · exact (h.goto (hnone _ rfl)).change rfl
    · exact h
  · exact (h.goto (hnone _ rfl)).change rfl
  · exact (h.goto (hnone _ rfl)).change rfl
  · exact h

theorem wakerStep (e : Event) : Booked (wakerStep s id (s.waker id) e) := by
  unfold Sync.wakerStep
  split
  case h_2 => exact h.start.change rfl
  case h_6 => exact h.start.change rfl
  case h_7 => exact h.raise.change rfl
  all_goals first | exact h.change rfl | (split_ifs <;> exact h.change rfl)

theorem step (e : Event) : Booked (step s e) := by
  unfold Sync.step
  split
  · exact h.waiterStep e
  · exact h.wakerStep e
  · split
    · split_ifs <;> exact h.change rfl
    · exact h.change rfl

/-- **A token is not current** once a wake-up has started, as long as `sequence` has not come round to it again. -/
theorem stale {token : UInt64} (htok : (s.waiter pid).token? = some token) (hlater : s.later pid = true)
    (hwrap : s.bumps - s.sampledAt pid < 2 ^ 64) : s.sequence ≠ token := by
  have hlt := h.later pid hlater
  rw [h.sequence, h.token pid token htok]
  intro he
  have hmod : s.bumps % 2 ^ 64 = s.sampledAt pid % 2 ^ 64 := by
    simpa using congrArg UInt64.toNat he
  omega

end

end Booked

/-! ## The count -/

/-- `waiter_count` covers the queue, and what a waker has popped and not yet taken off the count -/
def Counted (s : State) : Prop := ∀ id, s.pids.length + (s.waker id).owed ≤ s.waiterCount

namespace Counted

variable {s : State} {pid id : ℕ}

section

variable (h : Counted s)
include h

theorem pids_le : s.pids.length ≤ s.waiterCount := (Nat.le_add_right _ _).trans (h 0)

theorem move {pc : WakerPc} (hpc : pc.owed = 0) : Counted (s.move id pc) := by
  intro k
  rw [waker_move]
  split_ifs
  · rw [hpc]; exact h.pids_le
  · exact h k

variable (pid : ℕ)

theorem remove : Counted (s.remove pid) := by
  intro k
  have hlen : (s.pids.filter (· ≠ pid)).length + s.pids.count pid = s.pids.length := by
    rw [← countP_eq_length_filter, add_comm, length_eq_countP_add_countP (· == pid)]
    simp [count]
  have := h k
  simp only [State.remove]
  omega

theorem enqueue : Counted
    { s.goto pid .queued with waiterCount := s.waiterCount + 1, pids := s.pids ++ [pid] } := by
  intro k
  have := h k
  simp only [State.goto, length_append, length_singleton]
  omega

theorem wakeTasks (id : ℕ) {own : Bool} : Counted (s.wakeTasks.move id (.popped own s.pids.length)) := by
  intro k
  rw [waker_move]
  split_ifs
  · exact (Nat.zero_add _).trans_le h.pids_le
  · exact (Nat.add_le_add_right (Nat.zero_le _) _).trans (h k)

/-- `fetch_sub` in `wake_all_locked`: no other waker has popped anything, since this one holds the lock -/
theorem lowerCount (hx : Exclusive s) {own : Bool} {n : ℕ} (hpc : s.waker id = .popped own n) :
    Counted { s.move id (.finishing own) with waiterCount := s.waiterCount - n } := by
  intro k
  have hid := h id
  have hlock := hx.waker id (by rw [hpc]; rfl)
  rw [hpc] at hid
  have hk : ((s.move id (.finishing own)).waker k).owed = 0 := by
    rw [waker_move]
    split_ifs with he
    · rfl
    · cases hw : s.waker k
      case popped =>
        have := hx.waker k (by rw [hw]; rfl)
        rw [hlock] at this
        cases this
        exact absurd rfl he
      all_goals rfl
  rw [hk]
  exact Nat.le_sub_of_add_le hid

theorem waiterStep (e : Event) : Counted (waiterStep s pid (s.waiter pid) e) := by
  unfold Sync.waiterStep
  split
  case h_6 => exact h.enqueue pid
  case h_10 => exact h.remove pid
  case h_11 => exact h.remove pid
  all_goals first | exact h | (split_ifs <;> exact h)

theorem wakerStep (hx : Exclusive s) (e : Event) : Counted (wakerStep s id (s.waker id) e) := by
  unfold Sync.wakerStep
  split <;> rename_i hpc
  · exact h
  · exact move (s := s.start) h rfl
  · split_ifs
    · exact h.move rfl
    · exact h.move rfl
  · exact h.move rfl
  · split_ifs
    · exact h.move rfl
    · exact h
  · exact move (s := s.start) h rfl
  · exact move (s := s.raise) h rfl
  · exact h.wakeTasks id
  · exact h.lowerCount hx hpc
  · exact h.move rfl
  · exact h.move rfl
  · split_ifs
    · exact h.move rfl
    · exact h
  · exact h.move rfl
  · exact h

theorem step (hx : Exclusive s) (e : Event) : Counted (step s e) := by
  unfold Sync.step
  split
  · exact h.waiterStep _ e
  · exact h.wakerStep hx e
  · split
    · split_ifs <;> exact h
    · exact h

end

end Counted

/-! ## Wake-ups -/

/-- the holder of `SCHEDULER` has found its token current, is not in the queue yet, and a wake-up has started since it
sampled the token -/
def State.exposed (s : State) : Bool :=
  match s.scheduler with
  | some (.waiter pid) => (s.waiter pid).committed && s.later pid
  | _ => false

/-- what a step must meet: no wake-up ends on the fast path while a waiter is exposed, and `sequence` does not come round
to a token -/
def Allowed (s : State) : Event → Prop
  | .loadCount _ => s.waiterCount = 0 → s.exposed = false
  | .check pid => s.bumps - s.sampledAt pid < 2 ^ 64
  | _ => True

instance (s : State) : ∀ e, Decidable (Allowed s e)
  | .loadCount _ => inferInstanceAs (Decidable (s.waiterCount = 0 → s.exposed = false))
  | .check pid => inferInstanceAs (Decidable (s.bumps - s.sampledAt pid < 2 ^ 64))
  | .token _ | .test _ | .lock _ | .block _ _ | .enqueue _ | .unlock _ | .recheck _ | .resume _ | .leave _
  | .makeTrue _ | .bump _ | .acquire _ | .callLocked _ | .rebump _ | .wakeTasks _ | .lowerCount _ | .release _
  | .takeLock _ | .dropLock _ | .clearCondition | .interrupt _ => isTrue trivial

/-- a waiter that a wake-up has started for, and that is in the queue or about to be, has a waker under way -/
def Heard (s : State) : Prop :=
  ∀ pid, s.later pid = true → (pid ∈ s.pids ∨ (s.waiter pid).committed = true) → ∃ id, (s.waker id).active = true

namespace Heard

variable {s : State} {pid id : ℕ} {e : Event}

theorem goto (h : Heard s) {pc : WaiterPc}
    (hpc : pc.committed = true → s.later pid = true → ∃ id, (s.waker id).active = true) : Heard (s.goto pid pc) := by
  intro q hlater hq
  rw [waiter_goto] at hq
  split_ifs at hq with he
  · subst he
    rcases hq with hq | hq
    · exact h q hlater (.inl hq)
    · exact hpc hq hlater
  · exact h q hlater hq

theorem move (h : Heard s) {pc : WakerPc} (hpc : (s.waker id).active = true → pc.active = true) :
    Heard (s.move id pc) := by
  intro q hlater hq
  obtain ⟨k, hk⟩ := h q hlater hq
  refine ⟨k, ?_⟩
  rw [waker_move]
  split_ifs with he
  · subst he; exact hpc hk
  · exact hk

/-- a waker under way is heard by all -/
theorem move_active (s : State) (id : ℕ) {pc : WakerPc} (hpc : pc.active = true) : Heard (s.move id pc) := by
  intro q _ _
  refine ⟨id, ?_⟩
  rw [waker_move, if_pos rfl, hpc]

theorem remove (h : Heard s) (pid : ℕ) : Heard (s.remove pid) := by
  intro q hlater hq
  apply h q hlater
  exact hq.imp_left mem_of_mem_filter

theorem sample (h : Heard s) (pid : ℕ) : Heard (s.sample pid) := by
  intro q hlater hq
  simp only [State.sample, update_apply] at hlater hq
  split_ifs at hlater hq
  exact h q hlater hq

theorem enqueue (h : Heard s) (hpc : s.waiter pid = .blocked) : Heard
    { s.goto pid .queued with waiterCount := s.waiterCount + 1, pids := s.pids ++ [pid] } := by
  intro q hlater hq
  have hgo : Heard (s.goto pid .queued) := h.goto nofun
  rcases hq with hq | hq
  · rcases mem_append.1 hq with hmem | hmem
    · exact hgo q hlater (.inl hmem)
    · cases mem_singleton.1 hmem
      exact h pid hlater (.inr (by rw [hpc]; rfl))
  · exact hgo q hlater (.inr hq)

/-- the sequence check lets no waiter through that a wake-up has started for -/
theorem check (h : Heard s) (hb : Booked s) {token : UInt64} (hpc : s.waiter pid = .locked token)
    (hwrap : s.bumps - s.sampledAt pid < 2 ^ 64) (hcur : s.sequence = token) : Heard (s.goto pid .checked) := by
  apply h.goto
  intro _ hlater
  exact absurd hcur (hb.stale (by rw [hpc]; rfl) hlater hwrap)

/-- the fast path: the queue is empty, and no waiter is about to join it -/
theorem fastPath (hx : Exclusive s) (hc : Counted s) (hzero : s.waiterCount = 0) (hexp : s.exposed = false) {own : Bool} :
    Heard (s.move id (.outside own)) := by
  intro q hlater hq
  rcases hq with hq | hq
  · have hpos := length_pos_of_mem hq
    have hle := hc.pids_le
    simp only [State.move] at hpos
    omega
  · have hlock := hx.waiter q (WaiterPc.inside_of_committed hq)
    have hexp' : ((s.waiter q).committed && s.later q) = false := by
      simpa only [State.exposed, hlock] using hexp
    rw [show (s.waiter q).committed = true from hq, show s.later q = true from hlater] at hexp'
    cases hexp'

theorem wakeTasks (hx : Exclusive s) {own : Bool} (hpc : s.waker id = .rebumped own) {n : ℕ} :
    Heard (s.wakeTasks.move id (.popped own n)) := by
  intro q _ hq
  rcases hq with hq | hq
  · cases hq
  · have h1 := hx.waiter q (WaiterPc.inside_of_committed hq)
    have h2 := hx.waker id (by rw [hpc]; rfl)
    rw [h1] at h2
    cases h2

theorem waiterStep (h : Heard s) (hb : Booked s) (hpid : e.thread = some (.waiter pid)) (ha : Allowed s e) :
    Heard (waiterStep s pid (s.waiter pid) e) := by
  have hnot : ∀ pc : WaiterPc, pc.committed = false → pc.committed = true → s.later pid = true →
      ∃ id, (s.waker id).active = true := fun pc h1 h2 => by rw [h1] at h2; cases h2
  unfold Sync.waiterStep
  split <;> rename_i hpc
  · exact h.sample pid
  · split_ifs
    · exact h.goto (hnot _ rfl)
    · exact h.goto (hnot _ rfl)
  · split_ifs
    · exact h.goto (hnot _ rfl)
    · exact h
  · split_ifs with hcur
    · cases hpid
      exact h.check hb hpc ha hcur
    · exact h.goto (hnot _ rfl)
  · split_ifs
    · exact h.goto (hnot _ rfl)
    · exact h.goto fun _ hlater => h pid hlater (.inr (by rw [hpc]; rfl))
  · exact h.enqueue hpc
  · exact h.goto (hnot _ rfl)
  · split_ifs
    · exact h.goto (hnot _ rfl)
    · exact h.goto (hnot _ rfl)
  · split_ifs
    · exact h.goto (hnot _ rfl)
    · exact h
  · exact (h.remove pid).goto (hnot _ rfl)
  · exact (h.remove pid).goto (hnot _ rfl)
  · exact h

theorem wakerStep (h : Heard s) (hx : Exclusive s) (hc : Counted s) (ha : Allowed s e) :
    Heard (wakerStep s id (s.waker id) e) := by
  have hidle : ∀ pc : WakerPc, (s.waker id).active = false → (s.waker id).active = true → pc.active = true :=
    fun pc h1 h2 => by rw [h1] at h2; cases h2
  unfold Sync.wakerStep
  split <;> rename_i hpc
  · exact h
  · exact move_active s.start id rfl
  · split_ifs with hzero
    · exact fastPath hx hc hzero (ha hzero)
    · exact move_active s id rfl
  · exact move_active s id rfl
  · split_ifs
    · exact move_active s id rfl
    · exact h
  · exact move_active s.start id rfl
  · exact move_active s.raise id rfl
  · exact wakeTasks hx hpc
  · exact h.move (hidle _ (by rw [hpc]; rfl))
  · exact h.move (hidle _ (by rw [hpc]; rfl))
  · exact h.move (hidle _ (by rw [hpc]; rfl))
  · split_ifs
    · exact h.move (hidle _ (by rw [hpc]; rfl))
    · exact h
  · exact h.move (hidle _ (by rw [hpc]; rfl))
  · exact h

theorem step (h : Heard s) (hx : Exclusive s) (hb : Booked s) (hc : Counted s) (ha : Allowed s e) :
    Heard (step s e) := by
  unfold Sync.step
  split
  next hpid => exact h.waiterStep hb hpid ha
  next => exact h.wakerStep hx hc ha
  next =>
    split
    · split_ifs <;> exact h
    · exact h

end Heard

/-! ## Runs -/

structure Inv (s : State) : Prop where
  exclusive : Exclusive s
  booked : Booked s
  counted : Counted s
  heard : Heard s

theorem Inv.init : Inv init where
  exclusive := ⟨nofun, nofun⟩
  booked := ⟨rfl, fun _ => le_rfl, nofun, nofun⟩
  counted := fun _ => le_rfl
  heard := nofun

variable {s : State}

theorem Inv.step {e : Event} (h : Inv s) (ha : Allowed s e) : Inv (step s e) where
  exclusive := h.exclusive.step e
  booked := h.booked.step e
  counted := h.counted.step h.exclusive e
  heard := h.heard.step h.exclusive h.booked h.counted ha

theorem Inv.run {events : List Event} (h : Runs.Each Sync.step Allowed Sync.init events) : Inv (run events) :=
  Runs.invariant (fun _ _ => Inv.step) Inv.init h

/-- every wake-up has returned, one of them started after the waiter sampled its token, and the waiter is in the queue -/
def Lost (s : State) (pid : ℕ) : Prop :=
  (∀ id, (s.waker id).returned = true) ∧ s.task pid = .blocked ∧ pid ∈ s.pids ∧ s.later pid = true

theorem WakerPc.not_active {pc : WakerPc} (h : pc.returned = true) : pc.active = false := by
  cases pc <;> first | rfl | cases h

theorem Inv.not_lost (h : Inv s) (pid : ℕ) : ¬ Lost s pid := by
  rintro ⟨hret, -, hmem, hlater⟩
  obtain ⟨id, hid⟩ := h.heard pid hlater (.inl hmem)
  rw [WakerPc.not_active (hret id)] at hid
  cases hid

/-- **No wake-up is lost** in a run where none ends on the fast path while a waiter is exposed. -/
theorem no_lost_wakeup (events : List Event) (h : Runs.Each step Allowed init events) (pid : ℕ) :
    ¬ Lost (run events) pid :=
  (Inv.run h).not_lost pid

/-- two waiters and three wakers: one wakes both, one comes before the queue has anyone in it, one finds them gone -/
theorem no_lost_wakeup_two : ¬ Lost (run [.token 0, .test 0, .bump 7, .loadCount 7, .lock 0, .check 0, .token 0, .test 0,
    .lock 0, .check 0, .bump 8, .block 0 false, .enqueue 0, .loadCount 8, .unlock 0, .recheck 0, .acquire 8, .token 1,
    .test 1, .rebump 8, .wakeTasks 8, .lowerCount 8, .release 8, .lock 1, .check 1, .resume 0, .leave 0, .bump 9,
    .loadCount 9]) 0 :=
  no_lost_wakeup _ (by decide +kernel) 0

/-- **The fast path loses a wake-up** that falls between the sequence check of a waiter and its enqueueing. -/
theorem fast_path_loses_wakeup : Lost (run [.token 0, .test 0, .lock 0, .check 0, .makeTrue 0, .bump 0, .loadCount 0,
    .block 0 false, .enqueue 0, .unlock 0, .recheck 0]) 0 := by
  refine ⟨?_, by decide +kernel, by decide +kernel, by decide +kernel⟩
  intro id
  cases id <;> rfl

/-- while a waiter is in its section under `SCHEDULER`, it alone takes steps -/
def Undisturbed (s : State) (e : Event) : Prop :=
  (∀ pid, s.scheduler = some (.waiter pid) → e.thread = some (.waiter pid)) ∧
    ∀ pid, e = .check pid → s.bumps - s.sampledAt pid < 2 ^ 64

theorem Undisturbed.allowed {e : Event} (h : Undisturbed s e) : Allowed s e := by
  unfold Allowed
  split
  next id =>
    intro _
    unfold State.exposed
    split
    next pid hlock => cases h.1 pid hlock
    next => rfl
  next pid => exact h.2 pid rfl
  next => trivial

/-- with the section under `SCHEDULER` taken as one step, no wake-up is lost at all -/
theorem no_lost_wakeup_sections (events : List Event) (h : Runs.Each step Undisturbed init events) (pid : ℕ) :
    ¬ Lost (run events) pid :=
  (Inv.run (h.mono fun _ _ => Undisturbed.allowed)).not_lost pid

end Kontsnor.Sync
