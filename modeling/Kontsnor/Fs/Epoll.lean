/-
Epoll descriptors that watch one another (`fs/epoll.rs`, `sync/wait_queue.rs`).

`sys_epoll_ctl` makes the queue of an epoll descriptor a listener of the queue of what it watches. `wake_all_locked` holds the lock
of a queue's listeners while it wakes them in the same way, and the lock is not reentrant. Nothing looks for cycles.

**Main results.** `wake_all_returns_iff` and `stays_wired_iff`. A cycle is an epoll descriptor that watches a queue which its
own queue wakes, directly or through others.
-/
import Kontsnor.Core.Runs

namespace Kontsnor.Fs

open List Function Relation Runs

/-- the descriptors that an epoll descriptor watches, and the listeners of a queue; a descriptor has the number of its queue -/
structure Epolls where
  items : ℕ → List ℕ
  listeners : ℕ → List ℕ

/-- a call with valid arguments; `target` is the queue of the file that `fd` is open on now -/
inductive EpollCtl
  | add (epoll fd : ℕ) (target : Option ℕ)
  | del (epoll fd : ℕ) (target : Option ℕ)
  | mod (epoll fd : ℕ)

namespace Epolls

def new : Epolls := ⟨fun _ => [], fun _ => []⟩

variable (s : Epolls)

section

variable (queue listener : ℕ)

def addListener : Epolls :=
  if listener ∈ s.listeners queue then s
  else { s with listeners := update s.listeners queue (s.listeners queue ++ [listener]) }

def removeListener : Epolls :=
  { s with listeners := update s.listeners queue ((s.listeners queue).filter (· ≠ listener)) }

def step : EpollCtl → Epolls
  | .add epoll fd target =>
    if fd ∈ s.items epoll then s
    else
      let s := { s with items := update s.items epoll (fd :: s.items epoll) }
      target.elim s (s.addListener · epoll)
  | .del epoll fd target =>
    if fd ∈ s.items epoll then
      let s := { s with items := update s.items epoll ((s.items epoll).erase fd) }
      target.elim s (s.removeListener · epoll)
    else s
  | .mod _ _ => s

/-- whether it returns with calls nested up to `fuel`; the listeners of the queues in `held` are locked -/
def wakeAllLocked (s : Epolls) : ℕ → List ℕ → ℕ → Bool
  | 0, _, _ => false
  | fuel + 1, held, queue =>
    if queue ∈ held then false else (s.listeners queue).all (s.wakeAllLocked fuel (queue :: held))

/-- `pids` tasks wait in the queue -/
def wakeAll (fuel pids queue : ℕ) : Bool :=
  if pids + (s.listeners queue).length = 0 then true else s.wakeAllLocked fuel [] queue

def Returns (queue : ℕ) : Prop := ∀ pids, ∃ fuel, s.wakeAll fuel pids queue = true

def Wakes : Prop := listener ∈ s.listeners queue

end

/-- the queue that is watched is not woken by that of the epoll descriptor -/
def ClosesNoCycle : EpollCtl → Prop
  | .add epoll fd (some queue) => fd ∈ s.items epoll ∨ ¬ReflTransGen s.Wakes epoll queue
  | _ => True

/-- a rank that falls along the wakes -/
def Ranked : Prop := ∃ rank : ℕ → ℕ, ∀ a b, s.Wakes a b → rank b < rank a

variable {s s' : Epolls} {a b queue listener : ℕ}

theorem Ranked.returns (h : s.Ranked) (queue : ℕ) : s.Returns queue := by
  obtain ⟨rank, hrank⟩ := h
  have hlocked : ∀ fuel held q, rank q < fuel → (∀ a ∈ held, rank q < rank a) → s.wakeAllLocked fuel held q = true := by
    intro fuel
    induction fuel with
    | zero => simp
    | succ fuel ih =>
      intro held q hfuel hheld
      rw [wakeAllLocked, if_neg fun h => (hheld q h).false, all_eq_true]
      intro b hb
      have hlt := hrank q b hb
      refine ih _ b (by omega) fun a ha => ?_
      rcases mem_cons.1 ha with rfl | ha
      · exact hlt
      · exact hlt.trans (hheld a ha)
  intro pids
  refine ⟨rank queue + 1, ?_⟩
  unfold wakeAll
  split_ifs
  · rfl
  · exact hlocked _ [] queue (Nat.lt_succ_self _) (by simp)

theorem not_mem_held {fuel : ℕ} {held : List ℕ} (h : s.wakeAllLocked fuel held a = true) (hb : ReflTransGen s.Wakes a b) :
    b ∉ held := by
  induction fuel generalizing held a with
  | zero => cases h
  | succ fuel ih =>
    rw [wakeAllLocked] at h
    split_ifs at h with hmem
    rcases hb.cases_head with rfl | ⟨c, hc, hb⟩
    · exact hmem
    · exact fun hheld => ih (all_eq_true.1 h c hc) hb (mem_cons_of_mem a hheld)

/-- a queue that wakes itself takes its own lock twice -/
theorem Returns.no_cycle (h : s.Returns a) (hab : s.Wakes a b) : ¬ReflTransGen s.Wakes b a := by
  intro hba
  obtain ⟨fuel, hfuel⟩ := h 0
  rw [wakeAll, if_neg (by have := length_pos_of_mem hab; omega)] at hfuel
  cases fuel with
  | zero => cases hfuel
  | succ fuel =>
    exact not_mem_held (all_eq_true.1 hfuel b hab) hba mem_cons_self

theorem wakes_addListener : (s.addListener queue listener).Wakes a b ↔ s.Wakes a b ∨ a = queue ∧ b = listener := by
  unfold addListener Wakes
  split_ifs with hmem
  · exact (or_iff_left_of_imp fun h => h.1 ▸ h.2 ▸ hmem).symm
  · by_cases ha : a = queue
    · simp [ha]
    · simp [ha]

theorem wakes_removeListener : (s.removeListener queue listener).Wakes a b ↔ s.Wakes a b ∧ ¬(a = queue ∧ b = listener) := by
  unfold removeListener Wakes
  by_cases ha : a = queue
  · simp [ha]
  · simp [ha]

theorem Ranked.addListener (h : s.Ranked) (hno : ¬ReflTransGen s.Wakes listener queue) : (s.addListener queue listener).Ranked := by
  classical
  obtain ⟨rank, hrank⟩ := h
  -- what wakes the queue is lifted above the listener
  refine ⟨fun a => if ReflTransGen s.Wakes a queue then rank a + rank listener + 1 else rank a, fun a b hab => ?_⟩
  dsimp only
  rcases wakes_addListener.1 hab with hab | ⟨rfl, rfl⟩
  · have hlt := hrank a b hab
    by_cases hb : ReflTransGen s.Wakes b queue
    · rw [if_pos hb, if_pos (.head hab hb)]
      omega
    · rw [if_neg hb]
      split_ifs <;> omega
  · rw [if_neg hno, if_pos .refl]
    omega

theorem ranked_step (h : s.Ranked) {e : EpollCtl} (hC : s.ClosesNoCycle e) : (s.step e).Ranked := by
  cases e with
  | add epoll fd target =>
    dsimp only [step]
    split_ifs with hfd
    · exact h
    · cases target with
      | none => exact h
      | some queue => exact Ranked.addListener (s := { s with items := _ }) h (hC.resolve_left hfd)
  | del epoll fd target =>
    dsimp only [step]
    split_ifs
    · cases target with
      | none => exact h
      | some queue =>
        obtain ⟨rank, hrank⟩ := h
        exact ⟨rank, fun a b hab => hrank a b (wakes_removeListener.1 hab).1⟩
    · exact h
  | mod epoll fd => exact h

theorem closesNoCycle_of_returns {e : EpollCtl} (h : ∀ queue, (s.step e).Returns queue) : s.ClosesNoCycle e := by
  cases e with
  | add epoll fd target =>
    cases target with
    | none => trivial
    | some queue =>
      refine or_iff_not_imp_left.2 fun hfd hpath => ?_
      have hret := h queue
      simp only [step, if_neg hfd] at hret
      refine hret.no_cycle (wakes_addListener.2 (.inr ⟨rfl, rfl⟩)) (ReflTransGen.mono (fun a b hab => ?_) _ _ hpath)
      exact wakes_addListener.2 (.inl hab)
  | del epoll fd target => trivial
  | mod epoll fd => trivial

/-- **Wake-ups.** After every call of a sequence every `wake_all` returns, if and only if no call closes a cycle. -/
theorem wake_all_returns_iff (es : List EpollCtl) :
    Each step (fun s e => ∀ queue, (s.step e).Returns queue) new es ↔ Each step ClosesNoCycle new es := by
  refine ⟨fun h => h.mono fun s e => closesNoCycle_of_returns, fun h => ?_⟩
  refine each_of_invariant (I := Ranked) (fun s e hs => ranked_step hs) (fun s e hs he => (ranked_step hs he).returns) ?_ h
  exact ⟨fun _ => 0, fun a b hab => absurd hab not_mem_nil⟩

/-- an epoll descriptor that watches itself -/
theorem self_watch_hangs : ¬(new.step (.add 0 3 (some 0))).Returns 0 :=
  fun h => h.no_cycle (show 0 ∈ _ by decide) .refl

/-! ## The items -/

section

variable {epoll fd : ℕ} {target : Option ℕ}

theorem wakes_add (hfd : fd ∉ s.items epoll) :
    (s.step (.add epoll fd target)).Wakes a b ↔ s.Wakes a b ∨ a ∈ target ∧ b = epoll := by
  simp only [step, if_neg hfd]
  cases target with
  | none => simp [Wakes]
  | some queue =>
    refine wakes_addListener.trans ?_
    simp [Wakes, eq_comm]

theorem wakes_del (hfd : fd ∈ s.items epoll) :
    (s.step (.del epoll fd target)).Wakes a b ↔ s.Wakes a b ∧ ¬(a ∈ target ∧ b = epoll) := by
  simp only [step, if_pos hfd]
  cases target with
  | none => simp [Wakes]
  | some queue =>
    refine wakes_removeListener.trans ?_
    simp [Wakes, eq_comm]

end

end Epolls

/-- with the queue of the file that each item, an epoll descriptor and a number, was added for -/
structure Watches where
  epolls : Epolls
  watched : ℕ × ℕ → Option ℕ

namespace Watches

open Epolls

def new : Watches := ⟨Epolls.new, fun _ => none⟩

variable (w : Watches)

def step (e : EpollCtl) : Watches where
  epolls := w.epolls.step e
  watched := match e with
    | .add epoll fd target => if fd ∈ w.epolls.items epoll then w.watched else update w.watched (epoll, fd) target
    | .del epoll fd _ => if fd ∈ w.epolls.items epoll then update w.watched (epoll, fd) none else w.watched
    | .mod .. => w.watched

/-- the queues of all items wake those of their epoll descriptors -/
def Wired : Prop := ∀ item, ∀ queue ∈ w.watched item, w.epolls.Wakes queue item.1

/-- no other item watches the queue that loses its listener -/
def SparesOthers : EpollCtl → Prop
  | .del epoll fd target => fd ∈ w.epolls.items epoll → ∀ other ≠ fd, ∀ queue ∈ w.watched (epoll, other), queue ∉ target
  | _ => True

variable {w} {e : EpollCtl}

theorem wired_step (h : w.Wired) (he : w.SparesOthers e) : (w.step e).Wired := by
  cases e with
  | add epoll fd target =>
    by_cases hfd : fd ∈ w.epolls.items epoll
    · simpa only [step, Epolls.step, if_pos hfd] using h
    · intro item queue hq
      simp only [step, if_neg hfd, update_apply] at hq
      refine (wakes_add hfd).2 ?_
      split_ifs at hq with hitem
      · exact .inr ⟨hq, congrArg Prod.fst hitem⟩
      · exact .inl (h item queue hq)
  | del epoll fd target =>
    by_cases hfd : fd ∈ w.epolls.items epoll
    · rintro ⟨epoll', other⟩ queue hq
      simp only [step, if_pos hfd, update_apply] at hq
      split_ifs at hq with hitem
      · cases hq
      · refine (wakes_del hfd).2 ⟨h _ queue hq, ?_⟩
        rintro ⟨htarget, rfl⟩
        exact he hfd other (fun hother => hitem (by rw [hother])) queue hq htarget
    · simpa only [step, Epolls.step, if_neg hfd] using h
  | mod epoll fd => exact h

theorem sparesOthers_of_wired (h : (w.step e).Wired) : w.SparesOthers e := by
  cases e with
  | del epoll fd target =>
    intro hfd other hne queue hq htarget
    have hwakes := h (epoll, other) queue (by simpa [step, hfd, hne] using hq)
    exact ((wakes_del hfd).1 hwakes).2 ⟨htarget, rfl⟩
  | add epoll fd target => trivial
  | mod epoll fd => trivial

/-- **Registrations.** After every call of a sequence all items are wired, if and only if no call removes the listener that another
item needs. -/
theorem stays_wired_iff (es : List EpollCtl) : Each step (fun w e => (w.step e).Wired) new es ↔ Each step SparesOthers new es := by
  refine ⟨fun h => h.mono fun w e => sparesOthers_of_wired, fun h => ?_⟩
  refine each_of_invariant (I := Wired) (fun w e => wired_step) (fun w e => wired_step) ?_ h
  exact nofun

/-- two descriptors of one file: without the first the second is not heard of any more -/
theorem duplicate_unwired : ¬Wired (run step new [.add 0 3 (some 1), .add 0 4 (some 1), .del 0 3 (some 1)]) := by
  intro h
  exact absurd (h (0, 4) 1 rfl) (by unfold Wakes; decide)

end Watches

end Kontsnor.Fs
