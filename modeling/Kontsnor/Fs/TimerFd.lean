/-
Periodic timers (`fs/timerfd.rs`).

**Main result.** `timer_counts_exactly`, however late `check_timers` runs and whenever the timer is read.

There is one timer: `check_timers` treats each in the same way. Ticks do not overflow. Left out: the wait queue, and reads
into less than 8 bytes.
-/
import Kontsnor.Core.Runs

namespace Kontsnor.Fs

open Runs

structure TimerFd where
  expirationTicks : Option ℕ
  intervalTicks : ℕ
  numExpirations : ℕ

namespace TimerFd

variable (timer : TimerFd)

def checkTimers (currentTicks : ℕ) : TimerFd :=
  match timer.expirationTicks with
  | none => timer
  | some ticks =>
    if ticks ≤ currentTicks then
      if 0 < timer.intervalTicks then
        let expirations := 1 + (currentTicks - ticks) / timer.intervalTicks
        { timer with
          numExpirations := timer.numExpirations + expirations
          expirationTicks := some (ticks + expirations * timer.intervalTicks) }
      else { timer with numExpirations := timer.numExpirations + 1, expirationTicks := none }
    else timer

/-- the value is `none` if the call sleeps, or fails with EAGAIN -/
def read : Option ℕ × TimerFd :=
  if 0 < timer.numExpirations then (some timer.numExpirations, { timer with numExpirations := 0 }) else (none, timer)

end TimerFd

/-- a timer, the tick of the last check, and the sum of the values that reads have returned -/
structure Timing where
  timer : TimerFd
  checked : ℕ
  returned : ℕ

namespace Timing

inductive Event
  /-- `elapsed` ticks after the last one -/
  | check (elapsed : ℕ)
  | read

variable (s : Timing)

def step : Event → Timing
  | .check elapsed => { s with timer := s.timer.checkTimers (s.checked + elapsed), checked := s.checked + elapsed }
  | .read => { s with timer := s.timer.read.2, returned := s.returned + s.timer.read.1.getD 0 }

/-- what reads have returned, and what the next one will -/
def count : ℕ := s.returned + s.timer.numExpirations

/-- armed to expire at `t0` first -/
def armed (t0 interval checked : ℕ) : Timing := ⟨⟨some t0, interval, 0⟩, checked, 0⟩

/-- the next expiration is the first that is not counted -/
structure Counted (t0 interval : ℕ) : Prop where
  every : s.timer.intervalTicks = interval
  next : s.timer.expirationTicks = some (t0 + s.count * interval)
  due : s.count = 0 ∨ t0 + s.count * interval ≤ s.checked + interval

variable {s} {t0 interval : ℕ} (h : s.Counted t0 interval)
include h

theorem Counted.read : (s.step .read).Counted t0 interval := by
  unfold step TimerFd.read
  split_ifs
  · exact ⟨h.every, h.next, h.due⟩
  · exact h

theorem Counted.check (hi : 0 < interval) (elapsed : ℕ) : (s.step (.check elapsed)).Counted t0 interval ∧
    s.checked + elapsed < t0 + (s.step (.check elapsed)).count * interval := by
  simp only [step, TimerFd.checkTimers, h.next, h.every, if_pos hi]
  split_ifs with hdue
  · obtain ⟨rest, hrest⟩ := Nat.exists_eq_add_of_le hdue
    have hle := Nat.div_mul_le_self rest interval
    have hlt := Nat.lt_div_mul_add (a := rest) hi
    have hcount : t0 + (s.returned + (s.timer.numExpirations + (1 + rest / interval))) * interval =
        t0 + s.count * interval + (1 + rest / interval) * interval := by
      rw [count]
      ring
    have hlate : (1 + rest / interval) * interval = interval + rest / interval * interval := by ring
    rw [hrest, Nat.add_sub_cancel_left]
    refine ⟨⟨rfl, congrArg some hcount.symm, .inr ?_⟩, ?_⟩
    · exact hcount.trans_le (by dsimp only; omega)
    · exact lt_of_lt_of_eq (by omega) hcount.symm
  · refine ⟨⟨h.every, h.next, h.due.imp_right fun hd => ?_⟩, not_le.1 hdue⟩
    exact hd.trans (by dsimp only; omega)

omit h

/-- **Periodic timers count exactly.** After a check at a tick from the first expiration on, what reads have returned and what they
will return is the number of expirations up to then, and the next one is the first after it. -/
theorem timer_counts_exactly {t0 interval : ℕ} (hi : 0 < interval) (checked : ℕ) (es : List Event) (elapsed : ℕ)
    (hT : t0 ≤ (run step (armed t0 interval checked) es).checked + elapsed) :
    let s := run step (armed t0 interval checked) (es ++ [.check elapsed])
    s.count = 1 + (s.checked - t0) / interval ∧
      ∃ next ∈ s.timer.expirationTicks, IsLeast {t | s.checked < t ∧ ∃ k, t = t0 + k * interval} next := by
  have hrun : (run step (armed t0 interval checked) es).Counted t0 interval := by
    refine List.foldlRecOn (motive := fun s : Timing => s.Counted t0 interval) es step ⟨rfl, ?_, .inl rfl⟩ ?_
    · exact congrArg some (by rw [show count _ = 0 from rfl, zero_mul]; rfl)
    · rintro s h (elapsed | _) -
      · exact (h.check hi elapsed).1
      · exact h.read
  obtain ⟨h, hlt⟩ := hrun.check hi elapsed
  rw [run_concat]
  generalize run step (armed t0 interval checked) es = s at h hlt hT ⊢
  change count _ = 1 + (s.checked + elapsed - t0) / _ ∧ ∃ next ∈ _, IsLeast {t | s.checked + elapsed < t ∧ _} next
  obtain ⟨hevery, hnext, hdue⟩ := h
  generalize (s.step (.check elapsed)).count = n at hlt hnext hdue ⊢
  obtain ⟨j, rfl⟩ : ∃ j, n = j + 1 := Nat.exists_eq_succ_of_ne_zero fun h0 => by rw [h0, zero_mul] at hlt; omega
  have hle : t0 + j * interval ≤ s.checked + elapsed := by
    have hd := hdue.resolve_left (Nat.succ_ne_zero j)
    rw [add_mul, one_mul, ← add_assoc] at hd
    exact Nat.le_of_add_le_add_right hd
  refine ⟨?_, _, hnext, ⟨hlt, j + 1, rfl⟩, ?_⟩
  · rw [add_comm, Nat.div_eq_of_lt_le (k := j)]
    · exact Nat.le_sub_of_add_le' hle
    · exact Nat.sub_lt_left_of_lt_add hT hlt
  · rintro t ⟨ht, i, rfl⟩
    have hlt' : j < i := lt_of_mul_lt_mul_right (Nat.lt_of_add_lt_add_left (hle.trans_lt ht)) (Nat.zero_le interval)
    exact Nat.add_le_add_left (Nat.mul_le_mul_right interval hlt') t0

theorem late_checks_counted : (run step (armed 10 5 0) [.check 12, .read, .check 11]).count = 3 :=
  (timer_counts_exactly (by decide) 0 [.check 12, .read] 11 (by decide)).1

end Timing

end Kontsnor.Fs
