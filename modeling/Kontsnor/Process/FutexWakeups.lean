/-
No lost wakeup between FUTEX_WAIT and FUTEX_WAKE.

The setting is a word, a key and an expected value: who waits under the key waits on this word for this value to change, and who
stores to the word stores another value and calls FUTEX_WAKE afterwards, for at least as many waiters as there are (`Obeys`). All
other calls of the threads, preemptions, ticks, wake-ups and exits happen at any time.

**Main results.** `no_lost_futex_wakeup` and, on threads whose entry has been taken out, `no_waiter_blocked`.
-/
import Kontsnor.Process.Exclusion
import Kontsnor.Process.Futex

namespace Kontsnor.Process

open Runs Futex List Function Kernel

/-! ## Taking waiters out -/

namespace Futex

section

variable (n : ℕ) (bits : BitVec 32) (queue : List FutexWaiter) (pids : List ℕ)

theorem takeWaiters_length : (takeWaiters n bits pids queue).1.length ≤ pids.length + queue.length := by
  induction queue generalizing pids with
  | nil => exact le_rfl
  | cons w queue ih =>
    rw [takeWaiters]
    split_ifs
    · have hrest := ih (pids ++ [w.pid])
      simp only [length_append, length_cons, length_nil] at hrest ⊢
      omega
    · have hrest := ih pids
      simp only [length_cons]
      omega
    · simp

theorem takeWaiters_sublist : (takeWaiters n bits pids queue).2.Sublist queue := by
  induction queue generalizing pids with
  | nil => exact Sublist.refl _
  | cons w queue ih =>
    rw [takeWaiters]
    split_ifs
    · exact (ih _).cons w
    · exact (ih _).cons_cons w
    · exact Sublist.refl _

theorem takeWaiters_taken :
    pids ⊆ (takeWaiters n bits pids queue).1 ∧
      ∀ w ∈ queue, w ∈ (takeWaiters n bits pids queue).2 ∨ w.pid ∈ (takeWaiters n bits pids queue).1 := by
  induction queue generalizing pids with
  | nil => exact ⟨fun pid h => h, nofun⟩
  | cons w queue ih =>
    rw [takeWaiters]
    split_ifs
    · obtain ⟨hpids, hrest⟩ := ih (pids ++ [w.pid])
      refine ⟨fun pid h => hpids (mem_append_left _ h), fun other hmem => ?_⟩
      rcases mem_cons.1 hmem with rfl | hmem
      · exact .inr (hpids (mem_append_right _ (mem_singleton_self _)))
      · exact hrest other hmem
    · obtain ⟨hpids, hrest⟩ := ih pids
      refine ⟨hpids, fun other hmem => ?_⟩
      rcases mem_cons.1 hmem with rfl | hmem
      · exact .inl mem_cons_self
      · exact (hrest other hmem).imp_left (mem_cons_of_mem w)
    · exact ⟨fun pid h => h, fun other hmem => .inl hmem⟩

end

theorem and_match_any (bits : BitVec 32) : bits &&& MATCH_ANY = bits := BitVec.and_allOnes

/-- a queue that is not longer than what is still asked for is emptied -/
theorem takeWaiters_all (n : ℕ) (queue : List FutexWaiter) (pids : List ℕ) (h : pids.length + queue.length ≤ n) :
    (takeWaiters n MATCH_ANY pids queue).2 = [] := by
  induction queue generalizing pids with
  | nil => rfl
  | cons w queue ih =>
    rw [length_cons] at h
    rw [takeWaiters, if_pos (by omega), and_match_any, if_pos w.nonzero]
    apply ih
    rw [length_append, length_singleton]
    omega

section

variable {queues queues' queues'' : Queues} {pids pids' all : List ℕ}

/-- waiters leave the queues, and who has left is in the list -/
structure Taken (queues queues' : Queues) (pids : List ℕ) : Prop where
  sublist : ∀ key, (queues' key).Sublist (queues key)
  taken : ∀ key, ∀ w ∈ queues key, w ∈ queues' key ∨ w.pid ∈ pids

theorem Taken.refl : Taken queues queues pids := ⟨fun _ => Sublist.refl _, fun _ _ hw => .inl hw⟩

theorem Taken.trans (h : Taken queues queues' pids) (h' : Taken queues' queues'' pids') (hpids : pids ⊆ all)
    (hpids' : pids' ⊆ all) : Taken queues queues'' all where
  sublist key := (h'.sublist key).trans (h.sublist key)
  taken key w hw := by
    rcases h.taken key w hw with hleft | hpid
    · exact (h'.taken key w hleft).imp_right fun hpid => hpids' hpid
    · exact .inr (hpids hpid)

theorem Taken.update {k : FutexKey} {queue : List FutexWaiter} (hsub : queue.Sublist (queues k))
    (htaken : ∀ w ∈ queues k, w ∈ queue ∨ w.pid ∈ pids) : Taken queues (update queues k queue) pids := by
  refine ⟨fun key => ?_, fun key w hw => ?_⟩
  · by_cases hk : key = k
    · rw [hk, update_self]
      exact hsub
    · rw [update_of_ne hk]
  · by_cases hk : key = k
    · rw [hk] at hw ⊢
      rw [update_self]
      exact htaken w hw
    · rw [update_of_ne hk]
      exact .inl hw

end

theorem drain_taken (n : ℕ) (bits : BitVec 32) (keys : List FutexKey) (pids : List ℕ) (queues : Queues) :
    pids ⊆ (drain n bits keys pids queues).1 ∧
      Taken queues (drain n bits keys pids queues).2 (drain n bits keys pids queues).1 := by
  induction keys generalizing pids queues with
  | nil => exact ⟨fun pid h => h, .refl⟩
  | cons k keys ih =>
    rw [drain]
    split_ifs
    · exact ⟨fun pid h => h, .refl⟩
    · obtain ⟨hpids, htaken⟩ := takeWaiters_taken n bits (queues k) pids
      obtain ⟨hpids', hrest⟩ := ih (takeWaiters n bits pids (queues k)).1
        (update queues k (takeWaiters n bits pids (queues k)).2)
      refine ⟨fun pid h => hpids' (hpids h), ?_⟩
      exact (Taken.update (takeWaiters_sublist ..) htaken).trans hrest hpids' fun pid h => h

/-- the waiters whose turn comes no later than that of the last one under `key` -/
def ahead (keys : List FutexKey) (key : FutexKey) (queues : Queues) : ℕ :=
  ((keys.takeWhile fun k => k ≠ key).map fun k => (queues k).length).sum + (queues key).length

variable {queues queues' : Queues} {pids : List ℕ}

theorem Taken.ahead_le (h : Taken queues queues' pids) (keys : List FutexKey)
    (key : FutexKey) : ahead keys key queues' ≤ ahead keys key queues := by
  unfold ahead
  gcongr with other
  · exact sum_le_sum fun k _ => (h.sublist k).length_le
  · exact (h.sublist key).length_le

theorem drain_empties {n : ℕ} {key : FutexKey} (keys : List FutexKey) (pids : List ℕ) (queues : Queues) (hmem : key ∈ keys)
    (h : pids.length + ahead keys key queues ≤ n) : (drain n MATCH_ANY keys pids queues).2 key = [] := by
  induction keys generalizing pids queues with
  | nil => cases hmem
  | cons k keys ih =>
    rw [drain]
    by_cases hn : n ≤ pids.length
    · rw [if_pos hn, ← length_eq_zero_iff]
      unfold ahead at h
      dsimp only
      omega
    rw [if_neg hn]
    dsimp only
    by_cases hk : key = k
    · subst hk
      have hown : (queues key).length ≤ ahead (key :: keys) key queues := Nat.le_add_left ..
      have hall := takeWaiters_all n (queues key) pids (by omega)
      have hsub := (drain_taken n MATCH_ANY keys (takeWaiters n MATCH_ANY pids (queues key)).1
        (update queues key (takeWaiters n MATCH_ANY pids (queues key)).2)).2.sublist key
      rw [update_self, hall] at hsub
      rw [hall]
      exact sublist_nil.1 hsub
    · have hahead : ahead (k :: keys) key queues = (queues k).length + ahead keys key queues := by
        have htake : (k :: keys).takeWhile (fun k => k ≠ key) = k :: keys.takeWhile fun k => k ≠ key :=
          takeWhile_cons_of_pos (decide_eq_true (Ne.symm hk))
        rw [ahead, htake, map_cons, sum_cons, ahead, Nat.add_assoc]
      have hlen := takeWaiters_length n MATCH_ANY (queues k) pids
      have hless := (Taken.update (takeWaiters_sublist n MATCH_ANY (queues k) pids)
        (takeWaiters_taken n MATCH_ANY (queues k) pids).2).ahead_le keys key
      exact ih _ _ ((mem_cons.1 hmem).resolve_left hk) (by omega)

theorem checkTimeouts_taken {now : UInt64} {keys : List FutexKey} (queues : Queues) :
    Taken queues (checkTimeouts now keys queues).2 (checkTimeouts now keys queues).1 := by
  induction keys generalizing queues with
  | nil => exact .refl
  | cons k keys ih =>
    refine (Taken.update filter_sublist fun w hw => ?_).trans (ih _) (subset_append_left ..) (subset_append_right ..)
    cases hdue : overdue now w with
    | true => exact .inr (mem_map_of_mem (mem_filter.2 ⟨hw, hdue⟩))
    | false => exact .inl (mem_filter.2 ⟨hw, by rw [hdue]; rfl⟩)

theorem taken_filter (queues : Queues) (k : FutexKey) (pid : ℕ) :
    Taken queues (update queues k ((queues k).filter fun w => w.pid ≠ pid)) [pid] := by
  refine Taken.update filter_sublist fun w hw => ?_
  by_cases hpid : w.pid = pid
  · exact .inr (mem_singleton.2 hpid)
  · exact .inl (mem_filter.2 ⟨hw, decide_eq_true hpid⟩)

theorem futexWait_ok {pid : ℕ} {now : Clock} {args : WaitArgs} {w : Wait} (h : futexWait pid now args = .ok w) :
    w.key = getFutexKey args.place args.op ∧ w.word = args.word ∧ w.val = args.val ∧ w.waiter.pid = pid := by
  unfold futexWait at h
  cases hbits : bitset 9 args.op args.val3 with
  | error e =>
    rw [hbits] at h
    cases h
  | ok bits =>
    cases hdue : deadline now args.op args.timeout with
    | error e =>
      rw [hbits, hdue] at h
      cases h
    | ok due =>
      rw [hbits, hdue] at h
      cases h
      exact ⟨rfl, rfl, rfl, rfl⟩

theorem futexWake_ok {args : WakeArgs} (h : futexWake args queues = .ok (pids, queues')) :
    ∃ bits, bitset 10 args.op args.val3 = .ok bits ∧
      (pids, queues') = drain (valToWake args.val) bits.1 (keysToWake args.place args.op) [] queues := by
  unfold futexWake at h
  cases hbits : bitset 10 args.op args.val3 with
  | error e =>
    rw [hbits] at h
    cases h
  | ok bits =>
    rw [hbits] at h
    exact ⟨bits, rfl, (Except.ok.inj h).symm⟩

theorem bitset_wake {op val3 : BitVec 32} (h : cmd op = 1) : bitset 10 op val3 = .ok ⟨MATCH_ANY, by decide⟩ := by
  rw [bitset, if_neg]
  rw [h]
  decide

end Futex

namespace Futexes

variable {Cpu : Type}

/-! ## What a step does -/

section Moves

variable [Fintype Cpu] [DecidableEq Cpu]

inductive Moved (s : Futexes Cpu) : Event Cpu → Futexes Cpu → Prop
  | stays (e : Event Cpu) : Moved s e s
  | enters {c : Cpu} {now : Clock} {args : WaitArgs} {pid : ℕ} {w : Wait} (hrun : s.running c = some (pid, .user))
      (hw : futexWait pid now args = .ok w) (hval : s.word w.word = w.val) :
      Moved s (.wait c now args) (s.moveTo pid (.entered w))
  | queues {c : Cpu} {pid : ℕ} {w : Wait} (hrun : s.running c = some (pid, .entered w)) (hval : s.word w.word = w.val) :
      Moved s (.enqueue c) (moveTo { s with
        queues := update s.queues w.key (s.queues w.key ++ [w.waiter])
        kernel := s.kernel.setState pid .blocked } pid (.marked w))
  | again {c : Cpu} {pid : ℕ} {w : Wait} (hrun : s.running c = some (pid, .entered w)) :
      Moved s (.enqueue c) (s.moveTo pid .user)
  | sleeps {c : Cpu} {locks : Contention} {pid : ℕ} {w : Wait} (hrun : s.running c = some (pid, .marked w)) :
      Moved s (.block c locks) (moveTo { s with kernel := (s.kernel.schedule c locks).1 } pid (.asleep w))
  | leaves {c : Cpu} {pid : ℕ} {w : Wait} (hrun : s.running c = some (pid, .asleep w)) :
      Moved s (.dequeue c) (moveTo { s with
        queues := update s.queues w.key ((s.queues w.key).filter fun other => other.pid ≠ pid) } pid .user)
  | stores {c : Cpu} {word : ℕ} {val : Int32} {pid : ℕ} (hrun : s.running c = some (pid, .user)) :
      Moved s (.store c word val) (moveTo { s with word := update s.word word val } pid (.stored word))
  | drains {c : Cpu} {args : WakeArgs} {pid : ℕ} {stage : Stage} {pids : List ℕ} {queues : Queues}
      (hrun : s.running c = some (pid, stage)) (hstage : stage = .user ∨ ∃ word, stage = .stored word)
      (hwake : futexWake args s.queues = .ok (pids, queues)) :
      Moved s (.drain c args) (moveTo { s with queues := queues } pid (.drained pids))
  | fails {c : Cpu} {args : WakeArgs} {pid : ℕ} {stage : Stage} {e : Errno} (hrun : s.running c = some (pid, stage))
      (hstage : stage = .user ∨ ∃ word, stage = .stored word) (hwake : futexWake args s.queues = .error e) :
      Moved s (.drain c args) (s.moveTo pid .user)
  | rouses {c : Cpu} {pid : ℕ} {pids : List ℕ} (hrun : s.running c = some (pid, .drained pids)) :
      Moved s (.rouse c) (moveTo { s with kernel := s.kernel.wakeAll pids } pid .user)
  | preempts {c : Cpu} {locks : Contention} :
      Moved s (.preempt c locks) { s with kernel := (s.kernel.schedule c locks).1 }
  | ticks {c : Cpu} {now : UInt64} {keys : List FutexKey} {expired : List ℕ} {locked : ℕ → Bool} :
      Moved s (.tick c now keys expired locked) { s with
        queues := (checkTimeouts now keys s.queues).2
        kernel := s.kernel.tick c ((checkTimeouts now keys s.queues).1 ++ expired) locked }
  | exits {pid : ℕ} {exitCode : Int32} {locked : ℕ → Bool} {wakes : ExitWakes} :
      Moved s (.exit pid exitCode locked wakes) { s with
        queues := drainPid pid s.queues
        kernel := s.kernel.exitTask pid exitCode locked wakes }
  | kernel {e : Kernel.Event Cpu} : Moved s (.other e) { s with kernel := s.kernel.step e }

theorem moved_step (s : Futexes Cpu) (e : Event Cpu) : Moved s e (s.step e) := by
  cases e with
  | wait c now args =>
    dsimp only [step]
    split
    next pid hrun =>
      cases hw : futexWait pid now args with
      | error e => exact .stays _
      | ok w =>
        dsimp only
        split_ifs with hval
        · exact .enters hrun hw hval
        · exact .stays _
    next => exact .stays _
  | enqueue c =>
    dsimp only [step]
    split
    next pid w hrun =>
      split_ifs with hval
      · exact .queues hrun hval
      · exact .again hrun
    next => exact .stays _
  | block c locks =>
    dsimp only [step]
    split
    next pid w hrun => exact .sleeps hrun
    next => exact .stays _
  | dequeue c =>
    dsimp only [step]
    split
    next pid w hrun => exact .leaves hrun
    next => exact .stays _
  | store c word val =>
    dsimp only [step]
    split
    next pid hrun => exact .stores hrun
    next => exact .stays _
  | drain c args =>
    dsimp only [step]
    split
    next pid hrun =>
      cases hwake : futexWake args s.queues with
      | error e => exact .fails hrun (.inl rfl) hwake
      | ok r => exact .drains hrun (.inl rfl) hwake
    next pid word hrun =>
      cases hwake : futexWake args s.queues with
      | error e => exact .fails hrun (.inr ⟨word, rfl⟩) hwake
      | ok r => exact .drains hrun (.inr ⟨word, rfl⟩) hwake
    next => exact .stays _
  | rouse c =>
    dsimp only [step]
    split
    next pid pids hrun => exact .rouses hrun
    next => exact .stays _
  | preempt c locks => exact .preempts
  | tick c now keys expired locked => exact .ticks
  | exit pid exitCode locked wakes => exact .exits
  | other e => exact .kernel

end Moves

/-! ## Statement -/

variable (s : Futexes Cpu)

def Blocked (pid : ℕ) : Prop := ∃ t, s.kernel.task pid = some t ∧ t.state = .blocked

def QueuedOn (key : FutexKey) (pid : ℕ) : Prop := ∃ w ∈ s.queues key, w.pid = pid

/-- between the store to a word and the return of the FUTEX_WAKE that follows, or in another FUTEX_WAKE -/
def Waking (pid : ℕ) : Prop :=
  match s.stage pid with
  | .stored _ | .drained _ => True
  | _ => False

instance (s : Futexes Cpu) (pid : ℕ) : Decidable (Waking s pid) := by
  unfold Waking
  split <;> infer_instance

/-- who waits under the key waits for the word to differ from `val`; who stores to the word makes it differ, and then calls
FUTEX_WAKE on the key for at least as many waiters as there are -/
def Obeys (word : ℕ) (key : FutexKey) (val : Int32) (s : Futexes Cpu) : Event Cpu → Prop
  | .wait _ _ args => getFutexKey args.place args.op = key → args.word = word ∧ args.val = val
  | .store _ word' val' => word' = word → val' ≠ val
  | .drain c args => ∀ pid, s.running c = some (pid, .stored word) → cmd args.op = 1 ∧
      key ∈ keysToWake args.place args.op ∧ ahead (keysToWake args.place args.op) key s.queues ≤ valToWake args.val
  | _ => True

/-! ## Waiters are covered -/

variable {s s' : Futexes Cpu}

variable {pid : ℕ} {stage : Stage} {c : Cpu}

theorem stage_of_running (h : s.running c = some (pid, stage)) : s.stage pid = stage := by
  obtain ⟨other, -, heq⟩ := Option.map_eq_some_iff.1 h
  cases heq
  rfl

theorem stage_at (pid other : ℕ) :
    (s.moveTo pid stage).stage other = if other = pid then stage else s.stage other := update_apply ..

/-- nobody is queued without a reason to expect a wake-up -/
structure Covered (word : ℕ) (key : FutexKey) (val : Int32) (s : Futexes Cpu) : Prop where
  calls : ∀ pid w, s.stage pid = .entered w → w.key = key → w.word = word ∧ w.val = val
  covered : s.queues key = [] ∨ s.word word = val ∨ ∃ pid, s.stage pid = .stored word

variable {word : ℕ} {key : FutexKey} {val : Int32}

section

variable (h : Covered word key val s)
include h

theorem Covered.shrink (hstage : s'.stage = s.stage)
    (hqueue : (s'.queues key).Sublist (s.queues key)) (hword : s'.word = s.word) : Covered word key val s' := by
  refine ⟨fun pid w hw => h.calls pid w (hstage ▸ hw), ?_⟩
  rw [hstage, hword]
  refine h.covered.imp_left fun hnil => ?_
  rw [hnil] at hqueue
  exact sublist_nil.1 hqueue

theorem Covered.move (hs' : s'.stage = update s.stage pid stage)
    (hcalls : ∀ w, stage = .entered w → w.key = key → w.word = word ∧ w.val = val)
    (hcovered : s'.queues key = [] ∨ s'.word word = val ∨ ∃ pid, s'.stage pid = .stored word) : Covered word key val s' := by
  refine ⟨fun other w hw => ?_, hcovered⟩
  rw [hs', update_apply] at hw
  split_ifs at hw
  · exact hcalls w hw
  · exact h.calls other w hw

/-- the thread has not stored, and the queue gets no longer -/
theorem Covered.pass {old : Stage} (hrun : s.running c = some (pid, old))
    (hold : old ≠ .stored word) (hs' : s'.stage = update s.stage pid stage)
    (hcalls : ∀ w, stage = .entered w → w.key = key → w.word = word ∧ w.val = val)
    (hqueue : (s'.queues key).Sublist (s.queues key)) (hword : s'.word word = s.word word) : Covered word key val s' := by
  refine h.move hs' hcalls ?_
  rcases h.covered with hnil | hval | ⟨other, hother⟩
  · rw [hnil] at hqueue
    exact .inl (sublist_nil.1 hqueue)
  · exact .inr (.inl (hword.trans hval))
  · refine .inr (.inr ⟨other, ?_⟩)
    rw [hs', update_of_ne]
    · exact hother
    · rintro rfl
      exact hold ((stage_of_running hrun).symm.trans hother)

end

section Steps

variable [Fintype Cpu] [DecidableEq Cpu] (s : Futexes Cpu) (e : Event Cpu)

/-- **Step.** While a waiter is queued under the key, the word is as it expects or a waker is on its way. -/
theorem covered_step (h : Covered word key val s) (he : Obeys word key val s e) : Covered word key val (s.step e) := by
  have hmoved := moved_step s e
  generalize s.step e = s' at hmoved ⊢
  cases hmoved with
  | stays => exact h
  | @enters c now args pid w hrun hw hval =>
    obtain ⟨hkey, hword, hexp, -⟩ := futexWait_ok hw
    refine h.pass hrun nofun rfl (fun w' hw' hkey' => ?_) (.refl _) rfl
    cases hw'
    rw [hword, hexp]
    exact he (hkey.symm.trans hkey')
  | @queues c pid w hrun hval =>
    by_cases hkey : w.key = key
    · obtain ⟨hword, hexp⟩ := h.calls pid w (stage_of_running hrun) hkey
      refine h.move rfl nofun (.inr (.inl ?_))
      rw [← hword, ← hexp]
      exact hval
    · refine h.pass hrun nofun rfl nofun ?_ rfl
      change (update s.queues w.key _ key).Sublist _
      rw [update_of_ne (Ne.symm hkey)]
  | again hrun | sleeps hrun | rouses hrun =>
    exact h.pass hrun nofun rfl nofun (.refl _) rfl
  | @leaves c pid w hrun =>
    refine h.pass hrun nofun rfl nofun ?_ rfl
    exact (taken_filter s.queues w.key pid).sublist key
  | @stores c word' val' pid hrun =>
    by_cases hword : word' = word
    · refine h.move rfl nofun (.inr (.inr ⟨pid, ?_⟩))
      rw [stage_at, if_pos rfl, hword]
    · refine h.pass hrun nofun rfl nofun (.refl _) ?_
      exact update_of_ne (Ne.symm hword) val' s.word
  | @drains c args pid stage pids queues hrun hstage hwake =>
    obtain ⟨bits, hbits, hdrain⟩ := futexWake_ok hwake
    have hqueues : queues = (drain (valToWake args.val) bits.1 (keysToWake args.place args.op) [] s.queues).2 :=
      congrArg Prod.snd hdrain
    by_cases hstored : stage = .stored word
    · -- this is the wake-up that the waiters have been waiting for
      subst hstored
      obtain ⟨hcmd, hmem, hcount⟩ := he pid hrun
      rw [bitset_wake hcmd] at hbits
      cases hbits
      refine h.move rfl nofun (.inl ?_)
      rw [hqueues]
      exact drain_empties _ [] s.queues hmem (by rwa [length_nil, Nat.zero_add])
    · refine h.pass hrun hstored rfl nofun ?_ rfl
      rw [hqueues]
      exact (drain_taken ..).2.sublist key
  | @fails c args pid stage e hrun hstage hwake =>
    refine h.pass hrun ?_ rfl nofun (.refl _) rfl
    rintro rfl
    obtain ⟨hcmd, -⟩ := he pid hrun
    rw [futexWake, bitset_wake hcmd] at hwake
    cases hwake
  | preempts | kernel => exact ⟨h.calls, h.covered⟩
  | ticks => exact h.shrink rfl ((checkTimeouts_taken ..).sublist key) rfl
  | exits => exact h.shrink rfl filter_sublist rfl

theorem word_step (h : s.word word ≠ val) (he : Obeys word key val s e) : (s.step e).word word ≠ val := by
  have hmoved := moved_step s e
  generalize s.step e = s' at hmoved ⊢
  cases hmoved with
  | @stores c word' val' pid hrun =>
    change update s.word word' val' word ≠ val
    by_cases hword : word' = word
    · rw [hword, update_self]
      exact he hword
    · rw [update_of_ne (Ne.symm hword)]
      exact h
  | _ => exact h

end Steps

/-! ## Waiters are woken -/

variable {t : Task}

theorem unblocked_wakeTask (k : Kernel Cpu) (pid : ℕ) (ht : (k.wakeTask pid).1.task pid = some t) :
    t.state ≠ .blocked := by
  unfold wakeTask at ht
  cases hk : k.task pid with
  | none =>
    rw [hk] at ht
    cases hk.symm.trans ht
  | some u =>
    rw [hk] at ht
    dsimp only at ht
    split_ifs at ht with hb hr
    · rw [task_setTask, if_pos rfl, task_enqueueOnce, hk] at ht
      cases ht
      exact nofun
    · rw [task_setTask, if_pos rfl, task_enqueueOnce, hk] at ht
      cases ht
      rw [hr.1]
      decide
    · cases hk.symm.trans ht
      exact hb

theorem unblocked_wakeAll (pids : List ℕ) (k : Kernel Cpu) (hmem : pid ∈ pids)
    (ht : (k.wakeAll pids).task pid = some t) : t.state ≠ .blocked := by
  induction pids generalizing k with
  | nil => cases hmem
  | cons other pids ih =>
    rcases mem_cons.1 hmem with rfl | hmem
    · have hquiet : Quiet (k.wakeTask pid).1 (k.wakeAll (pid :: pids)) := quiet_wakeAll _ pids
      obtain ⟨u, hu, -, hb⟩ := hquiet.bland.tasks pid t ht
      exact fun hblocked => unblocked_wakeTask k pid hu (hb hblocked)
    · exact ih (k.wakeTask other).1 hmem ht

/-- a tick wakes, and the rest of it blocks nobody -/
theorem unblocked_tick {k : Kernel Cpu} {expired : List ℕ} {locked : ℕ → Bool} (hmem : pid ∈ expired)
    (ht : (k.tick c expired locked).task pid = some t) : t.state ≠ .blocked := by
  obtain ⟨u, hu, -, hb⟩ := (quiet_tick_woken k c expired locked).bland.tasks pid t ht
  exact fun hblocked => unblocked_wakeAll expired _ hmem hu (hb hblocked)

/-- a thread in FUTEX_WAIT is queued, or a waker has it, or it is not blocked -/
structure Minded (s : Futexes Cpu) : Prop where
  waiter : ∀ pid w, s.stage pid = .entered w → w.waiter.pid = pid
  minded : ∀ pid w, s.stage pid = .marked w ∨ s.stage pid = .asleep w →
    s.QueuedOn w.key pid ∨ (∃ other pids, s.stage other = .drained pids ∧ pid ∈ pids) ∨ ¬s.Blocked pid

/-- the scheduler's steps that are steps of futexes too come as such; only threads outside of FUTEX_WAIT are blocked by another
call, or created -/
def Legal (s : Futexes Cpu) : Event Cpu → Prop
  | .other (.schedule ..) | .other (.tick ..) | .other (.exitTask ..) => False
  | .other (.blockTask pid) => s.stage pid = .user
  | .other (.addTask task) => s.stage task.pid = .user
  | _ => True

/-- a step of the kernel: waiters are taken out only if they are not blocked afterwards -/
theorem Minded.kernel (h : Minded s) (hstage : s'.stage = s.stage)
    (hqueues : ∀ key w, w ∈ s.queues key → w ∈ s'.queues key ∨ ¬s'.Blocked w.pid)
    (hblocked : ∀ pid w, s.stage pid = .marked w ∨ s.stage pid = .asleep w → s'.Blocked pid → s.Blocked pid) : Minded s' where
  waiter pid w hw := by
    rw [hstage] at hw
    exact h.waiter pid w hw
  minded pid w hw := by
    rw [hstage] at hw ⊢
    rcases h.minded pid w hw with ⟨e, he, hpid⟩ | hdrained | hawake
    · rcases hqueues w.key e he with hleft | hawake
      · exact .inl ⟨e, hleft, hpid⟩
      · rw [hpid] at hawake
        exact .inr (.inr hawake)
    · exact .inr (.inl hdrained)
    · exact .inr (.inr fun hb => hawake (hblocked pid w hw hb))

/-- in FUTEX_WAIT -/
def waits : Stage → Bool
  | .entered _ | .marked _ | .asleep _ => true
  | .user | .stored _ | .drained _ => false

/-- a thread that comes to a place of FUTEX_WAIT waits as itself, and is queued then or has been in this wait before -/
def Joins (s s' : Futexes Cpu) (pid : ℕ) : Stage → Prop
  | .entered w => w.waiter.pid = pid
  | .marked w | .asleep w => s'.QueuedOn w.key pid ∨ s.stage pid = .marked w ∨ s.stage pid = .asleep w
  | .user | .stored _ | .drained _ => True

theorem Minded.move (h : Minded s) {old : Stage} (hrun : s.running c = some (pid, old))
    (hs' : s'.stage = update s.stage pid stage) (hnew : Joins s s' pid stage)
    (hqueues : ∀ key w, w ∈ s.queues key → w ∈ s'.queues key ∨ (w.pid = pid ∧ waits stage = false) ∨
      ∃ pids, stage = .drained pids ∧ w.pid ∈ pids)
    (hdrained : ∀ pids, old = .drained pids → ∀ other ∈ pids, ¬s'.Blocked other)
    (hblocked : ∀ other w, s.stage other = .marked w ∨ s.stage other = .asleep w → s'.Blocked other → s.Blocked other) :
    Minded s' := by
  have hstage : ∀ other, s'.stage other = if other = pid then stage else s.stage other := by
    intro other
    rw [hs', update_apply]
  refine ⟨fun other w hw => ?_, fun other w hw => ?_⟩
  · rw [hstage] at hw
    split_ifs at hw with hother
    · rw [hw] at hnew
      exact hnew.trans hother.symm
    · exact h.waiter other w hw
  · rw [hstage] at hw
    have hjoined : s'.QueuedOn w.key other ∨ s.stage other = .marked w ∨ s.stage other = .asleep w := by
      split_ifs at hw with hother
      · rw [hother]
        rcases hw with hw | hw <;> rw [hw] at hnew <;> exact hnew
      · exact .inr hw
    rcases hjoined with hqueued | hbefore
    · exact .inl hqueued
    rcases h.minded other w hbefore with ⟨e, he, rfl⟩ | ⟨third, pids, hthird, hmem⟩ | hawake
    · rcases hqueues w.key e he with hleft | ⟨hpid, hout⟩ | ⟨pids, rfl, hmem⟩
      · exact .inl ⟨e, hleft, rfl⟩
      · rw [if_pos hpid] at hw
        rcases hw with hw | hw <;> rw [hw] at hout <;> cases hout
      · refine .inr (.inl ⟨pid, pids, ?_, hmem⟩)
        rw [hstage, if_pos rfl]
    · by_cases hthird' : third = pid
      · rw [hthird', stage_of_running hrun] at hthird
        exact .inr (.inr (hdrained pids hthird other hmem))
      · refine .inr (.inl ⟨third, pids, ?_, hmem⟩)
        rw [hstage, if_neg hthird']
        exact hthird
    · exact .inr (.inr fun hb => hawake (hblocked other w hbefore hb))

theorem blocked_of_task (htask : ∀ t, s'.kernel.task pid = some t → s.kernel.task pid = some t) : s'.Blocked pid → s.Blocked pid :=
  fun ⟨t, ht, hb⟩ => ⟨t, htask t ht, hb⟩

theorem blocked_of_bland (hbland : Bland s.kernel s'.kernel) (h : s'.Blocked pid) : s.Blocked pid := by
  obtain ⟨t', ht', hb⟩ := h
  obtain ⟨t, ht, -, hstate⟩ := hbland.tasks pid t' ht'
  exact ⟨t, ht, hstate hb⟩

section Steps

variable [Fintype Cpu] [DecidableEq Cpu]

/-- **Step.** Nobody who is blocked in FUTEX_WAIT is forgotten. -/
theorem minded_step (s : Futexes Cpu) (e : Event Cpu) (h : Minded s) (he : Legal s e) : Minded (s.step e) := by
  have hmoved := moved_step s e
  generalize s.step e = s' at hmoved ⊢
  cases hmoved with
  | stays => exact h
  | @enters c now args pid w hrun hw hval =>
    exact h.move hrun rfl (futexWait_ok hw).2.2.2 (fun _ _ hw => .inl hw) (fun _ heq => by cases heq) fun _ _ _ hb => hb
  | @queues c pid w hrun hval =>
    have hstage := stage_of_running hrun
    have hmem : ∀ key e, e ∈ s.queues key ∨ (key = w.key ∧ e = w.waiter) →
        e ∈ update s.queues w.key (s.queues w.key ++ [w.waiter]) key := by
      intro key e he
      by_cases hkey : key = w.key
      · rw [hkey, update_self]
        rw [hkey] at he
        exact mem_append.2 (he.imp_right fun hown => mem_singleton.2 hown.2)
      · rw [update_of_ne hkey]
        exact he.resolve_right fun hown => hkey hown.1
    refine h.move hrun rfl (.inl ⟨w.waiter, hmem _ _ (.inr ⟨rfl, rfl⟩), h.waiter pid w hstage⟩)
      (fun key e he => .inl (hmem key e (.inl he))) (fun _ heq => by cases heq) fun other w' hbefore hb => ?_
    refine blocked_of_task (fun t ht => ?_) hb
    change (s.kernel.setState pid .blocked).task other = some t at ht
    rw [setState, task_setTask, if_neg] at ht
    · exact ht
    · rintro rfl
      rw [hstage] at hbefore
      rcases hbefore with heq | heq <;> cases heq
  | again hrun | stores hrun =>
    exact h.move hrun rfl trivial (fun _ _ hw => .inl hw) (fun _ heq => by cases heq) fun _ _ _ hb => hb
  | @sleeps c locks pid w hrun =>
    refine h.move hrun rfl (.inr (.inl (stage_of_running hrun))) (fun _ _ hw => .inl hw) (fun _ heq => by cases heq)
      fun other w' _ hb => ?_
    exact blocked_of_bland (bland_schedule s.kernel c locks) hb
  | @leaves c pid w hrun =>
    refine h.move hrun rfl trivial (fun key e he => ?_) (fun _ heq => by cases heq) fun _ _ _ hb => hb
    exact ((taken_filter s.queues w.key pid).taken key e he).imp_right fun hpid => .inl ⟨mem_singleton.1 hpid, rfl⟩
  | @drains c args pid stage pids queues hrun hstage hwake =>
    obtain ⟨bits, -, hdrain⟩ := futexWake_ok hwake
    have htaken := (drain_taken (valToWake args.val) bits.1 (keysToWake args.place args.op) [] s.queues).2
    rw [← hdrain] at htaken
    refine h.move hrun rfl trivial (fun key e he => ?_) (fun pids hpids => ?_) fun _ _ _ hb => hb
    · exact (htaken.taken key e he).imp_right fun hpid => .inr ⟨pids, rfl, hpid⟩
    · rcases hstage with rfl | ⟨word, rfl⟩ <;> cases hpids
  | @fails c args pid stage e hrun hstage hwake =>
    refine h.move hrun rfl trivial (fun _ _ hw => .inl hw) (fun pids hpids => ?_) fun _ _ _ hb => hb
    rcases hstage with rfl | ⟨word, rfl⟩ <;> cases hpids
  | @rouses c pid pids hrun =>
    refine h.move hrun rfl trivial (fun _ _ hw => .inl hw) (fun pids' hpids other hmem => ?_) fun other _ _ hb => ?_
    · cases hpids
      rintro ⟨t, ht, hb⟩
      exact unblocked_wakeAll pids s.kernel hmem ht hb
    · exact blocked_of_bland (quiet_wakeAll s.kernel pids).bland hb
  | preempts =>
    refine h.kernel rfl (fun _ _ hw => .inl hw) fun pid w _ hb => ?_
    exact blocked_of_bland (bland_schedule s.kernel _ _) hb
  | ticks =>
    refine h.kernel rfl (fun key w hw => ?_) fun pid w _ hb => ?_
    · refine ((checkTimeouts_taken s.queues).taken key w hw).imp_right fun hpid => ?_
      rintro ⟨t, ht, hb⟩
      exact unblocked_tick (mem_append_left _ hpid) ht hb
    · exact blocked_of_bland (quiet_tick s.kernel _ _ _).bland hb
  | @exits pid exitCode locked wakes =>
    refine h.kernel rfl (fun key w hw => ?_) fun pid w _ hb => ?_
    · by_cases hpid : w.pid = pid
      · right
        rintro ⟨t, ht, hb⟩
        rw [hpid] at ht
        -- it is a zombie when the others are woken
        obtain ⟨u, hu, -, hstate⟩ := (quiet_exitTask s.kernel pid exitCode locked wakes).bland.tasks pid t ht
        rw [task_setTask, if_pos rfl] at hu
        obtain ⟨v, -, rfl⟩ := Option.map_eq_some_iff.1 hu
        cases hstate hb
      · exact .inl (mem_filter.2 ⟨hw, decide_eq_true hpid⟩)
    · exact blocked_of_bland (bland_exitTask s.kernel _ _ _ _) hb
  | @kernel e =>
    refine h.kernel rfl (fun _ _ hw => .inl hw) fun pid w hw hb => ?_
    cases e with
    | schedule => cases he
    | tick => cases he
    | exitTask => cases he
    | postContextSwitch c => exact blocked_of_bland (bland_postContextSwitch s.kernel c) hb
    | wakeTask other => exact blocked_of_bland (quiet_wakeTask s.kernel other).bland hb
    | reap other =>
      refine blocked_of_task (fun t ht => ?_) hb
      change (s.kernel.reap other).task pid = some t at ht
      rw [task_reap] at ht
      split_ifs at ht
      exact ht
    | blockTask other =>
      obtain ⟨t, ht, hb⟩ := hb
      change (s.kernel.setState other .blocked).task pid = some t at ht
      rw [Kernel.setState, task_setTask, if_neg] at ht
      · exact ⟨t, ht, hb⟩
      · rintro rfl
        rw [show s.stage pid = .user from he] at hw
        rcases hw with hw | hw <;> cases hw
    | addTask task =>
      obtain ⟨t, ht, hb⟩ := hb
      change (s.kernel.addTask task).task pid = some t at ht
      rw [task_addTask, if_neg] at ht
      · exact ⟨t, ht, hb⟩
      · rintro rfl
        rw [show s.stage task.pid = .user from he] at hw
        rcases hw with hw | hw <;> cases hw

end Steps

/-! ## Runs -/

section

variable (kernel : Kernel Cpu) (words : ℕ → Int32)

theorem covered_start : Covered word key val (start kernel words) where
  calls _ _ hw := by cases hw
  covered := .inl rfl

theorem minded_start : Minded (start kernel words) where
  waiter _ _ hw := by cases hw
  minded _ _ hw := by rcases hw with hw | hw <;> cases hw

end

variable {es : List (Event Cpu)}

section Runs

variable [Fintype Cpu] [DecidableEq Cpu]

section

variable {kernel : Kernel Cpu} {words : ℕ → Int32} {es' : List (Event Cpu)} {val' : Int32}
  (hlegal : Each step Legal (start kernel words) (es ++ .store c word val' :: es'))
  (hes : Each step (Obeys word key val) (start kernel words) (es ++ .store c word val' :: es'))
  (hstore : (run step (start kernel words) es).running c = some (pid, .user))
  (hdone : ∀ pid, ¬Waking (run step (start kernel words) (es ++ .store c word val' :: es')) pid)
include hes hstore hdone

/-- after a store and the return of all wakes the queue is empty -/
theorem queue_empty : (run step (start kernel words) (es ++ .store c word val' :: es')).queues key = [] := by
  have hcovered := invariant covered_step (covered_start kernel words) hes
  obtain ⟨-, hafter⟩ := each_append.1 hes
  have hword : (run step (start kernel words) (es ++ .store c word val' :: es')).word word ≠ val := by
    rw [run_append]
    refine invariant (I := fun s => s.word word ≠ val) word_step ?_ hafter.2
    rw [step, hstore]
    change update (run step (start kernel words) es).word word val' word ≠ val
    rw [update_self]
    exact hafter.1 rfl
  rcases hcovered.covered with hnil | hval | ⟨pid, hpid⟩
  · exact hnil
  · exact absurd hval hword
  · refine absurd ?_ (hdone pid)
    rw [Waking, hpid]
    trivial

include hlegal in
/-- **No waiter forgotten by its waker.** In these runs, no thread in FUTEX_WAIT under the key is `Blocked`. -/
theorem no_waiter_blocked {other : ℕ} {w : Wait}
    (hother : (run step (start kernel words) (es ++ .store c word val' :: es')).stage other = .marked w ∨
      (run step (start kernel words) (es ++ .store c word val' :: es')).stage other = .asleep w) (hkey : w.key = key) :
    ¬Blocked (run step (start kernel words) (es ++ .store c word val' :: es')) other := by
  have hminded := invariant minded_step (minded_start kernel words) hlegal
  rcases hminded.minded other w hother with ⟨e, he, -⟩ | ⟨third, pids, hthird, -⟩ | hawake
  · rw [hkey, queue_empty hes hstore hdone] at he
    cases he
  · refine absurd ?_ (hdone third)
    rw [Waking, hthird]
    trivial
  · exact hawake

end

/-- **No lost wakeup.** In every interleaving, once somebody has stored to the word and all wakes have returned, no thread is
`Blocked` and queued under the key, whenever it entered its wait. -/
theorem no_lost_futex_wakeup {kernel : Kernel Cpu} {words : ℕ → Int32} {es es' : List (Event Cpu)} {c : Cpu} {val' : Int32} {pid : ℕ}
    (hes : Each step (Obeys word key val) (start kernel words) (es ++ .store c word val' :: es'))
    (hstore : (run step (start kernel words) es).running c = some (pid, .user))
    (hdone : ∀ pid, ¬Waking (run step (start kernel words) (es ++ .store c word val' :: es')) pid) :
    ¬∃ other, Blocked (run step (start kernel words) (es ++ .store c word val' :: es')) other ∧
      QueuedOn (run step (start kernel words) (es ++ .store c word val' :: es')) key other := by
  rintro ⟨other, -, w, hw, -⟩
  rw [queue_empty hes hstore hdone] at hw
  cases hw

theorem stage_run_of_absent {pids : List ℕ}
    (hes : Each step (fun s _ => ∀ c, ∀ pid ∈ s.kernel.currentCpus c, pid ∈ pids) s es) (hpid : pid ∉ pids) :
    (run step s es).stage pid = s.stage pid := by
  refine invariant (I := fun s' => s'.stage pid = s.stage pid) (fun s' e hs' he => ?_) rfl hes
  have hrun : ∀ {c other stage}, s'.running c = some (other, stage) → pid ≠ other := by
    intro c other stage hrun heq
    obtain ⟨third, hthird, hpair⟩ := Option.map_eq_some_iff.1 hrun
    cases hpair
    exact hpid (heq ▸ he c _ hthird)
  have hmoved := moved_step s' e
  generalize s'.step e = s'' at hmoved ⊢
  cases hmoved with
  | enters h | queues h | again h | sleeps h | leaves h | stores h | drains h | fails h | rouses h =>
    rw [stage_at, if_neg (hrun h)]
    exact hs'
  | stays | preempts | ticks | exits | kernel => exact hs'

end Runs

/-! ## One run -/

/-- thread 2 comes to CPU 1, reads the word 7 and goes to sleep -/
def sleeps : List (Event (Fin 2)) :=
  [.other (.addTask (Task.new 2)), .preempt 1 ⟨false, fun _ => false, false⟩, .other (.postContextSwitch 1),
    .wait 1 ⟨0, 0⟩ ⟨⟨64, some 1, some 7⟩, 7, 128, 0, .null, 0⟩, .enqueue 1, .block 1 ⟨false, fun _ => false, false⟩]

/-- thread 1 wakes it -/
def wakes : List (Event (Fin 2)) := [.drain 0 ⟨⟨64, some 1, some 7⟩, 129, 1, 0⟩, .rouse 0]

/-- thread 1 runs on CPU 0, and all words are 0 -/
def booted : Futexes (Fin 2) := start ((init 2).setBootstrapThread 0 (Task.new 1)) fun _ => 0

theorem not_waking_wakes (pid : ℕ) : ¬Waking (run step booted (sleeps ++ .store 0 7 1 :: wakes)) pid := by
  by_cases hpid : pid ∈ [1, 2, 900, 901]
  · have hall : ∀ pid ∈ [1, 2, 900, 901], ¬Waking (run step booted (sleeps ++ .store 0 7 1 :: wakes)) pid := by
      decide +kernel
    exact hall pid hpid
  · have huser : (run step booted (sleeps ++ .store 0 7 1 :: wakes)).stage pid = .user :=
      stage_run_of_absent (by decide +kernel) hpid
    rw [Waking, huser]
    exact id

theorem futex_wakeup_sleeps :
    Blocked (run step booted sleeps) 2 ∧ QueuedOn (run step booted sleeps) ⟨1, 64⟩ 2 ∧
      ¬∃ pid, Blocked (run step booted (sleeps ++ .store 0 7 1 :: wakes)) pid ∧
        QueuedOn (run step booted (sleeps ++ .store 0 7 1 :: wakes)) ⟨1, 64⟩ pid := by
  have hrun : (run step booted sleeps).running 0 = some (1, .user) := by decide +kernel
  refine ⟨?_, ?_, @no_lost_futex_wakeup _ 7 ⟨1, 64⟩ 0 _ _ _ _ _ _ _ _ _ ?_ hrun not_waking_wakes⟩
  · have hstate : ((run step booted sleeps).kernel.task 2).map Task.state = some .blocked := by decide +kernel
    exact Option.map_eq_some_iff.1 hstate
  · have hqueue : ((run step booted sleeps).queues ⟨1, 64⟩).map FutexWaiter.pid = [2] := by decide +kernel
    have hmem : 2 ∈ ((run step booted sleeps).queues ⟨1, 64⟩).map FutexWaiter.pid := by
      rw [hqueue]
      exact mem_singleton_self 2
    exact mem_map.1 hmem
  · refine ⟨trivial, trivial, trivial, fun _ => ⟨rfl, rfl⟩, trivial, trivial, fun _ => by decide, fun _ _ => ?_, trivial, trivial⟩
    exact ⟨by decide +kernel, by decide +kernel, by decide +kernel⟩

theorem no_waiter_blocked_sleeps : ¬Blocked (run step booted (sleeps ++ .store 0 7 1 :: wakes)) 2 := by
  refine @no_waiter_blocked _ 1 0 7 ⟨1, 64⟩ 0 sleeps _ _ _ _ wakes 1 ?_ ?_ ?_ not_waking_wakes 2
    ⟨⟨1, 64⟩, 7, 0, ⟨2, 0xFFFFFFFF, none, by decide⟩⟩ (.inr ?_) rfl
  · exact ⟨rfl, trivial, trivial, trivial, trivial, trivial, trivial, trivial, trivial, trivial⟩
  · refine ⟨trivial, trivial, trivial, fun _ => ⟨rfl, rfl⟩, trivial, trivial, fun _ => by decide, fun _ _ => ?_, trivial, trivial⟩
    exact ⟨by decide +kernel, by decide +kernel, by decide +kernel⟩
  · decide +kernel
  · decide +kernel

end Futexes

end Kontsnor.Process
