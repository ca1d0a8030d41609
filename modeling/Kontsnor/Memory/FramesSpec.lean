/-
Who owns a physical frame.

`World` adds to the state of the allocator what its callers hold: `held f` is the number of references to frame `f` that
are outstanding. A frame is `Available` if it is clear in the bitmap or stored in the cache of some core.

The invariant counts. `slots s f` is in how many places frame `f` can be taken from; together with one for the holders
there is never more than one place for a frame that was usable at boot and none for any other frame, and the counter of
a frame is the number of its references (`Owned`).
-/
import Kontsnor.Core.Runs
import Kontsnor.Memory.Frames

namespace Kontsnor.Memory

open List Function Runs

open BitScan (isSet isSet_mark isSet_clear firstClear_spec)

/-! ## The bitmap -/

namespace FrameAllocator

variable {a a' : FrameAllocator} {addr count index : ℕ}

theorem lt_of_isFree {f : ℕ} (h : a.isFree f = true) : f < MAX_FRAMES := by
  unfold isFree at h
  split_ifs at h with hlt
  exact Nat.not_le.1 hlt

theorem isFree_markUsed (i f : ℕ) : (a.markUsed i).isFree f = (!decide (f = i) && a.isFree f) := by
  unfold isFree markUsed
  by_cases hf : MAX_FRAMES ≤ f
  · simp [hf]
  · by_cases hi : i < MAX_FRAMES
    · simp [hf, hi, isSet_mark]
    · have hne : f ≠ i := by
        intro he
        exact hi (he ▸ Nat.not_le.1 hf)
      simp [hf, hi, hne]

theorem isFree_markFree (a : FrameAllocator) {i : ℕ} (hi : i < MAX_FRAMES) (f : ℕ) :
    (a.markFree i).isFree f = (decide (f = i) || a.isFree f) := by
  unfold isFree markFree
  by_cases hf : MAX_FRAMES ≤ f
  · have hne : f ≠ i := by
      intro he
      exact Nat.not_le.2 hi (he ▸ hf)
    simp [hf, hne]
  · simp [hf, hi, isSet_clear]

/-- frames `i .. i + n` were free, and are the only ones that are not any more -/
structure Takes (a : FrameAllocator) (i n : ℕ) (a' : FrameAllocator) : Prop where
  free : ∀ j < n, a.isFree (i + j) = true
  rest : ∀ f, a'.isFree f = (!decide (i ≤ f ∧ f < i + n) && a.isFree f)

theorem takes_take {i : ℕ} (h : a.isFree i = true) : Takes a i 1 (a.take i).2 where
  free j hj := by
    obtain rfl : j = 0 := Nat.lt_one_iff.1 hj
    exact h
  rest f := by
    have hfree : (a.take i).2.isFree f = (a.markUsed i).isFree f := rfl
    rw [hfree, isFree_markUsed, decide_eq_decide.2 (show f = i ↔ i ≤ f ∧ f < i + 1 by omega)]

theorem search_takes {turns searched : ℕ} (h : a.search turns searched index = some (addr, a')) :
    ∃ i, addr = i * PAGE_SIZE ∧ Takes a i 1 a' := by
  -- by induction on the turns of the loop; a turn takes a frame or moves on
  induction turns generalizing searched index with
  | zero => cases h
  | succ turns ih =>
    unfold search at h
    split_ifs at h with hsearched hword hfree
    · cases hclear : BitScan.firstClear (a.bitmap (index / 64)) (index % 64) with
      | none =>
        rw [hclear] at h
        exact ih h
      | some j =>
        simp only [hclear] at h
        split_ifs at h with hmax
        · cases h
          obtain ⟨hlt, hbit⟩ := firstClear_spec hclear
          have hset : isSet a.bitmap (index / 64 * 64 + j) = false := by
            have hdiv : (index / 64 * 64 + j) / 64 = index / 64 := by omega
            have hmod : (index / 64 * 64 + j) % 64 = j := by omega
            rw [isSet, hdiv, hmod, hbit]
          refine ⟨_, rfl, takes_take ?_⟩
          simp [isFree, Nat.not_le.2 hmax, hset]
        · exact ih h
    · cases h
      exact ⟨_, rfl, takes_take hfree⟩
    · exact ih h

theorem allocate_takes (h : a.allocate = some (addr, a')) : ∃ i, addr = i * PAGE_SIZE ∧ Takes a i 1 a' := by
  unfold allocate at h
  split_ifs at h
  exact search_takes h

theorem isFree_takeRun (a : FrameAllocator) (i n f : ℕ) :
    (a.takeRun i n).2.isFree f = (!decide (i ≤ f ∧ f < i + n) && a.isFree f) := by
  have hfree : (a.takeRun i n).2.isFree f = ((range n).foldl (fun a k => a.markUsed (i + k)) a).isFree f := rfl
  rw [hfree]
  induction n with
  | zero =>
    have hno : ¬ (i ≤ f ∧ f < i + 0) := by omega
    rw [decide_eq_false hno]
    rfl
  | succ n ih =>
    rw [range_succ, foldl_append, foldl_cons, foldl_nil, isFree_markUsed, ih rfl, ← Bool.and_assoc,
      ← Bool.not_or, ← Bool.decide_or, decide_eq_decide.2 (show f = i + n ∨ i ≤ f ∧ f < i + n ↔ i ≤ f ∧ f < i + (n + 1) by omega)]

theorem obstacle_none (h0 : a.isFree index = true) (h : a.obstacle index count = none) :
    ∀ j < count, a.isFree (index + j) = true := by
  intro j hj
  rcases Nat.eq_zero_or_pos j with rfl | hpos
  · exact h0
  · have hall := find?_eq_none.1 h j (by rw [mem_range'_1]; omega)
    simp only [Bool.or_eq_true, decide_eq_true_eq, not_or] at hall
    simpa using hall.2

theorem searchRun_takes {turns searched : ℕ}
    (h : a.searchRun count turns searched index = some (addr, a')) : ∃ i, addr = i * PAGE_SIZE ∧ Takes a i count a' := by
  induction turns generalizing searched index with
  | zero => cases h
  | succ turns ih =>
    unfold searchRun at h
    split_ifs at h with hsearched hword hfree
    · exact ih h
    · cases hob : a.obstacle index count with
      | some i =>
        rw [hob] at h
        exact ih h
      | none =>
        rw [hob] at h
        cases h
        exact ⟨index, rfl, obstacle_none hfree hob, isFree_takeRun a index count⟩
    · exact ih h

theorem allocateContiguous_takes (h1 : count ≠ 1) (h : a.allocateContiguous count = some (addr, a')) :
    ∃ i, addr = i * PAGE_SIZE ∧ Takes a i (min count 32) a' := by
  unfold allocateContiguous at h
  split_ifs at h
  exact searchRun_takes h

theorem isFree_deallocate {addr f : ℕ} (h : (a.deallocate addr).isFree f = true) :
    a.isFree f = true ∨ f = frameOf addr := by
  by_cases hin : frameOf addr < MAX_FRAMES ∧ a.isFree (frameOf addr) = false
  · have hfree : (a.deallocate addr).isFree f = (a.markFree (frameOf addr)).isFree f := by
      unfold deallocate
      simp only [if_pos hin]
      rfl
    rw [hfree, isFree_markFree a hin.1, Bool.or_eq_true, decide_eq_true_eq] at h
    exact h.symm
  · unfold deallocate at h
    simp only [if_neg hin] at h
    exact .inl h

end FrameAllocator

/-! ## Counting the places of a frame -/

/-- how often frame `f` is in a cache -/
def stored (cache : List ℕ) (f : ℕ) : ℕ := (cache.map frameOf).count f

/-- 1 if the address is in frame `f` -/
def at1 (addr f : ℕ) : ℕ := if frameOf addr = f then 1 else 0

/-- the same for an address that may be missing -/
def atOption (addr : Option ℕ) (f : ℕ) : ℕ := (addr.map fun a => at1 a f).getD 0

@[simp] theorem stored_nil (f : ℕ) : stored [] f = 0 := rfl

@[simp] theorem stored_cons (addr : ℕ) (cache : List ℕ) (f : ℕ) : stored (addr :: cache) f = at1 addr f + stored cache f := by
  rw [stored, map_cons, count_cons, at1, stored, Nat.add_comm]
  simp only [beq_iff_eq]

@[simp] theorem atOption_none (f : ℕ) : atOption none f = 0 := rfl

@[simp] theorem atOption_some (addr f : ℕ) : atOption (some addr) f = at1 addr f := rfl

/-- 1 if frame `f` is free in the bitmap -/
def FrameAllocator.places (a : FrameAllocator) (f : ℕ) : ℕ := (a.isFree f).toNat

theorem frameOf_mul (i : ℕ) : frameOf (i * PAGE_SIZE) = i := Nat.mul_div_cancel i (by decide)

theorem places_allocate {a a' : FrameAllocator} {addr : ℕ} (h : a.allocate = some (addr, a')) (f : ℕ) :
    a'.places f + at1 addr f = a.places f := by
  obtain ⟨i, rfl, ht⟩ := FrameAllocator.allocate_takes h
  have hfree : a.isFree i = true := ht.free 0 Nat.one_pos
  rw [FrameAllocator.places, FrameAllocator.places, ht.rest, at1, frameOf_mul]
  by_cases hf : i = f
  · subst hf
    simp [hfree]
  · have hno : ¬ (i ≤ f ∧ f < i + 1) := by omega
    rw [decide_eq_false hno, if_neg hf]
    rfl

theorem places_deallocate (a : FrameAllocator) (addr f : ℕ) :
    (a.deallocate addr).places f ≤ a.places f + at1 addr f := by
  unfold FrameAllocator.places
  cases h : (a.deallocate addr).isFree f with
  | false => exact Nat.zero_le _
  | true =>
    rcases FrameAllocator.isFree_deallocate h with hfree | rfl
    · rw [hfree]
      exact Nat.le_add_right _ _
    · simp [at1]

section

variable (n : ℕ) (a : FrameAllocator) (cache : List ℕ)

/-- a refill moves frames from the bitmap to the cache and to the caller -/
theorem refill_places (first : Option ℕ) (f : ℕ) :
    atOption (Physical.refill n a cache first).1 f + stored (Physical.refill n a cache first).2.1 f +
      (Physical.refill n a cache first).2.2.places f ≤ atOption first f + stored cache f + a.places f := by
  induction n generalizing a cache first with
  | zero => exact le_rfl
  | succ n ih =>
    unfold Physical.refill
    cases h : a.allocate with
    | none => exact le_rfl
    | some v =>
      obtain ⟨addr, a'⟩ := v
      have hplaces := places_allocate h f
      cases first with
      | none =>
        have := ih a' cache (some addr)
        simp only [atOption_none, atOption_some] at this ⊢
        omega
      | some x =>
        simp only
        split_ifs
        · have := ih a' (addr :: cache) (some x)
          simp only [stored_cons] at this
          omega
        · have := ih (a'.deallocate addr) cache (some x)
          have := places_deallocate a' addr f
          omega

theorem spill_places (f : ℕ) :
    stored (Physical.spill n a cache).1 f + (Physical.spill n a cache).2.places f ≤ stored cache f + a.places f := by
  induction n generalizing a cache with
  | zero => exact le_rfl
  | succ n ih =>
    cases cache with
    | nil => exact le_rfl
    | cons addr rest =>
      calc stored (Physical.spill n (a.deallocate addr) rest).1 f + (Physical.spill n (a.deallocate addr) rest).2.places f
          ≤ stored rest f + (a.deallocate addr).places f := ih (a.deallocate addr) rest
        _ ≤ stored rest f + (a.places f + at1 addr f) := Nat.add_le_add_left (places_deallocate a addr f) _
        _ = stored (addr :: rest) f + a.places f := by rw [stored_cons]; omega

end

namespace Physical

variable {s : Physical}

/-- in how many places frame `f` can be taken from -/
def slots (s : Physical) (f : ℕ) : ℕ := s.global.places f + ∑ core ∈ Finset.range 32, stored (s.caches core) f

section

variable (s : Physical)

theorem slots_update {core : ℕ} (hcore : core < 32) (a : FrameAllocator) (cache : List ℕ) (f : ℕ) :
    slots { s with global := a, caches := update s.caches core cache } f +
      (stored (s.caches core) f + s.global.places f) = slots s f + (stored cache f + a.places f) := by
  have hmem : core ∈ Finset.range 32 := Finset.mem_range.2 hcore
  have hsum : ∀ caches : ℕ → List ℕ, ∑ c ∈ Finset.range 32, stored (caches c) f =
      stored (caches core) f + ∑ c ∈ (Finset.range 32).erase core, stored (caches c) f :=
    fun caches => (Finset.add_sum_erase _ _ hmem).symm
  have hrest : ∑ c ∈ (Finset.range 32).erase core, stored (update s.caches core cache c) f =
      ∑ c ∈ (Finset.range 32).erase core, stored (s.caches c) f := by
    apply Finset.sum_congr rfl
    intro c hc
    rw [update_of_ne (Finset.ne_of_mem_erase hc)]
  simp only [slots]
  rw [hsum, hsum s.caches, hrest, update_self]
  omega

/-- **Taking a frame uses up one of its places.** -/
theorem grab_slots (core f : ℕ) : slots (s.grab core).2 f + atOption (s.grab core).1 f ≤ slots s f := by
  unfold grab
  split_ifs with hcore
  · cases hc : s.caches core with
    | cons addr rest =>
      have := slots_update s hcore s.global rest f
      rw [hc, stored_cons] at this
      simp only [atOption_some]
      omega
    | nil =>
      have h2 := refill_places 8 s.global [] none f
      rcases hr : refill 8 s.global [] none with ⟨first, cache, a⟩
      have h1 := slots_update s hcore a cache f
      simp only [hr, hc, stored_nil, atOption_none] at h1 h2 ⊢
      omega
  · cases h : s.global.allocate with
    | none => simp
    | some v =>
      have := places_allocate h f
      simp only [slots, atOption_some]
      omega

/-- **Giving a frame back adds at most one place for it.** -/
theorem reclaim_slots (core addr f : ℕ) : slots (s.reclaim core addr) f ≤ slots s f + at1 addr f := by
  unfold reclaim
  split_ifs with hcore hroom
  · have := slots_update s hcore s.global (addr :: s.caches core) f
    rw [stored_cons] at this
    omega
  · have h1 := slots_update s hcore (spill 8 s.global (s.caches core)).2 (addr :: (spill 8 s.global (s.caches core)).1) f
    have h2 := spill_places 8 s.global (s.caches core) f
    rw [stored_cons] at h1
    simp only
    omega
  · have := places_deallocate s.global addr f
    simp only [slots]
    omega

theorem drain_slots (core f : ℕ) : slots (s.drainLocalCache core) f ≤ slots s f := by
  unfold drainLocalCache
  split_ifs with hcore
  · have h1 := slots_update s hcore (spill (s.caches core).length s.global (s.caches core)).2
      (spill (s.caches core).length s.global (s.caches core)).1 f
    have h2 := spill_places (s.caches core).length s.global (s.caches core) f
    simp only
    omega
  · exact le_rfl

@[simp] theorem grab_refs (core : ℕ) : (s.grab core).2.refs = s.refs := by
  unfold grab
  split_ifs
  · cases s.caches core <;> rfl
  · cases s.global.allocate <;> rfl

@[simp] theorem reclaim_refs (core addr : ℕ) : (s.reclaim core addr).refs = s.refs := by
  unfold reclaim
  split_ifs <;> rfl

@[simp] theorem drain_refs (core : ℕ) : (s.drainLocalCache core).refs = s.refs := by
  unfold drainLocalCache
  split_ifs <;> rfl

@[simp] theorem slots_setRef (i f : ℕ) : slots (s.setRef i) f = slots s f := by
  unfold setRef
  split_ifs <;> rfl

theorem refs_setRef {i : ℕ} {f : ℕ} (hf : f < MAX_FRAMES) : (s.setRef i).refs f = if f = i then 1 else s.refs f := by
  unfold setRef
  split_ifs with hi he he
  · subst he; exact update_self ..
  · exact update_of_ne he ..
  · exact absurd (he ▸ hf) hi
  · rfl

/-- the counters of a run of frames set to 1 -/
theorem setRefs_spec (i n : ℕ) :
    (∀ f, slots (s.setRefs i n) f = slots s f) ∧
    ∀ f < MAX_FRAMES, (s.setRefs i n).refs f = if i ≤ f ∧ f < i + n then 1 else s.refs f := by
  unfold setRefs
  induction n with
  | zero =>
    refine ⟨fun f => rfl, fun f _ => ?_⟩
    rw [if_neg (by omega)]
    rfl
  | succ n ih =>
    simp only [range_succ, foldl_append, foldl_cons, foldl_nil]
    refine ⟨fun f => by rw [slots_setRef, ih.1], fun f hf => ?_⟩
    rw [refs_setRef _ hf, ih.2 f hf]
    by_cases he : f = i + n
    · rw [if_pos he, if_pos (by omega)]
    · rw [if_neg he]
      exact if_congr (by omega) rfl rfl

end

end Physical

/-! ## Callers -/

/-- one call of the module, on a core where it matters -/
inductive Call where
  | allocateFrame (core : ℕ)
  | allocateContiguousFrames (core count : ℕ)
  | incrementRef (physAddr : ℕ)
  | decrementRef (physAddr : ℕ)
  | deallocateFrame (core physAddr : ℕ)
  | drainLocalCache (core : ℕ)
deriving DecidableEq

/-- the allocator, and the number of references to each frame that callers hold -/
structure World where
  phys : Physical
  held : ℕ → ℕ

namespace World

variable (w : World)

/-- the frames that an allocation hands to its caller: all that it asked for -/
def granted : Call → List ℕ
  | .allocateFrame core => ((w.phys.allocateFrame core).1.map frameOf).toList
  | .allocateContiguousFrames core count =>
    match (w.phys.allocateContiguousFrames core count).1 with
    | none => []
    | some start => (range count).map (frameOf start + ·)
  | _ => []

/-- the references that a call adds and removes -/
def gained : Call → List ℕ
  | .incrementRef physAddr => [frameOf physAddr]
  | call => w.granted call

def dropped : Call → List ℕ
  | .decrementRef physAddr => [frameOf physAddr]
  | .deallocateFrame _ physAddr => [frameOf physAddr]
  | _ => []

def perform (s : Physical) : Call → Physical
  | .allocateFrame core => (s.allocateFrame core).2
  | .allocateContiguousFrames core count => (s.allocateContiguousFrames core count).2
  | .incrementRef physAddr => s.incrementRef physAddr
  | .decrementRef physAddr => (s.decrementRef physAddr).2
  | .deallocateFrame core physAddr => s.deallocateFrame core physAddr
  | .drainLocalCache core => s.drainLocalCache core

variable (call : Call)

def step : World where
  phys := perform w.phys call
  held f := w.held f + (w.gained call).count f - (dropped call).count f

def run (w : World) (calls : List Call) : World := Runs.run step w calls

/-- after `init`, nobody holds anything -/
def boot (usableFrames pageTableFrames : List ℕ) : World := ⟨.init usableFrames pageTableFrames, fun _ => 0⟩

/-- callers only drop references they hold -/
def Drops : Prop := ∀ f ∈ dropped call, 0 < w.held f

/-- callers moreover raise the counter only of a frame that is held, with fewer than 255 references, and ask for at most
32 frames in a row -/
def Allowed : Prop :=
  w.Drops call ∧
  match call with
  | .allocateContiguousFrames _ count => count ≤ 32
  | .incrementRef physAddr => 0 < w.held (frameOf physAddr) ∧ w.held (frameOf physAddr) < 255
  | _ => True

end World

/-- a frame that the next allocations may hand out -/
def Physical.Available (s : Physical) (f : ℕ) : Prop :=
  s.global.isFree f = true ∨ ∃ core < 32, ∃ addr ∈ s.caches core, frameOf addr = f

theorem Physical.Available.slots_pos {s : Physical} {f : ℕ} (h : s.Available f) : 0 < s.slots f := by
  rcases h with hfree | ⟨core, hcore, addr, haddr, rfl⟩
  · unfold slots FrameAllocator.places
    rw [hfree]
    exact Nat.add_pos_left Nat.one_pos _
  · have hpos : 0 < stored (s.caches core) (frameOf addr) := by
      rw [stored, count_pos_iff]
      exact mem_map_of_mem haddr
    have hle := Finset.single_le_sum (f := fun c => stored (s.caches c) (frameOf addr)) (fun c _ => Nat.zero_le _)
      (Finset.mem_range.2 hcore)
    exact Nat.add_pos_right _ (lt_of_lt_of_le hpos hle)

/-! ## Ownership -/

/-- there is at most one place for a usable frame, counting its holders as one, and none for any other frame; the
counters are right -/
structure Owned (usable : ℕ → Bool) (w : World) : Prop where
  once : ∀ f, w.phys.slots f + min 1 (w.held f) ≤ (usable f).toNat
  counted : ∀ f < MAX_FRAMES, (w.phys.refs f).toNat = w.held f
  below : ∀ f, usable f = true → f < MAX_FRAMES

/-- the frames `ns` lose their place, and get a first reference -/
structure Physical.Grants (s s' : Physical) (ns : List ℕ) : Prop where
  slots : ∀ f, s'.slots f + ns.count f ≤ s.slots f
  refs : ∀ f < MAX_FRAMES, s'.refs f = if f ∈ ns then 1 else s.refs f

namespace Owned

variable {usable : ℕ → Bool} {w : World}

section

variable (h : Owned usable w)
include h

theorem usable_of_pos {f : ℕ} (hpos : 0 < w.phys.slots f + min 1 (w.held f)) : usable f = true := by
  have := h.once f
  cases hu : usable f with
  | true => rfl
  | false =>
    rw [hu] at this
    simp only [Bool.toNat_false] at this
    omega

theorem unheld {f : ℕ} (hpos : 0 < w.phys.slots f) : w.held f = 0 := by
  have := h.once f
  have := Bool.toNat_le (usable f)
  omega

theorem shrink {s : Physical} (hslots : ∀ f, s.slots f ≤ w.phys.slots f)
    (hrefs : s.refs = w.phys.refs) : Owned usable ⟨s, w.held⟩ where
  once f := (Nat.add_le_add_right (hslots f) _).trans (h.once f)
  counted f hf := by
    rw [hrefs]
    exact h.counted f hf
  below := h.below

theorem grant {s : Physical} {ns : List ℕ} (hgrants : w.phys.Grants s ns) :
    Owned usable ⟨s, fun f => w.held f + ns.count f⟩ where
  once f := by
    have hone := h.once f
    have hslot := hgrants.slots f
    simp only
    omega
  counted f hf := by
    have hone := h.once f
    have hslot := hgrants.slots f
    have := Bool.toNat_le (usable f)
    rw [hgrants.refs f hf]
    simp only
    split_ifs with hmem
    · have hpos := count_pos_iff.2 hmem
      have h1 : (1 : UInt8).toNat = 1 := rfl
      omega
    · rw [count_eq_zero_of_not_mem hmem, h.counted f hf, Nat.add_zero]
  below := h.below

theorem of_held {f : ℕ} (hheld : 0 < w.held f) :
    f < MAX_FRAMES ∧ w.phys.refs f ≠ 0 ∧ (w.phys.refs f - 1).toNat = w.held f - 1 := by
  have hlt : f < MAX_FRAMES := by
    apply h.below
    apply h.usable_of_pos
    omega
  have hcount := h.counted f hlt
  have hne : w.phys.refs f ≠ 0 := by
    intro h0
    rw [h0] at hcount
    have hz : (0 : UInt8).toNat = 0 := rfl
    omega
  refine ⟨hlt, hne, ?_⟩
  have hle : (1 : UInt8) ≤ w.phys.refs f := by
    rw [UInt8.le_iff_toNat_le, hcount]
    exact hheld
  rw [UInt8.toNat_sub_of_le _ _ hle, hcount]
  rfl

theorem raise {addr : ℕ} (hpos : 0 < w.held (frameOf addr)) (hlt : w.held (frameOf addr) < 255) :
    Owned usable ⟨w.phys.incrementRef addr, fun f => w.held f + [frameOf addr].count f⟩ := by
  obtain ⟨hmax, _, _⟩ := h.of_held hpos
  have hphys : w.phys.incrementRef addr =
      { w.phys with refs := update w.phys.refs (frameOf addr) (w.phys.refs (frameOf addr) + 1) } := if_pos hmax
  refine ⟨fun f => ?_, fun f hf => ?_, h.below⟩
  · have hone : w.phys.slots f + min 1 (w.held f) ≤ (usable f).toNat := h.once f
    have hslots : (w.phys.incrementRef addr).slots f = w.phys.slots f := by rw [hphys]; rfl
    simp only [hslots, count_singleton, beq_iff_eq]
    split_ifs with he
    · rw [← he] at hone ⊢
      omega
    · exact hone
  · rw [hphys]
    simp only [count_singleton, beq_iff_eq]
    split_ifs with he
    · have h1 : (1 : UInt8).toNat = 1 := rfl
      rw [← he, update_self, UInt8.toNat_add, h.counted _ hmax, h1]
      omega
    · rw [update_of_ne (Ne.symm he), h.counted f hf, Nat.add_zero]

theorem lower {i : ℕ} (hpos : 0 < w.held i) : Owned usable ⟨w.phys.dropRef i, fun f => w.held f - [i].count f⟩ := by
  obtain ⟨hmax, hne, hsub⟩ := h.of_held hpos
  have hphys : w.phys.dropRef i = { w.phys with refs := update w.phys.refs i (w.phys.refs i - 1) } :=
    if_neg hne
  refine ⟨fun f => ?_, fun f hf => ?_, h.below⟩
  · have hone := h.once f
    have hslots : (w.phys.dropRef i).slots f = w.phys.slots f := by rw [hphys]; rfl
    simp only [hslots]
    omega
  · rw [hphys]
    simp only [count_singleton, beq_iff_eq]
    split_ifs with he
    · rw [← he, update_self, hsub]
    · rw [update_of_ne (Ne.symm he), h.counted f hf, Nat.sub_zero]

theorem giveBack (core addr : ℕ) (hfree : w.held (frameOf addr) = 0)
    (hplace : w.phys.slots (frameOf addr) = 0) (husable : usable (frameOf addr) = true) :
    Owned usable ⟨w.phys.reclaim core addr, w.held⟩ where
  once f := by
    have hone := h.once f
    have hslots := w.phys.reclaim_slots core addr f
    simp only
    by_cases he : frameOf addr = f
    · subst he
      rw [at1, if_pos rfl] at hslots
      rw [husable, Bool.toNat_true]
      omega
    · rw [at1, if_neg he] at hslots
      omega
  counted f hf := by
    rw [Physical.reclaim_refs]
    exact h.counted f hf
  below := h.below

end

end Owned

theorem allocateFrame_grants (s : Physical) (core : ℕ) :
    s.Grants (s.allocateFrame core).2 ((s.allocateFrame core).1.map frameOf).toList := by
  have hslots := s.grab_slots core
  have hrefs := s.grab_refs core
  rw [Physical.allocateFrame]
  rcases hg : s.grab core with ⟨r, s'⟩
  rw [hg] at hslots hrefs
  cases r with
  | none =>
    refine ⟨fun f => ?_, fun f _ => ?_⟩
    · simpa using hslots f
    · simp only at hrefs
      simp [hrefs]
  | some addr =>
    refine ⟨fun f => ?_, fun f hf => ?_⟩
    · have hf := hslots f
      have hcount : (Option.map frameOf (some addr)).toList.count f = at1 addr f := by
        simp [at1, count_singleton]
      simp only [Physical.slots_setRef, hcount]
      exact hf
    · simp only at hrefs
      simp [Physical.refs_setRef _ hf, hrefs]

theorem count_run (i n f : ℕ) : ((range n).map (i + ·)).count f = if i ≤ f ∧ f < i + n then 1 else 0 := by
  have hnodup : ((range n).map (i + ·)).Nodup :=
    Nodup.map (fun a b hab => Nat.add_left_cancel hab) nodup_range
  have hmem : f ∈ (range n).map (i + ·) ↔ i ≤ f ∧ f < i + n := by
    simp only [mem_map, mem_range]
    constructor
    · rintro ⟨k, hk, rfl⟩; omega
    · intro h
      exact ⟨f - i, by omega, by omega⟩
  split_ifs with h
  · exact count_eq_one_of_mem hnodup (hmem.2 h)
  · exact count_eq_zero_of_not_mem fun hm => h (hmem.1 hm)

theorem contiguous_grants {s : Physical} {count start : ℕ} {a : FrameAllocator} (h1 : count ≠ 1) (hle : count ≤ 32)
    (h : s.global.allocateContiguous count = some (start, a)) :
    s.Grants (Physical.setRefs { s with global := a } (frameOf start) count) ((range count).map (frameOf start + ·)) := by
  obtain ⟨i, rfl, ht⟩ := FrameAllocator.allocateContiguous_takes h1 h
  rw [frameOf_mul, Nat.min_eq_left hle] at *
  obtain ⟨hslots, hrefs⟩ := Physical.setRefs_spec { s with global := a } i count
  refine ⟨fun f => ?_, fun f hf => ?_⟩
  · rw [hslots, count_run]
    unfold Physical.slots FrameAllocator.places
    rw [ht.rest]
    split_ifs with hin
    · have hfree := ht.free (f - i) (by omega)
      rw [Nat.add_sub_cancel' hin.1] at hfree
      simp only [hin, and_self, decide_true, Bool.not_true, Bool.false_and, Bool.toNat_false, hfree, Bool.toNat_true]
      omega
    · rw [decide_eq_false hin, Bool.not_false, Bool.true_and, Nat.add_zero]
  · rw [hrefs f hf]
    apply if_congr _ rfl rfl
    rw [← count_pos_iff, count_run]
    split_ifs with hin <;> simp [hin]

/-- what a request for frames in a row hands out, whichever way it is served -/
theorem contiguousFrames_grants (w : World) (core : ℕ) {count : ℕ} (hle : count ≤ 32) :
    w.phys.Grants (w.phys.allocateContiguousFrames core count).2 (w.granted (.allocateContiguousFrames core count)) := by
  have hnone : w.phys.Grants w.phys [] := ⟨by simp, by simp⟩
  simp only [World.granted, Physical.allocateContiguousFrames]
  by_cases h0 : count = 0
  · simpa [h0] using hnone
  by_cases h1 : count = 1
  · subst h1
    have hone : ∀ r : Option ℕ, (match r with
        | none => []
        | some start => (range 1).map (frameOf start + ·)) = (r.map frameOf).toList := by
      intro r
      cases r <;> simp
    simp only [if_neg h0, if_true, hone]
    exact allocateFrame_grants w.phys core
  · simp only [if_neg h0, if_neg h1]
    cases ha : w.phys.global.allocateContiguous count with
    | none => exact hnone
    | some v => exact contiguous_grants h1 hle ha

variable {usable : ℕ → Bool}

/-- **A call of a caller that keeps to the rules keeps ownership.** -/
theorem Owned.step {w : World} (h : Owned usable w) {call : Call} (hok : w.Allowed call) :
    Owned usable (w.step call) := by
  obtain ⟨hdrops, hrule⟩ := hok
  cases call with
  | allocateFrame core => exact h.grant (allocateFrame_grants w.phys core)
  | allocateContiguousFrames core count => exact h.grant (contiguousFrames_grants w core hrule)
  | incrementRef addr => exact h.raise hrule.1 hrule.2
  | decrementRef addr =>
    have hpos := hdrops (frameOf addr) (mem_singleton_self _)
    have hphys : World.perform w.phys (.decrementRef addr) = w.phys.dropRef (frameOf addr) := by
      simp only [World.perform, Physical.decrementRef, if_pos (h.of_held hpos).1]
    have hlow := h.lower hpos
    rw [← hphys] at hlow
    exact hlow
  | deallocateFrame core addr =>
    have hpos := hdrops (frameOf addr) (mem_singleton_self _)
    obtain ⟨hmax, hne, hsub⟩ := h.of_held hpos
    have hlow := h.lower hpos
    have hlast : (w.phys.dropRef (frameOf addr)).refs (frameOf addr) = w.phys.refs (frameOf addr) - 1 := by
      rw [Physical.dropRef, if_neg hne]
      exact update_self ..
    by_cases hmore : w.phys.refs (frameOf addr) - 1 = 0
    · -- the last reference: the frame had no place, and gets one
      have hphys : World.perform w.phys (.deallocateFrame core addr) =
          (w.phys.dropRef (frameOf addr)).reclaim core addr := by
        simp only [World.perform, Physical.deallocateFrame, if_pos hmax, if_neg hne, hlast, hmore, ne_eq,
          not_true_eq_false, if_false]
      have hzero : w.held (frameOf addr) - 1 = 0 := by
        rw [← hsub, hmore]
        rfl
      have hone := h.once (frameOf addr)
      have hle := Bool.toNat_le (usable (frameOf addr))
      have hback := hlow.giveBack core addr (by simpa using hzero)
        (by
          have hslots : (w.phys.dropRef (frameOf addr)).slots (frameOf addr) = w.phys.slots (frameOf addr) := by
            rw [Physical.dropRef, if_neg hne]
            rfl
          rw [hslots]
          omega)
        (h.usable_of_pos (by omega))
      rw [← hphys] at hback
      exact hback
    · have hphys : World.perform w.phys (.deallocateFrame core addr) = w.phys.dropRef (frameOf addr) := by
        simp only [World.perform, Physical.deallocateFrame, if_pos hmax, if_neg hne, hlast, ne_eq, hmore,
          not_false_eq_true, if_true]
      rw [← hphys] at hlow
      exact hlow
  | drainLocalCache core => exact h.shrink (fun f => w.phys.drain_slots core f) (w.phys.drain_refs core)

theorem Owned.run {w : World} (h : Owned usable w) {calls : List Call}
    (hok : Each World.step World.Allowed w calls) : Owned usable (w.run calls) := by
  apply Runs.invariant _ h hok
  intro w call hw hcall
  exact hw.step hcall

variable (usableFrames pageTableFrames : List ℕ)

/-- after `init` the frames that are free in the bitmap are the usable ones -/
theorem owned_boot :
    Owned (World.boot usableFrames pageTableFrames).phys.global.isFree (World.boot usableFrames pageTableFrames) where
  once f := by
    have hslots : (World.boot usableFrames pageTableFrames).phys.slots f =
        ((World.boot usableFrames pageTableFrames).phys.global.isFree f).toNat := by
      have hempty : ∑ core ∈ Finset.range 32, stored ((World.boot usableFrames pageTableFrames).phys.caches core) f = 0 :=
        Finset.sum_eq_zero fun _ _ => rfl
      rw [Physical.slots, hempty]
      rfl
    rw [hslots]
    exact le_rfl
  counted f _ := rfl
  below f hf := FrameAllocator.lt_of_isFree hf

/-- **Frame ownership.** After any run of calls from boot that all keep to the rules, an available frame was usable at
boot and nobody holds it, and the next allocation hands out no frame that somebody holds. -/
theorem frames_owned (calls : List Call)
    (hok : Each World.step World.Allowed (World.boot usableFrames pageTableFrames) calls) {w : World}
    (hw : (World.boot usableFrames pageTableFrames).run calls = w) :
    (∀ f, w.phys.Available f → (World.boot usableFrames pageTableFrames).phys.global.isFree f = true ∧ w.held f = 0) ∧
    ∀ call, w.Allowed call → ∀ f ∈ w.granted call, w.held f = 0 := by
  have howned : Owned _ w := hw ▸ (owned_boot usableFrames pageTableFrames).run hok
  refine ⟨fun f hf => ?_, fun call hcall f hf => ?_⟩
  · have hpos := hf.slots_pos
    exact ⟨howned.usable_of_pos (Nat.add_pos_left hpos _), howned.unheld hpos⟩
  · apply howned.unheld
    have hcount := count_pos_iff.2 hf
    cases call with
    | allocateFrame core =>
      have hslots := (allocateFrame_grants w.phys core).1 f
      exact hcount.trans_le ((Nat.le_add_left _ _).trans hslots)
    | allocateContiguousFrames core count =>
      have hslots := (contiguousFrames_grants w core hcall.2).1 f
      exact hcount.trans_le ((Nat.le_add_left _ _).trans hslots)
    | _ => cases hf

/-! ### A page with many references -/

instance (w : World) (call : Call) : Decidable (w.Drops call) :=
  inferInstanceAs (Decidable (∀ f ∈ World.dropped call, 0 < w.held f))

instance (w : World) (call : Call) : Decidable (w.Allowed call) := by
  unfold World.Allowed
  cases call <;> infer_instance

/-- 16 usable frames from 1 MiB on -/
abbrev smallBoot : World := World.boot (range' 256 16) []

/-- a page is allocated, mapped once more, and dropped twice -/
def sharedTwice : List Call :=
  [.allocateFrame 0, .incrementRef 0x100000, .deallocateFrame 0 0x100000, .deallocateFrame 0 0x100000]

theorem frames_owned_shared : Each World.step World.Allowed smallBoot sharedTwice ∧
    (smallBoot.run sharedTwice).phys.Available 256 ∧ (smallBoot.run sharedTwice).held 256 = 0 := by
  have hok : Runs.Each World.step World.Allowed smallBoot sharedTwice := by decide +kernel
  have havail : (smallBoot.run sharedTwice).phys.Available 256 :=
    .inr ⟨0, by decide, 0x100000, by decide +kernel, by decide⟩
  refine ⟨hok, havail, ?_⟩
  generalize hw : smallBoot.run sharedTwice = w at havail
  exact ((frames_owned (range' 256 16) [] sharedTwice hok hw).1 256 havail).2

/-- a page is allocated, mapped 256 times more, and dropped once -/
def sharedOften : List Call :=
  .allocateFrame 0 :: (replicate 256 (.incrementRef 0x100000) ++ [.deallocateFrame 0 0x100000])

/-- **The counter has 8 bits.** The caller drops one of its 257 references; the frame becomes available with 256 left, and
the next allocation on that core hands it out. -/
theorem shared_page_reclaimed : Each World.step World.Drops smallBoot sharedOften ∧
    (smallBoot.run sharedOften).held 256 = 256 ∧ (smallBoot.run sharedOften).phys.Available 256 ∧
    (smallBoot.run sharedOften).granted (.allocateFrame 0) = [256] := by
  have havail : (smallBoot.run sharedOften).phys.Available 256 :=
    .inr ⟨0, by decide, 0x100000, by decide +kernel, by decide⟩
  exact ⟨by decide +kernel, by decide +kernel, havail, by decide +kernel⟩

end Kontsnor.Memory
