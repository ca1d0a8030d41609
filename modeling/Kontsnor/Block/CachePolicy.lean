/-
The block cache follows the second-chance policy.

Two views of the state under the lock carry every later argument:
- `clock`: the queue with the reference bits, the state of the abstract policy (`Core/SecondChance.lean`);
- `payload`: what is cached for a block, its data and its dirty bit.
Each operation of the cache is described once, by what it does to the two views. `Tracked` (the queue lists every
cached block exactly once) is what makes the views fit together.
-/
import Kontsnor.Core.SecondChance
import Kontsnor.Block.Cache

namespace Kontsnor.Block

open List Function BlockCacheInner

open Std (ExtTreeMap)
open SecondChance (keys touch sweep request sweep_rotate sweep_perm)

/-! ## The two views -/

namespace BlockCacheInner

variable (s : BlockCacheInner)

/-- the reference bit of a block (clear if it is not cached) -/
def bit (b : ℕ) : Bool := (s.entries[b]?).any CacheEntry.referenced

/-- the queue with its reference bits -/
def clock : List (ℕ × Bool) := s.fifoQueue.map fun b => (b, s.bit b)

/-- what is cached for a block: data and dirty bit -/
def payload (b : ℕ) : Option (List UInt8 × Bool) := (s.entries[b]?).map fun e => (e.data, e.dirty)

/-- the queue lists every cached block exactly once -/
structure Tracked : Prop where
  nodup : s.fifoQueue.Nodup
  mem : ∀ b, b ∈ s.fifoQueue ↔ b ∈ s.entries

@[simp] theorem clock_keys : SecondChance.keys s.clock = s.fifoQueue := by
  simp [clock, SecondChance.keys, comp_def]

@[simp] theorem clock_length : s.clock.length = s.fifoQueue.length := by simp [clock]

variable {s : BlockCacheInner} {b : ℕ}

theorem payload_eq_none : s.payload b = none ↔ s.entries[b]? = none := by
  simp [payload]

theorem Tracked.mem_iff (h : s.Tracked) (b : ℕ) : b ∈ s.fifoQueue ↔ s.payload b ≠ none := by
  rw [h.mem, ne_eq, payload_eq_none, ExtTreeMap.mem_iff_isSome_getElem?, Option.isSome_iff_ne_none]

theorem Tracked.size_eq (h : s.Tracked) : s.entries.size = s.fifoQueue.length := by
  have hk : s.entries.keys.Nodup := by
    have := ExtTreeMap.distinct_keys (t := s.entries)
    exact this.imp fun h => by simpa using h
  have hp : s.entries.keys.Perm s.fifoQueue :=
    (perm_ext_iff_of_nodup hk h.nodup).2 fun b => by rw [ExtTreeMap.mem_keys, h.mem]
  rw [← hp.length_eq, ExtTreeMap.length_keys]

section

variable (s : BlockCacheInner) (b : ℕ) (e : CacheEntry) (q : List ℕ) (n : ℕ)

theorem clock_insert :
    (⟨s.entries.insert b e, q, n⟩ : BlockCacheInner).clock =
      q.map fun x => (x, if x = b then e.referenced else s.bit x) := by
  refine map_congr_left fun x _ => ?_
  simp only [bit, ExtTreeMap.getElem?_insert, compare_eq_iff_eq]
  by_cases hx : b = x
  · subst hx; simp
  · simp [hx, Ne.symm hx]

theorem payload_insert :
    (⟨s.entries.insert b e, q, n⟩ : BlockCacheInner).payload = update s.payload b (some (e.data, e.dirty)) := by
  funext x
  simp only [payload, ExtTreeMap.getElem?_insert, compare_eq_iff_eq, update_apply]
  by_cases hx : b = x
  · subst hx; simp
  · simp [hx, Ne.symm hx]

end

theorem payload_erase (s : BlockCacheInner) (b : ℕ) {q : List ℕ} {n : ℕ} :
    (⟨s.entries.erase b, q, n⟩ : BlockCacheInner).payload = update s.payload b none := by
  funext x
  simp only [payload, ExtTreeMap.getElem?_erase, compare_eq_iff_eq, update_apply]
  by_cases hx : b = x
  · subst hx; simp
  · simp [hx, Ne.symm hx]

theorem clock_erase (s : BlockCacheInner) {q : List ℕ} {n : ℕ} (hb : b ∉ q) :
    (⟨s.entries.erase b, q, n⟩ : BlockCacheInner).clock = q.map fun x => (x, s.bit x) := by
  refine map_congr_left fun x hx => ?_
  have : b ≠ x := fun h => hb (h ▸ hx)
  simp [bit, ExtTreeMap.getElem?_erase, this]

/-- an entry replaced by one with another reference bit, data or dirty bit, the queue permuted -/
theorem Tracked.insert_old (h : s.Tracked) (hb : b ∈ s.entries) (e : CacheEntry)
    {q : List ℕ} (hq : q.Perm s.fifoQueue) (n : ℕ) : (⟨s.entries.insert b e, q, n⟩ : BlockCacheInner).Tracked where
  nodup := hq.nodup_iff.2 h.nodup
  mem x := by
    rw [hq.mem_iff, h.mem, ExtTreeMap.mem_insert, compare_eq_iff_eq]
    exact ⟨.inr, fun hx => hx.elim (fun hx => hx ▸ hb) id⟩

theorem Tracked.insert_new (h : s.Tracked) (hb : b ∉ s.entries) (e : CacheEntry)
    (n : ℕ) : (⟨s.entries.insert b e, s.fifoQueue ++ [b], n⟩ : BlockCacheInner).Tracked where
  nodup := by
    have hbq : b ∉ s.fifoQueue := fun hm => hb ((h.mem b).1 hm)
    exact nodup_append.2 ⟨h.nodup, nodup_singleton b, fun x hx y hy hxy =>
      hbq (mem_singleton.1 hy ▸ hxy ▸ hx)⟩
  mem x := by
    rw [mem_append, mem_singleton, h.mem, ExtTreeMap.mem_insert, compare_eq_iff_eq, or_comm, eq_comm]

theorem Tracked.erase_front (h : s.Tracked) {q : List ℕ} (hq : s.fifoQueue = b :: q)
    {n : ℕ} : (⟨s.entries.erase b, q, n⟩ : BlockCacheInner).Tracked where
  nodup := (nodup_cons.1 (hq ▸ h.nodup)).2
  mem x := by
    have hbq : b ∉ q := (nodup_cons.1 (hq ▸ h.nodup)).1
    rw [ExtTreeMap.mem_erase, ← h.mem, hq, mem_cons, ne_eq, compare_eq_iff_eq]
    exact ⟨fun hx => ⟨fun hbx => hbq (hbx ▸ hx), .inr hx⟩, fun ⟨hbx, hx⟩ => hx.resolve_left (Ne.symm hbx)⟩

end BlockCacheInner

/-! ## The victim -/

/-- queue pops left before an unreferenced block must come to the front -/
def chances (s : BlockCacheInner) : ℕ := s.clock.countP Prod.snd

/-- what evicting block `b` from `s` hands over and leaves -/
structure Evicted (s : BlockCacheInner) (r : Option (ℕ × List UInt8) × BlockCacheInner) (b : ℕ)
    (q : List (ℕ × Bool)) : Prop where
  victim : sweep s.clock = some (b, q)
  handed : r.1 = match s.payload b with
    | some (data, true) => some (b, data)
    | _ => none
  clock : r.2.clock = q
  payload : r.2.payload = update s.payload b none
  tracked : r.2.Tracked

section

variable {s : BlockCacheInner}

theorem evictLoop_spec {maxBlocks fuel : ℕ} (ht : s.Tracked) (hmax : maxBlocks ≤ s.entries.size)
    (hne : s.fifoQueue ≠ []) (hfuel : chances s < fuel) : ∃ b q, Evicted s (evictLoop maxBlocks fuel s) b q := by
  induction fuel generalizing s with
  | zero => omega
  | succ fuel ih =>
    obtain ⟨b, q, hq⟩ := exists_cons_of_ne_nil hne
    have hb : b ∈ s.entries := (ht.mem b).1 (hq ▸ mem_cons_self)
    obtain ⟨e, he⟩ := Option.isSome_iff_exists.1 (ExtTreeMap.mem_iff_isSome_getElem?.1 hb)
    have hbq : b ∉ q := (nodup_cons.1 (hq ▸ ht.nodup)).1
    have hclock : s.clock = (b, e.referenced) :: q.map fun x => (x, s.bit x) := by
      simp [clock, bit, hq, he]
    have hpay : s.payload b = some (e.data, e.dirty) := by simp [payload, he]
    by_cases href : e.referenced
    · -- rotate: the sweep is the same, one chance is used up
      set s1 : BlockCacheInner :=
        { s with entries := s.entries.insert b { e with referenced := false }, fifoQueue := q ++ [b] } with hs1
      have hrun : evictLoop maxBlocks (fuel + 1) s = evictLoop maxBlocks fuel s1 := by
        simp [evictLoop, hmax, hq, he, href, hs1]
      have hc1 : s1.clock = (q.map fun x => (x, s.bit x)) ++ [(b, false)] := by
        rw [hs1, clock_insert, map_append]
        congr 1
        · refine map_congr_left fun x hx => ?_
          have : x ≠ b := fun h => hbq (h ▸ hx)
          simp [this]
        · simp
      have hp1 : s1.payload = s.payload := by
        rw [hs1, payload_insert, ← hpay, update_eq_self]
      have ht1 : s1.Tracked := ht.insert_old hb _ (by rw [hq]; exact perm_append_singleton b q) _
      have hsize : s1.entries.size = s.entries.size := by
        rw [ht1.size_eq, ht.size_eq, hq]; simp [hs1]
      have hch : chances s1 + 1 = chances s := by
        rw [chances, chances, hc1, hclock, href]; simp
      obtain ⟨v, r, h⟩ := ih ht1 (by omega) (by simp [hs1]) (by omega)
      refine ⟨v, r, ?_⟩
      rw [hrun]
      refine ⟨?_, hp1 ▸ h.handed, h.clock, hp1 ▸ h.payload, h.tracked⟩
      rw [hclock, href, sweep_rotate, ← hc1, h.victim]
    · refine ⟨b, q.map fun x => (x, s.bit x), ?_⟩
      have hrun : evictLoop maxBlocks (fuel + 1) s =
          (if e.dirty then some (b, e.data) else none,
            ⟨s.entries.erase b, q, if e.dirty then s.dirtyCount - 1 else s.dirtyCount⟩) := by
        cases hd : e.dirty <;> simp [evictLoop, hmax, hq, he, href, hd]
      rw [hrun]
      refine ⟨?_, ?_, clock_erase s hbq, payload_erase s b, ht.erase_front hq⟩
      · rw [hclock, Bool.not_eq_true _ |>.mp href, SecondChance.sweep_unreferenced]
      · cases hd : e.dirty <;> simp [hpay, hd]

/-- **A full cache gives up the policy's victim.** -/
theorem evictOne_spec {maxBlocks : ℕ} (ht : s.Tracked) (hmax : maxBlocks ≤ s.entries.size)
    (hne : s.fifoQueue ≠ []) : ∃ b q, Evicted s (evictOne maxBlocks s) b q := by
  refine evictLoop_spec ht hmax hne ?_
  have : chances s ≤ s.fifoQueue.length := by
    rw [← clock_length]; exact countP_le_length
  omega

theorem evictOne_of_lt {maxBlocks : ℕ} (h : s.entries.size < maxBlocks) : evictOne maxBlocks s = (none, s) := by
  simp [evictOne, evictLoop, Nat.not_le.2 h]

end

/-! ## One block accessed -/

section Access

variable {D : Type} (R : ReliableDevice D) {maxBlocks : ℕ}

/-- the block as the cache would return it -/
def view (c : BlockCache D) (k : ℕ) : List UInt8 :=
  match c.inner.payload k with
  | some (data, _) => data
  | none => R.content c.device k

/-- the block as the device would hold it once a dirty entry is written back -/
def settled (c : BlockCache D) (k : ℕ) : List UInt8 :=
  match c.inner.payload k with
  | some (data, true) => data
  | _ => R.content c.device k

/-- a cache whose queue is in order and within its capacity, and whose entries are whole blocks -/
structure Ready (maxBlocks : ℕ) (c : BlockCache D) : Prop where
  tracked : c.inner.Tracked
  size_le : c.inner.fifoQueue.length ≤ maxBlocks
  whole : ∀ k data d, c.inner.payload k = some (data, d) → data.length = R.blockSize

/-- the cache after room was made: blocks still queued are untouched, the others are on the device -/
structure Roomed (maxBlocks : ℕ) (c c' : BlockCache D) : Prop where
  tracked : c'.inner.Tracked
  size_lt : c'.inner.fifoQueue.length < maxBlocks
  clock : c'.inner.clock =
    if maxBlocks ≤ c.inner.clock.length then ((sweep c.inner.clock).map Prod.snd).getD c.inner.clock else c.inner.clock
  kept : ∀ k ∈ c'.inner.fifoQueue, c'.inner.payload k = c.inner.payload k ∧ R.content c'.device k = R.content c.device k
  gone : ∀ k ∉ c'.inner.fifoQueue, c'.inner.payload k = none ∧ R.content c'.device k = settled R c k

variable {c : BlockCache D}

theorem makeRoomLoop_of_lt {B : BlockDevice D} {fuel : ℕ} (h : c.inner.entries.size < maxBlocks) :
    makeRoomLoop B maxBlocks fuel c = .ok () c := by
  cases fuel with
  | zero => rfl
  | succ fuel => simp [makeRoomLoop, evictOne_of_lt h]

variable {R}

section

variable (h : Ready R maxBlocks c)
include h

theorem Ready.payload_none {k : ℕ} (hk : k ∉ c.inner.fifoQueue) : c.inner.payload k = none := by
  by_contra hp
  exact hk ((h.tracked.mem_iff k).2 hp)

theorem makeRoom_evicted {b : ℕ} {q : List (ℕ × Bool)}
    (he : Evicted c.inner (evictOne maxBlocks c.inner) b q)
    (hlt : (evictOne maxBlocks c.inner).2.entries.size < maxBlocks) :
    ∃ d', makeRoom R.toBlockDevice maxBlocks c = .ok () ⟨(evictOne maxBlocks c.inner).2, d'⟩ ∧
      R.content d' = update (R.content c.device) b (settled R c b) := by
  set r := evictOne maxBlocks c.inner with hr
  have hclean : r.1 = none → settled R c b = R.content c.device b →
      ∃ d', makeRoom R.toBlockDevice maxBlocks c = .ok () ⟨r.2, d'⟩ ∧
        R.content d' = update (R.content c.device) b (settled R c b) := by
    intro hnone hset
    have hr' : evictOne maxBlocks c.inner = (none, r.2) := by rw [← hr, ← hnone]
    exact ⟨c.device, by simp [makeRoom, makeRoomLoop, hr'], by rw [hset, update_eq_self]⟩
  have hh := he.handed
  match hp : c.inner.payload b with
  | none => exact hclean (by rw [hh, hp]) (by rw [settled, hp])
  | some (data, false) => exact hclean (by rw [hh, hp]) (by rw [settled, hp])
  | some (data, true) =>
    rw [hp] at hh
    have hlen := h.whole b data true hp
    obtain ⟨d', hw, hc⟩ := R.write_ok c.device b data (by rw [hlen, Nat.mod_self])
    have hr' : evictOne maxBlocks c.inner = (some (b, data), r.2) := by rw [← hr]; exact Prod.ext hh rfl
    refine ⟨d', ?_, by rw [hc, store_one R.blockSize_pos hlen, settled, hp]⟩
    simp only [makeRoom, makeRoomLoop, hr', bind, EStateM.bind, onDevice, hw]
    exact makeRoomLoop_of_lt hlt

theorem makeRoom_spec (hpos : 0 < maxBlocks) :
    ∃ c', makeRoom R.toBlockDevice maxBlocks c = .ok () c' ∧ Roomed R maxBlocks c c' := by
  have hsz := h.tracked.size_eq
  by_cases hfull : maxBlocks ≤ c.inner.fifoQueue.length
  · have hne : c.inner.fifoQueue ≠ [] := fun h0 => by rw [h0] at hfull; simp at hfull; omega
    obtain ⟨b, q, he⟩ := evictOne_spec h.tracked (show maxBlocks ≤ _ by omega) hne
    set r := evictOne maxBlocks c.inner with hr
    have hq : r.2.fifoQueue = keys q := by rw [← clock_keys, he.clock]
    have hperm : (b :: r.2.fifoQueue).Perm c.inner.fifoQueue := by
      rw [hq, ← clock_keys c.inner]; exact sweep_perm he.victim
    have hlen : r.2.fifoQueue.length < maxBlocks := by
      have := hperm.length_eq; have := h.size_le; rw [length_cons] at *; omega
    have hsz' := he.tracked.size_eq
    have hclock : r.2.clock = if maxBlocks ≤ c.inner.clock.length
        then ((sweep c.inner.clock).map Prod.snd).getD c.inner.clock else c.inner.clock := by
      simp [he.clock, he.victim, hfull]
    have hbq : b ∉ r.2.fifoQueue := (nodup_cons.1 (hperm.nodup_iff.2 h.tracked.nodup)).1
    have hgone : ∀ k ∉ r.2.fifoQueue, k ≠ b → c.inner.payload k = none := fun k hk hkb =>
      h.payload_none fun hm => (mem_cons.1 (hperm.mem_iff.2 hm)).elim hkb hk
    obtain ⟨d', hrun, hcont⟩ := makeRoom_evicted h he (by rw [← hr]; omega)
    rw [← hr] at hrun
    refine ⟨_, hrun, he.tracked, hlen, hclock, fun k hk => ?_, fun k hk => ?_⟩
    · have hkb : k ≠ b := fun h => hbq (h ▸ hk)
      simp [he.payload, hcont, hkb]
    · by_cases hkb : k = b
      · subst hkb; simp [he.payload, hcont]
      · simp [he.payload, hcont, hkb, hgone k hk hkb, settled]
  · refine ⟨c, makeRoomLoop_of_lt (by omega), h.tracked, by omega, by simp [hfull], fun k _ => ⟨rfl, rfl⟩, fun k hk => ?_⟩
    simp [settled, h.payload_none hk]

end

variable (R) in
/-- the cache after block `b` was asked for and ended up cached as `v` -/
structure Accessed (maxBlocks b : ℕ) (v : List UInt8 × Bool) (c c' : BlockCache D) : Prop where
  clock : c'.inner.clock = request maxBlocks b c.inner.clock
  ready : Ready R maxBlocks c'
  here : c'.inner.payload b = some v ∧ R.content c'.device b = R.content c.device b
  kept : ∀ k ≠ b, k ∈ c'.inner.fifoQueue →
    c'.inner.payload k = c.inner.payload k ∧ R.content c'.device k = R.content c.device k
  gone : ∀ k ≠ b, k ∉ c'.inner.fifoQueue → c'.inner.payload k = none ∧ R.content c'.device k = settled R c k

theorem accessed_hit (h : Ready R maxBlocks c) {b : ℕ} (hb : b ∈ c.inner.entries) {e : CacheEntry}
    (href : e.referenced = true) (hlen : e.data.length = R.blockSize) (n : ℕ) :
    Accessed R maxBlocks b (e.data, e.dirty) c
      { c with inner := ⟨c.inner.entries.insert b e, c.inner.fifoQueue, n⟩ } where
  clock := by
    have hbk : b ∈ keys c.inner.clock := by rw [clock_keys]; exact (h.tracked.mem b).2 hb
    rw [request, if_pos hbk, clock_insert, touch, clock, map_map]
    refine map_congr_left fun x _ => ?_
    by_cases hx : x = b <;> simp [hx, href]
  ready := by
    refine ⟨h.tracked.insert_old hb e (Perm.refl _) n, h.size_le, fun k data d hk => ?_⟩
    simp only [payload_insert, update_apply] at hk
    split_ifs at hk
    · cases hk; exact hlen
    · exact h.whole k data d hk
  here := by simp [payload_insert]
  kept k hk _ := by simp [payload_insert, hk]
  gone k hk hq := by simp [payload_insert, hk, settled, h.payload_none hq]

/-- a block that is not cached, put at the back of the queue after room was made -/
theorem accessed_miss {c1 : BlockCache D} (h : Ready R maxBlocks c) (hr : Roomed R maxBlocks c c1) {b : ℕ}
    (hpb : c.inner.payload b = none) {e : CacheEntry} (href : e.referenced = false) (hlen : e.data.length = R.blockSize)
    (n : ℕ) : Accessed R maxBlocks b (e.data, e.dirty) c
      { c1 with inner := ⟨c1.inner.entries.insert b e, c1.inner.fifoQueue ++ [b], n⟩ } := by
  have hbq : b ∉ c.inner.fifoQueue := fun hm => (h.tracked.mem_iff b).1 hm hpb
  have hb1 : b ∉ c1.inner.fifoQueue := fun hm => by
    have := (hr.tracked.mem_iff b).1 hm
    rw [(hr.kept b hm).1] at this; exact this hpb
  have hne : ∀ {k}, k ≠ b → (k ∈ c1.inner.fifoQueue ++ [b] ↔ k ∈ c1.inner.fifoQueue) := fun hk => by simp [hk]
  refine ⟨?_, ⟨hr.tracked.insert_new (fun hm => hb1 ((hr.tracked.mem b).2 hm)) e n, ?_, fun k data d hk => ?_⟩,
    ?_, fun k hk hq => ?_, fun k hk hq => ?_⟩
  · rw [request, if_neg (by rwa [clock_keys]), clock_insert, map_append]
    have hold : (c1.inner.fifoQueue.map fun x => (x, if x = b then e.referenced else c1.inner.bit x)) =
        c1.inner.clock := by
      refine map_congr_left fun x hx => ?_
      have : x ≠ b := fun h => hb1 (h ▸ hx)
      simp [this]
    rw [hold, hr.clock]
    simp only [map_cons, map_nil, if_pos, href]
    split_ifs <;> rfl
  · have := hr.size_lt
    simp only [length_append, length_singleton]; omega
  · simp only [payload_insert, update_apply] at hk
    split_ifs at hk with hkb
    · cases hk; exact hlen
    · by_cases hq : k ∈ c1.inner.fifoQueue
      · exact h.whole k data d (by rw [← (hr.kept k hq).1]; exact hk)
      · rw [(hr.gone k hq).1] at hk; cases hk
  · simp [payload_insert, (hr.gone b hb1).2, settled, hpb]
  · simpa [payload_insert, hk] using hr.kept k ((hne hk).1 hq)
  · simpa [payload_insert, hk] using hr.gone k fun hm => hq ((hne hk).2 hm)

end Access

end Kontsnor.Block
