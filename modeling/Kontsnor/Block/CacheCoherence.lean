/-
Coherence of the block cache.

The specification is a flat array of blocks: a write stores, a read loads, a flush does nothing. A run of the cache is
coherent if every read returns what the array holds at that point.

The cache is not coherent in general. A read that misses fetches its whole range from the device first and then goes
through the blocks one by one, making room as it inserts. A dirty block of the range that is chosen as a victim before
its own turn is written back too late: the read returns (and caches as clean) the old bytes.

`Coherent` is the invariant: both ways to read a block, through the cache and from the device once dirty
entries are written back, give the array's value.
-/
import Kontsnor.Block.CachePolicy

namespace Kontsnor.Block

open Fallible (get_bind bind_ok)
open List Function BlockCacheInner BlockCache Nat

open Std (ExtTreeMap)
open SecondChance (keys requestAll mem_of_mem_requestAll)

/-! ## The array the cache stands for -/

def after (bs : ℕ) (m : ℕ → List UInt8) : Op → ℕ → List UInt8
  | .write block data => if data.length % bs = 0 then store bs m block data else m
  | _ => m

/-- a call is answered right: a read of whole blocks returns what the array holds -/
def Answers (bs : ℕ) (m : ℕ → List UInt8) : Op → Reply → Prop
  | .read block len, r => len % bs = 0 → r = .ok (load m block (len / bs))
  | _, _ => True

variable {data : List UInt8} {v : List UInt8 × Bool} {block i n : ℕ}

section Coherence

variable {D : Type} {R : ReliableDevice D} {maxBlocks : ℕ} {m : ℕ → List UInt8}

variable (R maxBlocks) in
def AllAnswered (c : BlockCache D) (m : ℕ → List UInt8) : List Op → Prop
  | [] => True
  | o :: ops => Answers R.blockSize m o (step R.toBlockDevice maxBlocks c o).1 ∧
      AllAnswered (step R.toBlockDevice maxBlocks c o).2 (after R.blockSize m o) ops

/-- the queue after the blocks `block .. block + j` were asked for -/
def queueAt (maxBlocks : ℕ) (c : BlockCache D) (block j : ℕ) : List (ℕ × Bool) :=
  requestAll maxBlocks c.inner.clock (range' block j)

variable (R maxBlocks) in
/-- a read is safe: a block of its range that is cached with data the device does not have is still cached when its
turn comes -/
def Safe (c : BlockCache D) : Op → Prop
  | .read block len => len % R.blockSize = 0 → ∀ j < len / R.blockSize,
      view R c (block + j) ≠ R.content c.device (block + j) → block + j ∈ keys (queueAt maxBlocks c block j)
  | _ => True

variable (R maxBlocks) in
def AllSafe (c : BlockCache D) : List Op → Prop
  | [] => True
  | o :: ops => Safe R maxBlocks c o ∧ AllSafe (step R.toBlockDevice maxBlocks c o).2 ops

instance (c : BlockCache D) : (o : Op) → Decidable (Safe R maxBlocks c o)
  | .read block len => inferInstanceAs (Decidable (len % R.blockSize = 0 → ∀ j < len / R.blockSize,
      view R c (block + j) ≠ R.content c.device (block + j) → block + j ∈ keys (queueAt maxBlocks c block j)))
  | .write _ _ => .isTrue trivial
  | .flush => .isTrue trivial

instance decidableAllSafe (c : BlockCache D) : (ops : List Op) → Decidable (AllSafe R maxBlocks c ops)
  | [] => .isTrue trivial
  | o :: ops =>
    have := decidableAllSafe (step R.toBlockDevice maxBlocks c o).2 ops
    inferInstanceAs (Decidable (_ ∧ _))

variable (R maxBlocks) in
/-- the cache and the array agree, and so would the device once every dirty entry is written back -/
structure Coherent (m : ℕ → List UInt8) (c : BlockCache D) : Prop where
  ready : Ready R maxBlocks c
  view_eq : ∀ k, view R c k = m k
  settled_eq : ∀ k, settled R c k = m k

theorem coherent_new (d : D) : Coherent R maxBlocks (R.content d) (new d) where
  ready := ⟨⟨nodup_nil, by simp [new]⟩, zero_le _, by simp [payload, new]⟩
  view_eq k := by simp [view, payload, new]
  settled_eq k := by simp [settled, payload, new]

variable {c : BlockCache D}

theorem Coherent.payload_eq (h : Coherent R maxBlocks m c) {k : ℕ} {d : Bool}
    (hp : c.inner.payload k = some (data, d)) : data = m k := by
  have := h.view_eq k
  rwa [view, hp] at this

theorem Coherent.access {c' : BlockCache D} (h : Coherent R maxBlocks m c) {b : ℕ}
    (ha : Accessed R maxBlocks b v c c') (hv : v.2 = true ∨ v.1 = R.content c.device b) :
    Coherent R maxBlocks (update m b v.1) c' := by
  obtain ⟨data, d⟩ := v
  refine ⟨ha.ready, fun k => ?_, fun k => ?_⟩
  · by_cases hk : k = b
    · subst hk; simp [view, ha.here]
    · rw [update_of_ne hk]
      by_cases hq : k ∈ c'.inner.fifoQueue
      · rw [← h.view_eq k, view, view, (ha.kept k hk hq).1, (ha.kept k hk hq).2]
      · rw [view, (ha.gone k hk hq).1, ← h.settled_eq k]; exact (ha.gone k hk hq).2
  · by_cases hk : k = b
    · subst hk; cases d <;> simp_all [settled, ha.here]
    · rw [update_of_ne hk, ← h.settled_eq k]
      by_cases hq : k ∈ c'.inner.fifoQueue
      · rw [settled, settled, (ha.kept k hk hq).1, (ha.kept k hk hq).2]
      · rw [settled, (ha.gone k hk hq).1]; exact (ha.gone k hk hq).2

/-! ## Reads -/

variable {buf : List UInt8}

/-- one turn of step 3 of a read: the block is accessed, from the cache if it is there and from `buf` if not -/
theorem fillCache_succ (h : Ready R maxBlocks c) (hpos : 0 < maxBlocks)
    (block i : ℕ) (hbuf : (chunk R.blockSize buf i).length = R.blockSize) (n : ℕ) :
    ∃ v c', v = (c.inner.payload (block + i)).getD (chunk R.blockSize buf i, false) ∧
      Accessed R maxBlocks (block + i) v c c' ∧
      fillCache R.toBlockDevice maxBlocks buf block i (n + 1) c =
        (do return v.1 ++ (← fillCache R.toBlockDevice maxBlocks buf block (i + 1) n)) c' := by
  cases he : c.inner.entries[block + i]? with
  | some e =>
    have hp : c.inner.payload (block + i) = some (e.data, e.dirty) := by simp [payload, he]
    have hmem : block + i ∈ c.inner.entries := by rw [ExtTreeMap.mem_iff_isSome_getElem?, he]; rfl
    refine ⟨(e.data, e.dirty), _, by rw [hp]; rfl,
      accessed_hit h hmem (e := { e with referenced := true }) rfl (h.whole _ _ _ hp) c.inner.dirtyCount, ?_⟩
    simp [fillCache, he, reference]
  | none =>
    have hp : c.inner.payload (block + i) = none := payload_eq_none.2 he
    obtain ⟨c1, hrun, hroom⟩ := makeRoom_spec h hpos
    refine ⟨_, _, by rw [hp]; rfl,
      accessed_miss h hroom hp (e := ⟨chunk R.blockSize buf i, false, false⟩) rfl hbuf c1.inner.dirtyCount, ?_⟩
    simp [fillCache, he, bind_ok hrun, insertClean]

variable (R maxBlocks) in
/-- what a read returns for block `k`, from the state in which it is about to go through `block + i` and the later
blocks -/
def answer (c : BlockCache D) (buf : List UInt8) (block i k : ℕ) : List UInt8 :=
  if k ∈ keys (queueAt maxBlocks c (block + i) (k - (block + i))) then view R c k
  else chunk R.blockSize buf (k - block)

theorem answer_here (h : Ready R maxBlocks c) :
    answer R maxBlocks c buf block i (block + i) =
      ((c.inner.payload (block + i)).getD (chunk R.blockSize buf i, false)).1 := by
  simp only [answer, queueAt, Nat.sub_self, range'_zero, requestAll, foldl_nil, clock_keys,
    h.tracked.mem_iff, view, Nat.add_sub_cancel_left]
  cases c.inner.payload (block + i) <;> simp

theorem answer_next {c' : BlockCache D} {k : ℕ} (ha : Accessed R maxBlocks (block + i) v c c') (hk : block + i < k) :
    answer R maxBlocks c' buf block (i + 1) k = answer R maxBlocks c buf block i k := by
  have hq : queueAt maxBlocks c (block + i) (k - (block + i)) =
      queueAt maxBlocks c' (block + (i + 1)) (k - (block + (i + 1))) := by
    have : k - (block + i) = (k - (block + (i + 1))) + 1 := by omega
    rw [queueAt, queueAt, this, range'_succ, requestAll, foldl_cons, ← ha.clock]; rfl
  rw [answer, answer, ← hq]
  split_ifs with hin
  · rw [hq] at hin
    rcases mem_of_mem_requestAll hin with hr | hr
    · rw [mem_range'_1] at hr; omega
    · rw [clock_keys] at hr
      obtain ⟨hp, hc⟩ := ha.kept k (by omega) hr
      rw [view, view, hp, hc]
  · rfl

theorem fillCache_spec (h : Ready R maxBlocks c) (hpos : 0 < maxBlocks)
    (block : ℕ) (hbuf : ∀ j < n, (chunk R.blockSize buf (i + j)).length = R.blockSize) :
    ∃ c', fillCache R.toBlockDevice maxBlocks buf block i n c =
        .ok (load (answer R maxBlocks c buf block i) (block + i) n) c' ∧
      (Coherent R maxBlocks m c → (∀ j < n, answer R maxBlocks c buf block i (block + i + j) = m (block + i + j)) →
        Coherent R maxBlocks m c') := by
  induction n generalizing c i with
  | zero => exact ⟨c, rfl, fun hc _ => hc⟩
  | succ n ih =>
    obtain ⟨v, c1, hv, ha, hrun⟩ := fillCache_succ h hpos block i (hbuf 0 (by omega)) n
    obtain ⟨c', hrest, hcoh⟩ := ih ha.ready (i := i + 1) fun j hj => by
      rw [show i + 1 + j = i + (j + 1) by omega]; exact hbuf _ (by omega)
    have hans : ∀ j, answer R maxBlocks c1 buf block (i + 1) (block + (i + 1) + j) =
        answer R maxBlocks c buf block i (block + i + (j + 1)) := fun j => by
      rw [answer_next ha (by omega)]; congr 1; omega
    refine ⟨c', ?_, fun hc hm => hcoh ?_ fun j hj => ?_⟩
    · have hload : load (answer R maxBlocks c1 buf block (i + 1)) (block + (i + 1)) n =
          load (answer R maxBlocks c buf block i) (block + i + 1) n :=
        load_congr fun j _ => by rw [hans]; congr 1; omega
      rw [hrun, bind_ok hrest, load_succ, answer_here h, ← hv, hload]; rfl
    · have hvm : v.1 = m (block + i) := by rw [hv, ← answer_here h]; exact hm 0 (by omega)
      have hvc : v.2 = true ∨ v.1 = R.content c.device (block + i) := by
        have hs := hc.settled_eq (block + i)
        rw [settled] at hs
        rw [hvm, ← hs]
        rcases hp : c.inner.payload (block + i) with _ | ⟨_, _ | _⟩
        · exact .inr rfl
        · exact .inr rfl
        · exact .inl (by rw [hv, hp]; rfl)
      have := hc.access ha hvc
      rwa [hvm, update_eq_self] at this
    · rw [hans, hm _ (by omega)]; congr 1; omega

/-- with every block cached, the hit path does what step 3 would do -/
theorem readHits_eq_fillCache (hits : ∀ j < n, block + i + j ∈ c.inner.entries) :
    readHits (block + i) n c = fillCache R.toBlockDevice maxBlocks buf block i n c := by
  induction n generalizing c i with
  | zero => rfl
  | succ n ih =>
    have hb : (c.inner.entries[block + i]?).isSome := ExtTreeMap.mem_iff_isSome_getElem?.1 (hits 0 (by omega))
    obtain ⟨e, he⟩ := Option.isSome_iff_exists.1 hb
    have hrec := ih (c := { c with inner := c.inner.reference (block + i) e }) (i := i + 1) fun j hj => by
      rw [reference, ExtTreeMap.mem_insert]
      exact .inr (by rw [show block + (i + 1) + j = block + i + (j + 1) by omega]; exact hits _ (by omega))
    simp only [readHits, fillCache, get_bind, he, onInner_bind]
    simp only [bind, EStateM.bind]
    rw [show block + i + 1 = block + (i + 1) by omega, hrec]

theorem Ready.view_length (h : Ready R maxBlocks c) (k : ℕ) : (view R c k).length = R.blockSize := by
  rw [view]
  split
  · exact h.whole k _ _ (by assumption)
  · exact R.content_length _ _

theorem answer_eq_view_iff {j : ℕ} (hbuf : chunk R.blockSize buf j = R.content c.device (block + j)) :
    answer R maxBlocks c buf block 0 (block + j) = view R c (block + j) ↔
      (view R c (block + j) ≠ R.content c.device (block + j) → block + j ∈ keys (queueAt maxBlocks c block j)) := by
  simp only [answer, Nat.add_zero, Nat.add_sub_cancel_left, hbuf]
  split_ifs with hin
  · simp [hin]
  · simp [hin, eq_comm]

/-- whichever path a read takes, it is step 3 on what the device held -/
theorem readBlock_eq (c : BlockCache D) (maxBlocks block : ℕ) {len : ℕ} (hlen : len % R.blockSize = 0) :
    ∃ d', R.content d' = R.content c.device ∧ readBlock R.toBlockDevice maxBlocks block len c =
      fillCache R.toBlockDevice maxBlocks (load (R.content c.device) block (len / R.blockSize)) block 0
        (len / R.blockSize) { c with device := d' } := by
  by_cases hits : ∀ i < len / R.blockSize, c.inner.entries.contains (block + i)
  · refine ⟨c.device, rfl, ?_⟩
    rw [← readHits_eq_fillCache fun j hj => ExtTreeMap.mem_iff_contains.2 (hits j hj)]
    simp only [readBlock, hlen, ne_eq, not_true_eq_false, if_false, get_bind, if_pos hits]; rfl
  · obtain ⟨d', hread, hcont⟩ := R.read_ok c.device block len hlen
    have hdev : onDevice (R.readBlock block len) c =
        .ok (load (R.content c.device) block (len / R.blockSize)) { c with device := d' } := by
      rw [onDevice, hread]
    refine ⟨d', hcont, ?_⟩
    simp only [readBlock, hlen, ne_eq, not_true_eq_false, if_false, get_bind, if_neg hits, bind_ok hdev]

/-- what a read returns, and that it keeps the agreement with the array if it is right -/
theorem readBlock_spec (h : Coherent R maxBlocks m c) (hpos : 0 < maxBlocks) (block : ℕ)
    {len : ℕ} (hlen : len % R.blockSize = 0) :
    ∃ out c', readBlock R.toBlockDevice maxBlocks block len c = .ok out c' ∧
      (out = load m block (len / R.blockSize) ↔ Safe R maxBlocks c (.read block len)) ∧
      (Safe R maxBlocks c (.read block len) → Coherent R maxBlocks m c') := by
  obtain ⟨d', hcont, hrun⟩ := readBlock_eq c maxBlocks block hlen
  set n := len / R.blockSize with hn
  set buf := load (R.content c.device) block n
  set c1 : BlockCache D := { c with device := d' } with hc1
  have hview : ∀ k, view R c1 k = view R c k := fun k => by simp only [view, hc1, hcont]
  have h1 : Coherent R maxBlocks m c1 :=
    ⟨⟨h.ready.tracked, h.ready.size_le, h.ready.whole⟩, fun k => by rw [hview, h.view_eq],
      fun k => by rw [← h.settled_eq k]; simp only [settled, hc1, hcont]⟩
  have hchunk : ∀ j < n, chunk R.blockSize buf j = R.content c1.device (block + j) := fun j hj => by
    rw [hc1, hcont]; exact chunk_load (fun _ _ => R.content_length _ _) hj
  obtain ⟨c', hfill, hcoh⟩ := fillCache_spec (m := m) h1.ready hpos block (i := 0) (n := n)
    fun j hj => by rw [zero_add, hchunk j hj]; exact R.content_length _ _
  -- every block is right exactly if the read is safe
  have hsafe : (∀ j < n, answer R maxBlocks c1 buf block 0 (block + j) = m (block + j)) ↔
      Safe R maxBlocks c (.read block len) := by
    simp only [Safe, hlen, true_implies, ← hn]
    refine forall₂_congr fun j hj => ?_
    rw [← h1.view_eq, answer_eq_view_iff (hchunk j hj), hview, hc1, hcont]; rfl
  have hans_len : ∀ j < n, (answer R maxBlocks c1 buf block 0 (block + j)).length = R.blockSize := fun j hj => by
    simp only [answer, Nat.add_zero, Nat.add_sub_cancel_left, hchunk j hj]
    split_ifs
    · exact h1.ready.view_length _
    · exact R.content_length _ _
  refine ⟨_, c', hrun.trans hfill, ?_, fun hs => hcoh h1 (hsafe.2 hs)⟩
  rw [← hsafe]
  exact load_inj hans_len fun j _ => by rw [← h.view_eq]; exact h.ready.view_length _

/-! ## Writes -/

theorem writeLoop_succ (h : Ready R maxBlocks c) (hpos : 0 < maxBlocks)
    (block i : ℕ) (hlen : (chunk R.blockSize data i).length = R.blockSize) (n : ℕ) :
    ∃ c', Accessed R maxBlocks (block + i) (chunk R.blockSize data i, true) c c' ∧
      writeLoop R.toBlockDevice maxBlocks data block i (n + 1) c =
        writeLoop R.toBlockDevice maxBlocks data block (i + 1) n c' := by
  cases he : c.inner.entries[block + i]? with
  | some e =>
    have hmem : block + i ∈ c.inner.entries := by rw [ExtTreeMap.mem_iff_isSome_getElem?, he]; rfl
    refine ⟨_, accessed_hit h hmem (e := ⟨chunk R.blockSize data i, true, true⟩) rfl hlen
      (if e.dirty then c.inner.dirtyCount else c.inner.dirtyCount + 1), ?_⟩
    simp [writeLoop, he, overwrite]
  | none =>
    obtain ⟨c1, hrun, hroom⟩ := makeRoom_spec h hpos
    refine ⟨_, accessed_miss h hroom (payload_eq_none.2 he) (e := ⟨chunk R.blockSize data i, false, true⟩) rfl hlen
      (c1.inner.dirtyCount + 1), ?_⟩
    simp [writeLoop, he, bind_ok hrun, insertDirty]

theorem writeLoop_spec (h : Coherent R maxBlocks m c) (hpos : 0 < maxBlocks)
    (block : ℕ) (hlen : ∀ j < n, (chunk R.blockSize data (i + j)).length = R.blockSize) :
    ∃ c', writeLoop R.toBlockDevice maxBlocks data block i n c = .ok () c' ∧
      Coherent R maxBlocks
        (fun k => if block + i ≤ k ∧ k < block + i + n then chunk R.blockSize data (k - block) else m k) c' := by
  induction n generalizing c i m with
  | zero => exact ⟨c, rfl, by simpa [Nat.not_lt_of_le, show ∀ k, ¬(block + i ≤ k ∧ k < block + i) by omega] using h⟩
  | succ n ih =>
    obtain ⟨c1, ha, hrun⟩ := writeLoop_succ h.ready hpos block i (hlen 0 (by omega)) n
    obtain ⟨c', hrest, hcoh⟩ := ih (h.access ha (.inl rfl)) (i := i + 1) fun j hj => by
      rw [show i + 1 + j = i + (j + 1) by omega]; exact hlen _ (by omega)
    refine ⟨c', hrun.trans hrest, ?_⟩
    convert hcoh using 2 with k
    by_cases hk : k = block + i
    · subst hk
      rw [if_pos (by omega), if_neg (by omega), update_self, Nat.add_sub_cancel_left]
    · rw [update_of_ne hk]
      exact if_congr (by omega) rfl rfl

/-! ## Flushes -/

theorem gather_eq (h : Coherent R maxBlocks m c) (start n : ℕ) (blocks : List ℕ) :
    (gather c.inner start n blocks).1.flatten = load m (start + n) (gather c.inner start n blocks).1.length ∧
      ∀ j < (gather c.inner start n blocks).1.length, start + n + j ∈ c.inner.entries := by
  induction blocks generalizing n with
  | nil => exact ⟨rfl, fun j hj => absurd hj (not_lt_zero j)⟩
  | cons b rest ih =>
    by_cases hb : b = start + n ∧ n < 128
    · obtain ⟨rfl, hn⟩ := hb
      cases he : c.inner.entries[start + n]? with
      | none => simp [gather, hn, he, load]
      | some e =>
        obtain ⟨hflat, hmem⟩ := ih (n + 1)
        have hdata : e.data = m (start + n) :=
          h.payload_eq (d := e.dirty) (by simp [payload, he])
        have hg : (gather c.inner start n ((start + n) :: rest)).1 =
            e.data :: (gather c.inner start (n + 1) rest).1 := by
          simp [gather, hn, he]
        rw [hg, flatten_cons, hflat, length_cons, load_succ, hdata]
        refine ⟨rfl, fun j hj => ?_⟩
        cases j with
        | zero => rw [add_zero, ExtTreeMap.mem_iff_isSome_getElem?, he]; rfl
        | succ j => rw [show start + n + (j + 1) = start + (n + 1) + j by omega]; exact hmem j (by omega)
    · have hg : (gather c.inner start n (b :: rest)).1 = [] := by
        cases hx : c.inner.entries[b]? <;> simp [gather, hb]
      simp [hg, load]

namespace BlockCacheInner

variable {s : BlockCacheInner}

theorem settle_spec (h : s.Tracked) (b : ℕ) (data : List UInt8) :
    (s.settle b data).Tracked ∧ (s.settle b data).fifoQueue = s.fifoQueue ∧
      ∀ k, (s.settle b data).payload k = if k = b ∧ s.payload b = some (data, true) then some (data, false)
        else s.payload k := by
  cases he : s.entries[b]? with
  | none =>
    have hs : s.settle b data = s := by simp [settle, he]
    rw [hs]
    exact ⟨h, rfl, fun k => by simp [payload, he]⟩
  | some e =>
    have hp : s.payload b = some (e.data, e.dirty) := by simp [payload, he]
    by_cases hd : e.data = data ∧ e.dirty = true
    · have hs : s.settle b data =
          { s with entries := s.entries.insert b { e with dirty := false }, dirtyCount := s.dirtyCount - 1 } := by
        simp [settle, he, hd]
      have hb : b ∈ s.entries := by rw [ExtTreeMap.mem_iff_isSome_getElem?, he]; rfl
      rw [hs]
      refine ⟨h.insert_old hb _ (Perm.refl _) _, rfl, fun k => ?_⟩
      rw [payload_insert, update_apply]; simp [hp, hd]
    · have hs : s.settle b data = s := by simp [settle, he, hd]
      have hne : s.payload b ≠ some (data, true) := fun hc => hd (by rw [hp] at hc; simpa using hc)
      rw [hs]
      exact ⟨h, rfl, fun k => by rw [if_neg fun hc => hne hc.2]⟩

theorem settleAll_spec (h : s.Tracked) (start : ℕ) (datas : List (List UInt8)) :
    (s.settleAll start datas).Tracked ∧ (s.settleAll start datas).fifoQueue = s.fifoQueue ∧
      ∀ k, (s.settleAll start datas).payload k = s.payload k ∨
        (start ≤ k ∧ k < start + datas.length ∧
          ∃ data, s.payload k = some (data, true) ∧ (s.settleAll start datas).payload k = some (data, false)) := by
  induction datas generalizing s start with
  | nil => exact ⟨h, rfl, fun k => .inl rfl⟩
  | cons data datas ih =>
    obtain ⟨ht1, hf1, hp1⟩ := settle_spec h start data
    obtain ⟨ht, hf, hp⟩ := ih ht1 (start + 1)
    refine ⟨ht, hf.trans hf1, fun k => ?_⟩
    rw [length_cons]
    rcases hp k with hk | ⟨h1, h2, x, hx, hk⟩
    · rw [settleAll, hk, hp1]
      split_ifs with hc
      · obtain ⟨rfl, hs⟩ := hc
        exact .inr ⟨le_rfl, by omega, data, hs, rfl⟩
      · exact .inl rfl
    · rw [hp1, if_neg (by omega)] at hx
      exact .inr ⟨by omega, by omega, x, hx, hk⟩

end BlockCacheInner

section

variable (h : Coherent R maxBlocks m c)
include h

theorem Coherent.flushChunk {start : ℕ}
    {datas : List (List UInt8)} (hflat : datas.flatten = load m start datas.length)
    (hmem : ∀ j < datas.length, start + j ∈ c.inner.entries) :
    ∃ c', (do onDevice (R.writeBlock start datas.flatten); onInner (.settleAll start datas)) c = .ok () c' ∧
      Coherent R maxBlocks m c' := by
  have hm : ∀ k, (m k).length = R.blockSize := fun k => by rw [← h.view_eq]; exact h.ready.view_length k
  obtain ⟨d', hw, hcont⟩ := R.write_ok c.device start datas.flatten (by rw [hflat, load_length fun _ _ => hm _]; simp)
  have hcont' : ∀ k, R.content d' k =
      if start ≤ k ∧ k < start + datas.length then m k else R.content c.device k := fun k => by
    rw [hcont, hflat]; exact store_load R.blockSize_pos (fun _ _ => hm _) k
  obtain ⟨ht, hf, hp⟩ := settleAll_spec h.ready.tracked start datas
  refine ⟨⟨c.inner.settleAll start datas, d'⟩, ?_, ⟨ht, by rw [hf]; exact h.ready.size_le, fun k data d hk => ?_⟩,
    fun k => ?_, fun k => ?_⟩
  · have hdev : onDevice (R.writeBlock start datas.flatten) c = .ok () { c with device := d' } := by rw [onDevice, hw]
    rw [bind_ok hdev]; rfl
  · rcases hp k with hk' | ⟨_, _, x, hx, hk'⟩
    · exact h.ready.whole k data d (by rw [← hk']; exact hk)
    · rw [hk'] at hk; cases hk; exact h.ready.whole k _ _ hx
  · rw [← h.view_eq k, view, view]
    rcases hp k with hk' | ⟨_, _, x, hx, hk'⟩
    · simp only [hk']
      cases hpk : c.inner.payload k with
      | some v => rfl
      | none =>
        -- not cached, so not in the chunk
        have hout : ¬(start ≤ k ∧ k < start + datas.length) := fun hk => by
          have := hmem (k - start) (by omega)
          rw [show start + (k - start) = k by omega, ← h.ready.tracked.mem, h.ready.tracked.mem_iff] at this
          exact this hpk
        simp only [hcont', if_neg hout]
    · simp only [hk', hx]
  · rw [settled]
    have hs := h.settled_eq k
    rw [settled] at hs
    rcases hp k with hk' | ⟨h1, h2, x, hx, hk'⟩
    · simp only [hk']
      rcases hpk : c.inner.payload k with _ | ⟨_, _ | _⟩ <;> rw [hpk] at hs
      · simp only [hcont']; split_ifs <;> [rfl; exact hs]
      · simp only [hcont']; split_ifs <;> [rfl; exact hs]
      · exact hs
    · simp only [hk', hcont', if_pos (And.intro h1 h2)]

theorem flushLoop_spec (fuel : ℕ) (blocks : List ℕ) :
    ∃ c', flushLoop R.toBlockDevice fuel blocks c = .ok () c' ∧ Coherent R maxBlocks m c' := by
  induction fuel generalizing c blocks with
  | zero => exact ⟨c, rfl, h⟩
  | succ fuel ih =>
    cases blocks with
    | nil => exact ⟨c, rfl, h⟩
    | cons b rest =>
      obtain ⟨hflat, hmem⟩ := gather_eq h b 0 (b :: rest)
      rw [add_zero] at hflat
      simp only [flushLoop, get_bind]
      split_ifs with hd
      · obtain ⟨c1, hrun, h1⟩ := h.flushChunk hflat fun j hj => by simpa using hmem j hj
        obtain ⟨c', hrest, h'⟩ := ih h1 (gather c.inner b 0 (b :: rest)).2
        refine ⟨c', ?_, h'⟩
        rw [← bind_assoc, bind_ok hrun, hrest]
      · exact ih h _

theorem flush_spec : ∃ c', flush R.toBlockDevice c = .ok () c' ∧ Coherent R maxBlocks m c' := by
  obtain ⟨c1, hrun, h1⟩ := flushLoop_spec h c.inner.dirtyBlocks.length c.inner.dirtyBlocks
  obtain ⟨d', hf, hcont⟩ := R.flush_ok c1.device
  refine ⟨{ c1 with device := d' }, ?_, ⟨h1.ready.tracked, h1.ready.size_le, h1.ready.whole⟩, fun k => ?_, fun k => ?_⟩
  · simp only [flush, get_bind, bind_ok hrun, onDevice, hf]
  · rw [← h1.view_eq k]; simp only [view, hcont]
  · rw [← h1.settled_eq k]; simp only [settled, hcont]

end

/-! ## Runs -/

/-- one call: answered right exactly if it is safe, and then the cache still agrees with the array -/
theorem step_coherent (h : Coherent R maxBlocks m c) (hpos : 0 < maxBlocks) (o : Op) :
    (Answers R.blockSize m o (step R.toBlockDevice maxBlocks c o).1 ↔ Safe R maxBlocks c o) ∧
      (Safe R maxBlocks c o → Coherent R maxBlocks (after R.blockSize m o) (step R.toBlockDevice maxBlocks c o).2) := by
  cases o with
  | read block len =>
    by_cases hlen : len % R.blockSize = 0
    · obtain ⟨out, c', hrun, hans, hcoh⟩ := readBlock_spec h hpos block hlen
      simp only [step, hrun, reply, Answers, hlen, true_implies, after, id, Except.ok.injEq]
      exact ⟨hans, hcoh⟩
    · have hrun : readBlock R.toBlockDevice maxBlocks block len c = .error .InvalidParam c := by
        simp only [readBlock, if_pos hlen]; rfl
      simp only [step, hrun, reply, Answers, Safe, after, hlen, false_implies, true_and]
      exact fun _ => h
  | write block data =>
    refine ⟨by simp [Answers, Safe], fun _ => ?_⟩
    by_cases hlen : data.length % R.blockSize = 0
    · have hchunk : ∀ j < data.length / R.blockSize, (chunk R.blockSize data (0 + j)).length = R.blockSize :=
        fun j hj => chunk_length <| by
          calc (0 + j + 1) * R.blockSize ≤ data.length / R.blockSize * R.blockSize :=
                mul_le_mul_right _ (by omega)
            _ ≤ data.length := div_mul_le_self _ _
      obtain ⟨c', hrun, hcoh⟩ := writeLoop_spec h hpos block hchunk
      have hw : writeBlock R.toBlockDevice maxBlocks block data c = .ok () c' := by
        simp only [writeBlock, hlen, ne_eq, not_true_eq_false, if_false]; exact hrun
      simp only [step, hw, reply, after, if_pos hlen]
      exact hcoh
    · have hw : writeBlock R.toBlockDevice maxBlocks block data c = .error .InvalidParam c := by
        simp only [writeBlock, if_pos hlen]; rfl
      simp only [step, hw, reply, after, if_neg hlen]
      exact h
  | flush =>
    obtain ⟨c', hrun, hcoh⟩ := flush_spec h
    refine ⟨by simp [Answers, Safe], fun _ => ?_⟩
    simp only [step, hrun, reply, after]
    exact hcoh

theorem run_coherent (h : Coherent R maxBlocks m c) (hpos : 0 < maxBlocks)
    (ops : List Op) : AllAnswered R maxBlocks c m ops ↔ AllSafe R maxBlocks c ops := by
  induction ops generalizing c m with
  | nil => rfl
  | cons o ops ih =>
    obtain ⟨hans, hcoh⟩ := step_coherent h hpos o
    simp only [AllAnswered, AllSafe, hans]
    exact and_congr_right fun hs => ih (hcoh hs)

end Coherence

/-- **Exactly the safe runs are coherent.** From a fresh cache over any device that does not fail, every read of a run
returns the last data written to each block if and only if every read is safe when it is made. -/
theorem answered_iff_safe {D : Type} (R : ReliableDevice D) {maxBlocks : ℕ} (hpos : 0 < maxBlocks) (d : D)
    (ops : List Op) :
    AllAnswered R maxBlocks (new d) (R.content d) ops ↔ AllSafe R maxBlocks (new d) ops :=
  run_coherent (coherent_new d) hpos ops

def zeroDisk : Disk 1 := fun _ => ⟨[0], rfl⟩

/-- a cache of two blocks: reading a written block together with its neighbour is safe -/
theorem answered_two_blocks : AllAnswered (disk 1 Nat.one_pos) 2 (new zeroDisk) (fun _ => [0])
    [.write 1 [7], .read 0 2, .flush, .read 1 1] :=
  (answered_iff_safe (disk 1 Nat.one_pos) two_pos zeroDisk _).2 (by decide +kernel)

/-- **A read loses a write.** In a cache of one block, block 1 is written and blocks 0 and 1 are read: block 1 is
evicted to make room for block 0, and the read returns what the device held before. -/
theorem read_loses_write :
    replies (disk 1 Nat.one_pos).toBlockDevice 1 (new zeroDisk) [.write 1 [7], .read 0 2] = [.ok [], .ok [0, 0]] ∧
    ¬ AllAnswered (disk 1 Nat.one_pos) 1 (new zeroDisk) (fun _ => [0]) [.write 1 [7], .read 0 2] := by
  refine ⟨by rfl, fun h => ?_⟩
  have hread := h.2.1 (by rfl)
  exact absurd hread (by decide +kernel)

end Kontsnor.Block
