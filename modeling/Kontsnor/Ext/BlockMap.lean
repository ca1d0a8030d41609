/-
The block map of an inode.

`MapIs P s m limit`: below `limit`, every lookup gives the block that `m` names (0 for a hole), whatever the extent cache
holds that agrees with `m`, and the length of the run it gives is right.

- `WellFormed`: an extent tree in which every extent is found by each of its blocks, or pointers that fit; no lookup fails.
The device does not fail.
-/
import Kontsnor.Core.Fallible
import Kontsnor.Ext.Indirect

namespace Kontsnor.Ext

open Nat

open Fallible (get_bind modify_bind bind_ok)

/-! ## Maps -/

/-- the `len` blocks from `b` on, as far as they are below `limit`, are holes or adjacent blocks -/
def RunAgrees (m : ℕ → ℕ) (limit b len : ℕ) : Prop :=
  ∀ i < len, b + i < limit → m (b + i) = if m b = 0 then 0 else m b + i

/-- what the extent cache answers agrees with the map -/
def CacheAgrees (m : ℕ → ℕ) (limit : ℕ) (c : ExtentCache) : Prop :=
  ∀ b < limit, ∀ p len, c.get b = some (p, len) → p = m b ∧ RunAgrees m limit b len

/-- the lookups below `limit` give the map -/
def MapIs (P : Params) (s : ExtInode Image) (m : ℕ → ℕ) (limit : ℕ) : Prop :=
  ∀ b < limit, ∀ c : ExtentCache, c.get b = none → ∃ len c',
    resolveBlockFromFlagsAndBlock P s.raw b { s with extentCache := c } = .ok (m b, len) { s with extentCache := c' } ∧
      RunAgrees m limit b len ∧ (c' = c ∨ CacheAgrees m limit c')

variable {limit : ℕ}

theorem CacheAgrees.empty {m : ℕ → ℕ} {c : ExtentCache} (h : c.len = 0) : CacheAgrees m limit c := by
  intro b _ p len hget
  simp [ExtentCache.get, h] at hget

theorem CacheAgrees.run {m : ℕ → ℕ} {start len phys : ℕ} (hpos : 0 < phys) (hend : start + len < 2 ^ 32)
    (hrun : ∀ i < len, start + i < limit → m (start + i) = phys + i ∧ phys + i < 2 ^ 32) :
    CacheAgrees m limit ⟨start, len, phys⟩ := by
  intro b hb p n hget
  have hadd : add32 start len = start + len := Nat.mod_eq_of_lt hend
  simp only [ExtentCache.get, hadd] at hget
  split_ifs at hget with hin
  obtain ⟨_, h1, h2⟩ := hin
  obtain ⟨hmb, hlt⟩ := hrun (b - start) (by omega) (by omega)
  rw [Nat.add_sub_cancel' h1] at hmb
  have hn : sub32 (start + len) b = start + len - b := by unfold sub32; omega
  obtain ⟨rfl, rfl⟩ := hget
  refine ⟨by rw [hmb, mod_eq_of_lt hlt], fun i hi hlim => ?_⟩
  obtain ⟨hmi, _⟩ := hrun (b - start + i) (by omega) (by omega)
  rw [show start + (b - start + i) = b + i by omega] at hmi
  rw [hmi, if_neg (by omega), hmb]
  omega

section Lookups

variable {P : Params} {s : ExtInode Image} {m : ℕ → ℕ} {limit b : ℕ}

theorem resolveBlockRun_spec (h : MapIs P s m limit) (hc : CacheAgrees m limit s.extentCache) (hb : b < limit) :
    ∃ len c, resolveBlockRun P b s = .ok (m b, len) { s with extentCache := c } ∧ RunAgrees m limit b len ∧
      CacheAgrees m limit c := by
  cases hget : s.extentCache.get b with
  | some hit =>
    obtain ⟨p, len⟩ := hit
    obtain ⟨rfl, hrun⟩ := hc b hb p len hget
    refine ⟨len, s.extentCache, ?_, hrun, hc⟩
    rw [resolveBlockRun, get_bind]
    simp only [hget]
    rfl
  | none =>
    obtain ⟨len, c, hr, hrun, hc'⟩ := h b hb s.extentCache hget
    refine ⟨len, c, ?_, hrun, ?_⟩
    · rw [resolveBlockRun, get_bind]
      simp only [hget]
      exact hr
    · rcases hc' with rfl | hc'
      · exact hc
      · exact hc'

theorem resolveBlock_of_run {v : ℕ × ℕ} {s' : ExtInode Image} (h : resolveBlockRun P b s = .ok v s') :
    resolveBlock P b s = .ok v.1 s' := by
  rw [resolveBlockRun, get_bind] at h
  rw [resolveBlock, get_bind]
  cases hget : s.extentCache.get b with
  | some hit =>
    rw [hget] at h
    cases h
    rfl
  | none =>
    rw [hget] at h
    exact bind_ok h _

theorem resolveBlock_spec (h : MapIs P s m limit) (hc : CacheAgrees m limit s.extentCache) (hb : b < limit) :
    ∃ c, resolveBlock P b s = .ok (m b) { s with extentCache := c } ∧ CacheAgrees m limit c := by
  obtain ⟨len, c, hr, -, hc'⟩ := resolveBlockRun_spec h hc hb
  exact ⟨c, resolveBlock_of_run hr, hc'⟩

end Lookups

/-! ## Extents -/

variable (P : Params) (s : ExtInode Image)

def uncached : ExtInode Image := { s with extentCache := .new }

/-- the extent that a lookup left in the cache, inside the ranges of the format -/
structure ExtentCache.Fits (e : ExtentCache) : Prop where
  phys_pos : 0 < e.physStart
  phys_le : e.physStart + e.len ≤ 2 ^ 32
  below : e.start + e.len < 2 ^ 32

/-- the lookup of each block of the extent finds it -/
def FoundByAll (e : ExtentCache) : Prop :=
  ∀ x, e.start ≤ x → x < e.start + e.len → resolveExtentBlockLen P s.raw.iBlock x (uncached s) =
    .ok (e.physStart + (x - e.start), e.start + e.len - x) { s with extentCache := e }

/-- every block below `limit` is a hole or belongs to an extent that each of its blocks finds -/
def ExtentsWellFormed (limit : ℕ) : Prop :=
  ∀ b < limit, resolveExtentBlockLen P s.raw.iBlock b (uncached s) = .ok (0, 0) (uncached s) ∨
    ∃ e : ExtentCache, e.Fits ∧ e.start ≤ b ∧ b < e.start + e.len ∧ FoundByAll P s e

variable (c : ExtentCache)

/-- a result as it is if the lookup starts with the cache `c`: a lookup that stored nothing keeps it -/
def recache : EStateM.Result String (ExtInode Image) (ℕ × ℕ) → EStateM.Result String (ExtInode Image) (ℕ × ℕ)
  | .ok v s => .ok v (if s.extentCache.len = 0 then { s with extentCache := c } else s)
  | .error e s => .error e (if s.extentCache.len = 0 then { s with extentCache := c } else s)

theorem answerFrom_recache {ext : Ext4Extent} {b : ℕ} (h : ext.covers b = true) :
    answerFrom ext b { s with extentCache := c } = recache c (answerFrom ext b (uncached s)) := by
  have hlen : 0 < ext.len := by
    rw [Ext4Extent.covers, Bool.and_eq_true, decide_eq_true_eq, decide_eq_true_eq] at h
    by_contra h0
    have hz : ext.len = 0 := by omega
    rw [hz, add32] at h
    omega
  have hu : ∀ c' : ExtentCache, c'.update ext.eeBlock ext.len ext.startBlock = ⟨ext.eeBlock, ext.len, ext.startBlock⟩ :=
    fun c' => if_pos hlen
  simp only [answerFrom, modify_bind, uncached, hu, Fallible.pure_apply, recache, hlen.ne', if_false]

theorem descend_recache (b fuel child : ℕ) :
    descend P b fuel child { s with extentCache := c } = recache c (descend P b fuel child (uncached s)) := by
  induction fuel generalizing child with
  | zero => rfl
  | succ fuel ih =>
    rw [descend, read_bind, uncached, read_bind]
    generalize s.fs.device child = buf
    by_cases hm : (readHeader buf).ehMagic ≠ 0xF30A
    · simp only [if_pos hm]
      rfl
    simp only [if_neg hm]
    by_cases hd : (readHeader buf).ehDepth = 0
    · simp only [hd, if_true]
      cases hf : (extents buf (min (readHeader buf).ehEntries (maxEntries P.blockSize))).find? (·.covers b) with
      | some ext => exact answerFrom_recache s c (List.find?_some (p := fun e : Ext4Extent => e.covers b) hf)
      | none =>
        by_cases hover : maxEntries P.blockSize < (readHeader buf).ehEntries
        · simp only [hover, if_true]
          rfl
        · simp only [hover, if_false]
          rfl
    · simp only [hd, if_false]
      by_cases hover : maxEntries P.blockSize < (readHeader buf).ehEntries
      · simp only [hover, if_true]
        rfl
      · simp only [hover, if_false]
        cases bestIdx b (indices buf (readHeader buf).ehEntries) with
        | some best => exact ih best.leafBlock
        | none => rfl

theorem resolveExtent_recache {c : ExtentCache} {b : ℕ} (hc : c.get b = none) :
    resolveExtentBlockLen P s.raw.iBlock b { s with extentCache := c } =
      recache c (resolveExtentBlockLen P s.raw.iBlock b (uncached s)) := by
  have hnew : ExtentCache.new.get b = none := by simp [ExtentCache.get, ExtentCache.new]
  simp only [resolveExtentBlockLen, get_bind, hc, uncached, hnew]
  generalize rootBuf s.raw.iBlock = buf
  by_cases hm : (readHeader buf).ehMagic ≠ 0xF30A
  · simp only [if_pos hm]
    rfl
  simp only [if_neg hm]
  by_cases hd : (readHeader buf).ehDepth = 0
  · simp only [hd, if_true]
    cases hf : (extents buf (min (readHeader buf).ehEntries 4)).find? (·.covers b) with
    | some ext => exact answerFrom_recache s c (List.find?_some (p := fun e : Ext4Extent => e.covers b) hf)
    | none => rfl
  · simp only [hd, if_false]
    cases bestIdx b (indices buf (min (readHeader buf).ehEntries 4)) with
    | some best => exact descend_recache P s c b _ best.leafBlock
    | none => rfl

/-- the block that the lookup with an empty cache gives -/
def extentMap (b : ℕ) : ℕ :=
  ((Fallible.value (resolveExtentBlockLen P s.raw.iBlock b (uncached s))).map Prod.fst).getD 0

variable {P : Params} {s : ExtInode Image}

theorem FoundByAll.extentMap_eq {e : ExtentCache} (h : FoundByAll P s e) {x : ℕ}
    (h1 : e.start ≤ x) (h2 : x < e.start + e.len) : extentMap P s x = e.physStart + (x - e.start) := by
  rw [extentMap, h x h1 h2]
  rfl

theorem ExtentsWellFormed.mapIs (hx : s.raw.isExtents = true)
    (h : ExtentsWellFormed P s limit) : MapIs P s (extentMap P s) limit := by
  intro b hb c hc
  have hlookup := resolveExtent_recache P s hc
  rw [resolveBlockFromFlagsAndBlock, if_pos hx]
  rcases h b hb with hhole | ⟨e, hfit, h1, h2, hall⟩
  · rw [hhole] at hlookup
    have hm : extentMap P s b = 0 := by rw [extentMap, hhole]; rfl
    refine ⟨0, c, ?_, fun i hi => absurd hi (not_lt_zero i), .inl rfl⟩
    rw [hm]
    exact hlookup
  · rw [hall b h1 h2] at hlookup
    have hlen : e.len ≠ 0 := by omega
    have hphys := hfit.phys_le
    have hrun : ∀ i < e.len, e.start + i < limit →
        extentMap P s (e.start + i) = e.physStart + i ∧ e.physStart + i < 2 ^ 32 := by
      intro i hi _
      rw [hall.extentMap_eq (by omega) (by omega), Nat.add_sub_cancel_left]
      exact ⟨rfl, by omega⟩
    have hmb := hall.extentMap_eq h1 h2
    refine ⟨e.start + e.len - b, e, ?_, fun i hi hlim => ?_, .inr ?_⟩
    · rw [hmb]
      simpa [recache, hlen] using hlookup
    · have hpos := hfit.phys_pos
      rw [if_neg (by omega), hall.extentMap_eq (by omega) (by omega), hmb]
      omega
    · exact CacheAgrees.run hfit.phys_pos hfit.below hrun

/-! ## Pointers -/

/-- the pointer for a block of an inode without the extent flag -/
def pointerAt (P : Params) (s : ExtInode Image) (b : ℕ) : ℕ :=
  let refsPerBlock := P.blockSize / 4
  if b < 12 then (rootBuf s.raw.iBlock b).toNat
  else if b - 12 < refsPerBlock then
    let sib := (s.raw.iBlock 12).toNat
    if sib = 0 then 0 else (s.fs.device sib (b - 12)).toNat
  else
    let doubleIndex := b - 12 - refsPerBlock
    let dib := (s.raw.iBlock 13).toNat
    if dib = 0 then 0
    else
      let sib := (s.fs.device dib (doubleIndex / refsPerBlock)).toNat
      if sib = 0 then 0 else (s.fs.device sib (doubleIndex % refsPerBlock)).toNat

/-- all blocks below `limit` have a pointer, and none is the last 32-bit number -/
structure PointersWellFormed (P : Params) (s : ExtInode Image) (limit : ℕ) : Prop where
  blockSize_le : P.blockSize ≤ 4096
  limit_le : limit ≤ 12 + P.blockSize / 4 + P.blockSize / 4 * (P.blockSize / 4)
  fits : ∀ b < limit, pointerAt P s b + 1 < 2 ^ 32

/-- an answer from the pointers of one block, where they are the map of `b + (i - index)` -/
theorem answerPointer_spec {m : ℕ → ℕ} {pointer : ℕ → ℕ} {b index room : ℕ} (hroom : index < room)
    (hm : ∀ i, index + i < room → m (b + i) = pointer (index + i)) (hfits : ∀ x < limit, m x + 1 < 2 ^ 32)
    (hend : b + (room - index) < 2 ^ 32) (s : ExtInode Image) (c : ExtentCache) :
    ∃ len c', answerPointer pointer b index room { s with extentCache := c } =
      .ok (m b, len) { s with extentCache := c' } ∧ RunAgrees m limit b len ∧ (c' = c ∨ CacheAgrees m limit c') := by
  have hmb : m b = pointer index := by simpa using hm 0 hroom
  obtain ⟨hone, hle, hrun⟩ := runLength_bounds pointer (pointer index) room hroom
    (fun i (h0 : 0 < i) (h1 : i < 1) => by omega)
  set len := runLength pointer (pointer index) index room room 1 with hlen
  -- the run does not wrap below the limit, since no block of the map is the last number
  have hagree : RunAgrees m limit b len := by
    intro i
    induction i with
    | zero => intro _ _; by_cases h0 : m b = 0 <;> simp [h0]
    | succ i ih =>
      intro hi hlim
      have hprev := ih (by omega) (by omega)
      have hnext := hrun (i + 1) (succ_pos i) hi
      rw [hm (i + 1) (by omega), hnext, ← hmb]
      by_cases h0 : m b = 0
      · simp [h0]
      · rw [if_neg h0] at hprev
        rw [if_neg h0, if_neg h0, add32, mod_eq_of_lt]
        have := hfits (b + i) (by omega)
        omega
  have hret : answerPointer pointer b index room { s with extentCache := c } =
      .ok (pointer index, len)
        { s with extentCache := if pointer index ≠ 0 then c.update b len (pointer index) else c } := by
    by_cases h0 : pointer index ≠ 0
    · simp only [answerPointer, if_pos h0]
      rfl
    · simp only [answerPointer, if_neg h0]
      rfl
  rw [hmb]
  by_cases h0 : pointer index = 0
  · refine ⟨len, c, ?_, hagree, .inl rfl⟩
    rw [hret, if_neg (not_not.2 h0)]
  · refine ⟨len, ⟨b, len, pointer index⟩, ?_, hagree, .inr ?_⟩
    · rw [hret, if_pos h0, ExtentCache.update, if_pos (lt_of_lt_of_le one_pos hone)]
    · refine CacheAgrees.run (pos_of_ne_zero h0) (by omega) fun i hi hlim => ?_
      have hi' := hagree i hi hlim
      rw [hmb, if_neg h0] at hi'
      have := hfits (b + i) hlim
      exact ⟨hi', by omega⟩

theorem PointersWellFormed.mapIs (hx : s.raw.isExtents = false)
    (h : PointersWellFormed P s limit) : MapIs P s (pointerAt P s) limit := by
  intro b hb c _
  obtain ⟨hbs, hlimit, hfits⟩ := h
  have hrefs : P.blockSize / 4 ≤ 1024 := by omega
  have hsq : P.blockSize / 4 * (P.blockSize / 4) ≤ 1024 * 1024 := Nat.mul_le_mul hrefs hrefs
  rw [resolveBlockFromFlagsAndBlock, if_neg (by rw [hx]; decide), resolveIndirectBlockRun]
  by_cases h12 : b < 12
  · -- a direct pointer
    simp only [if_pos h12]
    refine answerPointer_spec h12 (fun i hi => ?_) hfits (by omega) s c
    simp only [pointerAt, if_pos hi]
  by_cases hsingle : b - 12 < P.blockSize / 4
  · simp only [if_neg h12, if_pos hsingle]
    by_cases hsib : (s.raw.iBlock 12).toNat = 0
    · simp only [if_pos hsib]
      have hzero : ∀ i < P.blockSize / 4 - (b - 12), pointerAt P s (b + i) = 0 := by
        intro i hi
        simp only [pointerAt, if_neg (show ¬ b + i < 12 by omega), if_pos (show b + i - 12 < P.blockSize / 4 by omega),
          if_pos hsib]
      have hb0 : pointerAt P s b = 0 := hzero 0 (by omega)
      refine ⟨_, c, by rw [hb0]; rfl, fun i hi _ => ?_, .inl rfl⟩
      rw [hzero i hi, if_pos hb0]
    · simp only [if_neg hsib]
      rw [read_bind]
      refine answerPointer_spec hsingle (fun i hi => ?_) hfits (by omega) s c
      have hsub : b + i - 12 = b - 12 + i := by omega
      simp only [pointerAt, if_neg (show ¬ b + i < 12 by omega), hsub, if_pos hi, if_neg hsib]
  · have hdouble : b - 12 - P.blockSize / 4 < P.blockSize / 4 * (P.blockSize / 4) := by omega
    have hpos : 0 < P.blockSize / 4 := by
      by_contra h0
      have hz : P.blockSize / 4 = 0 := by omega
      rw [hz] at hdouble
      omega
    simp only [if_neg h12, if_neg hsingle, if_pos hdouble]
    have hone : ∀ x : ℕ, RunAgrees (pointerAt P s) limit x 1 := by
      intro x i hi _
      obtain rfl : i = 0 := by omega
      by_cases h0 : pointerAt P s x = 0 <;> simp [h0]
    by_cases hdib : (s.raw.iBlock 13).toNat = 0
    · simp only [if_pos hdib]
      have hb0 : pointerAt P s b = 0 := by simp only [pointerAt, if_neg h12, if_neg hsingle, if_pos hdib]
      exact ⟨1, c, by rw [hb0]; rfl, hone b, .inl rfl⟩
    simp only [if_neg hdib]
    rw [read_bind]
    set q := (b - 12 - P.blockSize / 4) / (P.blockSize / 4) with hq
    set r := (b - 12 - P.blockSize / 4) % (P.blockSize / 4) with hr
    by_cases hsib : (s.fs.device (s.raw.iBlock 13).toNat q).toNat = 0
    · simp only [if_pos hsib]
      have hb0 : pointerAt P s b = 0 := by
        simp only [pointerAt, if_neg h12, if_neg hsingle, if_neg hdib, ← hq, if_pos hsib]
      exact ⟨1, c, by rw [hb0]; rfl, hone b, .inl rfl⟩
    · simp only [if_neg hsib]
      rw [read_bind]
      have hrlt : r < P.blockSize / 4 := mod_lt _ hpos
      refine answerPointer_spec hrlt (fun i hi => ?_) hfits (by omega) s c
      have hdm := div_add_mod (b - 12 - P.blockSize / 4) (P.blockSize / 4)
      rw [← hq, ← hr] at hdm
      have hsub : b + i - 12 - P.blockSize / 4 = (r + i) + P.blockSize / 4 * q := by omega
      have hdiv : (b + i - 12 - P.blockSize / 4) / (P.blockSize / 4) = q := by
        rw [hsub, add_mul_div_left _ _ hpos, div_eq_of_lt hi, zero_add]
      have hmod : (b + i - 12 - P.blockSize / 4) % (P.blockSize / 4) = r + i := by
        rw [hsub, add_mul_mod_self_left, mod_eq_of_lt hi]
      simp only [pointerAt, if_neg (show ¬ b + i < 12 by omega),
        if_neg (show ¬ b + i - 12 < P.blockSize / 4 by omega), if_neg hdib, hdiv, if_neg hsib, hmod]

/-! ## Any inode -/

/-- an inode whose lookups below `limit` succeed and do not contradict each other -/
def WellFormed (P : Params) (s : ExtInode Image) (limit : ℕ) : Prop :=
  if s.raw.isExtents then ExtentsWellFormed P s limit else PointersWellFormed P s limit

def mapOf (P : Params) (s : ExtInode Image) : ℕ → ℕ := if s.raw.isExtents then extentMap P s else pointerAt P s

/-- **A well-formed inode has a map.** -/
theorem WellFormed.mapIs (h : WellFormed P s limit) : MapIs P s (mapOf P s) limit := by
  unfold WellFormed at h
  unfold mapOf
  split_ifs at h ⊢ with hx
  · exact h.mapIs hx
  · exact h.mapIs (Bool.eq_false_iff.2 hx)

end Kontsnor.Ext
