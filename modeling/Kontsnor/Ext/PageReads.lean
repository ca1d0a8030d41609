/-
What cached reads return (`fs/ext/file.rs`, `memory/page_cache.rs`).

A page is 4096 bytes and a block may be smaller. A page that is missing in the cache is filled from the run that starts with
its first block: from as many adjacent blocks as the page has room for, wherever the map has the others, and with zeros if the
first block is a hole.

- `mapByte`: the byte that the block map gives for an offset.
- `pageByte`: the byte that the run of the page's first block gives for it.
The device does not fail.
-/
import Mathlib.Data.List.GetD
import Kontsnor.Ext.PageCache
import Kontsnor.Ext.BlockMap

namespace Kontsnor.Ext

open List Nat

open Bytes (ByteBuffer bytesOf slice)
open Fallible (Maintains get_bind bind_ok)

/-! ## Bytes of a file -/

variable (P : Params) (d : Image) (m : ℕ → ℕ)

/-- a byte of a block; a hole reads as zeros -/
def blockByte (p i : ℕ) : UInt8 := if p = 0 then 0 else bytesOf (d p) i

/-- the byte that the block map gives for offset `o` -/
def mapByte (o : ℕ) : UInt8 := blockByte d (m (o / P.blockSize)) (o % P.blockSize)

/-- the byte for offset `o` in the run of blocks that starts with the first block of its page -/
def pageByte (o : ℕ) : UInt8 :=
  let first := m (pageOf o / P.blockSize)
  blockByte d (if first = 0 then 0 else first + o % 4096 / P.blockSize) (o % P.blockSize)

theorem slice_length {f : ByteBuffer} {start n : ℕ} : (slice f start n).length = n := by
  rw [slice, length_map, length_range]

variable {n i : ℕ}

theorem slice_getD {f : ByteBuffer} {start : ℕ} (hi : i < n) : (slice f start n).getD i 0 = f (start + i) := by
  rw [getD_eq_getElem _ _ (by rw [slice_length]; exact hi)]
  simp [slice]

theorem readRun_spec (n block : ℕ) (fs : ExtFileSystem Image) : ∃ run, readRun P n block fs = .ok run fs ∧
    ∀ i < n * P.blockSize, run i = bytesOf (fs.device (block + i / P.blockSize)) (i % P.blockSize) := by
  induction n generalizing block with
  | zero => exact ⟨_, rfl, fun i hi => by omega⟩
  | succ n ih =>
    obtain ⟨run, hrun, hspec⟩ := ih (block + 1)
    refine ⟨_, by rw [readRun, readBlocks_bind, bind_ok hrun]; rfl, fun i hi => ?_⟩
    rw [succ_mul] at hi
    by_cases hlt : i < P.blockSize
    · simp only [if_pos hlt, div_eq_of_lt hlt, mod_eq_of_lt hlt, add_zero]
    · have hbs : 0 < P.blockSize := by
        by_contra h0
        have : P.blockSize = 0 := by omega
        rw [this] at hi
        omega
      have hdiv : i / P.blockSize = (i - P.blockSize) / P.blockSize + 1 := by
        rw [← Nat.add_div_right _ hbs, Nat.sub_add_cancel (by omega)]
      have hmod : i % P.blockSize = (i - P.blockSize) % P.blockSize := by
        rw [← Nat.add_mod_right (i - P.blockSize), Nat.sub_add_cancel (by omega)]
      simp only [if_neg hlt]
      rw [hspec _ (by omega), hdiv, hmod, add_right_comm, add_assoc]

/-! ## The invariant of reads -/

/-- a file to read from: what its blocks are, and that the block size divides a page -/
structure Readable (s : Opened Image) (m : ℕ → ℕ) (limit : ℕ) : Prop where
  blockSize_dvd : P.blockSize ∣ 4096
  map : MapIs P s.inode m limit
  size_le : s.vfs.size ≤ limit * P.blockSize
  limit_le : limit ≤ 2 ^ 32
  regular : s.vfs.fileType = .regular

/-- every byte of a page below the end of the file is in order -/
def GoodPage (A : ℕ → UInt8 → Prop) (size offset : ℕ) (bytes : ByteBuffer) : Prop :=
  ∀ j < 4096, offset + j < size → A (offset + j) (bytes j)

/-- a state that reads reach from `s0`, with bytes in order in the cached pages -/
structure ReadState (limit : ℕ) (A : ℕ → UInt8 → Prop) (s0 s : Opened Image) : Prop where
  inode : ∃ c, s.inode = { s0.inode with extentCache := c } ∧ CacheAgrees m limit c
  vfs : s.vfs = s0.vfs
  memory : ∀ grant ∈ s.memory, grant ∈ s0.memory
  pages : ∀ offset page, s.pages.get offset = some page → GoodPage A s0.vfs.size offset page.bytes

/-- a request for frames was refused -/
def Refused (s0 : Opened Image) : Prop := ∃ grant ∈ s0.memory, grant.granted = false

variable {offset fpo j b : ℕ} {run : ByteBuffer}

section Reads

variable {P : Params} {m : ℕ → ℕ} {limit : ℕ} {A : ℕ → UInt8 → Prop} {s0 : Opened Image}

/-- a read keeps the invariant, and fails only if a request for frames was refused -/
abbrev Reads (m : ℕ → ℕ) (limit : ℕ) (A : ℕ → UInt8 → Prop) (s0 : Opened Image) {α : Type} (x : FileM Image α)
    (Q : α → Prop) : Prop :=
  Maintains (ReadState m limit A s0) (fun _ _ => Refused s0) x Q

theorem ReadState.putPage {s : Opened Image} (h : ReadState m limit A s0 s) {page : Page}
    (hp : GoodPage A s0.vfs.size offset page.bytes) : ReadState m limit A s0 (putPage offset page s) where
  inode := h.inode
  vfs := h.vfs
  memory := h.memory
  pages offset' page' hget := by
    simp only [Ext.putPage, OrderedMap.get_insert] at hget
    split_ifs at hget with he
    · cases hget
      rw [he]
      exact hp
    · exact h.pages offset' page' hget

theorem nextGrant_reads : Reads m limit A s0 nextGrant fun grant => grant.granted = false → Refused s0 := by
  intro s hs
  cases hmem : s.memory with
  | nil =>
    have hr : nextGrant s = .ok ⟨true, [], fun _ => 0⟩ s := by
      rw [nextGrant, get_bind, hmem]; rfl
    rw [hr]
    exact ⟨hs, nofun⟩
  | cons grant rest =>
    have hr : nextGrant s = .ok grant { s with memory := rest } := by
      rw [nextGrant, get_bind, hmem]; rfl
    rw [hr]
    have hin : grant ∈ s0.memory := hs.memory grant (by rw [hmem]; exact mem_cons_self ..)
    refine ⟨⟨hs.inode, hs.vfs, fun g hg => ?_, hs.pages⟩, fun hno => ⟨grant, hin, hno⟩⟩
    exact hs.memory g (by rw [hmem]; exact mem_cons_of_mem grant hg)

theorem pageCacheGet_reads (offset : ℕ) : Reads m limit A s0 (pageCacheGet offset) fun found =>
    ∀ page, found = some page → GoodPage A s0.vfs.size offset page.bytes :=
  fun _ hs => ⟨hs, fun page hp => hs.pages offset page hp⟩

theorem pageCacheInsertOrGet_reads {page : Page} (hp : GoodPage A s0.vfs.size offset page.bytes) :
    Reads m limit A s0 (pageCacheInsertOrGet offset page) fun bytes => GoodPage A s0.vfs.size offset bytes := by
  intro s hs
  cases hget : s.pages.get offset with
  | some existing =>
    have hr : pageCacheInsertOrGet offset page s = .ok existing.bytes s := by
      rw [pageCacheInsertOrGet, get_bind, hget]; rfl
    rw [hr]
    exact ⟨hs, hs.pages offset existing hget⟩
  | none =>
    have hr : pageCacheInsertOrGet offset page s = .ok page.bytes (putPage offset page s) := by
      rw [pageCacheInsertOrGet, get_bind, hget]; rfl
    rw [hr]
    exact ⟨hs.putPage hp, hp⟩

theorem allocateFrame_reads : Reads m limit A s0 allocateFrame fun _ => True := by
  refine nextGrant_reads.bind fun grant hgrant => ?_
  refine .bind (Q := fun _ => True) (.modify fun s hs => ?_) fun _ _ => ?_
  · refine ⟨hs.inode, hs.vfs, hs.memory, fun offset page hget => ?_⟩
    simp only [evictClean, OrderedMap.get_without] at hget
    split_ifs at hget with hevict
    exact hs.pages offset page hget
  · refine .early trivial fun hno => .throw fun _ _ => ?_
    exact hgrant (Bool.eq_false_iff.2 hno)

theorem resolveBlockRun_reads (h : Readable P s0 m limit) (hb : b < limit) :
    Reads m limit A s0 (onInode (resolveBlockRun P b)) fun v => v.1 = m b ∧ RunAgrees m limit b v.2 := by
  intro s hs
  obtain ⟨c, hinode, hc⟩ := hs.inode
  have hmap : MapIs P s.inode m limit := by rw [hinode]; exact h.map
  obtain ⟨len, c', hr, hrun, hc'⟩ := resolveBlockRun_spec (b := b) hmap (by rw [hinode]; exact hc) hb
  have hret : onInode (resolveBlockRun P b) s = .ok (m b, len) { s with inode := { s.inode with extentCache := c' } } := by
    rw [onInode, hr]
  rw [hret]
  exact ⟨⟨⟨c', by rw [hinode], hc'⟩, hs.vfs, hs.memory, hs.pages⟩, rfl, hrun⟩

theorem resolveBlock_reads (h : Readable P s0 m limit) (hb : b < limit) :
    Reads m limit A s0 (onInode (resolveBlock P b)) fun p => p = m b := by
  intro s hs
  obtain ⟨c, hinode, hc⟩ := hs.inode
  have hmap : MapIs P s.inode m limit := by rw [hinode]; exact h.map
  obtain ⟨c', hr, hc'⟩ := resolveBlock_spec (b := b) hmap (by rw [hinode]; exact hc) hb
  have hret : onInode (resolveBlock P b) s = .ok (m b) { s with inode := { s.inode with extentCache := c' } } := by
    rw [onInode, hr]
  rw [hret]
  exact ⟨⟨⟨c', by rw [hinode], hc'⟩, hs.vfs, hs.memory, hs.pages⟩, rfl⟩

theorem readBlocks_reads {p : ℕ} :
    Reads m limit A s0 (onInode (onFs (readBlocks p))) fun buf => buf = s0.inode.fs.device p := by
  intro s hs
  obtain ⟨c, hinode, _⟩ := hs.inode
  exact ⟨hs, by rw [hinode]⟩

/-! ## Direct reads -/

/-- the bytes of the map from `offset` on -/
def IsMapped (P : Params) (s0 : Opened Image) (m : ℕ → ℕ) (offset : ℕ) (data : List UInt8) : Prop :=
  ∀ i < data.length, data.getD i 0 = mapByte P s0.inode.fs.device m (offset + i)

theorem bytes_append {A : ℕ → UInt8 → Prop} {chunk rest : List UInt8} (h : ∀ i < chunk.length, A (offset + i) (chunk.getD i 0))
    (h' : ∀ i < rest.length, A (offset + chunk.length + i) (rest.getD i 0)) :
    ∀ i < (chunk ++ rest).length, A (offset + i) ((chunk ++ rest).getD i 0) := by
  intro i hi
  rw [length_append] at hi
  by_cases hlt : i < chunk.length
  · rw [getD_append _ _ _ _ hlt]
    exact h i hlt
  · rw [getD_append_right _ _ _ _ (not_lt.1 hlt)]
    have hbyte := h' (i - chunk.length) (by omega)
    rwa [show offset + chunk.length + (i - chunk.length) = offset + i by omega] at hbyte

theorem IsMapped.append {chunk rest : List UInt8} (h : IsMapped P s0 m offset chunk)
    (h' : IsMapped P s0 m (offset + chunk.length) rest) : IsMapped P s0 m offset (chunk ++ rest) :=
  bytes_append (A := fun o x => x = mapByte P s0.inode.fs.device m o) h h'

theorem nothing_read {B : ℕ → Prop} (hn : n = 0) : ([] : List UInt8).length = n ∧ ∀ i < ([] : List UInt8).length, B i :=
  ⟨hn.symm, fun i hi => absurd hi (not_lt_zero i)⟩

section

variable (h : Readable P s0 m limit)
include h

theorem readLoop_reads (fuel offset remaining : ℕ) (hfuel : remaining ≤ fuel) :
    Reads m limit A s0 (readLoop P s0.vfs.size fuel offset remaining) fun data =>
      data.length = min remaining (s0.vfs.size - offset) ∧ IsMapped P s0 m offset data := by
  have hbs : 0 < P.blockSize := pos_of_dvd_of_pos h.blockSize_dvd (by decide)
  induction fuel generalizing offset remaining with
  | zero =>
    refine .pure (nothing_read ?_)
    omega
  | succ fuel ih =>
    refine .ite (fun hmore => ?_) fun hdone => ?_
    · have hsize := h.size_le
      have hlimit := h.limit_le
      have hb : offset / P.blockSize < limit := Nat.div_lt_of_lt_mul (by rw [Nat.mul_comm]; omega)
      have hmodlt : offset % P.blockSize < P.blockSize := mod_lt _ hbs
      rw [mod_eq_of_lt (show offset / P.blockSize < 2 ^ 32 by omega)]
      set n := min remaining (min (P.blockSize - offset % P.blockSize) (s0.vfs.size - offset)) with hn
      have hplace : ∀ i < n, (offset + i) / P.blockSize = offset / P.blockSize ∧
          (offset + i) % P.blockSize = offset % P.blockSize + i := by
        intro i hi
        have hdm := div_add_mod offset P.blockSize
        have hsum : offset + i = offset % P.blockSize + i + P.blockSize * (offset / P.blockSize) := by omega
        have hlt : offset % P.blockSize + i < P.blockSize := by omega
        rw [hsum, add_mul_div_left _ _ hbs, add_mul_mod_self_left, div_eq_of_lt hlt, mod_eq_of_lt hlt]
        omega
      refine (resolveBlock_reads h hb).bind fun p hp => ?_
      subst hp
      have hchunk : Reads m limit A s0 (readChunk (m (offset / P.blockSize)) (offset % P.blockSize) n)
          fun chunk => chunk.length = n ∧ IsMapped P s0 m offset chunk := by
        refine .ite (fun hhole => .pure ⟨length_replicate, fun i hi => ?_⟩) fun hblock =>
          readBlocks_reads.bind fun buf hbuf => .pure ⟨slice_length, fun i hi => ?_⟩
        · rw [length_replicate] at hi
          rw [mapByte, (hplace i hi).1, hhole, blockByte, if_pos rfl, getD_replicate _ hi]
        · rw [slice_length] at hi
          rw [slice_getD hi, mapByte, (hplace i hi).1, (hplace i hi).2, blockByte, if_neg hblock, hbuf]
      refine hchunk.bind fun chunk ⟨hlen, hdata⟩ => ?_
      refine (ih (offset + n) (remaining - n) (by omega)).bind fun rest ⟨hlen', hdata'⟩ => ?_
      refine .pure ⟨?_, hdata.append (by rw [hlen]; exact hdata')⟩
      rw [length_append]
      omega
    · refine .pure (nothing_read ?_)
      omega

/-- **A direct read returns the bytes of the map.** -/
theorem readFile_reads {offset len : ℕ} :
    Reads m limit A s0 (readFile P offset len) fun data =>
      data.length = min len (s0.vfs.size - offset) ∧ IsMapped P s0 m offset data := by
  intro s hs
  have hvfs := hs.vfs
  have hsym : ¬ (s0.vfs.fileType = .symlink ∧ s0.vfs.size < 60) := by
    rw [h.regular]
    rintro ⟨h1, _⟩
    cases h1
  rw [readFile, get_bind, hvfs, if_neg hsym]
  by_cases hend : s0.vfs.size ≤ offset
  · rw [if_pos hend]
    refine ⟨hs, nothing_read ?_⟩
    omega
  · rw [if_neg hend]
    exact readLoop_reads h len offset len le_rfl s hs

/-! ## One page, read block by block -/

theorem fillLoop_reads (aligned fuel total : ℕ) (hfuel : 4096 ≤ total + fuel) :
    Reads m limit A s0 (fillLoop P aligned fuel total) fun data =>
      data.length = min (4096 - total) (s0.vfs.size - (aligned + total)) ∧ IsMapped P s0 m (aligned + total) data := by
  induction fuel generalizing total with
  | zero => exact .pure (nothing_read (by omega))
  | succ fuel ih =>
    refine .ite (fun hlt => ?_) fun hge => .pure (nothing_read (by omega))
    refine (readFile_reads h).bind fun chunk ⟨hlen, hdata⟩ => ?_
    refine .ite (fun hempty => .pure (nothing_read ?_)) fun hmore => ?_
    · rw [hempty] at hlen
      exact hlen.symm
    · have hpos : 0 < chunk.length := length_pos_of_ne_nil hmore
      refine (ih (total + chunk.length) (by omega)).bind fun rest ⟨hlen', hdata'⟩ => .pure ⟨?_, ?_⟩
      · rw [length_append]
        omega
      · refine hdata.append ?_
        rw [add_assoc]
        exact hdata'

theorem getOrCreatePageInner_reads
    (hmapped : ∀ o < s0.vfs.size, A o (mapByte P s0.inode.fs.device m o)) (offset : ℕ) :
    Reads m limit A s0 (getOrCreatePageInner P offset) (GoodPage A s0.vfs.size (pageOf offset)) := by
  refine (pageCacheGet_reads (pageOf offset)).bind fun found hfound => ?_
  cases found with
  | some page => exact .pure (hfound page rfl)
  | none =>
    refine allocateFrame_reads.bind fun _ _ => ?_
    refine (fillLoop_reads h (pageOf offset) 4096 0 le_rfl).bind fun data ⟨hlen, hdata⟩ => ?_
    refine pageCacheInsertOrGet_reads fun j hj hsize => ?_
    have hbyte := hdata j (by omega)
    rw [add_zero] at hbyte
    change A (pageOf offset + j) (data.getD j 0)
    rw [hbyte]
    exact hmapped _ hsize

end

/-! ## Pages of a run -/

/-- a page was found, or a frame was refused -/
def FoundPage (A : ℕ → UInt8 → Prop) (s0 : Opened Image) (fpo : ℕ) (found : Option ByteBuffer) : Prop :=
  (found = none → Refused s0) ∧ ∀ bytes, found = some bytes → GoodPage A s0.vfs.size fpo bytes

/-- the page that was asked for comes first, or was found before -/
theorem holePages_reads (hsize : fpo < s0.vfs.size) {list : List ℕ}
    (hgood : ∀ i ∈ list, GoodPage A s0.vfs.size (fpo + i * 4096) fun _ => 0) {first : Option ByteBuffer}
    (hfirst : FoundPage A s0 fpo first ∨ first = none ∧ list.head? = some 0) :
    Reads m limit A s0 (holePages fpo s0.vfs.size list first) (FoundPage A s0 fpo) := by
  induction list generalizing first with
  | nil => exact .pure (hfirst.resolve_right fun h => by cases h.2)
  | cons i rest ih =>
    have hrest : ∀ i ∈ rest, GoodPage A s0.vfs.size (fpo + i * 4096) fun _ => 0 :=
      fun j hj => hgood j (mem_cons_of_mem i hj)
    have hlater : i ≠ 0 → FoundPage A s0 fpo first := fun hi => hfirst.resolve_right fun h => hi (Option.some.inj h.2)
    -- the page of this turn, if it is the one that was asked for
    have hnext : ∀ {bytes : ByteBuffer}, GoodPage A s0.vfs.size (fpo + i * 4096) bytes →
        Reads m limit A s0 (holePages fpo s0.vfs.size rest (if i = 0 then some bytes else first)) (FoundPage A s0 fpo) := by
      intro bytes hbytes
      refine ih hrest (.inl ?_)
      by_cases hi : i = 0
      · rw [if_pos hi]
        rw [hi, zero_mul, add_zero] at hbytes
        refine ⟨fun hnone => ?_, fun b hb => ?_⟩
        · cases hnone
        · cases hb
          exact hbytes
      · rw [if_neg hi]
        exact hlater hi
    refine .ite (fun hend => .pure (hlater fun hi => ?_)) fun _ => ?_
    · omega
    refine (pageCacheGet_reads (fpo + i * 4096)).bind fun found hfound => ?_
    cases found with
    | some page => exact hnext (hfound page rfl)
    | none =>
      refine nextGrant_reads.bind fun grant hgrant => .ite (fun _ => ?_) fun hno => ih hrest (.inl ?_)
      · exact (pageCacheInsertOrGet_reads (hgood i (mem_cons_self ..))).bind fun bytes hbytes => hnext hbytes
      · rcases hfirst with hfirst | ⟨rfl, -⟩
        · exact hfirst
        · exact ⟨fun _ => hgrant (Bool.eq_false_iff.2 hno), nofun⟩

theorem runPages_reads {list : List ℕ}
    (hgood : ∀ i ∈ list, GoodPage A s0.vfs.size (fpo + i * 4096) fun j => run (i * 4096 + j)) {first : ByteBuffer}
    (hfirst : GoodPage A s0.vfs.size fpo first ∨ list.head? = some 0) :
    Reads m limit A s0 (runPages fpo s0.vfs.size run list first) (GoodPage A s0.vfs.size fpo) := by
  induction list generalizing first with
  | nil => exact .pure (hfirst.resolve_right nofun)
  | cons i rest ih =>
    have hrest : ∀ i ∈ rest, GoodPage A s0.vfs.size (fpo + i * 4096) fun j => run (i * 4096 + j) :=
      fun j hj => hgood j (mem_cons_of_mem i hj)
    have hlater : i ≠ 0 → GoodPage A s0.vfs.size fpo first := fun hi => hfirst.resolve_right fun h => hi (Option.some.inj h)
    refine .ite (fun hskip => ih hrest (.inl (hlater hskip.2.ne'))) fun _ => ?_
    refine (pageCacheInsertOrGet_reads (hgood i (mem_cons_self ..))).bind fun bytes hbytes => ih hrest (.inl ?_)
    by_cases hi : i = 0
    · rw [if_pos hi]
      rw [hi, zero_mul, add_zero] at hbytes
      exact hbytes
    · rw [if_neg hi]
      exact hlater hi

theorem head?_range_of_pos (hn : 0 < n) : (range n).head? = some 0 := by
  rw [head?_range, if_neg hn.ne']

/-! ## The page that was asked for -/

/-- place of byte `j` of page `i` behind the offset `q * 4096`, for `k` blocks in a page -/
theorem page_place {bs k q : ℕ} (hk : 4096 = bs * k) (hj : j < 4096) :
    pageOf (q * 4096 + i * 4096 + j) / bs = q * 4096 / bs + i * k ∧
      (q * 4096 + i * 4096 + j) % 4096 = j ∧ (q * 4096 + i * 4096 + j) % bs = j % bs ∧
      (i * 4096 + j) / bs = i * k + j / bs ∧ (i * 4096 + j) % bs = j % bs := by
  have hpage : pageOf (q * 4096 + i * 4096 + j) = q * 4096 + i * 4096 := by rw [pageOf]; omega
  have hmod : (q * 4096 + i * 4096 + j) % 4096 = j := by omega
  have hbs : 0 < bs := pos_of_ne_zero fun h0 => by rw [h0, zero_mul] at hk; cases hk
  have hi : i * 4096 = bs * (i * k) := by rw [hk]; ring
  have hq : q * 4096 = bs * (q * k) := by rw [hk]; ring
  refine ⟨?_, hmod, ?_, ?_, ?_⟩
  · rw [hpage, hi, hq, ← Nat.mul_add, Nat.mul_div_cancel_left _ hbs, Nat.mul_div_cancel_left _ hbs]
  · rw [hi, hq, ← mul_add, mul_add_mod]
  · rw [hi, mul_add_div hbs]
  · rw [hi, mul_add_mod]

theorem page_lt (hi : i < n) (hj : j < 4096) : i * 4096 + j < n * 4096 := by omega

theorem batch_in_run {k remaining target : ℕ} (hk : 0 < k)
    (hi : i < max (min target (if k ≤ remaining then remaining / k else 1)) 1) : i = 0 ∨ i * k < remaining := by
  by_cases h0 : i = 0
  · exact .inl h0
  · right
    split_ifs at hi with hle
    · have hlt : i < remaining / k := by omega
      have hmul : (i + 1) * k ≤ remaining := (le_div_iff_mul_le hk).1 hlt
      rw [succ_mul] at hmul
      omega
    · omega

section Missing

variable {k q len target : ℕ} (hk : 4096 = P.blockSize * k) (h : Readable P s0 m limit)
include hk h

theorem first_lt (hsize : q * 4096 + i * 4096 + j < s0.vfs.size) : q * 4096 / P.blockSize + i * k < limit := by
  have hbs : 0 < P.blockSize := pos_of_dvd_of_pos h.blockSize_dvd (by decide)
  have hle := h.size_le
  have hi : q * 4096 + i * 4096 = P.blockSize * (q * k + i * k) := by rw [hk]; ring
  have hq : q * 4096 = P.blockSize * (q * k) := by rw [hk]; ring
  rw [hq, Nat.mul_div_cancel_left _ hbs]
  refine Nat.lt_of_mul_lt_mul_left (a := P.blockSize) ?_
  rw [mul_comm P.blockSize limit]
  omega

theorem first_of_run (hrun : RunAgrees m limit (q * 4096 / P.blockSize) len)
    (hi : i = 0 ∨ i * k < len) (hsize : q * 4096 + i * 4096 + j < s0.vfs.size) :
    m (q * 4096 / P.blockSize + i * k) =
      if m (q * 4096 / P.blockSize) = 0 then 0 else m (q * 4096 / P.blockSize) + i * k := by
  rcases hi with rfl | hi
  · rw [zero_mul, add_zero, add_zero]
    split_ifs with h0
    · exact h0
    · rfl
  · exact hrun _ hi (first_lt hk h hsize)

section Page

variable (hpage : ∀ o < s0.vfs.size, A o (pageByte P s0.inode.fs.device m o))
  (hrun : RunAgrees m limit (q * 4096 / P.blockSize) len)
include hpage hrun

theorem hole_good (hhole : m (q * 4096 / P.blockSize) = 0)
    (hi : i = 0 ∨ i * k < len) : GoodPage A s0.vfs.size (q * 4096 + i * 4096) fun _ => 0 := by
  intro j hj hsize
  have hfirst := first_of_run hk h hrun hi hsize
  have hbyte := hpage _ hsize
  rw [if_pos hhole] at hfirst
  simp only [pageByte, (page_place hk hj).1, hfirst, if_true, blockByte] at hbyte
  exact hbyte

variable (hblock : m (q * 4096 / P.blockSize) ≠ 0)
include hblock

theorem run_good
    (hi : i = 0 ∨ i * k < len) (hn : i < n)
    (hread : ∀ x < n * 4096 / P.blockSize * P.blockSize,
      run x = bytesOf (s0.inode.fs.device (m (q * 4096 / P.blockSize) + x / P.blockSize)) (x % P.blockSize)) :
    GoodPage A s0.vfs.size (q * 4096 + i * 4096) fun j =>
      if q * 4096 + (i * 4096 + j) < s0.vfs.size then run (i * 4096 + j) else 0 := by
  intro j hj hsize
  have hsize' : q * 4096 + (i * 4096 + j) < s0.vfs.size := by
    rw [← add_assoc]
    exact hsize
  obtain ⟨hp1, hp2, hp3, hp4, hp5⟩ := page_place (q := q) (i := i) hk hj
  have hfirst := first_of_run hk h hrun hi hsize
  have hbyte := hpage _ hsize
  have hin : i * 4096 + j < n * 4096 / P.blockSize * P.blockSize := by
    rw [Nat.div_mul_cancel (h.blockSize_dvd.mul_left n)]
    exact page_lt hn hj
  rw [if_neg hblock] at hfirst
  have hne : m (q * 4096 / P.blockSize) + i * k ≠ 0 := by omega
  have hne' : m (q * 4096 / P.blockSize) + i * k + j / P.blockSize ≠ 0 := fun h0 => hne (eq_zero_of_add_eq_zero h0).1
  simp only [pageByte, hp1, hp2, hp3, hfirst, if_neg hne, blockByte, if_neg hne'] at hbyte
  dsimp only
  rw [if_pos hsize', hread _ hin, hp4, hp5, ← add_assoc]
  exact hbyte

theorem readBatch_reads (hn : 0 < n) (hi : ∀ i < n, i = 0 ∨ i * k < len) :
    Reads m limit A s0 (readBatch P (q * 4096) s0.vfs.size (m (q * 4096 / P.blockSize)) n) (FoundPage A s0 (q * 4096)) := by
  refine nextGrant_reads.bind fun grant hgrant => .ite (fun _ => ?_) fun hno => ?_
  · have htransfer : Reads m limit A s0
        (attempt (onInode (onFs (readRun P (n * 4096 / P.blockSize) (m (q * 4096 / P.blockSize)))))) fun found =>
        ∃ run, found = some run ∧ ∀ x < n * 4096 / P.blockSize * P.blockSize,
          run x = bytesOf (s0.inode.fs.device (m (q * 4096 / P.blockSize) + x / P.blockSize)) (x % P.blockSize) := by
      intro s hs
      obtain ⟨run, hr, hspec⟩ := readRun_spec P (n * 4096 / P.blockSize) (m (q * 4096 / P.blockSize)) s.inode.fs
      obtain ⟨c, hinode, _⟩ := hs.inode
      have hret : attempt (onInode (onFs (readRun P (n * 4096 / P.blockSize) (m (q * 4096 / P.blockSize))))) s =
          .ok (some run) s := by
        simp only [attempt, onInode, onFs, hr]
      rw [hret]
      rw [hinode] at hspec
      exact ⟨hs, run, rfl, hspec⟩
    refine htransfer.bind fun found hfound => ?_
    obtain ⟨run, rfl, hread⟩ := hfound
    refine (runPages_reads (fun i hlt => ?_) (.inr (head?_range_of_pos hn))).bind fun bytes hbytes =>
      .pure ⟨fun hnone => ?_, fun b hb => ?_⟩
    · rw [mem_range] at hlt
      exact run_good hk h hpage hrun hblock (hi i hlt) hlt hread
    · cases hnone
    · cases hb
      exact hbytes
  · exact .pure ⟨fun _ => hgrant (Bool.eq_false_iff.2 hno), nofun⟩

end Page

theorem readMissing_reads (hpage : ∀ o < s0.vfs.size, A o (pageByte P s0.inode.fs.device m o))
    (hmapped : Refused s0 → ∀ o < s0.vfs.size, A o (mapByte P s0.inode.fs.device m o)) (hsize : q * 4096 < s0.vfs.size) :
    Reads m limit A s0 (readMissing P (q * 4096) s0.vfs.size) (GoodPage A s0.vfs.size (q * 4096)) := by
  have hbs : 0 < P.blockSize := pos_of_dvd_of_pos h.blockSize_dvd (by decide)
  have hkpos : 0 < k := pos_of_ne_zero fun h0 => by rw [h0, mul_zero] at hk; cases hk
  have hper : max (4096 / P.blockSize) 1 = k := by
    have : 4096 / P.blockSize = k := Nat.div_eq_of_eq_mul_right hbs hk
    omega
  have hb : q * 4096 / P.blockSize < limit := by simpa using first_lt (i := 0) (j := 0) hk h (by simpa using hsize)
  have hwindow : Reads m limit A s0 (readWindow (q * 4096)) fun _ => True := fun s hs =>
    ⟨{ hs with }, trivial⟩
  refine hwindow.bind fun windowPages _ => ?_
  have hlimit := h.limit_le
  rw [mod_eq_of_lt (show q * 4096 / P.blockSize < 2 ^ 32 by omega), hper]
  refine (resolveBlockRun_reads h hb).bind fun v hv => ?_
  obtain ⟨phys, len⟩ := v
  obtain ⟨hphys, hrun⟩ := hv
  subst hphys
  have hbatch : ∀ i < max (min (max (min windowPages ((s0.vfs.size - q * 4096 + 4095) / 4096)) 1)
      (if k ≤ len then len / k else 1)) 1, i = 0 ∨ i * k < len := fun i hi => batch_in_run hkpos hi
  refine .ite (fun hhole => ?_) fun hblock => ?_
  · have hgood := fun i hi => hole_good hk h hpage hrun hhole (hbatch i (mem_range.1 hi))
    refine (holePages_reads hsize hgood (.inr ⟨rfl, head?_range_of_pos (by omega)⟩)).bind fun found hf => ?_
    cases found with
    | some bytes => exact .pure (hf.2 bytes rfl)
    | none => exact .throw fun _ _ => hf.1 rfl
  · refine (readBatch_reads hk h hpage hrun hblock (by omega) hbatch).bind fun found hf => ?_
    cases found with
    | some bytes => exact .pure (hf.2 bytes rfl)
    | none =>
      refine .bind (Q := fun _ => True) (.modify fun s hs => ?_) fun _ _ => ?_
      · exact { hs with }
      · have hinner := getOrCreatePageInner_reads h (hmapped (hf.1 rfl)) (q * 4096)
        have haligned : pageOf (q * 4096) = q * 4096 := by rw [pageOf]; omega
        rw [haligned] at hinner
        exact asIoError_maintains hinner

end Missing

section Cached

variable (h : Readable P s0 m limit) (hpage : ∀ o < s0.vfs.size, A o (pageByte P s0.inode.fs.device m o))
  (hmapped : Refused s0 → ∀ o < s0.vfs.size, A o (mapByte P s0.inode.fs.device m o))
include h hpage hmapped

theorem readPage_reads {q : ℕ} (hsize : q * 4096 < s0.vfs.size) :
    Reads m limit A s0 (readPage P (q * 4096) s0.vfs.size) (GoodPage A s0.vfs.size (q * 4096)) := by
  obtain ⟨k, hk⟩ := h.blockSize_dvd
  refine (pageCacheGet_reads (q * 4096)).bind fun found hfound => ?_
  cases found with
  | some page =>
    refine .bind (Q := fun _ => True) (.modify fun s hs => ?_) fun _ _ => ?_
    · exact { hs with }
    · exact .pure (hfound page rfl)
  | none => exact readMissing_reads hk h hpage hmapped hsize

/-! ## Cached reads -/

theorem readPagesLoop_reads (fuel offset remaining : ℕ) (hfuel : remaining ≤ fuel) :
    Reads m limit A s0 (readPagesLoop P s0.vfs.size fuel offset remaining) fun data =>
      data.length = min remaining (s0.vfs.size - offset) ∧ ∀ i < data.length, A (offset + i) (data.getD i 0) := by
  induction fuel generalizing offset remaining with
  | zero =>
    refine .pure (nothing_read ?_)
    omega
  | succ fuel ih =>
    refine .ite (fun hmore => ?_) fun hdone => ?_
    · have hdm : pageOf offset + offset % 4096 = offset := div_add_mod' ..
      refine (readPage_reads h hpage hmapped (q := offset / 4096) (by rw [← pageOf]; omega)).bind fun page hgood => ?_
      rw [← pageOf] at hgood
      set n := min remaining (min (4096 - offset % 4096) (s0.vfs.size - offset)) with hn
      refine (ih (offset + n) (remaining - n) (by omega)).bind fun rest ⟨hlen, hrest⟩ => .pure ⟨?_, bytes_append (fun i hi => ?_) ?_⟩
      · rw [length_append, slice_length]
        omega
      · rw [slice_length] at hi
        rw [slice_getD hi]
        have hbyte := hgood (offset % 4096 + i) (by omega) (by omega)
        rwa [← add_assoc, hdm] at hbyte
      · rw [slice_length]
        exact hrest
    · refine .pure (nothing_read ?_)
      omega

/-- **A cached read returns page bytes; bytes of the map only where frames were refused.** -/
theorem readPageCache_reads (offset len : ℕ) :
    Reads m limit A s0 (readPageCache P offset len) fun data =>
      data.length = min len (s0.vfs.size - offset) ∧ ∀ i < data.length, A (offset + i) (data.getD i 0) := by
  intro s hs
  rw [readPageCache, get_bind, hs.vfs]
  by_cases hend : s0.vfs.size ≤ offset
  · rw [if_pos hend]
    refine ⟨hs, nothing_read ?_⟩
    omega
  · rw [if_neg hend]
    exact readPagesLoop_reads h hpage hmapped len offset len le_rfl s hs

end Cached

end Reads

/-! ## Agreement with the block map -/

/-- the block that `resolve_block` gives for block `b` of the file -/
def resolved (P : Params) (s : ExtInode Image) (b : ℕ) : ℕ := (Fallible.value (resolveBlock P b s)).getD 0

/-- a regular file with well-formed blocks and nothing in the page cache -/
structure ColdFile (P : Params) (s : Opened Image) (limit : ℕ) : Prop where
  blockSize : P.blockSize ∈ [1024, 2048, 4096]
  wellFormed : WellFormed P s.inode limit
  cached : CacheAgrees (mapOf P s.inode) limit s.inode.extentCache
  size_le : s.vfs.size ≤ limit * P.blockSize
  limit_le : limit ≤ 2 ^ 32
  regular : s.vfs.fileType = .regular
  pages : s.pages = []

/-- in the range that is read, the run of each page's first block has the bytes that the blocks of the page have -/
def Assembled (P : Params) (s : Opened Image) (offset len : ℕ) : Prop :=
  ∀ o, offset ≤ o → o < offset + len → o < s.vfs.size →
    pageByte P s.inode.fs.device (resolved P s.inode) o = mapByte P s.inode.fs.device (resolved P s.inode) o

/-- the bytes that `resolve_block` gives, from `offset` on -/
def Agrees (P : Params) (s : Opened Image) (offset : ℕ) (out : List UInt8) : Prop :=
  ∀ i < out.length, out.getD i 0 = mapByte P s.inode.fs.device (resolved P s.inode) (offset + i)

variable {o : ℕ}

section Cold

variable {P : Params} {s : Opened Image} {limit : ℕ}

section

variable (h : ColdFile P s limit)
include h

theorem ColdFile.resolved_eq (hb : b < limit) : resolved P s.inode b = mapOf P s.inode b := by
  obtain ⟨c, hr, _⟩ := resolveBlock_spec h.wellFormed.mapIs h.cached hb
  rw [resolved, hr]
  rfl

theorem ColdFile.blockSize_dvd : P.blockSize ∣ 4096 := by
  have hmem := h.blockSize
  simp only [mem_cons, not_mem_nil, or_false] at hmem
  rcases hmem with hb | hb | hb <;> rw [hb] <;> decide

theorem ColdFile.readable : Readable P s (mapOf P s.inode) limit where
  blockSize_dvd := h.blockSize_dvd
  map := h.wellFormed.mapIs
  size_le := h.size_le
  limit_le := h.limit_le
  regular := h.regular

theorem ColdFile.readState (A : ℕ → UInt8 → Prop) : ReadState (mapOf P s.inode) limit A s s where
  inode := ⟨s.inode.extentCache, rfl, h.cached⟩
  vfs := rfl
  memory _ hg := hg
  pages offset page hget := by
    rw [h.pages] at hget
    cases hget

/-- the block of an offset below the end of the file, and the first block of its page, are below the limit -/
theorem ColdFile.block_lt (ho : o < s.vfs.size) : o / P.blockSize < limit ∧ pageOf o / P.blockSize < limit := by
  have hsize := h.size_le
  have hpage : pageOf o ≤ o := div_mul_le_self ..
  have hlt : o / P.blockSize < limit := Nat.div_lt_of_lt_mul (by rw [Nat.mul_comm]; omega)
  exact ⟨hlt, (Nat.div_le_div_right hpage).trans_lt hlt⟩

theorem ColdFile.mapByte_eq (ho : o < s.vfs.size) :
    mapByte P s.inode.fs.device (resolved P s.inode) o = mapByte P s.inode.fs.device (mapOf P s.inode) o := by
  rw [mapByte, mapByte, h.resolved_eq (h.block_lt ho).1]

theorem ColdFile.pageByte_eq (ho : o < s.vfs.size) :
    pageByte P s.inode.fs.device (resolved P s.inode) o = pageByte P s.inode.fs.device (mapOf P s.inode) o := by
  simp only [pageByte, h.resolved_eq (h.block_lt ho).2]

theorem ColdFile.read_ok {len : ℕ} {out : List UInt8} {s' : Opened Image}
    (hr : readPageCache P offset len s = .ok out s') :
    out.length = min len (s.vfs.size - offset) ∧ ∀ i < out.length,
      out.getD i 0 = pageByte P s.inode.fs.device (resolved P s.inode) (offset + i) ∨
        out.getD i 0 = mapByte P s.inode.fs.device (resolved P s.inode) (offset + i) := by
  let A : ℕ → UInt8 → Prop := fun o x => o < s.vfs.size →
    x = pageByte P s.inode.fs.device (resolved P s.inode) o ∨ x = mapByte P s.inode.fs.device (resolved P s.inode) o
  have hread := readPageCache_reads (A := A) h.readable (fun o ho _ => .inl (h.pageByte_eq ho).symm)
    (fun _ o ho _ => .inr (h.mapByte_eq ho).symm) offset len s (h.readState A)
  rw [hr] at hread
  obtain ⟨_, hlen, hbytes⟩ := hread
  exact ⟨hlen, fun i hi => hbytes i hi (by omega)⟩

theorem ColdFile.read_granted (hmem : ∀ grant ∈ s.memory, grant.granted = true) (offset len : ℕ) :
    ∃ out s', readPageCache P offset len s = .ok out s' ∧ out.length = min len (s.vfs.size - offset) ∧
      ∀ i < out.length, out.getD i 0 = pageByte P s.inode.fs.device (resolved P s.inode) (offset + i) := by
  let A : ℕ → UInt8 → Prop := fun o x => o < s.vfs.size → x = pageByte P s.inode.fs.device (resolved P s.inode) o
  have hno : ¬ Refused s := by
    rintro ⟨grant, hg, hf⟩
    rw [hmem grant hg] at hf
    cases hf
  have hread := readPageCache_reads (A := A) h.readable (fun o ho _ => (h.pageByte_eq ho).symm)
    (fun hrefused => absurd hrefused hno) offset len s (h.readState A)
  cases hr : readPageCache P offset len s with
  | error e s' =>
    rw [hr] at hread
    exact absurd hread hno
  | ok out s' =>
    rw [hr] at hread
    obtain ⟨_, hlen, hbytes⟩ := hread
    exact ⟨out, s', rfl, hlen, fun i hi => hbytes i hi (by omega)⟩

end

/-- a read agrees if its pages are assembled from one run each -/
theorem Assembled.at {len : ℕ} (h : Assembled P s offset len) (hn : n = min len (s.vfs.size - offset))
    (hi : i < n) : pageByte P s.inode.fs.device (resolved P s.inode) (offset + i) =
      mapByte P s.inode.fs.device (resolved P s.inode) (offset + i) :=
  h (offset + i) (by omega) (by omega) (by omega)

/-- **With blocks of 4096 bytes a page is one block.** -/
theorem assembled_of_page (hbs : P.blockSize = 4096) (offset len : ℕ) : Assembled P s offset len := by
  intro o _ _ _
  have hpage : pageOf o / 4096 = o / 4096 := by rw [pageOf]; omega
  have hin : o % 4096 / 4096 = 0 := by omega
  simp only [pageByte, mapByte, hbs, hpage, hin, add_zero, blockByte]
  split_ifs <;> simp_all

/-- **With blocks of 4096 bytes cached reads agree with the block map.** -/
theorem cached_read_agrees_of_page (h : ColdFile P s limit) (hbs : P.blockSize = 4096)
    (hmem : ∀ grant ∈ s.memory, grant.granted = true) (offset len : ℕ) :
    ∃ out s', readPageCache P offset len s = .ok out s' ∧ out.length = min len (s.vfs.size - offset) ∧
      Agrees P s offset out := by
  obtain ⟨out, s', hr, hlen, hbytes⟩ := h.read_granted hmem offset len
  exact ⟨out, s', hr, hlen, fun i hi => (hbytes i hi).trans ((assembled_of_page hbs offset len).at hlen hi)⟩

/-- **Cached reads agree with the block map exactly where pages are assembled.** If every request for frames is granted then
the read returns, and what it returns are the bytes of the blocks if and only if in the range that is read the run of each
page's first block has them. In that case no refused request makes it return anything else. -/
theorem cached_read_agrees_iff (h : ColdFile P s limit) (offset len : ℕ) :
    ((∀ grant ∈ s.memory, grant.granted = true) →
      ∃ out s', readPageCache P offset len s = .ok out s' ∧ out.length = min len (s.vfs.size - offset) ∧
        (Agrees P s offset out ↔ Assembled P s offset len)) ∧
    (Assembled P s offset len → ∀ out s', readPageCache P offset len s = .ok out s' →
      out.length = min len (s.vfs.size - offset) ∧ Agrees P s offset out) := by
  constructor
  · intro hmem
    obtain ⟨out, s', hr, hlen, hbytes⟩ := h.read_granted hmem offset len
    refine ⟨out, s', hr, hlen, fun hagrees o h1 h2 h3 => ?_, fun hassembled i hi => ?_⟩
    · have hi : o - offset < out.length := by omega
      have heq := hagrees _ hi
      rw [hbytes _ hi, show offset + (o - offset) = o by omega] at heq
      exact heq
    · rw [hbytes i hi]
      exact hassembled.at hlen hi
  · intro hassembled out s' hr
    obtain ⟨hlen, hbytes⟩ := h.read_ok hr
    refine ⟨hlen, fun i hi => ?_⟩
    rcases hbytes i hi with heq | heq
    · rw [heq]
      exact hassembled.at hlen hi
    · exact heq

end Cold

def kilobyteParams : Params := ⟨1024, 16, 128, false⟩

/-- a file of two blocks, 10 and 20, with threes and twos. Block 11 is another file's and holds ones. -/
def splitFile : Opened Image where
  inode :=
    { fs := ⟨fun b _ => if b = 10 then 0x03030303 else if b = 11 then 0x01010101 else if b = 20 then 0x02020202 else 0,
      ⟨16, 64, 10, 0, 5, 1, 8192, 0, 0, 0, 32⟩, [], false⟩
      raw := ⟨fun w => if w = 0 then 0x81A4 else if w = 1 then 2048 else if w = 10 then 10 else if w = 11 then 20 else 0⟩
      extentCache := .new }
  vfs := ⟨.regular, 2048, 0x81A4, 1, 0, 0, 4⟩
  pages := []
  readahead := ⟨2 ^ 64 - 1, 32⟩
  memory := []

theorem splitFile_cold : ColdFile kilobyteParams splitFile 2 where
  blockSize := by decide
  wellFormed := by
    refine ⟨by decide, by decide, fun b hb => ?_⟩
    interval_cases b <;> decide
  cached := CacheAgrees.empty rfl
  size_le := by decide
  limit_le := by decide
  regular := rfl
  pages := rfl

theorem cached_read_agrees_iff_splitFile : ∃ out s', readPageCache kilobyteParams 0 2048 splitFile = .ok out s' ∧
    out.length = 2048 ∧ (Agrees kilobyteParams splitFile 0 out ↔ Assembled kilobyteParams splitFile 0 2048) :=
  (cached_read_agrees_iff splitFile_cold 0 2048).1 fun _ hg => absurd hg not_mem_nil

/-- the same file with blocks of 4096 bytes: it has one, and it holds threes -/
theorem cached_read_agrees_of_page_splitFile : ∃ out s', readPageCache ⟨4096, 16, 128, false⟩ 0 2048 splitFile = .ok out s' ∧
    out.length = 2048 ∧ Agrees ⟨4096, 16, 128, false⟩ splitFile 0 out := by
  have hcold : ColdFile ⟨4096, 16, 128, false⟩ splitFile 1 := by
    refine ⟨by decide, ⟨by decide, by decide, fun b hb => ?_⟩, CacheAgrees.empty rfl, by decide, by decide, rfl, rfl⟩
    interval_cases b
    decide
  exact cached_read_agrees_of_page hcold rfl (fun _ hg => absurd hg not_mem_nil) 0 2048

/-- **A page is filled from the wrong block.** The second block of the file is block 20 and holds twos; a cached read returns
the ones of block 11. -/
theorem small_blocks_misread :
    ColdFile kilobyteParams splitFile 2 ∧ resolved kilobyteParams splitFile.inode 1 = 20 ∧
      mapByte kilobyteParams splitFile.inode.fs.device (resolved kilobyteParams splitFile.inode) 1024 = 2 ∧
      Fallible.value (readPageCache kilobyteParams 1024 1 splitFile) = some [1] :=
  ⟨splitFile_cold, by decide +kernel, by decide +kernel, by decide +kernel⟩

end Kontsnor.Ext
