/-
On-disk structures of the ext driver (`fs/ext/types.rs`), as words.

A filesystem block, the 60 bytes of `i_block` and a raw inode are little-endian 32-bit words; every field the driver
reads is a word or half of one, so a structure is a view of words and no byte is lost:
- `Node`: an extent tree node in a buffer. The header is words 0..2, entry `i` is the `Slot` of words `3 + 3 * i ..`.
- `ExtRawInode`: the 160 bytes of a raw inode, with the fields the driver uses as accessors.
`u32` arithmetic of the source that can wrap is written with `add32` and `sub32`.

`slot_setSlot`: writing one slot changes that slot and no other, and no header word. It is all that later proofs know
about the packing.
-/
import Kontsnor.Core.Words

namespace Kontsnor.Ext

open Nat

open Words (Buffer low high pack)

def add32 (a b : ℕ) : ℕ := (a + b) % 2 ^ 32

def sub32 (a b : ℕ) : ℕ := (a + 2 ^ 32 - b % 2 ^ 32) % 2 ^ 32

-- the numerals of `Fin 15` and `Fin 40` are the words of `i_block` and of a raw inode
instance neZeroFifteen : NeZero 15 := ⟨by decide⟩

instance neZeroForty : NeZero 40 := ⟨by decide⟩

/-! ## Extent tree nodes -/

/-- the 12 bytes of an extent or of an index entry -/
structure Slot where
  a : UInt32
  b : UInt32
  c : UInt32
deriving DecidableEq, Repr

variable (buf : Buffer)

def slot (i : ℕ) : Slot := ⟨buf (3 + 3 * i), buf (4 + 3 * i), buf (5 + 3 * i)⟩

def setSlot (i : ℕ) (s : Slot) : Buffer := fun w =>
  if w = 3 + 3 * i then s.a else if w = 4 + 3 * i then s.b else if w = 5 + 3 * i then s.c else buf w

/-- `Ext4ExtentHeader` (`eh_generation` is never read) -/
structure Ext4ExtentHeader where
  ehMagic : ℕ
  ehEntries : ℕ
  ehMax : ℕ
  ehDepth : ℕ
deriving DecidableEq, Repr

def readHeader : Ext4ExtentHeader := ⟨low (buf 0), high (buf 0), low (buf 1), high (buf 1)⟩

/-- write a header with generation 0 -/
def writeHeader (h : Ext4ExtentHeader) : Buffer := fun w =>
  if w = 0 then pack h.ehMagic h.ehEntries else if w = 1 then pack h.ehMax h.ehDepth else if w = 2 then 0 else buf w

/-- write back a header that was read from this buffer, so with the generation it has there -/
def updateHeader (h : Ext4ExtentHeader) : Buffer := fun w =>
  if w = 0 then pack h.ehMagic h.ehEntries else if w = 1 then pack h.ehMax h.ehDepth else buf w

structure Ext4Extent where
  eeBlock : ℕ
  eeLen : ℕ
  eeStartHi : ℕ
  eeStartLo : ℕ
deriving DecidableEq, Repr

namespace Ext4Extent

def ofSlot (s : Slot) : Ext4Extent := ⟨s.a.toNat, low s.b, high s.b, s.c.toNat⟩

variable (e : Ext4Extent)

def toSlot : Slot := ⟨UInt32.ofNat e.eeBlock, pack e.eeLen e.eeStartHi, UInt32.ofNat e.eeStartLo⟩

def startBlock : ℕ := e.eeStartHi * 2 ^ 32 + e.eeStartLo

/-- `ee_len & 0x7FFF` -/
def len : ℕ := e.eeLen % 32768

/-- `file_block >= ee_block && file_block < ee_block + len` -/
def covers (fileBlock : ℕ) : Bool := e.eeBlock ≤ fileBlock && fileBlock < add32 e.eeBlock e.len

end Ext4Extent

/-- `Ext4ExtentIdx` (`ei_unused` is never read) -/
structure Ext4ExtentIdx where
  eiBlock : ℕ
  eiLeafLo : ℕ
  eiLeafHi : ℕ
deriving DecidableEq, Repr

namespace Ext4ExtentIdx

def ofSlot (s : Slot) : Ext4ExtentIdx := ⟨s.a.toNat, s.b.toNat, low s.c⟩

def toSlot (e : Ext4ExtentIdx) : Slot := ⟨UInt32.ofNat e.eiBlock, UInt32.ofNat e.eiLeafLo, pack e.eiLeafHi 0⟩

def leafBlock (e : Ext4ExtentIdx) : ℕ := e.eiLeafHi * 2 ^ 32 + e.eiLeafLo

end Ext4ExtentIdx

section

variable (buf : Buffer)

theorem slot_setSlot (i j : ℕ) (s : Slot) : slot (setSlot buf i s) j = if j = i then s else slot buf j := by
  split_ifs with h
  · subst h; simp [slot, setSlot]
  · simp only [slot, setSlot]
    all_goals
      split_ifs <;> first | omega | rfl

@[simp] theorem readHeader_setSlot (i : ℕ) (s : Slot) : readHeader (setSlot buf i s) = readHeader buf := by
  have h0 : setSlot buf i s 0 = buf 0 := by
    unfold setSlot; split_ifs <;> first | omega | rfl
  have h1 : setSlot buf i s 1 = buf 1 := by
    unfold setSlot; split_ifs <;> first | omega | rfl
  rw [readHeader, readHeader, h0, h1]

@[simp] theorem slot_writeHeader (h : Ext4ExtentHeader) (i : ℕ) : slot (writeHeader buf h) i = slot buf i := by
  simp only [slot, writeHeader]
  all_goals
    split_ifs <;> first | omega | rfl

@[simp] theorem slot_updateHeader (h : Ext4ExtentHeader) (i : ℕ) : slot (updateHeader buf h) i = slot buf i := by
  simp only [slot, updateHeader]
  all_goals
    split_ifs <;> first | omega | rfl

end

/-- every field of the header fits its 16 bits -/
structure Ext4ExtentHeader.Fits (h : Ext4ExtentHeader) : Prop where
  magic : h.ehMagic < 65536
  entries : h.ehEntries < 65536
  max : h.ehMax < 65536
  depth : h.ehDepth < 65536

variable {h : Ext4ExtentHeader}

theorem readHeader_writeHeader {buf : Buffer} (hf : h.Fits) : readHeader (writeHeader buf h) = h := by
  obtain ⟨h1, h2⟩ := Words.halves hf.magic hf.entries
  obtain ⟨h3, h4⟩ := Words.halves hf.max hf.depth
  simp [readHeader, writeHeader, h1, h2, h3, h4]

theorem readHeader_updateHeader {buf : Buffer} (hf : h.Fits) : readHeader (updateHeader buf h) = h := by
  obtain ⟨h1, h2⟩ := Words.halves hf.magic hf.entries
  obtain ⟨h3, h4⟩ := Words.halves hf.max hf.depth
  simp [readHeader, updateHeader, h1, h2, h3, h4]

theorem Ext4Extent.ofSlot_toSlot {e : Ext4Extent} (hb : e.eeBlock < 2 ^ 32) (hl : e.eeLen < 65536)
    (hh : e.eeStartHi < 65536) (hs : e.eeStartLo < 2 ^ 32) : ofSlot e.toSlot = e := by
  obtain ⟨h1, h2⟩ := Words.halves hl hh
  simp only [ofSlot, toSlot, h1, h2, UInt32.toNat_ofNat', mod_eq_of_lt hb, mod_eq_of_lt hs]

theorem Ext4ExtentIdx.ofSlot_toSlot {e : Ext4ExtentIdx} (hb : e.eiBlock < 2 ^ 32) (hl : e.eiLeafLo < 2 ^ 32)
    (hh : e.eiLeafHi < 65536) : ofSlot e.toSlot = e := by
  obtain ⟨h1, _⟩ := Words.halves hh (zero_lt_succ 65535)
  simp only [ofSlot, toSlot, h1, UInt32.toNat_ofNat', mod_eq_of_lt hb, mod_eq_of_lt hl]

/-! ## Raw inodes -/

/-- `ExtRawInode`: its 40 words -/
structure ExtRawInode where
  word : Fin 40 → UInt32

namespace ExtRawInode

variable (raw : ExtRawInode)

def iMode : ℕ := low (raw.word 0)

def iSize : ℕ := (raw.word 1).toNat

def iLinksCount : ℕ := high (raw.word 6)

def iBlocks : ℕ := (raw.word 7).toNat

def iFlags : ℕ := (raw.word 8).toNat

def iBlock (i : Fin 15) : UInt32 := raw.word ⟨10 + i.1, by omega⟩

def setIBlocks (n : ℕ) : ExtRawInode := ⟨Function.update raw.word 7 (UInt32.ofNat n)⟩

/-- `raw.i_block` filled from a 60-byte buffer -/
def setIBlock (buf : Buffer) : ExtRawInode :=
  ⟨fun w => if 10 ≤ w.1 ∧ w.1 < 25 then buf (w.1 - 10) else raw.word w⟩

/-- for anything but a directory, the upper half of the size -/
def iDirAcl : ℕ := (raw.word 27).toNat

/-- the 4 bits of `i_mode` for the type -/
def isDir : Bool := raw.iMode / 4096 == 4

def isSymlink : Bool := raw.iMode / 4096 == 10

def fileSize : ℕ := if raw.isDir then raw.iSize else raw.iDirAcl * 2 ^ 32 + raw.iSize

def isExtents : Bool := raw.iFlags.testBit 19

end ExtRawInode

/-- the 60 bytes of `i_block` as a buffer -/
def rootBuf (iBlock : Fin 15 → UInt32) : Buffer := fun w => if h : w < 15 then iBlock ⟨w, h⟩ else 0

@[simp] theorem rootBuf_setIBlock (raw : ExtRawInode) (buf : Buffer) {w : ℕ} (hw : w < 15) :
    rootBuf (raw.setIBlock buf).iBlock w = buf w := by
  have h1 : 10 ≤ 10 + w ∧ 10 + w < 25 := by omega
  simp [rootBuf, hw, ExtRawInode.iBlock, ExtRawInode.setIBlock, h1]

@[simp] theorem iBlock_setIBlocks {raw : ExtRawInode} {n : ℕ} : (raw.setIBlocks n).iBlock = raw.iBlock := by
  funext i
  have : (⟨10 + i.1, by omega⟩ : Fin 40) ≠ 7 := by
    intro h; have := congrArg Fin.val h; simp at this; omega
  simp [ExtRawInode.iBlock, ExtRawInode.setIBlocks, Function.update_of_ne this]

end Kontsnor.Ext
