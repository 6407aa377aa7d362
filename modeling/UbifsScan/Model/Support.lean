import UbifsScan.Model.World

/-!
# The test harness

The functions of `ut_support.c`: the stand-ins for `ubifs_check_node` and `ubifs_leb_read`, and
the builders that write nodes into a buffer.
-/

namespace UbifsScan

open Mem

/-- 0 when the length of the common header is in range and its CRC is right, else 1. -/
def ubifsCheckNode (sbuf : Mem) (buf len : Int) : Program World Int := do
  let nodeLen := (← readLe32 sbuf (buf + 16)).toInt
  if nodeLen < ubifsChSz ∨ nodeLen > len then
    return 1
  let crc ← callCrc32 (← readBytes sbuf (buf + 8) 16)
  if crc ≠ (← readLe32 sbuf (buf + 4)) then
    return 1
  return 0

/-- User-space flash: the scan buffer is already filled. -/
def ubifsLebRead (_c : UbifsInfo) (_lnum _buf _offs _len _checkCrc : Int) : Int := 0

/-- `scan.c` linked against the harness. -/
def Env.harness (A : Allocator) : Env := ⟨A, ubifsLebRead⟩

/-- `memset(p, b, n)`; the length is a `size_t`. -/
def memset (m : Mem) (p : Int) (b : Byte) (n : Int) : Mem :=
  fun i => if p ≤ i ∧ i < p + sizeT n then b else m i

/-- A store of a word of `n` bytes at `p`. -/
def storeLe (n : Nat) (m : Mem) (p : Int) (v : BitVec (8 * n)) : Mem :=
  fun i => if p ≤ i ∧ i < p + n then v.extractLsb' (8 * (i - p).toNat) 8 else m i

def utMakeNode (st : CrcStatics) (m : Mem) (buf nodeType nodeLen : Int) (sqnum : BitVec 64) :
    Mem × CrcStatics :=
  let m := memset m buf 0 nodeLen
  let m := storeLe 4 m buf ubifsNodeMagic
  let m := storeLe 8 m (buf + 8) sqnum
  let m := storeLe 4 m (buf + 16) (BitVec.ofInt 32 nodeLen)
  let m := storeLe 1 m (buf + 20) (BitVec.ofInt 8 nodeType)
  let (crc, st) := utCrc32 st (bytesAt m (buf + 8) 16)
  (storeLe 4 m (buf + 4) crc, st)

def utMakePadNode (st : CrcStatics) (m : Mem) (buf nodeLen padLen : Int) (sqnum : BitVec 64) :
    Mem × CrcStatics :=
  let (m, st) := utMakeNode st m buf NodeType.pad.code.toNat nodeLen sqnum
  let m := storeLe 4 m (buf + 24) (BitVec.ofInt 32 padLen)
  let (crc, st) := utCrc32 st (bytesAt m (buf + 8) 16)
  (storeLe 4 m (buf + 4) crc, st)

theorem utMakeNode_lazy {st : CrcStatics} (hst : st.Lazy) (m : Mem) (o nodeType nodeLen : Int)
    (sqnum : BitVec 64) : (utMakeNode st m o nodeType nodeLen sqnum).2.Lazy := by
  simp only [utMakeNode]
  exact utCrc32_lazy hst _

theorem utMakePadNode_lazy {st : CrcStatics} (hst : st.Lazy) (m : Mem) (o nodeLen padLen : Int)
    (sqnum : BitVec 64) : (utMakePadNode st m o nodeLen padLen sqnum).2.Lazy := by
  simp only [utMakePadNode]
  exact utCrc32_lazy (utMakeNode_lazy hst m o _ nodeLen sqnum) _

end UbifsScan
