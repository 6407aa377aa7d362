import UbifsScan.Framework.Words

/-!
# On-flash format and in-memory records

The part of `ubifs.h` that scanning works on: the constants and packed structs of the on-flash
format, the arithmetic macros, and the records the scan fills in. A struct on flash is read field
by field at its offset from the start of the node.
-/

namespace UbifsScan

open Mem

def ubifsNodeMagic : BitVec 32 := 0x06101831#32

def ubifsPaddingByte : Byte := 0xCE#8

/-- The node types of `ubifs-media.h`. -/
inductive NodeType
  | ino | data | dent | xent | trun | pad | sb | mst | ref | idx | cs | orph | auth | sig
  deriving DecidableEq, Repr

/-- The value of `node_type` on flash. -/
def NodeType.code : NodeType → Byte
  | .ino => 0
  | .data => 1
  | .dent => 2
  | .xent => 3
  | .trun => 4
  | .pad => 5
  | .sb => 6
  | .mst => 7
  | .ref => 8
  | .idx => 9
  | .cs => 10
  | .orph => 11
  | .auth => 12
  | .sig => 13

def ubifsChSz : Int := 24

def ubifsPadNodeSz : Int := 28

def chMagic (m : Mem) (p : Int) : BitVec 32 := le32 m p

def chCrc (m : Mem) (p : Int) : BitVec 32 := le32 m (p + 4)

def chSqnum (m : Mem) (p : Int) : BitVec 64 := le64 m (p + 8)

def chLen (m : Mem) (p : Int) : BitVec 32 := le32 m (p + 16)

def chNodeType (m : Mem) (p : Int) : Byte := m (p + 20)

def padPadLen (m : Mem) (p : Int) : BitVec 32 := le32 m (p + 24)

def ubifsMaxKeyLen : Nat := 16

def inoKey (m : Mem) (p : Int) : List Byte := bytesAt m (p + 24) ubifsMaxKeyLen

/-- The bytes the header CRC covers: from `sqnum` to the end of the header. -/
def chCovered (m : Mem) (p : Int) : List Byte := bytesAt m (p + 8) 16

/-- `ALIGN(x, a)` on 32-bit words; its bits are the same for signed and unsigned operands. -/
def align (x a : BitVec 32) : BitVec 32 := (x + a - 1#32) &&& ~~~(a - 1#32)

/-- The conversion of an `int` to `size_t`. -/
def sizeT (x : Int) : Int := x % 18446744073709551616

/-- `min_t(int, a, b)` with `a` a `sizeof`: the comparison is made in `size_t`. -/
def minT (a b : Int) : Int := if a < sizeT b then a else b

/-- The scanning codes of `ubifs_scan_a_node`; a positive result is a number of padding bytes. -/
def scannedGarbage : Int := 0

def scannedEmptySpace : Int := -1

def scannedANode : Int := -2

def scannedACorruptNode : Int := -3

def scannedABadPadNode : Int := -4

/-- `struct ubifs_info`, the fields `scan.c` uses. -/
structure UbifsInfo where
  lebSize : Int
  minIoSize : Int

/-- `struct ubifs_scan_node` without its list links; `node` points into the scan buffer. -/
structure ScanNode where
  key : List Byte
  sqnum : BitVec 64
  type : Int
  offs : Int
  len : Int
  node : Int
  deriving DecidableEq, Repr

/-- `struct ubifs_scan_leb` without its list links; `buf` points into the scan buffer. -/
structure ScanLeb where
  sqnum : BitVec 64
  buf : Int
  lnum : Int
  nodesCnt : Int
  endpt : Int
  deriving DecidableEq, Repr

/-- The contents of a freshly zeroed `struct ubifs_scan_leb`. -/
def ScanLeb.zero : ScanLeb := ⟨0#64, 0, 0, 0, 0⟩

private theorem and_add_and_not (z m : BitVec 32) : (z &&& ~~~m) + (z &&& m) = z := by
  rw [BitVec.add_eq_or_of_and_eq_zero]
  · apply BitVec.eq_of_getLsbD_eq
    intro i hi
    simp only [BitVec.getLsbD_or, BitVec.getLsbD_and, BitVec.getLsbD_not]
    cases z.getLsbD i <;> cases m.getLsbD i <;> simp [hi]
  · apply BitVec.eq_of_getLsbD_eq
    intro i _
    simp only [BitVec.getLsbD_and, BitVec.getLsbD_not, BitVec.getLsbD_zero]
    cases z.getLsbD i <;> cases m.getLsbD i <;> simp

theorem align_toNat {x : BitVec 32} {k : Nat} (hk : k < 32) (hx : x.toNat + 2 ^ k - 1 < 2 ^ 32) :
    (align x (BitVec.ofNat 32 (2 ^ k))).toNat =
      (x.toNat + 2 ^ k - 1) - (x.toNat + 2 ^ k - 1) % 2 ^ k := by
  have hpow : 2 ^ k < 2 ^ 32 := Nat.pow_lt_pow_right (by omega) hk
  have hpos : 0 < 2 ^ k := Nat.two_pow_pos k
  have ha : (BitVec.ofNat 32 (2 ^ k)).toNat = 2 ^ k := by
    rw [BitVec.toNat_ofNat, Nat.mod_eq_of_lt hpow]
  have hm : (BitVec.ofNat 32 (2 ^ k) - 1#32).toNat = 2 ^ k - 1 := by
    rw [BitVec.toNat_sub_of_le]
    · rw [ha]
      rfl
    · rw [BitVec.le_def, ha]
      exact hpos
  have hz : (x + BitVec.ofNat 32 (2 ^ k) - 1#32).toNat = x.toNat + 2 ^ k - 1 := by
    rw [BitVec.toNat_sub, BitVec.toNat_add, ha]
    have h1 : (1#32).toNat = 1 := rfl
    rw [h1]
    omega
  have hlow : ((x + BitVec.ofNat 32 (2 ^ k) - 1#32) &&& (BitVec.ofNat 32 (2 ^ k) - 1#32)).toNat =
      (x.toNat + 2 ^ k - 1) % 2 ^ k := by
    rw [BitVec.toNat_and, hz, hm, Nat.and_two_pow_sub_one_eq_mod]
  have hsum := congrArg BitVec.toNat
    (and_add_and_not (x + BitVec.ofNat 32 (2 ^ k) - 1#32) (BitVec.ofNat 32 (2 ^ k) - 1#32))
  rw [BitVec.toNat_add, hlow, hz] at hsum
  have hle : (align x (BitVec.ofNat 32 (2 ^ k))).toNat < 2 ^ 32 := BitVec.isLt _
  have hmod := Nat.mod_lt (x.toNat + 2 ^ k - 1) hpos
  simp only [align] at hle ⊢
  omega

theorem align_of_dvd {o : Int} {k : Nat} (hk : k < 31) (h0 : 0 ≤ o) (hint : o < 2147483648)
    (hdvd : (2 : Int) ^ k ∣ o) :
    (align (BitVec.ofInt 32 o) (BitVec.ofInt 32 (2 ^ k))).toInt = o := by
  obtain ⟨n, rfl⟩ := Int.eq_ofNat_of_zero_le h0
  have hn : n < 2147483648 := by omega
  have hpow : 2 ^ k < 2 ^ 31 := Nat.pow_lt_pow_right (by omega) hk
  have hpos : 0 < 2 ^ k := Nat.two_pow_pos k
  have hx : (BitVec.ofInt 32 (n : Int)).toNat = n := by
    rw [BitVec.toNat_ofInt]
    omega
  have ha : BitVec.ofInt 32 ((2 : Int) ^ k) = BitVec.ofNat 32 (2 ^ k) := by
    rw [← BitVec.ofInt_natCast, Nat.cast_pow]
    rfl
  have hmod : (n + 2 ^ k - 1) % 2 ^ k = 2 ^ k - 1 := by
    have hd : 2 ^ k ∣ n := by exact_mod_cast hdvd
    rw [Nat.add_sub_assoc (by omega), Nat.add_mod, Nat.mod_eq_zero_of_dvd hd, Nat.zero_add,
      Nat.mod_mod, Nat.mod_eq_of_lt (by omega)]
  have halign := align_toNat (x := BitVec.ofInt 32 (n : Int)) (k := k) (by omega)
    (by rw [hx]; omega)
  rw [hx, hmod] at halign
  rw [ha, BitVec.toInt_eq_toNat_cond, halign]
  split <;> omega

/-- `ALIGN(len, 8)` of a node length, as an `int`. -/
def alignedLen (v : BitVec 32) : Int := (align v 8#32).toInt

theorem alignedLen_eq {v : BitVec 32} (h0 : 0 ≤ v.toInt) (h : v.toInt ≤ 2147483640) :
    alignedLen v = (v.toInt + 7) / 8 * 8 := by
  have hv : v.toInt = v.toNat := by
    rw [BitVec.toInt_eq_toNat_cond] at h0 ⊢
    split at h0 <;> omega
  have halign := align_toNat (x := v) (k := 3) (by omega) (by omega)
  have hlt : (align v 8#32).toNat < 2147483648 := by
    rw [show (8#32) = BitVec.ofNat 32 (2 ^ 3) from rfl, halign]
    omega
  rw [alignedLen, BitVec.toInt_eq_toNat_cond, if_pos (by omega),
    show (8#32) = BitVec.ofNat 32 (2 ^ 3) from rfl, halign, hv]
  omega

end UbifsScan
