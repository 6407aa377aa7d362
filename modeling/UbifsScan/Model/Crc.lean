import UbifsScan.Framework.ReflectedCrc
import UbifsScan.Framework.Words
import Mathlib.Logic.Function.Iterate

/-!
# The CRC of the test harness

`ut_crc32` of `ut_support.c` and the two statics behind it: a table that the first call fills and
the flag that says so.
-/

namespace UbifsScan

open ReflectedCrc

def crcPoly : BitVec 32 := 0xEDB88320#32

/-- `ut_crc_table` and `ut_crc_table_ready`. -/
structure CrcStatics where
  table : Nat → BitVec 32
  ready : Bool

def CrcStatics.boot : CrcStatics := ⟨fun _ => 0#32, false⟩

def crcInitStep (c : BitVec 32) : BitVec 32 :=
  if c &&& 1#32 ≠ 0#32 then 0xEDB88320#32 ^^^ (c >>> 1) else c >>> 1

/-- The outer loop of `ut_crc_init`, for `i` from 0 to `n - 1`. -/
def crcInitFill (n : Nat) (t : Nat → BitVec 32) : Nat → BitVec 32 :=
  (List.range n).foldl (fun t i => Function.update t i (crcInitStep^[8] (BitVec.ofNat 32 i))) t

def utCrcInit (st : CrcStatics) : CrcStatics := ⟨crcInitFill 256 st.table, true⟩

def utCrc32 (st : CrcStatics) (buf : List Byte) : BitVec 32 × CrcStatics :=
  let st := if st.ready then st else utCrcInit st
  let crc := buf.foldl (fun crc p =>
    st.table ((crc ^^^ p.setWidth 32) &&& 0xFF#32).toNat ^^^ (crc >>> 8)) 0xFFFFFFFF#32
  (crc ^^^ 0xFFFFFFFF#32, st)

/-- The statics after some calls of `ut_crc32`. -/
def CrcStatics.afterCalls (st : CrcStatics) (bufs : List (List Byte)) : CrcStatics :=
  bufs.foldl (fun st buf => (utCrc32 st buf).2) st

/-- The bit-serial CRC-32: every message bit, least significant first in each byte, enters the
reflected shift register. -/
def crc32BitSerial (buf : List Byte) : BitVec 32 :=
  feed crcPoly 0xFFFFFFFF#32 (messageBits buf) ^^^ 0xFFFFFFFF#32

/-- A table that claims to be ready holds the words of the register steps. -/
def CrcStatics.Lazy (st : CrcStatics) : Prop :=
  st.ready = true → ∀ i, i < 256 → st.table i = tableWord crcPoly (BitVec.ofNat 32 i)

/-- The statics as any calls of `ut_crc32` leave them. -/
abbrev LazyCrc := { st : CrcStatics // st.Lazy }

private theorem crcInitStep_eq (c : BitVec 32) : crcInitStep c = shift crcPoly c := by
  have hbit : (c &&& 1#32 ≠ 0#32) ↔ c.getLsbD 0 = true := by
    rw [BitVec.and_one_eq_setWidth_ofBool_getLsbD]
    cases c.getLsbD 0 <;> simp
  simp only [crcInitStep, shift, hbit]
  rfl

private theorem crcInitFill_apply (n : Nat) (t : Nat → BitVec 32) (i : Nat) :
    crcInitFill n t i = if i < n then tableWord crcPoly (BitVec.ofNat 32 i) else t i := by
  induction n with
  | zero => simp [crcInitFill]
  | succ n ih =>
      have hstep : crcInitStep = shift crcPoly := funext crcInitStep_eq
      have hfill : crcInitFill (n + 1) t =
          Function.update (crcInitFill n t) n (crcInitStep^[8] (BitVec.ofNat 32 n)) := by
        simp only [crcInitFill, List.range_succ, List.foldl_append, List.foldl_cons,
          List.foldl_nil]
      rw [hfill]
      by_cases hi : i = n
      · subst i
        simp [tableWord, hstep]
      · rw [Function.update_of_ne hi, ih]
        simp [show i < n + 1 ↔ i < n by omega]

theorem utCrcInit_table (st : CrcStatics) {i : Nat} (hi : i < 256) :
    (utCrcInit st).table i = tableWord crcPoly (BitVec.ofNat 32 i) := by
  simp only [utCrcInit, crcInitFill_apply, if_pos hi]

theorem CrcStatics.boot_lazy : CrcStatics.boot.Lazy := by
  intro h
  cases h

private theorem table_ready {st : CrcStatics} (h : st.Lazy) {i : Nat} (hi : i < 256) :
    (if st.ready then st else utCrcInit st).table i = tableWord crcPoly (BitVec.ofNat 32 i) := by
  split
  · exact h ‹_› i hi
  · exact utCrcInit_table st hi

theorem utCrc32_lazy {st : CrcStatics} (h : st.Lazy) (buf : List Byte) :
    (utCrc32 st buf).2.Lazy := by
  intro _ i hi
  exact table_ready h hi

theorem CrcStatics.afterCalls_lazy {st : CrcStatics} (h : st.Lazy) (bufs : List (List Byte)) :
    (st.afterCalls bufs).Lazy := by
  induction bufs generalizing st with
  | nil => exact h
  | cons buf bufs ih => exact ih (utCrc32_lazy h buf)

private theorem crcFold {table : Nat → BitVec 32}
    (htable : ∀ i, i < 256 → table i = tableWord crcPoly (BitVec.ofNat 32 i))
    (buf : List Byte) (crc : BitVec 32) :
    buf.foldl (fun crc p => table ((crc ^^^ p.setWidth 32) &&& 0xFF#32).toNat ^^^ (crc >>> 8)) crc =
      feed crcPoly crc (messageBits buf) := by
  induction buf generalizing crc with
  | nil => rfl
  | cons p buf ih =>
      have hindex : ((crc ^^^ p.setWidth 32) &&& 0xFF#32).toNat < 256 := by
        rw [BitVec.toNat_and]
        exact lt_of_le_of_lt Nat.and_le_right (by decide)
      have hbyte := feed_byteBits crcPoly (by decide) crc p
      have hmsg : messageBits (p :: buf) = byteBits p ++ messageBits buf := rfl
      rw [List.foldl_cons, ih, hmsg, feed_append, hbyte, htable _ hindex, BitVec.ofNat_toNat,
        BitVec.setWidth_eq]
      rfl

theorem utCrc32_fst {st : CrcStatics} (h : st.Lazy) (buf : List Byte) :
    (utCrc32 st buf).1 = crc32BitSerial buf := by
  simp only [utCrc32, crc32BitSerial]
  rw [crcFold (fun i hi => table_ready h hi)]

/-- The value of a first call, the CRC of the format. -/
def utCrc32Value (buf : List Byte) : BitVec 32 := (utCrc32 .boot buf).1

theorem utCrc32Value_eq (buf : List Byte) : utCrc32Value buf = crc32BitSerial buf :=
  utCrc32_fst CrcStatics.boot_lazy buf

theorem utCrc32Value_ne_of_burst {as bs : List Byte} (hlen : as.length = bs.length) (hne : as ≠ bs)
    (start : Nat) (hwindow : ∀ j : Nat, (as[j / 8]?.getD 0#8).getLsbD (j % 8) ≠
      (bs[j / 8]?.getD 0#8).getLsbD (j % 8) → start ≤ j ∧ j < start + 32) :
    utCrc32Value as ≠ utCrc32Value bs := by
  rw [utCrc32Value_eq, utCrc32Value_eq, crc32BitSerial, crc32BitSerial]
  intro h
  exact feed_messageBits_ne crcPoly (by decide) (by decide) _ hlen hne start hwindow
    ((BitVec.xor_left_inj _).mp h)

/-- **The table-driven CRC is the bit-serial one**, whether the call finds the table unbuilt or
built by any earlier calls. -/
theorem utCrc32_bitSerial (earlier : List (List Byte)) (buf : List Byte) :
    (utCrc32 (CrcStatics.boot.afterCalls earlier) buf).1 = crc32BitSerial buf ∧
      (utCrc32 (CrcStatics.boot.afterCalls earlier) buf).1 = (utCrc32 .boot buf).1 := by
  have h := utCrc32_fst (CrcStatics.afterCalls_lazy CrcStatics.boot_lazy earlier) buf
  exact ⟨h, by rw [h, utCrc32_fst CrcStatics.boot_lazy]⟩

/-- The check value of CRC-32. -/
example : crc32BitSerial [0x31, 0x32, 0x33, 0x34, 0x35, 0x36, 0x37, 0x38, 0x39] =
    0xCBF43926#32 := by
  decide +kernel

end UbifsScan
