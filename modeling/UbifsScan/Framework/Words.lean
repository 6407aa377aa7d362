import Mathlib.Data.BitVec
import Mathlib.Tactic.NormNum

/-!
# Bytes, little-endian words and machine integers

A memory of bytes at integer addresses, the words laid out in it least significant byte first,
and the 32-bit signed integers of a machine that wraps on overflow.
-/

abbrev Byte := BitVec 8

/-- A memory: the byte at every address. -/
abbrev Mem := Int → Byte

namespace Mem

/-- The addresses `p, …, p + n - 1`. -/
def span (p : Int) (n : Nat) : List Int := (List.range n).map fun k : Nat => p + k

@[simp] theorem mem_span {p i : Int} {n : Nat} : i ∈ span p n ↔ p ≤ i ∧ i < p + n := by
  simp only [span, List.mem_map, List.mem_range]
  constructor
  · rintro ⟨k, hk, rfl⟩
    omega
  · intro h
    exact ⟨(i - p).toNat, by omega, by omega⟩

def bytesAt (m : Mem) (p : Int) (n : Nat) : List Byte := (span p n).map m

def le32 (m : Mem) (p : Int) : BitVec 32 := m (p + 3) ++ m (p + 2) ++ m (p + 1) ++ m p

def le64 (m : Mem) (p : Int) : BitVec 64 := le32 m (p + 4) ++ le32 m p

/-- The two memories hold the same bytes from `p` up to and without `q`. -/
def AgreeOn (m m' : Mem) (p q : Int) : Prop := ∀ i, p ≤ i → i < q → m' i = m i

variable {m m' : Mem} {p q : Int}

theorem AgreeOn.mono {p' q' : Int} (h : AgreeOn m m' p q) (hp : p ≤ p') (hq : q' ≤ q) :
    AgreeOn m m' p' q' := fun i hi hi' => h i (by omega) (by omega)

@[simp] theorem bytesAt_length (n : Nat) : (bytesAt m p n).length = n := by
  simp [bytesAt, span]

theorem bytesAt_getElem {n i : Nat} (h : i < (bytesAt m p n).length) :
    (bytesAt m p n)[i] = m (p + i) := by
  simp [bytesAt, span]

theorem bytesAt_eq_iff {n : Nat} :
    bytesAt m' q n = bytesAt m p n ↔ ∀ k : Nat, k < n → m' (q + k) = m (p + k) := by
  constructor
  · intro h k hk
    have hget := congrArg (fun l : List Byte => l[k]?) h
    simpa [bytesAt, span, hk] using hget
  · intro h
    apply List.ext_getElem (by simp)
    intro k hk hk'
    rw [bytesAt_getElem, bytesAt_getElem]
    exact h k (by simpa using hk)

theorem bytesAt_congr {n : Nat} (h : AgreeOn m m' p (p + n)) : bytesAt m' p n = bytesAt m p n := by
  apply List.map_congr_left
  intro i hi
  rw [mem_span] at hi
  exact h i hi.1 hi.2

theorem le32_congr (h : AgreeOn m m' p (p + 4)) : le32 m' p = le32 m p := by
  simp only [le32]
  rw [h (p + 3) (by omega) (by omega), h (p + 2) (by omega) (by omega),
    h (p + 1) (by omega) (by omega), h p (by omega) (by omega)]

theorem le64_congr (h : AgreeOn m m' p (p + 8)) : le64 m' p = le64 m p := by
  simp only [le64]
  rw [le32_congr (h.mono (by omega) (by omega)), le32_congr (h.mono (by omega) (by omega))]

theorem le32_toNat (m : Mem) (p : Int) :
    (le32 m p).toNat = (m p).toNat + 256 * (m (p + 1)).toNat + 65536 * (m (p + 2)).toNat +
      16777216 * (m (p + 3)).toNat := by
  have h₀ := (m p).isLt
  have h₁ := (m (p + 1)).isLt
  have h₂ := (m (p + 2)).isLt
  simp only [le32, BitVec.toNat_append]
  rw [← Nat.shiftLeft_add_eq_or_of_lt h₂, ← Nat.shiftLeft_add_eq_or_of_lt h₁,
    ← Nat.shiftLeft_add_eq_or_of_lt h₀]
  simp only [Nat.shiftLeft_eq]
  omega

theorem le32_byte (m : Mem) (p : Int) {k : Nat} (hk : k < 4) :
    m (p + k) = (le32 m p).extractLsb' (8 * k) 8 := by
  have h₀ := (m p).isLt
  have h₁ := (m (p + 1)).isLt
  have h₂ := (m (p + 2)).isLt
  have h₃ := (m (p + 3)).isLt
  apply BitVec.eq_of_toNat_eq
  rw [BitVec.extractLsb'_toNat, le32_toNat, Nat.shiftRight_eq_div_pow]
  obtain rfl | rfl | rfl | rfl : k = 0 ∨ k = 1 ∨ k = 2 ∨ k = 3 := by omega
  all_goals norm_num
  all_goals omega

theorem le32_inj (h : le32 m' q = le32 m p) : bytesAt m' q 4 = bytesAt m p 4 := by
  rw [bytesAt_eq_iff]
  intro k hk
  rw [le32_byte m' q hk, le32_byte m p hk, h]

theorem le64_inj (h : le64 m' q = le64 m p) :
    le32 m' q = le32 m p ∧ le32 m' (q + 4) = le32 m (p + 4) := by
  have hlow := (le32 m p).isLt
  have hlow' := (le32 m' q).isLt
  have hnat := congrArg BitVec.toNat h
  simp only [le64, BitVec.toNat_append] at hnat
  rw [← Nat.shiftLeft_add_eq_or_of_lt hlow, ← Nat.shiftLeft_add_eq_or_of_lt hlow'] at hnat
  simp only [Nat.shiftLeft_eq] at hnat
  exact ⟨BitVec.eq_of_toNat_eq (by omega), BitVec.eq_of_toNat_eq (by omega)⟩

end Mem

/-- The 32-bit signed integer that an exact sum or difference wraps to. -/
def wrap32 (x : Int) : Int := (x + 2147483648) % 4294967296 - 2147483648

theorem wrap32_wrap32_add (x y : Int) : wrap32 (wrap32 x + y) = wrap32 (x + y) := by
  simp only [wrap32]
  omega

theorem wrap32_of_fits {x : Int} (h : -2147483648 ≤ x) (h' : x < 2147483648) : wrap32 x = x := by
  simp only [wrap32]
  omega

theorem toInt_range (v : BitVec 32) : -2147483648 ≤ v.toInt ∧ v.toInt < 2147483648 := by
  have hlo := BitVec.le_toInt v
  have hhi := BitVec.toInt_lt (x := v)
  norm_num at hlo hhi
  exact ⟨hlo, hhi⟩
