import Mathlib.Data.BitVec
import Mathlib.Data.List.Basic
import Mathlib.Tactic.Common

/-!
# Reflected cyclic redundancy checks

The shift register of a reflected CRC over any width and polynomial, the table of its byte
steps, and what makes it detect bursts. The register step is linear in exclusive or, and it is
injective when the top bit of the polynomial is set: an error confined to as many consecutive
bits as the register is wide then never cancels.
-/

namespace ReflectedCrc

variable {w : Nat} (poly : BitVec w)

/-- One step of the register on no input: shift right, feed the bit shifted out back. -/
def shift (x : BitVec w) : BitVec w :=
  if x.getLsbD 0 then poly ^^^ (x >>> 1) else x >>> 1

def feedBit (x : BitVec w) (b : Bool) : BitVec w :=
  if x.getLsbD 0 ^^ b then poly ^^^ (x >>> 1) else x >>> 1

/-- The register after the bits of a message. -/
def feed (x : BitVec w) (bits : List Bool) : BitVec w := bits.foldl (feedBit poly) x

def byteBits (b : BitVec 8) : List Bool := (List.range 8).map b.getLsbD

def messageBits (msg : List (BitVec 8)) : List Bool := msg.flatMap byteBits

/-- A list of bits as a word, first bit lowest. -/
def pack (w : Nat) : List Bool → BitVec w
  | [] => 0#w
  | b :: bits => (BitVec.ofBool b).setWidth w ^^^ (pack w bits <<< 1)

private theorem xor_swap (a b c d : BitVec w) : a ^^^ b ^^^ (c ^^^ d) = a ^^^ c ^^^ (b ^^^ d) := by
  ac_rfl

theorem shift_xor (x y : BitVec w) : shift poly (x ^^^ y) = shift poly x ^^^ shift poly y := by
  simp only [shift, BitVec.getLsbD_xor, BitVec.ushiftRight_xor_distrib]
  cases x.getLsbD 0 <;> cases y.getLsbD 0 <;> simp only [Bool.xor_false, Bool.xor_true,
    Bool.not_true, Bool.not_false, Bool.false_eq_true, if_true, if_false]
  · ac_rfl
  · ac_rfl
  · rw [xor_swap, BitVec.xor_self, BitVec.zero_xor]

@[simp] theorem shift_zero : shift poly 0#w = 0#w := by
  simp [shift]

theorem shift_iterate_xor (n : Nat) (x y : BitVec w) :
    (shift poly)^[n] (x ^^^ y) = (shift poly)^[n] x ^^^ (shift poly)^[n] y := by
  induction n generalizing x y with
  | zero => rfl
  | succ n ih => simp only [Function.iterate_succ_apply, shift_xor, ih]

theorem feedBit_xor (x y : BitVec w) (a b : Bool) :
    feedBit poly (x ^^^ y) (a ^^ b) = feedBit poly x a ^^^ feedBit poly y b := by
  simp only [feedBit, BitVec.getLsbD_xor, BitVec.ushiftRight_xor_distrib]
  cases x.getLsbD 0 <;> cases y.getLsbD 0 <;> cases a <;> cases b <;>
    simp only [Bool.xor_false, Bool.xor_true, Bool.not_true, Bool.not_false,
      Bool.false_eq_true, if_true, if_false] <;>
    first | ac_rfl | (rw [xor_swap, BitVec.xor_self, BitVec.zero_xor])

theorem feed_xor (as bs : List Bool) (hlen : as.length = bs.length) (x y : BitVec w) :
    feed poly (x ^^^ y) (List.zipWith Bool.xor as bs) = feed poly x as ^^^ feed poly y bs := by
  induction as generalizing bs x y with
  | nil =>
      obtain rfl := List.length_eq_zero_iff.mp hlen.symm
      rfl
  | cons a as ih =>
      cases bs with
      | nil => cases hlen
      | cons b bs =>
          have hstep := feedBit_xor poly x y a b
          simp only [feed, List.zipWith_cons_cons, List.foldl_cons] at ih ⊢
          rw [show feedBit poly (x ^^^ y) (a.xor b) = _ from hstep]
          exact ih bs (by simpa using hlen) _ _

theorem feed_append (x : BitVec w) (as bs : List Bool) :
    feed poly x (as ++ bs) = feed poly (feed poly x as) bs := List.foldl_append

theorem getLsbD_pack (bits : List Bool) (i : Nat) (hi : i < w) :
    (pack w bits).getLsbD i = bits[i]?.getD false := by
  induction bits generalizing i with
  | nil => simp [pack]
  | cons b bits ih =>
      cases i with
      | zero => cases b <;> simp [pack, hi]
      | succ i =>
          have hlow : ((BitVec.ofBool b).setWidth w).getLsbD (i + 1) = false := by
            simp
          have hup : (pack w bits <<< 1).getLsbD (i + 1) = (pack w bits).getLsbD i := by
            simp [hi, BitVec.getLsbD]
          rw [pack, BitVec.getLsbD_xor, hlow, hup, ih i (by omega), Bool.false_xor,
            List.getElem?_cons_succ]

private theorem shift_double {x : BitVec w} (h : x.getLsbD (w - 1) = false) :
    shift poly (x <<< 1) = x := by
  have hlow : (x <<< 1).getLsbD 0 = false := by simp
  simp only [shift, hlow, Bool.false_eq_true, if_false]
  apply BitVec.eq_of_getLsbD_eq
  intro i hi
  simp only [BitVec.getLsbD_ushiftRight, BitVec.getLsbD_shiftLeft]
  by_cases hlast : i + 1 < w
  · simp [Nat.add_comm 1 i, hlast]
  · obtain rfl : i = w - 1 := by omega
    simp [h, show ¬ 1 + (w - 1) < w by omega]

theorem feedBit_eq_shift (hw : 0 < w) (x : BitVec w) (b : Bool) :
    feedBit poly x b = shift poly (x ^^^ (BitVec.ofBool b).setWidth w) := by
  have hrest : (BitVec.ofBool b).setWidth w >>> 1 = 0#w := by
    apply BitVec.eq_of_getLsbD_eq
    intro i _
    simp
  have hlow : ((BitVec.ofBool b).setWidth w).getLsbD 0 = b := by
    cases b <;> simp [hw]
  simp only [feedBit, shift, BitVec.getLsbD_xor, BitVec.ushiftRight_xor_distrib, hrest, hlow,
    BitVec.xor_zero]

/-- Up to the register's width, feeding bits is adding them at once and shifting. -/
theorem feed_eq_shift_pack (bits : List Bool) (hlen : bits.length ≤ w) (x : BitVec w) :
    feed poly x bits = (shift poly)^[bits.length] (x ^^^ pack w bits) := by
  induction bits generalizing x with
  | nil => simp [feed, pack]
  | cons b bits ih =>
      have hb : bits.length < w := by simpa [Nat.succ_le_iff] using hlen
      have htop : (pack w bits).getLsbD (w - 1) = false := by
        rw [getLsbD_pack bits (w - 1) (by omega), List.getElem?_eq_none (by omega)]
        rfl
      have hstep : feed poly x (b :: bits) = feed poly (feedBit poly x b) bits := rfl
      rw [hstep, ih hb.le, feedBit_eq_shift poly (by omega), List.length_cons,
        Function.iterate_succ_apply, pack, ← BitVec.xor_assoc, shift_xor poly (_ ^^^ _),
        shift_double poly htop]

theorem pack_byteBits (b : BitVec 8) : pack w (byteBits b) = b.setWidth w := by
  apply BitVec.eq_of_getLsbD_eq
  intro i hi
  rw [getLsbD_pack _ i hi, BitVec.getLsbD_setWidth]
  by_cases h8 : i < 8
  · simp [byteBits, h8, hi]
  · rw [List.getElem?_eq_none (by simp [byteBits]; omega)]
    simp [BitVec.getLsbD_of_ge b i (by omega)]

/-- The table's word for a byte value: eight register steps on it. -/
def tableWord (x : BitVec w) : BitVec w := (shift poly)^[8] x

private theorem shift_iterate_high (n : Nat) (x : BitVec w)
    (h : ∀ i, i < n → x.getLsbD i = false) : (shift poly)^[n] x = x >>> n := by
  induction n with
  | zero => simp
  | succ n ih =>
      have hlow : (x >>> n).getLsbD 0 = false := by simpa using h n (by omega)
      rw [Function.iterate_succ_apply', ih (fun i hi => h i (by omega))]
      simp only [shift, hlow, Bool.false_eq_true, if_false, BitVec.shiftRight_add]

/-- One byte through the table: the low byte of the register selects the word that stands for
the eight bit steps. -/
theorem feed_byteBits (hw : 8 ≤ w) (x : BitVec w) (b : BitVec 8) :
    feed poly x (byteBits b) =
      tableWord poly ((x ^^^ b.setWidth w) &&& 255) ^^^ (x >>> 8) := by
  let y := x ^^^ b.setWidth w
  have hsplit : y = (y &&& 255) ^^^ (y &&& ~~~255) := by
    apply BitVec.eq_of_getLsbD_eq
    intro i hi
    simp only [BitVec.getLsbD_xor, BitVec.getLsbD_and, BitVec.getLsbD_not]
    cases y.getLsbD i <;> cases (255 : BitVec w).getLsbD i <;> simp [hi]
  have h255 : ∀ i, (255 : BitVec w).getLsbD i = decide (i < 8) := by
    intro i
    change (BitVec.ofNat w (2 ^ 8 - 1)).getLsbD i = _
    rw [BitVec.getLsbD_ofNat, Nat.testBit_two_pow_sub_one]
    by_cases hi : i < 8 <;> simp [hi]
    omega
  have hhigh : ∀ i, i < 8 → (y &&& ~~~255).getLsbD i = false := by
    intro i hi
    rw [BitVec.getLsbD_and, BitVec.getLsbD_not, h255]
    simp [hi]
  have hrest : (y &&& ~~~255) >>> 8 = x >>> 8 := by
    apply BitVec.eq_of_getLsbD_eq
    intro i hi
    rw [BitVec.getLsbD_ushiftRight, BitVec.getLsbD_and, BitVec.getLsbD_not, h255,
      BitVec.getLsbD_ushiftRight]
    have hb : (b.setWidth w).getLsbD (8 + i) = false := by
      simp [BitVec.getLsbD_setWidth]
    rw [BitVec.getLsbD_xor, hb, Bool.xor_false]
    by_cases h : 8 + i < w
    · simp [h]
    · simp [BitVec.getLsbD_of_ge x (8 + i) (Nat.le_of_not_lt h)]
  have hlen : (byteBits b).length = 8 := by simp [byteBits]
  rw [feed_eq_shift_pack poly _ (by omega), hlen, pack_byteBits]
  change (shift poly)^[8] y = _
  conv_lhs => rw [hsplit, shift_iterate_xor, shift_iterate_high poly 8 _ hhigh, hrest]
  rfl

private theorem shift_top (hw : 0 < w) (hpoly : poly.getLsbD (w - 1) = true) (x : BitVec w) :
    (shift poly x).getLsbD (w - 1) = x.getLsbD 0 := by
  have htop : (x >>> 1).getLsbD (w - 1) = false := by
    rw [BitVec.getLsbD_ushiftRight]
    exact BitVec.getLsbD_of_ge _ _ (by omega)
  cases h : x.getLsbD 0 <;> simp [shift, h, htop, hpoly]

theorem shift_ne_zero (hw : 0 < w) (hpoly : poly.getLsbD (w - 1) = true) {x : BitVec w}
    (hx : x ≠ 0#w) : shift poly x ≠ 0#w := by
  intro hzero
  have hlow : x.getLsbD 0 = false := by
    rw [← shift_top poly hw hpoly, hzero]
    simp
  have hhigh : x >>> 1 = 0#w := by simpa [shift, hlow] using hzero
  apply hx
  apply BitVec.eq_of_getLsbD_eq
  intro i _
  cases i with
  | zero => simpa using hlow
  | succ i => simpa [Nat.add_comm 1 i] using congrArg (fun y => y.getLsbD i) hhigh

theorem shift_iterate_ne_zero (hw : 0 < w) (hpoly : poly.getLsbD (w - 1) = true) (n : Nat)
    {x : BitVec w} (hx : x ≠ 0#w) : (shift poly)^[n] x ≠ 0#w := by
  induction n with
  | zero => exact hx
  | succ n ih =>
      rw [Function.iterate_succ_apply']
      exact shift_ne_zero poly hw hpoly ih

private theorem feed_false (n : Nat) (x : BitVec w) :
    feed poly x (List.replicate n false) = (shift poly)^[n] x := by
  induction n generalizing x with
  | zero => rfl
  | succ n ih =>
      have hstep : feedBit poly x false = shift poly x := by simp [feedBit, shift]
      rw [List.replicate_succ, Function.iterate_succ_apply, ← ih, ← hstep]
      rfl

private theorem shift_iterate_zero (n : Nat) : (shift poly)^[n] 0#w = 0#w := by
  induction n with
  | zero => rfl
  | succ n ih => rw [Function.iterate_succ_apply, shift_zero, ih]

private theorem feed_zero_ne_zero (hw : 0 < w) (hpoly : poly.getLsbD (w - 1) = true)
    {bits : List Bool} (hlen : bits.length ≤ w) (hbit : true ∈ bits) :
    feed poly 0#w bits ≠ 0#w := by
  rw [feed_eq_shift_pack poly bits hlen, BitVec.zero_xor]
  apply shift_iterate_ne_zero poly hw hpoly
  intro hzero
  obtain ⟨i, hi, hget⟩ := List.getElem_of_mem hbit
  have h := getLsbD_pack (w := w) bits i (by omega)
  rw [hzero, List.getElem?_eq_getElem hi, hget] at h
  simp at h

private theorem replicate_of_quiet {bits : List Bool} (h : ∀ i : Nat, bits[i]?.getD false = false) :
    bits = List.replicate bits.length false := by
  apply List.ext_getElem (by simp)
  intro i hi _
  simpa [hi] using h i

/-- A message whose only bits lie within `w` consecutive ones does not leave the register zero. -/
theorem feed_burst_ne_zero (hw : 0 < w) (hpoly : poly.getLsbD (w - 1) = true) {bits : List Bool}
    {i : Nat} (hbit : bits[i]?.getD false = true) (start : Nat)
    (hwindow : ∀ i : Nat, bits[i]?.getD false = true → start ≤ i ∧ i < start + w) :
    feed poly 0#w bits ≠ 0#w := by
  have hquiet : ∀ k : Nat, k < start ∨ start + w ≤ k → bits[k]?.getD false = false := by
    intro k hk
    by_contra hset
    have hin := hwindow k (by simpa using hset)
    omega
  have hinside : true ∈ (bits.drop start).take w := by
    have hin := hwindow i hbit
    have hi : i < bits.length := by
      by_contra hlong
      simp [List.getElem?_eq_none (Nat.le_of_not_lt hlong)] at hbit
    rw [List.mem_iff_getElem]
    refine ⟨i - start, by simp; omega, ?_⟩
    simpa [hi, show start + (i - start) = i by omega] using hbit
  have hbefore : bits.take start = List.replicate (bits.take start).length false := by
    apply replicate_of_quiet
    intro k
    by_cases hk : k < start
    · have hset := hquiet k (.inl hk)
      simpa [List.getElem?_take, hk] using hset
    · simp [hk]
  have hafter : (bits.drop start).drop w =
      List.replicate ((bits.drop start).drop w).length false := by
    apply replicate_of_quiet
    intro k
    have hset := hquiet (start + w + k) (.inr (by omega))
    simpa [Nat.add_assoc] using hset
  have hparts : bits =
      bits.take start ++ ((bits.drop start).take w ++ (bits.drop start).drop w) := by
    rw [List.take_append_drop, List.take_append_drop]
  rw [hparts, feed_append, feed_append, hbefore, hafter, feed_false, feed_false,
    shift_iterate_zero]
  exact shift_iterate_ne_zero poly hw hpoly _ (feed_zero_ne_zero poly hw hpoly (by simp) hinside)

private theorem zipWith_xor_getD {as bs : List Bool} (hlen : as.length = bs.length) (i : Nat) :
    (List.zipWith Bool.xor as bs)[i]?.getD false = (as[i]?.getD false ^^ bs[i]?.getD false) := by
  by_cases hi : i < as.length
  · have hi' : i < bs.length := by omega
    simp [hi, hi']
  · simp [show as.length ≤ i by omega, show bs.length ≤ i by omega]

/-- **Burst detection.** Two messages of one length that differ, and differ only within `w`
consecutive bits, leave different registers. -/
theorem feed_ne_of_burst (hw : 0 < w) (hpoly : poly.getLsbD (w - 1) = true) (x : BitVec w)
    {as bs : List Bool} (hlen : as.length = bs.length) (hne : as ≠ bs) (start : Nat)
    (hwindow : ∀ i : Nat, as[i]?.getD false ≠ bs[i]?.getD false → start ≤ i ∧ i < start + w) :
    feed poly x as ≠ feed poly x bs := by
  intro heq
  have hzero : feed poly 0#w (List.zipWith Bool.xor as bs) = 0#w := by
    have h := feed_xor poly as bs hlen x x
    rw [BitVec.xor_self, heq, BitVec.xor_self] at h
    exact h
  have hdiff : ∃ i : Nat, as[i]?.getD false ≠ bs[i]?.getD false := by
    by_contra hall
    apply hne
    apply List.ext_getElem hlen
    intro i hi hi'
    have hsame := not_not.mp (not_exists.mp hall i)
    simpa [hi, hi'] using hsame
  obtain ⟨i, hi⟩ := hdiff
  apply feed_burst_ne_zero poly hw hpoly (i := i) ?_ start ?_ hzero
  · rw [zipWith_xor_getD hlen, Bool.xor_iff_ne]
    exact hi
  · intro k hk
    rw [zipWith_xor_getD hlen, Bool.xor_iff_ne] at hk
    exact hwindow k hk

theorem messageBits_getElem (msg : List (BitVec 8)) (j : Nat) :
    (messageBits msg)[j]?.getD false = (msg[j / 8]?.getD 0#8).getLsbD (j % 8) := by
  induction msg generalizing j with
  | nil => simp [messageBits]
  | cons b msg ih =>
      have hcons : messageBits (b :: msg) = byteBits b ++ messageBits msg := rfl
      have hlen : (byteBits b).length = 8 := by simp [byteBits]
      rw [hcons]
      by_cases hj : j < 8
      · have hdiv : j / 8 = 0 := by omega
        have hmod : j % 8 = j := by omega
        rw [List.getElem?_append_left (by omega), hdiv, hmod]
        simp [byteBits, hj]
      · have hdiv : j / 8 = (j - 8) / 8 + 1 := by omega
        have hmod : j % 8 = (j - 8) % 8 := by omega
        rw [List.getElem?_append_right (by omega), hlen, ih, hdiv, hmod, List.getElem?_cons_succ]

theorem messageBits_length (msg : List (BitVec 8)) : (messageBits msg).length = 8 * msg.length := by
  induction msg with
  | nil => rfl
  | cons b msg ih =>
      have hcons : messageBits (b :: msg) = byteBits b ++ messageBits msg := rfl
      rw [hcons, List.length_append, ih]
      simp only [byteBits, List.length_map, List.length_range, List.length_cons]
      omega

theorem messageBits_injective {as bs : List (BitVec 8)} (hlen : as.length = bs.length)
    (h : messageBits as = messageBits bs) : as = bs := by
  apply List.ext_getElem hlen
  intro i hi hi'
  apply BitVec.eq_of_getLsbD_eq
  intro k hk
  have ha := messageBits_getElem as (8 * i + k)
  have hb := messageBits_getElem bs (8 * i + k)
  have hdiv : (8 * i + k) / 8 = i := by omega
  have hmod : (8 * i + k) % 8 = k := by omega
  rw [hdiv, hmod] at ha hb
  rw [h, hb] at ha
  simpa [hi, hi'] using ha.symm

theorem feed_messageBits_ne (hw : 0 < w) (hpoly : poly.getLsbD (w - 1) = true) (x : BitVec w)
    {as bs : List (BitVec 8)} (hlen : as.length = bs.length) (hne : as ≠ bs) (start : Nat)
    (hwindow : ∀ j : Nat, (as[j / 8]?.getD 0#8).getLsbD (j % 8) ≠
      (bs[j / 8]?.getD 0#8).getLsbD (j % 8) → start ≤ j ∧ j < start + w) :
    feed poly x (messageBits as) ≠ feed poly x (messageBits bs) := by
  apply feed_ne_of_burst poly hw hpoly x
  · rw [messageBits_length, messageBits_length, hlen]
  · exact fun h => hne (messageBits_injective hlen h)
  · intro j hj
    rw [messageBits_getElem, messageBits_getElem] at hj
    exact hwindow j hj

end ReflectedCrc
