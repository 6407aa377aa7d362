import UbifsScan.Framework.ReflectedCrc
import Mathlib.Data.Nat.Bitwise

/-!
# Few wrong bits

How many wrong bits a reflected CRC always detects in a codeword of bounded length, a message with
its register behind it. The register after an error is the sum of as many words of one orbit of the
register step as bits are wrong. A certificate on natural numbers, which the kernel evaluates, shows
that few words of the orbit have no sum that vanishes.
-/

namespace ReflectedCrc

section Certificate

variable {α : Type} {p x b : Nat} {ts all us : List Nat}

/-- `k n`, with `n` evaluated first. -/
def forced (n : Nat) (k : Nat → α) : α := Nat.rec (k 0) (fun n _ => k (Nat.succ n)) n

@[simp] theorem forced_eq (n : Nat) (k : Nat → α) : forced n k = k n := by
  cases n <;> rfl

/-- `shift` on natural numbers. -/
def shiftNat (p x : Nat) : Nat := Nat.xor (Nat.mul p (Nat.land x 1)) (Nat.shiftRight x 1)

/-- The first `n` words of the orbit of `x`, the last one first. -/
def orbit (p x : Nat) : Nat → List Nat
  | 0 => []
  | n + 1 => (shiftNat p)^[n] x :: orbit p x n

def withOrbit (p : Nat) : Nat → Nat → List Nat → (List Nat → α) → α
  | 0, _, ts, k => k ts
  | n + 1, x, ts, k => forced x fun x => withOrbit p n (shiftNat p x) (x :: ts) k

/-- Words are marked by their residues, so that most words that were not marked are told at once. -/
def marks : Nat := 16381

def withMarks : List Nat → Nat → (Nat → α) → α
  | [], b, k => k b
  | t :: ts, b, k =>
      forced (Nat.lor b (Nat.shiftLeft 1 (Nat.mod t marks))) fun b => withMarks ts b k

/-- `x` is none of the words of `all`, which are marked in `b`. -/
def absent (b : Nat) (all : List Nat) (x : Nat) : Bool :=
  match Nat.land 1 (Nat.shiftRight b (Nat.mod x marks)) with
  | 0 => true
  | _ + 1 => all.all fun t => !Nat.beq x t

/-- `x` is no sum of at most `r + 1` of the words `ts`. -/
def avoids (b : Nat) (all : List Nat) : Nat → List Nat → Nat → Bool
  | 0, _, x => absent b all x
  | _ + 1, [], x => absent b all x
  | r + 1, t :: ts, x => forced (Nat.xor t x) (avoids b all r ts) && avoids b all (r + 1) ts x

/-- No sum of at most `r + 1` of the first `n` words of the orbit of `p` is 1. -/
def certificate (p n r : Nat) : Bool :=
  withOrbit p n p [] fun ts => withMarks ts 1 fun b => avoids b (0 :: ts) r ts 1

theorem orbit_succ (p x n : Nat) : orbit p x (n + 1) = orbit p (shiftNat p x) n ++ [x] := by
  induction n with
  | zero => rfl
  | succ n ih =>
      rw [orbit, ih, orbit, Function.iterate_succ_apply, List.cons_append]

theorem withOrbit_eq (p n x : Nat) (ts : List Nat) (k : List Nat → α) :
    withOrbit p n x ts k = k (orbit p x n ++ ts) := by
  induction n generalizing x ts with
  | zero => rfl
  | succ n ih =>
      rw [withOrbit, forced_eq, ih, orbit_succ, List.append_assoc, List.singleton_append]

theorem orbit_sublist (p x : Nat) {m n : Nat} (h : m ≤ n) :
    (orbit p x m).Sublist (orbit p x n) := by
  induction n, h using Nat.le_induction with
  | base => exact List.Sublist.refl _
  | succ n _ ih => exact ih.cons _

theorem withMarks_eq (ts : List Nat) (b : Nat) :
    ∃ b', (∀ k : Nat → α, withMarks ts b k = k b') ∧
      (∀ i, b.testBit i = true → b'.testBit i = true) ∧
      ∀ t ∈ ts, b'.testBit (t % marks) = true := by
  induction ts generalizing b with
  | nil => exact ⟨b, fun _ => rfl, fun _ h => h, by simp⟩
  | cons t ts ih =>
      obtain ⟨b', hrun, hkeep, hnew⟩ := ih (b ||| 1 <<< (t % marks))
      refine ⟨b', fun k => ?_, fun i hi => hkeep i ?_, fun u hu => ?_⟩
      · rw [withMarks, forced_eq]
        exact hrun k
      · rw [Nat.testBit_or, hi, Bool.true_or]
      · rcases List.mem_cons.mp hu with rfl | hu
        · apply hkeep
          simp [Nat.testBit_or, Nat.testBit_shiftLeft]
        · exact hnew u hu

private theorem not_mem_of_absent (hb : ∀ t ∈ all, b.testBit (t % marks) = true)
    (h : absent b all x = true) : x ∉ all := by
  intro hx
  have hmark := hb x hx
  simp only [absent] at h
  split at h
  · rename_i hzero
    have hclear : 1 &&& b >>> (x % marks) = 0 := hzero
    simp [Nat.testBit, hclear] at hmark
  · have hne := List.all_eq_true.mp h x hx
    simp at hne

/-- **What the certificate certifies**: the sums of few of the words miss `x`. -/
theorem sum_ne_of_avoids (hb : ∀ t ∈ all, b.testBit (t % marks) = true) (h0 : 0 ∈ all) {r : Nat}
    (hts : ts ⊆ all) (h : avoids b all r ts x = true) (hsub : us.Sublist ts)
    (hlen : us.length ≤ r + 1) : us.foldr Nat.xor 0 ≠ x := by
  have hempty : ∀ y, absent b all y = true → 0 ≠ y := by
    rintro y hy rfl
    exact not_mem_of_absent hb hy h0
  induction ts generalizing r x us with
  | nil =>
      obtain rfl := List.eq_nil_of_sublist_nil hsub
      cases r with
      | zero => exact hempty x h
      | succ r => exact hempty x h
  | cons t ts ih =>
      cases r with
      | zero =>
          match us, hlen with
          | [], _ => exact hempty x h
          | [u], _ =>
              rintro rfl
              have hu : u ∈ all := hts (hsub.subset (List.mem_singleton_self u))
              exact not_mem_of_absent hb h (by simpa using hu)
      | succ r =>
          obtain ⟨hwith, hwithout⟩ := (Bool.and_eq_true _ _).mp h
          rw [forced_eq] at hwith
          have hrest : ts ⊆ all := fun u hu => hts (List.mem_cons_of_mem t hu)
          cases hsub with
          | cons _ hsub => exact ih hrest hwithout hsub hlen
          | cons_cons _ hsub =>
              rename_i us
              have hne := ih hrest hwith hsub (by simpa using hlen)
              rintro rfl
              apply hne
              change _ = t ^^^ (t ^^^ us.foldr Nat.xor 0)
              rw [← Nat.xor_assoc, Nat.xor_self, Nat.zero_xor]

end Certificate

section Errors

variable {w : Nat} (poly : BitVec w)

theorem shift_toNat (x : BitVec w) : (shift poly x).toNat = shiftNat poly.toNat x.toNat := by
  have hshift : (x >>> 1).toNat = x.toNat >>> 1 := BitVec.toNat_ushiftRight x 1
  have hbit : x.getLsbD 0 = decide (x.toNat % 2 = 1) := by
    rw [BitVec.getLsbD, Nat.testBit_zero]
  have hnat : shiftNat poly.toNat x.toNat = poly.toNat * (x.toNat &&& 1) ^^^ x.toNat >>> 1 := rfl
  rw [hnat, Nat.and_one_is_mod, shift, hbit]
  rcases Nat.mod_two_eq_zero_or_one x.toNat with h | h
  · simp [h]
  · simp [h]

theorem shift_iterate_toNat (n : Nat) (x : BitVec w) :
    ((shift poly)^[n] x).toNat = (shiftNat poly.toNat)^[n] x.toNat := by
  induction n generalizing x with
  | zero => rfl
  | succ n ih => rw [Function.iterate_succ_apply, ih, shift_toNat, Function.iterate_succ_apply]

theorem feed_eq_xor (x : BitVec w) (bits : List Bool) :
    feed poly x bits = (shift poly)^[bits.length] x ^^^ feed poly 0#w bits := by
  induction bits generalizing x with
  | nil => simp [feed]
  | cons b bits ih =>
      have hstep : feedBit poly x b = shift poly x ^^^ feedBit poly 0#w b := by
        have h := feedBit_xor poly x 0#w false b
        rw [BitVec.xor_zero, Bool.false_xor] at h
        rw [h]
        simp [feedBit, shift]
      have hfirst : ∀ y, feed poly y (b :: bits) = feed poly (feedBit poly y b) bits :=
        fun _ => rfl
      rw [hfirst, hfirst, ih, ih (feedBit poly 0#w b), hstep, shift_iterate_xor, List.length_cons,
        Function.iterate_succ_apply, BitVec.xor_assoc]

/-- The register after an error is a sum of words of the orbit, one for each wrong bit. -/
theorem feed_eq_sum (bits : List Bool) :
    ∃ us : List Nat, us.Sublist (orbit poly.toNat poly.toNat bits.length) ∧
      us.length = bits.count true ∧ (feed poly 0#w bits).toNat = us.foldr Nat.xor 0 := by
  induction bits with
  | nil => exact ⟨[], List.Sublist.refl _, rfl, by simp [feed]⟩
  | cons b bits ih =>
      obtain ⟨us, hsub, hcount, hsum⟩ := ih
      have hcons : feed poly 0#w (b :: bits) =
          (shift poly)^[bits.length] (feedBit poly 0#w b) ^^^ feed poly 0#w bits :=
        feed_eq_xor poly (feedBit poly 0#w b) bits
      cases b with
      | false =>
          have hzero : feedBit poly 0#w false = 0#w := by simp [feedBit]
          refine ⟨us, hsub.cons _, by simpa using hcount, ?_⟩
          rw [hcons, hzero, ← hsum]
          have hit : (shift poly)^[bits.length] 0#w = 0#w :=
            Function.iterate_fixed (shift_zero poly) _
          rw [hit, BitVec.zero_xor]
      | true =>
          have hone : feedBit poly 0#w true = poly := by simp [feedBit]
          refine ⟨(shiftNat poly.toNat)^[bits.length] poly.toNat :: us, hsub.cons_cons _,
            by simpa using hcount, ?_⟩
          rw [hcons, hone, BitVec.toNat_xor, shift_iterate_toNat, hsum]
          rfl

/-- **Few wrong bits are detected.** -/
theorem feed_ne_zero_of_few (hw : 0 < w) (hpoly : poly.getLsbD (w - 1) = true) {n r : Nat}
    (hcert : certificate poly.toNat n r = true) {bits : List Bool} (hlen : bits.length ≤ n + 1)
    (hbit : true ∈ bits) (hfew : bits.count true ≤ r + 2) : feed poly 0#w bits ≠ 0#w := by
  induction bits using List.reverseRecOn with
  | nil => cases hbit
  | append_singleton bits b ih =>
      have hlast : feed poly 0#w (bits ++ [b]) =
          shift poly (feed poly 0#w bits ^^^ (BitVec.ofBool b).setWidth w) := by
        rw [feed_append, ← feedBit_eq_shift poly hw]
        rfl
      rw [hlast]
      apply shift_ne_zero poly hw hpoly
      simp only [List.length_append, List.length_singleton] at hlen
      rw [List.count_append] at hfew
      cases b with
      | false =>
          have hbit' : true ∈ bits := by simpa using hbit
          have hne := ih (by omega) hbit' (by simpa using hfew)
          simpa using hne
      | true =>
          -- The last wrong bit is 1 in the register, and the others do not add up to it.
          intro hzero
          obtain ⟨us, hsub, hcount, hsum⟩ := feed_eq_sum poly bits
          obtain ⟨b, hrun, hkeep, hmarks⟩ := withMarks_eq (orbit poly.toNat poly.toNat n) 1
          rw [certificate, withOrbit_eq, List.append_nil, hrun] at hcert
          apply sum_ne_of_avoids ?_ (List.mem_cons_self ..) (List.subset_cons_self _ _) hcert
            (hsub.trans (orbit_sublist _ _ (by omega))) (by simp at hfew; omega)
          · rw [← hsum, BitVec.xor_eq_zero_iff.mp hzero, BitVec.toNat_setWidth]
            exact Nat.mod_eq_of_lt (Nat.one_lt_two_pow (by omega))
          · intro t ht
            rcases List.mem_cons.mp ht with rfl | ht
            · exact hkeep _ (by decide)
            · exact hmarks t ht

/-- The bits of a word in the order in which they enter the register. -/
def wordBits (x : BitVec w) : List Bool := (List.range w).map x.getLsbD

theorem pack_wordBits (x : BitVec w) : pack w (wordBits x) = x := by
  apply BitVec.eq_of_getLsbD_eq
  intro i hi
  rw [getLsbD_pack _ i hi]
  simp [wordBits, hi]

/-- The word behind a message is compared with the register by exclusive or. -/
theorem feed_codeword (x y : BitVec w) (bits : List Bool) :
    feed poly x (bits ++ wordBits y) = (shift poly)^[w] (feed poly x bits ^^^ y) := by
  have hlen : (wordBits y).length = w := by simp [wordBits]
  rw [feed_append, feed_eq_shift_pack poly _ hlen.le, hlen, pack_wordBits]

/-- **Distance.** Two codewords that differ in few bits are the same. -/
theorem codeword_eq_of_few (hw : 0 < w) (hpoly : poly.getLsbD (w - 1) = true) {n r : Nat}
    (hcert : certificate poly.toNat n r = true) (x : BitVec w) (as bs : List Bool)
    {y z : BitVec w} (hlen : as.length = bs.length) (hle : as.length + w ≤ n + 1)
    (hsame : feed poly x as ^^^ y = feed poly x bs ^^^ z)
    (hfew : (List.zipWith Bool.xor (as ++ wordBits y) (bs ++ wordBits z)).count true ≤ r + 2) :
    as ++ wordBits y = bs ++ wordBits z := by
  have hlen' : (as ++ wordBits y).length = (bs ++ wordBits z).length := by simp [wordBits, hlen]
  have hzero : feed poly 0#w (List.zipWith Bool.xor (as ++ wordBits y) (bs ++ wordBits z)) =
      0#w := by
    have h := feed_xor poly _ _ hlen' x x
    rw [BitVec.xor_self] at h
    rw [h, feed_codeword, feed_codeword, hsame, BitVec.xor_self]
  by_contra hne
  apply feed_ne_zero_of_few poly hw hpoly hcert ?_ ?_ hfew hzero
  · simp [wordBits, hlen]
    omega
  · by_contra hall
    apply hne
    apply List.ext_getElem hlen'
    intro i hi hi'
    by_contra hdiff
    apply hall
    rw [List.mem_iff_getElem]
    refine ⟨i, by rw [List.length_zipWith]; omega, ?_⟩
    rw [List.getElem_zipWith, Bool.xor_iff_ne]
    exact hdiff

end Errors

end ReflectedCrc
