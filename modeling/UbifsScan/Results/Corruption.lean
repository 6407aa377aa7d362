import UbifsScan.Refinement.Builder
import UbifsScan.Results.Locality

/-!
# Damaged headers

A header whose covered bytes or stored CRC changed, and one that a power cut left unfinished: the
items before it still read as they did, and the scan stops at it.
-/

namespace UbifsScan

open Mem Program

section Rejection

variable {m m' : Mem} {c : UbifsInfo} {a o : Int} {its : List Item}

theorem scan_stops {A : Allocator} {lnum : Int} {quiet : Bool} {w : World}
    (hg : Geometry c a) (htiles : Tiles m c.lebSize a its o) (hlt : o < c.lebSize)
    (hagree : AgreeOn m m' a o) (hzero : m o ≠ 0#8) (hce : m' o ≠ ubifsPaddingByte)
    (hff : m' o ≠ 0xFF#8) (hheader : ¬ IsHeader m' o (c.lebSize - o))
    (hA : AllocsSucceed (.harness A) c lnum a m' quiet w) :
    scanOutcome (.harness A) c lnum a m' quiet w = some (.failed (-euclean)) := by
  have htiles' : Tiles m' c.lebSize a its o :=
    htiles.carry hg.leb hg.start hg.le (by omega) (Int.le_refl _) hagree (htiles.pad_room hzero)
      fun _ _ _ _ => .inr hce
  have hraw : ∀ n, ¬ IsRaw m' c.lebSize o n := fun n hr => hce hr.first
  exact scanOutcome_of_stuck hg hA htiles' hlt (stuck_of_not_header hraw hheader)
    (fun hpad _ => absurd hpad.1 hheader) hff

private theorem scan_rejects {A : Allocator} {lnum : Int} {quiet : Bool} {w : World}
    (hg : Geometry c a) (htiles : Tiles m c.lebSize a its o) (hlt : o < c.lebSize)
    (hagree : AgreeOn m m' a o) (hzero : m o ≠ 0#8) (hfirst : m' o = 0x31#8)
    (hheader : ¬ IsHeader m' o (c.lebSize - o))
    (hA : AllocsSucceed (.harness A) c lnum a m' quiet w) :
    scanOutcome (.harness A) c lnum a m' quiet w = some (.failed (-euclean)) := by
  apply scan_stops hg htiles hlt hagree hzero ?_ ?_ hheader hA
  · rw [hfirst]
    decide
  · rw [hfirst]
    decide

end Rejection

/-- Bit `j` of the bytes from `p` on, the bits of a byte taken from the least significant one. -/
def bitAt (m : Mem) (p : Int) (j : Nat) : Bool := (m (p + (j / 8 : Nat))).getLsbD (j % 8)

/-- The bytes covered by the CRC of the header at `o` were changed, within 32 consecutive bits, and
nothing else in the block. -/
structure BurstDamage (m m' : Mem) (L o : Int) : Prop where
  rest : ∀ i, 0 ≤ i → i < L → i < o + 8 ∨ o + 24 ≤ i → m' i = m i
  differs : ∃ i, o + 8 ≤ i ∧ i < o + 24 ∧ m' i ≠ m i
  window : ∃ start : Nat, ∀ j : Nat, j < 128 → bitAt m' (o + 8) j ≠ bitAt m (o + 8) j →
    start ≤ j ∧ j < start + 32

/-- The stored CRC of the header at `o` was changed, and nothing else in the block. -/
structure CrcDamage (m m' : Mem) (L o : Int) : Prop where
  rest : ∀ i, 0 ≤ i → i < L → i < o + 4 ∨ o + 8 ≤ i → m' i = m i
  differs : ∃ i, o + 4 ≤ i ∧ i < o + 8 ∧ m' i ≠ m i

section Damage

variable {m m' : Mem} {L o len : Int}

theorem chCovered_getElem (m : Mem) (o : Int) (i : Nat) :
    (chCovered m o)[i]?.getD 0#8 = if i < 16 then m (o + 8 + i) else 0#8 := by
  by_cases hi : i < 16
  · have hlen : i < (chCovered m o).length := by simpa [chCovered] using hi
    rw [List.getElem?_eq_getElem hlen, if_pos hi]
    exact bytesAt_getElem hlen
  · rw [List.getElem?_eq_none (by simp [chCovered]; omega), if_neg hi]
    rfl

private theorem crc_ne_of_window (m m' : Mem) (p q : Int) (start : Nat)
    (hne : ∃ i : Nat, i < 16 ∧ m (p + 8 + i) ≠ m' (q + 8 + i))
    (hwindow : ∀ j : Nat, j < 128 → (m (p + 8 + (j / 8 : Nat))).getLsbD (j % 8) ≠
      (m' (q + 8 + (j / 8 : Nat))).getLsbD (j % 8) → start ≤ j ∧ j < start + 32) :
    utCrc32Value (chCovered m p) ≠ utCrc32Value (chCovered m' q) := by
  apply utCrc32Value_ne_of_burst (by simp [chCovered]) ?_ start
  · intro j hj
    rw [chCovered_getElem, chCovered_getElem] at hj
    by_cases h16 : j / 8 < 16
    · rw [if_pos h16, if_pos h16] at hj
      exact hwindow j (by omega) hj
    · rw [if_neg h16, if_neg h16] at hj
      exact absurd rfl hj
  · intro heq
    obtain ⟨i, hi, hbyte⟩ := hne
    have h := congrArg (fun l : List Byte => l[i]?.getD 0#8) heq
    simp only [chCovered_getElem, if_pos hi] at h
    exact hbyte h

theorem BurstDamage.not_headerOk (hd : BurstDamage m m' L o) (hheader : IsHeader m o len)
    (h0 : 0 ≤ o) (hroom : o + 24 ≤ L) : ¬ HeaderOk m' o len := by
  intro hok
  have hcrc : chCrc m' o = chCrc m o := le32_congr fun i hi hi' => hd.rest i (by omega) (by omega)
    (by omega)
  obtain ⟨start, hwindow⟩ := hd.window
  obtain ⟨i, hlo, hhi, hbyte⟩ := hd.differs
  apply crc_ne_of_window m' m o o start ?_ hwindow
    (hok.crc.trans (hcrc.trans hheader.crc.symm))
  exact ⟨(i - (o + 8)).toNat, by omega, by
    rwa [show o + 8 + ((i - (o + 8)).toNat : Int) = i by omega]⟩

theorem CrcDamage.not_headerOk (hd : CrcDamage m m' L o) (hheader : IsHeader m o len)
    (h0 : 0 ≤ o) (hroom : o + 24 ≤ L) : ¬ HeaderOk m' o len := by
  intro hok
  have hcov : chCovered m' o = chCovered m o :=
    bytesAt_congr fun i hi hi' => hd.rest i (by omega) (by omega) (by omega)
  have hcrc : le32 m' (o + 4) = le32 m (o + 4) := by
    have h := hok.crc
    rw [hcov, hheader.crc] at h
    exact h.symm
  obtain ⟨i, hlo, hhi, hbyte⟩ := hd.differs
  have hb := le32_byte m (o + 4) (k := (i - (o + 4)).toNat) (by omega)
  have hb' := le32_byte m' (o + 4) (k := (i - (o + 4)).toNat) (by omega)
  rw [show o + 4 + ((i - (o + 4)).toNat : Int) = i by omega] at hb hb'
  exact hbyte (by rw [hb', hcrc, ← hb])

end Damage

private theorem scan_rejects_damage {A : Allocator} {c : UbifsInfo} {lnum offs o : Int}
    {sbuf sbuf' : Mem} {quiet : Bool} {w' : World} {its : List Item} (hg : Geometry c offs)
    (htiles : Tiles sbuf c.lebSize offs its o) (hheader : IsHeader sbuf o (c.lebSize - o))
    (hdamage : BurstDamage sbuf sbuf' c.lebSize o ∨ CrcDamage sbuf sbuf' c.lebSize o)
    (hA : AllocsSucceed (.harness A) c lnum offs sbuf' quiet w') :
    scanOutcome (.harness A) c lnum offs sbuf' quiet w' = some (.failed (-euclean)) := by
  have h0 := (htiles.inside hg.inside).nonneg
  have hlo := htiles.le
  have hroom := hheader.room
  have hsame : ∀ i, 0 ≤ i → i < o + 4 → sbuf' i = sbuf i := by
    intro i hi hi'
    rcases hdamage with hd | hd
    · exact hd.rest i hi (by omega) (by omega)
    · exact hd.rest i hi (by omega) (by omega)
  have hnot : ¬ HeaderOk sbuf' o (c.lebSize - o) := by
    rcases hdamage with hd | hd
    · exact hd.not_headerOk hheader h0 (by omega)
    · exact hd.not_headerOk hheader h0 (by omega)
  have hfirst := hheader.first
  have ha := hg.nonneg
  have hzero : sbuf o ≠ 0#8 := by
    rw [hfirst]
    decide
  exact scan_rejects hg htiles (by omega) (fun i hi hi' => hsame i (by omega) (by omega)) hzero
    ((hsame o h0 (by omega)).trans hfirst) (fun h => hnot h.toHeaderOk) hA

/-- **Header corruption is not accepted.** Where a scan stands at a header that it accepts, the
block with that header damaged does not scan. -/
theorem ubifsScan_rejects_damage (A : Allocator) (c : UbifsInfo) (lnum offs o : Int)
    (sbuf sbuf' : Mem) (quiet : Bool) (w u w' : World) (sleb : Addr) (hg : Geometry c offs)
    (hfit : SumsFit sbuf c.lebSize offs)
    (hhead : ScanHeads (.harness A) c lnum offs sbuf quiet w sleb (.at c.lebSize o, u))
    (hheader : IsHeader sbuf o (c.lebSize - o))
    (hdamage : BurstDamage sbuf sbuf' c.lebSize o ∨ CrcDamage sbuf sbuf' c.lebSize o)
    (hA : AllocsSucceed (.harness A) c lnum offs sbuf' quiet w') :
    scanOutcome (.harness A) c lnum offs sbuf' quiet w' = some (.failed (-euclean)) := by
  obtain ⟨its, p, hcur, hat⟩ := hhead.atHead hg.inside fun _ _ _ _ htiles => hfit.skipFits htiles
  obtain rfl : o = p := congrArg Cursor.offs hcur
  exact scan_rejects_damage hg hat.tiles hheader hdamage hA

/-- A scan that succeeds stood at the header of each node that it lists and of each pad node that it
skipped; with one of them damaged the block does not scan. -/
theorem scanned_rejects_damage {A : Allocator} {c : UbifsInfo} {lnum offs : Int}
    {sbuf sbuf' : Mem} {quiet : Bool} {w w' : World} {v : LebView} {its : List Item} {it : Item}
    (hg : Geometry c offs) (hfit : SumsFit sbuf c.lebSize offs)
    (hscan : scanOutcome (.harness A) c lnum offs sbuf quiet w = some (.scanned v))
    (hdec : Decomposes sbuf c offs its v.endpt) (hit : it ∈ its) (hkind : it.kind ≠ .raw)
    (hdamage : BurstDamage sbuf sbuf' c.lebSize it.offs ∨ CrcDamage sbuf sbuf' c.lebSize it.offs)
    (hA : AllocsSucceed (.harness A) c lnum offs sbuf' quiet w') :
    (∃ sleb u, ScanHeads (.harness A) c lnum offs sbuf quiet w sleb (.at c.lebSize it.offs, u)) ∧
      IsHeader sbuf it.offs (c.lebSize - it.offs) ∧
      scanOutcome (.harness A) c lnum offs sbuf' quiet w' = some (.failed (-euclean)) := by
  obtain ⟨before, hbefore, hheader⟩ := hdec.tiles.header_of_mem hit hkind
  exact ⟨scanHeads_of_scanned hg hfit hscan hdec hit, hheader,
    scan_rejects_damage hg hbefore hheader hdamage hA⟩

/-- The sample block with the length of its pad node changed. -/
def sampleDamaged : Mem := fun i => if i = 56 then 0x20#8 else sampleLeb i

private theorem sample_damage : BurstDamage sampleLeb sampleDamaged 96 40 where
  rest := fun i _ _ hi => if_neg (by omega)
  differs := ⟨56, by decide, by decide, by decide⟩
  window := by
    refine ⟨64, fun j _ hj => ?_⟩
    by_contra hout
    apply hj
    have hsame : sampleDamaged (40 + 8 + (j / 8 : Nat)) = sampleLeb (40 + 8 + (j / 8 : Nat)) :=
      if_neg (by omega)
    simp only [bitAt, hsame]

theorem sample_rejects_damage :
    scanOutcome (.harness .bump) sampleInfo 3 0 sampleDamaged true .boot =
      some (.failed (-euclean)) := by
  obtain ⟨v, hhead⟩ := sample_head
  exact ubifsScan_rejects_damage .bump sampleInfo 3 0 40 sampleLeb sampleDamaged true .boot v
    .boot 1 sample_geometry (sample_decomposes.sumsFit sample_geometry) hhead (by decide +kernel)
    (.inl sample_damage) (.of_count (by decide +kernel))

section Cut

variable {m n blank : Mem} {L e nodeLen len : Int} {nodeType : Byte} {sqnum : BitVec 64} {k : Nat}

private theorem cut_magic (hempty : EmptyFrom m L e) (hL : e + 24 ≤ L) (hk : k ≤ 3) :
    ¬ IsHeader (splice m e n k) e len := by
  intro hh
  have hb := le32_byte (splice m e n k) e (k := 3) (by omega)
  have hm : le32 (splice m e n k) e = ubifsNodeMagic := hh.magic
  have hff : splice m e n k (e + 3) = 0xFF#8 :=
    (splice_outside (by omega)).trans (hempty (e + 3) (by omega) (by omega))
  rw [hm, show e + ((3 : Nat) : Int) = e + 3 by omega, hff] at hb
  exact absurd hb (by decide)

private theorem cut_len (hempty : EmptyFrom m L e) (hL : e + 24 ≤ L) (hk : k ≤ 19) :
    ¬ IsHeader (splice m e n k) e len := by
  intro hh
  have hlo := hh.lo
  have hff : splice m e n k (e + 16 + 3) = 0xFF#8 :=
    (splice_outside (by omega)).trans (hempty (e + 16 + 3) (by omega) (by omega))
  have hnat := le32_toNat (splice m e n k) (e + 16)
  rw [hff] at hnat
  simp only [ubifsChSz, chLen] at hlo
  rw [BitVec.toInt_eq_toNat_cond] at hlo
  have h255 : (0xFF#8).toNat = 255 := rfl
  omega

/-- The type byte and the three bytes behind it decide the CRC. -/
private theorem cut_crc (hmade : MadeNode blank n 0 nodeLen nodeType sqnum)
    (hempty : EmptyFrom m L e) (hL : e + 24 ≤ L) (hk : 20 ≤ k) (hk' : k ≤ 23) :
    ¬ IsHeader (splice m e n k) e len := by
  intro hh
  have hbyte : ∀ i : Nat, i < k → splice m e n k (e + i) = n (0 + i) := by
    intro i hi
    rw [splice_inside (by omega) (by omega)]
    congr 1
    omega
  have hcrc : chCrc (splice m e n k) e = chCrc n 0 := by
    simp only [chCrc, le32]
    have h4 := hbyte 4 (by omega)
    have h5 := hbyte 5 (by omega)
    have h6 := hbyte 6 (by omega)
    have h7 := hbyte 7 (by omega)
    rw [show e + 4 + 3 = e + (7 : Nat) by omega, show e + 4 + 2 = e + (6 : Nat) by omega,
      show e + 4 + 1 = e + (5 : Nat) by omega, show e + 4 = e + (4 : Nat) by omega, h4, h5, h6, h7]
    rfl
  apply crc_ne_of_window (splice m e n k) n e 0 96 ?_ ?_
    (hh.crc.trans (hcrc.trans hmade.crc.symm))
  · refine ⟨15, by omega, ?_⟩
    rw [splice_outside (by omega), hempty _ (by omega) (by omega),
      hmade.zero _ (by omega) (by omega)]
    decide
  · intro j hj hdiff
    refine ⟨?_, by omega⟩
    by_contra hlow
    apply hdiff
    have h := hbyte (8 + j / 8) (by omega)
    rw [show e + ((8 + j / 8 : Nat) : Int) = e + 8 + (j / 8 : Nat) by omega,
      show 0 + ((8 + j / 8 : Nat) : Int) = 0 + 8 + (j / 8 : Nat) by omega] at h
    rw [h]

theorem not_header_of_cut (hmade : MadeNode blank n 0 nodeLen nodeType sqnum)
    (hempty : EmptyFrom m L e) (hL : e + 24 ≤ L) (hk : k ≤ 23) :
    ¬ IsHeader (splice m e n k) e len := by
  by_cases h3 : k ≤ 3
  · exact cut_magic hempty hL h3
  · by_cases h19 : k ≤ 19
    · exact cut_len hempty hL h19
    · exact cut_crc hmade hempty hL (by omega) hk

end Cut

/-- **A power cut inside a header is detected.** Writing only the first bytes of a header where
the empty space begins makes the block fail to scan. -/
theorem ubifsScan_detects_cut (A : Allocator) (c : UbifsInfo) (lnum offs : Int) (sbuf : Mem)
    (quiet : Bool) (w w' : World) (v : LebView) (st : LazyCrc) (blank : Mem)
    (nodeType nodeLen : Int) (sqnum : BitVec 64) (k : Nat) (hg : Geometry c offs)
    (hfit : SumsFit sbuf c.lebSize offs)
    (hscan : scanOutcome (.harness A) c lnum offs sbuf quiet w = some (.scanned v))
    (h24 : 24 ≤ nodeLen) (hroom : v.endpt + (nodeLen + 7) / 8 * 8 ≤ c.lebSize) (hk : 1 ≤ k)
    (hk' : k ≤ 23)
    (hA : AllocsSucceed (.harness A) c lnum offs
      (splice sbuf v.endpt (utMakeNode st.val blank 0 nodeType nodeLen sqnum).1 k) quiet w') :
    scanOutcome (.harness A) c lnum offs
      (splice sbuf v.endpt (utMakeNode st.val blank 0 nodeType nodeLen sqnum).1 k) quiet w' =
        some (.failed (-euclean)) := by
  obtain ⟨its, e, hdec, rfl⟩ := decomposes_of_scanned hg hfit hscan
  simp only [blockView] at hroom hA ⊢
  have hint := hg.int
  have hin := hdec.tiles.inside hg.inside
  have h0 := hin.nonneg
  have hmade := (utMakeNode_made st.property blank 0 nodeType sqnum h24 (by omega)).1
  generalize (utMakeNode st.val blank 0 nodeType nodeLen sqnum).1 = n at hmade hA ⊢
  have hfirst : splice sbuf e n k e = 0x31#8 := by
    rw [splice_inside (by omega) (by omega), Int.sub_self]
    exact (hmade.isHeader h24 (Int.le_refl nodeLen)).first
  have hzero : sbuf e ≠ 0#8 := by
    rw [hdec.empty e (by omega) (by omega)]
    decide
  have hheader : ¬ IsHeader (splice sbuf e n k) e (c.lebSize - e) :=
    not_header_of_cut hmade hdec.empty (by omega) hk'
  exact scan_rejects hg hdec.tiles (by omega) (fun i hi hi' => splice_outside (.inl hi')) hzero
    hfirst hheader hA

theorem sample_detects_cut :
    scanOutcome (.harness .bump) ⟨128, 8⟩ 3 0
      (splice sampleLeb 80 (utMakeNode .boot (fun _ => 0) 0 0 24 7).1 10) true .boot =
        some (.failed (-euclean)) := by
  have hg : Geometry ⟨128, 8⟩ 0 :=
    ⟨by decide, by decide, by decide, by decide, by decide, 3, by decide, by decide⟩
  have hdec : Decomposes sampleLeb ⟨128, 8⟩ 0 sampleItems 80 := by decide +kernel
  exact ubifsScan_detects_cut .bump ⟨128, 8⟩ 3 0 sampleLeb true .boot .boot
    (blockView sampleLeb 3 sampleItems 80) ⟨.boot, CrcStatics.boot_lazy⟩ (fun _ => 0) 0 24 7 10 hg
    (hdec.sumsFit hg) (by decide +kernel) (by decide) (by decide) (by decide) (by decide)
    (.of_count (by decide +kernel))

end UbifsScan
