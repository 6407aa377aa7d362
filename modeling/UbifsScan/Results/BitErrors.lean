import UbifsScan.Framework.FewErrors
import UbifsScan.Results.Corruption

/-!
# Wrong bits in a header

The header with its CRC is a codeword of 160 bits, in which the CRC detects any four wrong bits.
With the magic in front of it, no header that the scan accepts becomes another one by four wrong
bits wherever they are.
-/

namespace UbifsScan

open Mem Program ReflectedCrc

theorem crcPoly_certificate : certificate crcPoly.toNat 159 2 = true := by decide +kernel

/-- Between one and four bits of the header at `o` are wrong, and nothing else in the block. -/
structure BitErrors (m m' : Mem) (L o : Int) : Prop where
  rest : ∀ i, 0 ≤ i → i < L → i < o ∨ o + 24 ≤ i → m' i = m i
  wrong : ∃ j, j < 192 ∧ bitAt m' o j ≠ bitAt m o j
  few : ((Finset.range 192).filter fun j => bitAt m' o j ≠ bitAt m o j).card ≤ 4

section

variable {m m' : Mem} {L o len : Int}

/-- The bits of a header that make up the codeword, in the order of the register: those that the
CRC covers and then those of the CRC. -/
def codewordBits : List Nat := List.range' 64 128 ++ List.range' 32 32

private theorem mem_codewordBits {j : Nat} : j ∈ codewordBits ↔ 32 ≤ j ∧ j < 192 := by
  simp only [codewordBits, List.mem_append, List.mem_range'_1]
  omega

private theorem bitAt_shift (m : Mem) (o : Int) (k j : Nat) :
    bitAt m (o + k) j = bitAt m o (8 * k + j) := by
  have hdiv : (8 * k + j) / 8 = k + j / 8 := by omega
  have hmod : (8 * k + j) % 8 = j % 8 := by omega
  simp only [bitAt, hdiv, hmod]
  congr 2
  omega

private theorem messageBits_chCovered (m : Mem) (o : Int) :
    messageBits (chCovered m o) = (List.range' 64 128).map (bitAt m o) := by
  have hlen : (messageBits (chCovered m o)).length = 128 := by
    simp [messageBits_length, chCovered]
  apply List.ext_getElem (by simp [hlen])
  intro i hi hi'
  have hget := messageBits_getElem (chCovered m o) i
  rw [chCovered_getElem, if_pos (by omega), List.getElem?_eq_getElem hi] at hget
  have hbit := bitAt_shift m o 8 i
  rw [List.getElem_map, List.getElem_range', Nat.one_mul, ← hbit]
  exact hget

private theorem le32_bit (m : Mem) (p : Int) {j : Nat} (hj : j < 32) :
    (le32 m p).getLsbD j = bitAt m p j := by
  have hbyte := le32_byte m p (k := j / 8) (by omega)
  have hsplit : 8 * (j / 8) + j % 8 = j := by omega
  rw [bitAt, hbyte, BitVec.getLsbD_extractLsb', hsplit]
  simp [Nat.mod_lt]

private theorem wordBits_chCrc (m : Mem) (o : Int) :
    wordBits (chCrc m o) = (List.range' 32 32).map (bitAt m o) := by
  apply List.ext_getElem (by simp [wordBits])
  intro i hi hi'
  have hi32 : i < 32 := by simpa [wordBits] using hi
  have hbit := bitAt_shift m o 4 i
  simp only [wordBits, List.getElem_map, List.getElem_range, List.getElem_range', Nat.one_mul]
  rw [← hbit]
  exact le32_bit m (o + 4) hi32

private theorem codeword_eq (m : Mem) (o : Int) :
    messageBits (chCovered m o) ++ wordBits (chCrc m o) = codewordBits.map (bitAt m o) := by
  rw [messageBits_chCovered, wordBits_chCrc, codewordBits, List.map_append]

private theorem count_xor_le {f g : Nat → Bool} {ps : List Nat} (hnodup : ps.Nodup)
    (hps : ∀ j ∈ ps, j < 192) :
    (List.zipWith Bool.xor (ps.map f) (ps.map g)).count true ≤
      ((Finset.range 192).filter fun j => f j ≠ g j).card := by
  rw [List.zipWith_map, List.zipWith_self, List.count_eq_countP, List.countP_map,
    List.countP_eq_length_filter, ← List.toFinset_card_of_nodup (hnodup.filter _)]
  apply Finset.card_le_card
  intro j hj
  simp only [List.mem_toFinset, List.mem_filter, Function.comp_apply, beq_true,
    Bool.xor_iff_ne] at hj
  exact Finset.mem_filter.mpr ⟨Finset.mem_range.mpr (hps j hj.1), hj.2⟩

theorem bitAt_eq_of_headers (hm : IsHeader m o len) (hm' : IsHeader m' o len)
    (hfew : ((Finset.range 192).filter fun j => bitAt m' o j ≠ bitAt m o j).card ≤ 4) {j : Nat}
    (hj : j < 192) : bitAt m' o j = bitAt m o j := by
  by_cases hmagic : j < 32
  · rw [← le32_bit m' o hmagic, ← le32_bit m o hmagic]
    have h : le32 m' o = le32 m o := hm'.magic.trans hm.magic.symm
    rw [h]
  · have hcrc : ∀ {n : Mem}, IsHeader n o len →
        feed crcPoly 0xFFFFFFFF#32 (messageBits (chCovered n o)) ^^^ chCrc n o = 0xFFFFFFFF#32 := by
      intro n hn
      rw [← hn.crc, utCrc32Value_eq, crc32BitSerial, ← BitVec.xor_assoc, BitVec.xor_self,
        BitVec.zero_xor]
    have hnodup : codewordBits.Nodup := by decide +kernel
    have hword := codeword_eq_of_few crcPoly (by decide) (by decide) crcPoly_certificate
      0xFFFFFFFF#32 (messageBits (chCovered m' o)) (messageBits (chCovered m o))
      (by simp [messageBits_length, chCovered]) (by simp [messageBits_length, chCovered])
      ((hcrc hm').trans (hcrc hm).symm) (by
        rw [codeword_eq, codeword_eq]
        exact (count_xor_le hnodup fun j hj => (mem_codewordBits.mp hj).2).trans hfew)
    rw [codeword_eq, codeword_eq] at hword
    exact List.map_inj_left.mp hword j (mem_codewordBits.mpr (by omega))

private theorem first_ne (hfirst : m o = 0x31#8) {b : Byte}
    (hb : 4 < ((Finset.range 8).filter fun j => b.getLsbD j ≠ (0x31#8).getLsbD j).card)
    (hfew : ((Finset.range 192).filter fun j => bitAt m' o j ≠ bitAt m o j).card ≤ 4) :
    m' o ≠ b := by
  rintro rfl
  have hsub : ((Finset.range 8).filter fun j => (m' o).getLsbD j ≠ (0x31#8).getLsbD j) ⊆
      (Finset.range 192).filter fun j => bitAt m' o j ≠ bitAt m o j := by
    intro j hj
    obtain ⟨hj8, hne⟩ := Finset.mem_filter.mp hj
    rw [Finset.mem_range] at hj8
    have hdiv : j / 8 = 0 := by omega
    have hmod : j % 8 = j := by omega
    refine Finset.mem_filter.mpr ⟨Finset.mem_range.mpr (by omega), ?_⟩
    simpa [bitAt, hdiv, hmod, hfirst] using hne
  have hle := Finset.card_le_card hsub
  omega

end

private theorem scan_detects_bit_errors {A : Allocator} {c : UbifsInfo} {lnum offs o : Int}
    {sbuf sbuf' : Mem} {quiet : Bool} {w' : World} {its : List Item} (hg : Geometry c offs)
    (htiles : Tiles sbuf c.lebSize offs its o) (hheader : IsHeader sbuf o (c.lebSize - o))
    (herr : BitErrors sbuf sbuf' c.lebSize o)
    (hA : AllocsSucceed (.harness A) c lnum offs sbuf' quiet w') :
    scanOutcome (.harness A) c lnum offs sbuf' quiet w' = some (.failed (-euclean)) := by
  have hlo := htiles.le
  have hroom := hheader.room
  have ha := hg.nonneg
  have hfirst := hheader.first
  have hzero : sbuf o ≠ 0#8 := by
    rw [hfirst]
    decide
  have hnot : ¬ IsHeader sbuf' o (c.lebSize - o) := by
    intro hheader'
    obtain ⟨j, hj, hne⟩ := herr.wrong
    exact hne (bitAt_eq_of_headers hheader hheader' herr.few hj)
  exact scan_stops hg htiles (by omega)
    (fun i hi hi' => herr.rest i (by omega) (by omega) (.inl hi')) hzero
    (first_ne hfirst (by decide) herr.few) (first_ne hfirst (by decide) herr.few) hnot hA

/-- **Wrong bits are detected.** Where a scan stands at a header that it accepts, the block with up
to four bits of that header wrong does not scan. -/
theorem ubifsScan_detects_bit_errors (A : Allocator) (c : UbifsInfo) (lnum offs o : Int)
    (sbuf sbuf' : Mem) (quiet : Bool) (w u w' : World) (sleb : Addr) (hg : Geometry c offs)
    (hfit : SumsFit sbuf c.lebSize offs)
    (hhead : ScanHeads (.harness A) c lnum offs sbuf quiet w sleb (.at c.lebSize o, u))
    (hheader : IsHeader sbuf o (c.lebSize - o)) (herr : BitErrors sbuf sbuf' c.lebSize o)
    (hA : AllocsSucceed (.harness A) c lnum offs sbuf' quiet w') :
    scanOutcome (.harness A) c lnum offs sbuf' quiet w' = some (.failed (-euclean)) := by
  obtain ⟨its, p, hcur, hat⟩ := hhead.atHead hg.inside fun _ _ _ _ htiles => hfit.skipFits htiles
  obtain rfl : o = p := congrArg Cursor.offs hcur
  exact scan_detects_bit_errors hg hat.tiles hheader herr hA

/-- Of a block that scans, this holds at each node that is listed and each pad node. -/
theorem scanned_detects_bit_errors {A : Allocator} {c : UbifsInfo} {lnum offs : Int}
    {sbuf sbuf' : Mem} {quiet : Bool} {w w' : World} {v : LebView} {its : List Item} {it : Item}
    (hg : Geometry c offs) (hfit : SumsFit sbuf c.lebSize offs)
    (hscan : scanOutcome (.harness A) c lnum offs sbuf quiet w = some (.scanned v))
    (hdec : Decomposes sbuf c offs its v.endpt) (hit : it ∈ its) (hkind : it.kind ≠ .raw)
    (herr : BitErrors sbuf sbuf' c.lebSize it.offs)
    (hA : AllocsSucceed (.harness A) c lnum offs sbuf' quiet w') :
    (∃ sleb u, ScanHeads (.harness A) c lnum offs sbuf quiet w sleb (.at c.lebSize it.offs, u)) ∧
      scanOutcome (.harness A) c lnum offs sbuf' quiet w' = some (.failed (-euclean)) := by
  obtain ⟨before, hbefore, hheader⟩ := hdec.tiles.header_of_mem hit hkind
  exact ⟨scanHeads_of_scanned hg hfit hscan hdec hit,
    scan_detects_bit_errors hg hbefore hheader herr hA⟩

/-- The sample block with a bit of the magic of its pad node and three of its sequence number
wrong. -/
def sampleFlipped : Mem := fun i =>
  if i = 41 then sampleLeb 41 ^^^ 0x10#8
  else if i = 49 then sampleLeb 49 ^^^ 0x83#8
  else sampleLeb i

private theorem sample_bitErrors : BitErrors sampleLeb sampleFlipped 96 40 where
  rest := fun i _ _ hi => (if_neg (by omega)).trans (if_neg (by omega))
  wrong := ⟨12, by decide, by decide⟩
  few := by decide +kernel

theorem sample_detects_bit_errors :
    scanOutcome (.harness .bump) sampleInfo 3 0 sampleFlipped true .boot =
      some (.failed (-euclean)) := by
  obtain ⟨v, hhead⟩ := sample_head
  exact ubifsScan_detects_bit_errors .bump sampleInfo 3 0 40 sampleLeb sampleFlipped true .boot v
    .boot 1 sample_geometry (sample_decomposes.sumsFit sample_geometry) hhead (by decide +kernel)
    sample_bitErrors (.of_count (by decide +kernel))

end UbifsScan
