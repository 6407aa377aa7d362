import UbifsScan.Results.Reads

/-!
# Skip lengths

The length that `ubifs_scan_a_node` asks to skip stays inside the block exactly when the sum of its
pad-node check does not overflow. A scan that meets no such sum keeps its cursors inside and ends.
-/

namespace UbifsScan

open Mem Program

/-- A scanning code, or a skip length that stays inside the block. -/
def SkipInside (L offs ret : Int) : Prop :=
  ret ∈ [scannedGarbage, scannedEmptySpace, scannedANode, scannedACorruptNode,
    scannedABadPadNode] ∨ 0 < ret ∧ ret % 8 = 0 ∧ ret ≤ L - offs ∧ offs + ret ≤ L

instance (L offs ret : Int) : Decidable (SkipInside L offs ret) :=
  inferInstanceAs (Decidable (_ ∨ _))

section Call

variable {m : Mem} {L buf offs ret : Int}

private theorem not_skipInside {n p : Int} (hint : L < 2147483648) (h0 : 0 ≤ offs)
    (hn : 24 ≤ n) (hnL : n ≤ L - offs) (hp : 0 ≤ p) (hp' : p < 2147483648)
    (h8 : (n + p) % 8 = 0) (hover : 2147483648 ≤ offs + n + p) :
    ¬ SkipInside L offs (wrap32 (n + p)) := by
  have hret : wrap32 (n + p) = n + p ∨ wrap32 (n + p) = n + p - 4294967296 := by
    simp only [wrap32]
    omega
  rintro (hcode | ⟨hpos, -, hle, -⟩)
  · simp only [scannedGarbage, scannedEmptySpace, scannedANode, scannedACorruptNode,
      scannedABadPadNode, List.mem_cons, List.not_mem_nil, or_false] at hcode
    omega
  · omega

private theorem wrapped_sum_neg {n p : Int} (hint : L < 2147483648) (h0 : 0 ≤ offs)
    (hn : 24 ≤ n) (hnL : n ≤ L - offs) (hp' : p < 2147483648)
    (hover : 2147483648 ≤ offs + n + p) : wrap32 (wrap32 (offs + n) + p) < 0 := by
  rw [wrap32_of_fits (x := offs + n) (by omega) (by omega)]
  simp only [wrap32]
  omega

/-- A sum that overflows passes the check and is returned as it wraps. -/
private theorem Verdict.overflow_eq (h : Verdict m L buf (L - offs) offs ret)
    (hint : L < 2147483648) (h0 : 0 ≤ offs) (hpad : IsPadHeader m buf (L - offs))
    (hneg : 0 ≤ (padPadLen m buf).toInt)
    (h8 : ((chLen m buf).toInt + (padPadLen m buf).toInt) % 8 = 0)
    (hover : 2147483648 ≤ offs + (chLen m buf).toInt + (padPadLen m buf).toInt) :
    ret = wrap32 ((chLen m buf).toInt + (padPadLen m buf).toInt) := by
  cases h with
  | empty hmagic => exact absurd (hpad.1.magic.symm.trans hmagic) (by decide)
  | raw hraw => exact absurd hpad.1 hraw.not_header
  | garbage _ _ hheader => exact absurd hpad.1 hheader
  | corrupt _ hheader => exact absurd hpad.1.toHeaderOk hheader
  | badPad _ hbad =>
      have hlo := hpad.1.lo
      have hhi := hpad.1.hi
      have hrange := toInt_range (padPadLen m buf)
      simp only [ubifsChSz] at hlo
      have hsum := wrapped_sum_neg hint h0 hlo hhi hrange.2 hover
      rw [wrap32_mod8] at hbad
      omega
  | pad => rfl
  | node _ htype => exact absurd hpad.2 htype

theorem Verdict.skipInside_iff (h : Verdict m L buf (L - offs) offs ret) (hL : L % 8 = 0)
    (hint : L < 2147483648) (hoffs : offs % 8 = 0) (h0 : 0 ≤ offs) :
    SkipInside L offs ret ↔ SkipExact m buf (L - offs) offs := by
  have hcode : ∀ code : Int, code ∈ [scannedGarbage, scannedEmptySpace, scannedANode,
      scannedACorruptNode, scannedABadPadNode] → SkipExact m buf (L - offs) offs →
      (SkipInside L offs code ↔ SkipExact m buf (L - offs) offs) :=
    fun code hmem hexact => ⟨fun _ => hexact, fun _ => .inl hmem⟩
  cases h with
  | empty hmagic =>
      refine hcode _ (by simp) fun hpad => ?_
      exact absurd (hpad.1.magic.symm.trans hmagic) (by decide)
  | raw hraw =>
      have hsize := hraw.size
      have hfits := hraw.fits
      constructor
      · exact fun _ hpad => absurd hpad.1 hraw.not_header
      · intro _
        exact .inr (by omega)
  | garbage _ _ hheader =>
      exact hcode _ (by simp) fun hpad => absurd hpad.1 hheader
  | corrupt _ hheader =>
      exact hcode _ (by simp) fun hpad => absurd hpad.1.toHeaderOk hheader
  | badPad hpad hbad =>
      refine hcode _ (by simp) fun _ hneg h8 => ?_
      by_contra hover
      have hret := (Verdict.badPad hpad hbad).overflow_eq hint h0 hpad hneg h8 (not_lt.mp hover)
      have hmod := wrap32_mod8 ((chLen m buf).toInt + (padPadLen m buf).toInt)
      rw [← hret, h8] at hmod
      exact absurd hmod (by decide)
  | pad hpad hneg hfits h8 =>
      have hlo := hpad.1.lo
      have hhi := hpad.1.hi
      have hrange := toInt_range (padPadLen m buf)
      simp only [ubifsChSz] at hlo
      rw [wrap32_mod8] at h8
      constructor
      · intro hinside _ _ _
        by_contra hover
        exact not_skipInside hint h0 hlo hhi hneg hrange.2 h8 (not_lt.mp hover) hinside
      · intro hexact
        have hsum := hexact hpad hneg h8
        rw [wrap32_of_fits (x := offs + _) (by omega) (by omega),
          wrap32_of_fits (by omega) (by omega)] at hfits
        rw [wrap32_of_fits (by omega) (by omega)]
        exact .inr (by omega)
  | node _ htype => exact hcode _ (by simp) fun hpad => absurd hpad.2 htype

end Call

/-- The cursors add up to the end of the block. -/
structure CursorsInside (L : Int) (cur : Cursor) : Prop where
  same : cur.buf = cur.offs
  sum : cur.offs + cur.len = L
  nonneg : 0 ≤ cur.len

/-- What a round of the main loop may do at a head: not leave through the unknown result, and make
progress. -/
def RoundProgress (K : Env) (c : UbifsInfo) (lnum : Int) (sbuf : Mem) (quiet : Bool) (sleb : Addr)
    (head : Cursor × World) : Prop :=
  Returns (scanRound K c lnum sbuf quiet sleb head.1) head.2 fun r _ =>
    r ≠ .inr (.error (-einval)) ∧ ∀ next, r = .inl next → next.len < head.1.len

/-- The loops of `ubifs_scan` end, the main loop not with the unknown result. -/
def LoopsEnd (K : Env) (c : UbifsInfo) (lnum offs : Int) (sbuf : Mem) (quiet : Bool) (sleb : Addr)
    (w : World) : Prop :=
  Returns (iterate (scanRound K c lnum sbuf quiet sleb) ((Cursor.start c offs).len.toNat + 1)
    (Cursor.start c offs)) w fun leave w₁ =>
      leave ≠ .error (-einval) ∧ ∀ cur, leave = .done cur →
        Returns (iterate (emptyWordsRound sbuf) (cur.len.toNat + 1) cur) w₁ fun cur' w₂ =>
          Returns (iterate (emptyBytesRound sbuf) (emptyBytesBound cur'.len) cur') w₂
            fun _ _ => True

section Run

variable {A : Allocator} {c : UbifsInfo} {lnum offs : Int} {sbuf : Mem} {quiet : Bool} {w : World}
  {sleb : Addr}

private theorem head_progress {its : List Item} {o : Int} {w₂ : World}
    (hin : Inside c.lebSize offs)
    (hhead : AtHead A sbuf c.lebSize offs lnum w sleb its o w₂)
    (hfit : SkipFits sbuf c.lebSize o) :
    RoundProgress (.harness A) c lnum sbuf quiet sleb (.at c.lebSize o, w₂) := by
  have hat := hhead.tiles.inside hin
  apply (returns_scanRound lnum quiet hat hfit w₂).mono
  intro r v hspec
  refine ⟨?_, ?_⟩
  · rintro rfl
    obtain ⟨hend, -⟩ := hspec
    exact absurd hend.error_eq (by decide)
  · rintro next rfl
    obtain ⟨it, o', rfl, hstep, -⟩ := hhead.step hin hspec
    have hpos := hstep.2.1.size_pos
    have hend := hstep.2.2
    simp only [Cursor.at]
    omega

private theorem cursorsInside_at {o : Int} (hin : Inside c.lebSize o) :
    CursorsInside c.lebSize (.at c.lebSize o) := by
  have hle := hin.le
  refine ⟨rfl, ?_, ?_⟩
  · simp only [Cursor.at]
    omega
  · simp only [Cursor.at]
    omega

/-- Where the sum overflows, the skip length that the round adds or takes for an unknown result is
the wrapped sum. -/
private theorem returns_scanRound_overflow (A : Allocator) (lnum : Int) (quiet : Bool)
    (sleb : Addr) (v : World) {o : Int} (hin : Inside c.lebSize o)
    (hpad : IsPadHeader sbuf o (c.lebSize - o)) (hneg : 0 ≤ (padPadLen sbuf o).toInt)
    (h8 : ((chLen sbuf o).toInt + (padPadLen sbuf o).toInt) % 8 = 0)
    (hover : 2147483648 ≤ o + (chLen sbuf o).toInt + (padPadLen sbuf o).toInt) :
    Returns (scanRound (.harness A) c lnum sbuf quiet sleb (.at c.lebSize o)) v fun r _ =>
      0 < wrap32 ((chLen sbuf o).toInt + (padPadLen sbuf o).toInt) ∧
        r = .inl (Cursor.advance (.at c.lebSize o)
          (wrap32 ((chLen sbuf o).toInt + (padPadLen sbuf o).toInt))) ∨
      r = .inr (.error (-einval)) := by
  have h0 := hin.nonneg
  have hint := hin.int
  have hlo := hpad.1.lo
  have hhi := hpad.1.hi
  have hrange := toInt_range (padPadLen sbuf o)
  simp only [ubifsChSz] at hlo
  have hlen : 8 ≤ (Cursor.at c.lebSize o).len ∧ (Cursor.at c.lebSize o).len < 2147483648 := by
    simp only [Cursor.at]
    omega
  rw [scanRound, if_neg (by omega), returns_bind]
  apply (returns_ubifsScanANode c sbuf o lnum o quiet hlen.1 hlen.2 v).mono
  rintro ret u ⟨hverdict, -⟩
  obtain rfl := hverdict.overflow_eq hint h0 hpad hneg h8 hover
  generalize hret : wrap32 ((chLen sbuf o).toInt + (padPadLen sbuf o).toInt) = ret
  have hmod : ret % 8 = 0 := by rw [← hret, wrap32_mod8, h8]
  have hgarbage : ret ≠ scannedGarbage := by
    rw [← hret]
    simp only [wrap32, scannedGarbage]
    omega
  have hempty : ret ≠ scannedEmptySpace := by
    simp only [scannedEmptySpace]
    omega
  have hnode : ret ≠ scannedANode := by
    simp only [scannedANode]
    omega
  have hbad : ¬ (ret = scannedACorruptNode ∨ ret = scannedABadPadNode) := by
    simp only [scannedACorruptNode, scannedABadPadNode]
    omega
  rw [returns_ite]
  split
  · rename_i hpos
    rw [returns_pure]
    exact .inl ⟨hpos, rfl⟩
  · rw [returns_bind, returns_ubifsErr, returns_pure]
    exact .inr rfl

/-- Where the sum overflows the round leaves through the unknown result, or its next cursors leave
the block. -/
private theorem skipFits_of_progress {o : Int} {v : World} (hin : Inside c.lebSize o)
    (hprogress : RoundProgress (.harness A) c lnum sbuf quiet sleb (.at c.lebSize o, v))
    (hnext : ∀ next u, Round (scanRound (.harness A) c lnum sbuf quiet sleb)
      (.at c.lebSize o, v) (next, u) → CursorsInside c.lebSize next) :
    SkipFits sbuf c.lebSize o := by
  intro hpad hneg h8
  by_contra hover
  rw [not_lt] at hover
  obtain ⟨r, u, hrun, ⟨hpos, rfl⟩ | rfl⟩ :=
    returns_scanRound_overflow A lnum quiet sleb v hin hpad hneg h8 hover
  · have h0 := hin.nonneg
    have hint := hin.int
    have hlo := hpad.1.lo
    have hhi := hpad.1.hi
    have hrange := toInt_range (padPadLen sbuf o)
    simp only [ubifsChSz] at hlo
    have hsame := (hnext _ u hrun).same
    simp only [Cursor.at, wrap32] at hpos hsame
    omega
  · exact (hprogress.of_run hrun).1 rfl

private theorem heads_exact (hin : Inside c.lebSize offs)
    (hinside : ∀ head, ScanHeads (.harness A) c lnum offs sbuf quiet w sleb head →
      CursorsInside c.lebSize head.1 ∧ RoundProgress (.harness A) c lnum sbuf quiet sleb head)
    {head : Cursor × World} (h : ScanHeads (.harness A) c lnum offs sbuf quiet w sleb head) :
    SkipExact sbuf head.1.buf head.1.len head.1.offs := by
  have hfit : ∀ its o u, ScanHeads (.harness A) c lnum offs sbuf quiet w sleb
      (.at c.lebSize o, u) → Tiles sbuf c.lebSize offs its o → SkipFits sbuf c.lebSize o := by
    intro its o u hu htiles
    refine skipFits_of_progress (htiles.inside hin) (hinside _ hu).2 fun next u' hround => ?_
    obtain ⟨w₁, hrun, hvalid, hheads⟩ := hu
    exact (hinside (next, u') ⟨w₁, hrun, hvalid, hheads.tail hround⟩).1
  obtain ⟨cur, v⟩ := head
  obtain ⟨its, o, rfl, hhead⟩ := h.atHead hin hfit
  exact hfit its o v h hhead.tiles

private theorem heads_progress (hin : Inside c.lebSize offs)
    (hexact : ∀ head, ScanHeads (.harness A) c lnum offs sbuf quiet w sleb head →
      SkipExact sbuf head.1.buf head.1.len head.1.offs) {head : Cursor × World}
    (h : ScanHeads (.harness A) c lnum offs sbuf quiet w sleb head) :
    CursorsInside c.lebSize head.1 ∧
      RoundProgress (.harness A) c lnum sbuf quiet sleb head := by
  obtain ⟨cur, v⟩ := head
  have hfit := hexact _ h
  obtain ⟨its, o, rfl, hhead⟩ := h.atHead hin fun _ _ u hu _ => hexact _ hu
  exact ⟨cursorsInside_at (hhead.tiles.inside hin), head_progress hin hhead hfit⟩

private theorem loopsEnd (hin : Inside c.lebSize offs)
    (hexact : ∀ head, ScanHeads (.harness A) c lnum offs sbuf quiet w sleb head →
      SkipExact sbuf head.1.buf head.1.len head.1.offs) {w₁ : World} (hvalid : isErr sleb = false)
    (hrun : (ubifsStartScan (.harness A) c lnum offs).run w = some (sleb, w₁)) :
    LoopsEnd (.harness A) c lnum offs sbuf quiet sleb w₁ := by
  have hloop := returns_scanLoop (.harness A) quiet hin (started hvalid hrun)
    (fun its o v hv _ => hexact _ (scanHeads_at hin hrun hvalid hv))
  rw [LoopsEnd, Cursor.start_eq hin]
  apply hloop.mono
  rintro leave w₂ ⟨its, o, v, hhead, hspec⟩
  obtain ⟨hend, -⟩ := hspec
  cases leave with
  | done cur =>
      refine ⟨by simp, fun cur' hcur => ?_⟩
      obtain rfl := Leave.done.inj hcur
      cases hend with
      | done _ _ =>
          apply (returns_tailLoops (hhead.tiles.inside hin).fits w₂).mono
          exact fun cur' w₃ h => h.mono fun _ _ _ => trivial
  | corrupted cur => exact ⟨by simp, by simp⟩
  | error err =>
      obtain rfl := hend.error_eq
      exact ⟨fun herr => absurd (Leave.error.inj herr) (by decide), by simp⟩

end Run

/-- **Skip lengths.** A call stays inside the block if and only if the sum of its pad-node check
does not overflow; in a run it overflows at no head if and only if at every head the cursors are
inside the block and the round makes progress, and then the loops end. -/
theorem ubifsScanANode_skip_iff (c : UbifsInfo) (sbuf : Mem) (buf lnum offs : Int) (quiet : Bool)
    (A : Allocator) (w : World) (hL : c.lebSize % 8 = 0) (hint : c.lebSize < 2147483648)
    (hoffs : offs % 8 = 0) (h0 : 0 ≤ offs) (hlen : 8 ≤ c.lebSize - offs) :
    Returns (ubifsScanANode c sbuf buf (c.lebSize - offs) lnum offs quiet) w (fun ret _ =>
        SkipInside c.lebSize offs ret ↔ SkipExact sbuf buf (c.lebSize - offs) offs) ∧
      ∀ sleb, ((∀ head, ScanHeads (.harness A) c lnum offs sbuf quiet w sleb head →
            SkipExact sbuf head.1.buf head.1.len head.1.offs) ↔
          ∀ head, ScanHeads (.harness A) c lnum offs sbuf quiet w sleb head →
            CursorsInside c.lebSize head.1 ∧
              RoundProgress (.harness A) c lnum sbuf quiet sleb head) ∧
        ((∀ head, ScanHeads (.harness A) c lnum offs sbuf quiet w sleb head →
            SkipExact sbuf head.1.buf head.1.len head.1.offs) →
          ∀ w₁, (ubifsStartScan (.harness A) c lnum offs).run w = some (sleb, w₁) →
            isErr sleb = false → LoopsEnd (.harness A) c lnum offs sbuf quiet sleb w₁) := by
  have hin : Inside c.lebSize offs := ⟨h0, by omega, hoffs, hL, hint⟩
  constructor
  · apply (returns_ubifsScanANode c sbuf buf lnum offs quiet hlen (by omega) w).mono
    rintro ret w' ⟨hverdict, -⟩
    exact hverdict.skipInside_iff hL hint hoffs h0
  · refine fun sleb => ⟨⟨fun hexact head h => heads_progress hin hexact h,
      fun hinside head h => heads_exact hin hinside h⟩, fun hexact w₁ hrun hvalid => ?_⟩
    exact loopsEnd hin hexact hvalid hrun

theorem skipExact_of_sumsFit {A : Allocator} {c : UbifsInfo} {sbuf : Mem} {lnum offs : Int}
    {quiet : Bool} {w : World} {sleb : Addr} (hin : Inside c.lebSize offs)
    (hfit : SumsFit sbuf c.lebSize offs) {head : Cursor × World}
    (h : ScanHeads (.harness A) c lnum offs sbuf quiet w sleb head) :
    SkipExact sbuf head.1.buf head.1.len head.1.offs := by
  obtain ⟨cur, v⟩ := head
  obtain ⟨its, o, rfl, hhead⟩ := h.atHead hin fun _ _ _ _ htiles => hfit.skipFits htiles
  exact hfit.skipFits hhead.tiles

theorem sample_loopsEnd : ∃ w₁,
    (ubifsStartScan (.harness .bump) sampleInfo 3 0).run .boot = some (1, w₁) ∧
      LoopsEnd (.harness .bump) sampleInfo 3 0 sampleLeb true 1 w₁ := by
  have hstart : ((ubifsStartScan (.harness .bump) sampleInfo 3 0).run .boot).map Prod.fst =
      some 1 := by decide +kernel
  obtain ⟨⟨sleb, w₁⟩, hrun, rfl⟩ := Option.map_eq_some_iff.mp hstart
  have hfit := sample_decomposes.sumsFit sample_geometry
  exact ⟨w₁, hrun, ((ubifsScanANode_skip_iff sampleInfo sampleLeb 0 3 0 true .bump .boot
    (by decide) (by decide) (by decide) (by decide) (by decide)).2 1).2
      (fun _ h => skipExact_of_sumsFit sample_geometry.inside hfit h) w₁ hrun (by decide)⟩

/-- A pad node of 28 bytes with the right CRC, which does not cover the padding length. -/
def padNodeOf (padLen : BitVec 32) : Mem :=
  let header : List Byte :=
    [0x31, 0x18, 0x10, 0x06, 0x76, 0x67, 0x88, 0x0d, 0x07, 0x00, 0x00, 0x00, 0x00, 0x00, 0x00, 0x00,
      0x1c, 0x00, 0x00, 0x00, 0x05, 0x00, 0x00, 0x00]
  storeLe 4 (fun i => header[i.toNat]?.getD 0#8) 24 padLen

/-- At offset 8 of a block of 4096 bytes the skip length leaves the block, at offset 0 it is
negative. -/
theorem ubifsScanANode_skip_overflow :
    ((ubifsScanANode ⟨4096, 8⟩ (padNodeOf 2147483612#32) 0 (4096 - 8) 3 8 true).run .boot).map
        Prod.fst = some 2147483640 ∧
      ¬ SkipInside 4096 8 2147483640 ∧
    ((ubifsScanANode ⟨4096, 8⟩ (padNodeOf 2147483620#32) 0 (4096 - 0) 3 0 true).run .boot).map
        Prod.fst = some (-2147483648) ∧
      ¬ SkipInside 4096 0 (-2147483648) := by
  refine ⟨by decide +kernel, by decide, by decide +kernel, by decide⟩

end UbifsScan
