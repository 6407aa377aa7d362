import UbifsScan.Refinement.Recorded
import UbifsScan.Results.Acceptance

/-!
# How much is read

A round of the main loop pays for its reads with the bytes that it advances by, and so do the tail
loops: a scan reads at most three bytes for each byte of the block, and a few more where it stops.
-/

namespace UbifsScan

open Mem Program

/-- How many bytes were read so far, each as often as it was read. -/
def World.readCount (w : World) : Int := w.reads.length

@[simp] theorem readCount_see (w : World) (p : Int) (n : Nat) :
    (w.see (span p n)).readCount = w.readCount + n := by
  simp [World.readCount, World.see, span]

section Node

variable {sbuf : Mem} {w : World}

private theorem returns_countPadding_work (p : Int) (n : Nat) (w : World) :
    Returns (countPadding sbuf p n) w fun k w' =>
      w'.readCount ≤ w.readCount + k + 1 ∧ w'.readCount ≤ w.readCount + n := by
  induction n generalizing p w with
  | zero => simp [countPadding]
  | succ n ih =>
      simp only [countPadding, returns_bind, returns_readByte, returns_ite, returns_pure]
      split
      · apply (ih (p + 1) (w.see (span p 1))).mono
        rintro k w' ⟨hk, hn⟩
        rw [readCount_see] at hk hn
        push_cast
        omega
      · rw [readCount_see]
        push_cast
        omega

private theorem returns_scanPaddingBytes_work (buf : Int) {len : Int} (hint : len < 2147483648)
    (w : World) :
    Returns (scanPaddingBytes sbuf buf len) w fun ret w' =>
      w'.readCount ≤ w.readCount + 28 ∧ 0 ≤ ret ∧
        (0 < ret → 8 ≤ ret ∧ w'.readCount ≤ w.readCount + ret + 1) := by
  have hmax : minT ubifsPadNodeSz len ≤ 28 := by
    rw [minT, ubifsPadNodeSz]
    split
    · omega
    · rename_i hlt
      simp only [sizeT] at hlt
      omega
  simp only [scanPaddingBytes, returns_bind, returns_ite, returns_pure]
  apply (returns_countPadding_work buf _ w).mono
  rintro k w' ⟨hk, hn⟩
  split
  · exact ⟨by omega, by decide, fun h => absurd h (by decide)⟩
  · exact ⟨by omega, by omega, fun h => ⟨by omega, hk⟩⟩

private theorem returns_ubifsCheckNode_work (buf len : Int) (w : World) :
    Returns (ubifsCheckNode sbuf buf len) w fun r w' =>
      w'.readCount ≤ w.readCount + 24 ∧
        (r = 0 → 24 ≤ (chLen sbuf buf).toInt ∧ (chLen sbuf buf).toInt ≤ len) := by
  simp only [ubifsCheckNode, returns_bind, returns_readLe32, returns_ite, returns_pure]
  split
  · rw [readCount_see]
    exact ⟨by push_cast; omega, fun h => absurd h (by decide)⟩
  · rename_i hlen
    have hlen' : 24 ≤ (chLen sbuf buf).toInt ∧ (chLen sbuf buf).toInt ≤ len := by
      simp only [ubifsChSz, not_or, not_lt] at hlen
      exact hlen
    simp only [returns_readBytes]
    apply returns_callCrc32
    intro st
    have hcount : ∀ v : World, v.readCount = w.readCount + 4 + 16 →
        (v.see (span (buf + 4) 4)).readCount ≤ w.readCount + 24 := by
      intro v hv
      rw [readCount_see, hv]
      push_cast
      omega
    have hread : ((w.see (span (buf + 16) 4)).see (span (buf + 8) 16)).readCount =
        w.readCount + 4 + 16 := by
      rw [readCount_see, readCount_see]
      rfl
    split
    · exact ⟨hcount _ hread, fun _ => hlen'⟩
    · exact ⟨hcount _ hread, fun _ => hlen'⟩

/-- The reads of `ubifs_scan_a_node`: a header is at least three times as long as what is read of
it is wide, and so is padding. -/
private theorem returns_ubifsScanANode_work (c : UbifsInfo) (sbuf : Mem) (buf lnum offs : Int)
    {len : Int} (quiet : Bool) (hint : len < 2147483648) (w : World) :
    Returns (ubifsScanANode c sbuf buf len lnum offs quiet) w fun ret w' =>
      w'.readCount ≤ w.readCount + 37 ∧ (0 < ret → w'.readCount ≤ w.readCount + 3 * ret) ∧
        (ret = scannedANode → w'.readCount ≤ w.readCount + 29 ∧ 24 ≤ (chLen sbuf buf).toInt ∧
          (chLen sbuf buf).toInt ≤ len) := by
  have hstop : ∀ {v : World} {ret : Int}, v.readCount ≤ w.readCount + 37 → ret ≤ 0 →
      ret ≠ scannedANode → v.readCount ≤ w.readCount + 37 ∧
        (0 < ret → v.readCount ≤ w.readCount + 3 * ret) ∧
        (ret = scannedANode → v.readCount ≤ w.readCount + 29 ∧ 24 ≤ (chLen sbuf buf).toInt ∧
          (chLen sbuf buf).toInt ≤ len) :=
    fun hv hret hne => ⟨hv, fun h => absurd h (by omega), fun h => absurd h hne⟩
  have hmagic : (w.see (span buf 4)).readCount = w.readCount + 4 := readCount_see w buf 4
  simp only [ubifsScanANode, returns_bind, returns_readLe32, returns_ite, returns_pure]
  split
  · exact hstop (by omega) (by decide) (by decide)
  split
  · apply (returns_scanPaddingBytes_work buf hint _).mono
    rintro ret w' ⟨hall, hret0, hpad⟩
    refine ⟨by omega, fun hret => ?_, fun hret => ?_⟩
    · obtain ⟨h8, hcount⟩ := hpad hret
      omega
    · simp only [scannedANode] at hret
      omega
  split
  · exact hstop (by omega) (by decide) (by decide)
  apply (returns_ubifsCheckNode_work buf len _).mono
  rintro chk w₁ ⟨hcheck, hok⟩
  split
  · exact hstop (by omega) (by decide) (by decide)
  rename_i hgood
  obtain ⟨h24, hle⟩ := hok (not_not.mp hgood)
  have htype : (w₁.see (span (buf + 20) 1)).readCount = w₁.readCount + 1 := readCount_see _ _ 1
  simp only [returns_readByte]
  split
  · have hpad : (((w₁.see (span (buf + 20) 1)).see (span (buf + 24) 4)).see
        (span (buf + 16) 4)).readCount = w₁.readCount + 9 := by
      rw [readCount_see, readCount_see, htype]
      push_cast
      omega
    have hmsg : ∀ {v : World} {msgs : List Msg},
        ({ v with msgs := msgs } : World).readCount = v.readCount := rfl
    split
    · simp only [returns_ubifsErr]
      split
      · exact hstop (by rw [hmsg]; omega) (by decide) (by decide)
      · exact hstop (by omega) (by decide) (by decide)
    rename_i hfits
    split
    · simp only [returns_ubifsErr]
      split
      · exact hstop (by rw [hmsg]; omega) (by decide) (by decide)
      · exact hstop (by omega) (by decide) (by decide)
    rename_i hmod
    have hlen := toInt_range (chLen sbuf buf)
    have hneg := toInt_range (padPadLen sbuf buf)
    change ¬ ((padPadLen sbuf buf).toInt < 0 ∨ _) at hfits
    change ¬ wrap32 ((chLen sbuf buf).toInt + (padPadLen sbuf buf).toInt) % 8 ≠ 0 at hmod
    refine ⟨by omega, fun hret => ?_, fun hret => ?_⟩
    · change 0 < wrap32 ((chLen sbuf buf).toInt + (padPadLen sbuf buf).toInt) at hret
      change _ ≤ w.readCount + 3 * wrap32 ((chLen sbuf buf).toInt + (padPadLen sbuf buf).toInt)
      have hsum : wrap32 ((chLen sbuf buf).toInt + (padPadLen sbuf buf).toInt) =
          (chLen sbuf buf).toInt + (padPadLen sbuf buf).toInt := by
        simp only [wrap32] at hret ⊢
        omega
      omega
    · change wrap32 ((chLen sbuf buf).toInt + (padPadLen sbuf buf).toInt) = -2 at hret
      omega
  · exact ⟨by omega, fun h => absurd h (by decide), fun _ => ⟨by omega, h24, hle⟩⟩

end Node

section Loops

variable {K : Env} {c : UbifsInfo} {sbuf : Mem} {a o lnum : Int} {sleb : Addr} {quiet : Bool}
  {w : World}

private theorem returns_ubifsAddSnod_work (K : Env) (sleb : Addr) (m : Mem) (buf offs : Int)
    (w : World) :
    Returns (ubifsAddSnod K sleb m buf offs) w fun err w' =>
      w'.readCount ≤ w.readCount + 30 ∧ (err ≠ 0 → w'.readCount = w.readCount) := by
  simp only [ubifsAddSnod, returns_bind]
  apply returns_kmallocObj
  · intro a _ _ hnull _
    simp only [hnull, if_false, returns_bind, returns_readLe64, returns_readByte, returns_readLe32,
      returns_ite, setSnod, setSleb, returns_onHeap, returns_modify, returns_onCells,
      returns_listAddTail, returns_pure, returns_readBytes]
    split
    · refine ⟨?_, fun h => absurd rfl h⟩
      simp only [World.readCount, World.see, List.length_append, span, List.length_map,
        List.length_range, ubifsMaxKeyLen]
      push_cast
      omega
    · refine ⟨?_, fun h => absurd rfl h⟩
      simp only [World.readCount, World.see, List.length_append, span, List.length_map,
        List.length_range]
      push_cast
      omega
  · intro _
    simp only [if_true, returns_pure, World.readCount]
    exact ⟨by omega, fun _ => trivial⟩

/-- A round reads at most three bytes for each byte that it advances by; the last one reads at most
a header with its padding length. -/
private theorem returns_scanRound_work (lnum : Int) (quiet : Bool) (hin : Inside c.lebSize o)
    (w : World) :
    Returns (scanRound K c lnum sbuf quiet sleb (.at c.lebSize o)) w fun r w' =>
      match r with
      | .inl next => ∃ n, next = (Cursor.at c.lebSize o).advance n ∧
          w'.readCount ≤ w.readCount + 3 * n
      | .inr _ => w'.readCount ≤ w.readCount + 37 := by
  obtain ⟨h0, hle, h8, hL, hint⟩ := hin
  rw [scanRound, returns_ite]
  split
  · rw [returns_pure]
    omega
  rw [returns_bind]
  have hcur : (Cursor.at c.lebSize o).len = c.lebSize - o := rfl
  apply (returns_ubifsScanANode_work c sbuf o lnum o quiet (by omega) w).mono
  rintro ret w₁ ⟨hall, hskip, hnode⟩
  simp only [returns_ite, returns_pure, returns_bind, returns_ubifsErr]
  split
  · rename_i hpos
    exact ⟨ret, rfl, hskip hpos⟩
  split
  · exact hall
  split
  · exact hall
  split
  · rename_i hret
    obtain ⟨hheader, h24, hlen⟩ := hnode hret
    apply (returns_ubifsAddSnod_work K sleb sbuf o o w₁).mono
    rintro err w₂ ⟨hadd, herr⟩
    simp only [returns_readLe32]
    split
    · rename_i hne
      have hsame := herr hne
      omega
    · have hsize := alignedLen_eq (v := chLen sbuf o) (by omega) (by omega)
      have hsee := readCount_see w₂ (o + 16) 4
      push_cast at hsee
      refine ⟨alignedLen (chLen sbuf o), rfl, ?_⟩
      change (w₂.see (span (o + 16) 4)).readCount ≤ _
      omega
  split
  · exact hall
  · exact hall

private theorem ensures_scanLoop_work {n : Nat} (lnum : Int) (quiet : Bool)
    (hin : Inside c.lebSize a) (hfit : SumsFit sbuf c.lebSize a) :
    Ensures (iterate (scanRound K c lnum sbuf quiet sleb) n (.at c.lebSize a)) w fun leave w' =>
      match leave with
      | .done cur => ∃ o, cur = .at c.lebSize o ∧ Inside c.lebSize o ∧
          w'.readCount ≤ w.readCount + 3 * (o - a) + 37
      | _ => w'.readCount ≤ w.readCount + 3 * (c.lebSize - a) + 37 := by
  refine ensures_iterate (fun (cur : Cursor) (v : World) => ∃ its o, cur = .at c.lebSize o ∧
    Tiles sbuf c.lebSize a its o ∧ v.readCount ≤ w.readCount + 3 * (o - a)) ?_
    ⟨[], a, rfl, .nil a, by omega⟩
  rintro _ v ⟨its, o, rfl, htiles, hcount⟩
  have hin' := htiles.inside hin
  have hle := hin'.le
  refine ((returns_scanRound lnum quiet hin' (hfit.skipFits htiles) v).and_ensures
    (returns_scanRound_work lnum quiet hin' v).ensures).ensures.mono ?_
  rintro r u ⟨⟨hend, -⟩, hwork⟩
  cases hend with
  | skip hstep =>
      obtain ⟨k, hnext, hk⟩ := hwork
      have hbuf := congrArg Cursor.buf hnext
      simp only [Cursor.at, Cursor.advance] at hbuf
      exact ⟨_, _, rfl, htiles.snoc hstep, by omega⟩
  | node hstep =>
      obtain ⟨k, hnext, hk⟩ := hwork
      have hbuf := congrArg Cursor.buf hnext
      simp only [Cursor.at, Cursor.advance] at hbuf
      exact ⟨_, _, rfl, htiles.snoc hstep, by omega⟩
  | done =>
      simp only at hwork
      exact ⟨o, rfl, hin', by omega⟩
  | corrupted =>
      simp only at hwork
      omega
  | nomem =>
      simp only at hwork
      omega

private theorem ensures_tailLoops_work {cur : Cursor} (hlen : 0 ≤ cur.len)
    (hint : cur.len < 2147483648) :
    Ensures (iterate (emptyWordsRound sbuf) (cur.len.toNat + 1) cur) w fun cur' w₁ =>
      Ensures (iterate (emptyBytesRound sbuf) (emptyBytesBound cur'.len) cur') w₁ fun _ w' =>
        w'.readCount ≤ w.readCount + cur.len + 4 := by
  have hwords : Ensures (iterate (emptyWordsRound sbuf) (cur.len.toNat + 1) cur) w fun cur' w₁ =>
      0 ≤ cur'.len ∧ cur'.len < 2147483648 ∧
        w₁.readCount + cur'.len ≤ w.readCount + cur.len + 4 := by
    refine ensures_iterate (fun (cur' : Cursor) (v : World) => 0 ≤ cur'.len ∧
      cur'.len < 2147483648 ∧ v.readCount + cur'.len ≤ w.readCount + cur.len) ?_
      ⟨hlen, hint, Int.le_refl _⟩
    rintro cur' v ⟨hlo, hhi, hcount⟩
    apply Returns.ensures
    have hsee := readCount_see v cur'.buf 4
    push_cast at hsee
    simp only [emptyWordsRound, returns_ite, returns_bind, returns_readLe32, returns_pure]
    split
    · split
      · exact ⟨hlo, hhi, by omega⟩
      · simp only [Cursor.advance]
        rw [wrap32_of_fits (x := cur'.len - 4) (by omega) (by omega)]
        exact ⟨by omega, by omega, by omega⟩
    · exact ⟨hlo, hhi, by omega⟩
  refine hwords.mono fun cur' w₁ h => ?_
  refine ensures_iterate (fun (cur' : Cursor) (v : World) => 0 ≤ cur'.len ∧
    cur'.len < 2147483648 ∧ v.readCount + cur'.len ≤ w.readCount + cur.len + 4) ?_ h
  rintro cur'' v ⟨hlo, hhi, hcount⟩
  apply Returns.ensures
  have hsee := readCount_see v cur''.buf 1
  push_cast at hsee
  simp only [emptyBytesRound, returns_ite, returns_bind, returns_readByte, returns_pure]
  split
  · omega
  · split
    · omega
    · simp only [Cursor.advance]
      rw [wrap32_of_fits (x := cur''.len - 1) (by omega) (by omega)]
      exact ⟨by omega, by omega, by omega⟩

private theorem ensures_scanCorrupted_work (lnum : Int) (cur : Cursor) :
    Ensures (scanCorrupted c lnum quiet sleb cur) w fun _ w' => w'.readCount = w.readCount :=
  (ensures_scanCorrupted c lnum quiet sleb cur w).mono fun _ _ h =>
    congrArg (fun reads : List Int => (reads.length : Int)) h.2.1

private theorem ensures_scanTail_work (lnum : Int) (hin : Inside c.lebSize o) :
    Ensures (scanTail c lnum sbuf quiet sleb (.at c.lebSize o)) w fun _ w' =>
      w'.readCount ≤ w.readCount + (c.lebSize - o) + 4 := by
  have hle := hin.le
  have hcorrupt : ∀ (cur : Cursor) (v : World),
      v.readCount ≤ w.readCount + (c.lebSize - o) + 4 →
      Ensures (scanCorrupted c lnum quiet sleb cur) v fun _ w' =>
        w'.readCount ≤ w.readCount + (c.lebSize - o) + 4 := fun cur v hv =>
    (ensures_scanCorrupted_work lnum cur).mono fun _ w' h => by omega
  refine ensures_bind ((ensures_cMod _ _ w).mono ?_)
  rintro _ w' ⟨-, hw⟩
  subst w'
  split
  · split
    · exact ensures_bind (ensures_ubifsErr (hcorrupt _ _ (by simp only [World.readCount]; omega)))
    · exact hcorrupt _ _ (by omega)
  refine ensures_bind ((ensures_ubifsEndScan c sleb _ w).mono ?_)
  rintro ⟨⟩ w₁ ⟨-, hend⟩
  have hreads : w₁.readCount = w.readCount := by
    rw [hend]
    rfl
  refine ensures_bind ((ensures_tailLoops_work (w := w₁) (by simp only [Cursor.at]; omega)
    (by have := hin.int; have := hin.nonneg; simp only [Cursor.at]; omega)).mono
    fun cur' w₂ hbytes => ?_)
  refine ensures_bind (hbytes.mono fun r w₃ hcount => ?_)
  simp only [Cursor.at] at hcount
  cases r with
  | none => exact ensures_pure (by omega)
  | some cur'' =>
      dsimp only
      split
      · exact ensures_bind (ensures_ubifsErr (hcorrupt _ _ (by
          simp only [World.readCount] at hcount hreads ⊢
          omega)))
      · exact hcorrupt _ _ (by omega)

private theorem ensures_ubifsScan_work (K : Env) (lnum : Int) (quiet : Bool) {offs : Int}
    (hg : Geometry c offs) (hfit : SumsFit sbuf c.lebSize offs) :
    Ensures (ubifsScan K c lnum offs sbuf quiet) w fun _ w' =>
      w'.readCount ≤ w.readCount + 3 * (c.lebSize - offs) + 41 := by
  have hle := hg.le
  refine ensures_bind ((returns_ubifsStartScan K c lnum offs w).ensures.mono ?_)
  rintro sleb w₁ ⟨hreads, -⟩
  have hstart : w₁.readCount = w.readCount :=
    congrArg (fun reads : List Int => (reads.length : Int)) hreads
  split
  · exact ensures_pure (by omega)
  rw [Cursor.start_eq hg.inside]
  refine ensures_bind ((ensures_scanLoop_work lnum quiet hg.inside hfit).mono ?_)
  intro leave w₂ h
  cases leave with
  | done cur =>
      obtain ⟨o, rfl, hin, hcount⟩ := h
      have hle' := hin.le
      exact (ensures_scanTail_work lnum hin).mono fun _ _ h => by omega
  | corrupted cur => exact (ensures_scanCorrupted_work lnum cur).mono fun _ _ h' => by omega
  | error err =>
      refine (ensures_scanError lnum sleb err w₂).mono fun _ w' h' => ?_
      have hsame : w'.readCount = w₂.readCount :=
        congrArg (fun reads : List Int => (reads.length : Int)) h'.2.1
      omega

end Loops

/-- **Work.** A scan is linear: it returns, and it reads at most three bytes for each byte from its
start on, and at most 41 more. -/
theorem ubifsScan_work (K : Env) (c : UbifsInfo) (lnum offs : Int) (sbuf : Mem) (quiet : Bool)
    (w : World) (hg : Geometry c offs) (hfit : SumsFit sbuf c.lebSize offs)
    (herr : K.readError c lnum offs = 0 ∨
      -4095 ≤ K.readError c lnum offs ∧ K.readError c lnum offs < 0) :
    Returns (ubifsScan K c lnum offs sbuf quiet) w fun _ w' =>
      ∃ is, w'.reads = w.reads ++ is ∧ (is.length : Int) ≤ 3 * (c.lebSize - offs) + 41 := by
  have hreturns : Returns (ubifsScan K c lnum offs sbuf quiet) w
      (ScanSpec K sbuf c offs lnum w) :=
    returns_ubifsScan hg herr fun _ _ _ _ _ htiles => hfit.skipFits htiles
  apply (hreturns.and_ensures (ensures_ubifsScan_work K lnum quiet hg hfit)).mono
  rintro r w' ⟨⟨is, hreads, -⟩, hcount⟩
  refine ⟨is, hreads, ?_⟩
  simp only [World.readCount, hreads, List.length_append] at hcount
  omega

theorem sample_work :
    Returns (ubifsScan (.harness .bump) sampleInfo 3 0 sampleLeb true) .boot fun _ w' =>
      ∃ is, w'.reads = World.boot.reads ++ is ∧ (is.length : Int) ≤ 329 :=
  ubifsScan_work (.harness .bump) sampleInfo 3 0 sampleLeb true .boot sample_geometry
    (sample_decomposes.sumsFit sample_geometry) (.inl (harness_reads .bump sampleInfo 3 0))

end UbifsScan
