import UbifsScan.Model.Tests
import UbifsScan.Refinement.Layout
import UbifsScan.Results.Headers
import UbifsScan.Results.Sessions

/-!
# The test program

What the tests report, in any order and however often they are run: a check fails for each request
that the allocator refuses, and for nothing else.
-/

namespace UbifsScan

open Mem Program

section Answers

variable {c : UbifsInfo} {m : Mem} {buf len lnum offs : Int} {quiet : Bool} {w : World}

/-- What is answered where the magic has room for a header. -/
def headerAnswer (m : Mem) (L buf len offs : Int) : Int :=
  let nodeLen := (chLen m buf).toInt
  let padLen := (padPadLen m buf).toInt
  if ¬ HeaderOk m buf len then scannedACorruptNode
  else if chNodeType m buf ≠ NodeType.pad.code then scannedANode
  else if padLen < 0 ∨ wrap32 (wrap32 (offs + nodeLen) + padLen) > L then scannedABadPadNode
  else if wrap32 (nodeLen + padLen) % 8 ≠ 0 then scannedABadPadNode
  else wrap32 (nodeLen + padLen)

theorem returns_ubifsScanANode_header (hmagic : chMagic m buf = ubifsNodeMagic) (h24 : 24 ≤ len)
    (hint : len < 2147483648) :
    Returns (ubifsScanANode c m buf len lnum offs quiet) w fun ret _ =>
      ret = headerAnswer m c.lebSize buf len offs := by
  have hword : le32 m buf = ubifsNodeMagic := hmagic
  have hne : ubifsNodeMagic ≠ 0xFFFFFFFF#32 := by decide
  have hlong : ¬ sizeT len < ubifsChSz := by
    simp only [sizeT, ubifsChSz]
    omega
  simp only [ubifsScanANode, returns_bind, returns_readLe32, returns_ite, returns_pure, hword, hne,
    hlong, if_false, ne_eq, not_true_eq_false]
  apply (returns_ubifsCheckNode buf len _).mono
  rintro chk w₁ ⟨hok, -⟩
  split
  · rename_i hbad
    rw [headerAnswer, if_pos fun h => hbad (hok.mpr h)]
  rename_i hgood
  have hheader : HeaderOk m buf len := hok.mp (not_not.mp hgood)
  simp only [returns_readByte]
  split
  · rename_i htype
    have htype' : ¬ chNodeType m buf ≠ NodeType.pad.code := not_not.mpr htype
    rw [headerAnswer, if_neg (not_not.mpr hheader), if_neg htype']
    simp only [returns_ubifsErr, ite_self]
    split
    · rename_i hbad
      exact (if_pos hbad).symm
    rename_i hfits
    split
    · rename_i hmod
      exact ((if_neg hfits).trans (if_pos hmod)).symm
    · rename_i hmod
      exact ((if_neg hfits).trans (if_neg hmod)).symm
  · rename_i htype
    have htype' : chNodeType m buf ≠ NodeType.pad.code := htype
    rw [headerAnswer, if_neg (not_not.mpr hheader), if_pos htype']

theorem returns_ubifsScanANode_short (hmagic : chMagic m buf = ubifsNodeMagic) (h0 : 0 ≤ len)
    (h24 : len < 24) :
    Returns (ubifsScanANode c m buf len lnum offs quiet) w fun ret _ => ret = scannedGarbage := by
  have hword : le32 m buf = ubifsNodeMagic := hmagic
  have hne : ubifsNodeMagic ≠ 0xFFFFFFFF#32 := by decide
  have hshort : sizeT len < ubifsChSz := by
    simp only [sizeT, ubifsChSz]
    omega
  simp [ubifsScanANode, hword, hne, hshort]

variable {L ret : Int}

theorem Verdict.empty_answer (h : Verdict m L buf len offs ret)
    (hmagic : chMagic m buf = 0xFFFFFFFF#32) : ret = scannedEmptySpace := by
  have hne : chMagic m buf ≠ ubifsNodeMagic := by
    rw [hmagic]
    decide
  cases h with
  | empty => rfl
  | raw hraw =>
      have hfirst := chMagic_empty_iff.mp hmagic buf (Int.le_refl buf) (by omega)
      rw [hraw.first] at hfirst
      exact absurd hfirst (by decide)
  | garbage hempty => exact absurd hmagic hempty
  | corrupt hmagic' => exact absurd hmagic' hne
  | badPad hpad => exact absurd hpad.1.magic hne
  | pad hpad => exact absurd hpad.1.magic hne
  | node hheader => exact absurd hheader.magic hne

theorem Verdict.other_answer (h : Verdict m L buf len offs ret)
    (hempty : chMagic m buf ≠ 0xFFFFFFFF#32) (hmagic : chMagic m buf ≠ ubifsNodeMagic) :
    IsRaw m (buf + len) buf ret ∨ ret = scannedGarbage ∧ ∀ n, ¬ IsRaw m (buf + len) buf n := by
  cases h with
  | empty hmagic' => exact absurd hmagic' hempty
  | raw hraw => exact .inl hraw
  | garbage _ hraw => exact .inr ⟨rfl, hraw⟩
  | corrupt hmagic' => exact absurd hmagic' hmagic
  | badPad hpad => exact absurd hpad.1.magic hmagic
  | pad hpad => exact absurd hpad.1.magic hmagic
  | node hheader => exact absurd hheader.magic hmagic

end Answers

/-- The heap is as before, and in between only live objects were used and freed. -/
structure Heap.Kept (h h' : Heap) : Prop where
  live : h'.live = h.live
  same : Heap.Same h.live h h'
  trace : ∃ events, Heap.Trace h h' events

theorem Heap.Kept.refl (h : Heap) : Heap.Kept h h :=
  ⟨rfl, ⟨fun _ _ => rfl, fun _ _ => rfl, fun _ _ => rfl, fun _ _ => rfl⟩, [], by simp, .nil _⟩

theorem Heap.Kept.trans {h h' h'' : Heap} (hk : Heap.Kept h h') (hk' : Heap.Kept h' h'') :
    Heap.Kept h h'' := by
  obtain ⟨events, htrace⟩ := hk.trace
  obtain ⟨events', htrace'⟩ := hk'.trace
  exact ⟨hk'.live.trans hk.live, hk.same.trans hk'.same hk.live.ge, _, htrace.trans htrace'⟩

theorem Released.kept {h h' : Heap} (hrel : Released h h') : Heap.Kept h h' := by
  obtain ⟨hlive, hsame, mid, ⟨grow, hgrow, -⟩, ⟨shrink, hshrink, -⟩⟩ := hrel
  exact ⟨hlive, hsame, _, hgrow.trans hshrink⟩

theorem Heap.Kept.use {h : Heap} {p : Addr} (hp : p ∈ h.live) : Heap.Kept h (h.event (.use p)) :=
  ⟨rfl, ⟨fun _ _ => rfl, fun _ _ => rfl, fun _ _ => rfl, fun _ _ => rfl⟩, [.use p], rfl,
    .use hp (.nil _)⟩

theorem Heap.Kept.around {h h' : Heap} {p : Addr} (hk : Heap.Kept (h.allocated p) h')
    (hp : p ∉ h.live) : Heap.Kept h (h'.freed p) := by
  obtain ⟨hlive, hsame, events, htrace⟩ := hk
  have hmem : p ∈ h'.live := by
    rw [hlive]
    exact Finset.mem_insert_self p h.live
  refine ⟨?_, ?_, .alloc p :: (events ++ [.free p]), ?_, ?_⟩
  · rw [Heap.freed, hlive]
    exact Finset.erase_insert hp
  · have hsub : ∀ a ∈ h.live, a ∈ (h.allocated p).live := fun a ha => Finset.mem_insert_of_mem ha
    exact ⟨fun a ha => hsame.next a (hsub a ha), fun a ha => hsame.prev a (hsub a ha),
      fun a ha => hsame.sleb a (hsub a ha), fun a ha => hsame.snod a (hsub a ha)⟩
  · simp [Heap.freed, Heap.event, htrace.log, Heap.allocated]
  · exact .alloc hp (htrace.life.append (.free hmem (.nil _)))

/-- `checks` checks were made and `refused` requests refused: each of these failed one check. -/
structure Tested (s s' : Tester) (refused : Nat) (checks : Int) : Prop where
  checks : s'.utChecks = s.utChecks + BitVec.ofInt 32 checks
  failures : s'.utFailures = s.utFailures + BitVec.ofNat 32 refused
  printed : s'.printed = s.printed ++ List.replicate refused ⟨"!IS_ERR(sleb)", none⟩
  refused : s'.world.heap.failures = s.world.heap.failures + refused
  heap : Heap.Kept s.world.heap s'.world.heap

theorem Tested.refl (s : Tester) : Tested s s 0 0 :=
  ⟨by simp, by simp, by simp, by simp, .refl _⟩

theorem Tested.trans {s s' s'' : Tester} {k k' : Nat} {n n' : Int} (h : Tested s s' k n)
    (h' : Tested s' s'' k' n') : Tested s s'' (k + k') (n + n') where
  checks := by rw [h'.checks, h.checks, BitVec.add_assoc, BitVec.ofInt_add]
  failures := by rw [h'.failures, h.failures, BitVec.add_assoc, BitVec.ofNat_add]
  printed := by rw [h'.printed, h.printed, List.append_assoc, List.replicate_add]
  refused := by rw [h'.refused, h.refused, Nat.add_assoc]
  heap := h.heap.trans h'.heap

section Calls

variable {s : Tester} {m : Mem} {c : UbifsInfo} {text : String} {len offs want : Int}

private theorem tested_scanBuf (crc : LazyCrc)
    (h : ∀ w, Returns (ubifsScanANode c m 0 len 3 offs true) w fun ret _ => ret = want) :
    Returns (checkEq text (scanBuf len offs) want)
      { s with world := { s.world with crc := crc }, c := c, buf := m } fun _ s' =>
        Tested s s' 0 1 := by
  apply returns_checkEq
  simp only [scanBuf, returns_bind, returns_get, returns_onWorld]
  apply ((h _).and_ensures (returns_ubifsScanANode_heap c m 0 len 3 offs true _).ensures).mono
  rintro ret w ⟨rfl, hheap⟩
  have hheap' : w.heap = s.world.heap := hheap
  refine ⟨rfl, by simp, by simp, by simp, by simp [hheap'], ?_⟩
  rw [show ({ s with world := w } : Tester).world.heap = s.world.heap from hheap']
  exact .refl _

private theorem tested_verdict (hlen : 8 ≤ len) (hint : len < 2147483648)
    (h : ∀ ret, Verdict m c.lebSize 0 len offs ret → ret = want) :
    Returns (checkEq text (scanBuf len offs) want) { s with c := c, buf := m } fun _ s' =>
      Tested s s' 0 1 := by
  apply tested_scanBuf s.world.crc
  intro w
  exact (returns_ubifsScanANode c m 0 3 offs true hlen hint w).mono fun ret _ hv => h ret hv.1

private theorem filled {i : Int} (h0 : 0 ≤ i) (h : i < testLebSize) :
    memset m 0 0xFF testLebSize i = 0xFF#8 :=
  memset_inside (by decide) (by decide) h0 (by omega)

theorem tested_emptySpace : Returns testEmptySpace s fun _ s' => Tested s s' 0 1 := by
  simp only [testEmptySpace, returns_bind, returns_setup]
  apply tested_verdict (by decide) (by decide)
  intro ret h
  apply h.empty_answer
  rw [chMagic_empty_iff]
  intro i hi hi'
  exact filled hi (by simp only [testLebSize]; omega)

/-- `n` padding bytes and empty space behind them. -/
private def padded (m : Mem) (n : Int) : Mem :=
  memset (memset m 0 0xFF testLebSize) 0 ubifsPaddingByte n

private theorem padded_inside {n i : Int} (hn : n ≤ 16) (h0 : 0 ≤ i) (h : i < n) :
    padded m n i = ubifsPaddingByte := memset_inside (by omega) (by omega) h0 (by omega)

private theorem padded_behind {n : Int} (h0 : 0 ≤ n) (hn : n ≤ 16) : padded m n n = 0xFF#8 := by
  rw [padded, memset_outside h0 (by omega) (by omega)]
  exact filled h0 (by simp only [testLebSize]; omega)

private theorem padded_magic {n : Int} (h0 : 0 < n) (hn : n ≤ 16) :
    chMagic (padded m n) 0 ≠ 0xFFFFFFFF#32 ∧ chMagic (padded m n) 0 ≠ ubifsNodeMagic := by
  have hfirst := padded_inside (m := m) hn (Int.le_refl 0) h0
  constructor
  · intro h
    rw [chMagic_empty_iff.mp h 0 (Int.le_refl 0) (by decide)] at hfirst
    exact absurd hfirst (by decide)
  · intro h
    rw [first_of_magic h] at hfirst
    exact absurd hfirst (by decide)

theorem tested_rawPaddingBytes : Returns testRawPaddingBytes s fun _ s' => Tested s s' 0 1 := by
  simp only [testRawPaddingBytes, returns_bind, returns_setup, returns_onBuf, returns_pure]
  apply tested_verdict (m := padded s.buf 16) (by decide) (by decide)
  intro ret h
  have hraw : IsRaw (padded s.buf 16) (0 + testLebSize) 0 16 := by
    refine ⟨.inr (.inl rfl), by decide, fun i h0 hi => ?_, .inr ?_⟩
    · exact padded_inside (Int.le_refl 16) h0 hi
    · rw [Int.zero_add, padded_behind (by decide) (Int.le_refl 16)]
      decide
  obtain ⟨hempty, hmagic⟩ := padded_magic (m := s.buf) (n := 16) (by decide) (Int.le_refl 16)
  rcases h.other_answer hempty hmagic with hraw' | ⟨-, hno⟩
  · have hsame : (⟨.raw, 0, ret⟩ : Item) = ⟨.raw, 0, 16⟩ := isItem_unique hraw' hraw rfl
    exact congrArg Item.size hsame
  · exact absurd hraw (hno 16)

theorem tested_rawPaddingMisaligned :
    Returns testRawPaddingMisaligned s fun _ s' => Tested s s' 0 1 := by
  simp only [testRawPaddingMisaligned, returns_bind, returns_setup, returns_onBuf, returns_pure]
  apply tested_verdict (m := padded s.buf 10) (by decide) (by decide)
  intro ret h
  obtain ⟨hempty, hmagic⟩ := padded_magic (m := s.buf) (n := 10) (by decide) (by decide)
  rcases h.other_answer hempty hmagic with hraw | ⟨hret, -⟩
  · exfalso
    have hsize := hraw.size
    have hten := padded_behind (m := s.buf) (n := 10) (by decide) (by decide)
    by_cases h8 : ret = 8
    · have hmax := hraw.maximal
      rw [h8, Int.zero_add] at hmax
      exact hmax.elim (by decide) fun hne => hne (padded_inside (by decide) (by decide) (by decide))
    · rw [hraw.bytes 10 (by decide) (by omega)] at hten
      exact absurd hten (by decide)
  · exact hret

theorem tested_garbage : Returns testGarbage s fun _ s' => Tested s s' 0 1 := by
  simp only [testGarbage, returns_bind, returns_setup, returns_onBuf, returns_pure]
  generalize memset s.buf 0 0xFF testLebSize = m
  apply tested_verdict (by decide) (by decide)
  intro ret h
  have hfirst : storeLe 1 (storeLe 1 (storeLe 1 (storeLe 1 m 0 0x12#8) 1 0x34#8) 2 0x56#8) 3
      0x78#8 0 = 0x12#8 := by
    rw [storeLe_outside (by omega), storeLe_outside (by omega), storeLe_outside (by omega)]
    exact storeLe_one _
  generalize storeLe 1 (storeLe 1 (storeLe 1 (storeLe 1 m 0 0x12#8) 1 0x34#8) 2 0x56#8) 3
    0x78#8 = m' at h hfirst
  have hempty : chMagic m' 0 ≠ 0xFFFFFFFF#32 := by
    intro hmagic
    rw [chMagic_empty_iff.mp hmagic 0 (Int.le_refl 0) (by decide)] at hfirst
    exact absurd hfirst (by decide)
  have hmagic : chMagic m' 0 ≠ ubifsNodeMagic := by
    intro hmagic
    rw [first_of_magic hmagic] at hfirst
    exact absurd hfirst (by decide)
  rcases h.other_answer hempty hmagic with hraw | ⟨hret, -⟩
  · rw [hraw.first] at hfirst
    exact absurd hfirst (by decide)
  · exact hret

theorem tested_lenTooSmall : Returns testLenTooSmall s fun _ s' => Tested s s' 0 1 := by
  simp only [testLenTooSmall, returns_bind, returns_setup, returns_onBuf, returns_pure]
  apply tested_scanBuf s.world.crc
  intro w
  exact returns_ubifsScanANode_short (le32_storeLe _) (by decide) (by decide)

private theorem tested_header (crc : LazyCrc) (hmagic : chMagic m 0 = ubifsNodeMagic)
    (hanswer : headerAnswer m c.lebSize 0 testLebSize offs = want) :
    Returns (checkEq text (scanBuf testLebSize offs) want)
      { s with world := { s.world with crc := crc }, c := c, buf := m } fun _ s' =>
        Tested s s' 0 1 := by
  apply tested_scanBuf crc
  intro w
  apply (returns_ubifsScanANode_header hmagic (by decide) (by decide)).mono
  intro ret _ hret
  exact hret.trans hanswer

private theorem padNode_answer {o : Mem} {sqnum : BitVec 64} {padLen : Int}
    (hmade : MadeNode o m 0 ubifsPadNodeSz NodeType.pad.code sqnum)
    (hlen : (padPadLen m 0).toInt = padLen) :
    headerAnswer m testLebSize 0 testLebSize offs =
      if padLen < 0 ∨ wrap32 (wrap32 (offs + 28) + padLen) > testLebSize then scannedABadPadNode
      else if wrap32 (28 + padLen) % 8 ≠ 0 then scannedABadPadNode
      else wrap32 (28 + padLen) := by
  have hheader : IsHeader m 0 testLebSize := hmade.isHeader (by decide) (by decide)
  simp only [headerAnswer, hheader.toHeaderOk, hmade.type, hmade.len, hlen, ubifsPadNodeSz,
    not_true_eq_false, if_false, ne_eq]

/-- A test that builds one pad node: its answer follows from the lengths. -/
private theorem tested_padNode {padLen : Int} (hpad : 0 ≤ padLen) (hpad' : padLen < 2147483648)
    (hwant : (if wrap32 (wrap32 (offs + 28) + padLen) > testLebSize then scannedABadPadNode
      else if wrap32 (28 + padLen) % 8 ≠ 0 then scannedABadPadNode
      else wrap32 (28 + padLen)) = want) :
    Returns (do
        setup
        onBuf fun m => callMakePadNode m 0 ubifsPadNodeSz padLen 5
        checkEq text (scanBuf testLebSize offs) want) s fun _ s' => Tested s s' 0 1 := by
  simp only [returns_bind, returns_setup, returns_onBuf]
  apply returns_callMakePadNode
  intro crc _
  obtain ⟨hmade, hlen⟩ := utMakePadNode_made s.world.crc.property
    (memset s.buf 0 0xFF testLebSize) 0 5 (by decide : 28 ≤ ubifsPadNodeSz) (by decide) hpad hpad'
  apply tested_header crc hmade.magic
  rw [padNode_answer hmade hlen, ← hwant]
  simp only [Int.not_lt.mpr hpad, false_or]

theorem tested_validPadNode : Returns testValidPadNode s fun _ s' => Tested s s' 0 1 :=
  tested_padNode (by decide) (by decide) (by decide)

theorem tested_padNodeOverrunsLeb : Returns testPadNodeOverrunsLeb s fun _ s' => Tested s s' 0 1 :=
  tested_padNode (by decide) (by decide) (by decide)

theorem tested_padNodeMisalignedTotal :
    Returns testPadNodeMisalignedTotal s fun _ s' => Tested s s' 0 1 :=
  tested_padNode (by decide) (by decide) (by decide)

theorem tested_padNode36BytesIsMisaligned :
    Returns testPadNode36BytesIsMisaligned s fun _ s' => Tested s s' 0 1 :=
  tested_padNode (by decide) (by decide) (by decide)

theorem tested_padNodeEndsExactlyAtLebEnd :
    Returns testPadNodeEndsExactlyAtLebEnd s fun _ s' => Tested s s' 0 1 :=
  tested_padNode (by decide) (by decide) (by decide)

theorem tested_padNodeNegativePadLen :
    Returns testPadNodeNegativePadLen s fun _ s' => Tested s s' 0 1 := by
  simp only [testPadNodeNegativePadLen, returns_bind, returns_setup, returns_onBuf, returns_pure]
  apply returns_callMakePadNode
  intro crc _
  obtain ⟨hmade, -⟩ := utMakePadNode_made s.world.crc.property (memset s.buf 0 0xFF testLebSize) 0 5
    (by decide : 28 ≤ ubifsPadNodeSz) (by decide) (Int.le_refl 0) (by decide)
  generalize (utMakePadNode s.world.crc.val (memset s.buf 0 0xFF testLebSize) 0 ubifsPadNodeSz 0
    5).1 = m at hmade ⊢
  have hmade' := hmade.congr (fun i _ hi => storeLe_outside (n := 4) (v := 0x80000000#32) (p := 24)
    (by omega)) fun i hi => storeLe_outside (by simp only [ubifsPadNodeSz] at hi; omega)
  have hlen : (padPadLen (storeLe 4 m 24 0x80000000#32) 0).toInt = -2147483648 := by
    rw [padPadLen, show le32 (storeLe 4 m 24 0x80000000#32) (0 + 24) = _ from le32_storeLe _]
    decide
  apply tested_header crc hmade'.magic
  rw [padNode_answer hmade' hlen]
  decide

theorem tested_validPlainNode : Returns testValidPlainNode s fun _ s' => Tested s s' 0 1 := by
  simp only [testValidPlainNode, returns_bind, returns_setup, returns_onBuf]
  apply returns_callMakeNode
  intro crc _
  have hmade := (utMakeNode_made s.world.crc.property (memset s.buf 0 0xFF testLebSize) 0
    NodeType.cs.code.toNat 7 (by decide : 24 ≤ ubifsCsNodeSz) (by decide)).1
  have hheader : IsHeader _ 0 testLebSize := hmade.isHeader (by decide) (by decide)
  apply tested_header crc hmade.magic
  rw [headerAnswer, if_neg (not_not.mpr hheader.toHeaderOk), if_pos]
  rw [hmade.type]
  decide

/-- The node of `test_corrupt_header_crc`, wherever it was built. -/
private def csNode : Mem :=
  (utMakeNode .boot (fun _ => 0xFF) 0 NodeType.cs.code.toNat ubifsCsNodeSz 7).1

private theorem csNode_made : MadeNode (fun _ => 0xFF) csNode 0 ubifsCsNodeSz
    (BitVec.ofInt 8 NodeType.cs.code.toNat) 7 :=
  (utMakeNode_made CrcStatics.boot_lazy (fun _ => 0xFF) 0 NodeType.cs.code.toNat 7
    (by decide : 24 ≤ ubifsCsNodeSz) (by decide)).1

private theorem csNode_crc : chCrc csNode 0 ≠ 0xDEADBEEF#32 := by decide +kernel

theorem tested_corruptHeaderCrc : Returns testCorruptHeaderCrc s fun _ s' => Tested s s' 0 1 := by
  simp only [testCorruptHeaderCrc, returns_bind, returns_setup, returns_onBuf, returns_pure]
  apply returns_callMakeNode
  intro crc _
  have hmade := (utMakeNode_made s.world.crc.property (memset s.buf 0 0xFF testLebSize) 0
    NodeType.cs.code.toNat 7 (by decide : 24 ≤ ubifsCsNodeSz) (by decide)).1
  generalize (utMakeNode s.world.crc.val (memset s.buf 0 0xFF testLebSize) 0
    NodeType.cs.code.toNat ubifsCsNodeSz 7).1 = m at hmade ⊢
  have hlen : chLen m 0 = chLen csNode 0 :=
    BitVec.eq_of_toInt_eq (hmade.len.trans csNode_made.len.symm)
  have hbytes : bytesAt m 0 24 = bytesAt csNode 0 24 :=
    (csNode_made.isHeader (by decide) (Int.le_refl _)).bytes_eq
      (hmade.isHeader (by decide) (Int.le_refl _)) csNode_made.zero hmade.zero
      (hmade.sqnum.trans csNode_made.sqnum.symm) hlen (hmade.type.trans csNode_made.type.symm)
  have hcrc : chCrc m 0 = chCrc csNode 0 := by
    apply chCrc_congr
    intro i hi hi'
    have hbyte := bytesAt_eq_iff.mp hbytes i.toNat (by omega)
    rwa [show (0 : Int) + (i.toNat : Int) = i by omega] at hbyte
  have hcov : chCovered (storeLe 4 m 4 0xDEADBEEF#32) 0 = chCovered m 0 :=
    bytesAt_congr fun i hi _ => storeLe_outside (by omega)
  have hmagic : chMagic (storeLe 4 m 4 0xDEADBEEF#32) 0 = ubifsNodeMagic :=
    (chMagic_congr fun i _ hi => storeLe_outside (by omega)).trans hmade.magic
  apply tested_header crc hmagic
  rw [headerAnswer, if_pos]
  intro hok
  have hstored : chCrc (storeLe 4 m 4 0xDEADBEEF#32) 0 = 0xDEADBEEF#32 := le32_storeLe _
  rw [← hok.crc, hcov, hmade.crc, hcrc] at hstored
  exact csNode_crc hstored

end Calls

/-- What `test_ubifs_scan_collects_nodes` builds. -/
def sbufLayout : Layout where
  pieces := [.node 10 32 11 fun _ => 0, .pad 28 4 12, .node 10 32 13 fun _ => 0]
  valid := by decide
  apart := by decide

section Block

variable {A : Allocator} {w : World} {junk : Mem}

private theorem write_zeroes (st : LazyCrc) (m : Mem) (o : Int) (sqnum : BitVec 64) :
    (Piece.node 10 32 sqnum fun _ => 0).write st.val m o = utMakeNode st.val m o 10 32 sqnum := by
  have hzero := (utMakeNode_made st.property m o 10 sqnum (by decide : 24 ≤ (32 : Int))
    (by decide)).2
  have hbytes : bytesAt (fun _ => 0) 0 8 =
      bytesAt (utMakeNode st.val m o 10 32 sqnum).1 (o + 24) 8 := by
    rw [bytesAt_eq_iff]
    intro k hk
    exact (hzero _ (by omega) (by omega)).symm
  have hsame := splice_eq_self hbytes
  exact Prod.ext hsame rfl

private theorem returns_buildSbuf {p : Addr} (hp : p ∈ w.heap.live) :
    Returns (buildSbuf p junk 4096) w fun m w' => Heap.Kept w.heap w'.heap ∧
      w'.heap.failures = w.heap.failures ∧
      m = buildFrom w.crc.val (memset junk 0 0xFF 4096) 0 sbufLayout.pieces := by
  simp only [buildSbuf, returns_bind, returns_working, returns_pure]
  apply returns_callMakeNode
  intro crc hcrc
  apply returns_callMakePadNode
  intro crc' hcrc'
  apply returns_callMakeNode
  intro crc'' _
  have huse : ∀ h : Heap, Heap.Kept w.heap h → Heap.Kept w.heap (h.event (.use p)) :=
    fun h hk => hk.trans (.use (hk.live ▸ hp))
  refine ⟨?_, rfl, ?_⟩
  · iterate 8 apply huse
    exact .refl w.heap
  -- The statics each builder finds are those that the one before it left.
  let m₁ := (utMakeNode w.crc.val (memset junk 0 0xFF 4096) 0 10 32 11).1
  let m₂ := (utMakePadNode crc.val m₁ 32 28 4 12).1
  have hfirst : (utMakeNode w.crc.val (memset junk 0 0xFF 4096) 0 10 32 11).2 = crc.val :=
    hcrc.symm
  have hsecond : (utMakePadNode crc.val m₁ 32 28 4 12).2 = crc'.val := hcrc'.symm
  simp only [sbufLayout, buildFrom, write_zeroes w.crc, hfirst]
  change (utMakeNode crc'.val m₂ 64 10 32 13).1 =
    ((Piece.node 10 32 13 fun _ => 0).write (utMakePadNode crc.val m₁ 32 28 4 12).2 m₂ 64).1
  rw [hsecond, write_zeroes crc']

/-- The objects `as` were read, and `n` checks held. -/
private def Tester.looked (s : Tester) (as : List Addr) (n : BitVec 32) : Tester :=
  { s with
    world := { s.world with
      heap := { s.world.heap with
        cells := { s.world.heap.cells with log := s.world.heap.cells.log ++ as.map .use } } }
    utChecks := s.utChecks + n }

section Looked

variable {s : Tester} {as : List Addr} {a : Addr} {n : BitVec 32} {want : Int} {text : String}
  {Q : Unit → Tester → Prop}

private theorem looked_event (R : Tester → Prop) (h : R (s.looked (as ++ [a]) n)) :
    R { s.looked as n with
      world := { (s.looked as n).world with
        heap := (s.looked as n).world.heap.event (.use a) } } := by
  simpa [Tester.looked, Heap.event] using h

private theorem looked_check :
    { s.looked as n with utChecks := (s.looked as n).utChecks + 1 } = s.looked as (n + 1) := by
  simp [Tester.looked, BitVec.add_assoc]

private theorem returns_checkSlebField {field : ScanLeb → Int}
    (hfield : field (s.world.heap.slebs a) = want) (hQ : Q () (s.looked (as ++ [a]) (n + 1))) :
    Returns (checkEq text (onWorld (getSleb a field)) want) (s.looked as n) Q := by
  apply returns_checkEq
  rw [looked_check]
  simp only [returns_onWorld, returns_getSleb]
  exact ⟨hfield, looked_event _ hQ⟩

private theorem returns_checkSnodField {field : ScanNode → Int}
    (hfield : field (s.world.heap.snods a) = want) (hQ : Q () (s.looked (as ++ [a]) (n + 1))) :
    Returns (checkEq text (onWorld (getSnod a field)) want) (s.looked as n) Q := by
  apply returns_checkEq
  rw [looked_check]
  simp only [returns_onWorld, returns_getSnod]
  exact ⟨hfield, looked_event _ hQ⟩

private theorem returns_looked_next {R : Addr → Tester → Prop} {b : Addr}
    (hnext : s.world.heap.cells.links.next a = b) (hR : R b (s.looked (as ++ [a]) n)) :
    Returns (onWorld (onCells (readNext a))) (s.looked as n) R := by
  simp only [readNext, returns_onWorld, returns_onCells, returns_bind, returns_modify, returns_get,
    returns_pure]
  have hnext' : (s.looked as n).world.heap.cells.links.next a = b := hnext
  rw [Cells.touch, hnext']
  exact looked_event _ hR

end Looked

private theorem returns_checkSleb {s : Tester} {sleb a b : Addr}
    (hring : s.world.heap.cells.links.Ring sleb [a, b])
    (hnodes : [s.world.heap.snods a, s.world.heap.snods b] = recordsFrom 0 sbufLayout.pieces)
    (hsleb : s.world.heap.slebs sleb =
      { ScanLeb.zero with lnum := 5, nodesCnt := 2, endpt := 96 }) :
    Returns (checkSleb sleb 5) s fun _ s' =>
      s' = s.looked [sleb, sleb, sleb, a, a, a, a, b, b, sleb] 8 := by
  have hchain := hring.chain
  simp only [List.cons_append, List.nil_append, List.isChain_cons_cons] at hchain
  have hrecords : recordsFrom 0 sbufLayout.pieces = [⟨List.replicate 16 0, 11, 10, 0, 32, 0⟩,
      ⟨List.replicate 16 0, 13, 10, 64, 32, 64⟩] := by decide
  rw [hrecords] at hnodes
  obtain ⟨ha, hnodes⟩ := List.cons.inj hnodes
  have hb := List.singleton_inj.mp hnodes
  suffices h : Returns (checkSleb sleb 5) (s.looked [] 0) fun _ s' =>
      s' = s.looked [sleb, sleb, sleb, a, a, a, a, b, b, sleb] 8 by
    simpa [Tester.looked] using h
  simp only [checkSleb, returns_bind]
  apply returns_checkSlebField (by rw [hsleb])
  apply returns_checkSlebField (by rw [hsleb])
  apply returns_looked_next hchain.1.1
  apply returns_checkSnodField (by rw [ha]; rfl)
  apply returns_checkSnodField (by rw [ha])
  apply returns_checkSnodField (by rw [ha]; rfl)
  apply returns_looked_next hchain.2.1.1
  apply returns_checkSnodField (by rw [hb])
  apply returns_checkSnodField (by rw [hb]; rfl)
  apply returns_checkSlebField (by rw [hsleb]; rfl)
  rfl

private theorem sbuf_geometry : Geometry ⟨4096, 8⟩ 0 :=
  ⟨by decide, by decide, by decide, by decide, by decide, 3, by decide, by decide⟩

private theorem sbuf_decomposes (st : LazyCrc) (junk : Mem) :
    Decomposes (buildFrom st.val (memset junk 0 0xFF 4096) 0 sbufLayout.pieces) ⟨4096, 8⟩ 0
        (itemsFrom 0 sbufLayout.pieces) 96 ∧
      recorded (buildFrom st.val (memset junk 0 0xFF 4096) 0 sbufLayout.pieces)
        (itemsFrom 0 sbufLayout.pieces) = recordsFrom 0 sbufLayout.pieces := by
  have hblank : EmptyFrom (memset junk 0 0xFF 4096) 4096 0 := fun i h0 hi =>
    memset_inside (by decide) (by decide) h0 (by omega)
  have hbuilt := built st.property (by decide) (memset junk 0 0xFF 4096) (Int.le_refl 0) hblank
    sbufLayout.valid sbufLayout.apart (by decide)
  exact ⟨⟨hbuilt.tiles, by decide, by decide, hbuilt.empty⟩, hbuilt.records⟩

private theorem tested_sleb {s t : Tester} {p sleb a b : Addr} {h : Heap}
    (hfresh : p ∉ s.world.heap.live) (hkept : Heap.Kept (s.world.heap.allocated p) h)
    (hheld : Held h sleb [a, b] t.world.heap) (hgrown : Heap.Grown h t.world.heap)
    (hnodes : [a, b].map t.world.heap.snods = recordsFrom 0 sbufLayout.pieces)
    (hsleb : t.world.heap.slebs sleb =
      { ScanLeb.zero with lnum := 5, nodesCnt := 2, endpt := 96 })
    (hcounts : t.utChecks = s.utChecks + 1 ∧ t.utFailures = s.utFailures ∧
      t.printed = s.printed ∧ t.world.heap.failures = s.world.heap.failures) :
    Returns (do
        checkSleb sleb 5
        onWorld (ubifsScanDestroy sleb)
        onWorld (kfree p)) t fun _ s' => Tested s s' 0 9 := by
  obtain ⟨hchecks, hfailures, hprinted, hrefused⟩ := hcounts
  simp only [returns_bind, returns_onWorld]
  apply (returns_checkSleb hheld.ring hnodes hsleb).mono
  rintro _ _ rfl
  have hlooked : Held h sleb [a, b]
      (t.looked [sleb, sleb, sleb, a, a, a, a, b, b, sleb] 8).world.heap :=
    ⟨hheld.ring, hheld.live, hheld.fresh, hheld.same.next, hheld.same.prev, hheld.same.sleb,
      hheld.same.snod⟩
  have hgrown' : Heap.Grown t.world.heap
      (t.looked [sleb, sleb, sleb, a, a, a, a, b, b, sleb] 8).world.heap := by
    refine ⟨_, ⟨rfl, .uses fun x hx => hheld.mem_live ?_⟩, by simp⟩
    simp only [List.mem_cons, List.not_mem_nil, or_false] at hx ⊢
    tauto
  apply (returns_ubifsScanDestroy hlooked).mono
  rintro _ w hdestroyed
  simp only [kfree, returns_onHeap, returns_modify]
  refine ⟨?_, ?_, ?_, ?_, ?_⟩
  · simp [Tester.looked, hchecks, BitVec.add_assoc]
  · simp [Tester.looked, hfailures]
  · simp [Tester.looked, hprinted]
  · exact hdestroyed.failures.trans hrefused
  · exact (hkept.trans (hdestroyed.released (hgrown.trans hgrown')).kept).around hfresh

theorem tested_ubifsScanCollectsNodes {s : Tester} {p : Addr}
    (hpick : A.pick s.world.heap.attempts s.world.heap.live = some p) :
    Returns (testUbifsScanCollectsNodes A junk) s fun _ s' =>
      ∃ k : Nat, k ≤ 1 ∧ Tested s s' k (9 - 8 * k) := by
  simp only [testUbifsScanCollectsNodes, returns_bind, returns_onWorld]
  apply returns_kmallocObj
  · intro q hq hfresh hnull _
    obtain rfl : p = q := Option.some.inj (hpick.symm.trans hq)
    simp only [returns_modify, hnull, if_false, returns_bind, returns_onWorld]
    have hp : p ∈ (s.world.heap.allocated p).live := Finset.mem_insert_self p s.world.heap.live
    apply (returns_buildSbuf (w := { s.world with heap := s.world.heap.allocated p }) hp).mono
    rintro m w ⟨hbuilt, hrefused, rfl⟩
    have hblock := sbuf_decomposes s.world.crc junk
    have hp' : p ∈ w.heap.live := hbuilt.live ▸ hp
    have hkept := hbuilt.trans (.use hp')
    simp only [returns_get, returns_working]
    have hscan := harness_scan A 5 true { w with heap := w.heap.event (.use p) } sbuf_geometry
      (hblock.1.sumsFit sbuf_geometry)
    apply hscan.mono
    rintro sleb w' ⟨is, -, -, -, hend⟩
    simp only [returns_check]
    cases hend with
    | @scanned its e nodes _ _ hdec _ hvalid hheld hrec hsleb hgrown hfail =>
        obtain ⟨rfl, rfl⟩ := hdec.unique sbuf_geometry.leb sbuf_geometry.start hblock.1
        have htwo : (nodes.map w'.heap.snods).length = 2 := by
          rw [hrec, hblock.2]
          decide
        rw [List.length_map] at htwo
        obtain ⟨a, b, rfl⟩ := List.length_eq_two.mp htwo
        simp only [hvalid, Bool.not_false, if_true, Bool.false_eq_true, if_false]
        let t : Tester := { s with
          world := { w' with heap := w'.heap.event (.use p) }
          c := ⟨4096, 8⟩
          utChecks := s.utChecks + 1 }
        have hgrown' : Heap.Grown (w.heap.event (.use p)) t.world.heap :=
          hgrown.trans ⟨[.use p], ⟨rfl, .use ((hheld.live p).mpr (.inr hp')) (.nil _)⟩, by simp⟩
        apply (tested_sleb (t := t) hfresh hkept (hheld.event _) hgrown' (hrec.trans hblock.2)
          hsleb ⟨rfl, rfl, rfl, hfail.trans hrefused⟩).mono
        intro _ s' htested
        exact ⟨0, by decide, by simpa using htested⟩
    | corrupted _ hno => exact absurd hblock.1 (hno _ _)
    | nomem _ hrel hfail =>
        have herr : isErr (errPtr (-enomem)) = true := by decide
        simp only [herr, if_true, Bool.not_true, Bool.false_eq_true, if_false, returns_onWorld,
          kfree, returns_onHeap, returns_modify]
        have hend := hkept.trans (hrel.kept.trans (.use (hrel.live ▸ hp')))
        have hfail' : w'.heap.failures = s.world.heap.failures + 1 :=
          hfail.trans (congrArg (· + 1) hrefused)
        exact ⟨1, by decide, by simp, by simp, by simp, hfail', hend.around hfresh⟩
    | unread hread => exact absurd (harness_reads A ⟨4096, 8⟩ 5 0) hread.1
  · intro hnone
    rw [hpick] at hnone
    cases hnone

theorem stopped_ubifsScanCollectsNodes {s : Tester}
    (hpick : A.pick s.world.heap.attempts s.world.heap.live = none) :
    (testUbifsScanCollectsNodes A junk).run s = none := by
  have hmalloc : Returns (onWorld (kmallocObj A)) s fun p _ => p = 0 := by
    rw [returns_onWorld]
    apply returns_kmallocObj
    · intro a hsome
      rw [hpick] at hsome
      cases hsome
    · exact fun _ => rfl
  obtain ⟨p, s', hrun, rfl⟩ := hmalloc
  rw [testUbifsScanCollectsNodes, StateT.run_bind, hrun]
  rfl

end Block

/-- How many checks a test makes when no request is refused. -/
def Test.checks : Test → Int
  | .ubifsScanCollectsNodes _ => 9
  | _ => 1

/-- How many scans a test makes. -/
def Test.scans : Test → Nat
  | .ubifsScanCollectsNodes _ => 1
  | _ => 0

section Runs

variable {A : Allocator} {s : Tester}

/-- A test whose buffer is refused ends the program. -/
def Stops (A : Allocator) (s : Tester) (t : Test) : Prop :=
  ∃ junk, t = .ubifsScanCollectsNodes junk ∧
    A.pick s.world.heap.attempts s.world.heap.live = none

/-- **One test.** -/
theorem tested_run (t : Test) (hgo : ¬ Stops A s t) :
    Returns (t.run A) s fun _ s' =>
      ∃ k : Nat, k ≤ t.scans ∧ Tested s s' k (t.checks - 8 * k) := by
  have hone : ∀ {p : Program Tester Unit}, Returns p s (fun _ s' => Tested s s' 0 1) →
      Returns p s fun _ s' => ∃ k : Nat, k ≤ 0 ∧ Tested s s' k (1 - 8 * k) :=
    fun h => h.mono fun _ s' htested => ⟨0, Nat.le_refl 0, by simpa using htested⟩
  cases t with
  | emptySpace => exact hone tested_emptySpace
  | rawPaddingBytes => exact hone tested_rawPaddingBytes
  | rawPaddingMisaligned => exact hone tested_rawPaddingMisaligned
  | garbage => exact hone tested_garbage
  | lenTooSmall => exact hone tested_lenTooSmall
  | validPadNode => exact hone tested_validPadNode
  | padNodeOverrunsLeb => exact hone tested_padNodeOverrunsLeb
  | padNodeNegativePadLen => exact hone tested_padNodeNegativePadLen
  | padNodeMisalignedTotal => exact hone tested_padNodeMisalignedTotal
  | padNode36BytesIsMisaligned => exact hone tested_padNode36BytesIsMisaligned
  | padNodeEndsExactlyAtLebEnd => exact hone tested_padNodeEndsExactlyAtLebEnd
  | corruptHeaderCrc => exact hone tested_corruptHeaderCrc
  | validPlainNode => exact hone tested_validPlainNode
  | ubifsScanCollectsNodes junk =>
      cases hpick : A.pick s.world.heap.attempts s.world.heap.live with
      | none => exact absurd ⟨junk, rfl, hpick⟩ hgo
      | some p => exact tested_ubifsScanCollectsNodes hpick

/-- **The tests fail for want of memory only.** Run in any order and as often as one likes, from any
state of the program, the tests stop where a scan buffer is refused, or they end with one failed
check, that of the pointer, for each refused request, at most one for each scan, and with the heap
as it was. -/
theorem tests_fail_when_refused (A : Allocator) (ts : List Test) (s : Tester) :
    Returns (runTests A ts) s (fun _ s' => ∃ k : Nat, k ≤ (ts.map Test.scans).sum ∧
        Tested s s' k ((ts.map Test.checks).sum - 8 * k)) ∨
      (runTests A ts).run s = none ∧ ∃ before t after s₁, ts = before ++ t :: after ∧
        (runTests A before).run s = some ((), s₁) ∧ Stops A s₁ t := by
  induction ts generalizing s with
  | nil =>
      left
      simp only [runTests, List.forM_eq_forM, List.forM_nil, returns_pure]
      exact ⟨0, Nat.le_refl 0, .refl s⟩
  | cons t ts ih =>
      have hcons : runTests A (t :: ts) = t.run A >>= fun _ => runTests A ts := rfl
      by_cases hstop : Stops A s t
      · right
        refine ⟨?_, [], t, ts, s, rfl, rfl, hstop⟩
        obtain ⟨junk, rfl, hpick⟩ := hstop
        rw [hcons, StateT.run_bind]
        exact congrArg (· >>= _) (stopped_ubifsScanCollectsNodes hpick)
      · obtain ⟨⟨⟩, s₁, hrun, k, hk, htested⟩ := tested_run t hstop
        have hnext : (runTests A (t :: ts)).run s = (runTests A ts).run s₁ := by
          rw [hcons, StateT.run_bind, hrun]
          rfl
        rcases ih s₁ with ⟨⟨⟩, s₂, hrun₂, k₂, hk₂, htested₂⟩ |
          ⟨hnone, before, u, after, s₂, rfl, hb, hs⟩
        · left
          have hsum : ((t :: ts).map Test.checks).sum - 8 * ((k + k₂ : Nat) : Int) =
              t.checks - 8 * k + ((ts.map Test.checks).sum - 8 * k₂) := by
            rw [List.map_cons, List.sum_cons]
            push_cast
            omega
          exact ⟨(), s₂, hnext.trans hrun₂, k + k₂, Nat.add_le_add hk hk₂,
            hsum ▸ htested.trans htested₂⟩
        · right
          refine ⟨hnext.trans hnone, t :: before, u, after, s₂, rfl, ?_, hs⟩
          have hcons' : runTests A (t :: before) = t.run A >>= fun _ => runTests A before := rfl
          rw [hcons', StateT.run_bind, hrun]
          exact hb

theorem testMain_counts (A : Allocator) (junk : Mem) (s : Tester) (hstart : s.utFailures = 0) :
    Ensures (testMain A junk) s fun code s' => ∃ k : Nat, k ≤ 1 ∧ Tested s s' k (22 - 8 * k) ∧
      s'.utFailures = BitVec.ofNat 32 k ∧ code = k := by
  refine ensures_bind fun _ s' hrun => ?_
  rcases tests_fail_when_refused A (Test.all junk) s with h | ⟨hnone, -⟩
  · obtain ⟨k, hk, htested⟩ := h.of_run hrun
    have hcount : s'.utFailures = BitVec.ofNat 32 k := by
      simpa [hstart] using htested.failures
    refine ensures_bind (ensures_get (ensures_pure ⟨k, hk, htested, hcount, ?_⟩))
    have hone : k ≤ 1 := hk
    obtain rfl | rfl : k = 0 ∨ k = 1 := by omega
    · simp [hcount]
    · simp [hcount]
  · rw [hnone] at hrun
    cases hrun

end Runs

end UbifsScan
