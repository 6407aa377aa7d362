import UbifsScan.Refinement.Outcome

/-!
# The report of a scan

What a scan answers and prints, stated over the bytes of the block and the requests its allocator
grants. The block is read up to the place where no further item is recorded; what is found there
decides the answer and is what the messages name. A block has one report.
-/

namespace UbifsScan

open Mem Program

/-- The complaint about a pad node at `o` that is turned down. -/
def padMsgs (m : Mem) (L len lnum o : Int) (quiet : Bool) : List Msg :=
  let nodeLen := (chLen m o).toInt
  let padLen := (padPadLen m o).toInt
  let stop := wrap32 (wrap32 (o + nodeLen) + padLen)
  if quiet = true ∨ ¬ IsPadHeader m o len then []
  else if padLen < 0 ∨ stop > L then [.badPadNode lnum o]
  else if wrap32 (nodeLen + padLen) % 8 ≠ 0 then [.badPaddingLength o stop]
  else []

/-- A node was meant to be at `o` when the magic is there, with room for a header. -/
def finding (m : Mem) (L lnum o : Int) (quiet : Bool) : List Msg :=
  padMsgs m L (L - o) lnum o quiet ++
    [if chMagic m o = ubifsNodeMagic ∧ 24 ≤ L - o then .badNode else .garbage]

/-- `ubifs_err` unless the scan is quiet. -/
def unlessQuiet (quiet : Bool) (msgs : List Msg) : List Msg := if quiet then [] else msgs

/-- The answer and the messages of a scan that has read the items `its` up to `o`, with the requests
up to there granted. -/
inductive StopAt (K : Env) (m : Mem) (c : UbifsInfo) (lnum : Int) (quiet : Bool) (h : Heap)
    (its : List Item) (o : Int) : Outcome → List Msg → Prop
  | nomem {it : Item} {o' : Int} (hstep : ItemStep m c.lebSize o it o') (hkind : it.kind = .node)
      (hrefused : ¬ h.GrantsAfter K.alloc its 1) : StopAt K m c lnum quiet h its o
        (.failed (-enomem)) [.scanningFailedError lnum (-enomem)]
  | damaged (hlt : o < c.lebSize) (hmagic : chMagic m o ≠ 0xFFFFFFFF#32)
      (hstuck : Steps.Stuck (ItemStep m c.lebSize) o) : StopAt K m c lnum quiet h its o
        (.failed (-euclean))
        (finding m c.lebSize lnum o quiet ++ unlessQuiet quiet (corruptionReport c lnum o))
  | unaligned (hend : o = c.lebSize ∨ chMagic m o = 0xFFFFFFFF#32) (hndvd : ¬ c.minIoSize ∣ o) :
      StopAt K m c lnum quiet h its o (.failed (-euclean))
        (unlessQuiet quiet (.emptySpaceNonAligned o :: corruptionReport c lnum o))
  | dirty {p : Int} (hmagic : chMagic m o = 0xFFFFFFFF#32) (hdvd : c.minIoSize ∣ o) (hlo : o ≤ p)
      (hlt : p < c.lebSize) (hempty : EmptyFrom m p o) (hbyte : m p ≠ 0xFF#8) :
      StopAt K m c lnum quiet h its o (.failed (-euclean))
        (unlessQuiet quiet (.corruptEmptySpace lnum p :: corruptionReport c lnum p))
  | scanned (hdvd : c.minIoSize ∣ o) (hempty : EmptyFrom m c.lebSize o) :
      StopAt K m c lnum quiet h its o (.scanned (blockView m lnum its o)) []

/-- The answer and the messages of a scan of the block from `a` on. -/
inductive Report (K : Env) (m : Mem) (c : UbifsInfo) (a lnum : Int) (quiet : Bool) (h : Heap) :
    Outcome → List Msg → Prop
  | refused (hrefused : ¬ h.Grants K.alloc 1) :
      Report K m c a lnum quiet h (.failed (-enomem)) []
  | unread (hread : K.ReadFails c lnum a) (hgrant : h.Grants K.alloc 1) :
      Report K m c a lnum quiet h (.failed (K.readError c lnum a))
        [.cannotRead (c.lebSize - a) lnum a (K.readError c lnum a)]
  | stopped {its : List Item} {o : Int} {out : Outcome} {msgs : List Msg}
      (hread : ¬ K.ReadFails c lnum a) (htiles : Tiles m c.lebSize a its o)
      (hgrant : h.GrantsAfter K.alloc its 0) (hstop : StopAt K m c lnum quiet h its o out msgs) :
      Report K m c a lnum quiet h out msgs

section Unique

variable {K : Env} {m : Mem} {c : UbifsInfo} {a lnum o o' : Int} {quiet : Bool} {h : Heap}
  {its its' : List Item} {out out' : Outcome} {msgs msgs' : List Msg}

private theorem end_of_empty (hin : Inside c.lebSize o) (hempty : EmptyFrom m c.lebSize o) :
    o = c.lebSize ∨ chMagic m o = 0xFFFFFFFF#32 := by
  obtain ⟨h0, hle, h8, hL, hint⟩ := hin
  by_cases hend : o = c.lebSize
  · exact .inl hend
  · exact .inr (chMagic_empty_iff.mpr fun i hi hi' => hempty i hi (by omega))

theorem StopAt.next (hstop : StopAt K m c lnum quiet h its o out msgs) (hin : Inside c.lebSize o)
    {it : Item} (hstep : ItemStep m c.lebSize o it o') :
    it.kind = .node ∧ ¬ h.GrantsAfter K.alloc its 1 := by
  cases hstop with
  | nomem hstep' hkind hrefused =>
      obtain ⟨rfl, -⟩ := itemStep_deterministic m c.lebSize _ _ _ _ _ hstep hstep'
      exact ⟨hkind, hrefused⟩
  | damaged _ _ hstuck => exact absurd hstep (hstuck it o')
  | unaligned hend _ => exact absurd hstep (stuck_of_done hin hend it o')
  | dirty hmagic _ _ _ _ _ => exact absurd hstep (stuck_of_done hin (.inr hmagic) it o')
  | scanned _ hempty => exact absurd hstep (stuck_of_done hin (end_of_empty hin hempty) it o')

/-- A tiling that goes on behind a stop needs a request that was refused. -/
private theorem StopAt.last (hstop : StopAt K m c lnum quiet h its o out msgs)
    (hin : Inside c.lebSize o) {rest : List Item} (hrest : Tiles m c.lebSize o rest o')
    (hgrant : h.GrantsAfter K.alloc (its ++ rest) 0) : rest = [] ∧ o = o' := by
  cases hrest with
  | nil => exact ⟨rfl, rfl⟩
  | @cons _ p _ it rest hstep _ =>
      obtain ⟨hkind, hrefused⟩ := hstop.next hin hstep
      refine absurd (hgrant.mono ?_) hrefused
      simp only [nodesIn, List.countP_append, List.countP_cons, hkind, decide_true, if_true]
      omega

private theorem StopAt.unique (hin : Inside c.lebSize o)
    (hstop : StopAt K m c lnum quiet h its o out msgs)
    (hstop' : StopAt K m c lnum quiet h its o out' msgs') : out = out' ∧ msgs = msgs' := by
  have hfirst : ∀ {p}, EmptyFrom m p o → o ≤ p → p < c.lebSize → m p ≠ 0xFF#8 →
      ¬ EmptyFrom m c.lebSize o := fun _ hlo hlt hbyte hempty => hbyte (hempty _ hlo hlt)
  cases hstop with
  | nomem hstep hkind hrefused =>
      cases hstop' with
      | nomem _ _ _ => exact ⟨rfl, rfl⟩
      | damaged _ _ hstuck => exact absurd hstep (hstuck _ _)
      | unaligned hend _ => exact absurd hstep (stuck_of_done hin hend _ _)
      | dirty hmagic _ _ _ _ _ => exact absurd hstep (stuck_of_done hin (.inr hmagic) _ _)
      | scanned _ hempty =>
          exact absurd hstep (stuck_of_done hin (end_of_empty hin hempty) _ _)
  | damaged hlt hmagic hstuck =>
      cases hstop' with
      | nomem hstep _ _ => exact absurd hstep (hstuck _ _)
      | damaged _ _ _ => exact ⟨rfl, rfl⟩
      | unaligned hend _ =>
          rcases hend with hend | hend
          · omega
          · exact absurd hend hmagic
      | dirty hmagic' _ _ _ _ _ => exact absurd hmagic' hmagic
      | scanned _ hempty =>
          rcases end_of_empty hin hempty with hend | hend
          · omega
          · exact absurd hend hmagic
  | unaligned hend hndvd =>
      cases hstop' with
      | nomem hstep _ _ => exact absurd hstep (stuck_of_done hin hend _ _)
      | damaged hlt hmagic _ =>
          rcases hend with hend | hend
          · omega
          · exact absurd hend hmagic
      | unaligned _ _ => exact ⟨rfl, rfl⟩
      | dirty _ hdvd _ _ _ _ => exact absurd hdvd hndvd
      | scanned hdvd _ => exact absurd hdvd hndvd
  | @dirty p hmagic hdvd hlo hlt hempty hbyte =>
      cases hstop' with
      | nomem hstep _ _ => exact absurd hstep (stuck_of_done hin (.inr hmagic) _ _)
      | damaged _ hmagic' _ => exact absurd hmagic hmagic'
      | unaligned _ hndvd => exact absurd hdvd hndvd
      | @dirty q _ _ hlo' hlt' hempty' hbyte' =>
          have hpq : p = q := by
            rcases lt_trichotomy p q with hpq | hpq | hpq
            · exact absurd (hempty' p hlo hpq) hbyte
            · exact hpq
            · exact absurd (hempty q hlo' hpq) hbyte'
          subst q
          exact ⟨rfl, rfl⟩
      | scanned _ hempty' => exact absurd hempty' (hfirst hempty hlo hlt hbyte)
  | scanned hdvd hempty =>
      cases hstop' with
      | nomem hstep _ _ => exact absurd hstep (stuck_of_done hin (end_of_empty hin hempty) _ _)
      | damaged hlt hmagic _ =>
          rcases end_of_empty hin hempty with hend | hend
          · omega
          · exact absurd hend hmagic
      | unaligned _ hndvd => exact absurd hdvd hndvd
      | dirty _ _ hlo hlt hempty' hbyte => exact absurd hempty (hfirst hempty' hlo hlt hbyte)
      | scanned _ _ => exact ⟨rfl, rfl⟩

theorem Heap.GrantsAfter.first (hgrant : h.GrantsAfter K.alloc its 0) : h.Grants K.alloc 1 :=
  Allocator.Grants.mono hgrant (Nat.succ_le_succ (Nat.zero_le _))

/-- **A block has one report.** -/
theorem Report.unique (hin : Inside c.lebSize a) (hr : Report K m c a lnum quiet h out msgs)
    (hr' : Report K m c a lnum quiet h out' msgs') : out = out' ∧ msgs = msgs' := by
  cases hr with
  | refused hrefused =>
      cases hr' with
      | refused _ => exact ⟨rfl, rfl⟩
      | unread _ hgrant => exact absurd hgrant hrefused
      | stopped _ _ hgrant _ => exact absurd hgrant.first hrefused
  | unread hread hgrant =>
      cases hr' with
      | refused hrefused => exact absurd hgrant hrefused
      | unread _ _ => exact ⟨rfl, rfl⟩
      | stopped hread' _ _ _ => exact absurd hread hread'
  | @stopped its o _ _ hread htiles hgrant hstop =>
      cases hr' with
      | refused hrefused => exact absurd hgrant.first hrefused
      | unread hread' _ => exact absurd hread' hread
      | @stopped its' o' _ _ _ htiles' hgrant' hstop' =>
          have hin₁ := htiles.inside hin
          have hin₂ := htiles'.inside hin
          rcases Steps.comparable (itemStep_deterministic m c.lebSize) htiles htiles' with
            ⟨rest, rfl, hrest⟩ | ⟨rest, rfl, hrest⟩
          · obtain ⟨rfl, rfl⟩ := hstop.last hin₁ hrest hgrant'
            rw [List.append_nil] at hstop'
            exact hstop.unique hin₁ hstop'
          · obtain ⟨rfl, rfl⟩ := hstop'.last hin₂ hrest hgrant
            rw [List.append_nil] at hstop
            exact hstop.unique hin₁ hstop'

end Unique

section Messages

variable {K : Env} {m sbuf : Mem} {c : UbifsInfo} {a lnum o : Int} {quiet : Bool} {w : World}
  {sleb : Addr}

theorem padMsgs_bad {m : Mem} {L len o : Int} (lnum : Int) (quiet : Bool)
    (hpad : IsPadHeader m o len) (hbad : (padPadLen m o).toInt < 0 ∨
      wrap32 (wrap32 (o + (chLen m o).toInt) + (padPadLen m o).toInt) > L) :
    padMsgs m L len lnum o quiet = unlessQuiet quiet [.badPadNode lnum o] := by
  cases quiet <;> simp [padMsgs, unlessQuiet, hpad, hbad]

theorem padMsgs_unaligned {m : Mem} {L len o : Int} (lnum : Int) (quiet : Bool)
    (hpad : IsPadHeader m o len) (hfits : ¬ ((padPadLen m o).toInt < 0 ∨
      wrap32 (wrap32 (o + (chLen m o).toInt) + (padPadLen m o).toInt) > L))
    (hmod : wrap32 ((chLen m o).toInt + (padPadLen m o).toInt) % 8 ≠ 0) :
    padMsgs m L len lnum o quiet = unlessQuiet quiet
      [.badPaddingLength o (wrap32 (wrap32 (o + (chLen m o).toInt) + (padPadLen m o).toInt))] := by
  cases quiet with
  | true => simp [padMsgs, unlessQuiet]
  | false =>
      simp only [padMsgs, unlessQuiet, hpad, if_neg hfits, if_pos hmod]
      simp

theorem padMsgs_good {m : Mem} {L o : Int} (len lnum : Int) (quiet : Bool)
    (hfits : ¬ ((padPadLen m o).toInt < 0 ∨
      wrap32 (wrap32 (o + (chLen m o).toInt) + (padPadLen m o).toInt) > L))
    (hmod : wrap32 ((chLen m o).toInt + (padPadLen m o).toInt) % 8 = 0) :
    padMsgs m L len lnum o quiet = [] := by
  simp only [padMsgs, if_neg hfits, hmod, ne_eq, not_true_eq_false, if_false, ite_self]

private theorem returns_countPadding_msgs (p : Int) (n : Nat) (w : World) :
    Returns (countPadding sbuf p n) w fun _ w' => w'.msgs = w.msgs := by
  induction n generalizing p w with
  | zero => simp [countPadding]
  | succ n ih =>
      simp only [countPadding, returns_bind, returns_readByte, returns_ite, returns_pure]
      split
      · exact ih (p + 1) (w.see (span p 1))
      · rfl

private theorem returns_ubifsCheckNode_msgs (buf len : Int) (w : World) :
    Returns (ubifsCheckNode sbuf buf len) w fun _ w' => w'.msgs = w.msgs := by
  simp only [ubifsCheckNode, returns_bind, returns_readLe32, returns_ite, returns_pure]
  split
  · rfl
  · simp only [returns_readBytes]
    apply returns_callCrc32
    intro st
    split
    · rfl
    · rfl

/-- The messages of `ubifs_scan_a_node`. Where the magic has room for a header, garbage is answered
for no other header than a pad node's; a corrupt node has that room. -/
theorem returns_ubifsScanANode_msgs (c : UbifsInfo) (sbuf : Mem) {len : Int} (lnum o : Int)
    (quiet : Bool) (hlen : 8 ≤ len) (hint : len < 2147483648) (w : World) :
    Returns (ubifsScanANode c sbuf o len lnum o quiet) w fun ret w' =>
      w'.msgs = w.msgs ++ padMsgs sbuf c.lebSize len lnum o quiet ∧
        (ret = scannedGarbage → chMagic sbuf o = ubifsNodeMagic → 24 ≤ len →
          IsPadHeader sbuf o len) ∧ (ret = scannedACorruptNode → 24 ≤ len) := by
  have hno : ∀ {v : World}, v.msgs = w.msgs → ¬ IsPadHeader sbuf o len →
      v.msgs = w.msgs ++ padMsgs sbuf c.lebSize len lnum o quiet := by
    intro v hv hpad
    simp [hv, padMsgs, hpad]
  simp only [ubifsScanANode, returns_bind, returns_readLe32, returns_ite, returns_pure]
  split
  · rename_i hempty
    have hne : chMagic sbuf o ≠ ubifsNodeMagic := by
      rw [show chMagic sbuf o = _ from hempty]
      decide
    exact ⟨hno rfl fun hp => hne hp.1.magic, fun _ hmagic => absurd hmagic hne,
      fun hret => absurd hret (by decide)⟩
  split
  · rename_i hne
    have hnone : ¬ IsPadHeader sbuf o len := fun hp => hne hp.1.magic
    simp only [scanPaddingBytes, returns_bind, returns_ite, returns_pure]
    apply (returns_countPadding_msgs o _ _).mono
    intro k w' hmsgs
    split
    · exact ⟨hno hmsgs hnone, fun _ hmagic => absurd hmagic hne,
        fun hret => absurd hret (by decide)⟩
    · refine ⟨hno hmsgs hnone, fun _ hmagic => absurd hmagic hne, fun hret => ?_⟩
      simp only [scannedACorruptNode] at hret
      omega
  rename_i hmagic
  have hm : chMagic sbuf o = ubifsNodeMagic := not_not.mp hmagic
  split
  · rename_i hshort
    have hlt : len < 24 := by
      simp only [sizeT, ubifsChSz] at hshort
      omega
    refine ⟨hno rfl fun hp => ?_, fun _ _ h24 => by omega, fun hret => absurd hret (by decide)⟩
    have hroom := hp.1.room
    omega
  rename_i hlong
  have h24 : 24 ≤ len := by
    simp only [sizeT, ubifsChSz] at hlong
    omega
  apply ((returns_ubifsCheckNode o len _).and_ensures
    (returns_ubifsCheckNode_msgs o len _).ensures).mono
  rintro chk w₁ ⟨⟨hok, -⟩, hmsgs⟩
  split
  · rename_i hbad
    exact ⟨hno hmsgs fun hp => hbad (hok.mpr hp.1.toHeaderOk),
      fun hret => absurd hret (by decide), fun _ => h24⟩
  rename_i hgood
  have hheader : IsHeader sbuf o len := ⟨hok.mp (not_not.mp hgood), hm⟩
  simp only [returns_readByte]
  split
  · rename_i htype
    have hpad : IsPadHeader sbuf o len := ⟨hheader, htype⟩
    simp only [returns_ubifsErr]
    have hmsgs' : w₁.msgs = w.msgs := hmsgs
    have hadd : ∀ {msgs}, padMsgs sbuf c.lebSize len lnum o quiet = msgs →
        w₁.msgs ++ msgs = w.msgs ++ padMsgs sbuf c.lebSize len lnum o quiet :=
      fun heq => by rw [hmsgs', heq]
    split
    · rename_i hbad
      have heq := padMsgs_bad lnum quiet hpad hbad
      cases quiet with
      | true => exact ⟨(List.append_nil _).symm.trans (hadd heq), fun _ _ _ => hpad, fun _ => h24⟩
      | false => exact ⟨hadd heq, fun _ _ _ => hpad, fun _ => h24⟩
    rename_i hfits
    split
    · rename_i hmod
      have heq := padMsgs_unaligned lnum quiet hpad hfits hmod
      cases quiet with
      | true => exact ⟨(List.append_nil _).symm.trans (hadd heq), fun _ _ _ => hpad, fun _ => h24⟩
      | false => exact ⟨hadd heq, fun _ _ _ => hpad, fun _ => h24⟩
    · rename_i hmod
      have heq := padMsgs_good len lnum quiet hfits (not_not.mp hmod)
      exact ⟨(List.append_nil _).symm.trans (hadd heq), fun _ _ _ => hpad, fun _ => h24⟩
  · rename_i htype
    exact ⟨hno hmsgs fun hp => htype hp.2, fun hret => absurd hret (by decide), fun _ => h24⟩

theorem returns_ubifsAddSnod_msgs (K : Env) (sleb : Addr) (m : Mem) (buf offs : Int) (w : World) :
    Returns (ubifsAddSnod K sleb m buf offs) w fun _ w' => w'.msgs = w.msgs := by
  simp only [ubifsAddSnod, returns_bind]
  apply returns_kmallocObj
  · intro a _ _ hnull _
    simp only [hnull, if_false, returns_bind, returns_readLe64, returns_readByte, returns_readLe32,
      returns_ite, setSnod, setSleb, returns_onHeap, returns_modify, returns_onCells,
      returns_listAddTail, returns_pure, returns_readBytes]
    split
    · rfl
    · rfl
  · intro _
    simp

theorem returns_ubifsStartScan_msgs (K : Env) (c : UbifsInfo) (lnum o : Int) (w : World) :
    Returns (ubifsStartScan K c lnum o) w fun _ w' =>
      (w.heap.Grants K.alloc 1 → K.ReadFails c lnum o → w'.msgs = w.msgs ++
        [.cannotRead (wrap32 (c.lebSize - o)) lnum o (K.readError c lnum o)]) ∧
      (¬ (w.heap.Grants K.alloc 1 ∧ K.ReadFails c lnum o) → w'.msgs = w.msgs) ∧
      (w'.heap.failures = w.heap.failures → w.heap.Grants K.alloc 1) := by
  simp only [ubifsStartScan, kzallocScanLeb, returns_bind]
  apply returns_kmallocObj
  · intro a hpick hfresh hnull herr
    simp only [ne_eq, hnull, not_false_eq_true, if_true, if_false, returns_bind, returns_onHeap,
      returns_modify, returns_pure, setSleb, returns_onCells, returns_initListHead, returns_ite,
      returns_ubifsErr, kfree]
    have hgrant : w.heap.Grants K.alloc 1 := ⟨a, hpick, trivial⟩
    split
    · rename_i hread
      exact ⟨fun _ _ => rfl, fun hno => absurd ⟨hgrant, hread⟩ hno, fun _ => hgrant⟩
    · rename_i hread
      exact ⟨fun _ hbad => absurd hbad hread, fun _ => trivial, fun _ => hgrant⟩
  · intro hpick
    have hrefused := Heap.not_grants hpick 0
    simp [hrefused, Heap.refused]

/-- The messages of a round, by how it ends. -/
def roundMsgs (m : Mem) (L lnum o : Int) (quiet : Bool) : Cursor ⊕ Leave → List Msg
  | .inr (.corrupted _) => finding m L lnum o quiet
  | _ => []

theorem returns_scanRound_msgs (lnum : Int) (quiet : Bool) (hin : Inside c.lebSize o)
    (hfit : SkipFits sbuf c.lebSize o) (w : World) :
    Returns (scanRound K c lnum sbuf quiet sleb (.at c.lebSize o)) w fun r w' =>
      w'.msgs = w.msgs ++ roundMsgs sbuf c.lebSize lnum o quiet r := by
  obtain ⟨h0, hle, h8, hL, hint⟩ := hin
  rw [scanRound, returns_ite]
  split
  · simp [roundMsgs]
  rename_i hlong
  have hlen : 8 ≤ c.lebSize - o := by
    simp only [Cursor.at] at hlong
    omega
  rw [returns_bind]
  apply ((returns_ubifsScanANode c sbuf o lnum o quiet hlen (by omega) w).and_ensures
    (returns_ubifsScanANode_msgs c sbuf lnum o quiet hlen (by omega) w).ensures).mono
  rintro ret w₁ ⟨⟨hverdict, -⟩, hmsgs, hgarbage, hcorrupt⟩
  have hquiet : ¬ IsPadHeader sbuf o (c.lebSize - o) → w₁.msgs = w.msgs := by
    intro hpad
    simpa [padMsgs, hpad] using hmsgs
  cases hverdict with
  | empty hmagic =>
      rw [if_neg (by decide), if_pos rfl, returns_pure]
      have hnone : ¬ IsPadHeader sbuf o (c.lebSize - o) :=
        fun hp => absurd (hp.1.magic.symm.trans hmagic) (by decide)
      simp [roundMsgs, hquiet hnone]
  | @raw n hraw =>
      have hsize := hraw.size
      rw [if_pos (by omega), returns_pure]
      simp [roundMsgs, hquiet fun hp => hraw.not_header hp.1]
  | garbage hempty hraw hheader =>
      have hroom : ¬ (chMagic sbuf o = ubifsNodeMagic ∧ 24 ≤ c.lebSize - o) := by
        intro h
        exact hheader (hgarbage rfl h.1 h.2).1
      rw [if_neg (by decide), if_neg (by decide), if_pos rfl]
      simp [roundMsgs, finding, hmsgs, hroom]
  | corrupt hmagic hheader =>
      rw [if_neg (by decide), if_neg (by decide), if_neg (by decide), if_neg (by decide),
        if_pos (.inl rfl)]
      simp [roundMsgs, finding, hmsgs, hmagic, hcorrupt rfl]
  | badPad hpad hbad =>
      rw [if_neg (by decide), if_neg (by decide), if_neg (by decide), if_neg (by decide),
        if_pos (.inr rfl)]
      simp [roundMsgs, finding, hmsgs, hpad.1.magic, hpad.1.room]
  | pad hpad hneg hfits hdvd =>
      generalize hret : wrap32 ((chLen sbuf o).toInt + (padPadLen sbuf o).toInt) = ret
      have hitem : IsItem sbuf c.lebSize ⟨.pad, o, ret⟩ :=
        hret ▸ isPad_of_verdict hpad h0 hfit hneg hfits hdvd
      have hpos : 8 ≤ ret := hitem.size_pos.1
      have hgood : padMsgs sbuf c.lebSize (c.lebSize - o) lnum o quiet = [] := by
        exact padMsgs_good _ lnum quiet (by omega) hdvd
      rw [if_pos (by omega), returns_pure]
      simp [roundMsgs, hmsgs, hgood]
  | node hheader htype =>
      rw [if_neg (by decide), if_neg (by decide), if_neg (by decide), if_pos rfl, returns_bind]
      apply (returns_ubifsAddSnod_msgs K sleb sbuf o o w₁).mono
      intro err w₂ hadd
      have hsame : w₂.msgs = w.msgs := hadd.trans (hquiet fun hp => htype hp.2)
      split
      · simpa [roundMsgs] using hsame
      · simpa [roundMsgs, World.see] using hsame

end Messages

section Scan

variable {K : Env} {sbuf : Mem} {c : UbifsInfo} {a lnum o : Int} {quiet : Bool} {base v w : World}
  {sleb : Addr} {its : List Item} {nodes : List Addr} {h : Heap}

theorem Heap.outcome_errPtr {err : Int} (h : Heap) (hlo : -4095 ≤ err) (hhi : err < 0) :
    h.outcome (errPtr err) = .failed err := by
  rw [Heap.outcome, isErr_errPtr hlo hhi, ptrErr_errPtr hlo hhi]
  rfl

/-- The result of a scan from `base` and its messages are those of the report. -/
def Reports (K : Env) (m : Mem) (c : UbifsInfo) (a lnum : Int) (quiet : Bool) (base : World)
    (r : Addr) (w' : World) : Prop :=
  ∃ msgs, w'.msgs = base.msgs ++ msgs ∧
    Report K m c a lnum quiet base.heap (w'.heap.outcome r) msgs

private theorem msgs_of_heads {cur : Cursor} (hin : Inside c.lebSize a)
    (hstart : AtHead K.alloc sbuf c.lebSize a lnum base sleb [] a w)
    (hfit : ∀ its o v, Heads (scanRound K c lnum sbuf quiet sleb) (.at c.lebSize a, w)
      (.at c.lebSize o, v) → Tiles sbuf c.lebSize a its o → SkipFits sbuf c.lebSize o)
    (hheads : Heads (scanRound K c lnum sbuf quiet sleb) (.at c.lebSize a, w) (cur, v)) :
    v.msgs = w.msgs := by
  apply heads_inv (fun _ u => u.msgs = w.msgs) hheads ?_ rfl
  intro cur u next u' hto hu hround
  obtain ⟨its, o, rfl, hat⟩ := atHead_of_heads hin hstart hfit hto
  have hmsgs := (returns_scanRound_msgs lnum quiet (hat.tiles.inside hin)
    (hfit its o u hto hat.tiles) u).of_run hround
  simpa [roundMsgs, hu] using hmsgs

private theorem returns_scanTail_unaligned (hdef : ModDefined o c.minIoSize)
    (hmod : o.tmod c.minIoSize ≠ 0) (hheld : Held h sleb nodes w.heap) :
    Returns (scanTail c lnum sbuf quiet sleb (.at c.lebSize o)) w fun r w' =>
      r = errPtr (-euclean) ∧ w'.msgs = w.msgs ++
        unlessQuiet quiet (.emptySpaceNonAligned o :: corruptionReport c lnum o) := by
  have hmod' : (Cursor.at c.lebSize o).offs.tmod c.minIoSize ≠ 0 := hmod
  have hdef' : ModDefined (Cursor.at c.lebSize o).offs c.minIoSize := hdef
  simp only [scanTail, returns_bind, returns_cMod hdef', ne_eq, hmod', not_false_eq_true, if_true,
    returns_ite, returns_ubifsErr]
  cases quiet with
  | true =>
      apply (returns_scanCorrupted _ hheld).mono
      rintro r w' ⟨-, hr, -, hmsgs⟩
      exact ⟨hr, hmsgs⟩
  | false =>
      apply (returns_scanCorrupted (.at c.lebSize o) (w := { w with
        msgs := w.msgs ++ [.emptySpaceNonAligned o] }) hheld).mono
      rintro r w' ⟨-, hr, -, hmsgs⟩
      refine ⟨hr, hmsgs.trans ?_⟩
      simp [unlessQuiet, Cursor.at]

private theorem reports_done {cur : Cursor} (hg : Geometry c a) (hread : ¬ K.ReadFails c lnum a)
    (hvalid : isErr sleb = false) (hmsgs : w.msgs = base.msgs)
    (hhead : AtHead K.alloc sbuf c.lebSize a lnum base sleb its o v)
    (hend : RoundEnd K.alloc sbuf c.lebSize sleb o v.heap w.heap (.inr (.done cur))) :
    Returns (scanTail c lnum sbuf quiet sleb cur) w (Reports K sbuf c a lnum quiet base) := by
  obtain ⟨k, hk, hmin⟩ := hg.minIo
  have hdef := hg.modDefined o
  have hgrant := (hhead.grants 0).mpr trivial
  have hin := hhead.tiles.inside hg.inside
  obtain ⟨nodes, hheld, hrec, hcnt⟩ := hhead.held
  have hle := hin.le
  have hint := hin.int
  have hreport : ∀ {out msgs}, StopAt K sbuf c lnum quiet base.heap its o out msgs →
      Report K sbuf c a lnum quiet base.heap out msgs :=
    fun hstop => .stopped hread hhead.tiles hgrant hstop
  cases hend with
  | done hstop hheap =>
      rw [← hheap] at hheld hrec hcnt
      by_cases hdvd : c.minIoSize ∣ o
      · apply (returns_scanTail_of_mod hin.fits hheld hdef (Int.tmod_eq_zero_of_dvd hdvd)).mono
        rintro r w' ⟨found, is, hfound, -, -, htail⟩
        rw [hmsgs] at htail
        cases hfound with
        | empty hempty =>
            obtain ⟨hr, hmsgs', hheap'⟩ := htail
            subst r
            rw [show (Cursor.at c.lebSize o).offs = o from rfl,
              endpt_eq hk hmin hin.nonneg (by omega) hdvd] at hheap'
            have hempty' : EmptyFrom sbuf c.lebSize o := by
              intro i hi hi'
              apply hempty i hi
              simp only [Cursor.at]
              omega
            have hview : w'.heap.outcome sleb = .scanned (blockView sbuf lnum its o) := by
              have hheld' := hheld.ended o
              rw [← hheap'] at hheld'
              have hsleb : w'.heap.slebs sleb =
                  { ScanLeb.zero with lnum := lnum, nodesCnt := nodes.length, endpt := o } := by
                rw [hheap']
                simp [Heap.ended, hcnt]
              have hrec' : nodes.map w'.heap.snods = recorded sbuf its := by
                rw [hheap']
                exact hrec
              rw [Heap.outcome, hvalid, hheld'.view hrec' hsleb]
              rfl
            exact ⟨[], by rw [hmsgs', List.append_nil], hview ▸ hreport (.scanned hdvd hempty')⟩
        | @dirty n hlo hhi hempty hbyte =>
            obtain ⟨-, rfl, hmsgs'⟩ := htail
            simp only [Cursor.at] at hhi hbyte hempty
            have hmagic : chMagic sbuf o = 0xFFFFFFFF#32 := hstop.resolve_left (by omega)
            refine ⟨_, hmsgs', ?_⟩
            rw [Heap.outcome_errPtr _ (by decide) (by decide)]
            exact hreport (.dirty (p := o + n) hmagic hdvd (by omega) (by omega) hempty hbyte)
      · have hmod : o.tmod c.minIoSize ≠ 0 := fun hmod => hdvd (Int.dvd_of_tmod_eq_zero hmod)
        apply (returns_scanTail_unaligned hdef hmod hheld).mono
        rintro r w' ⟨rfl, hmsgs'⟩
        refine ⟨_, by rw [hmsgs', hmsgs], ?_⟩
        rw [Heap.outcome_errPtr _ (by decide) (by decide)]
        exact hreport (.unaligned hstop hdvd)

private theorem reports_corrupted {cur : Cursor} (hread : ¬ K.ReadFails c lnum a)
    (hmsgs : w.msgs = base.msgs ++ finding sbuf c.lebSize lnum o quiet)
    (hhead : AtHead K.alloc sbuf c.lebSize a lnum base sleb its o v)
    (hend : RoundEnd K.alloc sbuf c.lebSize sleb o v.heap w.heap (.inr (.corrupted cur))) :
    Returns (scanCorrupted c lnum quiet sleb cur) w (Reports K sbuf c a lnum quiet base) := by
  have hgrant := (hhead.grants 0).mpr trivial
  obtain ⟨nodes, hheld, -, -⟩ := hhead.held
  cases hend with
  | corrupted hlt hmagic hstuck hheap =>
      rw [← hheap] at hheld
      apply (returns_scanCorrupted _ hheld).mono
      rintro r w' ⟨-, rfl, -, hmsgs'⟩
      refine ⟨_, by rw [hmsgs', hmsgs, List.append_assoc], ?_⟩
      rw [Heap.outcome_errPtr _ (by decide) (by decide)]
      exact .stopped hread hhead.tiles hgrant (.damaged hlt hmagic hstuck)

private theorem reports_error {err : Int} (hread : ¬ K.ReadFails c lnum a)
    (hmsgs : w.msgs = base.msgs)
    (hhead : AtHead K.alloc sbuf c.lebSize a lnum base sleb its o v)
    (hend : RoundEnd K.alloc sbuf c.lebSize sleb o v.heap w.heap (.inr (.error err))) :
    Returns (scanError lnum sleb err) w (Reports K sbuf c a lnum quiet base) := by
  have hgrant := (hhead.grants 0).mpr trivial
  have hgrants := hhead.grants 1
  obtain ⟨nodes, hheld, -, -⟩ := hhead.held
  cases hend with
  | nomem hstep hkind hrefused hheap =>
      have hheld' := hheld.refused
      rw [← hheap] at hheld'
      apply (returns_scanError (-enomem) hheld').mono
      rintro r w' ⟨-, rfl, -, hmsgs'⟩
      refine ⟨_, by rw [hmsgs', hmsgs], ?_⟩
      rw [Heap.outcome_errPtr _ (by decide) (by decide)]
      exact .stopped hread hhead.tiles hgrant
        (.nomem hstep hkind fun hmore => hrefused (hgrants.mp hmore))

/-- **Every scan makes its report.** -/
theorem returns_ubifsScan_reports (base : World) (hg : Geometry c a)
    (herr : K.readError c lnum a = 0 ∨
      -4095 ≤ K.readError c lnum a ∧ K.readError c lnum a < 0)
    (hfit : SumsFit sbuf c.lebSize a) :
    Returns (ubifsScan K c lnum a sbuf quiet) base (Reports K sbuf c a lnum quiet base) := by
  have hin := hg.inside
  simp only [ubifsScan, returns_bind]
  apply ((returns_ubifsStartScan K c lnum a base).and_ensures
    (returns_ubifsStartScan_msgs K c lnum a base).ensures).mono
  rintro sleb w₁ ⟨⟨hreads, hstart⟩, hprinted, hsilent, hgranted⟩
  rw [returns_ite]
  rcases hstart with ⟨hread, hvalid, hgrant, hs⟩ | ⟨rfl, hrefused, hheap⟩ |
    ⟨hread, rfl, x, mid, hs, hheap⟩
  · have hmsgs := hsilent fun hbad => hread hbad.2
    have hhead : AtHead K.alloc sbuf c.lebSize a lnum base sleb [] a w₁ := hs.atHead hreads hgrant
    have hfits : ∀ its o v, Heads (scanRound K c lnum sbuf quiet sleb) (.at c.lebSize a, w₁)
        (.at c.lebSize o, v) → Tiles sbuf c.lebSize a its o → SkipFits sbuf c.lebSize o :=
      fun _ _ _ _ htiles => hfit.skipFits htiles
    rw [if_neg (by simp [hvalid]), returns_bind, Cursor.start_eq hin]
    apply (returns_scanLoop_last K quiet hin hhead hfits).mono
    rintro leave w₂ ⟨its, o, v, hheads, hat, hrun, hend, -⟩
    have hquiet := (msgs_of_heads hin hhead hfits hheads).trans hmsgs
    have hround := (returns_scanRound_msgs lnum quiet (hat.tiles.inside hin)
      (hfit.skipFits hat.tiles) v).of_run hrun
    rw [hquiet] at hround
    cases leave with
    | done cur => exact reports_done hg hread hvalid (by simpa [roundMsgs] using hround) hat hend
    | corrupted cur => exact reports_corrupted hread hround hat hend
    | error err => exact reports_error hread (by simpa [roundMsgs] using hround) hat hend
  · rw [if_pos (isErr_errPtr (by decide) (by decide)), returns_pure]
    have hmsgs := hsilent fun hbad => hrefused 0 hbad.1
    refine ⟨[], by rw [hmsgs, List.append_nil], ?_⟩
    rw [Heap.outcome_errPtr _ (by decide) (by decide)]
    exact .refused (hrefused 0)
  · have hbound : -4095 ≤ K.readError c lnum a ∧ K.readError c lnum a < 0 :=
      herr.resolve_left hread.1
    have hgrant := hgranted (hheap ▸ hs.failures)
    have hle := hg.le
    have h0 := hg.nonneg
    have hint := hg.int
    rw [if_pos (isErr_errPtr hbound.1 hbound.2), returns_pure]
    refine ⟨_, hprinted hgrant hread, ?_⟩
    rw [Heap.outcome_errPtr _ hbound.1 hbound.2, wrap32_of_fits (by omega) (by omega)]
    exact .unread hread hgrant

end Scan

end UbifsScan
