import UbifsScan.Refinement.Report
import UbifsScan.Results.Locality

/-!
# What the log says

The answer and the messages of every scan, from the block and the granted requests alone; and what
a report of corruption is good for: erased from the place it names, the block scans and keeps every
node before that place.
-/

namespace UbifsScan

open Mem Program

/-- **The report.** Of every scan, with any allocator and a flash read that answers 0 or an error
number, the answer and the messages are those of the one report of the block: where the reading of
the block stops and what is found there decide both, and so does whether the requests up to there
are granted. -/
theorem ubifsScan_reports (K : Env) (c : UbifsInfo) (lnum offs : Int) (sbuf : Mem) (quiet : Bool)
    (w : World) (hg : Geometry c offs) (hfit : SumsFit sbuf c.lebSize offs)
    (herr : K.readError c lnum offs = 0 ∨
      -4095 ≤ K.readError c lnum offs ∧ K.readError c lnum offs < 0) :
    Returns (ubifsScan K c lnum offs sbuf quiet) w fun r w' => ∃ msgs,
      w'.msgs = w.msgs ++ msgs ∧ ∀ out msgs',
        Report K sbuf c offs lnum quiet w.heap out msgs' ↔
          out = w'.heap.outcome r ∧ msgs' = msgs := by
  apply (returns_ubifsScan_reports w hg herr hfit).mono
  rintro r w' ⟨msgs, hmsgs, hreport⟩
  refine ⟨msgs, hmsgs, fun out msgs' => ⟨fun hreport' => hreport'.unique hg.inside hreport, ?_⟩⟩
  rintro ⟨rfl, rfl⟩
  exact hreport

/-- The sample block with a byte that is neither padding nor a header behind its node. -/
def sampleGarbled : Mem := fun i => if i = 40 then 0x00#8 else sampleLeb i

private theorem sample_garbled_tiles : Tiles sampleGarbled 96 0 [⟨.node, 0, 40⟩] 40 := by
  decide +kernel

private theorem sample_garbled_stuck : Steps.Stuck (ItemStep sampleGarbled 96) 40 := by
  refine stuck_of_not_header (fun n hn => ?_) (by decide +kernel)
  have hfirst := hn.first
  exact absurd hfirst (by decide)

private theorem sample_garbled_fits : SumsFit sampleGarbled 96 0 := by
  refine sumsFit_of_stuck (by decide) sample_garbled_tiles sample_garbled_stuck ?_
  intro hpad
  exact absurd hpad (by decide +kernel)

private theorem sample_garbled_run :
    ((ubifsScan (.harness .bump) sampleInfo 3 0 sampleGarbled false).run .boot).map
      (fun x => (x.2.heap.outcome x.1, x.2.msgs)) = some (.failed (-117),
        [.garbage, .corruption 3 40, .firstBytes 56 3 40, .scanningFailed 3]) := by
  decide +kernel

theorem sample_reports :
    scanOutcome (.harness .bump) sampleInfo 3 0 sampleGarbled false .boot =
        some (.failed (-117)) ∧
      Report (.harness .bump) sampleGarbled sampleInfo 0 3 false World.boot.heap (.failed (-117))
        [.garbage, .corruption 3 40, .firstBytes 56 3 40, .scanningFailed 3] := by
  obtain ⟨r, w', hrun, msgs, hmsgs, hreport⟩ := ubifsScan_reports (.harness .bump) sampleInfo 3 0
    sampleGarbled false .boot sample_geometry sample_garbled_fits (.inl rfl)
  have hsays := sample_garbled_run
  rw [hrun] at hsays
  obtain ⟨hout, hlog⟩ := Prod.mk.inj (Option.some.inj hsays)
  refine ⟨by rw [scanOutcome, hrun, Option.map_some, hout], (hreport _ _).mpr ⟨hout.symm, ?_⟩⟩
  rw [← hlog, hmsgs]
  rfl

/-- The block with its bytes from `p` on erased. -/
def erasedFrom (m : Mem) (p : Int) : Mem := fun i => if i < p then m i else 0xFF#8

section Repair

variable {K : Env} {m : Mem} {c : UbifsInfo} {a lnum p o : Int} {h : Heap} {out : Outcome}
  {msgs : List Msg} {its : List Item}

private theorem corruption_mem_report :
    Msg.corruption lnum p ∈ corruptionReport c lnum o ↔ p = o := by
  simp [corruptionReport]

private theorem not_finding {L : Int} {quiet : Bool} {msg : Msg}
    (hmsg : (∃ l q, msg = .corruption l q) ∨ ∃ l q, msg = .corruptEmptySpace l q) :
    msg ∉ finding m L lnum o quiet := by
  have hpad : msg ∉ padMsgs m L (L - o) lnum o quiet := by
    simp only [padMsgs]
    rcases hmsg with ⟨l, q, rfl⟩ | ⟨l, q, rfl⟩ <;> split_ifs <;> simp
  simp only [finding, List.mem_append, List.mem_singleton, not_or]
  refine ⟨hpad, ?_⟩
  rcases hmsg with ⟨l, q, rfl⟩ | ⟨l, q, rfl⟩ <;> split_ifs <;> simp

/-- The place that a report names is where the reading of the block stops, or lies behind it after
nothing but empty space. -/
private theorem Report.place (hr : Report K m c a lnum false h out msgs)
    (hmem : Msg.corruption lnum p ∈ msgs)
    (hplace : c.minIoSize ∣ p ∨ Msg.corruptEmptySpace lnum p ∈ msgs) :
    ∃ its o, Tiles m c.lebSize a its o ∧ o ≤ p ∧ c.minIoSize ∣ o ∧ EmptyFrom m p o := by
  have hself : ∀ o : Int, EmptyFrom m o o := fun o i hi hi' => by omega
  cases hr with
  | refused _ => simp at hmem
  | unread _ _ => simp at hmem
  | @stopped its o _ _ hread htiles hgrant hstop =>
      cases hstop with
      | nomem _ _ _ => simp at hmem
      | damaged hlt hmagic hstuck =>
          rw [List.mem_append] at hmem hplace
          obtain rfl := corruption_mem_report.mp
            (hmem.resolve_left (not_finding (.inl ⟨lnum, p, rfl⟩)))
          have hdvd : c.minIoSize ∣ p := by
            refine hplace.resolve_right ?_
            rintro (hin | hin)
            · exact not_finding (.inr ⟨lnum, p, rfl⟩) hin
            · simp [unlessQuiet, corruptionReport] at hin
          exact ⟨its, p, htiles, Int.le_refl p, hdvd, hself p⟩
      | unaligned hend hndvd =>
          simp only [unlessQuiet, Bool.false_eq_true, if_false, List.mem_cons, reduceCtorEq,
            false_or, corruption_mem_report] at hmem
          subst hmem
          have hno : Msg.corruptEmptySpace lnum p ∉ unlessQuiet false
              (.emptySpaceNonAligned p :: corruptionReport c lnum p) := by
            simp [unlessQuiet, corruptionReport]
          exact absurd (hplace.resolve_right hno) hndvd
      | @dirty q hmagic hdvd hlo hlt hempty hbyte =>
          simp only [unlessQuiet, Bool.false_eq_true, if_false, List.mem_cons, reduceCtorEq,
            false_or, corruption_mem_report] at hmem
          subst hmem
          exact ⟨its, o, htiles, hlo, hdvd, hempty⟩
      | scanned _ _ => simp at hmem

private theorem erased_decomposes (hg : Geometry c a) (htiles : Tiles m c.lebSize a its o)
    (hreads : ReadsBefore m c.lebSize a p) (hle : o ≤ p) (hdvd : c.minIoSize ∣ o)
    (hempty : EmptyFrom m p o) :
    Decomposes (erasedFrom m p) c a its o ∧ recorded (erasedFrom m p) its = recorded m its := by
  have hoL := htiles.le_end hg.leb hg.start hg.le
  have hff : ∀ i, o ≤ i → erasedFrom m p i = 0xFF#8 := by
    intro i hi
    by_cases hip : i < p
    · rw [erasedFrom, if_pos hip]
      exact hempty i hi hip
    · exact if_neg hip
  have hagree : AgreeOn m (erasedFrom m p) a p := fun i _ hi => if_pos hi
  have hcarry := tiles_resume hg.leb hg.start hg.le htiles hreads hoL hle hagree ?_
  · exact ⟨⟨hcarry.1, hoL, hdvd, fun i hi _ => hff i hi⟩, hcarry.2⟩
  · intro _ _ _ _
    right
    rw [hff o (Int.le_refl o)]
    decide

end Repair

/-- **Erasing at the reported place repairs the block.** When a scan reports corruption at `p`, and
`p` is a multiple of the I/O size or its complaint is corrupt empty space, the block erased from `p`
on scans, and lists the nodes of the block before `p`, all of which it still has. -/
theorem ubifsScan_repairs (K : Env) (A : Allocator) (c : UbifsInfo) (lnum offs p : Int)
    (sbuf : Mem) (quiet : Bool) (w w' u : World) (r : Addr) (hg : Geometry c offs)
    (hfit : SumsFit sbuf c.lebSize offs)
    (herr : K.readError c lnum offs = 0 ∨
      -4095 ≤ K.readError c lnum offs ∧ K.readError c lnum offs < 0)
    (hrun : (ubifsScan K c lnum offs sbuf false).run w = some (r, w'))
    (hreport : Msg.corruption lnum p ∈ w'.msgs.drop w.msgs.length)
    (hplace : c.minIoSize ∣ p ∨ Msg.corruptEmptySpace lnum p ∈ w'.msgs.drop w.msgs.length)
    (hreads : ReadsBefore sbuf c.lebSize offs p)
    (hA : AllocsSucceed (.harness A) c lnum offs (erasedFrom sbuf p) quiet u) :
    ∃ its o, Tiles sbuf c.lebSize offs its o ∧ o ≤ p ∧ EmptyFrom sbuf p o ∧
      scanOutcome (.harness A) c lnum offs (erasedFrom sbuf p) quiet u =
        some (.scanned (blockView sbuf lnum its o)) := by
  obtain ⟨msgs, hmsgs, hrep⟩ := (returns_ubifsScan_reports w hg herr hfit).of_run hrun
  rw [hmsgs, List.drop_left] at hreport hplace
  obtain ⟨its, o, htiles, hle, hdvd, hempty⟩ := hrep.place hreport hplace
  obtain ⟨hdec, hrec⟩ := erased_decomposes hg htiles hreads hle hdvd hempty
  refine ⟨its, o, htiles, hle, hempty, ?_⟩
  rw [scanOutcome_of_decomposes hg (hdec.sumsFit hg) hA hdec, blockView, hrec]
  rfl

theorem sample_repairs :
    scanOutcome (.harness .bump) sampleInfo 3 0 (erasedFrom sampleGarbled 40) true .boot =
      some (.scanned ⟨3, 40, 1, [scanNodeAt sampleGarbled 0]⟩) := by
  obtain ⟨⟨r, w'⟩, hrun, hsays⟩ := Option.map_eq_some_iff.mp sample_garbled_run
  have hmem : Msg.corruption 3 40 ∈ w'.msgs.drop World.boot.msgs.length := by
    rw [(Prod.mk.inj hsays).2]
    decide
  have hroomy : RoomyBefore sampleGarbled 96 0 40 :=
    roomyBefore_of_items sample_garbled_tiles (by decide +kernel)
  obtain ⟨its, o, htiles, -, hempty, hscan⟩ := ubifsScan_repairs (.harness .bump) .bump sampleInfo
    3 0 40 sampleGarbled true .boot w' .boot r sample_geometry sample_garbled_fits (.inl rfl) hrun
    hmem (.inl (by decide)) (hroomy.reads sample_garbled_tiles) (.of_count (by decide +kernel))
  obtain ⟨rest, hsplit, hrest⟩ := Steps.extends_of_stuck (itemStep_deterministic sampleGarbled 96)
    sample_garbled_tiles sample_garbled_stuck htiles
  cases its with
  | nil =>
      cases htiles
      exact absurd (hempty 0 (Int.le_refl 0) (by decide)) (by decide)
  | cons it its =>
      obtain ⟨rfl, hnil⟩ := List.cons.inj hsplit
      obtain ⟨rfl, rfl⟩ := List.append_eq_nil_iff.mp hnil.symm
      cases hrest
      rw [hscan]
      decide +kernel

end UbifsScan
