import UbifsScan.Refinement.Tail

/-!
# `ubifs_scan`

The scan as a whole refines the reading of the format: it returns scan information exactly when
the block decomposes, and then for that decomposition. On every other way out the heap is left as
it was found.
-/

namespace UbifsScan

open Mem Program

/-- The main loop of `ubifs_scan`, called in the world `w`, comes to a head. -/
def ScanHeads (K : Env) (c : UbifsInfo) (lnum offs : Int) (sbuf : Mem) (quiet : Bool) (w : World)
    (sleb : Addr) (head : Cursor × World) : Prop :=
  ∃ w₁, (ubifsStartScan K c lnum offs).run w = some (sleb, w₁) ∧ isErr sleb = false ∧
    Heads (scanRound K c lnum sbuf quiet sleb) (Cursor.start c offs, w₁) head

theorem Geometry.inside {c : UbifsInfo} {a : Int} (hg : Geometry c a) : Inside c.lebSize a :=
  ⟨hg.nonneg, hg.le, hg.start, hg.leb, hg.int⟩

theorem Geometry.modDefined {c : UbifsInfo} {a : Int} (hg : Geometry c a) (o : Int) :
    ModDefined o c.minIoSize := by
  obtain ⟨k, -, hmin⟩ := hg.minIo
  apply ModDefined.of_pos
  rw [hmin]
  positivity

theorem Cursor.start_eq {c : UbifsInfo} {a : Int} (hin : Inside c.lebSize a) :
    Cursor.start c a = .at c.lebSize a := by
  have h0 := hin.nonneg
  have hle := hin.le
  have hint := hin.int
  simp only [Cursor.start, Cursor.at]
  rw [wrap32_of_fits (by omega) (by omega)]

theorem Inside.fits {L o : Int} (hin : Inside L o) : (Cursor.at L o).Fits := by
  have h0 := hin.nonneg
  have hle := hin.le
  have hint := hin.int
  refine ⟨?_, ?_, ?_, ?_⟩
  all_goals
    simp only [Cursor.at]
    omega

theorem scanHeads_at {K : Env} {c : UbifsInfo} {lnum offs : Int} {sbuf : Mem} {quiet : Bool}
    {w w₁ : World} {sleb : Addr} {head : Cursor × World} (hin : Inside c.lebSize offs)
    (hrun : (ubifsStartScan K c lnum offs).run w = some (sleb, w₁)) (hvalid : isErr sleb = false)
    (h : Heads (scanRound K c lnum sbuf quiet sleb) (.at c.lebSize offs, w₁) head) :
    ScanHeads K c lnum offs sbuf quiet w sleb head := by
  rw [← Cursor.start_eq hin] at h
  exact ⟨w₁, hrun, hvalid, h⟩

/-- How `ubifs_scan` ends. -/
inductive ScanEnd (K : Env) (m : Mem) (c : UbifsInfo) (a lnum : Int) (h h' : Heap) : Addr → Prop
  | scanned {its : List Item} {e : Int} {nodes : List Addr} {sleb : Addr}
      (hread : ¬ K.ReadFails c lnum a) (hdec : Decomposes m c a its e)
      (hgrant : h.GrantsAfter K.alloc its 0) (hvalid : isErr sleb = false)
      (hheld : Held h sleb nodes h') (hrec : nodes.map h'.snods = recorded m its)
      (hsleb : h'.slebs sleb =
        { ScanLeb.zero with lnum := lnum, nodesCnt := nodes.length, endpt := e })
      (hgrown : Heap.Grown h h') (hfail : h'.failures = h.failures) :
      ScanEnd K m c a lnum h h' sleb
  | corrupted (hread : ¬ K.ReadFails c lnum a) (hno : ∀ its e, ¬ Decomposes m c a its e)
      (hrel : Released h h') (hfail : h'.failures = h.failures) :
      ScanEnd K m c a lnum h h' (errPtr (-euclean))
  | nomem (hread : h.Grants K.alloc 1 → ¬ K.ReadFails c lnum a) (hrel : Released h h')
      (hfail : h'.failures = h.failures + 1) :
      ScanEnd K m c a lnum h h' (errPtr (-enomem))
  | unread (hread : K.ReadFails c lnum a) (hrel : Released h h')
      (hfail : h'.failures = h.failures) :
      ScanEnd K m c a lnum h h' (errPtr (K.readError c lnum a))

/-- Every place that the items lead to, and that the granted requests let the scan come to, was
looked at. -/
def ScanTouched (A : Allocator) (h : Heap) (m : Mem) (L a : Int) (is : List Int) : Prop :=
  ∀ its o, Tiles m L a its o → Touched (h.GrantsAfter A its) m L o is

section Scan

variable {K : Env} {c : UbifsInfo} {sbuf : Mem} {a lnum o e : Int} {base w w' : World}
  {sleb : Addr} {its : List Item} {quiet : Bool} {nodes : List Addr} {h : Heap}

/-- What `ubifs_scanned_corruption` and the label `corrupted` print for the place `offs`. -/
def corruptionReport (c : UbifsInfo) (lnum offs : Int) : List Msg :=
  let len := wrap32 (c.lebSize - offs)
  [.corruption lnum offs, .firstBytes (if len > 8192 then 8192 else len) lnum offs,
    .scanningFailed lnum]

private theorem ensures_destroyed (sleb r : Addr) (w : World) :
    Ensures (do ubifsScanDestroy sleb; return r) w fun r' w' =>
      r' = r ∧ w'.reads = w.reads ∧ w'.msgs = w.msgs := by
  have hkeeps : Ensures (ubifsScanDestroy sleb) w fun _ w' =>
      (w'.reads, w'.msgs) = (w.reads, w.msgs) :=
    ensures_ubifsScanDestroy_keeps (fun v => (v.reads, v.msgs)) (fun _ _ => rfl) w
  refine ensures_bind (hkeeps.mono fun _ w' h => ensures_pure ⟨rfl, ?_, ?_⟩)
  · exact congrArg Prod.fst h
  · exact congrArg Prod.snd h

theorem ensures_scanCorrupted (c : UbifsInfo) (lnum : Int) (quiet : Bool) (sleb : Addr)
    (cur : Cursor) (w : World) :
    Ensures (scanCorrupted c lnum quiet sleb cur) w fun r w' =>
      r = errPtr (-euclean) ∧ w'.reads = w.reads ∧
        w'.msgs = w.msgs ++ if quiet then [] else corruptionReport c lnum cur.offs := by
  cases quiet with
  | true =>
      refine (ensures_destroyed sleb (errPtr (-euclean)) w).mono fun r w' h => ?_
      simpa using h
  | false =>
      intro r w' hrun
      have h := ensures_destroyed sleb (errPtr (-euclean))
        { w with msgs := w.msgs ++ [.corruption lnum cur.offs] ++
          [.firstBytes _ lnum cur.offs] ++ [.scanningFailed lnum] } r w' hrun
      simpa [corruptionReport] using h

theorem ensures_scanError (lnum : Int) (sleb : Addr) (err : Int) (w : World) :
    Ensures (scanError lnum sleb err) w fun r w' => r = errPtr err ∧ w'.reads = w.reads ∧
      w'.msgs = w.msgs ++ [.scanningFailedError lnum err] := by
  intro r w' hrun
  exact ensures_destroyed sleb (errPtr err)
    { w with msgs := w.msgs ++ [.scanningFailedError lnum err] } r w' hrun

theorem returns_scanCorrupted (cur : Cursor) (hheld : Held h sleb nodes w.heap) :
    Returns (scanCorrupted c lnum quiet sleb cur) w fun r w' =>
      Destroyed h w.heap w'.heap ∧ r = errPtr (-euclean) ∧ w'.reads = w.reads ∧
        w'.msgs = w.msgs ++ if quiet then [] else corruptionReport c lnum cur.offs := by
  have hdestroy : ∀ msgs, Returns (ubifsScanDestroy sleb) { w with msgs := msgs } fun _ w' =>
      Destroyed h w.heap w'.heap :=
    fun msgs => returns_ubifsScanDestroy (w := { w with msgs := msgs }) hheld
  refine Returns.and_ensures ?_ (ensures_scanCorrupted c lnum quiet sleb cur w)
  simp only [scanCorrupted, ubifsScannedCorruption, returns_bind, returns_ite, returns_ubifsErr,
    returns_pure]
  split
  · exact hdestroy _
  · exact hdestroy w.msgs

theorem returns_scanError (err : Int) (hheld : Held h sleb nodes w.heap) :
    Returns (scanError lnum sleb err) w fun r w' =>
      Destroyed h w.heap w'.heap ∧ r = errPtr err ∧ w'.reads = w.reads ∧
        w'.msgs = w.msgs ++ [.scanningFailedError lnum err] := by
  refine Returns.and_ensures ?_ (ensures_scanError lnum sleb err w)
  simp only [scanError, returns_bind, returns_ubifsErr, returns_pure]
  exact returns_ubifsScanDestroy
    (w := { w with msgs := w.msgs ++ [.scanningFailedError lnum err] }) hheld

/-- How the tail of `ubifs_scan` at `o` ends. -/
inductive TailEnd (m : Mem) (c : UbifsInfo) (base : Heap) (o : Int) (sleb : Addr)
    (h h' : Heap) : Addr → Prop
  | scanned (hdvd : c.minIoSize ∣ o) (hempty : EmptyFrom m c.lebSize o)
      (hheap : h' = h.ended sleb o) : TailEnd m c base o sleb h h' sleb
  | corrupted (hno : ¬ (c.minIoSize ∣ o ∧ EmptyFrom m c.lebSize o))
      (hd : Destroyed base h h') : TailEnd m c base o sleb h h' (errPtr (-euclean))

theorem returns_scanTail_of_mod {cur : Cursor} (hfits : cur.Fits)
    (hheld : Held h sleb nodes w.heap) (hdef : ModDefined cur.offs c.minIoSize)
    (hmod : cur.offs.tmod c.minIoSize = 0) :
    Returns (scanTail c lnum sbuf quiet sleb cur) w fun r w' =>
      ∃ found is, Found sbuf cur found ∧ w'.reads = w.reads ++ is ∧ Within is cur.buf cur.len ∧
        match found with
        | none => r = sleb ∧ w'.msgs = w.msgs ∧
            w'.heap = w.heap.ended sleb (endptOf c cur.offs)
        | some cur' => Destroyed h w.heap w'.heap ∧ r = errPtr (-euclean) ∧
            w'.msgs = w.msgs ++ if quiet then [] else
              .corruptEmptySpace lnum cur'.offs :: corruptionReport c lnum cur'.offs := by
  simp only [scanTail, returns_bind, returns_cMod hdef, hmod, ne_eq, not_true_eq_false, if_false]
  apply (returns_ubifsEndScan hdef hmod).mono
  rintro ⟨⟩ w₁ hend
  have hheap₁ := congrArg World.heap hend
  have hreads₁ : w₁.reads = w.reads := hend ▸ rfl
  have hmsgs₁ : w₁.msgs = w.msgs := hend ▸ rfl
  have hkeeps := ensures_tailLoops_keeps World.msgs (fun _ _ => rfl) sbuf cur w₁
  apply ((returns_tailLoops hfits w₁).and_ensures hkeeps).mono
  rintro cur' w₂ ⟨hbytes, hkeeps'⟩
  apply (hbytes.and_ensures hkeeps').mono
  rintro found w₃ ⟨⟨hfound, is, hobs, hwithin⟩, hmsgs⟩
  have hheap : w₃.heap = w.heap.ended sleb _ := hobs.heap.trans hheap₁
  have hreads : w₃.reads = w.reads ++ is := hreads₁ ▸ hobs.reads
  rw [hmsgs₁] at hmsgs
  cases found with
  | none =>
      rw [returns_pure]
      exact ⟨none, is, hfound, hreads, hwithin, rfl, hmsgs, hheap⟩
  | some cur'' =>
      have hheld₃ : Held h sleb nodes w₃.heap := hheap ▸ hheld.ended _
      have hshrunk : Heap.Shrunk w.heap w₃.heap :=
        hheap ▸ ⟨_, hheld.trace_ended _, by simp⟩
      have hfail : w₃.heap.failures = w.heap.failures := hheap ▸ rfl
      simp only [returns_ite, returns_bind, returns_ubifsErr]
      cases quiet with
      | true =>
          apply (returns_scanCorrupted cur'' hheld₃).mono
          rintro r w' ⟨hd, hr, hreads', hmsgs'⟩
          exact ⟨some cur'', is, hfound, hreads'.trans hreads, hwithin, hd.of_shrunk hshrunk hfail,
            hr, by rw [hmsgs', hmsgs]; rfl⟩
      | false =>
          apply (returns_scanCorrupted cur'' (w := { w₃ with
            msgs := w₃.msgs ++ [.corruptEmptySpace lnum cur''.offs] }) hheld₃).mono
          rintro r w' ⟨hd, hr, hreads', hmsgs'⟩
          exact ⟨some cur'', is, hfound, hreads'.trans hreads, hwithin, hd.of_shrunk hshrunk hfail,
            hr, by rw [hmsgs', hmsgs]; simp⟩

theorem returns_scanTail (hg : Geometry c a) (hin : Inside c.lebSize o)
    (hheld : Held h sleb nodes w.heap) :
    Returns (scanTail c lnum sbuf quiet sleb (.at c.lebSize o)) w fun r w' =>
      TailEnd sbuf c h o sleb w.heap w'.heap r ∧
        ∃ is, w'.reads = w.reads ++ is ∧ Within is o (c.lebSize - o) := by
  obtain ⟨k, hk, hmin⟩ := hg.minIo
  have hdef := hg.modDefined o
  have hle := hin.le
  have hint := hin.int
  by_cases hdvd : c.minIoSize ∣ o
  · have hmod : (Cursor.at c.lebSize o).offs.tmod c.minIoSize = 0 :=
      Int.tmod_eq_zero_of_dvd hdvd
    apply (returns_scanTail_of_mod hin.fits hheld hdef hmod).mono
    rintro r w' ⟨found, is, hfound, hreads, hwithin, hend⟩
    refine ⟨?_, is, hreads, hwithin⟩
    cases hfound with
    | empty hempty =>
        obtain ⟨rfl, -, hheap⟩ := hend
        rw [show (Cursor.at c.lebSize o).offs = o from rfl,
          endpt_eq hk hmin hin.nonneg (by omega) hdvd] at hheap
        refine .scanned hdvd (fun i hi hi' => hempty i hi ?_) hheap
        simp only [Cursor.at]
        omega
    | @dirty n hlo hhi hempty hbyte =>
        obtain ⟨hd, rfl, -⟩ := hend
        refine .corrupted (fun hdec => ?_) hd
        simp only [Cursor.at] at hhi hbyte
        exact hbyte (hdec.2 _ (by omega) (by omega))
  · have hmod : o.tmod c.minIoSize ≠ 0 := fun hmod => hdvd (Int.dvd_of_tmod_eq_zero hmod)
    have hcorrupt : ∀ msgs, Returns (scanCorrupted c lnum quiet sleb (.at c.lebSize o))
        { w with msgs := msgs } fun r w' => TailEnd sbuf c h o sleb w.heap w'.heap r ∧
          ∃ is, w'.reads = w.reads ++ is ∧ Within is o (c.lebSize - o) := by
      intro msgs
      apply (returns_scanCorrupted _ (w := { w with msgs := msgs }) hheld).mono
      rintro r w' ⟨hd, rfl, hreads, -⟩
      exact ⟨.corrupted (fun hdec => hdvd hdec.1) hd, [], by simp [hreads], by simp [Within]⟩
    simp only [scanTail, returns_bind, returns_cMod hdef, returns_ite, Cursor.at, hmod, ne_eq,
      not_false_eq_true, if_true, returns_ubifsErr]
    split
    · exact hcorrupt _
    · exact hcorrupt w.msgs

theorem stuck_of_done (hin : Inside c.lebSize o)
    (hend : o = c.lebSize ∨ chMagic sbuf o = 0xFFFFFFFF#32) :
    Steps.Stuck (ItemStep sbuf c.lebSize) o := by
  intro it o' hstep
  have hpos := hstep.2.1.size_pos
  have hnext := (hin.step hstep).le
  have ho' := hstep.2.2
  rcases hend with hend | hmagic
  · omega
  · have hfirst := hstep.2.1.first_ne
    rw [hstep.1] at hfirst
    exact hfirst (chMagic_empty_iff.mp hmagic o (by omega) (by omega))

private theorem decomposes_end (hg : Geometry c a) (htiles : Tiles sbuf c.lebSize a its o)
    (hstuck : Steps.Stuck (ItemStep sbuf c.lebSize) o) {its' : List Item}
    (hdec : Decomposes sbuf c a its' e) : its' = its ∧ e = o := by
  have he := hdec.tiles.aligned hg.start
  exact Steps.unique_of_stuck (itemStep_deterministic sbuf c.lebSize) hdec.tiles
    (stuck_of_empty hg.leb he hdec.le hdec.empty) htiles hstuck

/-- A last round completes the bytes read: an item behind it is a node whose request is refused. -/
private theorem touched_all {is js : List Int}
    (hhead : AtHead K.alloc sbuf c.lebSize a lnum base sleb its o w)
    (hreads : LoopReads K.alloc base.heap sbuf c.lebSize a its is)
    (hlast : Touched (w.heap.Grants K.alloc) sbuf c.lebSize o js)
    (hstop : ∀ it o', ItemStep sbuf c.lebSize o it o' →
      it.kind = .node ∧ ¬ w.heap.Grants K.alloc 1) :
    ScanTouched K.alloc base.heap sbuf c.lebSize a (is ++ js) := by
  intro its' o' h
  rcases Steps.comparable (itemStep_deterministic sbuf c.lebSize) hhead.tiles h with
    ⟨rest, rfl, hrest⟩ | ⟨rest, rfl, hrest⟩
  · cases hrest with
    | nil =>
        rw [List.append_nil]
        exact hlast.imp (fun n => (hhead.grants n).mp) (by simp)
    | @cons _ p _ it rest hstep _ =>
        obtain ⟨hkind, hrefused⟩ := hstop it p hstep
        have hnone : ∀ n, ¬ base.heap.GrantsAfter K.alloc (its ++ it :: rest) n := by
          intro n hgrant
          apply hrefused
          rw [← hhead.grants 1]
          apply hgrant.mono
          simp only [nodesIn, List.countP_append, List.countP_cons, hkind, decide_true, if_true]
          omega
        exact ⟨fun hgrant => absurd hgrant (hnone 0), fun hgrant => absurd hgrant (hnone 1)⟩
  · cases hrest with
    | nil =>
        exact hlast.imp (fun n hgrant => (hhead.grants n).mp (by rwa [List.append_nil])) (by simp)
    | @cons _ p _ it rest hstep _ =>
        have ht := hreads.touched its' it rest rfl
        rw [hstep.1] at ht
        exact ht.mono (by simp)

/-- What a scan from `base` promises when it returns `r`. -/
def ScanSpec (K : Env) (m : Mem) (c : UbifsInfo) (a lnum : Int) (base : World) (r : Addr)
    (w' : World) : Prop :=
  ∃ is, w'.reads = base.reads ++ is ∧ ScanReads K.alloc base.heap m c.lebSize a is ∧
    (¬ K.ReadFails c lnum a → ScanTouched K.alloc base.heap m c.lebSize a is) ∧
    ScanEnd K m c a lnum base.heap w'.heap r

variable {v : World}

private theorem returns_done {cur : Cursor} (hg : Geometry c a) (hread : ¬ K.ReadFails c lnum a)
    (hvalid : isErr sleb = false)
    (hhead : AtHead K.alloc sbuf c.lebSize a lnum base sleb its o v)
    (hround : RoundSpec K.alloc sbuf c.lebSize sleb o v (.inr (.done cur)) w) :
    Returns (scanTail c lnum sbuf quiet sleb cur) w (ScanSpec K sbuf c a lnum base) := by
  obtain ⟨hend, js, hjs, hlast, htouch⟩ := hround
  obtain ⟨is, his, hreads⟩ := hhead.reads
  have hall := hhead.scanReads hreads.within hlast
  have htouched := touched_all hhead hreads htouch
  have hgrant := (hhead.grants 0).mpr trivial
  obtain ⟨htiles, ⟨nodes, hheld, hrec, hcnt⟩, hgrown, hfail, -, -⟩ := hhead
  have hin := htiles.inside hg.inside
  cases hend with
  | done hstop hheap =>
      have hstuck := stuck_of_done hin hstop
      have htouched' := htouched fun it o' hstep => absurd hstep (hstuck it o')
      rw [← hheap] at hheld hgrown hfail hrec hcnt
      apply (returns_scanTail hg hin hheld).mono
      rintro r w' ⟨htail, ks, hks, hwithin⟩
      refine ⟨is ++ js ++ ks, by rw [hks, hjs, his]; simp, ?_, fun _ its' o' h => ?_, ?_⟩
      · intro i hi
        rcases List.mem_append.mp hi with hi | hi
        · exact hall i hi
        · have h := hwithin i hi
          have ha := htiles.le
          exact ⟨by omega, .inl (by omega)⟩
      · exact (htouched' its' o' h).mono (by simp)
      · cases htail with
        | scanned hdvd hempty hheap' =>
            have hheld' := hheld.ended o
            have hgrown' : Heap.Grown base.heap (w.heap.ended sleb o) :=
              hgrown.trans ⟨_, hheld.trace_ended o, by simp⟩
            rw [← hheap'] at hheld' hgrown'
            refine .scanned hread ⟨htiles, hin.le, hdvd, hempty⟩ hgrant hvalid hheld' ?_ ?_ hgrown'
              ?_
            · rw [hheap']
              exact hrec
            · rw [hheap']
              simp [Heap.ended, hcnt]
            · rw [hheap']
              exact hfail
        | corrupted hno hd =>
            refine .corrupted hread ?_ (hd.released hgrown) (hd.failures.trans hfail)
            intro its' e' hdec
            obtain ⟨-, rfl⟩ := decomposes_end hg htiles hstuck hdec
            exact hno ⟨hdec.aligned, hdec.empty⟩

private theorem returns_corrupted {cur : Cursor} (hg : Geometry c a)
    (hread : ¬ K.ReadFails c lnum a)
    (hhead : AtHead K.alloc sbuf c.lebSize a lnum base sleb its o v)
    (hround : RoundSpec K.alloc sbuf c.lebSize sleb o v (.inr (.corrupted cur)) w) :
    Returns (scanCorrupted c lnum quiet sleb cur) w (ScanSpec K sbuf c a lnum base) := by
  obtain ⟨hend, js, hjs, hlast, htouch⟩ := hround
  obtain ⟨is, his, hreads⟩ := hhead.reads
  have hall := hhead.scanReads hreads.within hlast
  have htouched := touched_all hhead hreads htouch
  obtain ⟨htiles, ⟨nodes, hheld, -, -⟩, hgrown, hfail, -, -⟩ := hhead
  have h8 := htiles.aligned hg.start
  have hL := hg.leb
  cases hend with
  | corrupted hlt hmagic hstuck hheap =>
      rw [← hheap] at hheld hgrown hfail
      apply (returns_scanCorrupted _ hheld).mono
      rintro r w' ⟨hd, rfl, hr, -⟩
      refine ⟨is ++ js, by rw [hr, hjs, his]; simp, hall, fun _ => ?_,
        .corrupted hread ?_ (hd.released hgrown) (hd.failures.trans hfail)⟩
      · exact htouched fun it o' hstep => absurd hstep (hstuck it o')
      · intro its' e' hdec
        obtain ⟨-, rfl⟩ := decomposes_end hg htiles hstuck hdec
        exact hmagic (chMagic_empty_iff.mpr fun i hi hi' => hdec.empty i hi (by omega))

private theorem returns_error {err : Int} (hread : ¬ K.ReadFails c lnum a)
    (hhead : AtHead K.alloc sbuf c.lebSize a lnum base sleb its o v)
    (hround : RoundSpec K.alloc sbuf c.lebSize sleb o v (.inr (.error err)) w) :
    Returns (scanError lnum sleb err) w (ScanSpec K sbuf c a lnum base) := by
  obtain ⟨hend, js, hjs, hlast, htouch⟩ := hround
  obtain ⟨is, his, hreads⟩ := hhead.reads
  have hall := hhead.scanReads hreads.within hlast
  have htouched := touched_all hhead hreads htouch
  obtain ⟨htiles, ⟨nodes, hheld, -, -⟩, hgrown, hfail, -, -⟩ := hhead
  cases hend with
  | nomem hstep hkind hrefused hheap =>
      have hheld' := hheld.refused
      have hgrown' := hgrown.refused
      rw [← hheap] at hheld' hgrown'
      apply (returns_scanError (-enomem) hheld').mono
      rintro r w' ⟨hd, rfl, hr, -⟩
      refine ⟨is ++ js, by rw [hr, hjs, his]; simp, hall, fun _ => ?_,
        .nomem (fun _ => hread) (hd.released hgrown') ?_⟩
      · refine htouched fun it o' hstep' => ?_
        obtain ⟨rfl, -⟩ := itemStep_deterministic sbuf c.lebSize _ _ _ _ _ hstep hstep'
        exact ⟨hkind, hrefused⟩
      · rw [hd.failures, hheap, ← hfail]
        rfl

/-- **`ubifs_scan`**, from any world and with any allocator: it always returns, and in one of four
ways. -/
theorem returns_ubifsScan (hg : Geometry c a)
    (herr : K.readError c lnum a = 0 ∨
      -4095 ≤ K.readError c lnum a ∧ K.readError c lnum a < 0)
    (hfit : ∀ its o sleb v, ScanHeads K c lnum a sbuf quiet base sleb (.at c.lebSize o, v) →
      Tiles sbuf c.lebSize a its o → SkipFits sbuf c.lebSize o) :
    Returns (ubifsScan K c lnum a sbuf quiet) base (ScanSpec K sbuf c a lnum base) := by
  simp only [ubifsScan, returns_bind]
  obtain ⟨sleb, w₁, hrun, hreads, hstart⟩ := returns_ubifsStartScan K c lnum a base
  refine ⟨sleb, w₁, hrun, ?_⟩
  beta_reduce
  rw [returns_ite]
  have hnil : ScanReads K.alloc base.heap sbuf c.lebSize a [] := by simp [ScanReads]
  rcases hstart with ⟨hread, hvalid, hgrant, hs⟩ | ⟨rfl, hrefused, hheap⟩ |
    ⟨hread, rfl, x, mid, hs, hheap⟩
  · have hin := hg.inside
    have hhead : AtHead K.alloc sbuf c.lebSize a lnum base sleb [] a w₁ := hs.atHead hreads hgrant
    have hloop := returns_scanLoop K quiet hin hhead
      (fun its o v hheads => hfit its o sleb v (scanHeads_at hin hrun hvalid hheads))
    rw [if_neg (by simp [hvalid]), returns_bind, Cursor.start_eq hin]
    apply hloop.mono
    rintro leave w₂ ⟨its, o, v, hat, hround⟩
    cases leave with
    | done cur => exact returns_done hg hread hvalid hat hround
    | corrupted cur => exact returns_corrupted hg hread hat hround
    | error err => exact returns_error hread hat hround
  · rw [if_pos (isErr_errPtr (by decide) (by decide)), returns_pure]
    refine ⟨[], by simp [hreads], hnil, fun _ its o _ => ?_,
      .nomem (fun hgrant => absurd hgrant (hrefused 0)) ?_ ?_⟩
    · have hnone : ∀ n, ¬ base.heap.GrantsAfter K.alloc its n := by
        intro n hgrant
        rw [Heap.GrantsAfter, Nat.add_right_comm] at hgrant
        exact hrefused _ hgrant
      exact ⟨fun hgrant => absurd hgrant (hnone 0), fun hgrant => absurd hgrant (hnone 1)⟩
    · rw [hheap]
      exact .refused base.heap
    · rw [hheap]
      rfl
  · have hbound : -4095 ≤ K.readError c lnum a ∧ K.readError c lnum a < 0 :=
      herr.resolve_left hread.1
    rw [if_pos (isErr_errPtr hbound.1 hbound.2), returns_pure]
    refine ⟨[], by simp [hreads], hnil, fun hno => absurd hread hno, .unread hread ?_ ?_⟩
    · rw [hheap]
      exact .of_held hs.held hs.grown
    · rw [hheap]
      exact hs.failures

end Scan

end UbifsScan
