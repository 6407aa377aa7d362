import UbifsScan.Framework.Footprint
import UbifsScan.Results.Acceptance

/-!
# What a scan depends on

A scan depends on its buffer through the bytes that it reads and on nothing else: it does not
depend on the other bytes, on what was printed before, on the statics of the CRC or on `quiet`.
-/

namespace UbifsScan

open Mem Program

/-- Two scans are compared by the heap and by the bytes that they read. -/
def scanObserver : Observer World Heap Int := ⟨World.heap, World.reads⟩

/-- The buffers hold the same byte at `i`. -/
def SameByte (m m' : Mem) (i : Int) : Prop := m' i = m i

section

variable {m m' : Mem}

private abbrev Tracks {α : Type} (m m' : Mem) (q p : Program World α) : Prop :=
  Follows scanObserver (SameByte m m') q p

private theorem tracks_read {α : Type} (is : List Int) {v v' : α}
    (hv : (∀ i ∈ is, SameByte m m' i) → v' = v) :
    Tracks m m' (do modify (·.see is); return v') (do modify (·.see is); return v) := by
  intro s t hcore a s' hrun
  obtain ⟨rfl, rfl⟩ := Prod.mk.inj (Option.some.inj hrun)
  refine ⟨is, rfl, fun hsame => ⟨t.see is, ?_, hcore, rfl⟩⟩
  rw [hv hsame]
  rfl

private theorem agreeOn_of_span {p : Int} {n : Nat} (h : ∀ i ∈ span p n, SameByte m m' i) :
    AgreeOn m m' p (p + n) := fun i hlo hhi => h i (mem_span.mpr ⟨hlo, hhi⟩)

private theorem tracks_readByte (p : Int) : Tracks m m' (readByte m' p) (readByte m p) :=
  tracks_read (span p 1) fun h => agreeOn_of_span h p (by omega) (by omega)

private theorem tracks_readLe32 (p : Int) : Tracks m m' (readLe32 m' p) (readLe32 m p) :=
  tracks_read (span p 4) fun h => le32_congr (agreeOn_of_span h)

private theorem tracks_readLe64 (p : Int) : Tracks m m' (readLe64 m' p) (readLe64 m p) :=
  tracks_read (span p 8) fun h => le64_congr (agreeOn_of_span h)

private theorem tracks_readBytes (p : Int) (n : Nat) :
    Tracks m m' (readBytes m' p n) (readBytes m p n) :=
  tracks_read (span p n) fun h => bytesAt_congr (agreeOn_of_span h)

private theorem silent_ubifsErr (msg : Msg) : Silent scanObserver (ubifsErr msg) := fun w =>
  ⟨{ w with msgs := w.msgs ++ [msg] }, rfl, rfl, rfl⟩

private theorem tracks_ubifsErr (msg : Msg) : Tracks m m' (ubifsErr msg) (ubifsErr msg) :=
  follows_silent (silent_ubifsErr msg) (silent_ubifsErr msg)

private theorem tracks_callCrc32 (buf : List Byte) :
    Tracks m m' (callCrc32 buf) (callCrc32 buf) := by
  intro s t hcore a s' hrun
  obtain ⟨rfl, rfl⟩ := Prod.mk.inj (Option.some.inj hrun)
  have hvalue : (utCrc32 t.crc.val buf).1 = (utCrc32 s.crc.val buf).1 := by
    rw [utCrc32_fst t.crc.property, utCrc32_fst s.crc.property]
  let t' : World := { t with crc := ⟨(utCrc32 t.crc.val buf).2, utCrc32_lazy t.crc.property buf⟩ }
  refine ⟨[], by simp [scanObserver], fun _ => ⟨t', ?_, hcore, by simp [scanObserver, t']⟩⟩
  rw [← hvalue]
  rfl

private theorem tracks_onHeap {α : Type} (p : Program Heap α) :
    Tracks m m' (onHeap p) (onHeap p) := by
  refine follows_zoom ?_ ?_ p
  · exact fun _ _ => rfl
  · exact fun _ _ => rfl

private theorem tracks_onCells {α : Type} (p : Program (Cells Addr) α) :
    Tracks m m' (onCells p) (onCells p) := tracks_onHeap _

private theorem tracks_setSleb (a : Addr) (f : ScanLeb → ScanLeb) :
    Tracks m m' (setSleb a f) (setSleb a f) := tracks_onHeap _

private theorem tracks_setSnod (a : Addr) (f : ScanNode → ScanNode) :
    Tracks m m' (setSnod a f) (setSnod a f) := tracks_onHeap _

private theorem tracks_kmallocObj (A : Allocator) :
    Tracks m m' (kmallocObj A) (kmallocObj A) := by
  refine follows_get fun s t hcore => ?_
  have hheap : t.heap = s.heap := hcore
  rw [hheap]
  cases A.pick s.heap.attempts s.heap.live with
  | some a => exact follows_bind (tracks_onHeap _) (fun _ => follows_pure a) s t hcore
  | none => exact follows_bind (tracks_onHeap _) (fun _ => follows_pure 0) s t hcore

private theorem tracks_kzallocScanLeb (A : Allocator) :
    Tracks m m' (kzallocScanLeb A) (kzallocScanLeb A) := by
  refine follows_bind (tracks_kmallocObj A) fun a => follows_ite ?_ (follows_pure a)
  exact follows_bind (tracks_onHeap _) fun _ => follows_pure a

private theorem tracks_destroyRound (sleb : Addr) (x : Unit) :
    Tracks m m' (destroyRound sleb x) (destroyRound sleb x) := by
  refine follows_bind (tracks_onCells _) fun empty => follows_ite (follows_pure _) ?_
  refine follows_bind (tracks_onCells _) fun node => ?_
  refine follows_bind (tracks_onCells _) fun _ => ?_
  exact follows_bind (tracks_onHeap _) fun _ => follows_pure _

private theorem tracks_ubifsScanDestroy (sleb : Addr) :
    Tracks m m' (ubifsScanDestroy sleb) (ubifsScanDestroy sleb) := by
  refine follows_get fun s t hcore => ?_
  have hheap : t.heap = s.heap := hcore
  rw [hheap]
  exact follows_bind (follows_iterate (tracks_destroyRound sleb) _ ())
    (fun _ => tracks_onHeap _) s t hcore

private theorem tracks_cMod (a b : Int) : Tracks m m' (cMod a b) (cMod a b) := by
  unfold cMod
  exact follows_ite (follows_pure _) (follows_failure _)

private theorem tracks_ubifsCheckNode (buf len : Int) :
    Tracks m m' (ubifsCheckNode m' buf len) (ubifsCheckNode m buf len) := by
  refine follows_bind (tracks_readLe32 _) fun v => follows_ite (follows_pure _) ?_
  refine follows_bind (tracks_readBytes _ _) fun bs => ?_
  refine follows_bind (tracks_callCrc32 bs) fun crc => ?_
  exact follows_bind (tracks_readLe32 _) fun v => follows_ite (follows_pure _) (follows_pure _)

private theorem tracks_countPadding (p : Int) (n : Nat) :
    Tracks m m' (countPadding m' p n) (countPadding m p n) := by
  induction n generalizing p with
  | zero => exact follows_pure 0
  | succ n ih =>
      refine follows_bind (tracks_readByte p) fun b => follows_ite ?_ (follows_pure 0)
      exact follows_bind (ih (p + 1)) fun k => follows_pure _

private theorem tracks_scanPaddingBytes (buf len : Int) :
    Tracks m m' (scanPaddingBytes m' buf len) (scanPaddingBytes m buf len) :=
  follows_bind (follows_map _ (tracks_countPadding _ _)) fun _ =>
    follows_ite (follows_pure _) (follows_pure _)

private theorem tracks_ubifsScanANode (c : UbifsInfo) (buf len lnum offs : Int)
    (quiet quiet' : Bool) :
    Tracks m m' (ubifsScanANode c m' buf len lnum offs quiet')
      (ubifsScanANode c m buf len lnum offs quiet) := by
  refine follows_bind (tracks_readLe32 buf) fun magic => follows_ite (follows_pure _) ?_
  refine follows_ite (tracks_scanPaddingBytes _ _) ?_
  refine follows_ite (follows_pure _) ?_
  refine follows_bind (tracks_ubifsCheckNode _ _) fun bad => follows_ite (follows_pure _) ?_
  refine follows_bind (tracks_readByte _) fun type => follows_ite ?_ (follows_pure _)
  refine follows_bind (tracks_readLe32 _) fun padLen => ?_
  refine follows_bind (tracks_readLe32 _) fun nodeLen => ?_
  dsimp only
  refine follows_ite (follows_unless (silent_ubifsErr _) (silent_ubifsErr _) (follows_pure _)) ?_
  refine follows_ite (follows_unless (silent_ubifsErr _) (silent_ubifsErr _) (follows_pure _)) ?_
  exact follows_pure _

private theorem tracks_ubifsStartScan (K : Env) (c : UbifsInfo) (lnum offs : Int) :
    Tracks m m' (ubifsStartScan K c lnum offs) (ubifsStartScan K c lnum offs) := by
  refine follows_bind (tracks_kzallocScanLeb _) fun sleb => follows_ite (follows_pure _) ?_
  refine follows_bind (tracks_setSleb _ _) fun _ => ?_
  refine follows_bind (tracks_onCells _) fun _ => ?_
  refine follows_bind (tracks_setSleb _ _) fun _ => ?_
  dsimp only
  refine follows_ite ?_ (follows_pure _)
  refine follows_bind (tracks_ubifsErr _) fun _ => ?_
  exact follows_bind (tracks_onHeap _) fun _ => follows_pure _

private theorem tracks_ubifsEndScan (c : UbifsInfo) (sleb : Addr) (offs : Int) :
    Tracks m m' (ubifsEndScan c sleb offs) (ubifsEndScan c sleb offs) :=
  follows_bind (tracks_cMod _ _) fun _ => follows_ite (follows_bind (follows_failure _) fun _ =>
    tracks_setSleb _ _) (tracks_setSleb _ _)

private theorem tracks_ubifsAddSnod (K : Env) (sleb : Addr) (buf offs : Int) :
    Tracks m m' (ubifsAddSnod K sleb m' buf offs) (ubifsAddSnod K sleb m buf offs) := by
  have hlink : ∀ snod : Addr, Tracks m m'
      (do
        onCells (listAddTail snod sleb)
        setSleb sleb fun s => { s with nodesCnt := wrap32 (s.nodesCnt + 1) }
        return (0 : Int))
      (do
        onCells (listAddTail snod sleb)
        setSleb sleb fun s => { s with nodesCnt := wrap32 (s.nodesCnt + 1) }
        return (0 : Int)) := fun snod =>
    follows_bind (tracks_onCells _) fun _ => follows_bind (tracks_setSleb _ _) fun _ =>
      follows_pure 0
  refine follows_bind (tracks_kmallocObj _) fun snod => follows_ite (follows_pure _) ?_
  refine follows_bind (tracks_readLe64 _) fun sqnum => follows_bind (tracks_setSnod _ _) fun _ => ?_
  refine follows_bind (tracks_readByte _) fun type => follows_bind (tracks_setSnod _ _) fun _ => ?_
  refine follows_bind (tracks_setSnod _ _) fun _ => ?_
  refine follows_bind (tracks_readLe32 _) fun len => follows_bind (tracks_setSnod _ _) fun _ => ?_
  refine follows_bind (tracks_setSnod _ _) fun _ => ?_
  refine follows_bind (tracks_readByte _) fun keyed => follows_ite ?_ ?_
  · refine follows_bind (tracks_readBytes _ _) fun key => ?_
    exact follows_bind (tracks_setSnod _ _) fun _ => hlink snod
  · exact follows_bind (tracks_setSnod _ _) fun _ => hlink snod

private theorem tracks_scanRound (K : Env) (c : UbifsInfo) (lnum : Int) (quiet quiet' : Bool)
    (sleb : Addr) (cur : Cursor) :
    Tracks m m' (scanRound K c lnum m' quiet' sleb cur) (scanRound K c lnum m quiet sleb cur) := by
  refine follows_ite (follows_pure _) ?_
  refine follows_bind (tracks_ubifsScanANode _ _ _ _ _ _ _) fun ret => ?_
  refine follows_ite (follows_pure _) (follows_ite (follows_pure _) ?_)
  refine follows_ite (follows_bind (tracks_ubifsErr _) fun _ => follows_pure _) ?_
  refine follows_ite ?_ (follows_ite (follows_bind (tracks_ubifsErr _) fun _ => follows_pure _)
    (follows_bind (tracks_ubifsErr _) fun _ => follows_pure _))
  refine follows_bind (tracks_ubifsAddSnod _ _ _ _) fun err => follows_ite (follows_pure _) ?_
  exact follows_bind (tracks_readLe32 _) fun len => follows_pure _

private theorem tracks_emptyWordsRound (cur : Cursor) :
    Tracks m m' (emptyWordsRound m' cur) (emptyWordsRound m cur) :=
  follows_ite (follows_bind (tracks_readLe32 _) fun _ =>
    follows_ite (follows_pure _) (follows_pure _)) (follows_pure _)

private theorem tracks_emptyBytesRound (cur : Cursor) :
    Tracks m m' (emptyBytesRound m' cur) (emptyBytesRound m cur) :=
  follows_ite (follows_pure _) (follows_bind (tracks_readByte _) fun _ =>
    follows_ite (follows_pure _) (follows_pure _))

private theorem tracks_scanCorrupted (c : UbifsInfo) (lnum : Int) (quiet quiet' : Bool)
    (sleb : Addr) (cur : Cursor) :
    Tracks m m' (scanCorrupted c lnum quiet' sleb cur) (scanCorrupted c lnum quiet sleb cur) := by
  have hprint : Silent scanObserver (do
      ubifsScannedCorruption c lnum cur.offs
      ubifsErr (.scanningFailed lnum)) :=
    ((silent_ubifsErr _).seq (silent_ubifsErr _)).seq (silent_ubifsErr _)
  have hrest : Tracks m m' (do ubifsScanDestroy sleb; return errPtr (-euclean))
      (do ubifsScanDestroy sleb; return errPtr (-euclean)) :=
    follows_bind (tracks_ubifsScanDestroy sleb) fun _ => follows_pure _
  simpa only [scanCorrupted, bind_assoc] using follows_unless hprint hprint hrest

private theorem tracks_scanError (lnum : Int) (sleb : Addr) (err : Int) :
    Tracks m m' (scanError lnum sleb err) (scanError lnum sleb err) :=
  follows_bind (tracks_ubifsErr _) fun _ => follows_bind (tracks_ubifsScanDestroy _) fun _ =>
    follows_pure _

private theorem tracks_scanTail (c : UbifsInfo) (lnum : Int) (quiet quiet' : Bool) (sleb : Addr)
    (cur : Cursor) :
    Tracks m m' (scanTail c lnum m' quiet' sleb cur) (scanTail c lnum m quiet sleb cur) := by
  refine follows_bind (tracks_cMod _ _) fun _ => follows_ite ?_ ?_
  · dsimp only
    refine follows_unless (silent_ubifsErr _) (silent_ubifsErr _) ?_
    exact tracks_scanCorrupted _ _ _ _ _ _
  · refine follows_bind (tracks_ubifsEndScan _ _ _) fun _ => ?_
    refine follows_bind (follows_iterate tracks_emptyWordsRound _ _) fun cur => ?_
    refine follows_bind (follows_iterate tracks_emptyBytesRound _ _) fun stray => ?_
    cases stray with
    | none => exact follows_pure _
    | some cur =>
        refine follows_unless (silent_ubifsErr _) (silent_ubifsErr _) ?_
        exact tracks_scanCorrupted _ _ _ _ _ _

private theorem tracks_ubifsScan (K : Env) (c : UbifsInfo) (lnum offs : Int)
    (quiet quiet' : Bool) :
    Tracks m m' (ubifsScan K c lnum offs m' quiet') (ubifsScan K c lnum offs m quiet) := by
  refine follows_bind (tracks_ubifsStartScan _ _ _ _) fun sleb => follows_ite (follows_pure _) ?_
  refine follows_bind (follows_iterate (tracks_scanRound _ _ _ _ _ _) _ _) fun leave => ?_
  cases leave with
  | done cur => exact tracks_scanTail _ _ _ _ _ _
  | corrupted cur => exact tracks_scanCorrupted _ _ _ _ _ _
  | error err => exact tracks_scanError _ _ _

end

/-- **Footprint.** A scan of another buffer with the same bytes where the first scan read, begun
with the same heap, returns the same pointer with the same heap and reads the same bytes. -/
theorem ubifsScan_footprint (K : Env) (c : UbifsInfo) (lnum offs : Int) {m m' : Mem}
    (quiet quiet' : Bool) {w v w' : World} {r : Addr}
    (hrun : (ubifsScan K c lnum offs m quiet).run w = some (r, w')) (hheap : v.heap = w.heap)
    (hsame : ∀ i ∈ scanReads K c lnum offs m quiet w, m' i = m i) :
    ∃ v', (ubifsScan K c lnum offs m' quiet').run v = some (r, v') ∧ v'.heap = w'.heap ∧
      scanReads K c lnum offs m' quiet' v = scanReads K c lnum offs m quiet w := by
  obtain ⟨is, hlog, hfollow⟩ := tracks_ubifsScan K c lnum offs quiet quiet' w v hheap r w' hrun
  have hreads : w'.reads = w.reads ++ is := hlog
  have hscan : scanReads K c lnum offs m quiet w = is := by simp [scanReads, hrun, hreads]
  rw [hscan] at hsame ⊢
  obtain ⟨v', hrun', hheap', hlog'⟩ := hfollow hsame
  have hreads' : v'.reads = v.reads ++ is := hlog'
  exact ⟨v', hrun', hheap', by simp [scanReads, hrun', hreads']⟩

/-- The bytes that a padding node skips are not read. -/
theorem sample_footprint :
    ∃ v', (ubifsScan (.harness .bump) sampleInfo 3 0 (Function.update sampleLeb 70 0x55#8)
        false).run .boot = some (1, v') ∧
      scanReads (.harness .bump) sampleInfo 3 0 (Function.update sampleLeb 70 0x55#8) false .boot =
        scanReads (.harness .bump) sampleInfo 3 0 sampleLeb true .boot := by
  have hfst : ((ubifsScan (.harness .bump) sampleInfo 3 0 sampleLeb true).run .boot).map Prod.fst =
      some 1 := by decide +kernel
  obtain ⟨⟨_, w'⟩, hrun, rfl⟩ := Option.map_eq_some_iff.mp hfst
  have hunread : (70 : Int) ∉ scanReads (.harness .bump) sampleInfo 3 0 sampleLeb true .boot := by
    decide +kernel
  have hsame : ∀ i ∈ scanReads (.harness .bump) sampleInfo 3 0 sampleLeb true .boot,
      Function.update sampleLeb 70 0x55#8 i = sampleLeb i := fun i hi =>
    Function.update_of_ne (ne_of_mem_of_not_mem hi hunread) _ _
  obtain ⟨v', hrun', -, hreads⟩ := ubifsScan_footprint (.harness .bump) sampleInfo 3 0 true false
    hrun rfl hsame
  exact ⟨v', hrun', hreads⟩

end UbifsScan
