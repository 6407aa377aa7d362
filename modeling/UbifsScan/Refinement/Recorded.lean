import UbifsScan.Refinement.Outcome

/-!
# What any successful scan has recorded

Every node on the list of a scan that succeeds has a header that is accepted where the node says it
is, and the nodes lie one behind the other. The block need not be aligned nor its pad sums fit: a
skip length that leaves the block ends the main loop before another node is recorded. A scan that
fails has released what it allocated.
-/

namespace UbifsScan

open Mem Program

/-- The node records a header of the block that passes its check. -/
structure Accepted (m : Mem) (L : Int) (snod : ScanNode) : Prop where
  header : IsHeader m snod.offs (L - snod.offs)
  eq : snod = scanNodeAt m snod.offs

/-- Since `base` the scan has built the list of `sleb` from accepted nodes. -/
def Recording (m : Mem) (L : Int) (base : Heap) (sleb : Addr) (h : Heap) : Prop :=
  ∃ nodes, Held base sleb nodes h ∧ ∀ a ∈ nodes, Accepted m L (h.snods a)

/-- Accepted nodes that lie one behind the other, from `a` on and up to `o`. -/
def Listed (m : Mem) (L : Int) : Int → List ScanNode → Int → Prop
  | a, [], o => a ≤ o
  | a, snod :: snods, o => a ≤ snod.offs ∧ Accepted m L snod ∧
      chNodeType m snod.offs ≠ NodeType.pad.code ∧ Listed m L (snod.offs + snod.len) snods o

/-- Since `base` the scan from `start` has built the list of `sleb` from the nodes up to `o`. -/
structure ListBuilt (m : Mem) (L start lnum : Int) (base : Heap) (sleb : Addr) (o : Int)
    (h : Heap) : Prop where
  held : ∃ nodes, Held base sleb nodes h ∧ Listed m L start (nodes.map h.snods) o ∧
    h.slebs sleb = { ScanLeb.zero with lnum := lnum, nodesCnt := wrap32 nodes.length }
  grown : Heap.Grown base h

/-- The cursors agree for as long as the main loop goes on. -/
structure Cursor.Synced (L : Int) (cur : Cursor) : Prop where
  lo : -2147483648 ≤ cur.offs
  int : cur.len < 2147483648
  same : 8 ≤ cur.len → cur = .at L cur.offs

section Synced

variable {c : UbifsInfo} {L n offs : Int} {cur : Cursor}

theorem wrap32_range (x : Int) : -2147483648 ≤ wrap32 x ∧ wrap32 x < 2147483648 := by
  simp only [wrap32]
  omega

theorem Cursor.synced_start (h0 : 0 ≤ c.lebSize) (hL : c.lebSize < 2147483648)
    (hlo : -2147483648 ≤ offs) (hhi : offs < 2147483648) :
    (Cursor.start c offs).Synced c.lebSize := by
  have hrange := wrap32_range (c.lebSize - offs)
  refine ⟨hlo, hrange.2, fun h8 => ?_⟩
  simp only [Cursor.start, Cursor.at, Cursor.mk.injEq, true_and] at h8 ⊢
  simp only [wrap32] at h8 ⊢
  omega

/-- A step forward keeps the cursors together, or leaves fewer than 8 bytes; so does the only
other step, where rounding up a node length overflows. -/
theorem Cursor.Synced.advance (h : cur.Synced L) (hL : L < 2147483648) (h8 : 8 ≤ cur.len)
    (hn : 0 < n ∧ n < 2147483648 ∨ n = -2147483648) : (cur.advance n).Synced L := by
  have hcur := h.same h8
  have hlo := h.lo
  have hint := h.int
  generalize cur.offs = o at hcur hlo
  subst hcur
  simp only [Cursor.at] at h8 hint
  have hoffs := wrap32_range (o + n)
  have hlen := wrap32_range (L - o - n)
  refine ⟨hoffs.1, hlen.2, fun h8' => ?_⟩
  simp only [Cursor.advance, Cursor.at, Cursor.mk.injEq] at h8' ⊢
  rcases hn with ⟨hpos, hn⟩ | rfl
  · rw [wrap32_of_fits (x := L - o - n) (by omega) (by omega)] at h8' ⊢
    rw [wrap32_of_fits (by omega) (by omega)]
    exact ⟨rfl, trivial, by omega⟩
  · simp only [wrap32] at h8'
    omega

theorem alignedLen_cases {v : BitVec 32} (h : 0 < v.toInt) :
    v.toInt ≤ alignedLen v ∧ alignedLen v < 2147483648 ∨ alignedLen v = -2147483648 := by
  by_cases hv : v.toInt ≤ 2147483640
  · have heq := alignedLen_eq (by omega) hv
    left
    omega
  · right
    have hrange := toInt_range v
    have hnat : v.toInt = v.toNat := by
      rw [BitVec.toInt_eq_toNat_cond] at h ⊢
      split at h <;> omega
    have halign := align_toNat (x := v) (k := 3) (by omega) (by omega)
    rw [alignedLen, show (8#32) = BitVec.ofNat 32 (2 ^ 3) from rfl,
      BitVec.toInt_eq_toNat_cond, halign]
    split <;> omega

private theorem Cursor.Synced.reach {p : Int} (h : (Cursor.advance ⟨p, p, L - p⟩ n).Synced L)
    (h8 : 8 ≤ L - p) (hlen : L - p < 2147483648)
    (hn : 0 < n ∧ n < 2147483648 ∨ n = -2147483648)
    (hlong : 8 ≤ (Cursor.advance ⟨p, p, L - p⟩ n).len) :
    0 < n ∧ (Cursor.advance ⟨p, p, L - p⟩ n).offs = p + n := by
  have hbuf := congrArg Cursor.buf (h.same hlong)
  simp only [Cursor.advance, Cursor.at] at hbuf hlong ⊢
  rcases hn with hn | rfl
  · exact ⟨hn.1, hbuf.symm⟩
  · simp only [wrap32] at hlong
    omega

end Synced

section Verdict

variable {m : Mem} {L buf len offs ret : Int}

theorem Verdict.lt (h : Verdict m L buf len offs ret) : ret < 2147483648 := by
  cases h with
  | empty => decide
  | raw hraw =>
      have hsize := hraw.size
      omega
  | garbage => decide
  | corrupt => decide
  | badPad => decide
  | pad => exact (wrap32_range _).2
  | node => decide

theorem Verdict.header_of_node (h : Verdict m L buf len offs ret) (hret : ret = scannedANode) :
    IsHeader m buf len ∧ chNodeType m buf ≠ NodeType.pad.code := by
  cases h with
  | empty => exact absurd hret (by decide)
  | raw hraw =>
      have hsize := hraw.size
      simp only [scannedANode] at hret
      omega
  | garbage => exact absurd hret (by decide)
  | corrupt => exact absurd hret (by decide)
  | badPad => exact absurd hret (by decide)
  | pad hpad hneg _ h8 =>
      rw [hret] at h8
      exact absurd h8 (by decide)
  | node hheader htype => exact ⟨hheader, htype⟩

end Verdict

section Listed

variable {m : Mem} {L start o p : Int} {snods : List ScanNode}

theorem Listed.accepted (h : Listed m L start snods o) : ∀ snod ∈ snods, Accepted m L snod := by
  induction snods generalizing start with
  | nil => simp
  | cons snod snods ih => exact List.forall_mem_cons.mpr ⟨h.2.1, ih h.2.2.2⟩

theorem Listed.snoc (h : Listed m L start snods o) (hle : o ≤ p)
    (hheader : IsHeader m p (L - p)) (htype : chNodeType m p ≠ NodeType.pad.code) :
    Listed m L start (snods ++ [scanNodeAt m p]) (p + (chLen m p).toInt) := by
  induction snods generalizing start with
  | nil => exact ⟨Int.le_trans h hle, ⟨hheader, rfl⟩, htype, Int.le_refl _⟩
  | cons snod snods ih => exact ⟨h.1, h.2.1, h.2.2.1, ih h.2.2.2⟩

end Listed

section Round

variable {K : Env} {c : UbifsInfo} {sbuf : Mem} {base : Heap} {sleb : Addr} {cur : Cursor}
  {w : World} {start lnum offs L o : Int} {quiet : Bool}

theorem ListBuilt.add {p : Int} {a : Addr} {h h' : Heap}
    (hb : ListBuilt sbuf L start lnum base sleb o h)
    (hadd : SnodAdded (scanNodeAt sbuf p) sleb a h h') (hle : o ≤ p)
    (hheader : IsHeader sbuf p (L - p)) (htype : chNodeType sbuf p ≠ NodeType.pad.code) :
    ListBuilt sbuf L start lnum base sleb (p + (chLen sbuf p).toInt) h' := by
  obtain ⟨⟨nodes, hheld, hlisted, hsleb⟩, hgrown⟩ := hb
  refine ⟨⟨nodes ++ [a], hadd.held hheld, ?_, ?_⟩, hgrown.trans (hadd.grown hheld)⟩
  · rw [hadd.records hheld]
    exact hlisted.snoc hle hheader htype
  · rw [hadd.slebs, Function.update_self, hsleb]
    simp [wrap32_wrap32_add]

theorem ListBuilt.refused {h : Heap} (hb : ListBuilt sbuf L start lnum base sleb o h) :
    ListBuilt sbuf L start lnum base sleb o h.refused := by
  obtain ⟨⟨nodes, hheld, hlisted, hsleb⟩, hgrown⟩ := hb
  exact ⟨⟨nodes, hheld.refused, hlisted, hsleb⟩, hgrown.refused⟩

/-- What a round keeps, however it ends. -/
def RecordSpec (m : Mem) (L start lnum : Int) (base : Heap) (sleb : Addr) (r : Cursor ⊕ Leave)
    (w : World) : Prop :=
  match r with
  | .inl next => next.Synced L ∧ w.heap.failures = base.failures ∧
      ∃ o, ListBuilt m L start lnum base sleb o w.heap ∧ (8 ≤ next.len → o ≤ next.offs)
  | .inr (.error err) =>
      (err = -enomem ∧ w.heap.failures = base.failures + 1 ∨
        err = -einval ∧ w.heap.failures = base.failures) ∧
        ∃ o, ListBuilt m L start lnum base sleb o w.heap
  | .inr _ => w.heap.failures = base.failures ∧ ∃ o, ListBuilt m L start lnum base sleb o w.heap

theorem returns_scanRound_recording (lnum' : Int) (quiet : Bool) (hL : c.lebSize < 2147483648)
    (hsync : cur.Synced c.lebSize) (hb : ListBuilt sbuf c.lebSize start lnum base sleb o w.heap)
    (hfail : w.heap.failures = base.failures) (hreach : 8 ≤ cur.len → o ≤ cur.offs) :
    Returns (scanRound K c lnum' sbuf quiet sleb cur) w
      (RecordSpec sbuf c.lebSize start lnum base sleb) := by
  rw [scanRound, returns_ite]
  split
  · rw [returns_pure]
    exact ⟨hfail, o, hb⟩
  rename_i hlong
  have h8 : 8 ≤ cur.len := by omega
  have hlen := hsync.int
  have hadvance := fun n => hsync.advance (n := n) hL h8
  have hcur := hsync.same h8
  have hle := hreach h8
  generalize cur.offs = p at hcur hle
  subst hcur
  simp only [Cursor.at] at h8 hlen hadvance ⊢
  rw [returns_bind]
  apply (returns_ubifsScanANode c sbuf p lnum' p quiet h8 hlen w).mono
  rintro ret w₁ ⟨hverdict, is, hobs, -⟩
  have hb₁ : ListBuilt sbuf c.lebSize start lnum base sleb o w₁.heap := hobs.heap ▸ hb
  have hfail₁ : w₁.heap.failures = base.failures := hobs.heap ▸ hfail
  rw [returns_ite]
  split
  · rename_i hpos
    rw [returns_pure]
    have hstep : 0 < ret ∧ ret < 2147483648 ∨ ret = -2147483648 := .inl ⟨hpos, hverdict.lt⟩
    refine ⟨hadvance ret hstep, hfail₁, o, hb₁, fun hlong' => ?_⟩
    rw [((hadvance ret hstep).reach h8 hlen hstep hlong').2]
    omega
  rw [returns_ite]
  split
  · rw [returns_pure]
    exact ⟨hfail₁, o, hb₁⟩
  simp only [returns_ite, returns_bind, returns_ubifsErr, returns_pure]
  split
  · exact ⟨hfail₁, o, hb₁⟩
  split
  · rename_i hnode
    obtain ⟨hheader, htype⟩ := hverdict.header_of_node hnode
    have hlo := hheader.lo
    simp only [ubifsChSz] at hlo
    have hcases := alignedLen_cases (v := chLen sbuf p) (by omega)
    have hnext : 0 < alignedLen (chLen sbuf p) ∧ alignedLen (chLen sbuf p) < 2147483648 ∨
        alignedLen (chLen sbuf p) = -2147483648 := hcases.imp_left fun h => ⟨by omega, h.2⟩
    apply (returns_ubifsAddSnod K sleb sbuf p p w₁).mono
    rintro err w₂ (⟨rfl, a, js, -, hadd, -, -⟩ | ⟨rfl, -, rfl⟩)
    · rw [if_neg (by simp), returns_readLe32]
      refine ⟨hadvance _ hnext, hadd.failures.trans hfail₁, _, hb₁.add hadd hle hheader htype,
        fun hlong' => ?_⟩
      obtain ⟨hpos, hoffs⟩ := (hadvance _ hnext).reach h8 hlen hnext hlong'
      have hround := (hcases.resolve_right (by omega)).1
      exact (Int.add_le_add_left hround p).trans (Int.le_of_eq hoffs.symm)
    · rw [if_pos (by decide)]
      exact ⟨.inl ⟨rfl, congrArg (· + 1) hfail₁⟩, o, hb₁.refused⟩
  split
  · exact ⟨hfail₁, o, hb₁⟩
  · exact ⟨.inr ⟨rfl, hfail₁⟩, o, hb₁⟩

end Round

section Scan

variable {K : Env} {c : UbifsInfo} {sbuf : Mem} {base : Heap} {sleb : Addr} {cur : Cursor}
  {w : World} {start lnum offs L : Int} {quiet : Bool}

private theorem ensures_scanLoop {n : Nat} {lnum' o : Int} (h0 : 0 ≤ c.lebSize)
    (hL : c.lebSize < 2147483648) (hlo : -2147483648 ≤ offs) (hhi : offs < 2147483648)
    (hb : ListBuilt sbuf c.lebSize start lnum base sleb o w.heap)
    (hfail : w.heap.failures = base.failures) (hle : o ≤ offs) :
    Ensures (iterate (scanRound K c lnum' sbuf quiet sleb) n (Cursor.start c offs)) w
      fun leave w' => RecordSpec sbuf c.lebSize start lnum base sleb (.inr leave) w' := by
  refine ensures_iterate (fun (cur : Cursor) (v : World) => cur.Synced c.lebSize ∧
    v.heap.failures = base.failures ∧
    ∃ o, ListBuilt sbuf c.lebSize start lnum base sleb o v.heap ∧ (8 ≤ cur.len → o ≤ cur.offs)) ?_
    ⟨Cursor.synced_start h0 hL hlo hhi, hfail, o, hb, fun _ => hle⟩
  rintro cur v ⟨hsync, hfail', o', hb', hreach⟩
  refine (returns_scanRound_recording lnum' quiet hL hsync hb' hfail' hreach).ensures.mono
    fun r u hr => ?_
  cases r with
  | inl next => exact hr
  | inr leave => exact hr

/-- What a scan from `start` that succeeds leaves on the heap. -/
def ScanBuilt (m : Mem) (L start lnum : Int) (base : Heap) (r : Addr) (h : Heap) : Prop :=
  ∃ nodes o e, Held base r nodes h ∧ Listed m L start (nodes.map h.snods) o ∧
    h.slebs r = { ScanLeb.zero with lnum := lnum, nodesCnt := wrap32 nodes.length, endpt := e } ∧
    Heap.Grown base h

/-- Why `ubifs_start_scan` fails, and how many requests were refused. -/
inductive StartFails (K : Env) (c : UbifsInfo) (lnum offs : Int) : Addr → Nat → Prop
  | unread (hread : K.ReadFails c lnum offs) :
      StartFails K c lnum offs (errPtr (K.readError c lnum offs)) 0
  | nomem : StartFails K c lnum offs (errPtr (-enomem)) 1

/-- Why `ubifs_scan` fails. -/
inductive ScanFails (K : Env) (c : UbifsInfo) (lnum offs : Int) : Addr → Nat → Prop
  | start {r : Addr} {n : Nat} (h : StartFails K c lnum offs r n) : ScanFails K c lnum offs r n
  | nomem (hread : ¬ K.ReadFails c lnum offs) : ScanFails K c lnum offs (errPtr (-enomem)) 1
  | corrupted (hread : ¬ K.ReadFails c lnum offs) : ScanFails K c lnum offs (errPtr (-euclean)) 0
  | unknown (hread : ¬ K.ReadFails c lnum offs) : ScanFails K c lnum offs (errPtr (-einval)) 0

theorem ListBuilt.ended {o : Int} {h : Heap} (hb : ListBuilt sbuf L start lnum base sleb o h)
    (e : Int) : ScanBuilt sbuf L start lnum base sleb (h.ended sleb e) := by
  obtain ⟨⟨nodes, hheld, hlisted, hsleb⟩, hgrown⟩ := hb
  refine ⟨nodes, o, e, hheld.ended e, hlisted, ?_, hgrown.trans ⟨_, hheld.trace_ended e, by simp⟩⟩
  simp [Heap.ended, hsleb]

private theorem ensures_scanTail {lnum' o : Int} (cur : Cursor)
    (hb : ListBuilt sbuf c.lebSize start lnum base sleb o w.heap) :
    Ensures (scanTail c lnum' sbuf quiet sleb cur) w fun r w' =>
      w'.heap.failures = w.heap.failures ∧ (r = errPtr (-euclean) ∧ Released base w'.heap ∨
        r = sleb ∧ ScanBuilt sbuf c.lebSize start lnum base sleb w'.heap) := by
  obtain ⟨nodes, hheld, -⟩ := hb.held
  have hcorrupt : ∀ (cur : Cursor) (v : World), Held base sleb nodes v.heap →
      Heap.Grown base v.heap → v.heap.failures = w.heap.failures →
      Ensures (scanCorrupted c lnum' quiet sleb cur) v fun r w' =>
        w'.heap.failures = w.heap.failures ∧ (r = errPtr (-euclean) ∧ Released base w'.heap ∨
          r = sleb ∧ ScanBuilt sbuf c.lebSize start lnum base sleb w'.heap) := by
    intro cur v hheld' hgrown hfail
    exact (returns_scanCorrupted cur hheld').ensures.mono
      fun _ _ h => ⟨h.1.failures.trans hfail, .inl ⟨h.2.1, h.1.released hgrown⟩⟩
  refine ensures_bind ((ensures_cMod _ _ w).mono ?_)
  rintro _ w' ⟨-, hw⟩
  subst w'
  split
  · split
    · exact ensures_bind (ensures_ubifsErr (hcorrupt _ _ hheld hb.grown rfl))
    · exact hcorrupt _ _ hheld hb.grown rfl
  refine ensures_bind ((ensures_ubifsEndScan _ _ _ w).mono ?_)
  rintro ⟨⟩ w₁ ⟨-, hend⟩
  have hheap := congrArg World.heap hend
  refine ensures_bind ((ensures_tailLoops_keeps World.heap (fun _ _ => rfl) sbuf cur w₁).mono
    fun cur' w₂ hbytes => ?_)
  refine ensures_bind (hbytes.mono fun r w₃ hsame => ?_)
  have hheap₃ : w₃.heap = w.heap.ended sleb _ := hsame.trans hheap
  have hfail₃ : w₃.heap.failures = w.heap.failures := hheap₃ ▸ rfl
  cases r with
  | none => exact ensures_pure ⟨hfail₃, .inr ⟨rfl, hheap₃ ▸ hb.ended _⟩⟩
  | some cur'' =>
      have hheld₃ : Held base sleb nodes w₃.heap := hheap₃ ▸ hheld.ended _
      have hgrown₃ : Heap.Grown base w₃.heap :=
        hb.grown.trans (hheap₃ ▸ ⟨_, hheld.trace_ended _, by simp⟩)
      dsimp only
      split
      · exact ensures_bind (ensures_ubifsErr (hcorrupt _ _ hheld₃ hgrown₃ hfail₃))
      · exact hcorrupt _ _ hheld₃ hgrown₃ hfail₃

/-- What a scan from `start` leaves on the heap and answers, in any way it may end. -/
inductive BuiltEnd (K : Env) (m : Mem) (c : UbifsInfo) (start lnum : Int) (base h : Heap) :
    Addr → Prop
  | scanned {r : Addr} (hvalid : isErr r = false) (hread : ¬ K.ReadFails c lnum start)
      (hbuilt : ScanBuilt m c.lebSize start lnum base r h) (hfail : h.failures = base.failures) :
      BuiltEnd K m c start lnum base h r
  | failed {r : Addr} {n : Nat} (herr : isErr r = true) (hwhy : ScanFails K c lnum start r n)
      (hrel : Released base h) (hfail : h.failures = base.failures + n) :
      BuiltEnd K m c start lnum base h r

/-- **What a scan leaves**, in every run; a read that fails answers an error number. -/
theorem ensures_ubifsScan_built
    (hread : K.ReadFails c lnum offs →
      -4095 ≤ K.readError c lnum offs ∧ K.readError c lnum offs < 0)
    (h0 : 0 ≤ c.lebSize) (hL : c.lebSize < 2147483648) (hlo : -2147483648 ≤ offs)
    (hhi : offs < 2147483648) :
    Ensures (ubifsScan K c lnum offs sbuf quiet) w fun r w' =>
      BuiltEnd K sbuf c offs lnum w.heap w'.heap r := by
  refine ensures_bind ((returns_ubifsStartScan K c lnum offs w).ensures.mono ?_)
  rintro sleb w₁ ⟨-, hstart⟩
  rcases hstart with ⟨hok, hvalid, -, hs⟩ | ⟨rfl, -, hheap⟩ | ⟨hbad, rfl, a, mid, hs, hheap⟩
  · rw [if_neg (by simp [hvalid])]
    have hb : ListBuilt sbuf c.lebSize offs lnum w.heap sleb offs w₁.heap := by
      refine ⟨⟨[], hs.held, Int.le_refl offs, ?_⟩, hs.grown⟩
      rw [hs.slebs, Function.update_self]
      rfl
    refine ensures_bind ((ensures_scanLoop h0 hL hlo hhi hb hs.failures (Int.le_refl offs)).mono
      fun leave w₂ hleave => ?_)
    cases leave with
    | done cur =>
        obtain ⟨hfail, o, hb'⟩ := hleave
        refine (ensures_scanTail cur hb').mono ?_
        rintro r w' ⟨hfail', ⟨rfl, hrel⟩ | ⟨rfl, hbuilt⟩⟩
        · exact .failed (isErr_errPtr (by decide) (by decide)) (.corrupted hok) hrel
            (hfail'.trans hfail)
        · exact .scanned hvalid hok hbuilt (hfail'.trans hfail)
    | corrupted cur =>
        obtain ⟨hfail, o, hb'⟩ := hleave
        obtain ⟨nodes, hheld, -⟩ := hb'.held
        refine (returns_scanCorrupted cur hheld).ensures.mono ?_
        rintro r w' ⟨hd, rfl, -⟩
        exact .failed (isErr_errPtr (by decide) (by decide)) (.corrupted hok)
          (hd.released hb'.grown) (hd.failures.trans hfail)
    | error err =>
        obtain ⟨hwhy, o, hb'⟩ := hleave
        obtain ⟨nodes, hheld, -⟩ := hb'.held
        refine (returns_scanError err hheld).ensures.mono ?_
        rintro r w' ⟨hd, rfl, -⟩
        have hrel := hd.released hb'.grown
        rcases hwhy with ⟨rfl, hfail⟩ | ⟨rfl, hfail⟩
        · exact .failed (isErr_errPtr (by decide) (by decide)) (.nomem hok) hrel
            (hd.failures.trans hfail)
        · exact .failed (isErr_errPtr (by decide) (by decide)) (.unknown hok) hrel
            (hd.failures.trans hfail)
  · rw [if_pos (isErr_errPtr (by decide) (by decide))]
    exact ensures_pure (.failed (isErr_errPtr (by decide) (by decide)) (.start .nomem)
      (hheap ▸ .refused w.heap) (hheap ▸ rfl))
  · obtain ⟨hlo', hhi'⟩ := hread hbad
    rw [if_pos (isErr_errPtr hlo' hhi')]
    exact ensures_pure (.failed (isErr_errPtr hlo' hhi') (.start (.unread hbad))
      (hheap ▸ .of_held hs.held hs.grown) (hheap ▸ hs.failures))

/-- **A scan that succeeds has recorded accepted nodes**, in every run. -/
theorem ensures_ubifsScan_recording
    (hread : K.ReadFails c lnum offs →
      -4095 ≤ K.readError c lnum offs ∧ K.readError c lnum offs < 0)
    (h0 : 0 ≤ c.lebSize) (hL : c.lebSize < 2147483648) (hlo : -2147483648 ≤ offs)
    (hhi : offs < 2147483648) :
    Ensures (ubifsScan K c lnum offs sbuf quiet) w fun r w' =>
      isErr r = false → Recording sbuf c.lebSize w.heap r w'.heap := by
  refine (ensures_ubifsScan_built hread h0 hL hlo hhi).mono fun r w' h hvalid => ?_
  cases h with
  | scanned _ _ hbuilt _ =>
      obtain ⟨nodes, o, e, hheld, hlisted, -, -⟩ := hbuilt
      exact ⟨nodes, hheld, fun a ha => hlisted.accepted _ (List.mem_map_of_mem ha)⟩
  | failed herr _ _ _ => simp [hvalid] at herr

end Scan

end UbifsScan
