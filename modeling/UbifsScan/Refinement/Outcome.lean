import UbifsScan.Refinement.Scan

/-!
# What a caller sees

The result of a scan as its callers use it: an error number, or the scan information with its list
followed from `nodes.next` on. With the flash read of the harness and without a failed allocation
it is determined by the block alone.
-/

namespace UbifsScan

open Mem Program

/-- Scan information with its list of nodes, in list order. -/
structure LebView where
  lnum : Int
  endpt : Int
  nodesCnt : Int
  nodes : List ScanNode
  deriving DecidableEq, Repr

inductive Outcome
  | scanned (view : LebView)
  | failed (err : Int)
  deriving DecidableEq, Repr

/-- The nodes on the list of `sleb`. -/
def Heap.listed (h : Heap) (sleb : Addr) : List Addr :=
  Links.walk h.cells.links.next sleb (h.live.card + 1) (h.cells.links.next sleb)

def Heap.view (h : Heap) (sleb : Addr) : LebView where
  lnum := (h.slebs sleb).lnum
  endpt := (h.slebs sleb).endpt
  nodesCnt := (h.slebs sleb).nodesCnt
  nodes := (h.listed sleb).map h.snods

def Heap.outcome (h : Heap) (r : Addr) : Outcome :=
  if isErr r then .failed (ptrErr r) else .scanned (h.view r)

/-- What a caller of `ubifs_scan` sees; `none` if it does not return. -/
def scanOutcome (K : Env) (c : UbifsInfo) (lnum offs : Int) (sbuf : Mem) (quiet : Bool)
    (w : World) : Option Outcome :=
  ((ubifsScan K c lnum offs sbuf quiet).run w).map fun r => r.2.heap.outcome r.1

/-- Every allocation of the call succeeds. -/
def AllocsSucceed (K : Env) (c : UbifsInfo) (lnum offs : Int) (sbuf : Mem) (quiet : Bool)
    (w : World) : Prop :=
  ∀ r w', (ubifsScan K c lnum offs sbuf quiet).run w = some (r, w') →
    w'.heap.failures = w.heap.failures

/-- The indices of the scan buffer that the call reads. -/
def scanReads (K : Env) (c : UbifsInfo) (lnum offs : Int) (sbuf : Mem) (quiet : Bool)
    (w : World) : List Int :=
  match (ubifsScan K c lnum offs sbuf quiet).run w with
  | some (_, w') => w'.reads.drop w.reads.length
  | none => []

/-- The view of a block that reads as `its` up to `e`. -/
def blockView (m : Mem) (lnum : Int) (its : List Item) (e : Int) : LebView :=
  ⟨lnum, e, (recorded m its).length, recorded m its⟩

section Outcome

variable {K : Env} {A : Allocator} {c : UbifsInfo} {sbuf : Mem} {a lnum e : Int} {w : World}
  {its : List Item} {quiet : Bool}

theorem Held.listed {base h : Heap} {sleb : Addr} {nodes : List Addr}
    (hh : Held base sleb nodes h) : h.listed sleb = nodes := by
  have hlen : nodes.length < h.live.card + 1 := by
    have hsub : nodes.toFinset ⊆ h.live := by
      intro x hx
      exact hh.mem_live (List.mem_cons_of_mem _ (List.mem_toFinset.mp hx))
    have hnd := (List.nodup_cons.mp hh.ring.nodup).2
    rw [← List.toFinset_card_of_nodup hnd]
    exact Nat.lt_succ_of_le (Finset.card_le_card hsub)
  rw [Heap.listed, hh.ring.walk_next hlen]

theorem Held.view_nodes {base h : Heap} {sleb : Addr} {nodes : List Addr}
    (hh : Held base sleb nodes h) : (h.view sleb).nodes = nodes.map h.snods := by
  rw [Heap.view, hh.listed]

theorem Held.view {base h : Heap} {sleb : Addr} {nodes : List Addr} {m : Mem}
    (hh : Held base sleb nodes h) (hrec : nodes.map h.snods = recorded m its)
    (hsleb : h.slebs sleb =
      { ScanLeb.zero with lnum := lnum, nodesCnt := nodes.length, endpt := e }) :
    h.view sleb = blockView m lnum its e := by
  have hnodes := hh.view_nodes
  simp only [Heap.view, LebView.mk.injEq, hsleb, blockView, true_and] at hnodes ⊢
  rw [hnodes, hrec, ← hrec, List.length_map]
  exact ⟨rfl, rfl⟩

theorem harness_reads (A : Allocator) (c : UbifsInfo) (lnum a : Int) :
    (Env.harness A).readError c lnum a = 0 := rfl

theorem started {sleb : Addr} {w₁ : World} (hvalid : isErr sleb = false)
    (hrun : (ubifsStartScan (.harness A) c lnum a).run w = some (sleb, w₁)) :
    AtHead A sbuf c.lebSize a lnum w sleb [] a w₁ := by
  obtain ⟨hreads, hstart⟩ := (returns_ubifsStartScan (.harness A) c lnum a w).of_run hrun
  rcases hstart with ⟨-, -, hgrant, hs⟩ | ⟨rfl, -, -⟩ | ⟨hread, -⟩
  · exact hs.atHead hreads hgrant
  · exact absurd hvalid (not_valid_errPtr (by decide) (by decide))
  · exact absurd (harness_reads A c lnum a) hread.1

theorem ScanHeads.atHead {sleb : Addr} {cur : Cursor} {v : World} (hin : Inside c.lebSize a)
    (h : ScanHeads (.harness A) c lnum a sbuf quiet w sleb (cur, v))
    (hfit : ∀ its o u, ScanHeads (.harness A) c lnum a sbuf quiet w sleb (.at c.lebSize o, u) →
      Tiles sbuf c.lebSize a its o → SkipFits sbuf c.lebSize o) :
    ∃ its o, cur = .at c.lebSize o ∧ AtHead A sbuf c.lebSize a lnum w sleb its o v := by
  obtain ⟨w₁, hrun, hvalid, hheads⟩ := h
  rw [Cursor.start_eq hin] at hheads
  apply atHead_of_heads hin (started hvalid hrun) ?_ hheads
  exact fun its o u hu => hfit its o u (scanHeads_at hin hrun hvalid hu)

theorem SumsFit.skipFits (hfit : SumsFit sbuf c.lebSize a) {o : Int}
    (h : Tiles sbuf c.lebSize a its o) : SkipFits sbuf c.lebSize o := (hfit its o h).skipFits

theorem harness_scan (A : Allocator) (lnum : Int) (quiet : Bool) (w : World) (hg : Geometry c a)
    (hfit : SumsFit sbuf c.lebSize a) :
    Returns (ubifsScan (.harness A) c lnum a sbuf quiet) w
      (ScanSpec (.harness A) sbuf c a lnum w) :=
  returns_ubifsScan hg (.inl (harness_reads A c lnum a))
    fun _ _ _ _ _ htiles => hfit.skipFits htiles

private theorem heads_of_tiles {sleb : Addr} {w₁ u : World} {before : List Item} {o : Int}
    (hg : Geometry c a) (hfit : SumsFit sbuf c.lebSize a)
    (hheads : Heads (scanRound (.harness A) c lnum sbuf quiet sleb) (.start c a, w₁)
      (.at c.lebSize o, u))
    (hat : AtHead A sbuf c.lebSize a lnum w sleb before o u) (htiles : Tiles sbuf c.lebSize o its e)
    (hgrant : w.heap.GrantsAfter A (before ++ its) 0) :
    ∃ v, Heads (scanRound (.harness A) c lnum sbuf quiet sleb) (.start c a, w₁)
      (.at c.lebSize e, v) := by
  induction htiles generalizing before u with
  | nil o => exact ⟨u, hheads⟩
  | @cons o o' e it its hstep _ ih =>
      have hin := hat.tiles.inside hg.inside
      obtain ⟨r, u', hrun, hend, hreads⟩ :=
        (returns_scanRound lnum quiet hin (hfit.skipFits hat.tiles) u :
          Returns (scanRound (.harness A) c lnum sbuf quiet sleb (.at c.lebSize o)) u _)
      have hnext : ∀ it' o'', ItemStep sbuf c.lebSize o it' o'' → it' = it ∧ o'' = o' :=
        fun it' o'' h => itemStep_deterministic sbuf c.lebSize _ _ _ _ _ h hstep
      have hgoes : ∀ next : Cursor, r = .inl next →
          ∃ v, Heads (scanRound (.harness A) c lnum sbuf quiet sleb) (.start c a, w₁)
            (.at c.lebSize e, v) := by
        rintro next rfl
        obtain ⟨it', o'', rfl, hstep', hat'⟩ := hat.step hg.inside ⟨hend, hreads⟩
        obtain ⟨rfl, rfl⟩ := hnext it' o'' hstep'
        exact ih (hheads.tail hrun) hat' (by simpa using hgrant)
      cases hend with
      | skip _ _ _ => exact hgoes _ rfl
      | node _ _ _ _ => exact hgoes _ rfl
      | done hdone _ => exact absurd hstep (stuck_of_done hin hdone it o')
      | corrupted _ _ hstuck _ => exact absurd hstep (hstuck it o')
      | nomem hstep' hkind hrefused _ =>
          obtain ⟨rfl, -⟩ := hnext _ _ hstep'
          refine absurd ((hat.grants 1).mp (hgrant.mono ?_)) hrefused
          simp only [nodesIn, List.countP_append, List.countP_cons, hkind, decide_true, if_true]
          omega

/-- **What a caller sees is the reading of the block**, or the error that says there is none. -/
theorem scanOutcome_cases (hg : Geometry c a) (hfit : SumsFit sbuf c.lebSize a)
    (hA : AllocsSucceed (.harness A) c lnum a sbuf quiet w) :
    (∃ its e, Decomposes sbuf c a its e ∧
      scanOutcome (.harness A) c lnum a sbuf quiet w =
        some (.scanned (blockView sbuf lnum its e))) ∨
    ((∀ its e, ¬ Decomposes sbuf c a its e) ∧
      scanOutcome (.harness A) c lnum a sbuf quiet w = some (.failed (-euclean))) := by
  obtain ⟨r, w', hrun, is, -, -, -, hend⟩ := harness_scan A lnum quiet w hg hfit
  have hnofail := hA r w' hrun
  rw [scanOutcome, hrun, Option.map_some]
  cases hend with
  | @scanned its e nodes sleb _ hdec _ hvalid hheld hrec hsleb _ _ =>
      refine .inl ⟨its, e, hdec, ?_⟩
      rw [Heap.outcome, hvalid, hheld.view hrec hsleb]
      rfl
  | corrupted _ hno _ _ =>
      refine .inr ⟨hno, ?_⟩
      rw [Heap.outcome, isErr_errPtr (by decide) (by decide),
        ptrErr_errPtr (by decide) (by decide)]
      rfl
  | nomem _ _ hfail => omega
  | unread hread _ _ => exact absurd (harness_reads A c lnum a) hread.1

theorem scanOutcome_of_decomposes (hg : Geometry c a) (hfit : SumsFit sbuf c.lebSize a)
    (hA : AllocsSucceed (.harness A) c lnum a sbuf quiet w) (hdec : Decomposes sbuf c a its e) :
    scanOutcome (.harness A) c lnum a sbuf quiet w =
      some (.scanned (blockView sbuf lnum its e)) := by
  rcases scanOutcome_cases hg hfit hA with ⟨its', e', hdec', hout⟩ | ⟨hno, -⟩
  · obtain ⟨rfl, rfl⟩ := hdec.unique hg.leb hg.start hdec'
    exact hout
  · exact absurd hdec (hno its e)

theorem scanOutcome_of_not_decomposes (hg : Geometry c a) (hfit : SumsFit sbuf c.lebSize a)
    (hA : AllocsSucceed (.harness A) c lnum a sbuf quiet w)
    (hno : ∀ its e, ¬ Decomposes sbuf c a its e) :
    scanOutcome (.harness A) c lnum a sbuf quiet w = some (.failed (-euclean)) := by
  rcases scanOutcome_cases hg hfit hA with ⟨its, e, hdec, -⟩ | ⟨-, hout⟩
  · exact absurd hdec (hno its e)
  · exact hout

theorem scanOutcome_of_stuck (hg : Geometry c a)
    (hA : AllocsSucceed (.harness A) c lnum a sbuf quiet w) {o : Int}
    (htiles : Tiles sbuf c.lebSize a its o) (hlt : o < c.lebSize)
    (hstuck : Steps.Stuck (ItemStep sbuf c.lebSize) o) (hsum : SumFits sbuf c.lebSize o)
    (hff : sbuf o ≠ 0xFF#8) :
    scanOutcome (.harness A) c lnum a sbuf quiet w = some (.failed (-euclean)) := by
  have hfit := sumsFit_of_stuck hg.int htiles hstuck hsum
  apply scanOutcome_of_not_decomposes hg hfit hA
  intro its' e' hdec
  have hstuck' := stuck_of_empty hg.leb (hdec.tiles.aligned hg.start) hdec.le hdec.empty
  obtain ⟨-, rfl⟩ := Steps.unique_of_stuck (itemStep_deterministic sbuf c.lebSize) hdec.tiles
    hstuck' htiles hstuck
  exact hff (hdec.empty e' (Int.le_refl e') hlt)

theorem scanOutcome_of_tiles (hg : Geometry c a)
    (hA : AllocsSucceed (.harness A) c lnum a sbuf quiet w) (htiles : Tiles sbuf c.lebSize a its e)
    (hle : e ≤ c.lebSize) (hempty : EmptyFrom sbuf c.lebSize e) :
    scanOutcome (.harness A) c lnum a sbuf quiet w =
      some (if c.minIoSize ∣ e then .scanned (blockView sbuf lnum its e)
        else .failed (-euclean)) := by
  have hstuck := stuck_of_empty hg.leb (htiles.aligned hg.start) hle hempty
  have hfit := sumsFit_of_stuck hg.int htiles hstuck fun hpad _ => absurd hpad.1 hempty.not_header
  split
  · exact scanOutcome_of_decomposes hg hfit hA ⟨htiles, hle, ‹_›, hempty⟩
  · apply scanOutcome_of_not_decomposes hg hfit hA
    intro its' e' hdec
    have hstuck' := stuck_of_empty hg.leb (hdec.tiles.aligned hg.start) hdec.le hdec.empty
    obtain ⟨-, rfl⟩ := Steps.unique_of_stuck (itemStep_deterministic sbuf c.lebSize) hdec.tiles
      hstuck' htiles hstuck
    exact absurd hdec.aligned ‹_›

private theorem granted_of_scanned {v : LebView} (hg : Geometry c a)
    (hfit : SumsFit sbuf c.lebSize a)
    (hscan : scanOutcome (.harness A) c lnum a sbuf quiet w = some (.scanned v)) :
    ∃ its e, Decomposes sbuf c a its e ∧ v = blockView sbuf lnum its e ∧
      w.heap.GrantsAfter A its 0 := by
  obtain ⟨r, w', hrun, is, -, -, -, hend⟩ := harness_scan A lnum quiet w hg hfit
  rw [scanOutcome, hrun, Option.map_some, Option.some.injEq, Heap.outcome] at hscan
  cases hend with
  | @scanned its e nodes sleb _ hdec hgrant hvalid hheld hrec hsleb _ _ =>
      rw [hvalid, hheld.view hrec hsleb] at hscan
      exact ⟨its, e, hdec, (Outcome.scanned.inj hscan).symm, hgrant⟩
  | corrupted _ hno _ _ =>
      rw [isErr_errPtr (by decide) (by decide)] at hscan
      cases hscan
  | nomem _ _ _ =>
      rw [isErr_errPtr (by decide) (by decide)] at hscan
      cases hscan
  | unread hread _ _ => exact absurd (harness_reads A c lnum a) hread.1

/-- A scan that succeeds saw a block that decomposes, whatever its allocations did. -/
theorem decomposes_of_scanned {v : LebView} (hg : Geometry c a)
    (hfit : SumsFit sbuf c.lebSize a)
    (hscan : scanOutcome (.harness A) c lnum a sbuf quiet w = some (.scanned v)) :
    ∃ its e, Decomposes sbuf c a its e ∧ v = blockView sbuf lnum its e := by
  obtain ⟨its, e, hdec, hv, -⟩ := granted_of_scanned hg hfit hscan
  exact ⟨its, e, hdec, hv⟩

/-- The main loop of a scan that succeeds comes to every item of the block. -/
theorem scanHeads_of_scanned {v : LebView} {it : Item} (hg : Geometry c a)
    (hfit : SumsFit sbuf c.lebSize a)
    (hscan : scanOutcome (.harness A) c lnum a sbuf quiet w = some (.scanned v))
    (hdec : Decomposes sbuf c a its v.endpt) (hit : it ∈ its) :
    ∃ sleb u, ScanHeads (.harness A) c lnum a sbuf quiet w sleb (.at c.lebSize it.offs, u) := by
  obtain ⟨its', e, hdec', -, hgrant⟩ := granted_of_scanned hg hfit hscan
  obtain ⟨rfl, -⟩ := hdec.unique hg.leb hg.start hdec'
  obtain ⟨x, y, before, after, rfl, hbefore, ⟨hoffs, -, -⟩, -⟩ := hdec.tiles.mem_step hit
  obtain ⟨sleb, w₁, hstart, -, hcases⟩ := returns_ubifsStartScan (.harness A) c lnum a w
  have hvalid : isErr sleb = false := by
    rcases hcases with ⟨-, hvalid, -⟩ | ⟨-, hrefused, -⟩ | ⟨hread, -⟩
    · exact hvalid
    · rw [Heap.GrantsAfter, Nat.add_right_comm] at hgrant
      exact absurd hgrant (hrefused _)
    · exact absurd (harness_reads A c lnum a) hread.1
  have hheads : Heads (scanRound (.harness A) c lnum sbuf quiet sleb) (.start c a, w₁)
      (.at c.lebSize a, w₁) := by
    rw [Cursor.start_eq hg.inside]
  obtain ⟨u, hu⟩ := heads_of_tiles hg hfit hheads (started hvalid hstart) hbefore
    (hgrant.mono (by simp [nodesIn]))
  exact ⟨sleb, u, w₁, hstart, hvalid, hoffs ▸ hu⟩

end Outcome

end UbifsScan
