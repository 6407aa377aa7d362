import UbifsScan.Format.Locality
import UbifsScan.Results.Memory

/-!
# What a result depends on

Two runs on different blocks, kept in step: a scan depends only on the bytes its items are
recognised by and on the empty space, and it can be resumed where it stood in another block.
-/

namespace UbifsScan

open Mem Program

/-- The bytes that the reading of a block relies on: of each item those it is recognised by, of a
keyed node its key, and the empty space. -/
def ReliedOn (m : Mem) (c : UbifsInfo) (a i : Int) : Prop :=
  ∃ its e, Decomposes m c a its e ∧
    ((∃ it ∈ its, it.offs ≤ i ∧ i < it.offs + it.core) ∨
      (∃ it ∈ its, it.kind = .node ∧ isKeyed (chNodeType m it.offs) = true ∧
        it.offs ≤ i ∧ i < it.offs + 40) ∨ e ≤ i ∧ i < c.lebSize)

section Rest

variable {m m' : Mem} {c : UbifsInfo} {a e : Int} {its : List Item}

private theorem relied_on_next {o : Int} {before after : List Item}
    (hdec : Decomposes m c a its e) (hsplit : its = before ++ after)
    (hafter : Tiles m c.lebSize o after e) : o = c.lebSize ∨ ReliedOn m c a o := by
  by_cases hend : o = c.lebSize
  · exact .inl hend
  · refine .inr ⟨its, e, hdec, ?_⟩
    cases hafter with
    | nil =>
        have hle := hdec.le
        exact .inr (.inr (by omega))
    | @cons _ _ _ it rest hstep _ =>
        refine .inl ⟨it, by simp [hsplit], ?_⟩
        have hcore := Item.core_pos hstep.2.1
        have hoffs := hstep.1
        omega

theorem Decomposes.of_relied (hg : Geometry c a) (hdec : Decomposes m c a its e)
    (hagree : ∀ i, ReliedOn m c a i → m' i = m i) :
    Decomposes m' c a its e ∧ recorded m' its = recorded m its := by
  have hitem : ∀ it ∈ its, IsItem m' c.lebSize it := by
    intro it hit
    obtain ⟨x, y, before, after, hsplit, hbefore, hstep, hafter⟩ := hdec.tiles.mem_step hit
    have hx8 := Tiles.aligned hbefore hg.start
    have hL8 := hg.leb
    have hfits := hstep.2.1.fits (by rw [hstep.1]; omega)
    refine hstep.2.1.transport (fun i hi hi' => ?_) hfits fun hkind => ?_
    · exact hagree i ⟨its, e, hdec, .inl ⟨it, hit, hi, hi'⟩⟩
    · rw [hstep.1, ← hstep.2.2]
      have hsplit' : its = (before ++ [it]) ++ after := by simp [hsplit]
      rcases relied_on_next hdec hsplit' hafter with hend | hrel
      · exact .inl hend
      · rw [hagree y hrel]
        have hmax := (hstep.2.1.isRaw hkind).maximal
        rwa [hstep.1, ← hstep.2.2] at hmax
  refine ⟨⟨hdec.tiles.of_items hitem, hdec.le, hdec.aligned, fun i hi hi' => ?_⟩, ?_⟩
  · rw [hagree i ⟨its, e, hdec, .inr (.inr ⟨hi, hi'⟩)⟩]
    exact hdec.empty i hi hi'
  · apply recorded_congr
    intro it hit hkind
    apply scanNodeAt_congr
    · intro i hi hi'
      refine hagree i ⟨its, e, hdec, .inl ⟨it, hit, hi, ?_⟩⟩
      simpa only [Item.core, hkind] using hi'
    · intro hkey i hi hi'
      exact hagree i ⟨its, e, hdec, .inr (.inl ⟨it, hit, hkind, hkey, hi, hi'⟩)⟩

end Rest

/-- **Padding contents, gaps and payloads do not matter.** Another block with the same relied-on
bytes gives the same result. -/
theorem ubifsScan_ignores_rest (A : Allocator) (c : UbifsInfo) (lnum offs : Int)
    (sbuf sbuf' : Mem) (quiet : Bool) (w w' : World) (v : LebView) (hg : Geometry c offs)
    (hfit : SumsFit sbuf c.lebSize offs)
    (hscan : scanOutcome (.harness A) c lnum offs sbuf quiet w = some (.scanned v))
    (hagree : ∀ i, ReliedOn sbuf c offs i → sbuf' i = sbuf i)
    (hA : AllocsSucceed (.harness A) c lnum offs sbuf' quiet w') :
    scanOutcome (.harness A) c lnum offs sbuf' quiet w' = some (.scanned v) := by
  obtain ⟨its, e, hdec, rfl⟩ := decomposes_of_scanned hg hfit hscan
  obtain ⟨hdec', hrec⟩ := hdec.of_relied hg hagree
  rw [scanOutcome_of_decomposes hg (hdec'.sumsFit hg) hA hdec', blockView, hrec]
  rfl

/-- The sample block with other padding behind its pad node. -/
def sampleRepadded : Mem := fun i => if 68 ≤ i ∧ i < 72 then 0x31#8 else sampleLeb i

theorem sample_ignores_padding :
    scanOutcome (.harness .bump) sampleInfo 3 0 sampleRepadded true .boot =
      some (.scanned (blockView sampleLeb 3 sampleItems 80)) := by
  apply ubifsScan_ignores_rest .bump sampleInfo 3 0 sampleLeb sampleRepadded true .boot .boot _
    sample_geometry (sample_decomposes.sumsFit sample_geometry) (by decide +kernel) ?_
    (.of_count (by decide +kernel))
  rintro i ⟨its, e, hdec, hi⟩
  obtain ⟨rfl, rfl⟩ := hdec.unique (by decide) (by decide) sample_decomposes
  apply if_neg
  simp only [sampleItems, sampleInfo, List.mem_cons, List.not_mem_nil, or_false, Item.core,
    exists_eq_or_imp, exists_eq_left, reduceCtorEq, false_and, or_false] at hi
  omega

/-- The outcome of a scan with `nodes` collected before it. -/
def Outcome.after (nodes : List ScanNode) : Outcome → Outcome
  | .scanned v => .scanned { v with
      nodesCnt := nodes.length + v.nodesCnt, nodes := nodes ++ v.nodes }
  | .failed err => .failed err

section Resume

variable {m m' : Mem} {c c' : UbifsInfo} {a e : Int} {its : List Item}

/-- Every pad node before `e` covers its padding length, every keyed node its key. -/
def RoomyBefore (m : Mem) (L a e : Int) : Prop :=
  ∀ its o, Tiles m L a its o → o < e →
    (IsPadHeader m o (L - o) → 28 ≤ (chLen m o).toInt) ∧
      (IsKeyedHeader m o (L - o) → 40 ≤ (chLen m o).toInt)

theorem roomyBefore_of_items {L : Int} (h : Tiles m L a its e)
    (hits : ∀ it ∈ its,
      (IsPadHeader m it.offs (L - it.offs) → 28 ≤ (chLen m it.offs).toInt) ∧
        (IsKeyedHeader m it.offs (L - it.offs) → 40 ≤ (chLen m it.offs).toInt)) :
    RoomyBefore m L a e := by
  intro its' o h' ho
  rcases Steps.comparable (itemStep_deterministic m L) h h' with
    ⟨rest, -, hrest⟩ | ⟨rest, rfl, hrest⟩
  · have hle := Tiles.le hrest
    omega
  · cases hrest with
    | nil => omega
    | @cons _ _ _ it rest hstep _ => exact hstep.1 ▸ hits it (by simp)

/-- What the code reads of each header before `p` lies before `p`: the padding length of a pad node
and the key of a keyed node. -/
def ReadsBefore (m : Mem) (L a p : Int) : Prop :=
  ∀ its o, Tiles m L a its o → o < p →
    (IsPadHeader m o (L - o) → o + 28 ≤ p) ∧ (IsKeyedHeader m o (L - o) → o + 40 ≤ p)

/-- A node that covers what is read of it keeps that before the end of the items. -/
theorem RoomyBefore.reads {L : Int} (h : RoomyBefore m L a e) (htiles : Tiles m L a its e) :
    ReadsBefore m L a e := by
  intro its' o h' ho
  obtain ⟨h28, h40⟩ := h its' o h' ho
  have hsize : ∀ it o', ItemStep m L o it o' → IsHeader m o (L - o) →
      (chLen m o).toInt ≤ it.size := by
    rintro it o' ⟨rfl, hitem, -⟩ hheader
    cases hkind : it.kind with
    | raw => exact absurd hheader (hitem.isRaw hkind).not_header
    | pad =>
        have hpad := (hitem.isPad hkind).size
        have hlen := (hitem.isPad hkind).padLen
        omega
    | node =>
        have hnode := (hitem.isNode hkind).size
        omega
  rcases Steps.comparable (itemStep_deterministic m L) h' htiles with
    ⟨rest, -, hrest⟩ | ⟨rest, -, hrest⟩
  · cases hrest with
    | nil => omega
    | @cons _ y _ it rest hstep hafter =>
        have hle := Tiles.le hafter
        have hy := hstep.2.2
        constructor
        · intro hpad
          have hlen := hsize it y hstep hpad.1
          have hroom := h28 hpad
          omega
        · intro hkeyed
          have hlen := hsize it y hstep hkeyed.1
          have hroom := h40 hkeyed
          omega
  · have hle := Tiles.le hrest
    omega

theorem tiles_resume {L L' p : Int} (hL : L % 8 = 0) (ha : a % 8 = 0) (haL : a ≤ L)
    (htiles : Tiles m L a its e) (hreads : ReadsBefore m L a p) (he : e ≤ L') (hep : e ≤ p)
    (hagree : AgreeOn m m' a p)
    (hraw : ∀ its it, Tiles m L a (its ++ [it]) e → it.kind = .raw →
      e = L' ∨ m' e ≠ ubifsPaddingByte) :
    Tiles m' L' a its e ∧ recorded m' its = recorded m its := by
  have hplace : ∀ it ∈ its, a ≤ it.offs ∧ IsItem m L it ∧ it.offs + it.size ≤ e ∧
      (IsPadHeader m it.offs (L - it.offs) → it.offs + 28 ≤ p) ∧
      (IsKeyedHeader m it.offs (L - it.offs) → it.offs + 40 ≤ p) := by
    intro it hit
    obtain ⟨x, y, before, after, -, hbefore, ⟨hoffs, hitem, hy⟩, hafter⟩ := htiles.mem_step hit
    subst hoffs hy
    have hle := Tiles.le hafter
    have hpos := hitem.size_pos
    exact ⟨Tiles.le hbefore, hitem, hle, hreads before it.offs hbefore (by omega)⟩
  constructor
  · refine htiles.carry hL ha haL he hep hagree (fun it hit hkind => ?_)
      fun before it hlast hkind => ?_
    · obtain ⟨-, hitem, -, h28, -⟩ := hplace it hit
      have hp := hitem.isPad hkind
      exact h28 ⟨hp.toIsHeader, hp.type⟩
    · exact hraw before it (hlast ▸ htiles) hkind
  · refine recorded_congr fun it hit hkind => ?_
    obtain ⟨hlo, hitem, hle, -, h40⟩ := hplace it hit
    have hn := hitem.isNode hkind
    have hsize := hn.size
    have hlen := hn.lo
    simp only [ubifsChSz] at hlen
    refine scanNodeAt_congr (hagree.mono hlo (by omega)) fun hkey => ?_
    exact hagree.mono hlo (h40 ⟨hn.toIsHeader, hkey⟩)

private theorem decomposes_resume (hg : Geometry c a) (htiles : Tiles m c.lebSize a its e)
    (hdec : ∃ its' e', Decomposes m c a its' e') : ∃ rest e', Decomposes m c e rest e' := by
  obtain ⟨its', e', htiles', hle, haligned, hempty⟩ := hdec
  have hstuck := stuck_of_empty hg.leb (htiles'.aligned hg.start) hle hempty
  obtain ⟨rest, -, hrest⟩ :=
    Steps.extends_of_stuck (itemStep_deterministic m c.lebSize) htiles' hstuck htiles
  exact ⟨rest, e', hrest, hle, haligned, hempty⟩

private theorem sumsFit_resume (hg : Geometry c a) (htiles : Tiles m c.lebSize a its e)
    (hfit : SumsFit m c.lebSize e) : SumsFit m c.lebSize a := by
  intro its' o htiles'
  rcases Steps.comparable (itemStep_deterministic m c.lebSize) htiles htiles' with
    ⟨rest, -, hrest⟩ | ⟨rest, -, hrest⟩
  · exact hfit rest o hrest
  · cases hrest with
    | nil => exact hfit [] _ (.nil _)
    | cons hstep _ => exact hstep.1 ▸ hstep.2.1.sumFits hg.int

private theorem scan_resume {A : Allocator} {lnum : Int} {quiet : Bool} {w₁ w₂ : World}
    (hg : Geometry c a) (he : e ≤ c.lebSize) (htiles : Tiles m c.lebSize a its e)
    (hfit : SumsFit m c.lebSize e) (hA₁ : AllocsSucceed (.harness A) c lnum a m quiet w₁)
    (hA₂ : AllocsSucceed (.harness A) c lnum e m quiet w₂) :
    scanOutcome (.harness A) c lnum a m quiet w₁ =
      (scanOutcome (.harness A) c lnum e m quiet w₂).map (Outcome.after (recorded m its)) := by
  have hin := htiles.inside hg.inside
  have hg' : Geometry c e := ⟨hg.leb, hg.int, hin.aligned, hin.nonneg, he, hg.minIo⟩
  have hfit₁ := sumsFit_resume hg htiles hfit
  rcases scanOutcome_cases hg' hfit hA₂ with ⟨rest, e', hdec, hout⟩ | ⟨hno, hout⟩
  · have hall : Decomposes m c a (its ++ rest) e' :=
      ⟨htiles.append hdec.tiles, hdec.le, hdec.aligned, hdec.empty⟩
    rw [hout, scanOutcome_of_decomposes hg hfit₁ hA₁ hall]
    simp [Outcome.after, blockView]
  · rw [hout, scanOutcome_of_not_decomposes hg hfit₁ hA₁ ?_]
    · rfl
    · intro its' e' hdec
      obtain ⟨rest, e'', hrest⟩ := decomposes_resume hg htiles ⟨its', e', hdec⟩
      exact hno rest e'' hrest

end Resume

/-- **Resuming.** Where the main loop comes to `e` in one block, the scan of another block with the
same bytes before `e` is the collection of the nodes before `e`, continued by the scan from `e`. -/
theorem ubifsScan_resumes (A : Allocator) (c c' : UbifsInfo) (lnum a e : Int) (I J : Mem)
    (quiet : Bool) (w v w₁ w₂ : World) (sleb : Addr) (hg : Geometry c a)
    (hfit : SumsFit I c.lebSize a)
    (hhead : ScanHeads (.harness A) c lnum a I quiet w sleb (.at c.lebSize e, v))
    (hroom : RoomyBefore I c.lebSize a e) (hg' : Geometry c' a) (he : e ≤ c'.lebSize)
    (hagree : AgreeOn I J a e)
    (hraw : ∀ its it, Tiles I c.lebSize a (its ++ [it]) e → it.kind = .raw →
      e = c'.lebSize ∨ J e ≠ ubifsPaddingByte)
    (hfit' : SumsFit J c'.lebSize e)
    (hA₁ : AllocsSucceed (.harness A) c' lnum a J quiet w₁)
    (hA₂ : AllocsSucceed (.harness A) c' lnum e J quiet w₂) :
    ∃ its, Tiles I c.lebSize a its e ∧ (v.heap.view sleb).nodes = recorded I its ∧
      scanOutcome (.harness A) c' lnum a J quiet w₁ =
        (scanOutcome (.harness A) c' lnum e J quiet w₂).map
          (Outcome.after (recorded I its)) := by
  obtain ⟨its, o, hcur, hat⟩ := hhead.atHead hg.inside fun _ _ _ _ htiles => hfit.skipFits htiles
  obtain rfl : e = o := congrArg Cursor.offs hcur
  obtain ⟨nodes, hheld, hrec, -⟩ := hat.held
  obtain ⟨htiles, hsame⟩ := tiles_resume hg.leb hg.start hg.le hat.tiles (hroom.reads hat.tiles)
    he (Int.le_refl e) hagree hraw
  refine ⟨its, hat.tiles, hheld.view_nodes.trans hrec, ?_⟩
  rw [← hsame]
  exact scan_resume hg' he htiles hfit' hA₁ hA₂

/-- The node of the sample block, followed by padding bytes. -/
def resumedLeb : Mem := fun i => if i < 40 then sampleLeb i else ubifsPaddingByte

theorem sample_head : ∃ v, ScanHeads (.harness .bump) sampleInfo 3 0 sampleLeb true .boot 1
    (.at 96 40, v) := by
  let firstRound : Program World (Addr × Option Cursor) := do
    let sleb ← ubifsStartScan (.harness .bump) sampleInfo 3 0
    let r ← scanRound (.harness .bump) sampleInfo 3 sampleLeb true sleb (.start sampleInfo 0)
    return (sleb, r.getLeft?)
  have hrun : (firstRound.run .boot).map Prod.fst = some (1, some (.at 96 40)) := by
    decide +kernel
  obtain ⟨⟨r, v⟩, hround, rfl⟩ := Option.map_eq_some_iff.mp hrun
  simp only [firstRound, StateT.run_bind, Option.bind_eq_bind, Option.bind_eq_some_iff] at hround
  obtain ⟨⟨sleb, w₁⟩, hstart, ⟨leave, w₂⟩, hbody, hret⟩ := hround
  obtain ⟨hpair, rfl⟩ := Prod.mk.inj (Option.some.inj hret)
  obtain ⟨rfl, hleft⟩ := Prod.mk.inj hpair
  obtain rfl := Sum.getLeft?_eq_some_iff.mp hleft
  exact ⟨w₂, w₁, hstart, by decide, .single hbody⟩

theorem sample_resumes :
    scanOutcome (.harness .bump) ⟨48, 8⟩ 3 0 resumedLeb true .boot =
      some (.scanned ⟨3, 48, 1, [scanNodeAt sampleLeb 0]⟩) := by
  obtain ⟨v, hhead⟩ := sample_head
  have hg : Geometry ⟨48, 8⟩ 0 :=
    ⟨by decide, by decide, by decide, by decide, by decide, 3, by decide, by decide⟩
  have hg' : Geometry ⟨48, 8⟩ 40 :=
    ⟨by decide, by decide, by decide, by decide, by decide, 3, by decide, by decide⟩
  have hdec : Decomposes resumedLeb ⟨48, 8⟩ 40 [⟨.raw, 40, 8⟩] 48 := by decide +kernel
  have hone : Tiles sampleLeb 96 0 [⟨.node, 0, 40⟩] 40 := by decide +kernel
  have hrest : scanOutcome (.harness .bump) ⟨48, 8⟩ 3 40 resumedLeb true .boot =
      some (.scanned ⟨3, 48, 0, []⟩) := by decide +kernel
  obtain ⟨its, htiles, -, hscan⟩ := ubifsScan_resumes .bump sampleInfo ⟨48, 8⟩ 3 0 40 sampleLeb
    resumedLeb true .boot v .boot .boot 1 sample_geometry
    (sample_decomposes.sumsFit sample_geometry) hhead
    (roomyBefore_of_items hone (by decide +kernel)) hg (by decide) (fun i _ hi => if_pos hi)
    (fun its it htiles hkind => by
      have hlist : its ++ [it] = [] ++ [⟨.node, 0, 40⟩] := htiles.unique hone
      obtain rfl := List.singleton_inj.mp (List.append_inj' hlist rfl).2
      cases hkind)
    (hdec.sumsFit hg') (.of_count (by decide +kernel)) (.of_count (by decide +kernel))
  obtain rfl := htiles.unique hone
  rw [hscan, hrest]
  rfl

end UbifsScan
