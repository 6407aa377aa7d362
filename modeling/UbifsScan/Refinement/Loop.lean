import UbifsScan.Refinement.Heap

/-!
# The main loop

At each head of the main loop the three cursors agree, the bytes behind them are tiled by items
and the list holds the nodes among these. One round reads the next item or stops where there is
none.
-/

namespace UbifsScan

open Mem Program

section Verdict

variable {m : Mem} {L o ret : Int}

theorem stuck_of_not_header (hraw : ∀ n, ¬ IsRaw m L o n) (hheader : ¬ IsHeader m o (L - o)) :
    Steps.Stuck (ItemStep m L) o := by
  rintro ⟨kind, p, n⟩ o' ⟨rfl, hitem, -⟩
  cases kind with
  | raw => exact hraw n hitem
  | pad => exact hheader (IsPad.toIsHeader hitem)
  | node => exact hheader (IsNode.toIsHeader hitem)

theorem stuck_of_magic (hmagic : chMagic m o = ubifsNodeMagic) (hheader : ¬ HeaderOk m o (L - o)) :
    Steps.Stuck (ItemStep m L) o :=
  stuck_of_not_header (fun _ hr => hr.not_magic hmagic) fun h => hheader h.toHeaderOk

theorem wrap32_mod8 (x : Int) : wrap32 x % 8 = x % 8 := by
  simp only [wrap32]
  omega

theorem stuck_of_badPad (hpad : IsPadHeader m o (L - o)) (h0 : 0 ≤ o) (hint : L < 2147483648)
    (hbad : (padPadLen m o).toInt < 0 ∨
      L < wrap32 (wrap32 (o + (chLen m o).toInt) + (padPadLen m o).toInt) ∨
      wrap32 ((chLen m o).toInt + (padPadLen m o).toInt) % 8 ≠ 0) :
    Steps.Stuck (ItemStep m L) o := by
  rintro ⟨kind, p, n⟩ o' ⟨rfl, hitem, -⟩
  cases kind with
  | raw => exact IsRaw.not_header (show IsRaw m L p n from hitem) hpad.1
  | node => exact IsNode.type (show IsNode m L p n from hitem) hpad.2
  | pad =>
      have hp : IsPad m L p n := hitem
      have hpl := hp.padLen
      have hsize := hp.size
      have hfits := hp.fits
      have h8 := hp.aligned
      have hlo := hp.lo
      simp only [ubifsChSz] at hlo h0 hbad
      rw [wrap32_mod8, wrap32_of_fits (x := p + _) (by omega) (by omega),
        wrap32_of_fits (by omega) (by omega)] at hbad
      omega

theorem isPad_of_verdict (hpad : IsPadHeader m o (L - o)) (h0 : 0 ≤ o) (hfit : SkipFits m L o)
    (hneg : 0 ≤ (padPadLen m o).toInt)
    (hle : wrap32 (wrap32 (o + (chLen m o).toInt) + (padPadLen m o).toInt) ≤ L)
    (h8 : wrap32 ((chLen m o).toInt + (padPadLen m o).toInt) % 8 = 0) :
    IsPad m L o (wrap32 ((chLen m o).toInt + (padPadLen m o).toInt)) := by
  have hlo := hpad.1.lo
  simp only [ubifsChSz] at hlo
  rw [wrap32_mod8] at h8
  have hsum := hfit hpad hneg h8
  rw [wrap32_of_fits (x := o + _) (by omega) (by omega),
    wrap32_of_fits (by omega) (by omega)] at hle
  rw [wrap32_of_fits (by omega) (by omega)]
  exact ⟨hpad.1, hpad.2, hneg, rfl, by omega, h8⟩

end Verdict

/-- Past the end of the block only the padding length of a pad header and the key of a keyed header
are read, the key once the node is allocated; `granted n` says that the requests up to here and `n`
more succeed. -/
def Overread (granted : Nat → Prop) (m : Mem) (L o i : Int) : Prop :=
  granted 0 ∧ IsPadHeader m o (L - o) ∧ i < o + 28 ∨
    granted 1 ∧ IsKeyedHeader m o (L - o) ∧ i < o + 40

def RoundReads (granted : Nat → Prop) (m : Mem) (L o : Int) (is : List Int) : Prop :=
  ∀ i ∈ is, o ≤ i ∧ (i < L ∨ Overread granted m L o i)

/-- The padding length of a pad header at `o` and the key of a keyed one were read to the end. -/
structure Touched (granted : Nat → Prop) (m : Mem) (L o : Int) (is : List Int) : Prop where
  pad : granted 0 → IsPadHeader m o (L - o) → o + 27 ∈ is
  key : granted 1 → IsKeyedHeader m o (L - o) → o + 39 ∈ is

section Granted

variable {granted granted' : Nat → Prop} {m : Mem} {L o i : Int} {is js : List Int}

theorem Overread.imp (h : Overread granted m L o i) (himp : ∀ n, granted n → granted' n) :
    Overread granted' m L o i :=
  Or.imp (fun hpad => ⟨himp 0 hpad.1, hpad.2⟩) (fun hkey => ⟨himp 1 hkey.1, hkey.2⟩) h

theorem Touched.imp (h : Touched granted m L o is) (himp : ∀ n, granted' n → granted n)
    (hsub : is ⊆ js) : Touched granted' m L o js :=
  ⟨fun hg hp => hsub (h.pad (himp 0 hg) hp), fun hg hk => hsub (h.key (himp 1 hg) hk)⟩

theorem Touched.mono (h : Touched granted m L o is) (hsub : is ⊆ js) :
    Touched granted m L o js := h.imp (fun _ hg => hg) hsub

end Granted

def Cursor.at (L o : Int) : Cursor := ⟨o, o, L - o⟩

/-- How a round of the main loop at `o` ends. -/
inductive RoundEnd (A : Allocator) (m : Mem) (L : Int) (sleb : Addr) (o : Int) (h h' : Heap) :
    Cursor ⊕ Leave → Prop
  | skip {it : Item} {o' : Int} (hstep : ItemStep m L o it o') (hkind : it.kind ≠ .node)
      (hheap : h' = h) : RoundEnd A m L sleb o h h' (.inl (.at L o'))
  | node {it : Item} {o' : Int} {a : Addr} (hstep : ItemStep m L o it o')
      (hkind : it.kind = .node) (hgrant : Heap.Granted A a h h')
      (hadd : SnodAdded (scanNodeAt m o) sleb a h h') : RoundEnd A m L sleb o h h' (.inl (.at L o'))
  | done (hend : o = L ∨ chMagic m o = 0xFFFFFFFF#32) (hheap : h' = h) :
      RoundEnd A m L sleb o h h' (.inr (.done (.at L o)))
  | corrupted (hlt : o < L) (hmagic : chMagic m o ≠ 0xFFFFFFFF#32)
      (hstuck : Steps.Stuck (ItemStep m L) o) (hheap : h' = h) :
      RoundEnd A m L sleb o h h' (.inr (.corrupted (.at L o)))
  | nomem {it : Item} {o' : Int} (hstep : ItemStep m L o it o') (hkind : it.kind = .node)
      (hrefused : ¬ h.Grants A 1) (hheap : h' = h.refused) :
      RoundEnd A m L sleb o h h' (.inr (.error (-enomem)))

theorem RoundEnd.error_eq {A : Allocator} {m : Mem} {L o err : Int} {sleb : Addr} {h h' : Heap}
    (hend : RoundEnd A m L sleb o h h' (.inr (.error err))) : err = -enomem := by
  cases hend with
  | nomem _ _ _ _ => rfl

/-- A round at `o` ends so, and has read what it may. -/
def RoundSpec (A : Allocator) (m : Mem) (L : Int) (sleb : Addr) (o : Int) (w : World)
    (r : Cursor ⊕ Leave) (w' : World) : Prop :=
  RoundEnd A m L sleb o w.heap w'.heap r ∧
    ∃ is, w'.reads = w.reads ++ is ∧ RoundReads (w.heap.Grants A) m L o is ∧
      Touched (w.heap.Grants A) m L o is

/-- The offsets the main loop can be at. -/
structure Inside (L o : Int) : Prop where
  nonneg : 0 ≤ o
  le : o ≤ L
  aligned : o % 8 = 0
  leb : L % 8 = 0
  int : L < 2147483648

theorem Inside.step {m : Mem} {L o o' : Int} {it : Item} (h : Inside L o)
    (hstep : ItemStep m L o it o') : Inside L o' := by
  obtain ⟨hoffs, hitem, ho'⟩ := hstep
  have hfit := hitem.fits (by rw [hoffs]; have := h.aligned; have := h.leb; omega)
  have hpos := hitem.size_pos
  obtain ⟨h0, hle, h8, hL, hint⟩ := h
  exact ⟨by omega, by omega, by omega, hL, hint⟩

theorem Tiles.inside {m : Mem} {L a o : Int} {its : List Item} (h : Tiles m L a its o)
    (hin : Inside L a) : Inside L o :=
  Steps.inv (P := Inside L) (fun _ _ _ hstep ho => ho.step hstep) h hin

theorem Cursor.advance_at {L o n : Int} (hL : L < 2147483648) (h0 : 0 ≤ o + n)
    (hle : o + n ≤ L) : (Cursor.at L o).advance n = Cursor.at L (o + n) := by
  simp only [Cursor.advance, Cursor.at]
  rw [wrap32_of_fits (by omega) (by omega), wrap32_of_fits (by omega) (by omega)]
  simp only [Cursor.mk.injEq, true_and]
  omega

section Round

variable {K : Env} {c : UbifsInfo} {sbuf : Mem} {o : Int} {sleb : Addr}

private theorem raw_reads (h : Heap) {is : List Int}
    (hreads : NodeReads sbuf o (c.lebSize - o) is) :
    RoundReads (h.Grants K.alloc) sbuf c.lebSize o is := by
  intro i hi
  have h := hreads.within i hi
  refine ⟨h.1, ?_⟩
  rcases h.2 with hlt | hpad
  · exact .inl (by omega)
  · exact .inr (.inl ⟨trivial, hpad⟩)

private theorem round_skip {it : Item} {n : Int} {h : Heap} (hin : Inside c.lebSize o)
    (hoffs : it.offs = o) (hsize : it.size = n) (hitem : IsItem sbuf c.lebSize it)
    (hkind : it.kind ≠ .node) :
    RoundEnd K.alloc sbuf c.lebSize sleb o h h (.inl ((Cursor.at c.lebSize o).advance n)) := by
  subst hsize
  have hstep : ItemStep sbuf c.lebSize o it (o + it.size) := ⟨hoffs, hitem, rfl⟩
  have hnext := hin.step hstep
  rw [Cursor.advance_at hin.int hnext.nonneg hnext.le]
  exact .skip hstep hkind rfl

private theorem touched_of_not_keyed (granted : Nat → Prop) {is : List Int}
    (hreads : NodeReads sbuf o (c.lebSize - o) is)
    (hkey : ¬ IsKeyedHeader sbuf o (c.lebSize - o)) : Touched granted sbuf c.lebSize o is :=
  ⟨fun _ => hreads.padWord, fun _ h => absurd h hkey⟩

private theorem not_keyed_of_pad (hpad : IsPadHeader sbuf o (c.lebSize - o)) :
    ¬ IsKeyedHeader sbuf o (c.lebSize - o) := by
  intro hkey
  have h := hkey.2
  rw [hpad.2] at h
  exact absurd h (by decide)

private theorem node_reads {h : Heap} {is js : List Int} (hgrant : h.Grants K.alloc 1)
    (hheader : IsHeader sbuf o (c.lebSize - o))
    (htype : chNodeType sbuf o ≠ NodeType.pad.code)
    (hreads : NodeReads sbuf o (c.lebSize - o) is) (hsnod : SnodReads sbuf o js) :
    RoundReads (h.Grants K.alloc) sbuf c.lebSize o (is ++ js ++ span (o + 16) 4) ∧
      Touched (h.Grants K.alloc) sbuf c.lebSize o (is ++ js ++ span (o + 16) 4) := by
  have hlo := hheader.lo
  have hhi := hheader.hi
  simp only [ubifsChSz] at hlo
  refine ⟨fun i hi => ?_, fun _ hpad => absurd hpad.2 htype, fun _ hkey => ?_⟩
  · rcases List.mem_append.mp hi with hi | hi
    · rcases List.mem_append.mp hi with hi | hi
      · exact raw_reads h hreads i hi
      · have h := hsnod.within i hi
        refine ⟨h.1, ?_⟩
        rcases h.2 with hlt | ⟨hkey, hlt⟩
        · exact .inl (by omega)
        · exact .inr (.inr ⟨hgrant, ⟨hheader, hkey⟩, hlt⟩)
    · rw [mem_span] at hi
      exact ⟨by omega, .inl (by omega)⟩
  · exact List.mem_append_left _ (List.mem_append_right _ (hsnod.key hkey.2))

private theorem round_node {w w₁ : World} {is : List Int} (hin : Inside c.lebSize o)
    (hheader : IsHeader sbuf o (c.lebSize - o)) (htype : chNodeType sbuf o ≠ NodeType.pad.code)
    (hobs : Observed w w₁ is) (hreads : NodeReads sbuf o (c.lebSize - o) is) :
    Returns (do
      let err ← ubifsAddSnod K sleb sbuf o o
      if err ≠ 0 then
        return .inr (.error err)
      let nodeLen := alignedLen (← readLe32 sbuf (o + 16))
      return .inl ((Cursor.at c.lebSize o).advance nodeLen)) w₁
      (RoundSpec K.alloc sbuf c.lebSize sleb o w) := by
  have hlo := hheader.lo
  have hhi := hheader.hi
  have h0 := hin.nonneg
  have hL := hin.leb
  have hint := hin.int
  simp only [ubifsChSz] at hlo
  have hlen := alignedLen_eq (v := chLen sbuf o) (by omega) (by omega)
  have hitem : IsItem sbuf c.lebSize ⟨.node, o, alignedLen (chLen sbuf o)⟩ :=
    (⟨hheader, htype, hlen⟩ : IsNode sbuf c.lebSize o _)
  have hstep : ItemStep sbuf c.lebSize o ⟨.node, o, alignedLen (chLen sbuf o)⟩ _ :=
    ⟨rfl, hitem, rfl⟩
  rw [returns_bind]
  apply (returns_ubifsAddSnod K sleb sbuf o o w₁).mono
  rintro err w₂ (⟨rfl, a, js, hgrant, hadd, hreads', hsnod⟩ | ⟨rfl, hrefused, rfl⟩)
  · have hnext := hin.step hstep
    rw [if_neg (by simp), returns_bind, returns_readLe32, returns_pure]
    rw [hobs.heap] at hadd hgrant
    have hall := node_reads ((hgrant.grants 0).mpr trivial) hheader htype hreads hsnod
    refine ⟨?_, _, ?_, hall.1, hall.2⟩
    · have hadv := Cursor.advance_at hin.int hnext.nonneg hnext.le
      have hend : RoundEnd K.alloc sbuf c.lebSize sleb o w.heap w₂.heap _ :=
        .node hstep rfl hgrant hadd
      simp only at hadv hend
      rw [← hadv] at hend
      exact hend
    · simp [World.see, hreads', hobs.reads]
  · rw [if_pos (by decide), returns_pure]
    rw [hobs.heap] at hrefused
    refine ⟨.nomem hstep rfl hrefused ?_, is, hobs.reads, raw_reads w.heap hreads, ?_⟩
    · rw [← hobs.heap]
    · exact ⟨fun _ hpad => absurd hpad.2 htype, fun hgrant _ => absurd hgrant hrefused⟩

/-- **One round of the main loop.** -/
theorem returns_scanRound (lnum : Int) (quiet : Bool) (hin : Inside c.lebSize o)
    (hfit : SkipFits sbuf c.lebSize o) (w : World) :
    Returns (scanRound K c lnum sbuf quiet sleb (.at c.lebSize o)) w
      (RoundSpec K.alloc sbuf c.lebSize sleb o w) := by
  obtain ⟨h0, hle, h8, hL, hint⟩ := hin
  rw [scanRound, returns_ite]
  split
  · rename_i hshort
    have hend : o = c.lebSize := by
      simp only [Cursor.at] at hshort
      omega
    have hnone : ¬ IsHeader sbuf o (c.lebSize - o) := fun hh => by
      have hroom := hh.room
      omega
    rw [returns_pure]
    refine ⟨.done (.inl hend) rfl, [], by simp, by simp [RoundReads], ?_⟩
    exact ⟨fun _ h => absurd h.1 hnone, fun _ h => absurd h.1 hnone⟩
  rename_i hlong
  have hlen : 8 ≤ c.lebSize - o := by
    simp only [Cursor.at] at hlong
    omega
  have hnode := returns_ubifsScanANode c sbuf o lnum o quiet hlen (by omega) w
  rw [returns_bind]
  apply hnode.mono
  rintro ret w₁ ⟨hverdict, is, hobs, hreads⟩
  have hround := raw_reads w.heap (K := K) hreads
  have hstop : ∀ msg : Msg, chMagic sbuf o ≠ 0xFFFFFFFF#32 →
      Steps.Stuck (ItemStep sbuf c.lebSize) o → ¬ IsKeyedHeader sbuf o (c.lebSize - o) →
      Returns (do ubifsErr msg; return .inr (.corrupted (Cursor.at c.lebSize o))) w₁
        (RoundSpec K.alloc sbuf c.lebSize sleb o w) := by
    intro msg hmagic hstuck hkey
    simp only [returns_bind, returns_ubifsErr, returns_pure]
    exact ⟨.corrupted (by omega) hmagic hstuck hobs.heap, is, hobs.reads, hround,
      touched_of_not_keyed _ hreads hkey⟩
  have hskip : ∀ it : Item, it.offs = o → it.size = ret → IsItem sbuf c.lebSize it →
      it.kind ≠ .node → ¬ IsKeyedHeader sbuf o (c.lebSize - o) →
      RoundSpec K.alloc sbuf c.lebSize sleb o w (.inl ((Cursor.at c.lebSize o).advance ret))
        w₁ := by
    intro it hoffs hsize hitem hkind hkey
    rw [RoundSpec, hobs.heap]
    exact ⟨round_skip ⟨h0, hle, h8, hL, hint⟩ hoffs hsize hitem hkind, is, hobs.reads, hround,
      touched_of_not_keyed _ hreads hkey⟩
  cases hverdict with
  | empty hmagic =>
      have hnone : ¬ IsHeader sbuf o (c.lebSize - o) :=
        fun hh => absurd (hh.magic.symm.trans hmagic) (by decide)
      rw [if_neg (by decide), if_pos rfl, returns_pure]
      exact ⟨.done (.inr hmagic) hobs.heap, is, hobs.reads, hround,
        touched_of_not_keyed _ hreads fun h => hnone h.1⟩
  | @raw n hraw =>
      rw [add_sub_cancel] at hraw
      have hsize := hraw.size
      rw [if_pos (by omega), returns_pure]
      exact hskip ⟨.raw, o, ret⟩ rfl rfl hraw (by simp) fun h => hraw.not_header h.1
  | garbage hempty hraw hheader =>
      rw [add_sub_cancel] at hraw
      rw [if_neg (by decide), if_neg (by decide), if_pos rfl]
      exact hstop _ hempty (stuck_of_not_header hraw hheader) fun h => hheader h.1
  | corrupt hmagic hheader =>
      have hempty : chMagic sbuf o ≠ 0xFFFFFFFF#32 := by
        rw [hmagic]
        decide
      rw [if_neg (by decide), if_neg (by decide), if_neg (by decide), if_neg (by decide),
        if_pos (.inl rfl)]
      exact hstop _ hempty (stuck_of_magic hmagic hheader) fun h => hheader h.1.toHeaderOk
  | badPad hpad hbad =>
      have hempty : chMagic sbuf o ≠ 0xFFFFFFFF#32 := by
        rw [hpad.1.magic]
        decide
      rw [if_neg (by decide), if_neg (by decide), if_neg (by decide), if_neg (by decide),
        if_pos (.inr rfl)]
      exact hstop _ hempty (stuck_of_badPad hpad h0 hint hbad) (not_keyed_of_pad hpad)
  | pad hpad hneg hfits hdvd =>
      generalize hret : wrap32 ((chLen sbuf o).toInt + (padPadLen sbuf o).toInt) = ret at hskip ⊢
      have hitem : IsItem sbuf c.lebSize ⟨.pad, o, ret⟩ :=
        hret ▸ isPad_of_verdict hpad h0 hfit hneg hfits hdvd
      have hpos : 8 ≤ ret := hitem.size_pos.1
      rw [if_pos (by omega), returns_pure]
      exact hskip _ rfl rfl hitem (by simp) (not_keyed_of_pad hpad)
  | node hheader htype =>
      rw [if_neg (by decide), if_neg (by decide), if_neg (by decide), if_pos rfl]
      exact round_node ⟨h0, hle, h8, hL, hint⟩ hheader htype hobs hreads

end Round

def nodesIn (its : List Item) : Nat := its.countP (·.kind = .node)

/-- The requests of a scan up to the end of the items `its`, and `n` more, are granted. -/
def Heap.GrantsAfter (h : Heap) (A : Allocator) (its : List Item) (n : Nat) : Prop :=
  h.Grants A (nodesIn its + 1 + n)

/-- The bytes that a scan from `a` may read. -/
def ScanReads (A : Allocator) (h : Heap) (m : Mem) (L a : Int) (is : List Int) : Prop :=
  ∀ i ∈ is, a ≤ i ∧
    (i < L ∨ ∃ its o, Tiles m L a its o ∧ Overread (h.GrantsAfter A its) m L o i)

structure LoopReads (A : Allocator) (h : Heap) (m : Mem) (L a : Int) (its : List Item)
    (is : List Int) : Prop where
  within : ScanReads A h m L a is
  touched : ∀ before it after, its = before ++ it :: after →
    Touched (h.GrantsAfter A before) m L it.offs is

/-- At the head of the main loop: the items `its` were read and `o` is reached. -/
structure AtHead (A : Allocator) (m : Mem) (L a lnum : Int) (base : World) (sleb : Addr)
    (its : List Item) (o : Int) (w : World) : Prop where
  tiles : Tiles m L a its o
  held : ∃ nodes, Held base.heap sleb nodes w.heap ∧
    nodes.map w.heap.snods = recorded m its ∧
    w.heap.slebs sleb = { ScanLeb.zero with lnum := lnum, nodesCnt := nodes.length }
  grown : Heap.Grown base.heap w.heap
  failures : w.heap.failures = base.heap.failures
  grants : ∀ n, base.heap.GrantsAfter A its n ↔ w.heap.Grants A n
  reads : ∃ is, w.reads = base.reads ++ is ∧ LoopReads A base.heap m L a its is

section Loop

variable {K : Env} {c : UbifsInfo} {sbuf : Mem} {a lnum o : Int} {base w w' : World} {sleb : Addr}
  {its : List Item} {quiet : Bool}

theorem Started.atHead (hs : Started lnum sleb base.heap w.heap) (hreads : w.reads = base.reads)
    (hgrant : Heap.Granted K.alloc sleb base.heap w.heap) :
    AtHead K.alloc sbuf c.lebSize a lnum base sleb [] a w := by
  refine ⟨.nil a, ⟨[], hs.held, rfl, ?_⟩, hs.grown, hs.failures, fun n => ?_, [],
    by simp [hreads], ?_⟩
  · rw [hs.slebs, Function.update_self]
    rfl
  · rw [← hgrant.grants n, Nat.add_comm]
    rfl
  · exact ⟨by simp [ScanReads], by simp⟩

theorem AtHead.scanReads {is js : List Int}
    (hhead : AtHead K.alloc sbuf c.lebSize a lnum base sleb its o w)
    (hreads : ScanReads K.alloc base.heap sbuf c.lebSize a is)
    (hround : RoundReads (w.heap.Grants K.alloc) sbuf c.lebSize o js) :
    ScanReads K.alloc base.heap sbuf c.lebSize a (is ++ js) := by
  intro i hi
  rcases List.mem_append.mp hi with hi | hi
  · exact hreads i hi
  · obtain ⟨hlo, hi'⟩ := hround i hi
    refine ⟨hhead.tiles.le.trans hlo, hi'.imp_right fun hover => ?_⟩
    exact ⟨its, o, hhead.tiles, hover.imp fun n => (hhead.grants n).mpr⟩

private theorem nodesIn_skip {it : Item} (hkind : it.kind ≠ .node) :
    nodesIn (its ++ [it]) = nodesIn its := by
  simp [nodesIn, hkind]

private theorem nodesIn_node {it : Item} (hkind : it.kind = .node) :
    nodesIn (its ++ [it]) = nodesIn its + 1 := by
  simp [nodesIn, hkind]

private theorem recorded_skip {m : Mem} {it : Item} (hkind : it.kind ≠ .node) :
    recorded m [it] = [] := by
  simp [recorded, hkind]

private theorem recorded_node {m : Mem} {it : Item} (hkind : it.kind = .node) :
    recorded m [it] = [scanNodeAt m it.offs] := by
  simp [recorded, hkind]

private theorem wrap32_count {it : Item} {o' : Int} {nodes : List Addr} (hin : Inside c.lebSize a)
    (hrec : nodes.map w.heap.snods = recorded sbuf its)
    (htiles : Tiles sbuf c.lebSize a (its ++ [it]) o') :
    wrap32 ((nodes.length : Int) + 1) = (nodes.length : Int) + 1 := by
  have hlen := htiles.length_le
  have hle := (htiles.inside hin).le
  have h0 := hin.nonneg
  have hint := hin.int
  have hcount : nodes.length ≤ its.length := by
    rw [← List.length_map w.heap.snods, hrec, recorded, List.length_map]
    exact List.length_filter_le _ _
  rw [List.length_append, List.length_singleton] at hlen
  push_cast at hlen
  exact wrap32_of_fits (by omega) (by omega)

theorem AtHead.step {next : Cursor} (hin : Inside c.lebSize a)
    (hhead : AtHead K.alloc sbuf c.lebSize a lnum base sleb its o w)
    (hround : RoundSpec K.alloc sbuf c.lebSize sleb o w (.inl next) w') :
    ∃ it o', next = .at c.lebSize o' ∧ ItemStep sbuf c.lebSize o it o' ∧
      AtHead K.alloc sbuf c.lebSize a lnum base sleb (its ++ [it]) o' w' := by
  obtain ⟨hend, js, hjs, hread, htouch⟩ := hround
  obtain ⟨is, his, hreads⟩ := hhead.reads
  have hall : ∀ it : Item, it.offs = o → ∃ is, w'.reads = base.reads ++ is ∧
      LoopReads K.alloc base.heap sbuf c.lebSize a (its ++ [it]) is := by
    intro it hoffs
    refine ⟨is ++ js, by rw [hjs, his, List.append_assoc], hhead.scanReads hreads.within hread, ?_⟩
    intro before x after hsplit
    rcases List.eq_nil_or_concat after with rfl | ⟨after, y, rfl⟩
    · obtain ⟨rfl, hx⟩ := List.append_inj' hsplit rfl
      obtain rfl := List.singleton_inj.mp hx
      rw [hoffs]
      exact htouch.imp (fun n => (hhead.grants n).mp) (by simp)
    · have hsplit' : its ++ [it] = (before ++ x :: after) ++ [y] := by simp [hsplit]
      obtain ⟨rfl, -⟩ := List.append_inj' hsplit' rfl
      exact (hreads.touched before x after rfl).mono (by simp)
  obtain ⟨htiles, ⟨nodes, hheld, hrec, hcnt⟩, hgrown, hfail, hgrants, -⟩ := hhead
  cases hend with
  | @skip it o' hstep hkind hheap =>
      refine ⟨it, o', rfl, hstep, htiles.snoc hstep, ⟨nodes, ?_, ?_, ?_⟩, ?_, ?_,
        fun n => ?_, hall it hstep.1⟩
      · rw [hheap]
        exact hheld
      · rw [hheap, hrec, recorded_append, recorded_skip hkind, List.append_nil]
      · rw [hheap]
        exact hcnt
      · rw [hheap]
        exact hgrown
      · rw [hheap]
        exact hfail
      · rw [hheap, ← hgrants n, Heap.GrantsAfter, nodesIn_skip hkind]
        rfl
  | @node it o' x hstep hkind hgrant hadd =>
      refine ⟨it, o', rfl, hstep, htiles.snoc hstep,
        ⟨nodes ++ [x], hadd.held hheld, ?_, ?_⟩, hgrown.trans (hadd.grown hheld),
        hadd.failures.trans hfail, fun n => ?_, hall it hstep.1⟩
      · rw [hadd.records hheld, hrec, recorded_append, recorded_node hkind, hstep.1]
      · rw [hadd.slebs, Function.update_self, hcnt]
        simp [wrap32_count hin hrec (htiles.snoc hstep)]
      · rw [← hgrant.grants n, ← hgrants (n + 1), Heap.GrantsAfter, Heap.GrantsAfter,
          nodesIn_node hkind, Nat.add_right_comm _ 1 1, Nat.add_assoc _ 1 n, Nat.add_comm 1 n]

private theorem head_round (K : Env) (quiet : Bool) (hin : Inside c.lebSize a)
    (hhead : AtHead K.alloc sbuf c.lebSize a lnum base sleb its o w)
    (hfit : SkipFits sbuf c.lebSize o) :
    Returns (scanRound K c lnum sbuf quiet sleb (.at c.lebSize o)) w
      (RoundSpec K.alloc sbuf c.lebSize sleb o w) := by
  exact returns_scanRound lnum quiet (hhead.tiles.inside hin) hfit w

/-- The heads that the main loop comes to, where the skip lengths of all before them fit. -/
theorem atHead_of_heads {cur : Cursor} (hin : Inside c.lebSize a)
    (hstart : AtHead K.alloc sbuf c.lebSize a lnum base sleb [] a w)
    (hfit : ∀ its o v, Heads (scanRound K c lnum sbuf quiet sleb) (.at c.lebSize a, w)
      (.at c.lebSize o, v) → Tiles sbuf c.lebSize a its o → SkipFits sbuf c.lebSize o)
    (h : Heads (scanRound K c lnum sbuf quiet sleb) (.at c.lebSize a, w) (cur, w')) :
    ∃ its o, cur = .at c.lebSize o ∧ AtHead K.alloc sbuf c.lebSize a lnum base sleb its o w' := by
  apply heads_inv (fun cur v => ∃ its o, cur = .at c.lebSize o ∧
    AtHead K.alloc sbuf c.lebSize a lnum base sleb its o v) h ?_ ⟨[], a, rfl, hstart⟩
  rintro _ v next u hheads ⟨its, o, rfl, hhead⟩ hround
  have hspec := head_round K quiet hin hhead (hfit its o v hheads hhead.tiles)
  obtain ⟨it, o', rfl, hstep, hnext⟩ := hhead.step hin (hspec.of_run hround)
  exact ⟨_, o', rfl, hnext⟩

theorem returns_scanLoop_last (K : Env) (quiet : Bool) (hin : Inside c.lebSize a)
    (hstart : AtHead K.alloc sbuf c.lebSize a lnum base sleb [] a w)
    (hfit : ∀ its o v, Heads (scanRound K c lnum sbuf quiet sleb) (.at c.lebSize a, w)
      (.at c.lebSize o, v) → Tiles sbuf c.lebSize a its o → SkipFits sbuf c.lebSize o) :
    Returns (iterate (scanRound K c lnum sbuf quiet sleb) ((Cursor.at c.lebSize a).len.toNat + 1)
      (.at c.lebSize a)) w fun leave w' =>
        ∃ its o v, Heads (scanRound K c lnum sbuf quiet sleb) (.at c.lebSize a, w)
            (.at c.lebSize o, v) ∧
          AtHead K.alloc sbuf c.lebSize a lnum base sleb its o v ∧
          (scanRound K c lnum sbuf quiet sleb (.at c.lebSize o)).run v = some (.inr leave, w') ∧
          RoundSpec K.alloc sbuf c.lebSize sleb o v (.inr leave) w' := by
  apply returns_iterate (fun cur v => ∃ its o, cur = .at c.lebSize o ∧
    AtHead K.alloc sbuf c.lebSize a lnum base sleb its o v) (fun cur _ => cur.len.toNat)
  · rintro _ v hheads ⟨its, o, rfl, hhead⟩
    have hspec := head_round K quiet hin hhead (hfit its o v hheads hhead.tiles)
    apply hspec.with_run.mono
    rintro r u ⟨hrun, hr⟩
    cases r with
    | inl next =>
        obtain ⟨it, o', rfl, hstep, hnext⟩ := hhead.step hin hr
        have hat := hnext.tiles.inside hin
        have hpos := hstep.2.1.size_pos
        have hend := hstep.2.2
        have hle := hat.le
        refine ⟨⟨_, o', rfl, hnext⟩, ?_⟩
        simp only [Cursor.at]
        omega
    | inr leave => exact ⟨its, o, v, hheads, hhead, hrun, hr⟩
  · exact ⟨[], a, rfl, hstart⟩
  · exact Nat.lt_succ_self _

/-- **The main loop** stops at a head, where its last round finds no item. -/
theorem returns_scanLoop (K : Env) (quiet : Bool) (hin : Inside c.lebSize a)
    (hstart : AtHead K.alloc sbuf c.lebSize a lnum base sleb [] a w)
    (hfit : ∀ its o v, Heads (scanRound K c lnum sbuf quiet sleb) (.at c.lebSize a, w)
      (.at c.lebSize o, v) → Tiles sbuf c.lebSize a its o → SkipFits sbuf c.lebSize o) :
    Returns (iterate (scanRound K c lnum sbuf quiet sleb) ((Cursor.at c.lebSize a).len.toNat + 1)
      (.at c.lebSize a)) w fun leave w' =>
        ∃ its o v, AtHead K.alloc sbuf c.lebSize a lnum base sleb its o v ∧
          RoundSpec K.alloc sbuf c.lebSize sleb o v (.inr leave) w' := by
  apply (returns_scanLoop_last K quiet hin hstart hfit).mono
  rintro leave w' ⟨its, o, v, -, hhead, -, hround⟩
  exact ⟨its, o, v, hhead, hround⟩

end Loop

end UbifsScan
