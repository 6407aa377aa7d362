import UbifsScan.Refinement.Recorded
import UbifsScan.Refinement.Builder
import UbifsScan.Results.Acceptance

/-!
# Building undoes scanning

From what the scan list keeps of a node, `ut_make_node` writes the header that was scanned.
-/

namespace UbifsScan

open Mem Program

/-- The group type and the padding of the header at `o` are zero. -/
def PlainHeader (m : Mem) (o : Int) : Prop := ∀ i, o + 21 ≤ i → i < o + 24 → m i = 0#8

/-- What the scan list keeps of a header. -/
def headerFields (snod : ScanNode) : Int × Int × Int × BitVec 64 :=
  (snod.offs, snod.type, snod.len, snod.sqnum)

/-- The headers of the nodes rewritten in place: each is built in the buffer `scratch` and its 24
bytes are copied into the block. -/
def rewriteHeaders (st : CrcStatics) (scratch m : Mem) : List ScanNode → Mem
  | [] => m
  | snod :: snods =>
      let (scratch, st) := utMakeNode st scratch 0 snod.type snod.len snod.sqnum
      rewriteHeaders st scratch (splice m snod.offs scratch ubifsChSz) snods

/-- A call of `ubifs_scan`. Its sizes are `int`s, that of the block is not negative, and
`ubifs_leb_read` fails with an error number. -/
structure ScanCall where
  env : Env
  info : UbifsInfo
  lnum : Int
  offs : Int
  quiet : Bool
  world : World
  errno : env.ReadFails info lnum offs →
    -4095 ≤ env.readError info lnum offs ∧ env.readError info lnum offs < 0
  size : 0 ≤ info.lebSize
  sizeInt : info.lebSize < 2147483648
  offsInt : -2147483648 ≤ offs ∧ offs < 2147483648

def ScanCall.outcome (call : ScanCall) (sbuf : Mem) : Option Outcome :=
  scanOutcome call.env call.info call.lnum call.offs sbuf call.quiet call.world

section Fields

variable {m m' : Mem} {o o' len len' : Int}

private theorem word_bytes {a : Int} (h : le32 m' (o' + a) = le32 m (o + a)) :
    ∀ i, a ≤ i → i < a + 4 → m' (o' + i) = m (o + i) := by
  intro i hi hi'
  have hbyte := bytesAt_eq_iff.mp (le32_inj h) (i - a).toNat (by omega)
  rwa [show o' + a + ((i - a).toNat : Int) = o' + i by omega,
    show o + a + ((i - a).toNat : Int) = o + i by omega] at hbyte

private theorem covered_bytes (hplain : PlainHeader m o) (hplain' : PlainHeader m' o')
    (hsqnum : chSqnum m' o' = chSqnum m o) (hlen : chLen m' o' = chLen m o)
    (htype : chNodeType m' o' = chNodeType m o) :
    ∀ i, 8 ≤ i → i < 24 → m' (o' + i) = m (o + i) := by
  obtain ⟨hlow, hhigh⟩ := le64_inj hsqnum
  rw [Int.add_assoc, Int.add_assoc] at hhigh
  intro i hi hi'
  obtain hi₁ | hi₁ | hi₁ | rfl | hi₁ :
    i < 12 ∨ 12 ≤ i ∧ i < 16 ∨ 16 ≤ i ∧ i < 20 ∨ i = 20 ∨ 21 ≤ i := by omega
  · exact word_bytes hlow i hi hi₁
  · exact word_bytes hhigh i hi₁.1 hi₁.2
  · exact word_bytes hlen i hi₁.1 hi₁.2
  · exact htype
  · rw [hplain' _ (by omega) (by omega), hplain _ (by omega) (by omega)]

/-- A header with zero group type and padding is determined by its other fields; its CRC follows
from them. -/
theorem IsHeader.bytes_eq (h : IsHeader m o len) (h' : IsHeader m' o' len')
    (hplain : PlainHeader m o) (hplain' : PlainHeader m' o') (hsqnum : chSqnum m' o' = chSqnum m o)
    (hlen : chLen m' o' = chLen m o) (htype : chNodeType m' o' = chNodeType m o) :
    bytesAt m' o' 24 = bytesAt m o 24 := by
  have hfields := covered_bytes hplain hplain' hsqnum hlen htype
  have hcovered : chCovered m' o' = chCovered m o := by
    rw [chCovered, chCovered, bytesAt_eq_iff]
    intro k hk
    rw [Int.add_assoc, Int.add_assoc]
    exact hfields (8 + k) (by omega) (by omega)
  have hcrc : chCrc m' o' = chCrc m o := by
    rw [← h'.crc, ← h.crc, hcovered]
  have hmagic : le32 m' (o' + 0) = le32 m (o + 0) := by
    rw [Int.add_zero, Int.add_zero]
    exact h'.magic.trans h.magic.symm
  rw [bytesAt_eq_iff]
  intro k hk
  obtain hk₁ | hk₁ | hk₁ : (k : Int) < 4 ∨ 4 ≤ (k : Int) ∧ (k : Int) < 8 ∨ 8 ≤ (k : Int) := by
    omega
  · exact word_bytes hmagic k (by omega) hk₁
  · exact word_bytes hcrc k hk₁.1 hk₁.2
  · exact hfields k hk₁ (by omega)

/-- The `int` type of a scan node is the byte it was read from again when it is written. -/
theorem ofInt_toNat_byte (b : Byte) : BitVec.ofInt 8 (b.toNat : Int) = b := by
  rw [BitVec.ofInt_natCast, BitVec.ofNat_toNat, BitVec.setWidth_eq]

theorem utMakeNode_rebuilds {st : CrcStatics} (hst : st.Lazy) (blank : Mem) (buf : Int)
    (h : IsHeader m o len) (hplain : PlainHeader m o) :
    bytesAt (utMakeNode st blank buf (chNodeType m o).toNat (chLen m o).toInt (chSqnum m o)).1
      buf 24 = bytesAt m o 24 := by
  have hmade := (utMakeNode_made hst blank buf (chNodeType m o).toNat (chSqnum m o) h.lo
    (toInt_range _).2).1
  apply h.bytes_eq (hmade.isHeader h.lo (Int.le_refl _)) hplain hmade.zero hmade.sqnum
  · exact BitVec.eq_of_toInt_eq hmade.len
  · rw [hmade.type, ofInt_toNat_byte]

theorem Accepted.rebuilds {L : Int} {snod : ScanNode} (h : Accepted m L snod)
    (hplain : PlainHeader m snod.offs) {st : CrcStatics} (hst : st.Lazy) (blank : Mem)
    (buf : Int) :
    bytesAt (utMakeNode st blank buf snod.type snod.len snod.sqnum).1 buf 24 =
      bytesAt m snod.offs 24 := by
  obtain ⟨hheader, heq⟩ := h
  generalize snod.offs = o at hheader hplain heq
  subst heq
  exact utMakeNode_rebuilds hst blank buf hheader hplain

end Fields

section Rewrite

variable {m : Mem} {L : Int}

theorem rewriteHeaders_eq_self {st : CrcStatics} (hst : st.Lazy) (scratch : Mem)
    {snods : List ScanNode} (h : ∀ snod ∈ snods, Accepted m L snod)
    (hplain : ∀ snod ∈ snods, PlainHeader m snod.offs) :
    rewriteHeaders st scratch m snods = m := by
  induction snods generalizing st scratch with
  | nil => rfl
  | cons snod snods ih =>
      obtain ⟨hsnod, hsnods⟩ := List.forall_mem_cons.mp h
      obtain ⟨hp, hps⟩ := List.forall_mem_cons.mp hplain
      let built := utMakeNode st scratch 0 snod.type snod.len snod.sqnum
      have hsame : splice m snod.offs built.1 ubifsChSz = m :=
        splice_eq_self (hsnod.rebuilds hp hst scratch 0)
      change rewriteHeaders built.2 built.1 (splice m snod.offs built.1 ubifsChSz) snods = m
      rw [hsame]
      exact ih (utMakeNode_lazy hst scratch 0 _ _ _) _ hsnods hps

end Rewrite

theorem ScanCall.accepted (call : ScanCall) {sbuf : Mem} {v : LebView}
    (hscan : call.outcome sbuf = some (.scanned v)) :
    ∀ snod ∈ v.nodes, Accepted sbuf call.info.lebSize snod := by
  obtain ⟨⟨r, w'⟩, hrun, hout⟩ := Option.map_eq_some_iff.mp hscan
  rw [Heap.outcome] at hout
  split at hout
  · cases hout
  rename_i hvalid
  obtain rfl := Outcome.scanned.inj hout
  obtain ⟨nodes, hheld, hall⟩ := ensures_ubifsScan_recording call.errno call.size call.sizeInt
    call.offsInt.1 call.offsInt.2 r w' hrun (by simpa using hvalid)
  dsimp only
  rw [hheld.view_nodes]
  intro snod hsnod
  obtain ⟨a, ha, rfl⟩ := List.mem_map.mp hsnod
  exact hall a ha

/-- **Building undoes scanning on headers.** From the type, length and sequence number that a scan
records, `ut_make_node` writes the bytes of the scanned header again, its CRC included. So the scan
list determines the headers, and writing them again in place changes nothing. -/
theorem utMakeNode_undoes_ubifsScan (call : ScanCall) (sbuf : Mem) (v : LebView)
    (hscan : call.outcome sbuf = some (.scanned v)) :
    (∀ snod ∈ v.nodes, PlainHeader sbuf snod.offs →
      ∀ (st : LazyCrc) (blank : Mem) (buf : Int),
        bytesAt (utMakeNode st.val blank buf snod.type snod.len snod.sqnum).1 buf 24 =
          bytesAt sbuf snod.offs 24) ∧
      (∀ (call' : ScanCall) (sbuf' : Mem) (v' : LebView),
        call'.outcome sbuf' = some (.scanned v') →
        v'.nodes.map headerFields = v.nodes.map headerFields →
        ∀ snod ∈ v.nodes, PlainHeader sbuf snod.offs → PlainHeader sbuf' snod.offs →
          bytesAt sbuf' snod.offs 24 = bytesAt sbuf snod.offs 24) ∧
      ((∀ snod ∈ v.nodes, PlainHeader sbuf snod.offs) →
        ∀ (st : LazyCrc) (scratch : Mem),
          rewriteHeaders st.val scratch sbuf v.nodes = sbuf) := by
  have haccepted := call.accepted hscan
  refine ⟨?_, ?_, ?_⟩
  · intro snod hsnod hplain st blank buf
    exact (haccepted snod hsnod).rebuilds hplain st.property blank buf
  · intro call' sbuf' v' hscan' hfields snod hsnod hplain hplain'
    have hmem : headerFields snod ∈ v'.nodes.map headerFields :=
      hfields ▸ List.mem_map_of_mem hsnod
    obtain ⟨snod', hsnod', heq⟩ := List.mem_map.mp hmem
    simp only [headerFields, Prod.mk.injEq] at heq
    obtain ⟨hoffs, htype, hlen, hsqnum⟩ := heq
    rw [← hoffs] at hplain'
    -- Both headers are what the builder writes for these fields.
    have hbuilt := (haccepted snod hsnod).rebuilds hplain CrcStatics.boot_lazy (fun _ => 0) 0
    have hbuilt' := (call'.accepted hscan' snod' hsnod').rebuilds hplain' CrcStatics.boot_lazy
      (fun _ => 0) 0
    rw [htype, hlen, hsqnum, hoffs] at hbuilt'
    exact hbuilt'.symm.trans hbuilt
  · intro hplain st scratch
    exact rewriteHeaders_eq_self st.property scratch haccepted hplain

/-- The call that scans the sample block. -/
def sampleCall : ScanCall where
  env := .harness .bump
  info := sampleInfo
  lnum := 3
  offs := 0
  quiet := true
  world := .boot
  errno := fun h => absurd rfl h.1
  size := by decide
  sizeInt := by decide
  offsInt := by decide

theorem sample_rebuilds :
    bytesAt (utMakeNode .boot (fun _ => 0xAA) 7 0 40 11).1 7 24 = bytesAt sampleLeb 0 24 ∧
      rewriteHeaders .boot (fun _ => 0xAA) sampleLeb [scanNodeAt sampleLeb 0] = sampleLeb := by
  have hscan : sampleCall.outcome sampleLeb =
      some (.scanned ⟨3, 80, 1, [scanNodeAt sampleLeb 0]⟩) := by decide +kernel
  have hplain : PlainHeader sampleLeb 0 := by
    intro i hi hi'
    obtain rfl | rfl | rfl : i = 21 ∨ i = 22 ∨ i = 23 := by omega
    all_goals decide
  have hundo := utMakeNode_undoes_ubifsScan sampleCall sampleLeb _ hscan
  have hall : ∀ snod ∈ [scanNodeAt sampleLeb 0], PlainHeader sampleLeb snod.offs := by
    intro snod hsnod
    rw [List.mem_singleton.mp hsnod]
    exact hplain
  exact ⟨hundo.1 _ List.mem_cons_self hplain ⟨.boot, CrcStatics.boot_lazy⟩ _ 7,
    hundo.2.2 hall ⟨.boot, CrcStatics.boot_lazy⟩ _⟩

end UbifsScan
