import UbifsScan.Model.Scan

/-!
# The test program

`test_scan_a_node.c` with the checks of `ut_support.h`. A test fills a buffer, calls the scanner on
it and compares its answer; the program runs the tests one after another and returns 1 if a
comparison failed.
-/

namespace UbifsScan

open Mem Program

def testLebSize : Int := 128 * 1024

def ubifsCsNodeSz : Int := 32

/-- What a failed check prints behind its place: its text and, of `CHECK_EQ`, the two values. -/
structure FailedCheck where
  text : String
  values : Option (Int × Int)
  deriving DecidableEq, Repr

/-- The test program: the world, the statics `c` and `buf` of the tests, and the counters, which are
`int`s. -/
structure Tester where
  world : World
  c : UbifsInfo
  buf : Mem
  utChecks : BitVec 32
  utFailures : BitVec 32
  printed : List FailedCheck

def onWorld {α : Type} (p : Program World α) : Program Tester α :=
  Program.zoom Tester.world (fun w s => { s with world := w }) p

def failCheck (failed : FailedCheck) : Program Tester Unit :=
  modify fun s => { s with utFailures := s.utFailures + 1, printed := s.printed ++ [failed] }

/-- `CHECK`. -/
def check (text : String) (cond : Bool) : Program Tester Unit := do
  modify fun s => { s with utChecks := s.utChecks + 1 }
  if !cond then
    failCheck ⟨text, none⟩

/-- `CHECK_EQ`; both values are converted to `long`. -/
def checkEq (text : String) (got : Program Tester Int) (want : Int) : Program Tester Unit := do
  modify fun s => { s with utChecks := s.utChecks + 1 }
  let g ← got
  if g ≠ want then
    failCheck ⟨text, some (g, want)⟩

/-- A call of `ut_make_node`, with the statics of the CRC in the world. -/
def callMakeNode (m : Mem) (buf nodeType nodeLen : Int) (sqnum : BitVec 64) :
    Program World Mem := do
  let w ← get
  let r := utMakeNode w.crc.val m buf nodeType nodeLen sqnum
  set { w with crc := ⟨r.2, utMakeNode_lazy w.crc.property m buf nodeType nodeLen sqnum⟩ }
  return r.1

/-- A call of `ut_make_pad_node`. -/
def callMakePadNode (m : Mem) (buf nodeLen padLen : Int) (sqnum : BitVec 64) :
    Program World Mem := do
  let w ← get
  let r := utMakePadNode w.crc.val m buf nodeLen padLen sqnum
  set { w with crc := ⟨r.2, utMakePadNode_lazy w.crc.property m buf nodeLen padLen sqnum⟩ }
  return r.1

/-- A field of the scan information at `a`. -/
def getSleb (a : Addr) (field : ScanLeb → Int) : Program World Int := do
  onHeap (modify (·.event (.use a)))
  return field ((← get).heap.slebs a)

/-- A field of the scan node at `a`. -/
def getSnod (a : Addr) (field : ScanNode → Int) : Program World Int := do
  onHeap (modify (·.event (.use a)))
  return field ((← get).heap.snods a)

/-- A call that works on the allocated buffer at `p`. -/
def working {α : Type} (p : Addr) (call : Program World α) : Program World α := do
  onHeap (modify (·.event (.use p)))
  let r ← call
  onHeap (modify (·.event (.use p)))
  return r

/-- The bytes of `buf` change. -/
def onBuf (p : Mem → Program World Mem) : Program Tester Unit := do
  let m ← onWorld (p (← get).buf)
  modify fun s => { s with buf := m }

/-- `ubifs_scan_a_node(&c, buf, len, 3, offs, 1)`. -/
def scanBuf (len offs : Int) : Program Tester Int := do
  let s ← get
  onWorld (ubifsScanANode s.c s.buf 0 len 3 offs true)

def setup : Program Tester Unit := do
  modify fun s => { s with c := ⟨testLebSize, 8⟩ }
  onBuf fun m => pure (memset m 0 0xFF testLebSize)

def testEmptySpace : Program Tester Unit := do
  setup
  checkEq "ubifs_scan_a_node(&c, buf, sizeof(buf), 3, 0x40, 1)" (scanBuf testLebSize 0x40)
    scannedEmptySpace

def testRawPaddingBytes : Program Tester Unit := do
  setup
  onBuf fun m => pure (memset m 0 ubifsPaddingByte 16)
  checkEq "ubifs_scan_a_node(&c, buf, sizeof(buf), 3, 0, 1)" (scanBuf testLebSize 0) 16

def testRawPaddingMisaligned : Program Tester Unit := do
  setup
  onBuf fun m => pure (memset m 0 ubifsPaddingByte 10)
  checkEq "ubifs_scan_a_node(&c, buf, sizeof(buf), 3, 0, 1)" (scanBuf testLebSize 0)
    scannedGarbage

def testGarbage : Program Tester Unit := do
  setup
  onBuf fun m => pure (storeLe 1 (storeLe 1 (storeLe 1 (storeLe 1 m 0 0x12#8) 1 0x34#8) 2 0x56#8)
    3 0x78#8)
  checkEq "ubifs_scan_a_node(&c, buf, sizeof(buf), 3, 0, 1)" (scanBuf testLebSize 0)
    scannedGarbage

def testLenTooSmall : Program Tester Unit := do
  setup
  onBuf fun m => pure (storeLe 4 m 0 ubifsNodeMagic)
  checkEq "ubifs_scan_a_node(&c, buf, UBIFS_CH_SZ - 1, 3, 0, 1)" (scanBuf (ubifsChSz - 1) 0)
    scannedGarbage

def testValidPadNode : Program Tester Unit := do
  let offs := 0x100
  setup
  onBuf fun m => callMakePadNode m 0 ubifsPadNodeSz 36 5
  checkEq "ubifs_scan_a_node(&c, buf, sizeof(buf), 3, offs, 1)" (scanBuf testLebSize offs)
    (ubifsPadNodeSz + 36)

def testPadNodeOverrunsLeb : Program Tester Unit := do
  setup
  onBuf fun m => callMakePadNode m 0 ubifsPadNodeSz testLebSize 5
  checkEq "ubifs_scan_a_node(&c, buf, sizeof(buf), 3, 0x100, 1)" (scanBuf testLebSize 0x100)
    scannedABadPadNode

def testPadNodeNegativePadLen : Program Tester Unit := do
  setup
  onBuf fun m => callMakePadNode m 0 ubifsPadNodeSz 0 5
  onBuf fun m => pure (storeLe 4 m 24 0x80000000#32)
  checkEq "ubifs_scan_a_node(&c, buf, sizeof(buf), 3, 0x100, 1)" (scanBuf testLebSize 0x100)
    scannedABadPadNode

def testPadNodeMisalignedTotal : Program Tester Unit := do
  setup
  onBuf fun m => callMakePadNode m 0 ubifsPadNodeSz 2 5
  checkEq "ubifs_scan_a_node(&c, buf, sizeof(buf), 3, 0x100, 1)" (scanBuf testLebSize 0x100)
    scannedABadPadNode

def testPadNode36BytesIsMisaligned : Program Tester Unit := do
  setup
  onBuf fun m => callMakePadNode m 0 ubifsPadNodeSz 8 5
  checkEq "ubifs_scan_a_node(&c, buf, sizeof(buf), 3, 0x100, 1)" (scanBuf testLebSize 0x100)
    scannedABadPadNode

def testPadNodeEndsExactlyAtLebEnd : Program Tester Unit := do
  let offs := testLebSize - (ubifsPadNodeSz + 36)
  setup
  onBuf fun m => callMakePadNode m 0 ubifsPadNodeSz 36 5
  checkEq "ubifs_scan_a_node(&c, buf, sizeof(buf), 3, offs, 1)" (scanBuf testLebSize offs)
    (ubifsPadNodeSz + 36)

def testCorruptHeaderCrc : Program Tester Unit := do
  setup
  onBuf fun m => callMakeNode m 0 NodeType.cs.code.toNat ubifsCsNodeSz 7
  onBuf fun m => pure (storeLe 4 m 4 0xDEADBEEF#32)
  checkEq "ubifs_scan_a_node(&c, buf, sizeof(buf), 3, 0x200, 1)" (scanBuf testLebSize 0x200)
    scannedACorruptNode

def testValidPlainNode : Program Tester Unit := do
  setup
  onBuf fun m => callMakeNode m 0 NodeType.cs.code.toNat ubifsCsNodeSz 7
  checkEq "ubifs_scan_a_node(&c, buf, sizeof(buf), 3, 0x200, 1)" (scanBuf testLebSize 0x200)
    scannedANode

/-- The block of three nodes, built in the buffer at `p` with the bytes `m`. -/
def buildSbuf (p : Addr) (m : Mem) (lebSize : Int) : Program World Mem := do
  let offs := 0
  let m ← working p (pure (memset m 0 0xFF lebSize))
  let m ← working p (callMakeNode m offs NodeType.cs.code.toNat ubifsCsNodeSz 11)
  let offs := offs + ubifsCsNodeSz
  let m ← working p (callMakePadNode m offs ubifsPadNodeSz 4 12)
  let offs := offs + (ubifsPadNodeSz + 4)
  working p (callMakeNode m offs NodeType.cs.code.toNat ubifsCsNodeSz 13)

/-- The checks of the list that the scan of the block returned. -/
def checkSleb (sleb : Addr) (lnum : Int) : Program Tester Unit := do
  checkEq "sleb->lnum" (onWorld (getSleb sleb ScanLeb.lnum)) lnum
  checkEq "sleb->nodes_cnt" (onWorld (getSleb sleb ScanLeb.nodesCnt)) 2
  let snod ← onWorld (onCells (readNext sleb))
  checkEq "snod->type" (onWorld (getSnod snod ScanNode.type)) NodeType.cs.code.toNat
  checkEq "snod->offs" (onWorld (getSnod snod ScanNode.offs)) 0
  checkEq "snod->sqnum" (onWorld (getSnod snod (·.sqnum.toInt))) 11
  let snod ← onWorld (onCells (readNext snod))
  checkEq "snod->offs" (onWorld (getSnod snod ScanNode.offs)) 64
  checkEq "snod->sqnum" (onWorld (getSnod snod (·.sqnum.toInt))) 13
  checkEq "sleb->endpt" (onWorld (getSleb sleb ScanLeb.endpt)) (64 + ubifsCsNodeSz)

/-- `junk` is what `malloc` leaves in the scan buffer. -/
def testUbifsScanCollectsNodes (A : Allocator) (junk : Mem) : Program Tester Unit := do
  let lnum := 5
  let lebSize := 4096
  let p ← onWorld (kmallocObj A)
  modify fun s => { s with c := ⟨lebSize, 8⟩ }
  -- `memset` on a null pointer ends the program.
  if p = 0 then
    failure
  let sbuf ← onWorld (buildSbuf p junk lebSize)
  let s ← get
  let sleb ← onWorld (working p (ubifsScan (.harness A) s.c lnum 0 sbuf true))
  check "!IS_ERR(sleb)" (!isErr sleb)
  if isErr sleb then
    return ← onWorld (kfree p)
  checkSleb sleb lnum
  onWorld (ubifsScanDestroy sleb)
  onWorld (kfree p)

/-- The tests; the last one with what `malloc` leaves in its buffer. -/
inductive Test
  | emptySpace | rawPaddingBytes | rawPaddingMisaligned | garbage | lenTooSmall | validPadNode
  | padNodeOverrunsLeb | padNodeNegativePadLen | padNodeMisalignedTotal
  | padNode36BytesIsMisaligned | padNodeEndsExactlyAtLebEnd | corruptHeaderCrc | validPlainNode
  | ubifsScanCollectsNodes (junk : Mem)

def Test.run (A : Allocator) : Test → Program Tester Unit
  | .emptySpace => testEmptySpace
  | .rawPaddingBytes => testRawPaddingBytes
  | .rawPaddingMisaligned => testRawPaddingMisaligned
  | .garbage => testGarbage
  | .lenTooSmall => testLenTooSmall
  | .validPadNode => testValidPadNode
  | .padNodeOverrunsLeb => testPadNodeOverrunsLeb
  | .padNodeNegativePadLen => testPadNodeNegativePadLen
  | .padNodeMisalignedTotal => testPadNodeMisalignedTotal
  | .padNode36BytesIsMisaligned => testPadNode36BytesIsMisaligned
  | .padNodeEndsExactlyAtLebEnd => testPadNodeEndsExactlyAtLebEnd
  | .corruptHeaderCrc => testCorruptHeaderCrc
  | .validPlainNode => testValidPlainNode
  | .ubifsScanCollectsNodes junk => testUbifsScanCollectsNodes A junk

/-- The tests in the order of `main`. -/
def Test.all (junk : Mem) : List Test :=
  [.emptySpace, .rawPaddingBytes, .rawPaddingMisaligned, .garbage, .lenTooSmall, .validPadNode,
    .padNodeOverrunsLeb, .padNodeNegativePadLen, .padNodeMisalignedTotal,
    .padNode36BytesIsMisaligned, .padNodeEndsExactlyAtLebEnd, .corruptHeaderCrc, .validPlainNode,
    .ubifsScanCollectsNodes junk]

def runTests (A : Allocator) (ts : List Test) : Program Tester Unit := ts.forM (Test.run A)

/-- `main`; its result is the exit code. -/
def testMain (A : Allocator) (junk : Mem) : Program Tester Int := do
  runTests A (Test.all junk)
  let s ← get
  return if s.utFailures ≠ 0 then 1 else 0

/-- The test program that has just started. -/
def Tester.boot : Tester := ⟨.boot, ⟨0, 0⟩, fun _ => 0, 0, 0, []⟩

section

variable {s : Tester} {w : World} {Q : Unit → Tester → Prop}

@[simp] theorem returns_onWorld {α : Type} (p : Program World α) (R : α → Tester → Prop) :
    Returns (onWorld p) s R ↔ Returns p s.world fun a w => R a { s with world := w } := by
  simp [onWorld]

theorem returns_callMakeNode (m : Mem) (buf nodeType nodeLen : Int) (sqnum : BitVec 64)
    (R : Mem → World → Prop)
    (h : ∀ crc : LazyCrc, crc.val = (utMakeNode w.crc.val m buf nodeType nodeLen sqnum).2 →
      R (utMakeNode w.crc.val m buf nodeType nodeLen sqnum).1 { w with crc := crc }) :
    Returns (callMakeNode m buf nodeType nodeLen sqnum) w R := ⟨_, _, rfl, h _ rfl⟩

theorem returns_callMakePadNode (m : Mem) (buf nodeLen padLen : Int) (sqnum : BitVec 64)
    (R : Mem → World → Prop)
    (h : ∀ crc : LazyCrc, crc.val = (utMakePadNode w.crc.val m buf nodeLen padLen sqnum).2 →
      R (utMakePadNode w.crc.val m buf nodeLen padLen sqnum).1 { w with crc := crc }) :
    Returns (callMakePadNode m buf nodeLen padLen sqnum) w R := ⟨_, _, rfl, h _ rfl⟩

theorem returns_working {α : Type} (p : Addr) (call : Program World α) (R : α → World → Prop) :
    Returns (working p call) w R ↔
      Returns call { w with heap := w.heap.event (.use p) } fun r w' =>
        R r { w' with heap := w'.heap.event (.use p) } := by
  simp [working]

@[simp] theorem returns_onBuf (p : Mem → Program World Mem) :
    Returns (onBuf p) s Q ↔
      Returns (p s.buf) s.world fun m w => Q () { s with world := w, buf := m } := by
  simp [onBuf]

@[simp] theorem returns_setup :
    Returns setup s Q ↔
      Q () { s with c := ⟨testLebSize, 8⟩, buf := memset s.buf 0 0xFF testLebSize } := by
  simp [setup]

@[simp] theorem returns_check (text : String) (cond : Bool) :
    Returns (check text cond) s Q ↔
      Q () (if cond then { s with utChecks := s.utChecks + 1 }
        else { s with
          utChecks := s.utChecks + 1
          utFailures := s.utFailures + 1
          printed := s.printed ++ [⟨text, none⟩] }) := by
  cases cond <;> simp [check, failCheck]

theorem returns_checkEq {text : String} {got : Program Tester Int} {want : Int}
    (h : Returns got { s with utChecks := s.utChecks + 1 } fun g s' => g = want ∧ Q () s') :
    Returns (checkEq text got want) s Q := by
  simp only [checkEq, returns_bind, returns_modify]
  apply h.mono
  rintro g s' ⟨rfl, hQ⟩
  simpa using hQ

@[simp] theorem returns_getSleb (a : Addr) (field : ScanLeb → Int) (R : Int → World → Prop) :
    Returns (getSleb a field) w R ↔
      R (field (w.heap.slebs a)) { w with heap := w.heap.event (.use a) } := by
  simp [getSleb, Heap.event]

@[simp] theorem returns_getSnod (a : Addr) (field : ScanNode → Int) (R : Int → World → Prop) :
    Returns (getSnod a field) w R ↔
      R (field (w.heap.snods a)) { w with heap := w.heap.event (.use a) } := by
  simp [getSnod, Heap.event]

end

end UbifsScan
