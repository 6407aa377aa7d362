import UbifsScan.Model.Support

/-!
# `scan.c`

The scan of a logical eraseblock, function by function. `sbuf` is the scan buffer and `buf` an
offset into it, the pointer that the code advances; `offs` and `len` are `int`s. The debug prints
and dumps are compiled out by the stub header and leave no trace here.
-/

namespace UbifsScan

open Mem Program

/-- The loop of `scan_padding_bytes`: `n` more bytes may be counted. -/
def countPadding (sbuf : Mem) (p : Int) : Nat → Program World Nat
  | 0 => pure 0
  | n + 1 => do
    if (← readByte sbuf p) = ubifsPaddingByte then
      return (← countPadding sbuf (p + 1) n) + 1
    else
      return 0

def scanPaddingBytes (sbuf : Mem) (buf len : Int) : Program World Int := do
  let maxPadLen := minT ubifsPadNodeSz len
  let padLen : Int ← countPadding sbuf buf maxPadLen.toNat
  if padLen = 0 ∨ padLen % 8 ≠ 0 then
    return scannedGarbage
  return padLen

def ubifsScanANode (c : UbifsInfo) (sbuf : Mem) (buf len lnum offs : Int) (quiet : Bool) :
    Program World Int := do
  let magic ← readLe32 sbuf buf
  if magic = 0xFFFFFFFF#32 then
    return scannedEmptySpace
  if magic ≠ ubifsNodeMagic then
    return ← scanPaddingBytes sbuf buf len
  if sizeT len < ubifsChSz then
    return scannedGarbage
  if (← ubifsCheckNode sbuf buf len) ≠ 0 then
    return scannedACorruptNode
  if (← readByte sbuf (buf + 20)) = NodeType.pad.code then
    let padLen := (← readLe32 sbuf (buf + 24)).toInt
    let nodeLen := (← readLe32 sbuf (buf + 16)).toInt
    if padLen < 0 ∨ wrap32 (wrap32 (offs + nodeLen) + padLen) > c.lebSize then
      if !quiet then
        ubifsErr (.badPadNode lnum offs)
      return scannedABadPadNode
    if wrap32 (nodeLen + padLen) % 8 ≠ 0 then
      if !quiet then
        ubifsErr (.badPaddingLength offs (wrap32 (wrap32 (offs + nodeLen) + padLen)))
      return scannedABadPadNode
    return wrap32 (nodeLen + padLen)
  return scannedANode

def ubifsStartScan (K : Env) (c : UbifsInfo) (lnum offs : Int) : Program World Addr := do
  let sleb ← kzallocScanLeb K.alloc
  if sleb = 0 then
    return errPtr (-enomem)
  setSleb sleb fun s => { s with lnum := lnum }
  onCells (initListHead sleb)
  setSleb sleb fun s => { s with buf := 0 }
  let err := K.lebRead c lnum offs offs (wrap32 (c.lebSize - offs)) 0
  if err ≠ 0 ∧ err ≠ -ebadmsg then
    ubifsErr (.cannotRead (wrap32 (c.lebSize - offs)) lnum offs err)
    kfree sleb
    return errPtr err
  return sleb

def ubifsEndScan (c : UbifsInfo) (sleb : Addr) (offs : Int) : Program World Unit := do
  if (← cMod offs c.minIoSize) ≠ 0 then
    failure
  let endpt := (align (BitVec.ofInt 32 offs) (BitVec.ofInt 32 c.minIoSize)).toInt
  setSleb sleb fun s => { s with endpt := endpt }

/-- The node types whose header is followed by a key. -/
def isKeyed (nodeType : Byte) : Bool :=
  nodeType = NodeType.ino.code ∨ nodeType = NodeType.dent.code ∨
    nodeType = NodeType.xent.code ∨ nodeType = NodeType.data.code

def ubifsAddSnod (K : Env) (sleb : Addr) (sbuf : Mem) (buf offs : Int) : Program World Int := do
  let snod ← kmallocObj K.alloc
  if snod = 0 then
    return -enomem
  let sqnum ← readLe64 sbuf (buf + 8)
  setSnod snod fun s => { s with sqnum := sqnum }
  let type ← readByte sbuf (buf + 20)
  setSnod snod fun s => { s with type := type.toNat }
  setSnod snod fun s => { s with offs := offs }
  let len ← readLe32 sbuf (buf + 16)
  setSnod snod fun s => { s with len := len.toInt }
  setSnod snod fun s => { s with node := buf }
  if isKeyed (← readByte sbuf (buf + 20)) then
    let key ← readBytes sbuf (buf + 24) ubifsMaxKeyLen
    setSnod snod fun s => { s with key := key }
  else
    setSnod snod fun s => { s with key := List.replicate ubifsMaxKeyLen 0 }
  onCells (listAddTail snod sleb)
  setSleb sleb fun s => { s with nodesCnt := wrap32 (s.nodesCnt + 1) }
  return 0

def ubifsScannedCorruption (c : UbifsInfo) (lnum offs : Int) : Program World Unit := do
  ubifsErr (.corruption lnum offs)
  let len := wrap32 (c.lebSize - offs)
  let len := if len > 8192 then 8192 else len
  ubifsErr (.firstBytes len lnum offs)

/-- One round of the loop of `ubifs_scan_destroy`. -/
def destroyRound (sleb : Addr) (_ : Unit) : Program World (Unit ⊕ Unit) := do
  if ← onCells (listEmpty sleb) then
    return .inr ()
  let node ← onCells (readNext sleb)
  onCells (listDel node)
  kfree node
  return .inl ()

/-- The loop is bounded by the number of live objects, one of which each round frees. -/
def ubifsScanDestroy (sleb : Addr) : Program World Unit := do
  let w ← get
  iterate (destroyRound sleb) (w.heap.live.card + 1) ()
  kfree sleb

/-- The three cursors of `ubifs_scan`. -/
structure Cursor where
  buf : Int
  offs : Int
  len : Int
  deriving DecidableEq, Repr

/-- `offs += n`, `buf += n`, `len -= n`. -/
def Cursor.advance (cur : Cursor) (n : Int) : Cursor :=
  ⟨cur.buf + n, wrap32 (cur.offs + n), wrap32 (cur.len - n)⟩

/-- How the main loop of `ubifs_scan` is left. -/
inductive Leave
  | done (cur : Cursor)
  | corrupted (cur : Cursor)
  | error (err : Int)

/-- One round of the main loop of `ubifs_scan`. -/
def scanRound (K : Env) (c : UbifsInfo) (lnum : Int) (sbuf : Mem) (quiet : Bool) (sleb : Addr)
    (cur : Cursor) : Program World (Cursor ⊕ Leave) := do
  if cur.len < 8 then
    return .inr (.done cur)
  let ret ← ubifsScanANode c sbuf cur.buf cur.len lnum cur.offs quiet
  if ret > 0 then
    return .inl (cur.advance ret)
  if ret = scannedEmptySpace then
    return .inr (.done cur)
  if ret = scannedGarbage then
    ubifsErr .garbage
    return .inr (.corrupted cur)
  else if ret = scannedANode then
    let err ← ubifsAddSnod K sleb sbuf cur.buf cur.offs
    if err ≠ 0 then
      return .inr (.error err)
    let nodeLen := alignedLen (← readLe32 sbuf (cur.buf + 16))
    return .inl (cur.advance nodeLen)
  else if ret = scannedACorruptNode ∨ ret = scannedABadPadNode then
    ubifsErr .badNode
    return .inr (.corrupted cur)
  else
    ubifsErr .unknown
    return .inr (.error (-einval))

/-- The word-wise tail loop: it leaves at its bound or at the first word that is not empty. -/
def emptyWordsRound (sbuf : Mem) (cur : Cursor) : Program World (Cursor ⊕ Cursor) := do
  if cur.len > 4 then
    if (← readLe32 sbuf cur.buf) ≠ 0xFFFFFFFF#32 then
      return .inr cur
    return .inl (cur.advance 4)
  return .inr cur

/-- The byte-wise tail loop: it leaves with the cursor of a byte that is not empty, if any. -/
def emptyBytesRound (sbuf : Mem) (cur : Cursor) : Program World (Cursor ⊕ Option Cursor) := do
  if cur.len = 0 then
    return .inr none
  if (← readByte sbuf cur.buf) ≠ 0xFF#8 then
    return .inr (some cur)
  return .inl (cur.advance 1)

/-- The rounds the byte-wise loop can take: `len` is counted down to zero, through a wrap if it
starts negative. -/
def emptyBytesBound (len : Int) : Nat := (len % 4294967296).toNat + 1

/-- The label `corrupted` of `ubifs_scan`. -/
def scanCorrupted (c : UbifsInfo) (lnum : Int) (quiet : Bool) (sleb : Addr) (cur : Cursor) :
    Program World Addr := do
  if !quiet then
    ubifsScannedCorruption c lnum cur.offs
    ubifsErr (.scanningFailed lnum)
  ubifsScanDestroy sleb
  return errPtr (-euclean)

/-- The label `error` of `ubifs_scan`. -/
def scanError (lnum : Int) (sleb : Addr) (err : Int) : Program World Addr := do
  ubifsErr (.scanningFailedError lnum err)
  ubifsScanDestroy sleb
  return errPtr err

/-- `ubifs_scan` from the end of its main loop on. -/
def scanTail (c : UbifsInfo) (lnum : Int) (sbuf : Mem) (quiet : Bool) (sleb : Addr)
    (cur : Cursor) : Program World Addr := do
  if (← cMod cur.offs c.minIoSize) ≠ 0 then
    if !quiet then
      ubifsErr (.emptySpaceNonAligned cur.offs)
    return ← scanCorrupted c lnum quiet sleb cur
  ubifsEndScan c sleb cur.offs
  let cur ← iterate (emptyWordsRound sbuf) (cur.len.toNat + 1) cur
  match ← iterate (emptyBytesRound sbuf) (emptyBytesBound cur.len) cur with
  | none => return sleb
  | some cur =>
      if !quiet then
        ubifsErr (.corruptEmptySpace lnum cur.offs)
      scanCorrupted c lnum quiet sleb cur

/-- The cursors at the first head of the main loop. -/
def Cursor.start (c : UbifsInfo) (offs : Int) : Cursor := ⟨offs, offs, wrap32 (c.lebSize - offs)⟩

def ubifsScan (K : Env) (c : UbifsInfo) (lnum offs : Int) (sbuf : Mem) (quiet : Bool) :
    Program World Addr := do
  let start := Cursor.start c offs
  let sleb ← ubifsStartScan K c lnum offs
  if isErr sleb then
    return sleb
  match ← iterate (scanRound K c lnum sbuf quiet sleb) (start.len.toNat + 1) start with
  | .done cur => scanTail c lnum sbuf quiet sleb cur
  | .corrupted cur => scanCorrupted c lnum quiet sleb cur
  | .error err => scanError lnum sleb err

end UbifsScan
