import UbifsScan.Model.Kernel

/-!
# The world a scan runs in

What the functions of `scan.c` read and change besides their arguments: the heap of scan records,
the statics of the CRC, and two records of their own behaviour: which bytes of the scan buffer
they read and which messages they print. The scan buffer itself is never written, so it is an
argument; offsets into it are the pointers.
-/

namespace UbifsScan

open Mem

/-- The `ubifs_err` messages of `scan.c` with their arguments. -/
inductive Msg
  | badPadNode (lnum offs : Int)
  | badPaddingLength (offs stop : Int)
  | cannotRead (len lnum offs err : Int)
  | corruption (lnum offs : Int)
  | firstBytes (len lnum offs : Int)
  | garbage
  | badNode
  | unknown
  | emptySpaceNonAligned (offs : Int)
  | corruptEmptySpace (lnum offs : Int)
  | scanningFailed (lnum : Int)
  | scanningFailedError (lnum err : Int)
  deriving DecidableEq, Repr

def Msg.text : Msg → String
  | .badPadNode lnum offs => s!"bad pad node at LEB {lnum}:{offs}"
  | .badPaddingLength offs stop => s!"bad padding length {offs} - {stop}"
  | .cannotRead len lnum offs err =>
      s!"cannot read {len} bytes from LEB {lnum}:{offs}, error {err}"
  | .corruption lnum offs => s!"corruption at LEB {lnum}:{offs}"
  | .firstBytes len lnum offs => s!"first {len} bytes from LEB {lnum}:{offs}"
  | .garbage => "garbage"
  | .badNode => "bad node"
  | .unknown => "unknown"
  | .emptySpaceNonAligned offs => s!"empty space starts at non-aligned offset {offs}"
  | .corruptEmptySpace lnum offs => s!"corrupt empty space at LEB {lnum}:{offs}"
  | .scanningFailed lnum => s!"LEB {lnum} scanning failed"
  | .scanningFailedError lnum err => s!"LEB {lnum} scanning failed, error {err}"

/-- What an allocator answers to its `n`-th request while the objects `live` are allocated: the
address of a fresh object, or nothing when it fails. -/
structure Allocator where
  pick : Nat → Finset Addr → Option Addr
  fresh : ∀ {n live a}, pick n live = some a → a ∉ live ∧ a ≠ 0 ∧ a < errBase

/-- An allocator that never reuses an address. -/
def Allocator.bump : Allocator where
  pick n live := if n + 1 ∉ live ∧ n + 1 < errBase then some (n + 1) else none
  fresh := by
    intro n live a h
    split at h
    · rename_i hok
      obtain rfl := Option.some.inj h
      exact ⟨hok.1, Nat.succ_ne_zero n, hok.2⟩
    · cases h

/-- What `scan.c` is linked against: the allocator, and `ubifs_leb_read` with its arguments
`c`, `lnum`, `buf`, `offs`, `len` and `check_crc`. -/
structure Env where
  alloc : Allocator
  lebRead : UbifsInfo → Int → Int → Int → Int → Int → Int

/-- Scan records by address. The `list_head` of a record is its first member, so a record and its
list cell have one address. -/
structure Heap where
  cells : Cells Addr
  slebs : Addr → ScanLeb
  snods : Addr → ScanNode
  live : Finset Addr
  attempts : Nat
  failures : Nat

structure World where
  crc : LazyCrc
  reads : List Int
  msgs : List Msg
  heap : Heap

/-- The world of a program that has just started. -/
def World.boot : World where
  crc := ⟨.boot, CrcStatics.boot_lazy⟩
  reads := []
  msgs := []
  heap := ⟨⟨⟨fun _ => 0, fun _ => 0⟩, []⟩, fun _ => .zero, fun _ => ⟨[], 0, 0, 0, 0, 0⟩, ∅, 0, 0⟩

def onHeap {α : Type} (p : Program Heap α) : Program World α :=
  Program.zoom World.heap (fun h w => { w with heap := h }) p

def onCells {α : Type} (p : Program (Cells Addr) α) : Program World α :=
  onHeap (Program.zoom Heap.cells (fun c h => { h with cells := c }) p)

def Heap.event (h : Heap) (e : Event Addr) : Heap :=
  { h with cells := { h.cells with log := h.cells.log ++ [e] } }

def Heap.allocated (h : Heap) (a : Addr) : Heap :=
  { h.event (.alloc a) with live := insert a h.live, attempts := h.attempts + 1 }

def Heap.freed (h : Heap) (a : Addr) : Heap :=
  { h.event (.free a) with live := h.live.erase a }

def Heap.refused (h : Heap) : Heap :=
  { h with attempts := h.attempts + 1, failures := h.failures + 1 }

/-- `kmalloc_obj`: the contents of the new object are left as they were. -/
def kmallocObj (A : Allocator) : Program World Addr := do
  let w ← get
  match A.pick w.heap.attempts w.heap.live with
  | some a =>
      onHeap (modify (·.allocated a))
      return a
  | none =>
      onHeap (modify Heap.refused)
      return 0

/-- `kzalloc_obj(struct ubifs_scan_leb)`. -/
def kzallocScanLeb (A : Allocator) : Program World Addr := do
  let a ← kmallocObj A
  if a ≠ 0 then
    onHeap (modify fun h =>
      { h with
        cells := { h.cells with links := (h.cells.links.setNext a 0).setPrev a 0 }
        slebs := Function.update h.slebs a .zero })
  return a

def kfree (a : Addr) : Program World Unit := onHeap (modify (·.freed a))

/-- A store to fields of the scan information at `a`. -/
def setSleb (a : Addr) (f : ScanLeb → ScanLeb) : Program World Unit :=
  onHeap (modify fun h =>
    { h.event (.use a) with slebs := Function.update h.slebs a (f (h.slebs a)) })

/-- A store to fields of the scan node at `a`. -/
def setSnod (a : Addr) (f : ScanNode → ScanNode) : Program World Unit :=
  onHeap (modify fun h =>
    { h.event (.use a) with snods := Function.update h.snods a (f (h.snods a)) })

/-- The bytes `is` of the scan buffer are read. -/
def World.see (w : World) (is : List Int) : World := { w with reads := w.reads ++ is }

def readByte (m : Mem) (p : Int) : Program World Byte := do
  modify (·.see (span p 1))
  return m p

def readLe32 (m : Mem) (p : Int) : Program World (BitVec 32) := do
  modify (·.see (span p 4))
  return le32 m p

def readLe64 (m : Mem) (p : Int) : Program World (BitVec 64) := do
  modify (·.see (span p 8))
  return le64 m p

def readBytes (m : Mem) (p : Int) (n : Nat) : Program World (List Byte) := do
  modify (·.see (span p n))
  return bytesAt m p n

def ubifsErr (msg : Msg) : Program World Unit := modify fun w => { w with msgs := w.msgs ++ [msg] }

/-- A call of `ut_crc32`, with its statics in the world. -/
def callCrc32 (buf : List Byte) : Program World (BitVec 32) := do
  let w ← get
  let r := utCrc32 w.crc.val buf
  set { w with crc := ⟨r.2, utCrc32_lazy w.crc.property buf⟩ }
  return r.1

/-- The `%` of C on the `int`s `a` and `b` does not trap: the quotient exists and is an `int`. -/
def ModDefined (a b : Int) : Prop := b ≠ 0 ∧ (a = -2147483648 → b ≠ -1)

instance (a b : Int) : Decidable (ModDefined a b) := inferInstanceAs (Decidable (_ ∧ _))

def cMod (a b : Int) : Program World Int :=
  if ModDefined a b then pure (a.tmod b) else failure

section

open Program

variable {w : World} {m : Mem} {p : Int}

@[simp] theorem returns_onHeap {α : Type} (prog : Program Heap α) (Q : α → World → Prop) :
    Returns (onHeap prog) w Q ↔
      Returns prog w.heap (fun a h => Q a { w with heap := h }) := by
  simp [onHeap]

@[simp] theorem returns_onCells {α : Type} (prog : Program (Cells Addr) α) (Q : α → World → Prop) :
    Returns (onCells prog) w Q ↔ Returns prog w.heap.cells (fun a c =>
      Q a { w with heap := { w.heap with cells := c } }) := by
  simp [onCells]

@[simp] theorem returns_readByte (Q : Byte → World → Prop) :
    Returns (readByte m p) w Q ↔ Q (m p) (w.see (span p 1)) := by
  simp [readByte]

@[simp] theorem returns_readLe32 (Q : BitVec 32 → World → Prop) :
    Returns (readLe32 m p) w Q ↔ Q (le32 m p) (w.see (span p 4)) := by
  simp [readLe32]

@[simp] theorem returns_readLe64 (Q : BitVec 64 → World → Prop) :
    Returns (readLe64 m p) w Q ↔ Q (le64 m p) (w.see (span p 8)) := by
  simp [readLe64]

@[simp] theorem returns_readBytes (n : Nat) (Q : List Byte → World → Prop) :
    Returns (readBytes m p n) w Q ↔ Q (bytesAt m p n) (w.see (span p n)) := by
  simp [readBytes]

@[simp] theorem returns_ubifsErr (msg : Msg) (Q : Unit → World → Prop) :
    Returns (ubifsErr msg) w Q ↔ Q () { w with msgs := w.msgs ++ [msg] } := by
  simp [ubifsErr]

theorem ensures_ubifsErr {msg : Msg} {Q : Unit → World → Prop}
    (h : Q () { w with msgs := w.msgs ++ [msg] }) : Ensures (ubifsErr msg) w Q :=
  ((returns_ubifsErr msg Q).mpr h).ensures

theorem ModDefined.of_pos (a : Int) {b : Int} (hb : 0 < b) : ModDefined a b :=
  ⟨by omega, fun _ => by omega⟩

theorem returns_cMod {a b : Int} (h : ModDefined a b) (Q : Int → World → Prop) :
    Returns (cMod a b) w Q ↔ Q (a.tmod b) w := by
  rw [cMod, if_pos h, returns_pure]

theorem ensures_cMod (a b : Int) (w : World) :
    Ensures (cMod a b) w fun r w' => r = a.tmod b ∧ w' = w := by
  rw [cMod]
  split
  · exact ensures_pure ⟨rfl, rfl⟩
  · intro r w' hrun
    cases hrun

theorem returns_callCrc32 (buf : List Byte) (Q : BitVec 32 → World → Prop)
    (h : ∀ crc, Q (utCrc32Value buf) { w with crc := crc }) : Returns (callCrc32 buf) w Q := by
  have hval : (utCrc32 w.crc.val buf).1 = utCrc32Value buf := by
    rw [utCrc32_fst w.crc.property, utCrc32Value_eq]
  exact ⟨_, _, rfl, by rw [hval]; exact h _⟩

end

end UbifsScan
