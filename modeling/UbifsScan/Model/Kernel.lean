import UbifsScan.Framework.Program
import UbifsScan.Framework.LinkedRing
import UbifsScan.Framework.Lifetime
import UbifsScan.Model.Media
import UbifsScan.Model.Crc

/-!
# Kernel primitives

The primitives `ubifs.h` re-implements and the world they act on: error pointers, `list_head`
operations over a memory of list cells, the allocator, error messages, and the scan buffer, each
read of which is recorded.
-/

namespace UbifsScan

open Mem

/-- A pointer, as a 64-bit value. -/
abbrev Addr := Nat

def ebadmsg : Int := 74

def enomem : Int := 12

def einval : Int := 22

def euclean : Int := 117

def errPtr (err : Int) : Addr := (err % 18446744073709551616).toNat

def ptrErr (p : Addr) : Int :=
  if p < (9223372036854775808 : Nat) then (p : Int) else (p : Int) - 18446744073709551616

/-- `(unsigned long)-4095`, where error pointers begin. -/
def errBase : Nat := 18446744073709547521

def isErr (p : Addr) : Bool := decide (errBase ≤ p)

theorem isErr_errPtr {err : Int} (hlo : -4095 ≤ err) (hhi : err < 0) : isErr (errPtr err) := by
  have h : 18446744073709547521 ≤ (err % 18446744073709551616).toNat := by omega
  exact decide_eq_true h

theorem not_valid_errPtr {err : Int} (hlo : -4095 ≤ err) (hhi : err < 0) :
    isErr (errPtr err) ≠ false := by
  rw [isErr_errPtr hlo hhi]
  decide

theorem ptrErr_errPtr {err : Int} (hlo : -4095 ≤ err) (hhi : err < 0) :
    ptrErr (errPtr err) = err := by
  have h : ¬ (err % 18446744073709551616).toNat < 9223372036854775808 := by omega
  rw [ptrErr, errPtr, if_neg h]
  omega

/-- A memory of `list_head` cells and the record of the heap events so far. -/
structure Cells (α : Type) where
  links : Links α
  log : List (Event α)

section ListHead

variable {α : Type} [DecidableEq α]

def Cells.touch (c : Cells α) (a : α) : Cells α := { c with log := c.log ++ [.use a] }

def readNext (a : α) : Program (Cells α) α := do
  modify (·.touch a)
  return (← get).links.next a

def readPrev (a : α) : Program (Cells α) α := do
  modify (·.touch a)
  return (← get).links.prev a

def writeNext (a b : α) : Program (Cells α) Unit :=
  modify fun c => { c.touch a with links := c.links.setNext a b }

def writePrev (a b : α) : Program (Cells α) Unit :=
  modify fun c => { c.touch a with links := c.links.setPrev a b }

def initListHead (list : α) : Program (Cells α) Unit := do
  writeNext list list
  writePrev list list

/-- `__list_add`. -/
def listAddBetween (new prev next : α) : Program (Cells α) Unit := do
  writePrev next new
  writeNext new next
  writePrev new prev
  writeNext prev new

def listAddTail (new head : α) : Program (Cells α) Unit := do
  let prev ← readPrev head
  listAddBetween new prev head

def listDel (entry : α) : Program (Cells α) Unit := do
  let next ← readNext entry
  let prev ← readPrev entry
  writePrev next prev
  let prev ← readPrev entry
  let next ← readNext entry
  writeNext prev next

def listEmpty (head : α) : Program (Cells α) Bool := do
  let next ← readNext head
  return next = head

theorem returns_initListHead (list : α) (c : Cells α) (Q : Unit → Cells α → Prop) :
    Program.Returns (initListHead list) c Q ↔
      Q () ⟨c.links.join list list, c.log ++ [.use list, .use list]⟩ := by
  simp [initListHead, writeNext, writePrev, Cells.touch, Links.join]

theorem returns_listAddTail (new head : α) (c : Cells α) (Q : Unit → Cells α → Prop) :
    Program.Returns (listAddTail new head) c Q ↔
      Q () ⟨(c.links.join new head).join (c.links.prev head) new,
        c.log ++ [.use head, .use head, .use new, .use new, .use (c.links.prev head)]⟩ := by
  simp [listAddTail, listAddBetween, readPrev, writeNext, writePrev, Cells.touch, Links.join,
    Links.setNext, Links.setPrev]

theorem returns_listDel (entry : α) (c : Cells α) (Q : Unit → Cells α → Prop) :
    Program.Returns (listDel entry) c Q ↔
      Q () ⟨c.links.join (c.links.prev entry) (c.links.next entry),
        c.log ++ [.use entry, .use entry, .use (c.links.next entry), .use entry, .use entry,
          .use (c.links.prev entry)]⟩ := by
  have hprev : Function.update c.links.prev (c.links.next entry) (c.links.prev entry) entry =
      c.links.prev entry := by
    by_cases h : entry = c.links.next entry
    · rw [← h, Function.update_self]
    · rw [Function.update_of_ne h]
  simp [listDel, readNext, readPrev, writeNext, writePrev, Cells.touch, Links.join,
    Links.setNext, Links.setPrev, hprev]

theorem returns_listEmpty (head : α) (c : Cells α) (Q : Bool → Cells α → Prop) :
    Program.Returns (listEmpty head) c Q ↔
      Q (c.links.next head = head) ⟨c.links, c.log ++ [.use head]⟩ := by
  simp [listEmpty, readNext, Cells.touch]

end ListHead

end UbifsScan
