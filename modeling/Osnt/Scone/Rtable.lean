import Osnt.Lib.BubbleSort

/-! `or_rtable.c` of the SCONE router: the routing table, the lookup in it and its copy in the
rows of the hardware's TCAM.

Addresses and masks are in host order, as `ntohl` gives them. A failed `assert` is `none`. -/
namespace Osnt.Scone.Rtable
open Lib

/-- `rtable_entry`. The interface name fits in its 32 characters with the terminator. -/
structure Entry where
  ip : BitVec 32
  gw : BitVec 32
  mask : BitVec 32
  iface : String
  isStatic : Bool
  isActive : Bool
  iface_lt : iface.length < 32

/-- The route is for the destination. -/
def Entry.covers (e : Entry) (dst : BitVec 32) : Bool := e.ip &&& e.mask == dst &&& e.mask

/-- The number of bits set in a mask, counted one by one. -/
def bitsMatched (mask : BitVec 32) : Nat :=
  (List.range 32).foldl (fun n i => if (mask >>> i) &&& 1 = 1 then n + 1 else n) 0

/-- What `get_next_hop` remembers along the list: the best entry so far and the bits of its
mask, which are -1 at the start. -/
structure Best where
  lpm : Option Entry
  mostBitsMatched : Int

/-- One turn of the loop of `get_next_hop`. -/
def Best.next (dst : BitVec 32) (best : Best) (e : Entry) : Best :=
  if e.isActive && e.covers dst && decide (best.mostBitsMatched < bitsMatched e.mask) then
    ⟨some e, bitsMatched e.mask⟩
  else best

def lpmEntry (rtable : List Entry) (dst : BitVec 32) : Option Entry :=
  (rtable.foldl (Best.next dst) ⟨none, -1⟩).lpm

def strncpy (src : String) (len : Nat) : String := String.ofList (src.toList.take len)

/-- The next hop and the first `len` characters of the interface; `none` if there is no match. -/
def getNextHop (len : Nat) (rtable : List Entry) (dst : BitVec 32) :
    Option (BitVec 32 × String) :=
  (lpmEntry rtable dst).map fun lpm =>
    (if lpm.gw = 0 then dst else lpm.gw, strncpy lpm.iface len)

/-- The comparison of `trigger_rtable_modified`: `a` has to go behind `b`. -/
def swap (a b : Entry) : Bool :=
  a.mask < b.mask || (a.mask == b.mask && a.ip < b.ip) ||
    (a.mask == b.mask && a.ip == b.ip && !a.isStatic && b.isStatic)

/-- `getOneHotPortNumber` of `or_netfpga.c`. -/
def getOneHotPortNumber (name : String) : Option (BitVec 32) :=
  if name = "eth0" then some 1
  else if name = "eth1" then some 4
  else if name = "cpu0" then some 2
  else if name = "cpu1" then some 8
  else none

/-- A row of the TCAM: address, mask, next hop and one-hot port. -/
structure Row where
  ip : BitVec 32
  mask : BitVec 32
  nextHop : BitVec 32
  port : BitVec 32
deriving DecidableEq

/-- What is written to a row without an entry. -/
def Row.clear : Row := ⟨0, 0, 0, 0⟩

def rowOf (e : Entry) : Option Row :=
  (getOneHotPortNumber e.iface).map fun port => ⟨e.ip, e.mask, e.gw, port⟩

/-- To the next active entry. -/
def skip (cur : List Entry) : List Entry := cur.dropWhile fun e => !e.isActive

/-- The loop of `write_rtable_to_hw` over the rows, from the entry it has come to. -/
def writeRows : Nat → List Entry → Option (List Row)
  | 0, _ => some []
  | n + 1, cur =>
    match cur with
    | e :: rest => do
      let row ← rowOf e
      let rows ← writeRows n (skip rest)
      some (row :: rows)
    | [] => do
      let rows ← writeRows n []
      some (Row.clear :: rows)

/-- `NFPLUS_OUTPUT_PORT_LOOKUP_0_MEM_IP_LPM_TCAM_WIDTH`. -/
def tcamWidth : Nat := 32

def writeRtableToHw (rtable : List Entry) : Option (List Row) := writeRows tcamWidth (skip rtable)

/-- The part of the router state that holds the routes. -/
structure RouterState where
  rtable : List Entry
  isNetfpga : Bool
  hw : List Row

/-- `trigger_rtable_modified`; `none` also if the sort takes more than `fuel` passes. -/
def triggerRtableModified (fuel : Nat) (rs : RouterState) : Option RouterState := do
  let rtable ← BubbleSort.loop swap fuel rs.rtable
  if rs.isNetfpga then
    let hw ← writeRtableToHw rtable
    some { rs with rtable, hw }
  else some { rs with rtable }

/-- A row matches an address that agrees with it in the bits of the mask. -/
def Row.hits (row : Row) (dst : BitVec 32) : Bool := (row.ip ^^^ dst) &&& row.mask == 0

/-- The lowest index of a row that matches. -/
def tcamIndex (rows : List Row) (dst : BitVec 32) : Option Nat :=
  rows.findIdx? fun row => row.hits dst

/-- Next hop and port of a lookup; a next hop of 0 is read as the destination. -/
def tcamLookup (rows : List Row) (dst : BitVec 32) : Option (BitVec 32 × BitVec 32) :=
  (rows.find? fun row => row.hits dst).map fun row =>
    (if row.nextHop = 0 then dst else row.nextHop, row.port)

/-- The entries that the hardware is to know, in order. -/
def actives (rtable : List Entry) : List Entry := rtable.filter Entry.isActive

/-- A mask of `n` leading ones. -/
def prefixMask (n : Nat) : BitVec 32 := BitVec.allOnes 32 <<< (32 - n)

def Contiguous (mask : BitVec 32) : Prop := ∃ n ≤ 32, mask = prefixMask n

end Osnt.Scone.Rtable
