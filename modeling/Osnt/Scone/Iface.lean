import Osnt.Lib.FirstMatch

/-! `or_iface.c` of the SCONE router: the list of interfaces. An interface is referred to by its
position in the list. Its hardware address, its speed and the time of the last HELLO sent are left
out. -/
namespace Osnt.Scone.Iface

/-- `nbr_router`. -/
structure NbrRouter where
  routerId : BitVec 32
  ip : BitVec 32
  lastRcvdHello : Int
deriving DecidableEq, Repr

/-- `iface_entry`. The name fits in its 32 characters with the terminator. -/
structure Entry where
  name : String
  ip : BitVec 32
  mask : BitVec 32
  isActive : Bool
  nbrRouters : List NbrRouter
  isWan : Bool
  name_lt : name.length < 32
deriving DecidableEq, Repr

theorem eth0_lt : "eth0".length < 32 := by decide

theorem eth1_lt : "eth1".length < 32 := by decide

/-- The subnet of an interface, with its mask. -/
def Entry.net (i : Entry) : BitVec 32 × BitVec 32 := (i.ip &&& i.mask, i.mask)

/-- `strncmp` gives 0: the first `n` characters agree. -/
def strncmpEq (a b : String) (n : Nat) : Bool := a.toList.take n == b.toList.take n

/-- `iface_match_ip`: the address of an active interface. -/
def ifaceMatchIp (ifList : List Entry) (ip : BitVec 32) : Bool :=
  ifList.any fun i => i.isActive && i.ip == ip

/-- `get_iface`: the first interface of that name. -/
def getIface (ifList : List Entry) (interface : String) : Option Nat :=
  ifList.findIdx? fun i => strncmpEq interface i.name 32

end Osnt.Scone.Iface
