/-! The AXI-Stream word of the 512-bit datapath. -/
namespace Osnt

/-- One beat of a 512-bit stream: data, byte enables, side band and end of packet. -/
structure Word where
  tdata : BitVec 512
  tkeep : BitVec 64
  tuser : BitVec 128
  tlast : Bool
deriving DecidableEq, Inhabited, Repr

end Osnt
