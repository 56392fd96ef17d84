import Osnt.Axis
import Mathlib.Logic.Function.Basic

/-! `osnt_bram.v` (v1.1.0) and the layout of its 736-bit words. -/
namespace Osnt

/-- A memory word: nil bits, tvalid, tlast, tuser, tkeep and tdata. -/
abbrev MemWord := BitVec 736

abbrev MemAddr := BitVec 11

namespace MemWord

/-- A stream word as the write machine lays it out, tvalid set. -/
def pack (w : Word) : MemWord :=
  (0#30 ++ 1#1 ++ BitVec.ofBool w.tlast ++ w.tuser ++ w.tkeep ++ w.tdata : BitVec 736)

/-- The end marker: only the bit above tvalid is set. -/
def marker : MemWord := (0#29 ++ 1#1 ++ 0#2 ++ 0#704 : BitVec 736)

/-- `dina[MEM_TLAST_POS+1]`. -/
def tvalid (d : MemWord) : Bool := d.getLsbD 705

/-- `dina[MEM_TVALID_POS+1]`. -/
def isMarker (d : MemWord) : Bool := d.getLsbD 706

def unpack (d : MemWord) : Word where
  tdata := d.extractLsb' 0 512
  tkeep := d.extractLsb' 512 64
  tuser := d.extractLsb' 576 128
  tlast := d.getLsbD 704

end MemWord

/-- The memory array and its output register; neither has a reset. -/
structure Bram where
  bootmem : MemAddr → MemWord
  rddata : MemWord
deriving Inhabited

/-- One clock edge. An enabled write also loads the output register, with the
content the cell had before. -/
def Bram.step (b : Bram) (addr : MemAddr) (en we : Bool) (wrdata : MemWord) : Bram where
  rddata := if en then b.bootmem addr else b.rddata
  bootmem := if en && we then Function.update b.bootmem addr wrdata else b.bootmem

end Osnt
