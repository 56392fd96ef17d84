import Osnt.Fifo
import Osnt.Lib.Framing
import Osnt.Lib.Machine

/-! `packet_cutter.v` at 256 bits: packets longer than a configured length are cut, either with a
hash of what is left out in place of their end or, with `hash_en`, without. -/
namespace Osnt.PacketCutter
open Lib

/-- One beat of a 256-bit stream. -/
structure Beat where
  tdata : BitVec 256
  tstrb : BitVec 32
  tuser : BitVec 128
  tlast : Bool
deriving DecidableEq, Inhabited, Repr

inductive State where
  | waitPkt | inPacket | startHash | completePkt | sendLastWord | cutPacket | cutPacketWait
deriving DecidableEq, Inhabited, Repr

/-- Registers of the module. -/
structure Cutter where
  fifo : FallthroughFifo Beat 3
  state : State
  pktCutCount : BitVec 32
  cutCounter : BitVec 32
  bytesFree : BitVec 5
  bitsFree : BitVec 8
  hashCarryBytes : BitVec 5
  hashCarryBits : BitVec 8
  pktShort : Bool
  hash : BitVec 256
  lastWordPktTemp : BitVec 256
deriving Inhabited

/-- Inputs of the module in one cycle. -/
structure Input where
  tvalid : Bool
  word : Beat
  tready : Bool
  cutEn : Bool
  cutOffset : BitVec 32
  cutWords : BitVec 32
  cutBytes : BitVec 32
  hashEn : Bool

/-- What the module drives combinationally, and the next values of its registers; `next` has the
FIFO as it was. -/
structure Drive where
  mTvalid : Bool
  mWord : Beat
  rdEn : Bool
  next : Cutter

def hashBytes : BitVec 5 := 16

def allValid : BitVec 32 := 0xffffffff

def maxWordsPkt : BitVec 32 := 2048

/-- A table of the 128 strobe patterns with leading ones, from one to all. -/
def strobeTable (n : Nat) (pattern : BitVec 32) (free : Nat → Nat) : BitVec n :=
  ((List.range 128).find? fun j =>
    pattern.setWidth 128 == BitVec.allOnes 128 <<< (127 - j)).elim 0
      fun j => BitVec.ofNat n (free (127 - j))

/-- The patterns of the table have 128 bits, none of them below `2 ^ 127`. -/
def pktBoundariesBitsFree (tstrbFifo : BitVec 32) : BitVec 8 := strobeTable 8 tstrbFifo (8 * ·)

def lastWordBytesFree (cutOffset : BitVec 32) : BitVec 5 := strobeTable 5 cutOffset id

/-- The strobes of the last word of a cut packet, by `len_pkt_cut[4:0]`. -/
def cutStrobes : List (BitVec 32) :=
  [0xffffffff, 0x80000000, 0xc0000000, 0xe0000000, 0xf0000000, 0xf8000000, 0xfc00000, 0xfe000000,
    0xff000000, 0xff800000, 0xffc00000, 0xffe00000, 0xfff00000, 0xfff80000, 0xfffc0000, 0xfffe0000,
    0xffff0000, 0xfff8000, 0xffffc000, 0xffffe000, 0xfffff000, 0xfffff800, 0xfffffc00, 0xfffffe00,
    0xffffff00, 0xffffff80, 0xffffffc0, 0xffffffe0, 0xfffffff0, 0xfffffff8, 0xfffffffc, 0xfffffffe]

/-- `tuser[15:0]`, the length of a packet in bytes, in its first word. -/
def Beat.len (w : Beat) : BitVec 16 := w.tuser.extractLsb' 0 16

def Beat.setLen (w : Beat) (len : BitVec 16) : Beat :=
  { w with tuser := w.tuser.extractLsb' 16 112 ++ len }

namespace Input
variable (i : Input)

def counter : BitVec 32 := if i.cutEn then i.cutWords else maxWordsPkt

def lenPktCut : BitVec 16 :=
  if i.hashEn then i.cutBytes.setWidth 16 else (i.cutBytes + 16).setWidth 16

/-- `len_pkt_cut[15:5] + |len_pkt_cut[4:0]`, the words of a cut packet. -/
def cutLen : BitVec 32 :=
  (i.lenPktCut.extractLsb' 5 11).setWidth 32 + if i.lenPktCut.extractLsb' 0 5 = 0 then 0 else 1

def pktCuttable (tuserFifo : BitVec 16) : Bool :=
  i.lenPktCut.ult tuserFifo && decide (64 ≤ i.lenPktCut.toNat)

def pktLen (tuserFifo : BitVec 16) : BitVec 16 :=
  if i.cutEn && i.pktCuttable tuserFifo then i.lenPktCut else tuserFifo

end Input

namespace Cutter
variable (s : Cutter)

def reset : Cutter where
  fifo := s.fifo.reset
  state := .waitPkt
  pktCutCount := 0
  cutCounter := 0
  bytesFree := 0
  bitsFree := 0
  hashCarryBytes := 0
  hashCarryBits := 0
  pktShort := false
  hash := 0
  lastWordPktTemp := 0

def firstWordHash : BitVec 256 := ~~~(BitVec.allOnes 256 <<< s.bitsFree) &&& s.fifo.dout.tdata

def lastWordHash : BitVec 256 :=
  (BitVec.allOnes 256 <<< pktBoundariesBitsFree s.fifo.dout.tstrb) &&& s.fifo.dout.tdata

def lastWordPktTempCleaned : BitVec 256 :=
  (BitVec.allOnes 256 <<< s.bitsFree) &&& s.lastWordPktTemp

def oneWordHash : BitVec 256 :=
  ~~~(BitVec.allOnes 256 <<< s.bitsFree) &&&
    (BitVec.allOnes 256 <<< pktBoundariesBitsFree s.fifo.dout.tstrb) &&& s.fifo.dout.tdata

def finalHash : BitVec 256 :=
  (s.hash.extractLsb' 0 128 ^^^ s.hash.extractLsb' 128 128).setWidth 256

/-- The values at the head of the process: nothing is offered or read, and the state falls back
to `WAIT_PKT`. -/
def idle : Drive where
  mTvalid := false
  mWord := s.fifo.dout
  rdEn := false
  next := { s with state := .waitPkt, pktCutCount := 1 }

def waitPkt (i : Input) : Drive :=
  let w := s.fifo.dout
  let next := { s.idle.next with cutCounter := i.counter }
  if s.fifo.empty then { s.idle with next }
  else
    let next := { next with
      pktShort := !i.pktCuttable w.len
      bytesFree := lastWordBytesFree i.cutOffset
      bitsFree := (lastWordBytesFree i.cutOffset).setWidth 8 <<< 3 }
    { mTvalid := true
      mWord := w.setLen (i.pktLen w.len)
      rdEn := i.tready
      next :=
        if !i.tready then next
        else if i.pktCuttable w.len && i.hashEn then
          { next with pktCutCount := s.pktCutCount + 1, state := .cutPacket }
        else { next with state := if w.tlast then .waitPkt else .inPacket } }

def inPacket (i : Input) : Drive :=
  let w := s.fifo.dout
  let next := { s.idle.next with state := .inPacket }
  if s.fifo.empty then { s.idle with next }
  else if s.cutCounter = 0 then
    if w.tlast then
      if s.pktShort then
        { s.idle with
          mTvalid := true
          rdEn := i.tready
          next := if i.tready then { next with state := .waitPkt } else next }
      else
        { s.idle with
          next := { next with
            lastWordPktTemp := w.tdata, hash := s.oneWordHash, state := .completePkt } }
    else
      { s.idle with
        rdEn := true
        next := { next with
          lastWordPktTemp := w.tdata, hash := s.firstWordHash, state := .startHash } }
  else
    { s.idle with
      mTvalid := true
      rdEn := i.tready
      next :=
        if !i.tready then next
        else if w.tlast then { next with state := .waitPkt }
        else { next with cutCounter := s.cutCounter - 1 } }

def startHash : Drive :=
  let w := s.fifo.dout
  let next := { s.idle.next with state := .startHash }
  if w.tlast then
    { s.idle with next := { next with hash := s.hash ^^^ s.lastWordHash, state := .completePkt } }
  else if s.fifo.empty then { s.idle with next }
  else { s.idle with rdEn := true, next := { next with hash := s.hash ^^^ w.tdata } }

def completePkt (i : Input) : Drive :=
  let w := s.fifo.dout
  let next := { s.idle.next with state := .completePkt }
  if !i.tready then { s.idle with mTvalid := true, next }
  else if s.bytesFree.toNat < hashBytes.toNat then
    { mTvalid := true
      mWord := { w with
        tdata := s.lastWordPktTempCleaned ||| s.finalHash >>> (128 - s.bitsFree.setWidth 32)
        tstrb := allValid
        tlast := false }
      rdEn := true
      next := { next with
        hashCarryBytes := hashBytes - s.bytesFree
        hashCarryBits := (hashBytes.setWidth 8 - s.bytesFree.setWidth 8) <<< 3
        state := .sendLastWord } }
  else
    { mTvalid := true
      mWord := { w with
        tdata := s.lastWordPktTempCleaned ||| s.finalHash <<< (s.bitsFree.setWidth 32 - 128)
        tstrb := allValid <<< (s.bytesFree.setWidth 32 - 16)
        tlast := true }
      rdEn := true
      next := { next with state := .waitPkt } }

def sendLastWord (i : Input) : Drive :=
  let w := s.fifo.dout
  let next := { s.idle.next with state := .sendLastWord }
  if !i.tready then { s.idle with mTvalid := true, next }
  else
    { mTvalid := true
      mWord := { w with
        tdata := s.finalHash <<< (256 - s.hashCarryBits.setWidth 32)
        tstrb := allValid <<< (0 - s.hashCarryBytes)
        tlast := true }
      rdEn := false
      next := { next with state := .waitPkt } }

def cutPacket (i : Input) : Drive :=
  let w := { s.fifo.dout with tuser := 0 }
  let next := { s.idle.next with state := .cutPacket }
  -- `m_axis_tvalid` is driven whether the FIFO has a word or not.
  if i.tready && !s.fifo.empty then
    let next := { next with pktCutCount := s.pktCutCount + 1 }
    if i.cutLen = s.pktCutCount then
      { mTvalid := true
        mWord := { w with
          tstrb := cutStrobes.getD (i.lenPktCut.extractLsb' 0 5).toNat 0
          tlast := true }
        rdEn := true
        next := { next with state := if w.tlast then .waitPkt else .cutPacketWait } }
    else
      { mTvalid := true
        mWord := { w with tlast := false }
        rdEn := true
        next }
  else
    { mTvalid := true
      mWord := w
      rdEn := false
      next := { next with pktCutCount := s.pktCutCount } }

def cutPacketWait : Drive :=
  let w : Beat := ⟨0, 0, 0, false⟩
  let next := { s.idle.next with state := .cutPacketWait }
  if s.fifo.empty then { s.idle with mWord := w, next }
  else
    { mTvalid := false
      mWord := w
      rdEn := true
      next := { next with state := if s.fifo.dout.tlast then .waitPkt else .cutPacketWait } }

def comb (i : Input) : Drive :=
  match s.state with
  | .waitPkt => s.waitPkt i
  | .inPacket => s.inPacket i
  | .startHash => s.startHash
  | .completePkt => s.completePkt i
  | .sendLastWord => s.sendLastWord i
  | .cutPacket => s.cutPacket i
  | .cutPacketWait => s.cutPacketWait

/-- `s_axis_tvalid & ~in_fifo_nearly_full`. -/
def wrEn (i : Input) : Bool := i.tvalid && !s.fifo.nearlyFull

def step (i : Input) : Cutter :=
  { (s.comb i).next with fifo := s.fifo.step (s.wrEn i) i.word (s.comb i).rdEn }

/-- Words taken from the source in a cycle. -/
def accepted (i : Input) : List Beat := if s.wrEn i then [i.word] else []

/-- Words read from the FIFO in a cycle. -/
def popped (i : Input) : List Beat :=
  if (s.comb i).rdEn && s.fifo.doutValid then [s.fifo.dout] else []

/-- Words handed over at the output in a cycle. -/
def handed (i : Input) : List Beat :=
  if (s.comb i).mTvalid && i.tready then [(s.comb i).mWord] else []

end Cutter

def machine : Machine Cutter Input := ⟨Cutter.step⟩

/-! What the block is for. -/

/-- The bytes of a word whose strobe is set, the most significant first. -/
def Beat.bytes (w : Beat) : List (BitVec 8) :=
  ((List.range 32).filter fun j => w.tstrb.getLsbD (31 - j)).map fun j =>
    w.tdata.extractLsb' (248 - 8 * j) 8

def bytes (ws : List Beat) : List (BitVec 8) := ws.flatMap Beat.bytes

/-- The strobes of the first `k` bytes of a word. -/
def leading (k : Nat) : BitVec 32 := BitVec.allOnes 32 <<< (32 - k)

/-- The strobes of the last of `n` bytes. -/
def lastStrobes (n : Nat) : BitVec 32 := leading (if n % 32 = 0 then 32 else n % 32)

/-- The words that `n` bytes take. -/
def wordsOf (n : Nat) : Nat := (n + 31) / 32

/-- The length field of a packet. -/
def firstLen : List Beat → Nat
  | [] => 0
  | w :: _ => w.len.toNat

/-- A packet filled from its first byte on, whose length field says how many bytes it has. -/
structure Sized (pkt : List Beat) : Prop where
  packet : Packet Beat.tlast pkt
  strobes : ∃ ws w k, pkt = ws ++ [w] ∧ (∀ v ∈ ws, v.tstrb = leading 32) ∧ k ≤ 32 ∧
    w.tstrb = leading k
  length : firstLen pkt = (bytes pkt).length

/-- Word number `k` of a packet cut to `n` bytes. -/
def cutWord (n k : Nat) (w : Beat) : Beat where
  tdata := w.tdata
  tstrb := if k + 1 = wordsOf n then lastStrobes n else w.tstrb
  tuser := if k = 0 then (w.setLen (BitVec.ofNat 16 n)).tuser else 0
  tlast := k + 1 = wordsOf n

/-- A packet cut to `n` bytes, if it is longer. -/
def cut (n : Nat) (pkt : List Beat) : List Beat :=
  if n < firstLen pkt then (pkt.take (wordsOf n)).mapIdx (cutWord n) else pkt

/-- What is to come out for a packet: its first `n` bytes if it is longer, else the packet. -/
structure CutTo (n : Nat) (pkt out : List Beat) : Prop where
  packet : Packet Beat.tlast out
  short : (bytes pkt).length ≤ n → out = pkt
  bytes : n < (bytes pkt).length → bytes out = (bytes pkt).take n
  strobes : n < (PacketCutter.bytes pkt).length → ∃ ws w, out = ws ++ [w] ∧
    (∀ v ∈ ws, v.tstrb = leading 32) ∧ w.tstrb = lastStrobes n
  length : n < (PacketCutter.bytes pkt).length → firstLen out = n

end Osnt.PacketCutter
