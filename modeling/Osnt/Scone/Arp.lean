import Osnt.Lib.Buffer
import Osnt.Lib.FirstMatch

/-! `or_arp.c` of the SCONE router: the ARP cache, what changes it, and its copy in the rows of the
hardware's CAM. The packets that wait for a reply are in `Osnt.Scone.ArpQueue`.

Addresses are as they lie in memory, in network order. An access beyond the end of a packet and a
failed `assert` give `none`. -/
namespace Osnt.Scone.Arp
open Lib Lib.Buffer

/-- An Ethernet address, byte by byte. -/
structure Mac where
  b0 : BitVec 8
  b1 : BitVec 8
  b2 : BitVec 8
  b3 : BitVec 8
  b4 : BitVec 8
  b5 : BitVec 8
deriving DecidableEq, Repr

/-- `arp_cache_entry`. All callers of `update_arp_cache` set `is_static` to 0 or 1. -/
structure CacheEntry where
  ip : BitVec 32
  arpHa : Mac
  ttl : Int
  isStatic : Bool
deriving DecidableEq, Repr

/-- A row of the CAM. -/
structure Row where
  macHi : BitVec 32
  macLo : BitVec 32
  nextHop : BitVec 32
deriving DecidableEq, Repr

/-- What is written to a row without an entry. -/
def Row.clear : Row := ⟨0, 0, 0⟩

/-- The words that `write_arp_cache_entry_to_hw` puts together. -/
def rowOf (ip : BitVec 32) (mac : Mac) : Row :=
  ⟨(mac.b0.setWidth 32 <<< 8) ||| mac.b1.setWidth 32,
    (mac.b2.setWidth 32 <<< 24) ||| (mac.b3.setWidth 32 <<< 16) ||| (mac.b4.setWidth 32 <<< 8) |||
      mac.b5.setWidth 32,
    swap32 ip⟩

def writeArpCacheEntryToHw (hw : List Row) (entry : Option CacheEntry) (row : Nat) : List Row :=
  match entry with
  | some e => hw.set row (rowOf e.ip e.arpHa)
  | none => hw.set row .clear

/-- `NFPLUS_OUTPUT_PORT_LOOKUP_0_MEM_IP_ARP_CAM_WIDTH`. -/
def arpCamWidth : Nat := 32

/-- The first loop of `write_arp_cache_to_hw`, from the entry and the row it has come to. -/
def writeStatics : List CacheEntry → Nat → List Row → List Row × Nat
  | [], i, hw => (hw, i)
  | e :: cur, i, hw =>
    if i < arpCamWidth then
      if e.isStatic then writeStatics cur (i + 1) (writeArpCacheEntryToHw hw (some e) i)
      else writeStatics cur i hw
    else (hw, i)

/-- The second loop: the other entries, and zeros in the rows that are left. -/
def writeOthers : List CacheEntry → Nat → List Row → List Row
  | [], i, hw =>
    (List.range' i (arpCamWidth - i)).foldl (fun hw i => writeArpCacheEntryToHw hw none i) hw
  | e :: cur, i, hw =>
    if i < arpCamWidth then
      if e.isStatic = false then writeOthers cur (i + 1) (writeArpCacheEntryToHw hw (some e) i)
      else writeOthers cur i hw
    else hw

def writeArpCacheToHw (cache : List CacheEntry) (hw : List Row) : List Row :=
  let (hw, i) := writeStatics cache 0 hw
  writeOthers cache i hw

/-- The part of the router state that holds the cache. The CAM has a fixed number of rows. -/
structure State where
  arpCache : List CacheEntry
  arpTtl : BitVec 32
  isNetfpga : Bool
  hw : List Row
  length_hw : hw.length = arpCamWidth

/-- `in_arp_cache`. -/
def inArpCache (cache : List CacheEntry) (ip : BitVec 32) : Option CacheEntry :=
  cache.find? fun e => ip == e.ip

theorem length_writeArpCacheEntryToHw (hw : List Row) (entry : Option CacheEntry) (row : Nat) :
    (writeArpCacheEntryToHw hw entry row).length = hw.length := by
  unfold writeArpCacheEntryToHw
  split <;> exact List.length_set

theorem length_writeStatics (cur : List CacheEntry) (i : Nat) (hw : List Row) :
    (writeStatics cur i hw).1.length = hw.length := by
  induction cur generalizing i hw with
  | nil => rfl
  | cons e cur ih =>
    unfold writeStatics
    split
    · split
      · rw [ih, length_writeArpCacheEntryToHw]
      · exact ih i hw
    · rfl

theorem length_clearRows (rows : List Nat) (hw : List Row) :
    (rows.foldl (fun hw i => writeArpCacheEntryToHw hw none i) hw).length = hw.length := by
  induction rows generalizing hw with
  | nil => rfl
  | cons i rows ih => rw [List.foldl_cons, ih, length_writeArpCacheEntryToHw]

theorem length_writeOthers (cur : List CacheEntry) (i : Nat) (hw : List Row) :
    (writeOthers cur i hw).length = hw.length := by
  induction cur generalizing i hw with
  | nil => exact length_clearRows _ hw
  | cons e cur ih =>
    unfold writeOthers
    split
    · split
      · rw [ih, length_writeArpCacheEntryToHw]
      · exact ih i hw
    · rfl

theorem length_writeArpCacheToHw (cache : List CacheEntry) (hw : List Row) :
    (writeArpCacheToHw cache hw).length = hw.length := by
  unfold writeArpCacheToHw
  rw [length_writeOthers, length_writeStatics]

/-- `trigger_arp_cache_modified`. -/
def triggerArpCacheModified (st : State) : State :=
  if st.isNetfpga then
    { st with
      hw := writeArpCacheToHw st.arpCache st.hw
      length_hw := (length_writeArpCacheToHw st.arpCache st.hw).trans st.length_hw }
  else st

def CacheEntry.refresh (arpHa : Mac) (ttl : Int) (isStatic : Bool) (e : CacheEntry) : CacheEntry :=
  { e with arpHa, ttl, isStatic }

/-- `update_arp_cache`: the first entry for the address, or a new one. -/
def updateArpCache (st : State) (remoteIp : BitVec 32) (remoteMac : Mac) (isStatic : Bool)
    (now : Int) : State :=
  let ttl := if isStatic then 0 else now
  let arpCache :=
    if (inArpCache st.arpCache remoteIp).isSome then
      modifyFirst (fun e => remoteIp == e.ip) (CacheEntry.refresh remoteMac ttl isStatic)
        st.arpCache
    else st.arpCache ++ [⟨remoteIp, remoteMac, ttl, isStatic⟩]
  triggerArpCacheModified { st with arpCache }

/-- `cli_ip_arp_add`. -/
def cliIpArpAdd (st : State) (ip : BitVec 32) (mac : Mac) : State := updateArpCache st ip mac true 0

/-- `del_arp_cache`, and the number of entries deleted. -/
def delArpCache (st : State) (ip : BitVec 32) : State × Nat :=
  let kept := st.arpCache.filter fun e => e.ip != ip
  ({ st with arpCache := kept }, st.arpCache.length - kept.length)

/-- `cli_ip_arp_del`. -/
def cliIpArpDel (st : State) (ip : BitVec 32) : State :=
  let (st, result) := delArpCache st ip
  if 0 < result then triggerArpCacheModified st else st

/-- The loop of `expire_arp_cache` from the entry it has come to, after `n` calls of `time`; the
entries that stay, and whether one has timed out. -/
def expireLoop (arpTtl : BitVec 32) (time : Nat → Int) :
    Nat → List CacheEntry → List CacheEntry × Bool
  | _, [] => ([], false)
  | n, e :: cur =>
    if e.isStatic = false then
      if (arpTtl.toNat : Int) < time n - e.ttl then ((expireLoop arpTtl time (n + 1) cur).1, true)
      else
        let (kept, timedOut) := expireLoop arpTtl time (n + 1) cur
        (e :: kept, timedOut)
    else
      let (kept, timedOut) := expireLoop arpTtl time n cur
      (e :: kept, timedOut)

/-- `expire_arp_cache`. -/
def expireArpCache (st : State) (time : Nat → Int) : State :=
  let (arpCache, timedOut) := expireLoop st.arpTtl time 0 st.arpCache
  if timedOut then triggerArpCacheModified { st with arpCache } else { st with arpCache }

/-- `cli_nuke_arp_cache`. -/
def cliNukeArpCache (st : State) : State :=
  let st := { st with arpCache := [] }
  if st.isNetfpga then triggerArpCacheModified st else st

/-- `arp_hdr` as far as the cache depends on it. -/
structure ArpHdr where
  op : BitVec 16
  sha : Mac
  sip : BitVec 32

/-- `get_arp_hdr`, with the bytes that are read. -/
def getArpHdr (packet : Bytes) : Option ArpHdr := do
  let type ← load16 packet 12
  if swap16 type ≠ 0x0806 then none
  let op ← load16 packet 20
  let b0 ← load8 packet 22
  let b1 ← load8 packet 23
  let b2 ← load8 packet 24
  let b3 ← load8 packet 25
  let b4 ← load8 packet 26
  let b5 ← load8 packet 27
  let sip ← load32 packet 28
  return ⟨swap16 op, ⟨b0, b1, b2, b3, b4, b5⟩, sip⟩

def arpOpReply : BitVec 16 := 2

/-- `process_arp_packet` as far as it concerns the cache: a request is answered, a reply taken
in. -/
def processArpPacket (st : State) (packet : Bytes) (now : Int) : Option State := do
  let arp ← getArpHdr packet
  if arp.op = arpOpReply then return updateArpCache st arp.sip arp.sha false now
  else return st

/-- What reaches the cache: packets and the passes of `arp_thread`, and the commands of the
operator. -/
inductive Event
  | packet (packet : Bytes) (now : Int)
  | expire (time : Nat → Int)
  | cliIpArpAdd (ip : BitVec 32) (mac : Mac)
  | cliIpArpDel (ip : BitVec 32)
  | cliNukeArpCache

def step (st : State) : Event → Option State
  | .packet packet now => processArpPacket st packet now
  | .expire time => some (expireArpCache st time)
  | .cliIpArpAdd ip mac => some (cliIpArpAdd st ip mac)
  | .cliIpArpDel ip => some (cliIpArpDel st ip)
  | .cliNukeArpCache => some (cliNukeArpCache st)

end Osnt.Scone.Arp
