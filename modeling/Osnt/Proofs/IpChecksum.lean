import Osnt.Lib.Halfwords
import Osnt.Proofs.HeaderCheck
import Osnt.Proofs.PwospfChecksum
import Osnt.Scone.IpForward

/-! `compute_ip_checksum` against `verify_checksum`: one adds the carries twice and complements, the
other adds them once and compares with all ones. -/
namespace Osnt.Scone.IpForward
open Lib Lib.Buffer
open Pwospf (complementSum complementSum_eq_zero_iff add_complementSum_mod)

/-- All halfwords of a header but the checksum. -/
def headerSum (b : Bytes) (ip : Nat) : Nat → Nat
  | 0 => 0
  | n + 1 => headerSum b ip n + if n ≠ 5 then (be16 b (ip + 2 * n)).toNat else 0

theorem sumHeader_eq {b : Bytes} {ip n : Nat} (h : ip + 2 * n ≤ b.length) :
    sumHeader b ip n = some (headerSum b ip n) := by
  induction n with
  | zero => rfl
  | succ n ih =>
    rw [sumHeader, ih (by omega), headerSum, load16_eq, if_pos (by omega)]
    by_cases hn : n ≠ 5
    · simp [hn]
    · simp [hn]

theorem headerSum_le (b : Bytes) (ip n : Nat) : headerSum b ip n ≤ n * 65535 := by
  induction n with
  | zero => exact Nat.zero_le _
  | succ n ih =>
    have hterm : (if n ≠ 5 then (be16 b (ip + 2 * n)).toNat else 0) < 65536 := by
      split
      · exact BitVec.isLt _
      · omega
    rw [headerSum]
    omega

theorem headerSum_congr {b b' : Bytes} {ip n : Nat}
    (h : ∀ i < n, i ≠ 5 → be16 b' (ip + 2 * i) = be16 b (ip + 2 * i)) :
    headerSum b' ip n = headerSum b ip n := by
  induction n with
  | zero => rfl
  | succ n ih =>
    rw [headerSum, headerSum, ih fun i hi => h i (by omega)]
    split
    · rename_i hn
      rw [h n (by omega) hn]
    · rfl

theorem wordSum_header (b : Bytes) (ip : Nat) {n : Nat} (hn : 5 < n) :
    wordSum b ip n = headerSum b ip n + (be16 b (ip + 10)).toNat := by
  unfold wordSum
  induction n, hn using Nat.le_induction with
  | base =>
    simp [headerSum, List.range_succ]
    omega
  | succ n hn ih =>
    rw [List.range_succ, List.map_append, List.sum_append, ih, headerSum, if_pos (by omega)]
    simp only [List.map_cons, List.map_nil, List.sum_singleton]
    omega

theorem verifyChecksum_iff_wordSum (b : Bytes) (o : Nat) {m : Nat} (hm : m ≤ 65535) :
    Ip.verifyChecksum (b.drop o) (2 * m) = 0 ↔
      wordSum b o m % 65535 = 0 ∧ wordSum b o m ≠ 0 := by
  have hwords : ((List.range (2 * m / 2)).map fun i => (Ip.ntohsAt (b.drop o) i).toNat) =
      (List.range m).map fun i => (be16 b (o + 2 * i)).toNat := by
    rw [Nat.mul_div_cancel_left m Nat.two_pos]
    refine List.map_congr_left fun i _ => ?_
    simp only [Ip.ntohsAt, be16, List.getD_eq_getElem?_getD, List.getElem?_drop, Nat.add_assoc]
  rw [HeaderCheck.verifyChecksum_eq_zero_iff _ (by omega), hwords]
  refine OnesComplement.sum_eq_max_iff (by decide) fun x hx => ?_
  obtain ⟨i, -, rfl⟩ := List.mem_map.mp hx
  exact BitVec.isLt _

/-- `ip_hl`, in halfwords. -/
def headerWords (b : Bytes) (ip : Nat) : Nat := ((b.getD ip 0).extractLsb' 0 4).toNat * 2

theorem headerWords_le (b : Bytes) (ip : Nat) : headerWords b ip ≤ 30 := by
  have hlt := ((b.getD ip 0).extractLsb' 0 4).isLt
  unfold headerWords
  omega

/-- The checksum that is computed does not depend on the one that is there. -/
theorem computeIpChecksum_eq {b : Bytes} {ip : Nat} (hfield : ip + 12 ≤ b.length)
    (hlen : ip + 2 * headerWords b ip ≤ b.length) :
    ∃ cleared, store16 b (ip + 10) 0 = some cleared ∧
      computeIpChecksum b ip =
        some (complementSum (headerSum b ip (headerWords b ip)), cleared) := by
  obtain ⟨cleared, hstore⟩ := store16_isSome (b := b) (o := ip + 10) (by omega) 0
  obtain ⟨hlength, hframe, -⟩ := store16_spec hstore
  have hfirst : load8 cleared ip = some (b.getD ip 0) :=
    (hframe ip (by omega)).trans (getElem?_eq_getD b (by omega))
  have hsum := @sumHeader_eq cleared ip (headerWords b ip) (by omega)
  have hsame : headerSum cleared ip (headerWords b ip) = headerSum b ip (headerWords b ip) :=
    headerSum_congr fun i _ hne => be16_congr fun k hk hk' => hframe k (by omega)
  refine ⟨cleared, hstore, ?_⟩
  unfold computeIpChecksum
  simp only [hstore, hfirst, Option.bind_eq_bind, Option.bind_some]
  change (sumHeader cleared ip (headerWords b ip)).bind _ = _
  rw [hsum, hsame]
  rfl

/-- A header with its checksum filled in passes the check. -/
theorem verifyChecksum_of_complement {b : Bytes} {ip n : Nat} (hn : 5 < n) (hle : n ≤ 65535)
    (hsum : be16 b (ip + 10) = complementSum (headerSum b ip n)) :
    Ip.verifyChecksum (b.drop ip) (2 * n) = 0 := by
  have hbound : headerSum b ip n < 65535 * 65536 := by
    have := headerSum_le b ip n
    omega
  refine (verifyChecksum_iff_wordSum b ip hle).mpr ?_
  rw [wordSum_header b ip hn, hsum]
  refine ⟨add_complementSum_mod hbound, fun hzero => ?_⟩
  -- A sum of zero has the complement 0xFFFF.
  obtain ⟨hnone, hcomplement⟩ := Nat.add_eq_zero_iff.mp hzero
  exact ((complementSum_eq_zero_iff hbound).mp hcomplement).2 hnone

/-- Two halfwords that complete the same sum are equal, or are the two zeros. -/
theorem eq_of_complements {sum : Nat} {x y : BitVec 16} (hx : (sum + x.toNat) % 65535 = 0)
    (hy : (sum + y.toNat) % 65535 = 0) : x = y ∨ x = 0 ∧ y = 0xFFFF ∨ x = 0xFFFF ∧ y = 0 := by
  have hxlt := x.isLt
  have hylt := y.isLt
  have hzero : (0 : BitVec 16).toNat = 0 := rfl
  have hmax : (0xFFFF : BitVec 16).toNat = 65535 := rfl
  rw [BitVec.toNat_eq, BitVec.toNat_eq, BitVec.toNat_eq, BitVec.toNat_eq, BitVec.toNat_eq, hzero,
    hmax]
  omega

/-- For every header of at least five words that is there: with `compute_ip_checksum` stored in it,
`verify_checksum` accepts it; and of a header that is accepted, the checksum computed is the one
stored, but for the two zeros. -/
theorem checksums_agree {b : Bytes} {ip : Nat}
    (hihl : 5 ≤ ((b.getD ip 0).extractLsb' 0 4).toNat)
    (hlen : ip + 4 * ((b.getD ip 0).extractLsb' 0 4).toNat ≤ b.length) :
    (∃ checksum cleared filled, computeIpChecksum b ip = some (checksum, cleared) ∧
        store16 cleared (ip + 10) (swap16 checksum) = some filled ∧
        Ip.verifyChecksum (filled.drop ip) (4 * ((b.getD ip 0).extractLsb' 0 4).toNat) = 0) ∧
      (Ip.verifyChecksum (b.drop ip) (4 * ((b.getD ip 0).extractLsb' 0 4).toNat) = 0 →
        ∃ checksum cleared, computeIpChecksum b ip = some (checksum, cleared) ∧
          (checksum = be16 b (ip + 10) ∨ checksum = 0 ∧ be16 b (ip + 10) = 0xFFFF ∨
            checksum = 0xFFFF ∧ be16 b (ip + 10) = 0)) := by
  have hwords : 4 * ((b.getD ip 0).extractLsb' 0 4).toNat = 2 * headerWords b ip := by
    unfold headerWords
    omega
  rw [hwords] at hlen ⊢
  have hle := headerWords_le b ip
  have hlt : 5 < headerWords b ip := by omega
  obtain ⟨cleared, hstore, hcompute⟩ := @computeIpChecksum_eq b ip (by omega) hlen
  obtain ⟨hlength, hframe, -⟩ := store16_spec hstore
  constructor
  · obtain ⟨filled, hfill⟩ := store16_isSome (b := cleared) (o := ip + 10) (by omega)
      (swap16 (complementSum (headerSum b ip (headerWords b ip))))
    obtain ⟨-, hframe', hload⟩ := store16_spec hfill
    refine ⟨_, cleared, filled, hcompute, hfill, ?_⟩
    apply verifyChecksum_of_complement hlt (by omega)
    rw [be16_of_load16 hload, swap16_swap16]
    refine congrArg complementSum (headerSum_congr fun i _ hne => ?_).symm
    exact be16_congr fun k hk hk' => (hframe' k (by omega)).trans (hframe k (by omega))
  · intro haccepted
    refine ⟨_, cleared, hcompute, ?_⟩
    obtain ⟨hstored, hne⟩ := (verifyChecksum_iff_wordSum b ip (by omega)).mp haccepted
    rw [wordSum_header b ip hlt] at hstored
    have hcomputed := @add_complementSum_mod (headerSum b ip (headerWords b ip)) (by
      have := headerSum_le b ip (headerWords b ip)
      omega)
    exact eq_of_complements hcomputed hstored

/-- A packet of twenty bytes from 10.0.0.1 to 10.0.0.2. -/
def emptyPacket : Bytes :=
  [0x45, 0, 0, 20, 0, 0, 0x40, 0, 64, 1, 0x26, 0xe7, 10, 0, 0, 1, 10, 0, 0, 2]

theorem checksums_agree_emptyPacket :
    (∃ checksum cleared filled, computeIpChecksum emptyPacket 0 = some (checksum, cleared) ∧
        store16 cleared 10 (swap16 checksum) = some filled ∧
        Ip.verifyChecksum filled 20 = 0) ∧
      Ip.verifyChecksum emptyPacket 20 = 0 ∧
      ∃ checksum cleared, computeIpChecksum emptyPacket 0 = some (checksum, cleared) ∧
        (checksum = be16 emptyPacket 10 ∨ checksum = 0 ∧ be16 emptyPacket 10 = 0xFFFF ∨
          checksum = 0xFFFF ∧ be16 emptyPacket 10 = 0) := by
  have haccepted : Ip.verifyChecksum emptyPacket 20 = 0 := by decide +kernel
  obtain ⟨hfilled, hstored⟩ := @checksums_agree emptyPacket 0 (by decide) (by decide)
  exact ⟨hfilled, haccepted, hstored haccepted⟩

end Osnt.Scone.IpForward
