import Mathlib.Algebra.Ring.Nat
import Mathlib.Data.Fin.VecNotation
import Mathlib.Data.Fintype.Basic
import Mathlib.Tactic.FinCases
import SystemsCourse.Lib.Frames
import SystemsCourse.Lib.Reading

/-!
# The packet decoder

Model of `decode_ethernet_ipv4_tcp` in `capstone/reference/src/packet.cpp`, as a program that reads the
packet byte by byte.

* `decoder_in_bounds`   no read is outside of the packet;
* `Packet`              a frame with its headers, and `Packet.bytes`, how it is laid out;
* `decoder_exact`       the decoder accepts the frames, and returns their fields.
-/

set_option linter.unusedVariables false

namespace NetForge
open Wire Span

/-- `PacketSummary` -/
structure PacketSummary where
  valid : Bool := false
  vlanTagged : Bool := false
  sourceIp : Bytes := []
  destinationIp : Bytes := []
  sourcePort : UInt16 := 0
  destinationPort : UInt16 := 0
  tcpFlags : UInt8 := 0
  error : Bytes := []
deriving DecidableEq

/-- `(high << 8U) | low` -/
def word (high low : UInt8) : UInt16 := (high.toUInt16 <<< 8) ||| low.toUInt16

def readU16 (offset : ℕ) : Reading UInt8 UInt16 := do
  let high ← Reading.get offset
  let low ← Reading.get (offset + 1)
  return word high low

def formatIpv4 (offset : ℕ) : Reading UInt8 Bytes :=
  (List.range 4).foldlM (fun output index => do
    let byte ← Reading.get (offset + index)
    return output ++ (if index ≠ 0 then ascii "." else []) ++ ascii (toString byte.toNat)) []

/-- from the TCP header on -/
def decodeTcp (summary : PacketSummary) (ipOffset ipHeaderLength totalLength : ℕ) :
    Reading UInt8 PacketSummary := do
  let tcpOffset := ipOffset + ipHeaderLength
  let offset ← Reading.get (tcpOffset + 12)
  let tcpHeaderLength := (offset >>> 4).toNat * 4
  if tcpHeaderLength < 20 ∨ tcpOffset + tcpHeaderLength > ipOffset + totalLength then
    return { summary with error := ascii "invalid TCP header length" }
  else
    let sourceIp ← formatIpv4 (ipOffset + 12)
    let destinationIp ← formatIpv4 (ipOffset + 16)
    let sourcePort ← readU16 tcpOffset
    let destinationPort ← readU16 (tcpOffset + 2)
    let tcpFlags ← Reading.get (tcpOffset + 13)
    return { summary with
      sourceIp := sourceIp, destinationIp := destinationIp, sourcePort := sourcePort,
      destinationPort := destinationPort, tcpFlags := tcpFlags, valid := true }

/-- from the test of the EtherType on -/
def decodeIpv4 (size : ℕ) (summary : PacketSummary) (etherType : UInt16) (ipOffset : ℕ) :
    Reading UInt8 PacketSummary :=
  if etherType ≠ 0x0800 then
    return { summary with error := ascii "EtherType is not IPv4" }
  else if size < ipOffset + 20 then
    return { summary with error := ascii "truncated IPv4 header" }
  else do
    let versionIhl ← Reading.get ipOffset
    if versionIhl >>> 4 ≠ 4 then
      return { summary with error := ascii "IP version is not 4" }
    else
      let ipHeaderLength := (versionIhl &&& 0x0F).toNat * 4
      if ipHeaderLength < 20 ∨ size < ipOffset + ipHeaderLength then
        return { summary with error := ascii "invalid IPv4 header length" }
      else
        let totalLength ← readU16 (ipOffset + 2)
        if totalLength.toNat < ipHeaderLength + 20 ∨ size < ipOffset + totalLength.toNat then
          return { summary with error := ascii "invalid or truncated IPv4 total length" }
        else
          let protocol ← Reading.get (ipOffset + 9)
          if protocol ≠ 6 then
            return { summary with error := ascii "IPv4 payload is not TCP" }
          else
            let flagsAndFragmentOffset ← readU16 (ipOffset + 6)
            if flagsAndFragmentOffset &&& 0x3FFF ≠ 0 then
              return { summary with
                error := ascii "fragmented IPv4 packets do not contain a complete TCP header" }
            else decodeTcp summary ipOffset ipHeaderLength totalLength.toNat

def decode (size : ℕ) : Reading UInt8 PacketSummary :=
  if size < 14 then
    return { error := ascii "truncated Ethernet header" }
  else do
    let etherType ← readU16 12
    if etherType = 0x8100 ∨ etherType = 0x88A8 then
      if size < 18 then
        return { error := ascii "truncated VLAN header" }
      else
        let etherType ← readU16 16
        decodeIpv4 size { vlanTagged := true } etherType 18
    else decodeIpv4 size {} etherType 14

/-- the result; there is none if the decoder reads outside of the packet -/
def decodeEthernetIpv4Tcp (packet : Bytes) : Option PacketSummary :=
  (decode packet.length).run packet

/-! ## bounds -/

section
variable {packet : Bytes}

theorem readU16_inBounds {offset : ℕ} (h : offset + 1 < packet.length) :
    (readU16 offset).InBounds packet := by
  refine .bind (.get (Nat.lt_of_succ_lt h)) fun high _ => ?_
  exact .bind (.get h) fun low _ => .pure _

theorem formatIpv4_inBounds {offset : ℕ} (h : offset + 3 < packet.length) :
    (formatIpv4 offset).InBounds packet := by
  refine .foldlM (fun output index hindex => ?_) []
  have hlt := List.mem_range.mp hindex
  exact .bind (.get (by omega)) fun byte _ => .pure _

theorem decodeTcp_inBounds (summary : PacketSummary) {ipOffset ipHeaderLength totalLength : ℕ}
    (h20 : 20 ≤ ipHeaderLength) (h : ipOffset + ipHeaderLength + 20 ≤ packet.length) :
    (decodeTcp summary ipOffset ipHeaderLength totalLength).InBounds packet := by
  refine .bind (.get (by omega)) fun offset _ => ?_
  dsimp only
  split
  · exact .pure _
  · refine .bind (formatIpv4_inBounds (by omega)) fun sourceIp _ => ?_
    refine .bind (formatIpv4_inBounds (by omega)) fun destinationIp _ => ?_
    refine .bind (readU16_inBounds (by omega)) fun sourcePort _ => ?_
    refine .bind (readU16_inBounds (by omega)) fun destinationPort _ => ?_
    exact .bind (.get (by omega)) fun tcpFlags _ => .pure _

theorem decodeIpv4_inBounds (summary : PacketSummary) (etherType : UInt16) (ipOffset : ℕ) :
    (decodeIpv4 packet.length summary etherType ipOffset).InBounds packet := by
  unfold decodeIpv4
  split
  · exact .pure _
  split
  · exact .pure _
  refine .bind (.get (by omega)) fun versionIhl _ => ?_
  split
  · exact .pure _
  dsimp only
  split
  · exact .pure _
  refine .bind (readU16_inBounds (by omega)) fun totalLength _ => ?_
  split
  · exact .pure _
  refine .bind (.get (by omega)) fun protocol _ => ?_
  split
  · exact .pure _
  refine .bind (readU16_inBounds (by omega)) fun flags _ => ?_
  split
  · exact .pure _
  exact decodeTcp_inBounds summary (by omega) (by omega)

theorem decode_inBounds (packet : Bytes) : (decode packet.length).InBounds packet := by
  unfold decode
  split
  · exact .pure _
  refine .bind (readU16_inBounds (by omega)) fun etherType _ => ?_
  split
  · split
    · exact .pure _
    · refine .bind (readU16_inBounds (by omega)) fun etherType _ => ?_
      exact decodeIpv4_inBounds _ etherType 18
  · exact decodeIpv4_inBounds _ etherType 14

end

/-- **No read outside of the packet.**  For every byte string, every index that the decoder reads is
smaller than its length, on every path; so the decoder has a result. -/
theorem decoder_in_bounds (packet : Bytes) :
    (∀ i ∈ (decode packet.length).indices packet, i < packet.length) ∧
      ∃ summary, decodeEthernetIpv4Tcp packet = some summary :=
  ⟨decode_inBounds packet, (decode_inBounds packet).exists_run⟩

/-! ## words and halves of bytes -/

theorem word_toNat (a b : UInt8) : (word a b).toNat = a.toNat * 256 + b.toNat := by
  have ha := a.toNat_lt
  have hb := b.toNat_lt
  unfold word
  rw [UInt16.toNat_or, UInt16.toNat_shiftLeft, UInt8.toNat_toUInt16, UInt8.toNat_toUInt16,
    show (8 : UInt16).toNat % 16 = 8 from rfl, Nat.mod_eq_of_lt (by rw [Nat.shiftLeft_eq]; omega),
    ← Nat.shiftLeft_add_eq_or_of_lt hb, Nat.shiftLeft_eq]

def highByte (w : UInt16) : UInt8 := UInt8.ofNat (w.toNat / 256)

def lowByte (w : UInt16) : UInt8 := UInt8.ofNat w.toNat

theorem word_bytes (w : UInt16) : word (highByte w) (lowByte w) = w := by
  have hw := w.toNat_lt
  rw [← UInt16.toNat_inj, word_toNat, highByte, lowByte, UInt8.toNat_ofNat', UInt8.toNat_ofNat']
  omega

theorem highByte_word (a b : UInt8) : highByte (word a b) = a := by
  have ha := a.toNat_lt
  have hb := b.toNat_lt
  rw [← UInt8.toNat_inj, highByte, word_toNat, UInt8.toNat_ofNat']
  omega

theorem lowByte_word (a b : UInt8) : lowByte (word a b) = b := by
  have hb := b.toNat_lt
  rw [← UInt8.toNat_inj, lowByte, word_toNat, UInt8.toNat_ofNat']
  omega

theorem word_inj {a b c d : UInt8} (h : word a b = word c d) : a = c ∧ b = d :=
  ⟨by rw [← highByte_word a b, h, highByte_word], by rw [← lowByte_word a b, h, lowByte_word]⟩

/-- a byte of two halves -/
def nibbles (high low : Fin 16) : UInt8 := UInt8.ofNat (high * 16 + low)

theorem nibbles_high (high low : Fin 16) : nibbles high low >>> 4 = UInt8.ofNat high := by
  revert high low
  decide

theorem nibbles_low (high low : Fin 16) : (nibbles high low &&& 0x0F).toNat = low := by
  revert high low
  decide

theorem nibble_eq_four (n : Fin 16) (h : UInt8.ofNat n = 4) : n = 4 := by
  revert n
  decide

theorem exists_nibbles (b : UInt8) : ∃ high low, b = nibbles high low := by
  have hb := b.toNat_lt
  refine ⟨⟨b.toNat / 16, by omega⟩, ⟨b.toNat % 16, by omega⟩, ?_⟩
  rw [← UInt8.toNat_inj, nibbles, UInt8.toNat_ofNat']
  dsimp only
  omega

/-- the low 14 bits are the more-fragments bit and the fragment offset -/
theorem unfragmented_iff (a b : UInt8) :
    word a b &&& 0x3FFF = 0 ↔ ∃ control : Fin 4, a = UInt8.ofNat (control * 64) ∧ b = 0 := by
  have ha := a.toNat_lt
  have hb := b.toNat_lt
  have hmod : (word a b &&& 0x3FFF).toNat = (a.toNat * 256 + b.toNat) % 2^14 := by
    rw [UInt16.toNat_and, word_toNat, show (0x3FFF : UInt16).toNat = 2^14 - 1 from rfl,
      Nat.and_two_pow_sub_one_eq_mod]
  rw [← UInt16.toNat_inj, hmod, show (0 : UInt16).toNat = 0 from rfl]
  constructor
  · intro h
    refine ⟨⟨a.toNat / 64, by omega⟩, ?_, ?_⟩
    · rw [← UInt8.toNat_inj, UInt8.toNat_ofNat']
      dsimp only
      omega
    · rw [← UInt8.toNat_inj, show (0 : UInt8).toNat = 0 from rfl]
      omega
  · rintro ⟨control, rfl, rfl⟩
    have hc := control.isLt
    rw [UInt8.toNat_ofNat', show (0 : UInt8).toNat = 0 from rfl]
    omega

/-! ## the layout of a frame -/

/-- an IPv4 address, a sequence number -/
structure Quad where
  a : UInt8
  b : UInt8
  c : UInt8
  d : UInt8

structure VlanTag where
  /-- 0x88A8 in place of 0x8100 -/
  provider : Bool
  control : UInt16

/-- the tag and the EtherType of IPv4 -/
def VlanTag.bytes (tag : VlanTag) : Fin 4 → UInt8 :=
  ![highByte tag.control, lowByte tag.control, 0x08, 0x00]

structure Ipv4Header where
  ihl : Fin 16
  service : UInt8
  identification : UInt16
  /-- the reserved bit and the don't-fragment bit; the more-fragments bit and the fragment offset
  are zero -/
  control : Fin 4
  ttl : UInt8
  checksum : UInt16
  source : Quad
  destination : Quad
  options : Bytes
  five_le : 5 ≤ ihl.val
  options_length : 20 + options.length = ihl.val * 4

def Ipv4Header.fixed (h : Ipv4Header) (totalLength : UInt16) : Fin 20 → UInt8 :=
  ![nibbles 4 h.ihl, h.service, highByte totalLength, lowByte totalLength,
    highByte h.identification, lowByte h.identification, UInt8.ofNat (h.control * 64), 0,
    h.ttl, 6, highByte h.checksum, lowByte h.checksum,
    h.source.a, h.source.b, h.source.c, h.source.d,
    h.destination.a, h.destination.b, h.destination.c, h.destination.d]

structure TcpHeader where
  sourcePort : UInt16
  destinationPort : UInt16
  sequence : Quad
  acknowledgement : Quad
  offset : Fin 16
  reserved : Fin 16
  flags : UInt8
  window : UInt16
  checksum : UInt16
  urgent : UInt16
  options : Bytes
  five_le : 5 ≤ offset.val
  options_length : 20 + options.length = offset.val * 4

def TcpHeader.fixed (h : TcpHeader) : Fin 20 → UInt8 :=
  ![highByte h.sourcePort, lowByte h.sourcePort, highByte h.destinationPort, lowByte h.destinationPort,
    h.sequence.a, h.sequence.b, h.sequence.c, h.sequence.d,
    h.acknowledgement.a, h.acknowledgement.b, h.acknowledgement.c, h.acknowledgement.d,
    nibbles h.offset h.reserved, h.flags, highByte h.window, lowByte h.window,
    highByte h.checksum, lowByte h.checksum, highByte h.urgent, lowByte h.urgent]

/-- a frame; the total length of the IPv4 header counts from that header to the end of the payload -/
structure Packet where
  addresses : Fin 12 → UInt8
  tag : Option VlanTag
  ip : Ipv4Header
  tcp : TcpHeader
  payload : Bytes
  fits : ip.ihl * 4 + tcp.offset * 4 + payload.length < 65536

/-- the EtherType, or the tag with the EtherType after it -/
def typeBytes : Option VlanTag → Bytes
  | none => [0x08, 0x00]
  | some tag => (if tag.provider then [0x88, 0xA8] else [0x81, 0x00]) ++ List.ofFn tag.bytes

def addressText (q : Quad) : Bytes :=
  ascii (toString q.a.toNat) ++ ascii "." ++ ascii (toString q.b.toNat) ++ ascii "." ++
    ascii (toString q.c.toNat) ++ ascii "." ++ ascii (toString q.d.toNat)

namespace Packet

def totalLength (P : Packet) : ℕ := P.ip.ihl * 4 + P.tcp.offset * 4 + P.payload.length

/-- up to the IPv4 header -/
def ethernet (P : Packet) : Bytes := List.ofFn P.addresses ++ typeBytes P.tag

def bytes (P : Packet) : Bytes :=
  P.ethernet ++ (List.ofFn (P.ip.fixed (UInt16.ofNat P.totalLength)) ++ (P.ip.options ++
    (List.ofFn P.tcp.fixed ++ (P.tcp.options ++ P.payload))))

def summary (P : Packet) : PacketSummary where
  valid := true
  vlanTagged := P.tag.isSome
  sourceIp := addressText P.ip.source
  destinationIp := addressText P.ip.destination
  sourcePort := P.tcp.sourcePort
  destinationPort := P.tcp.destinationPort
  tcpFlags := P.tcp.flags

end Packet

/-! ## reading in a part of the frame -/

section
variable {n : ℕ} {pre rest p : Bytes} {b : Fin n → UInt8} (hp : p = pre ++ (List.ofFn b ++ rest))
include hp

theorem getElem?_part {i : ℕ} (hi : i < n) : p[pre.length + i]? = some (b ⟨i, hi⟩) := by
  rw [hp, List.getElem?_append_right (Nat.le_add_right ..), Nat.add_sub_cancel_left,
    List.getElem?_append_left (by rw [List.length_ofFn]; exact hi), List.getElem?_ofFn, dif_pos hi]

theorem get_part {i : ℕ} (hi : i < n) :
    (Reading.get (pre.length + i)).run p = some (b ⟨i, hi⟩) := by
  rw [Reading.run_get, getElem?_part hp hi]

theorem readU16_part {i : ℕ} (hi : i + 1 < n) :
    (readU16 (pre.length + i)).run p = some (word (b ⟨i, Nat.lt_of_succ_lt hi⟩) (b ⟨i + 1, hi⟩)) := by
  unfold readU16
  rw [Reading.run_bind, get_part hp (Nat.lt_of_succ_lt hi), Option.bind_some, Reading.run_bind,
    Nat.add_assoc, get_part hp hi]
  rfl

theorem formatIpv4_part {i : ℕ} (hi : i + 3 < n) :
    (formatIpv4 (pre.length + i)).run p = some (addressText ⟨b ⟨i, by omega⟩, b ⟨i + 1, by omega⟩,
      b ⟨i + 2, by omega⟩, b ⟨i + 3, hi⟩⟩) := by
  have hget (j : ℕ) (hj : j < 4) :
      (Reading.get (pre.length + i + j)).run p = some (b ⟨i + j, by omega⟩) := by
    rw [Nat.add_assoc]
    exact get_part hp (by omega)
  unfold formatIpv4
  rw [show List.range 4 = [0, 1, 2, 3] from rfl]
  simp only [List.foldlM_cons, List.foldlM_nil, Reading.run_bind, hget 0 (by omega),
    hget 1 (by omega), hget 2 (by omega), hget 3 (by omega), Option.bind_some]
  rfl

end

/-! ## the decoder on the parts -/

section
variable {pre pre' rest rest' p : Bytes} {b c : Fin 20 → UInt8} {summary s : PacketSummary}

/-- what the decoder returns for a header that is as long as it says -/
def PacketSummary.fill (summary : PacketSummary) (b c : Fin 20 → UInt8) : PacketSummary :=
  { summary with
    sourceIp := addressText ⟨b 12, b 13, b 14, b 15⟩
    destinationIp := addressText ⟨b 16, b 17, b 18, b 19⟩
    sourcePort := word (c 0) (c 1)
    destinationPort := word (c 2) (c 3)
    tcpFlags := c 13
    valid := true }

theorem decodeTcp_run (hp : p = pre ++ (List.ofFn b ++ rest))
    (hp' : p = pre' ++ (List.ofFn c ++ rest')) {ipHeaderLength totalLength : ℕ}
    (hpre' : pre'.length = pre.length + ipHeaderLength) :
    (decodeTcp summary pre.length ipHeaderLength totalLength).run p
      = some (if (c 12 >>> 4).toNat * 4 < 20 ∨
            pre.length + ipHeaderLength + (c 12 >>> 4).toNat * 4 > pre.length + totalLength
          then { summary with error := ascii "invalid TCP header length" }
          else summary.fill b c) := by
  have h12 : (Reading.get (pre'.length + 12)).run p = some (c 12) := get_part hp' (by omega)
  have h13 : (Reading.get (pre'.length + 13)).run p = some (c 13) := get_part hp' (by omega)
  have h0 : (readU16 pre'.length).run p = some (word (c 0) (c 1)) := readU16_part hp' (i := 0) (by omega)
  have h2 : (readU16 (pre'.length + 2)).run p = some (word (c 2) (c 3)) := readU16_part hp' (by omega)
  have hs : (formatIpv4 (pre.length + 12)).run p = some (addressText ⟨b 12, b 13, b 14, b 15⟩) :=
    formatIpv4_part hp (by omega)
  have hd : (formatIpv4 (pre.length + 16)).run p = some (addressText ⟨b 16, b 17, b 18, b 19⟩) :=
    formatIpv4_part hp (by omega)
  unfold decodeTcp
  dsimp only
  rw [← hpre', Reading.run_bind, h12, Option.bind_some]
  split_ifs with hlen
  · rfl
  · simp only [Reading.run_bind, hs, hd, h0, h2, h13, Option.bind_some]
    rfl

/-- what the decoder asks of the IPv4 header -/
structure Ipv4Ok (size ipOffset : ℕ) (b : Fin 20 → UInt8) : Prop where
  version : b 0 >>> 4 = 4
  header_ge : 20 ≤ (b 0 &&& 0x0F).toNat * 4
  total_ge : (b 0 &&& 0x0F).toNat * 4 + 20 ≤ (word (b 2) (b 3)).toNat
  total_le : ipOffset + (word (b 2) (b 3)).toNat ≤ size
  protocol : b 9 = 6
  unfragmented : word (b 6) (b 7) &&& 0x3FFF = 0

theorem decodeIpv4_run (hp : p = pre ++ (List.ofFn b ++ rest)) (hok : Ipv4Ok p.length pre.length b) :
    (decodeIpv4 p.length summary 0x0800 pre.length).run p
      = (decodeTcp summary pre.length ((b 0 &&& 0x0F).toNat * 4) (word (b 2) (b 3)).toNat).run p := by
  have h0 : (Reading.get pre.length).run p = some (b 0) := get_part hp (i := 0) (by omega)
  have h2 : (readU16 (pre.length + 2)).run p = some (word (b 2) (b 3)) := readU16_part hp (by omega)
  have h6 : (readU16 (pre.length + 6)).run p = some (word (b 6) (b 7)) := readU16_part hp (by omega)
  have h9 : (Reading.get (pre.length + 9)).run p = some (b 9) := get_part hp (by omega)
  obtain ⟨hversion, hge, htotal, hle, hprotocol, hflags⟩ := hok
  unfold decodeIpv4
  dsimp only
  rw [if_neg (not_not_intro rfl), if_neg (by omega), Reading.run_bind, h0, Option.bind_some,
    if_neg (not_not_intro hversion), if_neg (by omega), Reading.run_bind, h2, Option.bind_some,
    if_neg (by omega), Reading.run_bind, h9, Option.bind_some, if_neg (not_not_intro hprotocol),
    Reading.run_bind, h6, Option.bind_some, if_neg (not_not_intro hflags)]

theorem ipv4Ok_of_valid (hp : p = pre ++ (List.ofFn b ++ rest)) (hinvalid : summary.valid = false)
    (hrun : (decodeIpv4 p.length summary 0x0800 pre.length).run p = some s) (hs : s.valid = true) :
    Ipv4Ok p.length pre.length b := by
  have h0 : (Reading.get pre.length).run p = some (b 0) := get_part hp (i := 0) (by omega)
  have h2 : (readU16 (pre.length + 2)).run p = some (word (b 2) (b 3)) := readU16_part hp (by omega)
  have h6 : (readU16 (pre.length + 6)).run p = some (word (b 6) (b 7)) := readU16_part hp (by omega)
  have h9 : (Reading.get (pre.length + 9)).run p = some (b 9) := get_part hp (by omega)
  -- a summary with an error is not valid
  have herror (error : Bytes) (h : some { summary with error := error } = some s) : False := by
    cases h
    exact Bool.false_ne_true (hinvalid.symm.trans hs)
  have hsize : ¬ p.length < pre.length + 20 := by
    rw [hp, List.length_append, List.length_append, List.length_ofFn]
    omega
  unfold decodeIpv4 at hrun
  dsimp only at hrun
  rw [if_neg (not_not_intro rfl), if_neg hsize, Reading.run_bind, h0, Option.bind_some] at hrun
  by_cases hversion : b 0 >>> 4 ≠ 4
  · rw [if_pos hversion] at hrun
    exact (herror _ hrun).elim
  rw [if_neg hversion] at hrun
  split at hrun
  · exact (herror _ hrun).elim
  rw [Reading.run_bind, h2, Option.bind_some] at hrun
  split at hrun
  · exact (herror _ hrun).elim
  rw [Reading.run_bind, h9, Option.bind_some] at hrun
  by_cases hprotocol : b 9 ≠ 6
  · rw [if_pos hprotocol] at hrun
    exact (herror _ hrun).elim
  rw [if_neg hprotocol, Reading.run_bind, h6, Option.bind_some] at hrun
  by_cases hflags : word (b 6) (b 7) &&& 0x3FFF ≠ 0
  · rw [if_pos hflags] at hrun
    exact (herror _ hrun).elim
  exact ⟨not_not.mp hversion, by omega, by omega, by omega, not_not.mp hprotocol, not_not.mp hflags⟩

end

/-! ## the Ethernet header -/

theorem exists_part (n : ℕ) {l : Bytes} (h : n ≤ l.length) :
    ∃ (b : Fin n → UInt8) (rest : Bytes), l = List.ofFn b ++ rest := by
  refine ⟨fun i => l[i], l.drop n, ?_⟩
  conv_lhs => rw [← List.take_append_drop n l]
  congr 1
  apply List.ext_getElem
  · rw [List.length_take, List.length_ofFn, Nat.min_eq_left h]
  · intro i h1 h2
    rw [List.getElem_take, List.getElem_ofFn]
    rfl

theorem exists_append (n : ℕ) {l : Bytes} (h : n ≤ l.length) :
    ∃ a rest, l = a ++ rest ∧ a.length = n :=
  ⟨l.take n, l.drop n, (List.take_append_drop n l).symm, by rw [List.length_take, Nat.min_eq_left h]⟩

theorem word_ipv4 : word 0x08 0x00 = 0x0800 := by decide

theorem word_vlan : word 0x81 0x00 = 0x8100 := by decide

theorem word_provider : word 0x88 0xA8 = 0x88A8 := by decide

/-- the decoder after the EtherType and the tag -/
theorem decode_ethernet (a : Fin 12 → UInt8) (tag : Option VlanTag) (q : Bytes) {p : Bytes}
    (hp : p = List.ofFn a ++ typeBytes tag ++ q) :
    (decode p.length).run p = (decodeIpv4 p.length { vlanTagged := tag.isSome } 0x0800
      (List.ofFn a ++ typeBytes tag).length).run p := by
  have hlen : p.length = 12 + (typeBytes tag).length + q.length := by
    rw [hp, List.length_append, List.length_append, List.length_ofFn]
  unfold decode
  cases tag with
  | none =>
    have h12 : (readU16 12).run p = some 0x0800 := by
      have e : p = List.ofFn a ++ (List.ofFn ![0x08, 0x00] ++ q) := by
        rw [hp, List.append_assoc]
        rfl
      have h := readU16_part e (i := 0) (by omega)
      rw [List.length_ofFn] at h
      rw [← word_ipv4]
      exact h
    have h14 : (typeBytes none).length = 2 := rfl
    rw [if_neg (by omega), Reading.run_bind, h12, Option.bind_some, if_neg (by decide), List.length_append,
      List.length_ofFn, h14]
    rfl
  | some tag =>
    have h12 : ∃ w, (readU16 12).run p = some w ∧ (w = 0x8100 ∨ w = 0x88A8) := by
      have e : p = List.ofFn a ++ (List.ofFn (if tag.provider then ![0x88, 0xA8] else ![0x81, 0x00]) ++
          (List.ofFn tag.bytes ++ q)) := by
        rw [hp, typeBytes, List.append_assoc, List.append_assoc]
        split <;> rfl
      have h := readU16_part e (i := 0) (by omega)
      rw [List.length_ofFn] at h
      refine ⟨_, h, ?_⟩
      split
      · exact Or.inr word_provider
      · exact Or.inl word_vlan
    have h16 : (readU16 16).run p = some 0x0800 := by
      have e : p = List.ofFn a ++ (if tag.provider then [0x88, 0xA8] else [0x81, 0x00]) ++
          (List.ofFn tag.bytes ++ q) := by
        rw [hp, typeBytes]
        simp only [List.append_assoc]
      have h := readU16_part e (i := 2) (by omega)
      rw [List.length_append, List.length_ofFn] at h
      rw [← word_ipv4]
      split at h
      · exact h
      · exact h
    have h6 : (typeBytes (some tag)).length = 6 := by
      rw [typeBytes, List.length_append, List.length_ofFn]
      split <;> rfl
    obtain ⟨w, hw, htag⟩ := h12
    rw [if_neg (by omega), Reading.run_bind, hw, Option.bind_some, if_pos htag, if_neg (by omega),
      Reading.run_bind, h16, Option.bind_some, List.length_append, List.length_ofFn, h6]
    rfl

/-- the first tests of the IPv4 stage -/
theorem decodeIpv4_size {p : Bytes} {summary s : PacketSummary} {etherType : UInt16} {ipOffset : ℕ}
    (hinvalid : summary.valid = false)
    (hrun : (decodeIpv4 p.length summary etherType ipOffset).run p = some s) (hs : s.valid = true) :
    etherType = 0x0800 ∧ ipOffset + 20 ≤ p.length := by
  unfold decodeIpv4 at hrun
  split at hrun
  · cases hrun
    exact absurd (hinvalid.symm.trans hs) Bool.false_ne_true
  rename_i hether
  split at hrun
  · cases hrun
    exact absurd (hinvalid.symm.trans hs) Bool.false_ne_true
  exact ⟨not_not.mp hether, by omega⟩

/-- the two bytes of an EtherType -/
theorem ofFn_of_word {e : Fin 2 → UInt8} {a b : UInt8} (h : word (e 0) (e 1) = word a b) :
    List.ofFn e = [a, b] := by
  obtain ⟨h0, h1⟩ := word_inj h
  rw [← h0, ← h1]
  rfl

/-- a tag from its bytes -/
theorem exists_tag {e : Fin 2 → UInt8} {t : Fin 4 → UInt8}
    (htag : word (e 0) (e 1) = 0x8100 ∨ word (e 0) (e 1) = 0x88A8) (hether : word (t 2) (t 3) = 0x0800) :
    ∃ tag, List.ofFn e ++ List.ofFn t = typeBytes (some tag) := by
  obtain ⟨h2, h3⟩ := word_inj (hether.trans word_ipv4.symm)
  have hbytes (provider : Bool) :
      List.ofFn t = List.ofFn (⟨provider, word (t 0) (t 1)⟩ : VlanTag).bytes := by
    unfold VlanTag.bytes
    rw [highByte_word, lowByte_word, ← h2, ← h3]
    rfl
  rcases htag with htag | htag
  · refine ⟨⟨false, word (t 0) (t 1)⟩, ?_⟩
    rw [ofFn_of_word (htag.trans word_vlan.symm), typeBytes, hbytes false]
    rfl
  · refine ⟨⟨true, word (t 0) (t 1)⟩, ?_⟩
    rw [ofFn_of_word (htag.trans word_provider.symm), typeBytes, hbytes true]
    rfl

theorem ethernet_of_valid {p : Bytes} {s : PacketSummary} (hrun : (decode p.length).run p = some s)
    (hs : s.valid = true) :
    ∃ (a : Fin 12 → UInt8) (tag : Option VlanTag) (q : Bytes),
      p = List.ofFn a ++ typeBytes tag ++ q ∧ 20 ≤ q.length := by
  unfold decode at hrun
  split at hrun
  · cases hrun
    cases hs
  obtain ⟨a, r, hr⟩ := exists_part 12 (l := p) (by omega)
  have hlen : p.length = 12 + r.length := by rw [hr, List.length_append, List.length_ofFn]
  obtain ⟨e, q, rfl⟩ := exists_part 2 (l := r) (by omega)
  have h12 : (readU16 12).run p = some (word (e 0) (e 1)) := by
    have h := readU16_part hr (i := 0) (by omega)
    rwa [List.length_ofFn] at h
  rw [List.length_append, List.length_ofFn] at hlen
  rw [Reading.run_bind, h12, Option.bind_some] at hrun
  split at hrun
  · rename_i htag
    split at hrun
    · cases hrun
      cases hs
    obtain ⟨t, q, rfl⟩ := exists_part 4 (l := q) (by omega)
    have h16 : (readU16 16).run p = some (word (t 2) (t 3)) := by
      have e' : p = List.ofFn a ++ List.ofFn e ++ (List.ofFn t ++ q) := by rw [hr, List.append_assoc]
      have h := readU16_part e' (i := 2) (by omega)
      rwa [List.length_append, List.length_ofFn, List.length_ofFn] at h
    rw [List.length_append, List.length_ofFn] at hlen
    rw [Reading.run_bind, h16, Option.bind_some] at hrun
    obtain ⟨hether, hsize⟩ := decodeIpv4_size rfl hrun hs
    obtain ⟨tag, e'⟩ := exists_tag htag hether
    refine ⟨a, some tag, q, ?_, by omega⟩
    rw [hr, ← e']
    simp only [List.append_assoc]
  · obtain ⟨hether, hsize⟩ := decodeIpv4_size rfl hrun hs
    refine ⟨a, none, q, ?_, by omega⟩
    rw [hr, ofFn_of_word (hether.trans word_ipv4.symm), List.append_assoc]
    rfl

/-! ## the headers from their bytes -/

theorem vec_eq (f : Fin 20 → UInt8) :
    ![f 0, f 1, f 2, f 3, f 4, f 5, f 6, f 7, f 8, f 9, f 10, f 11, f 12, f 13, f 14, f 15, f 16, f 17,
      f 18, f 19] = f := by
  funext i
  fin_cases i <;> rfl

theorem exists_ipv4Header {size ipOffset : ℕ} {b : Fin 20 → UInt8} (hok : Ipv4Ok size ipOffset b)
    (options : Bytes) (ho : 20 + options.length = (b 0 &&& 0x0F).toNat * 4) :
    ∃ h : Ipv4Header, h.options = options ∧ h.fixed (word (b 2) (b 3)) = b := by
  obtain ⟨version, ihl, h0⟩ := exists_nibbles (b 0)
  obtain ⟨control, h6, h7⟩ := (unfragmented_iff _ _).mp hok.unfragmented
  have hversion : version = 4 := by
    have h := hok.version
    rw [h0, nibbles_high] at h
    exact nibble_eq_four version h
  have hge := hok.header_ge
  rw [h0, nibbles_low] at ho hge
  refine ⟨⟨ihl, b 1, word (b 4) (b 5), control, b 8, word (b 10) (b 11), ⟨b 12, b 13, b 14, b 15⟩,
    ⟨b 16, b 17, b 18, b 19⟩, options, by omega, ho⟩, rfl, ?_⟩
  have hprotocol := hok.protocol
  unfold Ipv4Header.fixed
  simp only [highByte_word, lowByte_word]
  rw [← hversion, ← h0, ← h6, ← h7, ← hprotocol]
  exact vec_eq b

theorem exists_tcpHeader (c : Fin 20 → UInt8) (options : Bytes) (hge : 20 ≤ (c 12 >>> 4).toNat * 4)
    (ho : 20 + options.length = (c 12 >>> 4).toNat * 4) :
    ∃ h : TcpHeader, h.options = options ∧ h.fixed = c := by
  obtain ⟨offset, reserved, h12⟩ := exists_nibbles (c 12)
  have hoffset : (c 12 >>> 4).toNat = offset := by
    rw [h12, nibbles_high, UInt8.toNat_ofNat']
    exact Nat.mod_eq_of_lt (by omega)
  rw [hoffset] at hge ho
  refine ⟨⟨word (c 0) (c 1), word (c 2) (c 3), ⟨c 4, c 5, c 6, c 7⟩, ⟨c 8, c 9, c 10, c 11⟩, offset,
    reserved, c 13, word (c 14) (c 15), word (c 16) (c 17), word (c 18) (c 19), options,
    by omega, ho⟩, rfl, ?_⟩
  unfold TcpHeader.fixed
  simp only [highByte_word, lowByte_word]
  rw [← h12]
  exact vec_eq c

/-! ## whole frames -/

namespace Packet
variable (P : Packet)

theorem total_toNat : (UInt16.ofNat P.totalLength).toNat = P.totalLength := by
  rw [UInt16.toNat_ofNat']
  exact Nat.mod_eq_of_lt P.fits

theorem ethernet_length : P.ethernet.length = if P.tag.isSome then 18 else 14 := by
  unfold ethernet typeBytes
  rw [List.length_append, List.length_ofFn]
  cases P.tag with
  | none => rfl
  | some tag =>
    dsimp only
    rw [List.length_append, List.length_ofFn]
    split <;> rfl

theorem bytes_length : P.bytes.length = P.ethernet.length + P.totalLength := by
  have hip := P.ip.options_length
  have htcp := P.tcp.options_length
  unfold bytes totalLength
  simp only [List.length_append, List.length_ofFn]
  omega

/-- the word at the place of the total length -/
theorem fixed_total (h : Ipv4Header) (total : UInt16) :
    word (h.fixed total 2) (h.fixed total 3) = total := word_bytes total

theorem fixed_ihl (h : Ipv4Header) (total : UInt16) :
    (h.fixed total 0 &&& 0x0F).toNat = h.ihl := nibbles_low 4 h.ihl

theorem fixed_offset (h : TcpHeader) : (h.fixed 12 >>> 4).toNat = h.offset := by
  show (nibbles h.offset h.reserved >>> 4).toNat = _
  rw [nibbles_high, UInt8.toNat_ofNat']
  exact Nat.mod_eq_of_lt (by omega)

theorem fill_fixed (total : UInt16) :
    PacketSummary.fill { vlanTagged := P.tag.isSome } (P.ip.fixed total) P.tcp.fixed = P.summary := by
  have hs : word (P.tcp.fixed 0) (P.tcp.fixed 1) = P.tcp.sourcePort := word_bytes _
  have hd : word (P.tcp.fixed 2) (P.tcp.fixed 3) = P.tcp.destinationPort := word_bytes _
  unfold PacketSummary.fill
  rw [hs, hd]
  rfl

theorem ipv4Ok (size : ℕ) (hsize : P.bytes.length ≤ size) :
    Ipv4Ok size P.ethernet.length (P.ip.fixed (UInt16.ofNat P.totalLength)) := by
  have hip := P.ip.five_le
  have htcp := P.tcp.five_le
  rw [P.bytes_length] at hsize
  refine ⟨?_, ?_, ?_, ?_, rfl, ?_⟩
  · exact nibbles_high 4 P.ip.ihl
  · rw [fixed_ihl]
    omega
  · rw [fixed_ihl, fixed_total, P.total_toNat, totalLength]
    omega
  · rw [fixed_total, P.total_toNat]
    exact hsize
  · exact (unfragmented_iff _ _).mpr ⟨P.ip.control, rfl, rfl⟩

/-- the IPv4 header in a frame -/
theorem bytes_append (trailing : Bytes) :
    P.bytes ++ trailing
      = P.ethernet ++ (List.ofFn (P.ip.fixed (UInt16.ofNat P.totalLength)) ++
          (P.ip.options ++ (List.ofFn P.tcp.fixed ++ (P.tcp.options ++ (P.payload ++ trailing))))) := by
  unfold bytes
  simp only [List.append_assoc]

/-- **a frame is decoded**, whatever follows it -/
theorem decode_bytes (trailing : Bytes) :
    decodeEthernetIpv4Tcp (P.bytes ++ trailing) = some P.summary := by
  have hip := P.ip.options_length
  have htcp := P.tcp.five_le
  have hp := P.bytes_append trailing
  have hp' : P.bytes ++ trailing
      = P.ethernet ++ List.ofFn (P.ip.fixed (UInt16.ofNat P.totalLength)) ++ P.ip.options ++
          (List.ofFn P.tcp.fixed ++ (P.tcp.options ++ (P.payload ++ trailing))) := by
    rw [hp]
    simp only [List.append_assoc]
  have hok := P.ipv4Ok (P.bytes ++ trailing).length
    (by rw [List.length_append]; exact Nat.le_add_right ..)
  unfold decodeEthernetIpv4Tcp
  rw [decode_ethernet P.addresses P.tag _ hp]
  rw [show List.ofFn P.addresses ++ typeBytes P.tag = P.ethernet from rfl, decodeIpv4_run hp hok,
    fixed_ihl, fixed_total, P.total_toNat, decodeTcp_run hp hp', fixed_offset, if_neg, fill_fixed]
  · unfold totalLength
    omega
  · rw [List.length_append, List.length_append, List.length_ofFn, Nat.add_assoc, hip]

end Packet

/-- what is accepted is a frame -/
theorem packet_of_valid {p : Bytes} {s : PacketSummary} (hrun : decodeEthernetIpv4Tcp p = some s)
    (hs : s.valid = true) : ∃ (P : Packet) (trailing : Bytes), p = P.bytes ++ trailing := by
  obtain ⟨a, tag, q, hp, hq⟩ := ethernet_of_valid hrun hs
  obtain ⟨b, r, rfl⟩ := exists_part 20 hq
  unfold decodeEthernetIpv4Tcp at hrun
  rw [decode_ethernet a tag _ hp] at hrun
  generalize hpre : List.ofFn a ++ typeBytes tag = pre at hp hrun
  have hlen : p.length = pre.length + (20 + r.length) := by
    rw [hp, List.length_append, List.length_append, List.length_ofFn]
  have hok := ipv4Ok_of_valid hp rfl hrun hs
  rw [decodeIpv4_run hp hok] at hrun
  have hge := hok.header_ge
  have htotal := hok.total_ge
  have hle := hok.total_le
  -- the options of the IPv4 header, and the TCP header after them
  obtain ⟨o, r, rfl, ho⟩ := exists_append ((b 0 &&& 0x0F).toNat * 4 - 20) (l := r) (by omega)
  rw [List.length_append] at hlen
  obtain ⟨c, r, rfl⟩ := exists_part 20 (l := r) (by omega)
  rw [List.length_append, List.length_ofFn] at hlen
  have hp' : p = pre ++ List.ofFn b ++ o ++ (List.ofFn c ++ r) := by
    rw [hp]
    simp only [List.append_assoc]
  have hpre' : (pre ++ List.ofFn b ++ o).length = pre.length + (b 0 &&& 0x0F).toNat * 4 := by
    rw [List.length_append, List.length_append, List.length_ofFn]
    omega
  rw [decodeTcp_run hp hp' hpre'] at hrun
  split at hrun
  · cases hrun
    cases hs
  rename_i hoffset
  obtain ⟨o', r, rfl, ho'⟩ := exists_append ((c 12 >>> 4).toNat * 4 - 20) (l := r) (by omega)
  rw [List.length_append] at hlen
  obtain ⟨payload, trailing, rfl, hpayload⟩ := exists_append
    ((word (b 2) (b 3)).toNat - (b 0 &&& 0x0F).toNat * 4 - (c 12 >>> 4).toNat * 4) (l := r) (by omega)
  obtain ⟨ip, rfl, hip⟩ := exists_ipv4Header hok o (by omega)
  obtain ⟨tcp, rfl, htcp⟩ := exists_tcpHeader c o' (by omega) (by omega)
  have hihl : (b 0 &&& 0x0F).toNat = ip.ihl := by
    rw [← hip]
    exact Packet.fixed_ihl ip _
  have hoff : (c 12 >>> 4).toNat = tcp.offset := by
    rw [← htcp]
    exact Packet.fixed_offset tcp
  have htotal_lt := (word (b 2) (b 3)).toNat_lt
  have hsum : ip.ihl * 4 + tcp.offset * 4 + payload.length = (word (b 2) (b 3)).toNat := by omega
  refine ⟨⟨a, tag, ip, tcp, payload, by omega⟩, trailing, ?_⟩
  unfold Packet.bytes Packet.ethernet Packet.totalLength
  dsimp only
  rw [hsum, UInt16.ofNat_toNat, hip, htcp, hpre, hp]
  simp only [List.append_assoc]

/-- the place of the end of a frame is known from its first bytes -/
theorem Packet.length_unique {P P' : Packet} {t t' : Bytes} (h : P.bytes ++ t = P'.bytes ++ t') :
    P.bytes.length = P'.bytes.length := by
  have hsummary : P.summary = P'.summary := by
    have hd := P.decode_bytes t
    rw [h, P'.decode_bytes t'] at hd
    exact (Option.some.inj hd).symm
  have htag : P.tag.isSome = P'.tag.isSome := congrArg PacketSummary.vlanTagged hsummary
  have hpre : P.ethernet.length = P'.ethernet.length := by
    rw [P.ethernet_length, P'.ethernet_length, htag]
  have hread (P : Packet) (t : Bytes) :
      (readU16 (P.ethernet.length + 2)).run (P.bytes ++ t) = some (UInt16.ofNat P.totalLength) := by
    refine (readU16_part (P.bytes_append t) (i := 2) (by omega)).trans (congrArg some ?_)
    exact fixed_total P.ip _
  have htotal : UInt16.ofNat P.totalLength = UInt16.ofNat P'.totalLength := by
    have hr := hread P t
    rw [h, hpre, hread P' t'] at hr
    exact (Option.some.inj hr).symm
  rw [P.bytes_length, P'.bytes_length, hpre, ← P.total_toNat, ← P'.total_toNat, htotal]

/-- **The decoder is exact.**  It accepts a byte string exactly if this is a frame with anything after it,
and returns the fields of the frame.  A frame that is cut before the end given by its total length is
not accepted. -/
theorem decoder_exact :
    (∀ p : Bytes, ∃ s, decodeEthernetIpv4Tcp p = some s ∧
      (s.valid = true ↔ ∃ (P : Packet) (trailing : Bytes), p = P.bytes ++ trailing)) ∧
    (∀ (P : Packet) (trailing : Bytes),
      decodeEthernetIpv4Tcp (P.bytes ++ trailing) = some P.summary) ∧
    ∀ (P : Packet) (trailing : Bytes) (n : ℕ),
      n < (if P.tag.isSome then 18 else 14) + P.totalLength →
      ∃ s, decodeEthernetIpv4Tcp ((P.bytes ++ trailing).take n) = some s ∧ s.valid = false := by
  refine ⟨?_, Packet.decode_bytes, ?_⟩
  · intro p
    obtain ⟨s, hs⟩ := (decode_inBounds p).exists_run
    refine ⟨s, hs, packet_of_valid hs, ?_⟩
    rintro ⟨P, trailing, rfl⟩
    have hd := P.decode_bytes trailing
    rw [show decodeEthernetIpv4Tcp _ = _ from hs] at hd
    cases hd
    rfl
  · intro P trailing n hn
    rw [← P.ethernet_length, ← P.bytes_length] at hn
    obtain ⟨s, hs⟩ := (decode_inBounds ((P.bytes ++ trailing).take n)).exists_run
    refine ⟨s, hs, ?_⟩
    by_contra hvalid
    obtain ⟨P', t', hcut⟩ := packet_of_valid hs (Bool.eq_true_of_not_eq_false hvalid)
    have hwhole : P.bytes ++ trailing = P'.bytes ++ (t' ++ (P.bytes ++ trailing).drop n) := by
      rw [← List.append_assoc, ← hcut, List.take_append_drop]
    have hlen := Packet.length_unique hwhole
    have hle : P'.bytes.length ≤ n := by
      have hl := congrArg List.length hcut
      rw [List.length_take, List.length_append, List.length_append] at hl
      omega
    omega

/-- the packet of the course's test, with two bytes of padding -/
example : decodeEthernetIpv4Tcp (List.replicate 12 0 ++ [0x08, 0x00,
      0x45, 0x00, 0x00, 0x28, 0x00, 0x00, 0x00, 0x00, 0x40, 0x06, 0x00, 0x00,
      0xc0, 0x00, 0x02, 0x01, 0xc6, 0x33, 0x64, 0x02,
      0x30, 0x39, 0x01, 0xbb, 0x00, 0x00, 0x00, 0x00, 0x00, 0x00, 0x00, 0x00,
      0x50, 0x12, 0x40, 0x00, 0x00, 0x00, 0x00, 0x00, 0xff, 0xff])
    = some { valid := true, sourceIp := ascii "192.0.2.1", destinationIp := ascii "198.51.100.2",
             sourcePort := 12345, destinationPort := 443, tcpFlags := 0x12 } := by
  decide +kernel

end NetForge
