import GWKernel.Net
import GWKernel.Lib.OnesComplement

/-! The checksums that the stack writes: each packet is summed with its checksum field zero and
patched with the complement. The sums stay below 2^32. -/

namespace GWKernel.Net
open Lib List

theorem foldCarry_folds (sum : Nat) : Folds sum (Tcp.foldCarry sum) := by
  fun_induction Tcp.foldCarry sum with
  | case1 sum small => exact .self (by omega)
  | case2 sum large ih =>
    obtain ⟨bounded, same, zero⟩ := ih
    constructor <;> omega

theorem sumWords_eq (bytes : List UInt8) : Tcp.sumWords bytes = (words16 bytes).sum := by
  fun_induction Tcp.sumWords bytes with
  | case1 => rfl
  | case2 last => simp [words16]
  | case3 high low rest ih => rw [words16, sum_cons, ih]

/-- Every addition of the loop stays inside 32 bits. -/
def NoOverflow : Nat → List UInt8 → Prop
  | _, [] => True
  | sum, [last] => sum + last.toNat * 256 < 2 ^ 32
  | sum, high :: low :: rest =>
    sum + (high.toNat * 256 + low.toNat) < 2 ^ 32 ∧ NoOverflow (sum + (high.toNat * 256 + low.toNat)) rest

variable {sum : Nat} {bytes src dst payload : List UInt8}

theorem noOverflow_of_sum (small : sum + (words16 bytes).sum < 2 ^ 32) : NoOverflow sum bytes := by
  fun_induction NoOverflow sum bytes with
  | case1 => trivial
  | case2 sum last => simpa [words16] using small
  | case3 sum high low rest ih =>
    rw [words16, sum_cons, ← Nat.add_assoc] at small
    exact ⟨Nat.lt_of_le_of_lt (Nat.le_add_right _ _) small, ih small⟩

theorem addWords_eq (fits : NoOverflow sum bytes) : addWords sum bytes = sum + (words16 bytes).sum := by
  fun_induction addWords sum bytes with
  | case1 => rfl
  | case2 sum last =>
    rw [u32_of_lt fits]
    simp [words16]
  | case3 sum high low rest ih =>
    rw [u32_of_lt fits.1] at ih
    rw [u32_of_lt fits.1, ih fits.2, words16, sum_cons]
    omega

theorem noOverflow_of_length (start : sum < 2 ^ 31) (short : bytes.length ≤ ippktSize) : NoOverflow sum bytes := by
  have bound := sum_words16_le bytes
  have half : (bytes.length + 1) / 2 ≤ 750 := by
    simp only [ippktSize] at short
    omega
  have small : 65535 * ((bytes.length + 1) / 2) ≤ 65535 * 750 := Nat.mul_le_mul_left _ half
  exact noOverflow_of_sum (by omega)

theorem ipChecksum_eq (short : bytes.length ≤ ippktSize) :
    ipChecksum bytes = 65535 - Tcp.foldCarry (words16 bytes).sum := by
  rw [ipChecksum, addWords_eq (noOverflow_of_length (by omega) short), Nat.zero_add]

/-- The loop of `tcp_checksum` over the segment, by index and on a 32-bit accumulator. -/
def addIndexed (bytes : List UInt8) (sum : Nat) : Nat :=
  let sum := (List.range (bytes.length / 2)).foldl (fun sum i => u32 (sum + be16 bytes (2 * i))) sum
  if bytes.length % 2 = 1 then u32 (sum + byteAt bytes (bytes.length - 1) * 256) else sum

theorem addIndexed_eq (bytes : List UInt8) (sum : Nat) : addIndexed bytes sum = addWords sum bytes := by
  fun_induction addWords sum bytes with
  | case1 => rfl
  | case2 sum last => simp [addIndexed, byteAt]
  | case3 sum high low rest ih =>
    have count : (high :: low :: rest).length / 2 = rest.length / 2 + 1 := by
      simp only [length_cons]
      omega
    have parity : (high :: low :: rest).length % 2 = rest.length % 2 := by
      simp only [length_cons]
      omega
    have shifted (i : Nat) : be16 (high :: low :: rest) (2 * (i + 1)) = be16 rest (2 * i) := rfl
    have last (odd : rest.length % 2 = 1) :
        byteAt (high :: low :: rest) ((high :: low :: rest).length - 1) = byteAt rest (rest.length - 1) := by
      have index : (high :: low :: rest).length - 1 = rest.length - 1 + 1 + 1 := by
        simp only [length_cons]
        omega
      rw [index]
      rfl
    have first : be16 (high :: low :: rest) (2 * 0) = high.toNat * 256 + low.toNat := rfl
    rw [← ih, addIndexed, addIndexed, count, parity, range_succ_eq_map, foldl_cons, foldl_map, first]
    simp only [shifted]
    split
    next odd => rw [last odd]
    next => rfl

def tcpChecksum32 (src dst tcp : List UInt8) : Nat :=
  let sum := addWords (addWords 0 src) dst
  let sum := u32 (u32 (sum + 6) + tcp.length)
  65535 - Tcp.foldCarry (addIndexed tcp sum)

/-- The accumulator of `tcp_checksum` overflows neither in the pseudo-header nor in the segment. -/
def TcpNoOverflow (src dst tcp : List UInt8) : Prop :=
  NoOverflow 0 src ∧ NoOverflow (words16 src).sum dst ∧
    (words16 src).sum + (words16 dst).sum + 6 + tcp.length < 2 ^ 32 ∧
    NoOverflow ((words16 src).sum + (words16 dst).sum + 6 + tcp.length) tcp

theorem sum_address_le (four : bytes.length = 4) : (words16 bytes).sum ≤ 131070 := by
  have := sum_words16_le bytes
  rw [four] at this
  omega

theorem tcp_noOverflow {tcp : List UInt8} (src4 : src.length = 4) (dst4 : dst.length = 4)
    (short : tcp.length ≤ ippktSize) : TcpNoOverflow src dst tcp := by
  have source := sum_address_le src4
  have target := sum_address_le dst4
  have length : tcp.length ≤ 1500 := short
  have small : 4 ≤ ippktSize := by decide
  refine ⟨noOverflow_of_length (by omega) (src4 ▸ small), noOverflow_of_length (by omega) (dst4 ▸ small), by omega,
    noOverflow_of_length (by omega) short⟩

theorem tcpChecksum32_eq {tcp : List UInt8} (fits : TcpNoOverflow src dst tcp) :
    tcpChecksum32 src dst tcp = Tcp.tcpChecksum src dst tcp := by
  obtain ⟨source, target, header, segment⟩ := fits
  rw [tcpChecksum32, Tcp.tcpChecksum, addWords_eq source, Nat.zero_add, addWords_eq target,
    u32_of_lt (show (words16 src).sum + (words16 dst).sum + 6 < 2 ^ 32 by omega), u32_of_lt header,
    addIndexed_eq, addWords_eq segment, sumWords_eq, sumWords_eq, sumWords_eq]

theorem headerWith_sum {checksum : Nat} (small : checksum < 65536) (total id proto : Nat) (dst : List UInt8) :
    (words16 (headerWith checksum total id proto dst)).sum =
      (words16 (headerWith 0 total id proto dst)).sum + checksum := by
  have pieces (field : Nat) : (words16 (headerWith field total id proto dst)).sum =
      (words16 ([0x45, 0] ++ toBe16 total ++ toBe16 id ++ [0, 0, 64, UInt8.ofNat proto])).sum +
        (words16 (toBe16 field)).sum + (words16 (Tcp.netIpAddr ++ dst)).sum := by
    rw [headerWith, append_assoc, words16_append (by simp [toBe16]), words16_append (by simp [toBe16]),
      sum_append, sum_append]
  rw [pieces, pieces, sum_words16_toBe16 small, sum_words16_toBe16 (by omega)]
  omega

theorem ipHeader_verifies (total id proto : Nat) (dst4 : dst.length = 4) :
    onesSum (words16 (ipHeader total id proto dst)) = 65535 := by
  have short : (headerWith 0 total id proto dst).length ≤ ippktSize := by
    simp [headerWith, toBe16, Tcp.netIpAddr, dst4, ippktSize]
  apply onesSum_patched (foldCarry_folds (words16 (headerWith 0 total id proto dst)).sum)
  rw [ipHeader, ipChecksum_eq short, headerWith_sum (by omega)]

theorem echoWith_sum {checksum : Nat} (small : checksum < 65536) (long : 4 ≤ payload.length) :
    (words16 (echoWith checksum payload)).sum = (words16 (echoWith 0 payload)).sum + checksum := by
  obtain ⟨kind, code, high, low, rest, rfl⟩ :
      ∃ kind code high low rest, payload = kind :: code :: high :: low :: rest := by
    match payload, long with
    | kind :: code :: high :: low :: rest, _ => exact ⟨kind, code, high, low, rest, rfl⟩
  have pieces (field : Nat) : (words16 (echoWith field (kind :: code :: high :: low :: rest))).sum =
      (words16 [0, code]).sum + (words16 (toBe16 field)).sum + (words16 rest).sum := by
    have shape : echoWith field (kind :: code :: high :: low :: rest) = [0, code] ++ toBe16 field ++ rest := rfl
    rw [shape, words16_append (by simp [toBe16]), words16_append (by simp), sum_append, sum_append]
  rw [pieces, pieces, sum_words16_toBe16 small, sum_words16_toBe16 (by omega)]
  omega

theorem echoWith_length (checksum : Nat) (payload : List UInt8) :
    (echoWith checksum payload).length = payload.length := by
  simp [echoWith]

theorem echoMessage_verifies (long : 4 ≤ payload.length) (short : payload.length ≤ ippktSize) :
    onesSum (words16 (echoMessage payload)) = 65535 := by
  apply onesSum_patched (foldCarry_folds (words16 (echoWith 0 payload)).sum)
  rw [echoMessage, ipChecksum_eq (by rwa [echoWith_length]), echoWith_sum (by omega) long]

theorem pingMessage_verifies : onesSum (words16 pingMessage) = 65535 := by
  have pieces (field : Nat) :
      (words16 (pingWith field)).sum = (words16 [8, 0]).sum + (words16 (toBe16 field)).sum + 4661 := by
    rw [pingWith, words16_append (by simp [toBe16]), words16_append (by simp), sum_append, sum_append]
    rfl
  apply onesSum_patched (foldCarry_folds (words16 (pingWith 0)).sum)
  rw [pingMessage, ipChecksum_eq (by simp [pingWith, toBe16, ippktSize]), pieces, pieces,
    sum_words16_toBe16 (by omega), sum_words16_toBe16 (by omega)]
  omega

def pseudoHeader (src dst : List UInt8) (length : Nat) : List UInt8 := src ++ dst ++ [0, 6] ++ toBe16 length

theorem pseudoHeader_sum (src4 : src.length = 4) (dst4 : dst.length = 4) (short : bytes.length < 65536) :
    (words16 (pseudoHeader src dst bytes.length ++ bytes)).sum =
      (words16 src).sum + (words16 dst).sum + 6 + bytes.length + (words16 bytes).sum := by
  have protocol : (words16 [0, 6]).sum = 6 := rfl
  rw [pseudoHeader, words16_append (by simp [toBe16, src4, dst4]), words16_append (by simp [src4, dst4]),
    words16_append (by simp [src4, dst4]), words16_append (by simp [src4])]
  simp only [sum_append, sum_words16_toBe16 short, protocol]

def segmentHead (tcp : Tcp.State) (flags ack : Nat) : List UInt8 :=
  toBe16 tcp.localPort ++ toBe16 tcp.remotePort ++ toBe32 tcp.sndNxt ++ toBe32 ack ++
    [0x50, UInt8.ofNat flags, 0x40, 0x00]

theorem segmentHead_length (tcp : Tcp.State) (flags ack : Nat) : (segmentHead tcp flags ack).length = 16 := rfl

theorem buildSegment_eq (tcp : Tcp.State) (flags : Nat) (data : List UInt8) (ack : Nat) :
    Tcp.buildSegment tcp flags data ack = segmentHead tcp flags ack ++
      toBe16 (Tcp.tcpChecksum Tcp.netIpAddr tcp.remoteIp (segmentHead tcp flags ack ++ [0, 0, 0, 0] ++ data)) ++
      [0, 0] ++ data := rfl

theorem buildSegment_length (tcp : Tcp.State) (flags : Nat) (data : List UInt8) (ack : Nat) :
    (Tcp.buildSegment tcp flags data ack).length = 20 + data.length := by
  rw [buildSegment_eq]
  simp only [length_append, segmentHead_length, toBe16, length_cons, length_nil]

theorem buildSegment_verifies (tcp : Tcp.State) (flags : Nat) {data : List UInt8} (ack : Nat)
    (ip4 : tcp.remoteIp.length = 4) (short : 20 + data.length ≤ 1400) :
    onesSum (words16 (pseudoHeader Tcp.netIpAddr tcp.remoteIp (Tcp.buildSegment tcp flags data ack).length ++
      Tcp.buildSegment tcp flags data ack)) = 65535 := by
  generalize blank : segmentHead tcp flags ack ++ [0, 0, 0, 0] ++ data = unsigned
  have size : unsigned.length = 20 + data.length := by
    rw [← blank]
    simp [segmentHead_length]
    omega
  have sums : (words16 (Tcp.buildSegment tcp flags data ack)).sum =
      (words16 unsigned).sum + Tcp.tcpChecksum Tcp.netIpAddr tcp.remoteIp unsigned := by
    have small : Tcp.tcpChecksum Tcp.netIpAddr tcp.remoteIp unsigned < 65536 := by
      rw [Tcp.tcpChecksum]
      omega
    have zeros : (words16 [0, 0, 0, 0]).sum = 0 := rfl
    have zero : (words16 [0, 0]).sum = 0 := rfl
    have even : (segmentHead tcp flags ack).length % 2 = 0 := by rw [segmentHead_length]
    rw [buildSegment_eq, blank, ← blank, words16_append (by simp [toBe16, segmentHead_length]),
      words16_append (by simp [toBe16, segmentHead_length]), words16_append even,
      words16_append (by simp [segmentHead_length]), words16_append even, blank]
    simp only [sum_append, zeros, zero, sum_words16_toBe16 small]
    omega
  have total := buildSegment_length tcp flags data ack
  apply onesSum_patched (foldCarry_folds (Tcp.sumWords Tcp.netIpAddr + Tcp.sumWords tcp.remoteIp + 6 + unsigned.length +
    Tcp.sumWords unsigned))
  rw [pseudoHeader_sum rfl ip4 (by omega), sums, Tcp.tcpChecksum, sumWords_eq, sumWords_eq, sumWords_eq, total, size]
  omega

theorem ipHeader_length (total id proto : Nat) (dst4 : dst.length = 4) :
    (ipHeader total id proto dst).length = 20 := by
  simp [ipHeader, headerWith, toBe16, Tcp.netIpAddr, dst4]

/-- What a receiver finds in a frame that carries an IPv4 packet of this host. -/
structure Datagram (frame : List UInt8) (proto : Nat) (ip payload : List UInt8) : Prop where
  kind : be16 frame 12 = 0x0800
  version : byteAt frame 14 = 0x45
  total : be16 frame 16 = 20 + payload.length
  proto : byteAt frame 23 = proto
  src : (frame.drop 26).take 4 = Tcp.netIpAddr
  dst : (frame.drop 30).take 4 = ip
  header : onesSum (words16 ((frame.drop 14).take 20)) = 65535
  body : (frame.drop 34).take payload.length = payload
  long : 34 + payload.length ≤ frame.length

theorem ethFrame_eq (dst mac : List UInt8) (ethertype : Nat) (payload : List UInt8) :
    ∃ padding, ethFrame dst mac ethertype payload = dst ++ mac ++ (toBe16 ethertype ++ payload ++ padding) := by
  refine ⟨List.replicate (60 - (dst ++ mac ++ toBe16 ethertype ++ payload).length) 0, ?_⟩
  simp only [ethFrame, append_assoc]

theorem ethFrame_datagram {mac ip : List UInt8} {proto : Nat} (id : Nat) (dst6 : dst.length = 6)
    (mac6 : mac.length = 6) (ip4 : ip.length = 4) (small : proto < 256) (short : 20 + payload.length ≤ ippktSize) :
    Datagram (ethFrame dst mac 0x0800 (ipHeader (20 + payload.length) id proto ip ++ payload)) proto ip payload := by
  have addresses : (dst ++ mac).length = 12 := by rw [length_append, dst6, mac6]
  have size := ipHeader_length (20 + payload.length) id proto ip4
  have verifies := ipHeader_verifies (20 + payload.length) id proto ip4
  have bound : 20 + payload.length ≤ 1500 := short
  obtain ⟨padding, shape⟩ := ethFrame_eq dst mac 0x0800 (ipHeader (20 + payload.length) id proto ip ++ payload)
  rw [shape]
  generalize built : 20 + payload.length = total at *
  generalize held : toBe16 0x0800 ++ (ipHeader total id proto ip ++ payload) ++ padding = rest
  have tail (index : Nat) : (dst ++ mac ++ rest).drop (12 + index) = rest.drop index := drop_append addresses rest index
  have packet : rest.drop 2 = ipHeader total id proto ip ++ payload ++ padding := by rw [← held]; rfl
  have source : rest.drop 14 = Tcp.netIpAddr ++ (ip ++ payload ++ padding) := by rw [← held]; rfl
  have target : rest.drop 18 = ip ++ payload ++ padding := by rw [← held]; rfl
  have content : rest.drop 22 = payload ++ padding := by
    have split : rest.drop 22 = (rest.drop 18).drop 4 := by rw [drop_drop]
    rw [split, target, append_assoc, drop_left' ip4]
  constructor
  case kind =>
    refine (be16_append addresses rest 0).trans ?_
    rw [← held, append_assoc]
    exact be16_toBe16 (by omega) _
  case version =>
    refine (byteAt_append addresses rest 2).trans ?_
    rw [← held]
    rfl
  case total =>
    have field : be16 rest 4 = be16 (toBe16 total ++ []) 0 := by rw [← held]; rfl
    rw [built]
    exact (be16_append addresses rest 4).trans (field.trans (be16_toBe16 (by omega) _))
  case proto =>
    have field : byteAt rest 11 = (UInt8.ofNat proto).toNat := by rw [← held]; rfl
    refine (byteAt_append addresses rest 11).trans (field.trans ?_)
    rw [UInt8.toNat_ofNat']
    omega
  case src =>
    rw [tail 14, source]
    rfl
  case dst => rw [tail 18, target, append_assoc, take_left' ip4]
  case header => rw [tail 2, packet, append_assoc, take_left' size, verifies]
  case body => rw [tail 22, content, take_left' rfl]
  case long =>
    rw [length_append, addresses, ← held]
    simp only [length_append, size, toBe16, length_cons, length_nil]
    omega

def Verified (frame : List UInt8) : Prop :=
  be16 frame 12 = 0x0800 →
    onesSum (words16 ((frame.drop 14).take 20)) = 0xFFFF ∧
    let payload := (frame.drop 34).take (be16 frame 16 - 20)
    (byteAt frame 23 = 1 → onesSum (words16 payload) = 0xFFFF) ∧
    (byteAt frame 23 = 6 →
      onesSum (words16 (pseudoHeader ((frame.drop 26).take 4) ((frame.drop 30).take 4) payload.length ++ payload)) =
        0xFFFF)

structure Checked (proto : Nat) (ip payload : List UInt8) : Prop where
  icmp : proto = 1 → onesSum (words16 payload) = 65535
  tcp : proto = 6 → onesSum (words16 (pseudoHeader Tcp.netIpAddr ip payload.length ++ payload)) = 65535

theorem Datagram.verified {frame ip : List UInt8} {proto : Nat} (datagram : Datagram frame proto ip payload)
    (checked : Checked proto ip payload) : Verified frame := by
  intro _
  have content : (frame.drop 34).take (be16 frame 16 - 20) = payload := by
    rw [datagram.total, Nat.add_sub_cancel_left, datagram.body]
  refine ⟨datagram.header, ?_⟩
  rw [content, datagram.proto, datagram.src, datagram.dst]
  exact ⟨checked.icmp, checked.tcp⟩

end GWKernel.Net
