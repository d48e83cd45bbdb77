import GWKernel.Udp

/-! The DNS client (kernel/net/dns.c). `none` stands for an access outside a buffer; the inner
option is the result, empty for -1. -/

namespace GWKernel.Dns
open Lib

def isDigit (char : UInt8) : Bool := 48 ≤ char.toNat ∧ char.toNat ≤ 57

def parsePart : Nat → List UInt8 → Option (Nat × List UInt8)
  | value, [] => some (value, [])
  | value, char :: rest =>
    if isDigit char then
      let value := value * 10 + (char.toNat - 48)
      if 255 < value then none else parsePart value rest
    else some (value, char :: rest)

/-- The loop of `parse_ip`, with the number of parts still to come. -/
def parseParts : Nat → List Nat → List UInt8 → Option (List Nat × List UInt8)
  | 0, parts, name => some (parts, name)
  | _ + 1, parts, [] => some (parts, [])
  | left + 1, parts, char :: rest =>
    if isDigit char then
      match parsePart 0 (char :: rest) with
      | none => none
      | some (value, 46 :: more) => parseParts left (parts ++ [value]) more
      | some (value, more) => some (parts ++ [value], more)
    else none

def parseIp (name : List UInt8) : Option (List UInt8) :=
  if name = [] then none
  else match parseParts 4 [] name with
    | none => none
    | some (parts, rest) => if parts.length ≠ 4 ∨ rest ≠ [] then none else some (parts.map UInt8.ofNat)

/-- `sizeof(q)` and `sizeof(resp)`. -/
def messageSize : Nat := 512

/-- The loop that writes QNAME behind the bytes `query`. -/
def queryName : Nat → List UInt8 → List UInt8 → Option (Option (List UInt8))
  | 0, _, _ => none
  | fuel + 1, query, name =>
    if name = [] then some (some query)
    else
      let label := name.takeWhile (· ≠ 46)
      if label.length = 0 ∨ 63 < label.length then some none
      else do
        let query := query ++ UInt8.ofNat label.length :: label
        guard (query.length ≤ messageSize)
        -- the dot, if there is one, is skipped
        queryName fuel query (name.drop (label.length + 1))

/-- The query of `dns_resolve` for `name` under the transaction number `txid`. -/
def query (txid : Nat) (name : List UInt8) : Option (Option (List UInt8)) := do
  let written ← queryName (name.length + 1) (toBe16 txid ++ [1, 0, 0, 1, 0, 0, 0, 0, 0, 0]) name
  match written with
  | none => pure none
  | some written => do
    let query := written ++ [0, 0, 1, 0, 1]
    guard (query.length ≤ messageSize)
    pure (some query)

/-- The loop that passes over the labels of a name. -/
def skipLabels (resp : List UInt8) : Nat → Nat → Option Nat
  | 0, _ => none
  | fuel + 1, i =>
    if i < resp.length then do
      let label ← readByte resp i
      if label = 0 then pure i
      else if label &&& 0xC0 = 0xC0 then pure (i + 2)
      else skipLabels resp fuel (i + label + 1)
    else pure i

/-- The labels of a name and the zero byte after them. -/
def skipName (resp : List UInt8) (i : Nat) : Option Nat := do
  let i ← skipLabels resp (resp.length + 1) i
  if i < resp.length then do
    let label ← readByte resp i
    pure (if label = 0 then i + 1 else i)
  else pure i

def skipOwner (resp : List UInt8) (i : Nat) : Option Nat := do
  let first ← readByte resp i
  if first &&& 0xC0 = 0xC0 then pure (i + 2) else skipName resp i

/-- The loop over the records; the first A record is the answer. -/
def findAddress (resp : List UInt8) : Nat → Nat → Option (Option (List UInt8))
  | 0, _ => pure none
  | left + 1, i =>
    if i + 12 ≤ resp.length then do
      let i ← skipOwner resp i
      if resp.length < i + 10 then pure none
      else do
        let atype ← readBe16 resp i
        let rdlen ← readBe16 resp (i + 8)
        if atype = 1 ∧ rdlen = 4 ∧ i + 10 + 4 ≤ resp.length then do
          let address ← readSlice resp (i + 10) 4
          pure (some address)
        else findAddress resp left (i + 10 + rdlen)
    else pure none

/-- The part of `dns_resolve` that parses the datagram. -/
def parseAnswer (resp : List UInt8) : Option (Option (List UInt8)) :=
  if resp.length < 12 then pure none
  else do
    let ancount ← readBe16 resp 6
    if ancount = 0 then pure none
    else do
      let i ← skipName resp 12
      findAddress resp ancount (i + 4)

/-- The state that `dns_resolve` works on, with its static `txid`. -/
structure State where
  udp : Udp.State
  txid : Nat
deriving DecidableEq, Repr

/-- The datagrams that come while the query is sent, whether it is, and those of each poll after
it. -/
structure Network where
  wait : List Udp.Datagram
  sent : Bool
  polls : List (List Udp.Datagram)
deriving DecidableEq, Repr

def State.queryId (dns : State) : Nat := (dns.txid + 1) % 2 ^ 16

/-- `local`, the port that the query is sent from. -/
def State.localPort (dns : State) : Nat := 53000 + (dns.queryId &&& 0xFF)

/-- The part of `dns_resolve` after the query is sent. -/
def receiveAnswer (localPort : Nat) (polls : List (List Udp.Datagram)) (udp : Udp.State) :
    Option (Option (List UInt8) × Udp.State) := do
  let (message, udp) ← Udp.udpRecv localPort messageSize (polls.take 40) udp
  match message with
  | none => pure (none, udp)
  | some message => do
    let address ← parseAnswer message.data
    pure (address, udp)

def dnsResolve (name : List UInt8) (network : Network) (dns : State) : Option (Option (List UInt8) × State) :=
  match parseIp name with
  | some address => some (some address, dns)
  | none => do
    let started := { dns with txid := dns.queryId }
    match ← query dns.queryId name with
    | none => pure (none, started)
    | some query => do
      let (ok, udp) ← Udp.udpSend query network.wait network.sent dns.udp
      if ok then do
        let (address, udp) ← receiveAnswer dns.localPort network.polls udp
        pure (address, { started with udp })
      else pure (none, { started with udp })

end GWKernel.Dns
