import GWKernel.Dns
import GWKernel.Lib.Run
import GWKernel.Tcp
import GWKernel.Vfs

/-! The HTTP client (kernel/net/http.c). The results of the calls into dns.c and tcp.c are given.
-/

namespace GWKernel.Http
open Lib
open Dns (isDigit)
open Vfs (text)

/-- `sizeof(host)` and `sizeof(path)`. -/
def partMax : Nat := 128

/-- The loop over the digits of a port, with `pr` so far. An `int` that overflows wraps. -/
def scanPort : Nat → List UInt8 → Nat × List UInt8
  | pr, [] => (pr, [])
  | pr, char :: rest =>
    if isDigit char then scanPort ((pr * 10 + (char.toNat - 48)) % 2 ^ 32) rest else (pr, char :: rest)

/-- The port, if there is one, and the path behind it. -/
def portAt : List UInt8 → Nat × List UInt8
  | 0x3A :: rest => ((scanPort 0 rest).1 % 2 ^ 16, (scanPort 0 rest).2)
  | p => (80, p)

/-- `parse_url`: host, port and path, or nothing for -1. -/
def parseUrl (url : List UInt8) : Option (List UInt8 × Nat × List UInt8) :=
  if (text "http://").isPrefixOf url = false then none
  else
    let p := url.drop 7
    let host := (p.takeWhile fun char => char ≠ 0x2F ∧ char ≠ 0x3A).take (partMax - 1)
    let p := p.drop host.length
    if host = [] then none
    else
      let (port, p) := portAt p
      some (host, port, if p = [] then text "/" else p.take (partMax - 1))

/-- What the calls of `http_get_once` return; `received` are the results of `tcp_recv`. -/
structure Network where
  dnsResolve : List UInt8 → Option (List UInt8)
  tcpConnect : List UInt8 → Nat → Bool
  tcpSend : List UInt8 → Bool
  received : List Tcp.Received

/-- The receive loop: the bytes in the buffer when it is left. -/
def receive (maxlen : Nat) : List Tcp.Received → Nat → List UInt8 → List UInt8
  | [], _, out => out
  | result :: results, idle, out =>
    if out.length < maxlen ∧ idle < 10 then
      match result with
      | .timeout => receive maxlen results (idle + 1) out
      | .endOfStream => out
      | .data bytes => if bytes = [] then out else receive maxlen results 0 (out ++ bytes)
    else out

def crlf : List UInt8 := [0x0D, 0x0A]

def behind (mark : List UInt8) : Nat → List UInt8 → Nat
  | _, [] => 0
  | i, char :: rest => if mark.isPrefixOf (char :: rest) then i + mark.length else behind mark (i + 1) rest

/-- `for (i = 0; i < blen; i++) out[i] = out[body + i]`. -/
def moveDown (body blen : Nat) (out : List UInt8) : List UInt8 :=
  forRange 0 blen (fun i out => out.set i (out.getD (body + i) 0)) out

/-- The end of `http_get_once`: the bytes that it leaves for its caller. -/
def takeBody (out : List UInt8) : Option (List UInt8) :=
  let body := behind (crlf ++ crlf) 0 out
  let body := if body = 0 then behind [0x0A, 0x0A] 0 out else body
  if body = 0 ∨ out.length ≤ body then if 0 < out.length then some out else none
  else
    let blen := out.length - body
    some ((moveDown body blen out).take blen)

def request (host path : List UInt8) : List UInt8 :=
  text "GET " ++ path ++ text " HTTP/1.0" ++ crlf ++ text "Host: " ++ host ++ crlf ++ text "Connection: close" ++
    crlf ++ crlf

/-- `http_get_once`: the first `*out_len` bytes of the buffer, or nothing for -1. -/
def httpGetOnce (net : Network) (url : List UInt8) (maxlen : Nat) : Option (List UInt8) := do
  let (host, port, path) ← parseUrl url
  let ip ← net.dnsResolve host
  if net.tcpConnect ip port ∧ net.tcpSend (request host path) then takeBody (receive maxlen net.received 0 []) else none

end GWKernel.Http
