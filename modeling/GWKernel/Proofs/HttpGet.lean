import GWKernel.Http
import GWKernel.Proofs.DottedQuad

/-! Which URLs `parse_url` reads as they are written, and which responses `http_get_once`
hands over as they were sent. -/

namespace GWKernel.Http
open Lib List
open Dns (isDigit decimal withDigit)
open Vfs (text)

/-- `url` is written with these parts; `rest` is the path, or empty for `/`. -/
structure Spells (url host port rest : List UInt8) : Prop where
  is : url = text "http://" ++ (host ++ (port ++ rest))
  some : host ≠ []
  plain : ∀ char ∈ host, char ≠ 0x2F ∧ char ≠ 0x3A
  port : port = [] ∨ ∃ digits, digits ≠ [] ∧ (∀ char ∈ digits, isDigit char = true) ∧ port = 0x3A :: digits
  rooted : rest = [] ∨ rest.head? = .some 0x2F

def portValue (port : List UInt8) : Nat := if port = [] then 80 else decimal (port.drop 1)

def Reads (url host : List UInt8) (port : Nat) (path : List UInt8) : Prop :=
  ∃ numeral rest, Spells url host numeral rest ∧ port = portValue numeral ∧
    path = if rest = [] then text "/" else rest

/-- A URL whose parts fit: 127 bytes of host and of path, and a port below 65536. -/
def Fits (url : List UInt8) : Prop :=
  ∃ host numeral rest, Spells url host numeral rest ∧ host.length < partMax ∧ portValue numeral < 2 ^ 16 ∧
    rest.length < partMax

def NoHost (url : List UInt8) : Prop :=
  ∀ rest, url = text "http://" ++ rest → rest = [] ∨ rest.head? = some 0x2F ∨ rest.head? = some 0x3A

theorem scanPort_eq {digits rest : List UInt8} {pr : Nat} (all : ∀ char ∈ digits, isDigit char = true)
    (ends : ∀ char ∈ rest.head?, isDigit char = false) (small : digits.foldl withDigit pr < 2 ^ 32) :
    scanPort pr (digits ++ rest) = (digits.foldl withDigit pr, rest) := by
  induction digits generalizing pr with
  | nil =>
    cases rest with
    | nil => rfl
    | cons char rest => simp [scanPort, ends char rfl]
  | cons char digits ih =>
    obtain ⟨digit, all⟩ := forall_mem_cons.mp all
    have grows := Dns.le_foldl_withDigit (withDigit pr char) digits
    have whole : (pr * 10 + (char.toNat - 48)) % 2 ^ 32 = withDigit pr char :=
      Nat.mod_eq_of_lt (Nat.lt_of_le_of_lt grows small)
    rw [cons_append, scanPort, if_pos digit, whole]
    exact ih all small

theorem parseUrl_bounds {url host path : List UInt8} {port : Nat} (parsed : parseUrl url = some (host, port, path)) :
    host.length < partMax ∧ port < 2 ^ 16 ∧ path.length < partMax := by
  unfold parseUrl at parsed
  dsimp only at parsed
  split at parsed
  next => cases parsed
  split at parsed
  next => cases parsed
  simp only [Option.some.injEq, Prod.mk.injEq] at parsed
  obtain ⟨rfl, rfl, rfl⟩ := parsed
  have cut (part : List UInt8) : (part.take (partMax - 1)).length < partMax := by
    rw [length_take]
    exact Nat.lt_of_le_of_lt (Nat.min_le_left _ _) (by decide)
  refine ⟨cut _, ?_, ?_⟩
  · unfold portAt
    split
    · exact Nat.mod_lt _ (by decide)
    · exact (by decide : 80 < 2 ^ 16)
  · split
    · exact (by decide : (text "/").length < partMax)
    · exact cut _

theorem starts_http (rest : List UInt8) : (text "http://").isPrefixOf (text "http://" ++ rest) ≠ false ∧
    (text "http://" ++ rest).drop 7 = rest := by
  rw [ne_eq, Bool.not_eq_false, isPrefixOf_iff_prefix]
  exact ⟨prefix_append _ _, drop_left' (by decide)⟩

theorem parseUrl_none {url : List UInt8} : parseUrl url = none ↔ NoHost url := by
  by_cases starts : (text "http://").isPrefixOf url = false
  · refine iff_of_true (if_pos starts) ?_
    rintro rest rfl
    exact absurd starts (starts_http rest).1
  · obtain ⟨rest, rfl⟩ := isPrefixOf_iff_prefix.mp (Bool.not_eq_false _ ▸ starts)
    have none : parseUrl (text "http://" ++ rest) = none ↔
        (rest.takeWhile fun char => char ≠ 0x2F ∧ char ≠ 0x3A).take (partMax - 1) = [] := by
      unfold parseUrl
      rw [if_neg starts, (starts_http rest).2]
      dsimp only
      split <;> simp_all
    rw [none, take_eq_nil_iff]
    constructor
    · rintro empty _ same
      obtain rfl := append_cancel_left same
      cases rest with
      | nil => exact .inl rfl
      | cons char rest =>
        have stops := empty.resolve_left (by decide)
        simp only [takeWhile_eq_nil_iff] at stops
        simpa [-not_and, not_and_or] using stops
    · intro noHost
      right
      rcases noHost rest rfl with rfl | head
      · rfl
      · obtain ⟨char, more, rfl⟩ := exists_cons_of_ne_nil (by rintro rfl; simp at head : rest ≠ [])
        simp only [head?_cons, Option.some.injEq] at head
        exact takeWhile_cons_of_neg (by simpa [-not_and, not_and_or] using head)

theorem parseUrl_spelled {url host numeral rest : List UInt8} (spells : Spells url host numeral rest)
    (short : host.length < partMax) (small : portValue numeral < 2 ^ 16) (fits : rest.length < partMax) :
    parseUrl url = some (host, portValue numeral, if rest = [] then text "/" else rest) := by
  obtain ⟨rfl, some, plain, port, rooted⟩ := spells
  have slash : ∀ char ∈ rest.head?, char = 0x2F := by
    intro char head
    rcases rooted with rfl | rooted
    · cases head
    · rw [rooted] at head
      exact (Option.some.inj head).symm
  have ends : (numeral ++ rest).takeWhile (fun char => char ≠ 0x2F ∧ char ≠ 0x3A) = [] := by
    rcases port with rfl | ⟨digits, _, _, rfl⟩
    · rcases rest with _ | ⟨char, rest⟩
      · rfl
      · rw [slash char rfl]
        exact takeWhile_cons_of_neg (by decide)
    · exact takeWhile_cons_of_neg (by decide)
  have behindHost : portAt (numeral ++ rest) = (portValue numeral, rest) := by
    rcases port with rfl | ⟨digits, _, all, rfl⟩
    · rcases rest with _ | ⟨char, rest⟩
      · rfl
      · rw [slash char rfl]
        rfl
    · have scanned := scanPort_eq all (fun char head => by rw [slash char head]; decide)
        (Nat.lt_trans small (by decide) : decimal digits < 2 ^ 32)
      rw [cons_append, portAt, scanned]
      exact congrArg (·, rest) (Nat.mod_eq_of_lt small)
  have first : (host ++ (numeral ++ rest)).takeWhile (fun char => char ≠ 0x2F ∧ char ≠ 0x3A) = host := by
    rw [takeWhile_append_of_pos fun char member => decide_eq_true (plain char member), ends, append_nil]
  unfold parseUrl
  rw [if_neg (starts_http _).1, (starts_http _).2]
  dsimp only
  rw [first, take_of_length_le (by omega : host.length ≤ partMax - 1), if_neg some, drop_left, behindHost]
  dsimp only
  rw [take_of_length_le (by omega : rest.length ≤ partMax - 1)]

/-- `parse_url` reads a URL as it is written, or rejects it, exactly when there is no host or all
parts fit. -/
theorem parseUrl_reads_iff (url : List UInt8) :
    (∀ host port path, parseUrl url = some (host, port, path) → Reads url host port path) ↔ NoHost url ∨ Fits url := by
  constructor
  · intro reads
    cases parsed : parseUrl url with
    | none => exact .inl (parseUrl_none.mp parsed)
    | some result =>
      obtain ⟨host, port, path⟩ := result
      obtain ⟨numeral, rest, spells, rfl, rfl⟩ := reads host port path parsed
      obtain ⟨short, small, fits⟩ := parseUrl_bounds parsed
      refine .inr ⟨host, numeral, rest, spells, short, small, ?_⟩
      split at fits
      next empty => rw [empty]; decide
      next => exact fits
  · rintro (noHost | ⟨host, numeral, rest, spells, short, small, fits⟩) host' port path parsed
    · rw [parseUrl_none.mpr noHost] at parsed
      cases parsed
    · rw [parseUrl_spelled spells short small fits] at parsed
      cases parsed
      exact ⟨numeral, rest, spells, rfl, rfl⟩

/-- A host of 128 bytes loses its last one to the path. -/
theorem long_host_cut : parseUrl (text "http://" ++ List.replicate 128 0x61) = some (List.replicate 127 0x61, 80, [0x61]) ∧
    ¬Reads (text "http://" ++ List.replicate 128 0x61) (List.replicate 127 0x61) 80 [0x61] ∧
    parseUrl (text "http://h:65616") = some (text "h", 80, text "/") := by
  refine ⟨by decide +kernel, ?_, by decide +kernel⟩
  rintro ⟨numeral, rest, ⟨_, _, _, _, rooted⟩, _, path⟩
  rcases rooted with rfl | rooted
  · cases path
  · split at path
    next => cases path
    next =>
      subst path
      cases rooted

/-- The results of `tcp_recv` bring the stream and its end, with fewer than ten timeouts in a row.
-/
inductive Brings : Nat → List Tcp.Received → List UInt8 → Prop where
  | fin {idle : Nat} {more : List Tcp.Received} : Brings idle (.endOfStream :: more) []
  | timeout {idle : Nat} {results : List Tcp.Received} {stream : List UInt8} (few : idle + 1 < 10)
      (later : Brings (idle + 1) results stream) : Brings idle (.timeout :: results) stream
  | data {idle : Nat} {results : List Tcp.Received} {bytes stream : List UInt8} (some : bytes ≠ [])
      (later : Brings 0 results stream) : Brings idle (.data bytes :: results) (bytes ++ stream)

theorem receive_eq {maxlen idle : Nat} {results : List Tcp.Received} {stream : List UInt8}
    (brings : Brings idle results stream) (few : idle < 10) {out : List UInt8}
    (fits : out.length + stream.length ≤ maxlen) : receive maxlen results idle out = out ++ stream := by
  induction brings generalizing out with
  | fin =>
    rw [receive, append_nil]
    split <;> rfl
  | @timeout idle results stream more later ih =>
    rw [receive]
    split
    next => exact ih more fits
    next full =>
      -- a full buffer means that the rest of the stream is empty
      obtain rfl : stream = [] := eq_nil_of_length_eq_zero (by omega)
      rw [append_nil]
  | data some later ih =>
    rw [length_append] at fits
    have pos := length_pos_of_ne_nil some
    rw [receive, if_pos ⟨by omega, few⟩, if_neg some, ih (by decide) (by rw [length_append]; omega), append_assoc]

theorem moveDown_eq {body blen : Nat} {out : List UInt8} (length : body + blen = out.length) :
    (moveDown body blen out).take blen = out.drop body := by
  have moved := forRange_rule (fun i out => out.set i (out.getD (body + i) 0)) out
    (fun i current => current.length = out.length ∧ ∀ j, current[j]? = if j < i then out[body + j]? else out[j]?)
    (Nat.zero_le blen) ⟨rfl, fun j => by simp⟩ fun i current _ below ⟨same, is⟩ => ?_
  · refine ext_getElem? fun j => ?_
    rw [getElem?_drop, getElem?_take]
    split
    next inside => exact (moved.2 j).trans (if_pos inside)
    next outside => rw [getElem?_eq_none (by omega)]
  · refine ⟨by rw [length_set, same], fun j => ?_⟩
    have source := is (body + i)
    rw [if_neg (by omega)] at source
    rw [getElem?_set]
    split
    next here =>
      subst here
      rw [if_pos (by omega), if_pos (Nat.lt_succ_self _), getD_eq_getElem?_getD, source,
        getElem?_eq_getElem (by omega)]
      rfl
    next other =>
      rw [is j]
      exact if_congr (by omega) rfl rfl

theorem behind_eq {mark : List UInt8} {before after : List UInt8} (i : Nat) (some : mark ≠ [])
    (first : ∀ rest, rest ≠ [] → rest <:+ before → ¬mark <+: rest ++ (mark ++ after)) :
    behind mark i (before ++ (mark ++ after)) = i + before.length + mark.length := by
  induction before generalizing i with
  | nil =>
    obtain ⟨char, more, rfl⟩ := exists_cons_of_ne_nil some
    have here := isPrefixOf_iff_prefix.mpr (prefix_append (char :: more) after)
    rw [cons_append] at here
    rw [nil_append, cons_append, behind, if_pos here]
    rfl
  | cons char before ih =>
    have here := first (char :: before) (cons_ne_nil _ _) suffix_rfl
    have later := ih (i + 1) fun rest nonempty suffix => first rest nonempty (suffix.trans (suffix_cons _ _))
    rw [cons_append, behind, if_neg (by rwa [ isPrefixOf_iff_prefix])]
    rw [later, length_cons]
    omega

/-- A header that neither contains nor helps to form an empty line. -/
structure Closed (header : List UInt8) : Prop where
  inside : ¬crlf ++ crlf <:+: header
  stops : ¬crlf <:+ header

theorem Closed.first {header : List UInt8} (closed : Closed header) (body : List UInt8) :
    behind (crlf ++ crlf) 0 (header ++ (crlf ++ crlf ++ body)) = header.length + 4 := by
  rw [behind_eq 0 (by decide), Nat.zero_add]
  · rfl
  rintro rest some suffix starts
  rcases Nat.lt_or_ge rest.length 4 with short | long
  · -- a mark that begins in the last bytes of the header needs them to be CR LF
    have ends : rest ≠ crlf := fun is => closed.stops (is ▸ suffix)
    rcases rest with _ | ⟨a, _ | ⟨b, _ | ⟨c, _ | ⟨d, rest⟩⟩⟩⟩
    · exact some rfl
    · simp [crlf] at starts
    · simp [crlf] at starts ends
      grind
    · simp [crlf] at starts
    · simp at short
      omega
  · have within := prefix_of_prefix_length_le starts (prefix_append rest _) (by simpa [crlf] using long)
    exact closed.inside (within.isInfix.trans suffix.isInfix)

theorem Closed.takeBody {header : List UInt8} (closed : Closed header) (body : List UInt8) :
    takeBody (header ++ (crlf ++ crlf ++ body)) =
      some (if body = [] then header ++ (crlf ++ crlf ++ body) else body) := by
  have length : (header ++ (crlf ++ crlf ++ body)).length = header.length + 4 + body.length := by
    simp [crlf]
    omega
  unfold Http.takeBody
  rw [closed.first body]
  dsimp only
  rw [if_neg (by omega : ¬header.length + 4 = 0), length]
  by_cases empty : body = []
  · rw [if_pos (.inr (by simp [empty])), if_pos (by omega), if_pos empty]
  · have pos := length_pos_of_ne_nil empty
    rw [if_neg (by omega), moveDown_eq (by omega), ← append_assoc, drop_left' (by simp [crlf]), if_neg empty]

/-- The body is handed over as it was sent exactly when it is not empty and the header does not
end in a line break. -/
theorem httpGetOnce_body_iff {net : Network} {url host path ip : List UInt8} {port maxlen : Nat}
    {header body : List UInt8} (parsed : parseUrl url = some (host, port, path)) (resolved : net.dnsResolve host = some ip)
    (connected : net.tcpConnect ip port = true) (sent : net.tcpSend (request host path) = true)
    (free : ¬crlf ++ crlf <:+: header) (brings : Brings 0 net.received (header ++ (crlf ++ crlf ++ body)))
    (room : (header ++ (crlf ++ crlf ++ body)).length ≤ maxlen) :
    httpGetOnce net url maxlen = some body ↔ body ≠ [] ∧ ¬crlf <:+ header := by
  have got : httpGetOnce net url maxlen = takeBody (header ++ (crlf ++ crlf ++ body)) := by
    have whole : receive maxlen net.received 0 [] = header ++ (crlf ++ crlf ++ body) :=
      receive_eq brings (by decide) (by simpa using room)
    simp [httpGetOnce, parsed, resolved, connected, sent, whole]
  rw [got]
  by_cases ends : crlf <:+ header
  · refine iff_of_false (fun same => ?_) fun both => both.2 ends
    obtain ⟨front, rfl⟩ := ends
    have closed : Closed front := by
      refine ⟨fun inside => free (inside.trans (prefix_append _ _).isInfix), ?_⟩
      rintro ⟨start, rfl⟩
      exact free ⟨start, [], by simp⟩
    have early := closed.takeBody (crlf ++ body)
    simp only [append_assoc] at early same
    rw [early, if_neg (by simp [crlf]), Option.some_inj] at same
    have lengths := congrArg List.length same
    simp only [crlf, length_append, length_cons] at lengths
    omega
  · rw [Closed.takeBody ⟨free, ends⟩, Option.some_inj]
    split
    next empty => simp [empty, crlf]
    next some => simp [some, ends]

def halves : Network :=
  ⟨fun _ => some [10, 0, 2, 2], fun _ _ => true, fun _ => true,
    [.data (text "HTTP/1.0 200 OK" ++ [0x0D]), .timeout, .data (0x0A :: crlf ++ text "hi"), .endOfStream]⟩

theorem httpGetOnce_body_hi : httpGetOnce halves (text "http://h/") 64 = some (text "hi") := by
  have brings : Brings 0 halves.received (text "HTTP/1.0 200 OK" ++ (crlf ++ crlf ++ text "hi")) :=
    .data (by decide) (.timeout (by decide) (.data (by decide) .fin))
  have parsed : parseUrl (text "http://h/") = some (text "h", 80, text "/") := by decide +kernel
  exact (httpGetOnce_body_iff parsed rfl rfl rfl (by decide) brings (by decide)).mpr ⟨by decide, by decide⟩

/-- Of a response without a body the caller gets the header. -/
theorem empty_body_is_header : ∃ net : Network,
    Brings 0 net.received (text "HTTP/1.0 204 No Content" ++ (crlf ++ crlf ++ [])) ∧
      httpGetOnce net (text "http://h/") 64 = some (text "HTTP/1.0 204 No Content" ++ crlf ++ crlf) := by
  refine ⟨{ halves with received := [.data (text "HTTP/1.0 204 No Content" ++ crlf ++ crlf), .endOfStream] }, ?_, ?_⟩
  · exact .data (by decide) .fin
  · decide +kernel

end GWKernel.Http
