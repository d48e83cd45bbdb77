import GWKernel.Dns

/-! Which names `parse_ip` takes for an address: four decimal numerals joined by dots, and the
same with one more dot behind them. -/

namespace GWKernel.Dns
open Lib List

def withDigit (value : Nat) (char : UInt8) : Nat := value * 10 + (char.toNat - 48)

def decimal (digits : List UInt8) : Nat := digits.foldl withDigit 0

/-- A non-empty decimal numeral of value at most 255. -/
def Numeral (digits : List UInt8) : Prop := digits ≠ [] ∧ (∀ char ∈ digits, isDigit char = true) ∧ decimal digits ≤ 255

/-- Four numerals joined by single dots, with `tail` behind them, and the four values. -/
def Quad (tail name out : List UInt8) : Prop :=
  ∃ numerals : List (List UInt8), numerals.length = 4 ∧ (∀ digits ∈ numerals, Numeral digits) ∧
    name = List.intercalate [46] numerals ++ tail ∧ out.map UInt8.toNat = numerals.map decimal

theorem le_foldl_withDigit (value : Nat) (digits : List UInt8) : value ≤ digits.foldl withDigit value := by
  induction digits generalizing value with
  | nil => exact Nat.le_refl _
  | cons char digits ih => exact Nat.le_trans (by unfold withDigit; omega) (ih _)

theorem parsePart_eq (value : Nat) (text : List UInt8) (small : value ≤ 255) :
    parsePart value text =
      if (text.takeWhile isDigit).foldl withDigit value ≤ 255 then
        some ((text.takeWhile isDigit).foldl withDigit value, text.dropWhile isDigit)
      else none := by
  induction text generalizing value with
  | nil => simp [parsePart, small]
  | cons char rest ih =>
    unfold parsePart
    by_cases digit : isDigit char = true
    · simp only [digit, if_true, takeWhile_cons_of_pos, dropWhile_cons_of_pos, foldl_cons]
      have grows := le_foldl_withDigit (withDigit value char) (rest.takeWhile isDigit)
      split
      next large => rw [if_neg (Nat.not_le.mpr (Nat.lt_of_lt_of_le large grows))]
      next fits => exact ih _ (Nat.not_lt.mp fits)
    · simp [digit, small]

theorem parsePart_zero (text : List UInt8) :
    parsePart 0 text =
      if decimal (text.takeWhile isDigit) ≤ 255 then some (decimal (text.takeWhile isDigit), text.dropWhile isDigit)
      else none := parsePart_eq 0 text (Nat.zero_le _)

variable {left : Nat} {parts result : List Nat} {digits name out : List UInt8} {numerals : List (List UInt8)}

theorem parseParts_dot (more : List UInt8) (numeral : Numeral digits) :
    parseParts (left + 1) parts (digits ++ 46 :: more) = parseParts left (parts ++ [decimal digits]) more := by
  obtain ⟨some, all, small⟩ := numeral
  have parsed : parsePart 0 (digits ++ 46 :: more) = .some (decimal digits, 46 :: more) := by
    rw [parsePart_zero, takeWhile_append_of_pos all, dropWhile_append_of_pos all]
    simpa [isDigit] using small
  obtain ⟨char, digits, rfl⟩ := exists_cons_of_ne_nil some
  rw [cons_append] at parsed ⊢
  rw [parseParts, if_pos (all char mem_cons_self), parsed]
  rfl

theorem parseParts_last (numeral : Numeral digits) :
    parseParts (left + 1) parts digits = some (parts ++ [decimal digits], []) := by
  obtain ⟨some, all, small⟩ := numeral
  have parsed : parsePart 0 digits = .some (decimal digits, []) := by
    rw [parsePart_zero, takeWhile_eq_self_iff.mpr all, dropWhile_eq_nil_iff.mpr all]
    exact if_pos small
  obtain ⟨char, digits, rfl⟩ := exists_cons_of_ne_nil some
  rw [parseParts, if_pos (all char mem_cons_self), parsed]

theorem parseParts_some {after : List Nat × List UInt8} (parsed : parseParts (left + 1) parts name = some after) :
    name = [] ∧ after = (parts, []) ∨ ∃ digits, Numeral digits ∧
      ((∃ more, name = digits ++ 46 :: more ∧ parseParts left (parts ++ [decimal digits]) more = some after) ∨
        ∃ rest, name = digits ++ rest ∧ after = (parts ++ [decimal digits], rest)) := by
  cases name with
  | nil => exact .inl ⟨rfl, (Option.some.inj parsed).symm⟩
  | cons char text =>
    rw [parseParts] at parsed
    split at parsed
    next digit =>
      have whole : (char :: text).takeWhile isDigit ++ (char :: text).dropWhile isDigit = char :: text :=
        takeWhile_append_dropWhile
      rw [parsePart_zero] at parsed
      by_cases small : decimal ((char :: text).takeWhile isDigit) ≤ 255
      · refine .inr ⟨_, ⟨by simp [digit], fun _ => mem_takeWhile_imp, small⟩, ?_⟩
        rw [if_pos small] at parsed
        split at parsed
        next read => cases read
        next value more read =>
          obtain ⟨rfl, rest⟩ := Prod.mk.inj (Option.some.inj read)
          exact .inl ⟨more, by rw [← rest, whole], parsed⟩
        next value more _ read =>
          obtain ⟨rfl, rest⟩ := Prod.mk.inj (Option.some.inj read)
          exact .inr ⟨more, by rw [← rest, whole], (Option.some.inj parsed).symm⟩
      · rw [if_neg small] at parsed
        cases parsed
    next => cases parsed

/-- The texts on which the loop reads exactly these parts: a dot may follow the last one. -/
def Spelled : List (List UInt8) → List UInt8 → Prop
  | [], name => name = []
  | digits :: numerals, name =>
    Numeral digits ∧ (name = digits ∧ numerals = [] ∨ ∃ more, name = digits ++ 46 :: more ∧ Spelled numerals more)

theorem parseParts_iff : (parseParts left parts name = some (result, []) ∧ result.length = parts.length + left) ↔
    ∃ numerals, numerals.length = left ∧ Spelled numerals name ∧ result = parts ++ numerals.map decimal := by
  induction left generalizing parts name with
  | zero =>
    constructor
    · rintro ⟨parsed, _⟩
      obtain ⟨rfl, rfl⟩ := Prod.mk.inj (Option.some.inj parsed)
      exact ⟨[], rfl, rfl, (append_nil _).symm⟩
    · rintro ⟨numerals, none, spelled, rfl⟩
      obtain rfl := length_eq_zero_iff.mp none
      obtain rfl : name = [] := spelled
      simp [parseParts]
  | succ left ih =>
    constructor
    · rintro ⟨parsed, length⟩
      obtain ⟨rfl, is⟩ | ⟨digits, numeral, ⟨more, rfl, rest⟩ | ⟨rest, rfl, is⟩⟩ := parseParts_some parsed
      · obtain ⟨rfl, _⟩ := Prod.mk.inj is
        omega
      · obtain ⟨numerals, rfl, spelled, rfl⟩ := ih.mp ⟨rest, by simp [length]; omega⟩
        exact ⟨digits :: numerals, rfl, ⟨numeral, .inr ⟨more, rfl, spelled⟩⟩, by simp⟩
      · obtain ⟨rfl, rfl⟩ := Prod.mk.inj is
        obtain rfl : left = 0 := by simpa using length
        exact ⟨[digits], rfl, ⟨numeral, .inl ⟨append_nil _, rfl⟩⟩, rfl⟩
    · rintro ⟨_ | ⟨digits, numerals⟩, count, spelled, rfl⟩
      · cases count
      obtain ⟨numeral, ⟨rfl, rfl⟩ | ⟨more, rfl, spelled⟩⟩ := spelled
      · exact ⟨parseParts_last numeral, by simpa using count⟩
      · obtain ⟨parsed, _⟩ := ih.mpr ⟨numerals, Nat.succ.inj count, spelled, append_cons parts (decimal digits) _⟩
        exact ⟨(parseParts_dot more numeral).trans parsed, by simpa using count⟩

theorem spelled_iff (some : numerals ≠ []) :
    Spelled numerals name ↔ (∀ digits ∈ numerals, Numeral digits) ∧
      ∃ tail, (tail = [] ∨ tail = [46]) ∧ name = List.intercalate [46] numerals ++ tail := by
  induction numerals generalizing name with
  | nil => exact absurd rfl some
  | cons digits numerals ih =>
    cases numerals with
    | nil => simp [Spelled]
    | cons next numerals =>
      rw [Spelled, forall_mem_cons, and_assoc]
      simp only [ih (cons_ne_nil _ _), cons_ne_nil, and_false, false_or]
      constructor
      · rintro ⟨numeral, more, rfl, all, tail, tails, rfl⟩
        exact ⟨numeral, all, tail, tails, by simp [List.intercalate]⟩
      · rintro ⟨numeral, all, tail, tails, rfl⟩
        exact ⟨numeral, _, by simp [List.intercalate], all, tail, tails, rfl⟩

theorem parseIp_parts : parseIp name = some out ↔
    ∃ parts, (parseParts 4 [] name = some (parts, []) ∧ parts.length = 4) ∧ out = parts.map UInt8.ofNat := by
  unfold parseIp
  split
  next empty => simp [empty, parseParts]
  next =>
    split
    next failed => simp [failed]
    next parts rest parsed =>
      simp only [parsed, Option.some.injEq, Prod.mk.injEq]
      split
      next wrong => simp; grind
      next right => simp; grind

theorem bytes_iff (all : ∀ digits ∈ numerals, Numeral digits) :
    out = (numerals.map decimal).map UInt8.ofNat ↔ out.map UInt8.toNat = numerals.map decimal := by
  constructor
  · rintro rfl
    rw [List.map_map, List.map_map]
    exact map_congr_left fun digits member => UInt8.toNat_ofNat_of_lt' (Nat.lt_succ_of_le (all digits member).2.2)
  · intro values
    rw [← values, List.map_map]
    exact (map_id'' (fun _ => UInt8.ofNat_toNat) _).symm

theorem parseIp_iff : parseIp name = some out ↔ Quad [] name out ∨ Quad [46] name out := by
  have taken : parseIp name = some out ↔ ∃ tail, (tail = [] ∨ tail = [46]) ∧ Quad tail name out := by
    rw [parseIp_parts]
    constructor
    · rintro ⟨parts, parsed, is⟩
      obtain ⟨numerals, count, spelled, rfl⟩ := parseParts_iff.mp parsed
      obtain ⟨all, tail, tails, rfl⟩ := (spelled_iff (by rintro rfl; cases count)).mp spelled
      exact ⟨tail, tails, numerals, count, all, rfl, (bytes_iff all).mp is⟩
    · rintro ⟨tail, tails, numerals, count, all, rfl, values⟩
      have spelled := (spelled_iff (by rintro rfl; cases count)).mpr ⟨all, tail, tails, rfl⟩
      exact ⟨_, parseParts_iff.mpr ⟨numerals, count, spelled, rfl⟩, (bytes_iff all).mpr values⟩
  rw [taken]
  simp only [or_and_right, exists_or, exists_eq_left]

theorem intercalate_last (some : numerals ≠ []) (all : ∀ digits ∈ numerals, Numeral digits) :
    ∃ char, (List.intercalate [46] numerals).getLast? = .some char ∧ isDigit char = true := by
  induction numerals with
  | nil => exact absurd rfl some
  | cons digits numerals ih =>
    obtain ⟨numeral, all⟩ := forall_mem_cons.mp all
    cases numerals with
    | nil =>
      refine ⟨digits.getLast numeral.1, ?_, numeral.2.1 _ (getLast_mem _)⟩
      simp [List.intercalate, getLast?_eq_some_getLast numeral.1]
    | cons next numerals =>
      obtain ⟨char, is, digit⟩ := ih (cons_ne_nil _ _) all
      exact ⟨char, by simp [getLast?_append, getLast?_cons, is], digit⟩

theorem Quad.ne (quad : Quad [] name out) (front : List UInt8) : name ≠ front ++ [46] := by
  rintro rfl
  obtain ⟨numerals, count, all, is, _⟩ := quad
  obtain ⟨char, last, digit⟩ := intercalate_last (by rintro rfl; cases count) all
  rw [← append_nil (List.intercalate _ _), ← is, getLast?_append] at last
  cases last
  cases digit

theorem dnsResolve_queries {network : Network} {dns : State} {answer : Option (List UInt8) × State}
    (refused : parseIp name = none) (ran : dnsResolve name network dns = some answer) :
    answer.2.txid = dns.queryId := by
  unfold dnsResolve at ran
  rw [refused] at ran
  obtain ⟨query, _, ran⟩ := Option.bind_eq_some_iff.mp ran
  cases query with
  | none =>
    cases ran
    rfl
  | some query =>
    obtain ⟨⟨ok, udp⟩, _, ran⟩ := Option.bind_eq_some_iff.mp ran
    cases ok with
    | false =>
      cases ran
      rfl
    | true =>
      obtain ⟨⟨address, udp⟩, _, ran⟩ := Option.bind_eq_some_iff.mp ran
      cases ran
      rfl

/-- `parse_ip` takes the dotted quads alone, exactly when the name is not a quad with a dot behind
it. -/
theorem parseIp_exact_iff (name : List UInt8) :
    ((∀ out, parseIp name = some out ↔ Quad [] name out) ∧
      ((¬∃ out, Quad [] name out) → ∀ network dns answer, dnsResolve name network dns = some answer →
        answer.2.txid = dns.queryId)) ↔
      ¬∃ out, Quad [46] name out := by
  constructor
  · rintro ⟨taken, _⟩ ⟨out, dotted⟩
    have quad := (taken out).mp (parseIp_iff.mpr (.inr dotted))
    obtain ⟨_, _, _, is, _⟩ := dotted
    exact quad.ne _ is
  · intro clean
    have taken : ∀ out, parseIp name = some out ↔ Quad [] name out := fun out =>
      parseIp_iff.trans (or_iff_left fun dotted => clean ⟨out, dotted⟩)
    refine ⟨taken, fun other network dns answer ran => dnsResolve_queries ?_ ran⟩
    exact Option.eq_none_iff_forall_ne_some.mpr fun out is => other ⟨out, (taken out).mp is⟩

/-- "1.2.3.4." is taken for an address. -/
theorem trailing_dot_taken : ∃ name : List UInt8, parseIp name = some [1, 2, 3, 4] ∧ ¬∃ out, Quad [] name out :=
  ⟨[49, 46, 50, 46, 51, 46, 52, 46], by decide, fun ⟨_, quad⟩ => quad.ne [49, 46, 50, 46, 51, 46, 52] rfl⟩

end GWKernel.Dns
