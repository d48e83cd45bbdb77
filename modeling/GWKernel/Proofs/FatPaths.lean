import GWKernel.Fat
import GWKernel.Lib.Pieces

/-! Paths of the FAT driver. `resolve_parent` cuts a path into pieces of at most 15 bytes; its
components may be longer. -/

namespace GWKernel.Fat
open Lib List

variable {path : List UInt8}

theorem pathParts_eq (steps : Nat) (path : List UInt8) : pathParts steps path = cut isSeparator 15 steps path := by
  induction steps generalizing path with
  | zero => rfl
  | succ steps ih =>
    rw [pathParts, cut]
    cases path.dropWhile isSeparator with
    | nil => rfl
    | cons char rest => exact congrArg _ (ih _)

theorem pathParts_spec {steps : Nat} {part : List UInt8} (member : part ∈ pathParts steps path) :
    part ≠ [] ∧ ∀ char ∈ part, char ∈ path :=
  cut_spec (by decide) (pathParts_eq steps path ▸ member)

section Join

variable {char : UInt8} (separator : isSeparator char = true)
include separator

theorem pathParts_join (path rest : List UInt8) : pathParts (path ++ char :: rest).length (path ++ char :: rest) =
    pathParts path.length path ++ pathParts rest.length rest := by
  simp only [pathParts_eq]
  exact cut_join separator (by decide) path rest

end Join

section Plain

variable (some : path ≠ []) (plain : ∀ char ∈ path, isSeparator char = false)
include some plain

theorem pathParts_component :
    pathParts path.length path = path.take 15 :: pathParts (path.drop 15).length (path.drop 15) := by
  simp only [pathParts_eq]
  exact cut_plain some plain (by decide)

theorem pathParts_short (short : path.length ≤ 15) : pathParts path.length path = [path] := by
  rw [pathParts_eq]
  exact cut_short some plain short

end Plain

end GWKernel.Fat
