import GWKernel.Proofs.VfsOperations
import GWKernel.Lib.Pieces

/-! How paths on drive C are taken apart: the pieces that `lookup_rel` follows, and the parent
and the name that `split_parent` finds. -/

namespace GWKernel.Vfs
open Lib List Option
open Fat (isSeparator)

variable {ram : Ramfs} {kids : Nat → List Nat}

theorem pieces_eq (steps : Nat) (path : List UInt8) :
    pieces steps (path.dropWhile isSeparator) = cut isSeparator (nameMax - 1) steps path := by
  induction steps generalizing path with
  | zero => rfl
  | succ steps ih =>
    rw [cut]
    cases path.dropWhile isSeparator with
    | nil => rfl
    | cons char rest => exact congrArg _ (ih _)

theorem pieces_strip (path : List UInt8) : pieces (path.dropWhile isSeparator).length (path.dropWhile isSeparator) =
    cut isSeparator (nameMax - 1) path.length path := by
  rw [pieces_eq]
  exact cut_enough (by decide) (Nat.le_refl _) (dropWhile_sublist _).length_le

variable {dir : List UInt8} {char : UInt8} {part last : List UInt8} {n m par : Nat}

theorem pieces_strip_join (dir rest : List UInt8) (separator : isSeparator char = true) :
    pieces ((dir ++ char :: rest).dropWhile isSeparator).length ((dir ++ char :: rest).dropWhile isSeparator) =
      pieces (dir.dropWhile isSeparator).length (dir.dropWhile isSeparator) ++
        pieces (rest.dropWhile isSeparator).length (rest.dropWhile isSeparator) := by
  simp only [pieces_strip]
  exact cut_join separator (by decide) dir rest

theorem pieces_part (some : part ≠ []) (plain : ∀ char ∈ part, isSeparator char = false)
    (short : part.length < nameMax) :
    pieces (part.dropWhile isSeparator).length (part.dropWhile isSeparator) = [part] := by
  rw [pieces_strip]
  exact cut_short some plain (Nat.le_pred_of_lt short)

theorem split_last (path : List UInt8) : (∀ char ∈ path, isSeparator char = false) ∨
    ∃ dir char last, isSeparator char = true ∧ (∀ char ∈ last, isSeparator char = false) ∧ path = dir ++ char :: last := by
  induction path with
  | nil => exact .inl fun _ no => nomatch no
  | cons first rest ih =>
    rcases ih with plain | ⟨dir, char, last, separator, plain, rfl⟩
    · cases separator : isSeparator first with
      | true => exact .inr ⟨[], first, rest, separator, plain, rfl⟩
      | false => exact .inl (forall_mem_cons.mpr ⟨separator, plain⟩)
    · exact .inr ⟨first :: dir, char, last, separator, plain, rfl⟩

theorem splitParent_append (separator : isSeparator char = true) (plain : ∀ char ∈ last, isSeparator char = false)
    (fits : (dir ++ char :: last).length < pathMax) :
    splitParent (dir ++ char :: last) = (dir, strcpy last nameMax) := by
  have whole : strcpy (dir ++ char :: last) pathMax = dir ++ char :: last := take_of_length_le (by omega)
  have found : lastSeparator (dir ++ char :: last) = some dir.length := by
    have index : ((dir ++ char :: last).reverse.findIdx? isSeparator) = some last.length := by
      have tail : last.reverse.findIdx? isSeparator = none :=
        findIdx?_eq_none_iff.mpr fun char member => plain char (mem_reverse.mp member)
      simp [findIdx?_append, tail, findIdx?_cons, separator]
    unfold lastSeparator
    rw [index, map_some, length_append, length_cons]
    exact congrArg some (by omega)
  unfold splitParent
  dsimp only
  rw [whole, found]
  dsimp only
  rw [take_left, ← drop_drop, drop_left, drop_succ_cons, drop_zero]
  rw [length_append] at fits
  exact congrArg (Prod.mk · (strcpy last nameMax)) (take_of_length_le (by omega))

theorem splitParent_plain (plain : ∀ char ∈ part, isSeparator char = false) (fits : part.length < pathMax) :
    splitParent part = ([], strcpy part nameMax) := by
  have whole : strcpy part pathMax = part := take_of_length_le (by omega)
  have missing : part.reverse.findIdx? isSeparator = none :=
    findIdx?_eq_none_iff.mpr fun char member => plain char (mem_reverse.mp member)
  unfold splitParent lastSeparator
  dsimp only
  rw [whole, missing]
  rfl

theorem splitParent_join (separator : isSeparator char = true) (plain : ∀ char ∈ last, isSeparator char = false)
    (short : last.length < nameMax) (fits : (dir ++ char :: last).length < pathMax) :
    splitParent (dir ++ char :: last) = (dir, last) := by
  rw [splitParent_append separator plain fits, strcpy, take_of_length_le (by omega)]

theorem splitParent_part (plain : ∀ char ∈ part, isSeparator char = false) (short : part.length < nameMax) :
    splitParent part = ([], part) := by
  rw [splitParent_plain plain (by unfold nameMax at short; unfold pathMax; omega), strcpy,
    take_of_length_le (by omega)]

theorem splitParent_strcpy (path : List UInt8) : splitParent (strcpy path pathMax) = splitParent path := by
  have again : strcpy (strcpy path pathMax) pathMax = strcpy path pathMax := by
    unfold strcpy
    rw [take_take, Nat.min_self]
  unfold splitParent
  rw [again]

theorem splitParent_name (path : List UInt8) : (∀ char ∈ (splitParent path).2, isSeparator char = false) ∧
    (splitParent path).2.length < nameMax := by
  have short (text : List UInt8) : (strcpy text nameMax).length < nameMax :=
    Nat.lt_of_le_of_lt (length_take_le _ _) (by decide)
  have fits : (strcpy path pathMax).length < pathMax := Nat.lt_of_le_of_lt (length_take_le _ _) (by decide)
  rw [← splitParent_strcpy]
  rcases split_last (strcpy path pathMax) with plain | ⟨dir, char, last, separator, plain, is⟩
  · rw [splitParent_plain plain fits]
    exact ⟨fun char member => plain char (mem_of_mem_take member), short _⟩
  · rw [is] at fits ⊢
    rw [splitParent_append separator plain fits]
    exact ⟨fun char member => plain char (mem_of_mem_take member), short _⟩

theorem kmalloc_nodes (ram : Ramfs) (size : Nat) : (kmalloc ram size).2.nodes = ram.nodes := by
  unfold kmalloc
  split <;> rfl

theorem setNode_other {nodes : Nat → Node} (node : Node) (differ : m ≠ n) : setNode nodes n node m = nodes m :=
  if_neg differ

section Missing

variable {name : List UInt8}

theorem down_of_missing (some : name ≠ []) (missing : follow ram kids par name = none) :
    name ≠ [] ∧ name ≠ [0x2E] ∧ name ≠ [0x2E, 0x2E] := by
  refine ⟨some, ?_, ?_⟩ <;>
  · rintro rfl
    cases missing

theorem hop_down (isDir : (ram.nodes par).type = .dir) (down : name ≠ [] ∧ name ≠ [0x2E] ∧ name ≠ [0x2E, 0x2E]) :
    hop ram kids par name = (kids par).find? fun c => decide ((ram.nodes c).name = name) := by
  unfold hop
  rw [if_neg (not_or.mpr ⟨down.1, down.2.1⟩), if_neg down.2.2, if_neg (not_not.mpr isDir)]

theorem follow_name (isDir : (ram.nodes par).type = .dir) (down : name ≠ [] ∧ name ≠ [0x2E] ∧ name ≠ [0x2E, 0x2E])
    (plain : ∀ char ∈ name, isSeparator char = false) (short : name.length < nameMax) (letter : namesC name = false) :
    follow ram kids par name = (kids par).find? fun c => decide ((ram.nodes c).name = name) := by
  have strip : stripC name = name.dropWhile isSeparator := by
    unfold stripC
    rw [letter]
    rfl
  unfold follow
  rw [strip, pieces_part down.1 plain short, foldlM_cons, hop_down isDir down]
  simp only [foldlM_nil, bind_pure]

end Missing

end GWKernel.Vfs
