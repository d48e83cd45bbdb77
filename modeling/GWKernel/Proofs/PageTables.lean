import GWKernel.Vmm
import GWKernel.Lib.Radix
import GWKernel.Lib.Word
import GWKernel.Lib.Outcome

/-! The page tables form a tree, and every entry of the last level maps its own address. -/

namespace GWKernel.Vmm
open Lib

@[ext] structure Table where
  base : UInt64
  aligned : base.toNat % 2 ^ 12 = 0
  small : base.toNat < 2 ^ 52
deriving DecidableEq

theorem target_toNat (entry : UInt64) : (target entry).toNat = entry.toNat % 2 ^ 52 / 2 ^ 12 * 2 ^ 12 :=
  toNat_and_field entry (by decide) (by decide)

def child (entry : UInt64) : Option Table :=
  if entry &&& pteP = 0 then none
  else some ⟨target entry, by rw [target_toNat]; omega, by rw [target_toNat]; omega⟩

def entries (mem : Mem) (table : Table) (index : Fin 512) : UInt64 := word mem (table.base.toNat + 8 * index)

def place (shift address : UInt64) : Fin 512 :=
  ⟨slot shift address, Nat.lt_of_le_of_lt (UInt64.toNat_and _ _ ▸ Nat.and_le_right) (by decide)⟩

theorem entries_setWord (mem : Mem) (table : Table) (index : Fin 512) (value : UInt64) :
    entries (setWord mem (table.base.toNat + 8 * index) value) = Radix.set (entries mem) table index value := by
  funext other position
  have aligned := table.aligned
  have otherAligned := other.aligned
  unfold entries Radix.set
  split
  next same =>
    obtain ⟨rfl, rfl⟩ := same
    exact word_setWord _ _ _
  next differ =>
    refine word_agree (setWord_agree _ _ ?_)
    by_cases same : other = table
    · subst same
      have apart : position.val ≠ index.val := fun is => differ ⟨rfl, Fin.ext is⟩
      omega
    · have apart : other.base.toNat ≠ table.base.toNat := fun is => same (Table.ext (UInt64.toNat_inj.mp is))
      omega

theorem absent_iff (entry : UInt64) : entry &&& pteP = 0 ↔ entry.toNat % 2 = 0 := by
  have bit : (entry &&& pteP).toNat = entry.toNat % 2 ^ 1 / 2 ^ 0 * 2 ^ 0 :=
    toNat_and_field entry (by decide) (by decide)
  rw [← UInt64.toNat_inj, bit, UInt64.toNat_zero]
  omega

theorem not_big_iff (entry : UInt64) : entry &&& ptePs = 0 ↔ entry.toNat / 2 ^ 7 % 2 = 0 := by
  have bit : (entry &&& ptePs).toNat = entry.toNat % 2 ^ 8 / 2 ^ 7 * 2 ^ 7 :=
    toNat_and_field entry (by decide) (by decide)
  rw [← UInt64.toNat_inj, bit, UInt64.toNat_zero]
  omega

theorem slot_eq (address : UInt64) :
    slot 39 address = address.toNat / 2 ^ 39 % 512 ∧ slot 30 address = address.toNat / 2 ^ 30 % 512 ∧
      slot 21 address = address.toNat / 2 ^ 21 % 512 := by
  have field (shift : UInt64) : slot shift address = address.toNat / 2 ^ (shift.toNat % 64) % 512 := by
    have is : slot shift address = (address >>> shift).toNat % 2 ^ 9 / 2 ^ 0 * 2 ^ 0 :=
      toNat_and_field _ (by decide) (by decide)
    rw [is, UInt64.toNat_shiftRight, Nat.shiftRight_eq_div_pow]
    omega
  exact ⟨field 39, field 30, field 21⟩

theorem toNat_link (table : Table) : (table.base ||| pteFlags).toNat = table.base.toNat + 7 :=
  toNat_or_low 12 table.aligned (by decide)

theorem link_present (table : Table) : table.base ||| pteFlags ≠ 0 ∧ ¬(table.base ||| pteFlags) &&& pteP = 0 ∧
    (table.base ||| pteFlags) &&& ptePs = 0 := by
  have aligned := table.aligned
  rw [absent_iff, not_big_iff, ← UInt64.toNat_inj.ne, toNat_link, UInt64.toNat_zero]
  omega

theorem target_link (table : Table) : target (table.base ||| pteFlags) = table.base := by
  have small := table.small
  have aligned := table.aligned
  rw [← UInt64.toNat_inj, target_toNat, toNat_link]
  omega

theorem child_link (table : Table) : child (table.base ||| pteFlags) = some table := by
  unfold child
  rw [if_neg (link_present table).2.1]
  exact congrArg some (Table.ext (target_link table))

@[simp] theorem child_zero : child 0 = none := if_pos (by decide)

theorem pointer_link (table : Table) : (table.base ||| pteFlags) &&& ~~~0xFFF = table.base := by
  have small := table.small
  have aligned := table.aligned
  have field : ((table.base ||| pteFlags) &&& ~~~0xFFF).toNat =
      (table.base ||| pteFlags).toNat % 2 ^ 64 / 2 ^ 12 * 2 ^ 12 := toNat_and_field _ (by decide) (by decide)
  rw [← UInt64.toNat_inj, field, toNat_link]
  omega

def region (i j k : Fin 512) : UInt64 := UInt64.ofNat (i * 2 ^ 39 + j * 2 ^ 30 + k * 2 ^ 21)

theorem toNat_region (i j k : Fin 512) : (region i j k).toNat = i * 2 ^ 39 + j * 2 ^ 30 + k * 2 ^ 21 :=
  UInt64.toNat_ofNat_of_lt' (by
    show _ < 2 ^ 64
    omega)

theorem region_of (address : UInt64) (low : address.toNat < 2 ^ 48) :
    (region (place 39 address) (place 30 address) (place 21 address)).toNat = address.toNat / 2 ^ 21 * 2 ^ 21 := by
  obtain ⟨pml4, pdpt, pd⟩ := slot_eq address
  rw [toNat_region]
  unfold place
  dsimp only
  omega

theorem place_congr {first second : UInt64} (same : first.toNat / 2 ^ 21 = second.toNat / 2 ^ 21) :
    place 39 first = place 39 second ∧ place 30 first = place 30 second ∧ place 21 first = place 21 second := by
  have left := slot_eq first
  have right := slot_eq second
  refine ⟨Fin.ext ?_, Fin.ext ?_, Fin.ext ?_⟩ <;> (unfold place; dsimp only; omega)

theorem toNat_bigPage (i j k : Fin 512) : (bigPage (region i j k)).toNat = (region i j k).toNat + 0x87 := by
  have is := toNat_region i j k
  have flags : pteFlags ||| ptePs = 0x87 := by decide
  unfold bigPage
  rw [UInt64.or_assoc, flags]
  exact toNat_or_low 21 (by omega) (by decide)

theorem bigPage_present (i j k : Fin 512) :
    bigPage (region i j k) ≠ 0 ∧ ¬bigPage (region i j k) &&& pteP = 0 ∧ bigPage (region i j k) &&& ptePs ≠ 0 := by
  have is := toNat_region i j k
  rw [absent_iff, Ne, Ne, not_big_iff, ← UInt64.toNat_inj, toNat_bigPage, UInt64.toNat_zero]
  omega

variable {address : UInt64} {path : List (Fin 512)} {table : Table} {index : Fin 512}

theorem translates {i j k : Fin 512} (inside : (region i j k).toNat = address.toNat / 2 ^ 21 * 2 ^ 21)
    (low : address.toNat < 2 ^ 48) :
    (target (bigPage (region i j k)) &&& ~~~0x1FFFFF) ||| (address &&& 0x1FFFFF) = address := by
  have base : (target (bigPage (region i j k)) &&& ~~~0x1FFFFF).toNat = address.toNat / 2 ^ 21 * 2 ^ 21 := by
    have field : (target (bigPage (region i j k)) &&& ~~~0x1FFFFF).toNat =
        (target (bigPage (region i j k))).toNat % 2 ^ 64 / 2 ^ 21 * 2 ^ 21 := toNat_and_field _ (by decide) (by decide)
    rw [field, target_toNat, toNat_bigPage, inside]
    omega
  have offset : (address &&& 0x1FFFFF).toNat = address.toNat % 2 ^ 21 / 2 ^ 0 * 2 ^ 0 :=
    toNat_and_field _ (by decide) (by decide)
  rw [← UInt64.toNat_inj, toNat_or_low 21 (by rw [base]; omega) (by rw [offset]; omega), base, offset]
  omega

def reach (mem : Mem) (root : Table) (path : List (Fin 512)) : Option Table :=
  Radix.descend child (entries mem) root path

def Present (mem : Mem) (root : Table) (i j k : Fin 512) : Prop :=
  ∃ table, reach mem root [i, j] = some table ∧ entries mem table k = bigPage (region i j k)

/-- The shape of the tables in memory; the pages are those known to be in use. -/
structure Formed (mem : Mem) (root : Table) (pages : List UInt64) : Prop where
  unshared : Radix.Unshared child (entries mem) root 2
  owned : ∀ path table, path.length ≤ 2 → reach mem root path = some table → table.base ∈ pages
  links : ∀ path table index, path.length < 2 → reach mem root path = some table →
    entries mem table index = 0 ∨ ∃ next : Table, entries mem table index = next.base ||| pteFlags
  leaves : ∀ i j k table, reach mem root [i, j] = some table →
    entries mem table k = 0 ∨ entries mem table k = bigPage (region i j k)
  lower : ∀ index : Fin 512, 256 ≤ index.val → entries mem root index = 0

variable {mem after : Mem} {root : Table} {pages : List UInt64}

theorem canonical_iff (address : UInt64) :
    canonical address = true ↔ address.toNat < 2 ^ 47 ∨ 2 ^ 64 - 2 ^ 47 ≤ address.toNat := by
  have bound := address.toNat_lt
  have shift : (address >>> 47).toNat = address.toNat / 2 ^ 47 := by
    rw [UInt64.toNat_shiftRight, Nat.shiftRight_eq_div_pow]
    rfl
  unfold canonical
  rw [decide_eq_true_iff, ← UInt64.toNat_inj, ← UInt64.toNat_inj, shift]
  show address.toNat / 2 ^ 47 = 0 ∨ address.toNat / 2 ^ 47 = 0x1FFFF ↔ _
  omega

theorem target_base (table : Table) : target table.base = table.base := by
  have small := table.small
  have aligned := table.aligned
  rw [← UInt64.toNat_inj, target_toNat]
  omega

theorem reach_root (mem : Mem) (root : Table) : reach mem root [] = some root := rfl

theorem reach_snoc (mem : Mem) (root : Table) (path : List (Fin 512)) (index : Fin 512) :
    reach mem root (path ++ [index]) = (reach mem root path).bind fun table => child (entries mem table index) :=
  Radix.descend_snoc path index

theorem reach_link {next : Table} (reached : reach mem root path = some table)
    (links : entries mem table index = next.base ||| pteFlags) : reach mem root (path ++ [index]) = some next := by
  rw [reach_snoc, reached, Option.bind_some, links, child_link]

theorem reach_zero (reached : reach mem root path = some table) (zero : entries mem table index = 0) :
    reach mem root (path ++ [index]) = none := by
  rw [reach_snoc, reached, Option.bind_some, zero, child_zero]

section
variable (formed : Formed mem root pages)
include formed

theorem Formed.linked {next : Table} (inner : path.length < 2)
    (reached : reach mem root path = some table) (further : reach mem root (path ++ [index]) = some next) :
    entries mem table index = next.base ||| pteFlags := by
  rcases formed.links path table index inner reached with zero | ⟨other, link⟩
  · rw [reach_zero reached zero] at further
    cases further
  · rw [reach_link reached link] at further
    cases further
    exact link

theorem Formed.walk_low (low : address.toNat < 2 ^ 47) :
    walk mem root.base address =
      (reach mem root [place 39 address, place 30 address]).bind fun table =>
        if entries mem table (place 21 address) = 0 then none else some address := by
  unfold walk
  rw [if_pos ((canonical_iff address).mpr (.inl low)), target_base]
  dsimp only
  have pml4e : word mem (root.base.toNat + 8 * slot 39 address) = entries mem root (place 39 address) := rfl
  rw [pml4e]
  rcases formed.links [] root (place 39 address) (by decide) (reach_root mem root) with zero | ⟨pdpt, link⟩
  · have none : reach mem root [place 39 address] = none := reach_zero (reach_root mem root) zero
    rw [zero, if_pos (by decide), show [place 39 address, place 30 address] = [place 39 address] ++ [place 30 address]
      from rfl, reach_snoc, none]
    rfl
  have atPdpt : reach mem root [place 39 address] = some pdpt := reach_link (reach_root mem root) link
  rw [link, if_neg (link_present pdpt).2.1, target_link]
  have pdpte : word mem (pdpt.base.toNat + 8 * slot 30 address) = entries mem pdpt (place 30 address) := rfl
  rw [pdpte]
  rcases formed.links [place 39 address] pdpt (place 30 address) (by simp) atPdpt with zero | ⟨pd, link⟩
  · have none : reach mem root [place 39 address, place 30 address] = none := reach_zero atPdpt zero
    rw [zero, if_pos (by decide), none]
    rfl
  have atPd : reach mem root [place 39 address, place 30 address] = some pd := reach_link atPdpt link
  rw [link, if_neg (link_present pd).2.1, if_neg (fun big => big (link_present pd).2.2), target_link, atPd]
  have pde : word mem (pd.base.toNat + 8 * slot 21 address) = entries mem pd (place 21 address) := rfl
  rw [pde, Option.bind_some]
  rcases formed.leaves _ _ (place 21 address) pd atPd with zero | big
  · rw [zero, if_pos (by decide), if_pos rfl]
  · obtain ⟨nonzero, present, ps⟩ := bigPage_present (place 39 address) (place 30 address) (place 21 address)
    rw [big, if_neg present, if_pos ps, if_neg nonzero, translates (region_of address (by omega)) (by omega)]

theorem Formed.walk_high (high : 2 ^ 47 ≤ address.toNat) :
    walk mem root.base address = none := by
  unfold walk
  by_cases fine : canonical address = true
  · have upper := (canonical_iff address).mp fine
    have slot := (slot_eq address).1
    have bound := address.toNat_lt
    have zero : word mem (root.base.toNat + 8 * Vmm.slot 39 address) = 0 :=
      formed.lower (place 39 address) (by
        show 256 ≤ Vmm.slot 39 address
        omega)
    rw [if_pos fine, target_base]
    dsimp only
    rw [zero, if_pos (by decide)]
  · rw [if_neg fine]

theorem Formed.walk_iff (address phys : UInt64) :
    walk mem root.base address = some phys ↔
      phys = address ∧ address.toNat < 2 ^ 47 ∧
        Present mem root (place 39 address) (place 30 address) (place 21 address) := by
  by_cases low : address.toNat < 2 ^ 47
  · rw [formed.walk_low low, Option.bind_eq_some_iff]
    constructor
    · rintro ⟨table, reached, found⟩
      split at found
      next => cases found
      next nonzero =>
        cases found
        exact ⟨rfl, low, table, reached, (formed.leaves _ _ _ table reached).resolve_left nonzero⟩
    · rintro ⟨rfl, _, table, reached, big⟩
      refine ⟨table, reached, if_neg ?_⟩
      rw [big]
      exact (bigPage_present _ _ _).1
  · rw [formed.walk_high (by omega)]
    constructor
    · intro found
      cases found
    · rintro ⟨_, is, _⟩
      exact absurd is low

theorem Formed.walk_isSome (address : UInt64) :
    (walk mem root.base address).isSome ↔ address.toNat < 2 ^ 47 ∧
      Present mem root (place 39 address) (place 30 address) (place 21 address) := by
  rw [Option.isSome_iff_exists]
  constructor
  · rintro ⟨phys, found⟩
    exact ((formed.walk_iff address phys).mp found).2
  · intro mapped
    exact ⟨address, (formed.walk_iff address address).mpr ⟨rfl, mapped⟩⟩

end

theorem Formed.new (blank : ∀ index, entries mem root index = 0) : Formed mem root (root.base :: pages) := by
  have only (path : List (Fin 512)) (table : Table) (reached : reach mem root path = some table) :
      path = [] ∧ table = root := by
    cases path with
    | nil =>
      cases reached
      exact ⟨rfl, rfl⟩
    | cons index rest =>
      unfold reach Radix.descend at reached
      rw [blank, child_zero] at reached
      cases reached
  refine ⟨?_, ?_, ?_, ?_, fun index _ => blank index⟩
  · intro path other table _ _ reached otherReached
    rw [(only path table reached).1, (only other table otherReached).1]
  · intro path table _ reached
    rw [(only path table reached).2]
    exact List.mem_cons_self
  · intro path table index _ reached
    rw [(only path table reached).2]
    exact .inl (blank index)
  · intro i j k table reached
    cases (only [i, j] table reached).1

structure Grows (before after : Mem) (root : Table) : Prop where
  tables : ∀ path table, path.length ≤ 2 → reach before root path = some table → reach after root path = some table
  present : ∀ i j k, Present before root i j k → Present after root i j k

theorem Grows.refl (mem : Mem) (root : Table) : Grows mem mem root := ⟨fun _ _ _ is => is, fun _ _ _ is => is⟩

theorem Grows.trans {first second third : Mem} (left : Grows first second root) (right : Grows second third root) :
    Grows first third root :=
  ⟨fun path table short is => right.tables path table short (left.tables path table short is),
    fun i j k is => right.present i j k (left.present i j k is)⟩

section
variable (formed : Formed mem root pages)
include formed

theorem Formed.kept (step : ∀ path : List (Fin 512), path.length ≤ 2 → reach after root path = reach mem root path)
    (inner : ∀ path found, path.length < 2 → reach mem root path = some found → entries after found = entries mem found)
    (last : ∀ i j k found, reach mem root [i, j] = some found →
      entries after found k = entries mem found k ∨ entries after found k = bigPage (region i j k)) :
    Formed after root pages ∧ Grows mem after root := by
  refine ⟨⟨?_, ?_, ?_, ?_, ?_⟩, fun path found short is => (step path short).trans is, ?_⟩
  · intro path other found short otherShort is otherIs
    exact formed.unshared short otherShort ((step path short).symm.trans is) ((step other otherShort).symm.trans otherIs)
  · intro path found short is
    exact formed.owned path found short ((step path short).symm.trans is)
  · intro path found position short is
    rw [step path (by omega)] at is
    rw [inner path found short is]
    exact formed.links path found position short is
  · intro i j k found is
    rw [step [i, j] (Nat.le_refl 2)] at is
    rcases last i j k found is with same | big
    · rw [same]
      exact formed.leaves i j k found is
    · exact .inr big
  · intro position upper
    rw [inner [] root (by decide) (reach_root mem root)]
    exact formed.lower position upper
  · rintro i j k ⟨found, is, was⟩
    refine ⟨found, (step [i, j] (Nat.le_refl 2)).trans is, ?_⟩
    rcases last i j k found is with same | big
    · exact same.trans was
    · exact big

theorem Formed.unused {page : Table} (new : page.base ∉ pages)
    (same : ∀ table, table ≠ page → entries after table = entries mem table) :
    Formed after root pages ∧ Grows mem after root := by
  have kept (path : List (Fin 512)) (table : Table) (short : path.length ≤ 2)
      (reached : reach mem root path = some table) : entries after table = entries mem table :=
    same table fun is => new (is ▸ formed.owned path table short reached)
  refine formed.kept ?_ (fun path found inner => kept path found (by omega)) fun i j k found is =>
    .inl (congrFun (kept [i, j] found (Nat.le_refl 2) is) k)
  exact Radix.descend_congr fun before table inner => kept before table (by omega)

theorem Formed.link {path : List (Fin 512)} {table next : Table} {index : Fin 512}
    (inner : path.length < 2) (reached : reach mem root path = some table) (empty : entries mem table index = 0)
    (lower : path = [] → index.val < 256) (new : next.base ∉ pages) (blank : ∀ position, entries mem next position = 0)
    (stored : entries after = Radix.set (entries mem) table index (next.base ||| pteFlags)) :
    Formed after root (next.base :: pages) ∧ Grows mem after root ∧ reach after root (path ++ [index]) = some next := by
  have unreached (other : List (Fin 512)) (short : other.length ≤ 2) : reach mem root other ≠ some next :=
    fun is => new (formed.owned other next short is)
  have absent : child (entries mem table index) = none := by rw [empty, child_zero]
  have childless (position : Fin 512) : child (entries mem next position) = none := by rw [blank, child_zero]
  have step (other : List (Fin 512)) (short : other.length ≤ 2) :
      reach after root other = if other = path ++ [index] then some next else reach mem root other := by
    unfold reach
    rw [stored]
    exact Radix.descend_set_link formed.unshared reached inner absent (child_link next) unreached childless other short
  have missing : reach mem root (path ++ [index]) = none := reach_zero reached empty
  have old (other : List (Fin 512)) (found : Table) (short : other.length ≤ 2)
      (is : reach mem root other = some found) : reach after root other = some found := by
    rw [step other short, if_neg fun same => ?_, is]
    rw [same, missing] at is
    cases is
  -- The tables of the last level keep their entries.
  have leafTable (i j : Fin 512) (found : Table) (is : reach mem root [i, j] = some found) :
      entries after found = entries mem found := by
    rw [stored]
    funext position
    refine Radix.set_other fun both => ?_
    rw [both.1] at is
    have same := formed.unshared (by simp) (by omega) is reached
    rw [← same] at inner
    exact Nat.lt_irrefl 2 inner
  refine ⟨⟨?_, ?_, ?_, ?_, ?_⟩, ⟨old, ?_⟩, ?_⟩
  · rw [stored]
    exact formed.unshared.link reached inner absent (child_link next) unreached childless
  · intro other found short is
    rw [step other short] at is
    split at is
    next =>
      cases is
      exact List.mem_cons_self
    next => exact List.mem_cons_of_mem _ (formed.owned other found short is)
  · intro other found position short is
    rw [step other (by omega)] at is
    rw [stored]
    unfold Radix.set
    split
    next => exact .inr ⟨next, rfl⟩
    next =>
      split at is
      next =>
        cases is
        exact .inl (blank position)
      next => exact formed.links other found position short is
  · intro i j k found is
    rw [step [i, j] (Nat.le_refl 2)] at is
    split at is
    next =>
      cases is
      refine .inl ?_
      rw [stored, Radix.set_other fun both => ?_, blank]
      exact unreached path (by omega) (both.1 ▸ reached)
    next =>
      rw [leafTable i j found is]
      exact formed.leaves i j k found is
  · intro position upper
    rw [stored, Radix.set_other fun both => ?_]
    · exact formed.lower position upper
    · have atRoot : path = [] :=
        formed.unshared (by omega) (Nat.zero_le 2) reached (both.1 ▸ reach_root mem root)
      have := lower atRoot
      rw [← both.2] at this
      omega
  · rintro i j k ⟨found, is, big⟩
    exact ⟨found, old [i, j] found (Nat.le_refl 2) is, (congrFun (leafTable i j found is) k).trans big⟩
  · rw [step _ (by simp; omega), if_pos rfl]

theorem Formed.leaf {i j k : Fin 512}
    (reached : reach mem root [i, j] = some table)
    (stored : entries after = Radix.set (entries mem) table k (bigPage (region i j k))) :
    Formed after root pages ∧ Grows mem after root ∧ Present after root i j k := by
  have step (other : List (Fin 512)) (short : other.length ≤ 2) : reach after root other = reach mem root other := by
    unfold reach
    rw [stored]
    exact Radix.descend_set_last formed.unshared reached rfl other short
  have ⟨kept, grows⟩ : Formed after root pages ∧ Grows mem after root := by
    refine formed.kept step (fun other found short is => funext fun position => ?_) fun x y z found is => ?_
    · rw [stored]
      refine Radix.set_other fun both => ?_
      have same := formed.unshared (by omega) (by simp) (both.1 ▸ is) reached
      rw [same] at short
      exact Nat.lt_irrefl 2 short
    · rw [stored]
      unfold Radix.set
      split
      next both =>
        obtain ⟨rfl, rfl⟩ := both
        cases formed.unshared (by simp) (by simp) is reached
        exact .inr rfl
      next => exact .inl rfl
  refine ⟨kept, grows, table, (step [i, j] (Nat.le_refl 2)).trans reached, ?_⟩
  rw [stored]
  exact Radix.set_same _ _ _ _

end

end GWKernel.Vmm
