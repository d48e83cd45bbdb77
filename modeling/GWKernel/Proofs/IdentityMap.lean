import GWKernel.Proofs.PageTables

/-! What `vmm_init` and `vmm_map_physical_range` do to the page tables, over any sequence
of calls. -/

namespace GWKernel.Vmm
open Lib

variable {π : Type} {allocPage : PageSource π} {owns : π → List UInt64 → Prop} {enough : Prop}
  {state : State π} {root : Table} {pages : List UInt64}

/-- `pmm_alloc_page` returns 0 or a page that is not in use. -/
structure PageContract (allocPage : PageSource π) (owns : π → List UInt64 → Prop) : Prop where
  refuse : ∀ {pmm pages}, owns pmm pages → (allocPage pmm).1 = 0 → owns (allocPage pmm).2 pages
  grant : ∀ {pmm pages}, owns pmm pages → (allocPage pmm).1 ≠ 0 →
    (allocPage pmm).1.toNat % 2 ^ 12 = 0 ∧ (allocPage pmm).1.toNat < 2 ^ 52 ∧ (allocPage pmm).1 ∉ pages ∧
      owns (allocPage pmm).2 ((allocPage pmm).1 :: pages)

theorem entries_fill (mem : Mem) (table : Table) (contents : Nat → UInt64) {count : Nat} (inside : count ≤ 512) :
    let filled := forRange 0 count (fun index mem => setWord mem (table.base.toNat + 8 * index) (contents index)) mem
    (∀ index : Fin 512, index.val < count → entries filled table index = contents index) ∧
      ∀ other, other ≠ table → entries filled other = entries mem other := by
  refine forRange_rule _ _
    (fun done current => (∀ index : Fin 512, index.val < done → entries current table index = contents index) ∧
      ∀ other, other ≠ table → entries current other = entries mem other)
    (Nat.zero_le count) ⟨fun _ none => absurd none (Nat.not_lt_zero _), fun _ _ => rfl⟩ ?_
  intro done current _ below ⟨written, others⟩
  have stored := entries_setWord current table ⟨done, by omega⟩ (contents done)
  dsimp only at stored ⊢
  rw [stored]
  constructor
  · intro index inside
    unfold Radix.set
    split
    next here => rw [here.2]
    next elsewhere =>
      have apart : index.val ≠ done := fun is => elsewhere ⟨rfl, Fin.ext is⟩
      exact written index (by omega)
  · intro other apart
    rw [← others other apart]
    funext index
    exact Radix.set_other fun both => apart both.1

theorem storeAll_ends (table : Table) (contents : Nat → UInt64) :
    Ends enough (storeAll table.base contents) state fun _ final =>
      (∀ index, entries final.mem table index = contents index) ∧
      (∀ other, other ≠ table → entries final.mem other = entries state.mem other) ∧
      final.pml4 = state.pml4 ∧ final.pmm = state.pmm := by
  obtain ⟨written, others⟩ := entries_fill state.mem table contents (Nat.le_refl 512)
  unfold storeAll
  refine .modify ?_
  dsimp only
  generalize forRange 0 512 _ state.mem = filled at written others ⊢
  exact ⟨fun index => written index index.isLt, others, rfl, rfl⟩

theorem allocTable_ends (contract : PageContract allocPage owns) (held : owns state.pmm pages) :
    Ends enough (allocTable allocPage) state fun value final => final.pml4 = state.pml4 ∧
      ((value = 0 ∧ final.mem = state.mem ∧ owns final.pmm pages) ∨
        ∃ table : Table, value = table.base ∧ value ≠ 0 ∧ table.base ∉ pages ∧ owns final.pmm (table.base :: pages) ∧
          (∀ index, entries final.mem table index = 0) ∧
          ∀ other, other ≠ table → entries final.mem other = entries state.mem other) := by
  have page : Ends enough (pmmAllocPage allocPage) state fun value final =>
      value = (allocPage state.pmm).1 ∧ final = { state with pmm := (allocPage state.pmm).2 } :=
    .pure ⟨rfl, rfl⟩
  refine .bind page fun value between is => ?_
  obtain ⟨rfl, rfl⟩ := is
  refine .branch (fun zero => .pure ⟨rfl, .inl ⟨rfl, rfl, contract.refuse held zero⟩⟩) fun nonzero => ?_
  obtain ⟨aligned, small, new, granted⟩ := contract.grant held nonzero
  refine .bind (storeAll_ends ⟨_, aligned, small⟩ fun _ => 0) fun _ final stored => .pure ?_
  obtain ⟨blank, others, pml4, pmm⟩ := stored
  exact ⟨pml4, .inr ⟨⟨_, aligned, small⟩, rfl, nonzero, new, pmm ▸ granted, blank, others⟩⟩

theorem store_ends (table : Table) (index : Fin 512) (value : UInt64) :
    Ends enough (store table.base index value) state fun _ final =>
      entries final.mem = Radix.set (entries state.mem) table index value ∧ final.pml4 = state.pml4 ∧
        final.pmm = state.pmm :=
  .modify ⟨entries_setWord _ _ _ _, rfl, rfl⟩

theorem load_ends (table : Table) (index : Fin 512) :
    Ends enough (load table.base index) state fun value final => value = entries state.mem table index ∧ final = state := by
  unfold load entries
  exact .get_then (.pure ⟨rfl, rfl⟩)

/-- The tables are formed, and the page allocator knows that their pages are in use. -/
def Ready (owns : π → List UInt64 → Prop) (state : State π) (root : Table) : Prop :=
  state.pml4 = root.base ∧ ∃ pages, Formed state.mem root pages ∧ owns state.pmm pages

def Extends (owns : π → List UInt64 → Prop) (before after : State π) (root : Table) : Prop :=
  Ready owns after root ∧ Grows before.mem after.mem root

theorem Extends.trans {first second third : State π} (left : Extends owns first second root)
    (right : Extends owns second third root) : Extends owns first third root :=
  ⟨right.1, left.2.trans right.2⟩

theorem Ready.refl (ready : Ready owns state root) : Extends owns state state root := ⟨ready, .refl _ _⟩

section
variable (contract : PageContract allocPage owns) (ready : Ready owns state root)
include contract ready

theorem link_ends {path : List (Fin 512)} {table : Table} (inner : path.length < 2)
    (reached : reach state.mem root path = some table) (index : Fin 512) (empty : entries state.mem table index = 0)
    (lower : path = [] → index.val < 256) {β : Type}
    {failure : Code π β} {rest : UInt64 → Code π β} {post : β → State π → Prop}
    (fails : ∀ final, Extends owns state final root → Ends enough failure final post)
    (succeeds : ∀ (next : Table) final, Extends owns state final root →
      reach final.mem root (path ++ [index]) = some next → (∀ position, entries final.mem next position = 0) →
      (∀ position, position ≠ index → entries final.mem table position = entries state.mem table position) →
      Ends enough (rest next.base) final post) :
    Ends enough (do
      let made ← allocTable allocPage
      if made = 0 then failure
      else do
        store table.base index (made ||| pteFlags)
        rest made) state post := by
  obtain ⟨pml4, pages, formed, held⟩ := ready
  refine .bind (allocTable_ends contract held) fun value between made => ?_
  obtain ⟨samePml4, ⟨rfl, same, held⟩ | ⟨next, rfl, nonzero, new, held, blank, others⟩⟩ := made
  · refine .branch (fun _ => fails between ⟨⟨samePml4.trans pml4, pages, ?_, held⟩, ?_⟩) fun no => absurd rfl no
    · rw [same]
      exact formed
    · rw [same]
      exact .refl _ _
  · refine .branch (fun zero => absurd zero nonzero) fun _ => ?_
    obtain ⟨stillFormed, grows⟩ := formed.unused new others
    have stillReached := grows.tables path table (by omega) reached
    have differs : table ≠ next := fun is => new (is ▸ formed.owned path table (by omega) reached)
    have stillEmpty : entries between.mem table index = 0 := by rw [others table differs, empty]
    refine .bind (store_ends table index (next.base ||| pteFlags)) fun _ final stored => ?_
    obtain ⟨stored, storedPml4, storedPmm⟩ := stored
    obtain ⟨linked, more, found⟩ := stillFormed.link inner stillReached stillEmpty lower new blank stored
    refine succeeds next final ⟨⟨(storedPml4.trans samePml4).trans pml4, _, linked, storedPmm ▸ held⟩, grows.trans more⟩
      found (fun position => ?_) fun position apart => ?_
    · rw [stored, Radix.set_other fun both => differs both.1.symm, blank]
    · rw [stored, Radix.set_other fun both => apart both.2, others table differs]

theorem ensure_ends {path : List (Fin 512)} {table : Table} (inner : path.length < 2)
    (reached : reach state.mem root path = some table) (index : Fin 512) (lower : path = [] → index.val < 256) :
    Ends enough (ensure allocPage table.base index) state fun ok final =>
      Extends owns state final root ∧ (ok = true → ∃ next, reach final.mem root (path ++ [index]) = some next) := by
  obtain ⟨_, pages, formed, _⟩ := id ready
  refine .bind (load_ends table index) fun value between is => ?_
  obtain ⟨rfl, rfl⟩ := is
  rcases formed.links path table index inner reached with zero | ⟨next, link⟩
  · rw [zero]
    refine .branch (fun _ => ?_) fun no => absurd (by decide) no
    refine link_ends contract ready inner reached index zero lower (fun final grown => ?_) fun next final grown found _ _ => ?_
    · exact .pure ⟨grown, fun no => nomatch no⟩
    · exact .pure ⟨grown, fun _ => ⟨next, found⟩⟩
  · rw [link]
    refine .branch (fun zero => absurd zero (link_present next).2.1) fun _ => ?_
    exact .pure ⟨ready.refl, fun _ => ⟨next, reach_link reached link⟩⟩

variable {first : Table} {address : UInt64} (kernel : reach state.mem root [0] = some first)
include kernel

theorem ensurePdpt_ends (low : address.toNat < 2 ^ 47) :
    Ends enough (ensurePdpt allocPage root.base address) state fun ok final => Extends owns state final root ∧
      (ok = true → ∃ next, reach final.mem root [place 39 address] = some next) := by
  have lower : (place 39 address).val < 256 := by
    have slots := slot_eq address
    show slot 39 address < 256
    omega
  have made := @ensure_ends _ _ _ enough _ _ contract ready [] root (by decide) rfl (place 39 address) fun _ => lower
  refine .branch (fun _ => made) fun zero => ?_
  have is : place 39 address = 0 := Fin.ext (not_not.mp zero)
  rw [is]
  exact .pure ⟨ready.refl, fun _ => ⟨first, kernel⟩⟩

theorem mapPage_ends (aligned : address.toNat % 2 ^ 21 = 0) (low : address.toNat < 2 ^ 47) :
    Ends enough (mapPage allocPage address) state fun ok final => Extends owns state final root ∧
      (ok = true → Present final.mem root (place 39 address) (place 30 address) (place 21 address)) := by
  have itself : region (place 39 address) (place 30 address) (place 21 address) = address := by
    rw [← UInt64.toNat_inj, region_of address (by omega)]
    omega
  unfold mapPage
  refine .get_then ?_
  rw [ready.1]
  refine .bind (ensurePdpt_ends contract ready kernel low) fun ok middle found => ?_
  obtain ⟨extended, leads⟩ := found
  refine .branch (fun yes => ?_) fun no => .pure ⟨extended, fun yes => nomatch yes⟩
  obtain ⟨pdpt, atPdpt⟩ := leads yes
  obtain ⟨_, _, formed, _⟩ := extended.1
  refine .bind (load_ends root (place 39 address)) fun value between is => ?_
  obtain ⟨rfl, rfl⟩ := is
  rw [formed.linked (by decide) (reach_root _ _) atPdpt, pointer_link]
  refine .bind (ensure_ends contract extended.1 (by simp) atPdpt (place 30 address) fun no => nomatch no)
    fun ok final found => ?_
  obtain ⟨further, leads⟩ := found
  have extended := extended.trans further
  refine .branch (fun yes => ?_) fun no => .pure ⟨extended, fun yes => nomatch yes⟩
  obtain ⟨pd, atPd⟩ := leads yes
  obtain ⟨pml4, pages, formed, held⟩ := extended.1
  have atPdpt := further.2.tables _ _ (by simp) atPdpt
  refine .bind (load_ends pdpt (place 30 address)) fun value between is => ?_
  obtain ⟨rfl, rfl⟩ := is
  rw [formed.linked (by simp) atPdpt atPd, pointer_link]
  refine .bind (store_ends pd (place 21 address) (bigPage address)) fun _ last stored => .pure ?_
  obtain ⟨stored, samePml4, samePmm⟩ := stored
  have value : bigPage address = bigPage (region (place 39 address) (place 30 address) (place 21 address)) := by
    rw [itself]
  rw [value] at stored
  obtain ⟨mapped, more, present⟩ := formed.leaf atPd stored
  exact ⟨extended.trans ⟨⟨samePml4.trans pml4, pages, mapped, samePmm ▸ held⟩, more⟩, fun _ => present⟩

theorem mapLoop_ends (stop : UInt64) (limit : stop.toNat ≤ 2 ^ 47) (stopAligned : stop.toNat % 2 ^ 21 = 0) (fuel : Nat)
    (aligned : address.toNat % 2 ^ 21 = 0) :
    Ends (stop.toNat - address.toNat < fuel * 2 ^ 21) (mapLoop allocPage stop fuel address) state fun ok final =>
      Extends owns state final root ∧ (ok = true → ∀ inside : UInt64, address.toNat ≤ inside.toNat →
        inside.toNat < stop.toNat → Present final.mem root (place 39 inside) (place 30 inside) (place 21 inside)) := by
  induction fuel generalizing state address with
  | zero => exact .exhausted (by omega)
  | succ fuel ih =>
    unfold mapLoop
    refine .branch (fun below => ?_) fun above => .pure ⟨ready.refl, fun _ inside low high => ?_⟩
    · have below : address.toNat < stop.toNat := below
      have next : (address + 0x200000).toNat = address.toNat + 2 ^ 21 := by
        have size : (0x200000 : UInt64).toNat = 2 ^ 21 := by decide
        rw [UInt64.toNat_add, size]
        omega
      refine .bind (mapPage_ends contract ready kernel aligned (by omega)) fun ok middle mapped => ?_
      obtain ⟨extended, present⟩ := mapped
      refine .branch (fun yes => ?_) fun no => .pure ⟨extended, fun yes => nomatch yes⟩
      have kernel := extended.2.tables [0] first (by simp) kernel
      refine (ih extended.1 kernel (by omega)).mono (by omega) fun ok final rest => ?_
      obtain ⟨further, others⟩ := rest
      refine ⟨extended.trans further, fun yes' inside low high => ?_⟩
      by_cases here : inside.toNat < address.toNat + 2 ^ 21
      · obtain ⟨pml4, pdpt, pd⟩ := @place_congr inside address (by omega)
        rw [pml4, pdpt, pd]
        exact further.2.present _ _ _ (present yes)
      · exact others yes' inside (by omega) high
    · have above : ¬address.toNat < stop.toNat := above
      omega

theorem vmmMapPhysicalRange_ends {phys size : UInt64} (bounded : phys.toNat + size.toNat + 2 ^ 21 ≤ 2 ^ 47) (fuel : Nat) :
    Ends (2 ^ 26 < fuel) (vmmMapPhysicalRange allocPage fuel phys size) state fun ok final =>
      Extends owns state final root ∧ (ok = true → ∀ inside : UInt64, phys.toNat ≤ inside.toNat →
        inside.toNat < phys.toNat + size.toNat →
        Present final.mem root (place 39 inside) (place 30 inside) (place 21 inside)) := by
  have start : (phys &&& ~~~0x1FFFFF).toNat = phys.toNat % 2 ^ 64 / 2 ^ 21 * 2 ^ 21 :=
    toNat_and_field _ (by decide) (by decide)
  have sum : (phys + size + 0x1FFFFF).toNat = phys.toNat + size.toNat + 0x1FFFFF := by
    have round : (0x1FFFFF : UInt64).toNat = 0x1FFFFF := by decide
    rw [UInt64.toNat_add, UInt64.toNat_add, round]
    omega
  have stop : ((phys + size + 0x1FFFFF) &&& ~~~0x1FFFFF).toNat =
      (phys + size + 0x1FFFFF).toNat % 2 ^ 64 / 2 ^ 21 * 2 ^ 21 := toNat_and_field _ (by decide) (by decide)
  rw [sum] at stop
  unfold vmmMapPhysicalRange
  refine .get_then (.branch (fun _ => .pure ⟨ready.refl, fun yes => nomatch yes⟩) fun _ => ?_)
  have looped := mapLoop_ends contract ready kernel ((phys + size + 0x1FFFFF) &&& ~~~0x1FFFFF) (by omega) (by omega)
    fuel (show (phys &&& ~~~0x1FFFFF).toNat % 2 ^ 21 = 0 by omega)
  refine looped.mono (by omega) fun ok final mapped => ⟨mapped.1, fun yes inside low high => ?_⟩
  exact mapped.2 yes inside (by omega) (by omega)

end

theorem fill_ends (ready : Ready owns state root) {i j : Fin 512} {pd : Table}
    (reached : reach state.mem root [i, j] = some pd) {contents : Nat → UInt64}
    (are : ∀ k : Fin 512, contents k = bigPage (region i j k)) :
    Ends enough (storeAll pd.base contents) state fun _ final => Extends owns state final root ∧
      (∀ k, Present final.mem root i j k) ∧
      ∀ other, other ≠ pd → entries final.mem other = entries state.mem other := by
  obtain ⟨pml4, pages, formed, held⟩ := ready
  have others := (entries_fill state.mem pd contents (Nat.le_refl 512)).2
  have filled := forRange_rule (fun index mem => setWord mem (pd.base.toNat + 8 * index) (contents index)) state.mem
    (fun done mem => Formed mem root pages ∧ Grows state.mem mem root ∧
      ∀ k : Fin 512, k.val < done → Present mem root i j k)
    (Nat.zero_le 512) ⟨formed, .refl _ _, fun _ none => absurd none (Nat.not_lt_zero _)⟩ ?_
  · unfold storeAll
    refine .modify ?_
    dsimp only at filled others ⊢
    generalize forRange 0 512 _ state.mem = mem at filled others ⊢
    exact ⟨⟨⟨pml4, pages, filled.1, held⟩, filled.2.1⟩, fun k => filled.2.2 k k.isLt, others⟩
  · intro done mem _ below ⟨formed, grows, present⟩
    have stored := entries_setWord mem pd ⟨done, below⟩ (bigPage (region i j ⟨done, below⟩))
    dsimp only at stored ⊢
    rw [show contents done = bigPage (region i j ⟨done, below⟩) from are ⟨done, below⟩]
    obtain ⟨stillFormed, more, here⟩ := formed.leaf (grows.tables _ _ (by simp) reached) stored
    refine ⟨stillFormed, grows.trans more, fun k inside => ?_⟩
    by_cases is : k.val = done
    · obtain rfl : k = ⟨done, below⟩ := Fin.ext is
      exact here
    · exact more.present i j k (present k (by omega))

theorem gigabyte_region {g : Nat} (small : g < 512) (k : Fin 512) :
    UInt64.ofNat g * 0x40000000 + UInt64.ofNat k * 0x200000 = region 0 ⟨g, small⟩ k := by
  rw [← UInt64.toNat_inj, toNat_region, UInt64.toNat_add, UInt64.toNat_mul, UInt64.toNat_mul, UInt64.toNat_ofNat',
    UInt64.toNat_ofNat']
  show (g % 2 ^ 64 * 0x40000000 % 2 ^ 64 + k.val % 2 ^ 64 * 0x200000 % 2 ^ 64) % 2 ^ 64 =
    0 * 2 ^ 39 + g * 2 ^ 30 + k * 2 ^ 21
  omega

theorem initRegions_ends (contract : PageContract allocPage owns) {pdpt : Table} (rounds : Nat) {g : Nat}
    (limit : g + rounds ≤ 4) (ready : Ready owns state root) (kernel : reach state.mem root [0] = some pdpt)
    (empty : ∀ index : Fin 512, g ≤ index.val → entries state.mem pdpt index = 0) :
    Ends enough (initRegions allocPage pdpt.base rounds g) state fun ok final => ok = true →
      Extends owns state final root ∧
        ∀ j k : Fin 512, g ≤ j.val → j.val < g + rounds → Present final.mem root 0 j k := by
  induction rounds generalizing state g with
  | zero => exact .pure fun _ => ⟨ready.refl, fun j _ low high => by omega⟩
  | succ rounds ih =>
    unfold initRegions
    have index : g < 512 := by omega
    refine link_ends contract ready (by simp) kernel ⟨g, index⟩ (empty _ (Nat.le_refl g)) (fun no => nomatch no)
      (fun final _ => .pure fun no => nomatch no) fun pd middle linked atPd _ others => ?_
    refine .bind (fill_ends linked.1 atPd fun k => ?_) fun _ final filled => ?_
    · exact congrArg bigPage (gigabyte_region (by omega) k)
    · obtain ⟨extended, present, rest⟩ := filled
      have still := (linked.trans extended).2.tables _ _ (by simp) kernel
      refine (ih (by omega) extended.1 still fun position above => ?_).imp fun ok last done yes => ?_
      · have differs : pdpt ≠ pd := by
          rintro rfl
          obtain ⟨_, _, formed, _⟩ := linked.1
          cases formed.unshared (by simp) (by simp) (linked.2.tables _ _ (by simp) kernel) atPd
        have later : position ≠ ⟨g, index⟩ := by
          rintro rfl
          exact absurd above (by simp)
        rw [rest pdpt differs, others position later, empty position (by omega)]
      · obtain ⟨further, mapped⟩ := done yes
        refine ⟨(linked.trans extended).trans further, fun j k low high => ?_⟩
        by_cases here : j.val = g
        · obtain rfl : j = ⟨g, index⟩ := Fin.ext here
          exact further.2.present _ _ _ (present k)
        · exact mapped j k (by omega) (by omega)

theorem vmmInit_ends (contract : PageContract allocPage owns) (held : owns state.pmm pages) :
    Ends enough (vmmInit allocPage) state fun ok final => ok = true → ∃ root, Ready owns final root ∧
      (∃ pdpt, reach final.mem root [0] = some pdpt) ∧
      ∀ j k : Fin 512, j.val < 4 → Present final.mem root 0 j k := by
  unfold vmmInit
  refine .bind (allocTable_ends contract held) fun value between made => ?_
  refine .modify_then ?_
  obtain ⟨_, ⟨rfl, _⟩ | ⟨root, rfl, nonzero, new, held, blank, _⟩⟩ := made
  · exact .branch (fun _ => .pure fun no => nomatch no) fun no => absurd rfl no
  refine .branch (fun zero => absurd zero nonzero) fun _ => ?_
  have ready : Ready owns { between with pml4 := root.base } root := ⟨rfl, _, .new blank, held⟩
  refine link_ends contract ready (by decide) (reach_root _ _) 0 (blank 0) (fun _ => by decide)
    (fun final _ => .pure fun no => nomatch no) fun pdpt middle linked atPdpt empty _ => ?_
  refine (initRegions_ends contract 4 (by decide) linked.1 atPdpt fun index _ => empty index).imp
    fun ok final done yes => ?_
  obtain ⟨extended, present⟩ := done yes
  exact ⟨root, extended.1, ⟨pdpt, extended.2.tables _ _ (by simp) atPdpt⟩,
    fun j k low => present j k (Nat.zero_le _) (by omega)⟩

inductive Step (allocPage : PageSource π) : State π → UInt64 × UInt64 → State π → Prop where
  | call {before after : State π} {phys size : UInt64} {fuel : Nat} {ok : Bool}
      (bounded : phys.toNat + size.toNat + 2 ^ 21 ≤ 2 ^ 47)
      (returned : vmmMapPhysicalRange allocPage fuel phys size before = some (ok, after)) :
      Step allocPage before (phys, size) after

structure Sound (owns : π → List UInt64 → Prop) (state : State π) (root : Table) : Prop where
  ready : Ready owns state root
  kernel : ∃ pdpt, reach state.mem root [0] = some pdpt
  low : ∀ j k : Fin 512, j.val < 4 → Present state.mem root 0 j k

section
variable (sound : Sound owns state root)
include sound

theorem Sound.extends {after : State π} (grown : Extends owns state after root) :
    Sound owns after root := by
  obtain ⟨pdpt, kernel⟩ := sound.kernel
  exact ⟨grown.1, ⟨pdpt, grown.2.tables _ _ (by simp) kernel⟩,
    fun j k small => grown.2.present _ _ _ (sound.low j k small)⟩

omit sound in
theorem Sound.step (contract : PageContract allocPage owns) {before after : State π} {call : UInt64 × UInt64}
    (sound : Sound owns before root) (moves : Step allocPage before call after) : Sound owns after root := by
  cases moves with
  | call bounded returned =>
    obtain ⟨pdpt, kernel⟩ := sound.kernel
    exact sound.extends ((vmmMapPhysicalRange_ends contract sound.ready kernel bounded _).2 _ _ returned).1

theorem Sound.walk_isSome (address : UInt64) :
    (walk state.mem state.pml4 address).isSome ↔ address.toNat < 2 ^ 47 ∧
      Present state.mem root (place 39 address) (place 30 address) (place 21 address) := by
  obtain ⟨pml4, pages, formed, _⟩ := sound.ready
  rw [pml4]
  exact formed.walk_isSome address

theorem Sound.identity {address phys : UInt64}
    (found : walk state.mem state.pml4 address = some phys) : phys = address := by
  obtain ⟨pml4, pages, formed, _⟩ := sound.ready
  rw [pml4] at found
  exact ((formed.walk_iff address phys).mp found).1

theorem Sound.low_mapped {address : UInt64} (low : address.toNat < 2 ^ 32) :
    (walk state.mem state.pml4 address).isSome := by
  have slots := slot_eq address
  refine (sound.walk_isSome address).mpr ⟨by omega, ?_⟩
  have is : place 39 address = 0 := Fin.ext (by
    show slot 39 address = 0
    omega)
  rw [is]
  refine sound.low _ _ ?_
  show slot 30 address < 4
  omega

end

/-- After any calls, one more call returns and leaves an identity map that has only grown. -/
theorem mapping_stays_identity (contract : PageContract allocPage owns) {boot first : State π}
    (held : owns boot.pmm pages) (started : vmmInit allocPage boot = some (true, first))
    {calls : List (UInt64 × UInt64)} (run : Run (Step allocPage) first calls state) {phys size : UInt64}
    (bounded : phys.toNat + size.toNat + 2 ^ 21 ≤ 2 ^ 47) {fuel : Nat} (enough : 2 ^ 26 < fuel) :
    ∃ ok after, vmmMapPhysicalRange allocPage fuel phys size state = some (ok, after) ∧
      (∀ address found, walk after.mem after.pml4 address = some found → found = address) ∧
      (∀ address, (walk state.mem state.pml4 address).isSome → (walk after.mem after.pml4 address).isSome) ∧
      (∀ address : UInt64, address.toNat < 2 ^ 32 → (walk after.mem after.pml4 address).isSome) ∧
      (ok = true → ∀ address : UInt64, phys.toNat ≤ address.toNat → address.toNat < phys.toNat + size.toNat →
        (walk after.mem after.pml4 address).isSome) := by
  obtain ⟨root, ready, kernel, low⟩ := (@vmmInit_ends _ _ _ True _ _ contract held).2 true first started rfl
  have kept : ∀ before call after, Sound owns before root → Step allocPage before call after → Sound owns after root :=
    fun _ _ _ sound moves => sound.step contract moves
  have sound : Sound owns state root := run.preserves kept ⟨ready, kernel, low⟩
  obtain ⟨pdpt, kernel⟩ := sound.kernel
  obtain ⟨ok, after, returned, grown, mapped⟩ :=
    (vmmMapPhysicalRange_ends contract sound.ready kernel bounded fuel).returns enough
  have final := sound.extends grown
  refine ⟨ok, after, returned, fun _ _ found => final.identity found, fun address was => ?_,
    fun _ low => final.low_mapped low, fun yes address above below => ?_⟩
  · obtain ⟨small, present⟩ := (sound.walk_isSome address).mp was
    exact (final.walk_isSome address).mpr ⟨small, grown.2.present _ _ _ present⟩
  · exact (final.walk_isSome address).mpr ⟨by omega, mapped yes address above below⟩

def countingPages : PageSource Nat := fun next =>
  if next < 100 then (UInt64.ofNat (next * 2 ^ 12), next + 1) else (0, next)

def Counted (next : Nat) (pages : List UInt64) : Prop := 0 < next ∧ ∀ page ∈ pages, page.toNat < next * 2 ^ 12

theorem countingPages_contract : PageContract countingPages Counted := by
  have value {next : Nat} (inside : next < 100) : (UInt64.ofNat (next * 2 ^ 12)).toNat = next * 2 ^ 12 :=
    UInt64.toNat_ofNat_of_lt' (by
      show _ < 2 ^ 64
      omega)
  constructor
  · intro next pages counted zero
    unfold countingPages at zero ⊢
    split at zero
    next inside =>
      have impossible := value inside
      dsimp only at zero
      rw [zero, UInt64.toNat_zero] at impossible
      have positive := counted.1
      omega
    next outside =>
      rw [if_neg outside]
      exact counted
  · intro next pages counted nonzero
    unfold countingPages at nonzero ⊢
    split at nonzero
    next inside =>
      rw [if_pos inside]
      dsimp only
      have is := value inside
      have more : Counted (next + 1) (UInt64.ofNat (next * 2 ^ 12) :: pages) := by
        refine ⟨Nat.succ_pos next, fun page member => ?_⟩
        rcases List.mem_cons.mp member with here | old
        · rw [here, is]
          omega
        · exact Nat.lt_of_lt_of_le (counted.2 page old) (Nat.mul_le_mul_right _ (Nat.le_succ next))
      refine ⟨by omega, by omega, fun member => ?_, more⟩
      have below := counted.2 _ member
      omega
    next => exact absurd rfl nonzero

theorem mapping_stays_identity_from_start :
    ∃ first, vmmInit countingPages ⟨fun _ => 0xFF, 0, 1⟩ = some (true, first) ∧
      ∃ ok after, vmmMapPhysicalRange countingPages (2 ^ 27) 0x8000000000 0x1000 first = some (ok, after) ∧
        (ok = true → (walk after.mem after.pml4 0x8000000FFF).isSome) := by
  have started : (vmmInit countingPages ⟨fun _ => 0xFF, 0, 1⟩).map (fun outcome => outcome.1) = some true := by
    decide +kernel
  obtain ⟨⟨ok, first⟩, started, is⟩ := Option.map_eq_some_iff.mp started
  obtain rfl : ok = true := is
  have held : Counted 1 [] := ⟨Nat.one_pos, fun _ none => nomatch none⟩
  have bounded : (0x8000000000 : UInt64).toNat + (0x1000 : UInt64).toNat + 2 ^ 21 ≤ 2 ^ 47 := by decide
  have enough : 2 ^ 26 < 2 ^ 27 := by decide
  obtain ⟨ok, after, returned, _, _, _, mapped⟩ :=
    mapping_stays_identity countingPages_contract held started (.done first) bounded enough
  exact ⟨first, started, ok, after, returned, fun yes => mapped yes 0x8000000FFF (by decide) (by decide)⟩

end GWKernel.Vmm
