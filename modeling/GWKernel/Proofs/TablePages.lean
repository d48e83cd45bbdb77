import GWKernel.Proofs.IdentityMap
import GWKernel.Proofs.PmmAllocation

/-! The page tables among the other users of the page allocator. Kernel code that writes only
to pages that it has been given cannot touch a table. -/

namespace GWKernel.Vmm
open Lib

def pmmPages : PageSource Pmm.State := fun pmm =>
  (UInt64.ofNat (Pmm.pmmAllocPage pmm).1, (Pmm.pmmAllocPage pmm).2)

/-- The pages of the tables and those granted to others are in use, and different. -/
structure Apart (granted : Nat → Prop) (pmm : Pmm.State) (pages : List UInt64) : Prop where
  tables : ∀ page ∈ pages, ∃ number, page.toNat = number * Pmm.pageSize ∧ ¬Pmm.Free pmm number ∧ ¬granted number
  used : ∀ number, granted number → ¬Pmm.Free pmm number

variable {granted : Nat → Prop} {pmm after : Pmm.State} {start count : Nat} {pages : List UInt64} {root : Table}

theorem Apart.later (kept : ∀ number, Pmm.Free after number → Pmm.Free pmm number) (apart : Apart granted pmm pages) :
    Apart (fun page => granted page ∨ Pmm.Free pmm page ∧ ¬Pmm.Free after page) after pages := by
  refine ⟨fun page member => ?_, fun number given free => ?_⟩
  · obtain ⟨number, is, used, other⟩ := apart.tables page member
    refine ⟨number, is, fun free => used (kept number free), ?_⟩
    rintro (given | ⟨free, _⟩)
    · exact other given
    · exact used free
  · rcases given with given | ⟨_, used⟩
    · exact apart.used number given (kept number free)
    · exact used free

theorem Apart.mono {fewer : Nat → Prop} (less : ∀ page, fewer page → granted page) (apart : Apart granted pmm pages) :
    Apart fewer pmm pages := by
  refine ⟨fun page member => ?_, fun number given => apart.used number (less number given)⟩
  obtain ⟨number, is, used, other⟩ := apart.tables page member
  exact ⟨number, is, used, fun given => other (less number given)⟩

theorem free_before {number : Nat} (free : Pmm.Free (Pmm.pmmAllocPages count pmm).2 number) : Pmm.Free pmm number := by
  rcases Pmm.pmmAllocPages_spec count pmm with ⟨start, _, takes⟩ | same
  · exact ((takes.taken number).mp free).1
  · rw [same] at free
    exact free

theorem pmmPages_contract (granted : Nat → Prop) : PageContract pmmPages (Apart granted) := by
  have size : Pmm.pageSize = 2 ^ 12 := by decide
  have later {pmm : Pmm.State} {pages : List UInt64} (apart : Apart granted pmm pages) :
      Apart granted (pmmPages pmm).2 pages := by
    unfold pmmPages
    rw [Pmm.pmmAllocPage_one]
    exact (apart.later fun _ => free_before).mono fun _ => .inl
  constructor
  · exact fun apart _ => later apart
  · intro pmm pages apart nonzero
    rcases Pmm.pmmAllocPage_spec pmm with ⟨start, address, takes⟩ | same
    · have free : Pmm.Free pmm start := takes.free start (Nat.le_refl _) (Nat.lt_succ_self _)
      have bound : start < 2 ^ 20 := free.lt
      have value : (pmmPages pmm).1.toNat = start * 2 ^ 12 := by
        unfold pmmPages
        rw [address, size]
        exact UInt64.toNat_ofNat_of_lt' (by
          show _ < 2 ^ 64
          omega)
      refine ⟨by omega, by omega, fun member => ?_, fun page member => ?_, (later apart).used⟩
      · obtain ⟨number, is, used, _⟩ := apart.tables _ member
        rw [value, size] at is
        obtain rfl : start = number := by omega
        exact used free
      · rcases List.mem_cons.mp member with rfl | old
        · exact ⟨start, size ▸ value, fun again => ((takes.taken start).mp again).2 ⟨Nat.le_refl _, Nat.lt_succ_self _⟩,
            fun given => apart.used start given free⟩
        · exact (later apart).tables page old
    · unfold pmmPages at nonzero
      rw [same] at nonzero
      exact absurd rfl nonzero

/-- The tables, the allocator and the pages that other code has been given. -/
structure Kernel where
  vm : State Pmm.State
  granted : Nat → Prop

inductive Use where
  | map (phys size : UInt64)
  | alloc (count : Nat)
  | free (page : Nat)
  | write (page : Nat)

inductive Uses (kernel : Kernel) : Use → Kernel → Prop where
  | map {phys size : UInt64} {vm : State Pmm.State} (moves : Step pmmPages kernel.vm (phys, size) vm) :
      Uses kernel (.map phys size) ⟨vm, kernel.granted⟩
  | alloc (count : Nat) :
      Uses kernel (.alloc count) ⟨{ kernel.vm with pmm := (Pmm.pmmAllocPages count kernel.vm.pmm).2 }, fun page =>
        kernel.granted page ∨ Pmm.Free kernel.vm.pmm page ∧ ¬Pmm.Free (Pmm.pmmAllocPages count kernel.vm.pmm).2 page⟩
  | free {page : Nat} (given : kernel.granted page) :
      Uses kernel (.free page) ⟨{ kernel.vm with pmm := Pmm.pmmFreePage kernel.vm.pmm (page * Pmm.pageSize) },
        fun other => kernel.granted other ∧ other ≠ page⟩
  | write {page : Nat} {mem : Mem} (given : kernel.granted page)
      (outside : ∀ address, address / Pmm.pageSize ≠ page → mem address = kernel.vm.mem address) :
      Uses kernel (.write page) ⟨{ kernel.vm with mem }, kernel.granted⟩

variable {kernel next : Kernel} {use : Use}

theorem Sound.with_pmm {more : Nat → Prop} {vm : State Pmm.State} (sound : Sound (Apart granted) vm root)
    (kept : ∀ pages, Apart granted vm.pmm pages → Apart more pmm pages) : Sound (Apart more) { vm with pmm } root := by
  obtain ⟨⟨pml4, pages, formed, apart⟩, kernel, low⟩ := sound
  exact ⟨⟨pml4, pages, formed, kept pages apart⟩, kernel, low⟩

theorem free_pmmFreePage {page number : Nat} (free : Pmm.Free (Pmm.pmmFreePage pmm (page * Pmm.pageSize)) number) :
    Pmm.Free pmm number ∨ number = page := by
  have same : page * Pmm.pageSize / Pmm.pageSize = page := Nat.mul_div_cancel _ (by decide)
  unfold Pmm.pmmFreePage at free
  rw [same] at free
  split at free
  · exact .inl free
  split at free
  · exact .inl free
  split at free
  · exact ((Pmm.free_bitmapClear pmm page number).mp free).imp_right And.left
  · exact .inl free

theorem Apart.free {page : Nat} (apart : Apart granted pmm pages) (given : granted page) :
    Apart (fun other => granted other ∧ other ≠ page) (Pmm.pmmFreePage pmm (page * Pmm.pageSize)) pages := by
  refine ⟨fun table member => ?_, fun number still free => ?_⟩
  · obtain ⟨number, is, used, other⟩ := apart.tables table member
    refine ⟨number, is, fun free => ?_, fun still => other still.1⟩
    rcases free_pmmFreePage free with before | rfl
    · exact used before
    · exact other given
  · rcases free_pmmFreePage free with before | here
    · exact apart.used number still.1 before
    · exact still.2 here

theorem Uses.keeps (uses : Uses kernel use next) (sound : Sound (Apart kernel.granted) kernel.vm root) :
    Sound (Apart next.granted) next.vm root ∧ Grows kernel.vm.mem next.vm.mem root := by
  cases uses with
  | map moves =>
    cases moves with
    | call bounded returned =>
      obtain ⟨pdpt, kept⟩ := sound.kernel
      have grown := ((vmmMapPhysicalRange_ends (pmmPages_contract _) sound.ready kept bounded _).2 _ _ returned).1
      exact ⟨sound.extends grown, grown.2⟩
  | alloc count => exact ⟨sound.with_pmm fun _ apart => apart.later fun _ => free_before, .refl _ _⟩
  | free given => exact ⟨sound.with_pmm fun _ apart => apart.free given, .refl _ _⟩
  | @write page mem given outside =>
    have size : Pmm.pageSize = 2 ^ 12 := by decide
    obtain ⟨pml4, pages, formed, apart⟩ := sound.ready
    have same (table : Table) (member : table.base ∈ pages) : entries mem table = entries kernel.vm.mem table := by
      obtain ⟨number, is, _, other⟩ := apart.tables _ member
      rw [size] at is
      funext index
      refine word_agree fun address above below => outside address fun here => other ?_
      rw [size] at here
      obtain rfl : number = page := by omega
      exact given
    have kept (path : List (Fin 512)) (table : Table) (short : path.length ≤ 2)
        (reached : reach kernel.vm.mem root path = some table) : entries mem table = entries kernel.vm.mem table :=
      same table (formed.owned path table short reached)
    have whole : Formed mem root pages ∧ Grows kernel.vm.mem mem root :=
      formed.kept (Radix.descend_congr fun before table inner => kept before table (by omega))
        (fun path found inner => kept path found (by omega))
        fun i j k found is => .inl (congrFun (kept [i, j] found (Nat.le_refl 2) is) k)
    have grown : Extends (Apart kernel.granted) kernel.vm { kernel.vm with mem } root :=
      ⟨⟨pml4, pages, whole.1, apart⟩, whole.2⟩
    exact ⟨sound.extends grown, whole.2⟩

def Keeps (root : Table) (start : Mem) (kernel : Kernel) : Prop :=
  Sound (Apart kernel.granted) kernel.vm root ∧ Grows start kernel.vm.mem root

theorem Keeps.run {start : Mem} {uses : List Use} (keeps : Keeps root start kernel) (run : Run Uses kernel uses next) :
    Keeps root start next := by
  refine run.preserves (fun before use after keeps uses => ?_) keeps
  obtain ⟨sound, grows⟩ := uses.keeps keeps.1
  exact ⟨sound, keeps.2.trans grows⟩

/-- Whatever other code does with the pages that it is given, or had before `vmm_init`, the map
stays an identity map of at least 4 GiB, and what was mapped at some time remains mapped. -/
theorem map_outlives_uses {boot first : State Pmm.State} (started : vmmInit pmmPages boot = some (true, first))
    {held : Nat → Prop} (taken : ∀ page, held page → ¬Pmm.Free boot.pmm page)
    {uses more : List Use} (run : Run Uses ⟨first, held⟩ uses kernel) (later : Run Uses kernel more next) :
    (∀ address found, walk next.vm.mem next.vm.pml4 address = some found → found = address) ∧
      (∀ address, (walk kernel.vm.mem kernel.vm.pml4 address).isSome → (walk next.vm.mem next.vm.pml4 address).isSome) ∧
      ∀ address : UInt64, address.toNat < 2 ^ 32 → (walk next.vm.mem next.vm.pml4 address).isSome := by
  have apart : Apart held boot.pmm [] := ⟨fun _ member => absurd member List.not_mem_nil, taken⟩
  obtain ⟨root, ready, pdpt, low⟩ := (@vmmInit_ends _ _ _ True _ _ (pmmPages_contract _) apart).2 true first started rfl
  have booted : Keeps root first.mem ⟨first, held⟩ := ⟨⟨ready, pdpt, low⟩, .refl _ _⟩
  have sound := (booted.run run).1
  have now : Keeps root kernel.vm.mem kernel := ⟨sound, .refl _ _⟩
  obtain ⟨final, grows⟩ := now.run later
  refine ⟨fun _ _ found => final.identity found, fun address was => ?_, fun _ low => final.low_mapped low⟩
  obtain ⟨small, present⟩ := (sound.walk_isSome address).mp was
  exact (final.walk_isSome address).mpr ⟨small, grows.present _ _ _ present⟩

/-- Pages 0 and 1 are taken when the tables are made. -/
def earlyMemory : State Pmm.State := ⟨fun _ => 0xFF, 0, fun byte => if byte = 0 then 3#8 else 0#8, 16, 2, 16, true⟩

/-- 2 MiB above 4 GiB are mapped; then the owner of page 1 fills it and gives it back, and another
caller gets it. -/
theorem map_outlives_uses_above : ∃ first kernel next,
    vmmInit pmmPages earlyMemory = some (true, first) ∧
      Run Uses ⟨first, fun page => page = 1⟩ [.map 0x100000000 0x200000] kernel ∧
      Run Uses kernel [.write 1, .free 1, .alloc 1] next ∧
      (walk next.vm.mem next.vm.pml4 0x100001000).isSome := by
  have maps : ((vmmInit pmmPages earlyMemory).bind fun first =>
      (vmmMapPhysicalRange pmmPages 2 0x100000000 0x200000 first.2).map fun mapped =>
        (first.1, (walk mapped.2.mem mapped.2.pml4 0x100001000).isSome)) = some (true, true) := by
    decide +kernel
  obtain ⟨⟨ok, first⟩, started, maps⟩ := Option.bind_eq_some_iff.mp maps
  obtain ⟨⟨mapped, vm⟩, returned, reached⟩ := Option.map_eq_some_iff.mp maps
  simp only [Prod.mk.injEq] at reached
  obtain ⟨rfl, reached⟩ := reached
  have taken : ∀ page, page = 1 → ¬Pmm.Free earlyMemory.pmm page := by
    rintro _ rfl
    exact Pmm.not_free.mpr (by decide +kernel)
  have run : Run Uses ⟨first, fun page => page = 1⟩ [.map 0x100000000 0x200000] ⟨vm, fun page => page = 1⟩ :=
    .next (.map (.call (by decide) returned)) (.done _)
  have later : Run Uses ⟨vm, fun page => page = 1⟩ [.write 1, .free 1, .alloc 1] _ :=
    .next (@Uses.write _ 1 (fun address => if address / Pmm.pageSize = 1 then 0xAA else vm.mem address) rfl
      fun _ differ => if_neg differ) (.next (.free rfl) (.next (.alloc 1) (.done _)))
  exact ⟨first, _, _, started, run, later, (map_outlives_uses started taken run later).2.1 _ reached⟩

end GWKernel.Vmm
