import GWKernel.Proofs.FatDirectory

/-! The bytes of entries and files: reading returns a prefix of the bytes of a chain, and writing
builds a new chain out of free clusters. -/

namespace GWKernel.Fat
open Lib List

variable {vol : Volume} {v : View} {enough : Prop} {medium : Medium}

theorem padTo_length {width : Nat} {text : List UInt8} (fits : text.length ≤ width) :
    (padTo width text).length = width := by
  simp only [padTo, List.length_append, List.length_replicate]
  omega

theorem to83_length (name : List UInt8) : (to83 name).length = 11 := by
  unfold to83
  rw [List.length_append, padTo_length (by simp), padTo_length (by simp)]

def newEntry (name : List UInt8) (attr : UInt8) (cl size : Nat) : Mem :=
  entryAt (putEntry blank 0 (to83 name) attr cl size) 0

theorem putEntry_apply (buffer : Mem) (off : Nat) (name : List UInt8) (attr : UInt8) (cl size byte : Nat) :
    putEntry buffer off (to83 name) attr cl size byte =
      if off ≤ byte ∧ byte < off + 32 then newEntry name attr cl size (byte - off) else buffer byte := by
  have width := to83_length name
  by_cases inside : off ≤ byte ∧ byte < off + 32
  · obtain ⟨index, rfl⟩ := Nat.exists_eq_add_of_le inside.1
    have small : index < 32 := by omega
    simp only [newEntry, entryAt, inside, small, and_self, if_true, putEntry, putCluster, Mem.put, Mem.copy, Mem.fill,
      Nat.add_le_add_iff_left, Nat.add_lt_add_iff_left, Nat.add_assoc, Nat.add_sub_add_left, Nat.zero_add,
      Nat.add_sub_cancel_left, Nat.zero_le, true_and, Nat.sub_zero]
  · simp only [inside, if_false, putEntry, putCluster, Mem.put, Mem.copy, Mem.fill, width]
    simp only [show ¬(off + 28 ≤ byte ∧ byte < off + 28 + 4) by omega,
      show ¬(off + 20 ≤ byte ∧ byte < off + 20 + 2) by omega, show ¬(off + 26 ≤ byte ∧ byte < off + 26 + 2) by omega,
      show ¬(off + 11 ≤ byte ∧ byte < off + 11 + 1) by omega, show ¬(off ≤ byte ∧ byte < off + 11) by omega, if_false]

section Fields

variable (name : List UInt8) (attr : UInt8) (cl size : Nat)

theorem newEntry_short (byte : Nat) (high : 32 ≤ byte) : newEntry name attr cl size byte = 0 := by
  simp [newEntry, entryAt, show ¬byte < 32 by omega]

private theorem newEntry_agree {low width : Nat} (fits : low + width ≤ 32) :
    Mem.Agree (newEntry name attr cl size) (putEntry blank 0 (to83 name) attr cl size) low width := by
  intro byte above below
  simp [newEntry, entryAt, show byte < 32 by omega]

theorem newEntry_name : entryName (newEntry name attr cl size) = to83 name := by
  have width := to83_length name
  have same : Mem.Agree (putEntry blank 0 (to83 name) attr cl size) ((blank.fill 0 32 0).copy 0 (to83 name)) 0 11 := by
    unfold putEntry putCluster
    refine (Mem.put_agree _ _ _ _ (by omega)).trans ?_
    refine (Mem.put_agree _ _ _ _ (by omega)).trans ?_
    refine (Mem.put_agree _ _ _ _ (by omega)).trans (Mem.put_agree _ _ _ _ (by omega))
  have copied := Mem.slice_copy (blank.fill 0 32 0) 0 (to83 name)
  rw [width] at copied
  exact ((newEntry_agree name attr cl size (by omega)).trans same).slice_eq.trans copied

theorem newEntry_attr : newEntry name attr cl size 11 = attr := by
  simp [newEntry, entryAt, putEntry, putCluster, Mem.put]

theorem newEntry_cluster (narrow : cl < 2 ^ 32) : entryCluster (newEntry name attr cl size) = cl := by
  have low : (newEntry name attr cl size).le 26 2 = cl % 256 ^ 2 := by
    rw [(newEntry_agree name attr cl size (by omega)).le_eq, putEntry, putCluster, Mem.le_put_apart _ _ _ _ (by omega),
      Mem.le_put_apart _ _ _ _ (by omega), Mem.le_put]
  have high : (newEntry name attr cl size).le 20 2 = cl / 65536 % 256 ^ 2 := by
    rw [(newEntry_agree name attr cl size (by omega)).le_eq, putEntry, putCluster, Mem.le_put_apart _ _ _ _ (by omega),
      Mem.le_put]
  rw [entryCluster, low, high]
  omega

theorem newEntry_size (narrow : size < 2 ^ 32) : entrySize (newEntry name attr cl size) = size := by
  rw [entrySize, (newEntry_agree name attr cl size (by omega)).le_eq, putEntry, Mem.le_put]
  omega

end Fields

theorem entryName_head (entry : Mem) : (entryName entry).head? = some (entry 0) := by
  simp [entryName, Mem.slice, List.range_succ_eq_map]

section Write

variable (faultless : Faultless vol) (sane : Sane vol) {pos : Pos} {c : Nat}
  (inside : Inside vol pos.cluster) (small : pos.sector < vol.secPerCluster)
include faultless sane inside small

theorem editSector_ends (edit : Mem → Mem) :
    Ends enough (do
      if ← readAbs vol (posLba vol pos) then do
        editSector edit
        writeAbs vol (posLba vol pos)
      else pure false) medium fun ok final =>
        ok = true ∧ view vol final.disk = (view vol medium.disk).setSector pos.cluster pos.sector
          (edit ((view vol medium.disk).data pos.cluster pos.sector)) := by
  refine read_then faultless (Ends.modify_then ?_)
  refine (writeAbs_ends faultless _).imp fun ok final written => ⟨written.1, ?_⟩
  rw [written.2.1, posLba, view_store_sector sane _ _ inside small]
  simp [view, inside, small]

theorem editSlot_ends {edit : Mem → Mem} {entry : Mem}
    (edited : ∀ byte, edit ((view vol medium.disk).data pos.cluster pos.sector) byte =
      if 32 * pos.index ≤ byte ∧ byte < 32 * pos.index + 32 then entry (byte - 32 * pos.index)
      else (view vol medium.disk).data pos.cluster pos.sector byte) :
    Ends enough (do
      if ← readAbs vol (posLba vol pos) then do
        editSector edit
        writeAbs vol (posLba vol pos)
      else pure false) medium fun ok final =>
        ok = true ∧ view vol final.disk = (view vol medium.disk).setSlot pos entry := by
  refine (editSector_ends faultless sane inside small _).imp fun ok final stored => ⟨stored.1, ?_⟩
  rw [stored.2]
  ext1
  · rfl
  · funext d s byte
    simp only [View.setSector, View.setSlot]
    by_cases here : d = pos.cluster ∧ s = pos.sector
    · obtain ⟨rfl, rfl⟩ := here
      simp only [and_self, if_true, true_and, edited]
    · simp only [here, if_false, false_and]

theorem writeEntry_ends (name : List UInt8) (attr : UInt8) (cl size : Nat) :
    Ends enough (writeEntry vol (slotOf vol pos) name attr cl size) medium fun ok final =>
      ok = true ∧ view vol final.disk = (view vol medium.disk).setSlot pos (newEntry name attr cl size) :=
  editSlot_ends faultless sane inside small fun _ => putEntry_apply _ _ _ _ _ _ _

def deletedEntry (entry : Mem) : Mem := fun byte => if byte = 0 then 0xE5 else entry byte

theorem deleteEntry_ends :
    Ends enough (deleteEntry vol (slotOf vol pos)) medium fun ok final =>
      ok = true ∧ view vol final.disk =
        (view vol medium.disk).setSlot pos (deletedEntry ((view vol medium.disk).slot pos)) := by
  refine editSlot_ends faultless sane inside small fun byte => ?_
  dsimp only [slotOf]
  by_cases within : 32 * pos.index ≤ byte ∧ byte < 32 * pos.index + 32
  · obtain ⟨index, rfl⟩ := Nat.exists_eq_add_of_le within.1
    have bound : index < 32 := by omega
    by_cases first : index = 0
    · subst first
      simp [Mem.put, deletedEntry]
    · have away : ¬(32 * pos.index ≤ 32 * pos.index + index ∧ 32 * pos.index + index < 32 * pos.index + 1) := by
        omega
      rw [Mem.put, if_neg away, if_pos within]
      simp only [deletedEntry, View.slot, entryAt, Nat.add_sub_cancel_left, first, bound, if_true, if_false]
  · have away : ¬(32 * pos.index ≤ byte ∧ byte < 32 * pos.index + 1) := by omega
    simp only [within, if_false, Mem.put, away]

end Write

theorem deletedEntry_short (v : View) (pos : Pos) (byte : Nat) (high : 32 ≤ byte) :
    deletedEntry (v.slot pos) byte = 0 := by
  simp [deletedEntry, View.slot, entryAt, show byte ≠ 0 by omega, show ¬byte < 32 by omega]

variable {w : View}

def View.sectorBytes (v : View) (c : Nat) (sectors : List Nat) : List UInt8 :=
  sectors.flatMap fun s => (v.data c s).slice 0 512

def View.bytes (vol : Volume) (v : View) (cs : List Nat) : List UInt8 :=
  cs.flatMap fun c => v.sectorBytes c (List.range vol.secPerCluster)

theorem View.sectorBytes_length (v : View) (c : Nat) (sectors : List Nat) :
    (v.sectorBytes c sectors).length = 512 * sectors.length := by
  induction sectors with
  | nil => rfl
  | cons s rest ih =>
    simp only [View.sectorBytes, flatMap_cons, length_append, Mem.slice_length, length_cons] at ih ⊢
    omega

theorem View.bytes_congr {cs : List Nat} (same : ∀ c ∈ cs, w.data c = v.data c) : w.bytes vol cs = v.bytes vol cs :=
  flatMap_congr fun c member => by rw [View.sectorBytes, View.sectorBytes, same c member]

theorem slice_take (mem : Mem) (size want : Nat) : (mem.slice 0 size).take want = mem.slice 0 (min size want) := by
  simp only [Mem.slice, ← map_take, take_range, Nat.min_comm]

section Read

variable (faultless : Faultless vol) (sane : Sane vol)
include faultless sane

theorem readSectors_ends {c : Nat} (inside : Inside vol c) (sectors : List Nat)
    (small : ∀ s ∈ sectors, s < vol.secPerCluster) (want : Nat) :
    Ends enough (readSectors vol c sectors want) medium fun result final =>
      final.disk = medium.disk ∧ result = some (((view vol medium.disk).sectorBytes c sectors).take want) := by
  induction sectors generalizing medium want with
  | nil => exact Ends.pure ⟨rfl, by simp [View.sectorBytes]⟩
  | cons s rest ih =>
    have here := small s mem_cons_self
    unfold readSectors
    refine Ends.branch (fun none => Ends.pure ⟨rfl, by simp [none]⟩) fun some => ?_
    refine read_then faultless (Ends.get_then ?_)
    refine (ih (fun t member => small t (mem_cons_of_mem _ member)) _).bind fun more final read => ?_
    rw [read.2]
    refine Ends.pure ⟨read.1, ?_⟩
    have sector : medium.disk (u32 (clusterToLba vol c + s)) = (view vol medium.disk).data c s := by
      rw [sane.lba_eq inside here]
      simp [view, inside, here]
    have left : want - min 512 want = want - 512 := by omega
    simp only [View.sectorBytes, flatMap_cons, take_append, slice_take, Mem.slice_length, sector, left]

theorem readClusters_ends {fuel start : Nat} {cs : List Nat} (links : (view vol medium.disk).Links vol start cs)
    (want : Nat) :
    Ends (cs.length < fuel) (readClusters vol fuel start want) medium fun result final =>
      final.disk = medium.disk ∧ result = some (((view vol medium.disk).bytes vol cs).take want) := by
  induction cs generalizing fuel start medium want with
  | nil =>
    cases fuel with
    | zero => exact Ends.exhausted (Nat.not_lt_zero _)
    | succ fuel =>
      cases links with
      | done ends =>
        unfold readClusters
        simp only [not_inChain_of_isEnd ends, false_and, if_false]
        exact Ends.pure ⟨rfl, by simp [View.bytes]⟩
  | cons c rest ih =>
    cases fuel with
    | zero => exact Ends.exhausted (Nat.not_lt_zero _)
    | succ fuel =>
      cases links with
      | link inside tail =>
        unfold readClusters
        simp only [sane.inChain inside, true_and]
        refine Ends.branch (fun more => ?_) fun none => ?_
        · refine (readSectors_ends faultless sane inside (List.range vol.secPerCluster)
            (fun s member => mem_range.mp member) want).bind fun bytes middle read => ?_
          rw [read.2]
          refine (fatGet_ends faultless sane inside.2).bind fun next current got => ?_
          have same : view vol current.disk = view vol medium.disk := by rw [got.2, read.1]
          rw [read.1] at got
          rw [got.1]
          refine ((ih (same ▸ tail) _).mono (fun long => by simpa using long) fun _ _ rest => rest).bind
            fun more final later => ?_
          rw [later.2, same]
          refine Ends.pure ⟨by rw [later.1, got.2], ?_⟩
          have size := (view vol medium.disk).sectorBytes_length c (List.range vol.secPerCluster)
          rw [length_range] at size
          have left : want - min want (512 * vol.secPerCluster) = want - 512 * vol.secPerCluster := by omega
          simp only [View.bytes, flatMap_cons, take_append, length_take, size, left]
        · have zero : want = 0 := by omega
          exact Ends.pure ⟨rfl, by simp [zero]⟩

end Read

/-- The sectors of a cluster filled from the data and, where that ends, with zeros. -/
def View.fillSectors (v : View) (c : Nat) : List Nat → List UInt8 → View
  | [], _ => v
  | s :: rest, data => (v.setSector c s (blank.copy 0 (data.take 512))).fillSectors c rest (data.drop 512)

theorem View.fillSectors_fat (v : View) (c : Nat) (sectors : List Nat) (data : List UInt8) :
    (v.fillSectors c sectors data).fat = v.fat := by
  induction sectors generalizing v data with
  | nil => rfl
  | cons s rest ih => exact ih _ _

theorem View.fillSectors_other (v : View) {c other : Nat} (sectors : List Nat) (data : List UInt8) (differ : other ≠ c) :
    (v.fillSectors c sectors data).data other = v.data other := by
  induction sectors generalizing v data with
  | nil => rfl
  | cons s rest ih =>
    unfold fillSectors
    rw [ih]
    funext t
    simp [setSector, differ]

theorem View.fillSectors_apart (v : View) {c t : Nat} (sectors : List Nat) (data : List UInt8) (fresh : t ∉ sectors) :
    (v.fillSectors c sectors data).data c t = v.data c t := by
  induction sectors generalizing v data with
  | nil => rfl
  | cons s rest ih =>
    have parts := not_or.mp (mem_cons.not.mp fresh)
    unfold fillSectors
    rw [ih _ _ parts.2]
    simp [setSector, parts.1]

theorem slice_blank_copy {chunk : List UInt8} (fits : chunk.length ≤ 512) :
    (blank.copy 0 chunk).slice 0 512 = chunk ++ List.replicate (512 - chunk.length) 0 := by
  refine ext_getElem (by simp; omega) fun index inside bound => ?_
  rw [Mem.slice_getElem, getElem_append]
  simp only [Mem.copy, Nat.zero_le, true_and, Nat.zero_add, Nat.sub_zero]
  split
  next below => exact (getElem_eq_getD 0).symm
  next => simp [blank]

theorem View.fillSectors_bytes (v : View) (c : Nat) (sectors : List Nat) (data : List UInt8) (distinct : sectors.Nodup) :
    data.take (512 * sectors.length) <+: (v.fillSectors c sectors data).sectorBytes c sectors := by
  induction sectors generalizing v data with
  | nil => simp [sectorBytes]
  | cons s rest ih =>
    obtain ⟨fresh, others⟩ := nodup_cons.mp distinct
    have chunk : ((v.fillSectors c (s :: rest) data).data c s).slice 0 512 =
        data.take 512 ++ List.replicate (512 - (data.take 512).length) 0 := by
      unfold fillSectors
      rw [fillSectors_apart _ rest _ fresh, ← slice_blank_copy (by simp)]
      simp [setSector]
    have split : 512 * (s :: rest).length = 512 + 512 * rest.length := by simp; omega
    have tail := ih (v.setSector c s (blank.copy 0 (data.take 512))) (data.drop 512) others
    rw [split, take_add]
    simp only [sectorBytes, flatMap_cons] at chunk ⊢
    rw [chunk]
    by_cases long : 512 ≤ data.length
    · have full : 512 - (data.take 512).length = 0 := by simp; omega
      rw [full, replicate_zero, append_nil]
      exact (prefix_append_right_inj _).mpr tail
    · have spent : data.drop 512 = [] := drop_eq_nil_of_le (by omega)
      rw [spent, take_nil, append_nil, append_assoc]
      exact prefix_append _ _

section Write

variable (faultless : Faultless vol) (sane : Sane vol)
include faultless sane

theorem zeroEach_ends {c : Nat} (inside : Inside vol c) (sectors : List Nat)
    (small : ∀ s ∈ sectors, s < vol.secPerCluster) :
    Ends enough (zeroEach vol c sectors) medium fun _ final =>
      view vol final.disk = (view vol medium.disk).fillSectors c sectors [] := by
  induction sectors generalizing medium with
  | nil => exact Ends.pure rfl
  | cons s rest ih =>
    have here := small s mem_cons_self
    unfold zeroEach
    refine Ends.modify_then ?_
    rw [sane.lba_eq inside here]
    refine (writeAbs_ends faultless _).bind fun ok middle written => ?_
    refine (ih fun t member => small t (mem_cons_of_mem _ member)).imp fun _ final zeroed => ?_
    rw [zeroed, written.2.1, view_store_sector sane _ _ inside here]
    have clear : blank.copy 0 ([] : List UInt8) = blank := by
      funext byte
      simp [Mem.copy]
    simp only [View.fillSectors, take_nil, drop_nil, clear]

theorem writeSectors_ends {c : Nat} (inside : Inside vol c) (sectors : List Nat)
    (small : ∀ s ∈ sectors, s < vol.secPerCluster) (data : List UInt8) :
    Ends enough (writeSectors vol c sectors data) medium fun result final =>
      result = some (data.drop (512 * sectors.length)) ∧
        view vol final.disk = (view vol medium.disk).fillSectors c sectors data := by
  induction sectors generalizing medium data with
  | nil => exact Ends.pure ⟨by simp, rfl⟩
  | cons s rest ih =>
    have here := small s mem_cons_self
    have later : ∀ t ∈ rest, t < vol.secPerCluster := fun t member => small t (mem_cons_of_mem _ member)
    have drops : data.drop (512 * (s :: rest).length) = (data.drop 512).drop (512 * rest.length) := by
      rw [drop_drop]
      congr 1
      simp
      omega
    unfold writeSectors
    refine Ends.modify_then ?_
    refine write_then faultless sane inside here fun middle written _ => ?_
    refine Ends.branch (fun spent => ?_) fun _ => ?_
    · refine (zeroEach_ends faultless sane inside rest later).bind fun _ final zeroed => ?_
      refine Ends.pure ⟨by rw [drops, spent, drop_nil], ?_⟩
      rw [zeroed, written, View.fillSectors, spent]
    · refine (ih later _).imp fun result final wrote => ⟨by rw [wrote.1, drops], ?_⟩
      rw [wrote.2, written, View.fillSectors]

end Write

def View.freeCount (vol : Volume) (v : View) : Nat := (candidates vol).countP fun c => v.fat c == 0

theorem View.freeCount_congr (same : ∀ c ∈ candidates vol, (w.fat c = 0 ↔ v.fat c = 0)) :
    w.freeCount vol = v.freeCount vol :=
  countP_congr fun c member => by simpa using same c member

theorem View.freeCount_eq_zero : v.freeCount vol = 0 ↔ ∀ c ∈ candidates vol, v.fat c ≠ 0 := by
  simp [freeCount, countP_eq_zero]

theorem View.freeCount_setFat {c val : Nat} (candidate : c ∈ candidates vol) (free : v.fat c = 0) (used : val ≠ 0) :
    (v.setFat c val).freeCount vol + 1 = v.freeCount vol := by
  have distinct : (candidates vol).Nodup := nodup_range'
  have order := perm_cons_erase candidate
  have fresh : c ∉ (candidates vol).erase c := fun member => (distinct.mem_erase_iff.mp member).1 rfl
  have rest : ((candidates vol).erase c).countP (fun other => (v.setFat c val).fat other == 0) =
      ((candidates vol).erase c).countP fun other => v.fat other == 0 := by
    refine countP_congr fun other member => ?_
    have differ : other ≠ c := fun same => fresh (same ▸ member)
    simp [setFat, differ]
  unfold freeCount
  rw [order.countP_eq, order.countP_eq, countP_cons, countP_cons, rest]
  simp [setFat, free, used]

/-- A new chain of clusters that were free, which holds the data. -/
structure Filled (vol : Volume) (v w : View) (cs : List Nat) (data : List UInt8) : Prop where
  fresh : ∀ c ∈ cs, c ∈ candidates vol ∧ v.fat c = 0
  fat : ∀ c, c ∉ cs → w.fat c = v.fat c
  kept : ∀ c, c ∉ cs → w.data c = v.data c
  content : data <+: w.bytes vol cs

def View.link (v : View) (first prev c : Nat) : View := if first = 0 then v else v.setFat prev c

theorem View.link_fat (v : View) {first prev c other : Nat} (differ : other ≠ prev) :
    (v.link first prev c).fat other = v.fat other := by
  unfold link
  split
  next => rfl
  next => simp [setFat, differ]

inductive Stored (vol : Volume) (v w : View) (first prev : Nat) (data : List UInt8) : Option Nat → Prop where
  | short (few : v.freeCount vol * (512 * vol.secPerCluster) < data.length)
      (untouched : v.freeCount vol = 0 → w = v) (spent : w.freeCount vol = 0)
      (shrinks : ∀ c, w.fat c = 0 → v.fat c = 0)
      (spares : ∀ c, v.fat c ≠ 0 → (first ≠ 0 → c ≠ prev) → w.fat c = v.fat c ∧ w.data c = v.data c) :
      Stored vol v w first prev data none
  | complete {c : Nat} {rest : List Nat} (filled : Filled vol (v.link first prev c) w (c :: rest) data)
      (links : w.Links vol c (c :: rest)) : Stored vol v w first prev data (some (if first = 0 then c else first))

/-- One round of the loop: the free cluster `c` has been marked, linked to and filled. -/
structure Round (vol : Volume) (v u : View) (first prev c : Nat) (data : List UInt8) : Prop where
  candidate : c ∈ candidates vol
  free : v.fat c = 0
  inUse : first ≠ 0 → v.fat prev ≠ 0
  stage : u = ((v.setFat c 0x0FFFFFFF).link first prev c).fillSectors c (List.range vol.secPerCluster) data

section Rounds

variable {u : View} {first prev c : Nat} {data : List UInt8} (round : Round vol v u first prev c data)
include round

theorem Round.positive : c ≠ 0 := by
  have low := (inside_of_candidate round.candidate).1
  omega

theorem Round.prev_ne (linked : first ≠ 0) : c ≠ prev := fun same => round.inUse linked (same ▸ round.free)

theorem Round.stops : u.fat c = 0x0FFFFFFF := by
  rw [round.stage, View.fillSectors_fat]
  by_cases start : first = 0
  · simp [View.link, start, View.setFat]
  · rw [View.link_fat _ (round.prev_ne start)]
    simp [View.setFat]

theorem Round.fat_other {other : Nat} (differ : other ≠ c) : u.fat other = (v.link first prev c).fat other := by
  rw [round.stage, View.fillSectors_fat]
  by_cases start : first = 0 <;> simp [View.link, start, View.setFat, differ]

theorem Round.data_other {other : Nat} (differ : other ≠ c) : u.data other = v.data other := by
  rw [round.stage, View.fillSectors_other _ _ _ differ]
  by_cases start : first = 0 <;> simp [View.link, start, View.setFat]

theorem Round.linked_free : (v.link first prev c).fat c = 0 := by
  by_cases start : first = 0
  · simpa [View.link, start] using round.free
  · rw [View.link_fat _ (round.prev_ne start), round.free]

theorem Round.head : data.take (512 * vol.secPerCluster) <+: u.sectorBytes c (List.range vol.secPerCluster) := by
  have filled := ((v.setFat c 0x0FFFFFFF).link first prev c).fillSectors_bytes c (List.range vol.secPerCluster) data
    nodup_range
  rwa [← round.stage, length_range] at filled

theorem Round.freeCount_eq : u.freeCount vol + 1 = v.freeCount vol := by
  rw [← View.freeCount_setFat round.candidate round.free (show 0x0FFFFFFF ≠ 0 by omega)]
  congr 1
  refine View.freeCount_congr fun other _ => ?_
  by_cases here : other = c
  · simp [here, round.stops, View.setFat]
  · rw [round.fat_other here]
    by_cases start : first = 0
    · simp [View.link, start, View.setFat, here]
    · by_cases before : other = prev
      · simp [View.link, start, View.setFat, before, round.positive, round.inUse start, Ne.symm (round.prev_ne start)]
      · simp [View.link, start, View.setFat, here, before]

theorem Round.shrinks {other : Nat} (free : u.fat other = 0) : v.fat other = 0 := by
  by_cases here : other = c
  · rw [here, round.free]
  · rw [round.fat_other here] at free
    by_cases start : first = 0
    · simpa [View.link, start] using free
    · by_cases before : other = prev
      · simp [View.link, start, View.setFat, before, round.positive] at free
      · rwa [View.link_fat _ before] at free

theorem Round.spares {other : Nat} (used : v.fat other ≠ 0) (apart : first ≠ 0 → other ≠ prev) :
    u.fat other = v.fat other ∧ u.data other = v.data other := by
  have differ : other ≠ c := fun same => used (same ▸ round.free)
  refine ⟨(round.fat_other differ).trans ?_, round.data_other differ⟩
  by_cases start : first = 0
  · simp [View.link, start]
  · exact View.link_fat _ (apart start)

theorem Round.last (spent : data.drop (512 * vol.secPerCluster) = []) :
    Stored vol v u first prev data (some (if first = 0 then c else first)) := by
  refine @Stored.complete vol v u first prev data c [] ⟨?_, ?_, ?_, ?_⟩ (.link (inside_of_candidate round.candidate)
    (.done (by rw [round.stops]; unfold IsEnd; omega)))
  · intro other member
    obtain rfl := mem_singleton.mp member
    exact ⟨round.candidate, round.linked_free⟩
  · exact fun other fresh => round.fat_other (by simpa using fresh)
  · intro other fresh
    rw [round.data_other (by simpa using fresh)]
    by_cases start : first = 0 <;> simp [View.link, start, View.setFat]
  · have head := round.head
    rw [take_of_length_le (drop_eq_nil_iff.mp spent)] at head
    simpa [View.bytes] using head

theorem Round.more {result : Option Nat} (left : data.drop (512 * vol.secPerCluster) ≠ [])
    (stored : Stored vol u w (if first = 0 then c else first) c (data.drop (512 * vol.secPerCluster)) result) :
    Stored vol v w first prev data result := by
  have long : 512 * vol.secPerCluster < data.length := by
    simpa [drop_eq_nil_iff] using left
  have begun : (if first = 0 then c else first) ≠ 0 := by
    split
    next => exact round.positive
    next linked => exact linked
  cases stored with
  | short few untouched spent shrinks spares =>
    have count := round.freeCount_eq
    refine .short ?_ (fun none => by omega) spent (fun other free => round.shrinks (shrinks other free))
      fun other used apart => ?_
    · rw [← count, Nat.add_mul, Nat.one_mul]
      rw [length_drop] at few
      omega
    · obtain ⟨fat, data⟩ := round.spares used apart
      obtain ⟨later, kept⟩ := spares other (fat ▸ used) fun _ same => used (same ▸ round.free)
      exact ⟨later.trans fat, kept.trans data⟩
  | @complete next rest filled links =>
    simp only [begun, if_false]
    have linked : ∀ other, other ≠ c → (u.link (if first = 0 then c else first) c next).fat other =
        (v.link first prev c).fat other := fun other differ => by
      rw [View.link_fat _ differ, round.fat_other differ]
    have nextUsed : next ≠ 0 := by
      have low := (links.inside_of_mem mem_cons_self).1
      omega
    have here : (u.link (if first = 0 then c else first) c next).fat c = next := by
      simp [View.link, begun, View.setFat]
    have outside : c ∉ next :: rest := fun member => nextUsed (here ▸ (filled.fresh c member).2)
    have sectors : (u.link (if first = 0 then c else first) c next).data = u.data := by
      simp [View.link, begun, View.setFat]
    refine @Stored.complete vol v w first prev data c (next :: rest) ⟨?_, ?_, ?_, ?_⟩ ?_
    · intro other member
      rcases mem_cons.mp member with rfl | later
      · exact ⟨round.candidate, round.linked_free⟩
      · have differ : other ≠ c := fun same => outside (same ▸ later)
        obtain ⟨candidate, free⟩ := filled.fresh other later
        exact ⟨candidate, by rw [← linked other differ, free]⟩
    · intro other fresh
      have parts := not_or.mp (mem_cons.not.mp fresh)
      rw [filled.fat other parts.2, linked other parts.1]
    · intro other fresh
      have parts := not_or.mp (mem_cons.not.mp fresh)
      rw [filled.kept other parts.2, sectors, round.data_other parts.1]
      by_cases start : first = 0 <;> simp [View.link, start, View.setFat]
    · have own : w.data c = u.data c := by rw [filled.kept c outside, sectors]
      have head := round.head
      have size := u.sectorBytes_length c (List.range vol.secPerCluster)
      rw [length_range] at size
      have exact_ : u.sectorBytes c (List.range vol.secPerCluster) = data.take (512 * vol.secPerCluster) :=
        (head.eq_of_length (by rw [size, length_take]; omega)).symm
      have split : w.bytes vol (c :: next :: rest) =
          data.take (512 * vol.secPerCluster) ++ w.bytes vol (next :: rest) := by
        rw [← exact_]
        simp only [View.bytes, flatMap_cons, View.sectorBytes, own]
      have joined := (prefix_append_right_inj (data.take (512 * vol.secPerCluster))).mpr filled.content
      rwa [take_append_drop, ← split] at joined
    · refine .link (inside_of_candidate round.candidate) ?_
      rw [filled.fat c outside, here]
      exact links

end Rounds

section Loop

variable (faultless : Faultless vol) (sane : Sane vol)
include faultless sane

theorem linkCluster_ends {first prev c : Nat} (valid : first ≠ 0 → Inside vol prev) (narrow : c < 2 ^ 28) :
    Ends enough (if first = 0 then pure true else fatSet vol prev c) medium fun ok final =>
      ok = true ∧ view vol final.disk = (view vol medium.disk).link first prev c := by
  unfold View.link
  refine Ends.branch (fun none => Ends.pure ⟨rfl, by simp [none]⟩) fun some => ?_
  simp only [some, if_false]
  exact fatSet_ends faultless sane (valid some).2 narrow

theorem writeClusters_ends {fuel first prev : Nat} {data : List UInt8} (nonempty : data ≠ [])
    (valid : first ≠ 0 → Inside vol prev) (inUse : first ≠ 0 → (view vol medium.disk).fat prev ≠ 0) :
    Ends (data.length ≤ fuel) (writeClusters vol fuel first prev data) medium fun result final =>
      Stored vol (view vol medium.disk) (view vol final.disk) first prev data result := by
  have positive : 0 < data.length := length_pos_iff.mpr nonempty
  induction fuel generalizing first prev data medium with
  | zero => exact Ends.exhausted (by omega)
  | succ fuel ih =>
    unfold writeClusters
    refine (fatAllocCluster_ends faultless sane).bind fun c marked outcome => ?_
    rcases outcome with ⟨zero, unchanged, exhausted⟩ | ⟨candidate, free, taken⟩
    · simp only [zero, if_true]
      have none := View.freeCount_eq_zero.mpr exhausted
      refine Ends.pure ?_
      rw [unchanged]
      exact .short (by rw [none]; omega) (fun _ => rfl) none (fun _ => id) fun _ _ _ => ⟨rfl, rfl⟩
    have inside := inside_of_candidate candidate
    have nonzero : c ≠ 0 := by
      have low := inside.1
      omega
    have narrow : c < 2 ^ 28 := by
      have marks := sane.belowMarks
      have below := inside.2
      omega
    simp only [nonzero, if_false]
    refine (linkCluster_ends faultless sane valid narrow).bind fun ok linked link => ?_
    simp only [link.1, if_true]
    refine (writeSectors_ends faultless sane inside (List.range vol.secPerCluster)
      (fun s member => mem_range.mp member) data).bind fun left filled wrote => ?_
    have round : Round vol (view vol medium.disk) (view vol filled.disk) first prev c data :=
      ⟨candidate, free, inUse, by rw [wrote.2, link.2, taken]⟩
    rw [wrote.1, length_range]
    refine Ends.branch (fun spent => Ends.pure (round.last spent)) fun more => ?_
    have shorter : (data.drop (512 * vol.secPerCluster)).length < data.length := by
      have sectors := sane.hasSectors
      rw [length_drop]
      omega
    refine (ih more (fun _ => inside) (fun _ => ?_) (length_pos_iff.mpr more)).mono (fun long => by omega)
      fun result final stored => round.more more stored
    rw [round.stops]
    omega

end Loop

end GWKernel.Fat
