import GWKernel.Lib.Memory
import GWKernel.Lib.Outcome
import GWKernel.Lib.Word

/-! The FAT32 driver (kernel/fs/fat.c). The disk is an array of sectors of which some may be
unreadable or unwritable. A string is the list of its bytes; a null path behaves as the empty one.
-/

namespace GWKernel.Fat
open Lib

/-- The static variables that only `fat_mount` and `fat_chdir` assign, and the sectors on which
the drive reports success. -/
structure Volume where
  partLba : Nat
  fatStart : Nat
  dataStart : Nat
  rootCluster : Nat
  bytesPerSec : Nat
  secPerCluster : Nat
  numFats : Nat
  fatSizeSectors : Nat
  totalClusters : Nat
  mounted : Bool
  cwdCluster : Nat
  cwdPath : Mem
  readable : Nat → Bool
  writable : Nat → Bool

/-- The disk behind the driver, the static buffer `sector`, and the sectors written
so far, latest first. -/
structure Medium where
  disk : Nat → Mem
  sector : Mem
  written : List Nat

abbrev Io := StateT Medium Option

/-- The loop condition `cl >= 2 && cl < 0x0FFFFFF8`. -/
def InChain (cl : Nat) : Prop := 2 ≤ cl ∧ cl < 0x0FFFFFF8

instance (cl : Nat) : Decidable (InChain cl) := inferInstanceAs (Decidable (_ ∧ _))

/-- `*p == '/' || *p == '\\'`. -/
def isSeparator (char : UInt8) : Bool := char == 0x2F || char == 0x5C

def upper (char : UInt8) : UInt8 := if 0x61 ≤ char ∧ char ≤ 0x7A then char - 32 else char

def padTo (width : Nat) (text : List UInt8) : List UInt8 := text ++ List.replicate (width - text.length) 0x20

def to83 (name : List UInt8) : List UInt8 :=
  let base := (name.takeWhile fun char => char != 0x2E && !isSeparator char).take 8
  let rest := name.drop base.length
  let rest := if rest.head? = some 0x2E then rest.tail else rest
  let extension := (rest.takeWhile fun char => !isSeparator char).take 3
  padTo 8 (base.map upper) ++ padTo 3 (extension.map upper)

/-- `eq83`, against the name field of a directory entry. -/
def eq83 (name : List UInt8) (entry : Mem) : Bool := to83 name == entry.slice 0 11

/-- The text that `print_83` emits. -/
def print83 (name : List UInt8) : List UInt8 :=
  let base := (name.take 8).takeWhile (· != 0x20)
  let extension := name.drop 8
  if extension.headD 0x20 = 0x20 then base else base ++ 0x2E :: extension.takeWhile (· != 0x20)

/-- `read_abs` into `sector`: true for 0. -/
def readAbs (vol : Volume) (lba : Nat) : Io Bool :=
  if vol.readable lba then do
    modify fun medium => { medium with sector := medium.disk lba }
    pure true
  else pure false

/-- `write_abs` from `sector`. -/
def writeAbs (vol : Volume) (lba : Nat) : Io Bool :=
  if vol.writable lba then do
    modify fun medium => { medium with
      disk := fun other => if other = lba then medium.sector else medium.disk other
      written := lba :: medium.written }
    pure true
  else pure false

/-- The buffer after `memset_l(sector, 0, 512)`. -/
def blank : Mem := fun _ => 0

/-- The 32 bytes of the directory entry at `off`. -/
def entryAt (sector : Mem) (off : Nat) : Mem := fun index => if index < 32 then sector (off + index) else 0

/-- Assignments to bytes of `sector`. -/
def editSector (edit : Mem → Mem) : Io Unit := modify fun medium => { medium with sector := edit medium.sector }

def clusterToLba (vol : Volume) (cl : Nat) : Nat := u32 (vol.dataStart + (cl + 2 ^ 32 - 2) * vol.secPerCluster)

/-- The sector and the offset in it of a FAT entry. -/
def fatSector (vol : Volume) (cl : Nat) : Nat := u32 (vol.fatStart + u32 (cl * 4) / vol.bytesPerSec)

def fatOffset (vol : Volume) (cl : Nat) : Nat := u32 (cl * 4) % vol.bytesPerSec

def fatGet (vol : Volume) (cl : Nat) : Io Nat := do
  if ← readAbs vol (fatSector vol cl) then do
    let medium ← get
    pure (medium.sector.le (fatOffset vol cl) 4 % 2 ^ 28)
  else pure 0x0FFFFFF7

/-- `fat_set`: the top four bits of the entry are kept. -/
def fatSet (vol : Volume) (cl val : Nat) : Io Bool := do
  if ← readAbs vol (fatSector vol cl) then do
    editSector fun sector =>
      let old := sector.le (fatOffset vol cl) 4
      sector.put (fatOffset vol cl) 4 (old / 2 ^ 28 * 2 ^ 28 + val % 2 ^ 28)
    writeAbs vol (fatSector vol cl)
  else pure false

/-- The loop of `fat_alloc_cluster` over the candidates that are left. -/
def allocFrom (vol : Volume) : List Nat → Io Nat
  | [] => pure 0
  | c :: rest => do
    let v ← fatGet vol c
    if v = 0 then do
      if ← fatSet vol c 0x0FFFFFFF then pure c else pure 0
    else allocFrom vol rest

/-- `fat_alloc_cluster`: 0 when there is none. -/
def fatAllocCluster (vol : Volume) : Io Nat := allocFrom vol (List.range' 3 (u32 (vol.totalClusters + 2) - 3))

def fatFreeChain (vol : Volume) : Nat → Nat → Io Bool
  | 0, _ => fun _ => none
  | fuel + 1, cl =>
    if InChain cl then do
      let n ← fatGet vol cl
      if ← fatSet vol cl 0 then fatFreeChain vol fuel n else pure false
    else pure true

section Scanning

variable {α ρ : Type}

def slotOffsets : List Nat := (List.range 16).map (32 * ·)

/-- The loop over the entries of a sector. A visit leaves all the loops by an error and goes on by
a value. -/
def scanSector (visit : Nat → Nat → Mem → α → Except ρ α) (lba : Nat) (sector : Mem) (acc : α) : Except ρ α :=
  slotOffsets.foldlM (fun acc off => visit lba off (entryAt sector off) acc) acc

/-- The loop over the sectors of a cluster, with the result for a failed read. -/
def scanSectors (vol : Volume) (visit : Nat → Nat → Mem → α → Except ρ α) (failed : α → ρ) (cl : Nat) :
    List Nat → α → Io (Except ρ α)
  | [], acc => pure (.ok acc)
  | s :: rest, acc => do
    if ← readAbs vol (u32 (clusterToLba vol cl + s)) then do
      let medium ← get
      match scanSector visit (u32 (clusterToLba vol cl + s)) medium.sector acc with
      | .error result => pure (.error result)
      | .ok acc => scanSectors vol visit failed cl rest acc
    else pure (.error (failed acc))

/-- The loop over the clusters of a directory that `dir_find`, `fat_list` and
`fat_unlink` share. -/
def scanChain (vol : Volume) (visit : Nat → Nat → Mem → α → Except ρ α) (failed ended : α → ρ) :
    Nat → Nat → α → Io ρ
  | 0, _, _ => fun _ => none
  | fuel + 1, cl, acc =>
    if InChain cl then do
      match ← scanSectors vol visit failed cl (List.range vol.secPerCluster) acc with
      | .error result => pure result
      | .ok acc => do
        let next ← fatGet vol cl
        scanChain vol visit failed ended fuel next acc
    else pure (ended acc)

end Scanning

def entryCluster (entry : Mem) : Nat := entry.le 26 2 + entry.le 20 2 * 65536

def entrySize (entry : Mem) : Nat := entry.le 28 4

def entryIsDir (entry : Mem) : Bool := entry 11 &&& 0x10 != 0

/-- `e[0] == 0xE5 || (e[11] & 0x08)`: deleted, a volume label or part of a long name. -/
def entryHidden (entry : Mem) : Bool := entry 0 == 0xE5 || entry 11 &&& 0x08 != 0

/-- What `dir_find` reports of an entry. -/
structure Found where
  cluster : Nat
  size : Nat
  isDir : Bool
  lba : Nat
  off : Nat
deriving DecidableEq, Repr

def foundAt (lba off : Nat) (entry : Mem) : Found :=
  ⟨entryCluster entry, entrySize entry, entryIsDir entry, lba, off⟩

def findVisit (name : List UInt8) (lba off : Nat) (entry : Mem) (_ : Unit) : Except (Option Found) Unit :=
  if entry 0 = 0 then .error none
  else if entryHidden entry then .ok ()
  else if eq83 name entry then .error (some (foundAt lba off entry))
  else .ok ()

def dirFind (vol : Volume) (fuel dirCl : Nat) (name : List UInt8) : Io (Option Found) :=
  scanChain vol (findVisit name) (fun _ => none) (fun _ => none) fuel dirCl ()

/-- Write `sector` to the given sectors of a cluster, up to the first failure. -/
def writeEach (vol : Volume) (cl : Nat) : List Nat → Io Bool
  | [] => pure true
  | s :: rest => do
    if ← writeAbs vol (u32 (clusterToLba vol cl + s)) then writeEach vol cl rest else pure false

def slotVisit (lba off : Nat) (entry : Mem) (_ : Unit) : Except (Option (Nat × Nat)) Unit :=
  if entry 0 = 0 ∨ entry 0 = 0xE5 then .error (some (lba, off)) else .ok ()

/-- `dir_alloc_slot`: the sector and the offset of a free entry. -/
def dirAllocSlot (vol : Volume) : Nat → Nat → Io (Option (Nat × Nat))
  | 0, _ => fun _ => none
  | fuel + 1, cur => do
    match ← scanSectors vol slotVisit (fun _ => none) cur (List.range vol.secPerCluster) () with
    | .error result => pure result
    | .ok _ => do
      let n ← fatGet vol cur
      if 0x0FFFFFF8 ≤ n then do
        let nc ← fatAllocCluster vol
        if nc = 0 then pure none
        else do
          if ← fatSet vol cur nc then do
            editSector fun _ => blank
            if ← writeEach vol nc (List.range vol.secPerCluster) then dirAllocSlot vol fuel nc else pure none
          else pure none
      else dirAllocSlot vol fuel n

/-- The pieces that `resolve_parent` cuts a path into; the first argument bounds their number. -/
def pathParts : Nat → List UInt8 → List (List UInt8)
  | 0, _ => []
  | steps + 1, path =>
    match path.dropWhile isSeparator with
    | [] => []
    | char :: rest =>
      let part := ((char :: rest).takeWhile fun char => !isSeparator char).take 15
      part :: pathParts steps ((char :: rest).drop part.length)

/-- The loop of `resolve_parent`: the directory and the last piece. -/
def walkParts (vol : Volume) (fuel : Nat) : Nat → List (List UInt8) → Io (Option (Nat × List UInt8))
  | cl, [] => pure (some (cl, []))
  | cl, [part] => pure (some (cl, part))
  | cl, part :: next :: rest =>
    if part = [0x2E] then walkParts vol fuel cl (next :: rest)
    else if part = [0x2E, 0x2E] then walkParts vol fuel vol.rootCluster (next :: rest)
    else do
      match ← dirFind vol fuel cl part with
      | some found => if found.isDir then walkParts vol fuel found.cluster (next :: rest) else pure none
      | none => pure none

/-- The directory in which a path begins. -/
def startCluster (vol : Volume) (path : List UInt8) : Nat :=
  if (path.head?.map isSeparator).getD false then vol.rootCluster else vol.cwdCluster

def resolveParent (vol : Volume) (fuel : Nat) (path : List UInt8) : Io (Option (Nat × List UInt8)) :=
  walkParts vol fuel (startCluster vol path) (pathParts path.length path)

/-- `resolve_full`: the cluster, the size and whether it is a directory. -/
def resolveFull (vol : Volume) (fuel : Nat) (path : List UInt8) : Io (Option (Nat × Nat × Bool)) :=
  if path = [] ∨ path = [0x2F] ∨ path = [0x5C] then pure (some (startCluster vol path, 0, true))
  else do
    match ← resolveParent vol fuel path with
    | none => pure none
    | some (parent, name) =>
      if name = [] then pure (some (parent, 0, true))
      else do
        match ← dirFind vol fuel parent name with
        | none => pure none
        | some found => pure (some (found.cluster, found.size, found.isDir))

/-- The variables that `fat_mount` takes over from the boot sector. -/
def bootFields (boot : Mem) (vol : Volume) : Volume :=
  { vol with
    bytesPerSec := boot.le 11 2
    secPerCluster := (boot 13).toNat
    numFats := (boot 16).toNat
    rootCluster := boot.le 44 4 }

def bootLayout (boot : Mem) (vol : Volume) : Volume :=
  let totsec := if boot.le 32 4 = 0 then boot.le 19 2 else boot.le 32 4
  let fatSize := if boot.le 22 2 = 0 then boot.le 36 4 else boot.le 22 2
  let fatStart := u32 (vol.partLba + boot.le 14 2)
  let rootSecs := (boot.le 17 2 * 32 + 511) / 512
  let dataStart := u32 (fatStart + vol.numFats * fatSize + rootSecs)
  let before := u32 (dataStart + 2 ^ 32 - vol.partLba)
  let dataSecs := if before < totsec then totsec - before else 0
  let clusters := if vol.secPerCluster = 0 then 0 else dataSecs / vol.secPerCluster
  let fatEntries := u32 (fatSize * 512) / 4
  { vol with
    fatSizeSectors := fatSize
    fatStart := fatStart
    dataStart := dataStart
    totalClusters :=
      if clusters = 0 ∨ fatEntries < clusters then if 2 < fatEntries then fatEntries - 2 else 1000 else clusters
    cwdCluster := vol.rootCluster
    cwdPath := (vol.cwdPath.put 0 1 0x2F).put 1 1 0
    mounted := true }

section Mount

variable {m : Type → Type} [Monad m] (readAbs : Nat → m Bool) (sector : m Mem)

/-- The partition's first sector, from the MBR or from the first GPT entry. Here and in `haveMbr` the
read is a parameter, for any of the backends. -/
def partitionLba (mbr : Mem) : m (Option Nat) :=
  if mbr (0x1BE + 4) = 0xEE then do
    if ← readAbs 1 then do
      let header ← sector
      if ← readAbs (header.le 72 4) then do
        let entry ← sector
        pure (some (entry.le 32 4))
      else pure none
    else pure none
  else pure (some (mbr.le (0x1BE + 8) 4))

/-- `fat_mount` from `have_mbr` on. -/
def haveMbr (vol : Volume) : m (Bool × Volume) := do
  let mbr ← sector
  if mbr 510 ≠ 0x55 ∨ mbr 511 ≠ 0xAA then pure (false, vol)
  else do
    match ← partitionLba readAbs sector mbr with
    | none => pure (false, vol)
    | some partLba => do
      let vol := { vol with partLba := partLba }
      if ← readAbs partLba then do
        let boot ← sector
        let vol := bootFields boot vol
        if vol.bytesPerSec ≠ 512 then pure (false, vol) else pure (true, bootLayout boot vol)
      else pure (false, vol)

end Mount

def theSector : Io Mem := return (← get).sector

/-- `fat_mount` on the disk of the backend that it settles on. -/
def fatMount (vol : Volume) : Io (Bool × Volume) := do
  let vol := { vol with mounted := false }
  if ← readAbs vol 0 then haveMbr (readAbs vol) theSector vol else pure (false, vol)

/-- The length of the string in a buffer of the given size. -/
def strlen (buffer : Mem) (size : Nat) : Nat := ((buffer.slice 0 size).takeWhile (· != 0)).length

/-- `sizeof(cwd_path)`. -/
def cwdPathSize : Nat := 128

/-- The string that `fat_getcwd` leaves in a buffer of `maxlen` bytes. -/
def fatGetcwd (vol : Volume) (maxlen : Nat) : List UInt8 :=
  ((vol.cwdPath.slice 0 cwdPathSize).takeWhile (· != 0)).take (maxlen - 1)

/-- The part of `fat_chdir` that appends a relative path to `cwd_path`. -/
def appendCwd (cwdPath : Mem) (path : List UInt8) : Mem :=
  let n := strlen cwdPath cwdPathSize
  let slash := 1 < n ∧ cwdPath (n - 1) ≠ 0x2F ∧ n + 1 < cwdPathSize
  let cwdPath := if slash then cwdPath.put n 1 0x2F else cwdPath
  let n := if slash then n + 1 else n
  if n + path.length < cwdPathSize then (cwdPath.copy n path).put (n + path.length) 1 0 else cwdPath

def fatChdir (vol : Volume) (fuel : Nat) (path : List UInt8) : Io (Bool × Volume) :=
  if vol.mounted then do
    match ← resolveFull vol fuel path with
    | some (cl, _, true) =>
      if (path.head?.map isSeparator).getD false then
        let n := if cwdPathSize ≤ path.length then cwdPathSize - 1 else path.length
        pure (true, { vol with
          cwdCluster := cl
          cwdPath := (vol.cwdPath.copy 0 (path.take n)).put n 1 0 })
      else if path = [0x2E, 0x2E] then
        pure (true, { vol with
          cwdCluster := vol.rootCluster
          cwdPath := (vol.cwdPath.put 0 1 0x2F).put 1 1 0 })
      else if path = [] then pure (true, { vol with cwdCluster := cl })
      else pure (true, { vol with
        cwdCluster := cl
        cwdPath := appendCwd vol.cwdPath path })
    | _ => pure (false, vol)
  else pure (false, vol)

/-- A line of `fat_list`: the printed name, and the size of what is no directory. -/
structure Line where
  name : List UInt8
  isDir : Bool
  size : Nat
deriving DecidableEq, Repr

def listVisit (_ _ : Nat) (entry : Mem) (lines : List Line) : Except (List Line) (List Line) :=
  if entry 0 = 0 then .error lines
  else if entryHidden entry then .ok lines
  else
    let size := if entryIsDir entry then 0 else entrySize entry
    .ok (lines ++ [⟨print83 (entry.slice 0 11), entryIsDir entry, size⟩])

/-- `fat_list`: nothing when the path is no directory. -/
def fatList (vol : Volume) (fuel : Nat) (path : List UInt8) : Io (Option (List Line)) :=
  if vol.mounted then do
    match ← resolveFull vol fuel path with
    | some (cl, _, true) => do
      let lines ← scanChain vol listVisit id id fuel cl []
      pure (some lines)
    | _ => pure none
  else pure none

/-- The first cluster in the entry at `off`. -/
def putCluster (buffer : Mem) (off cl : Nat) : Mem := (buffer.put (off + 26) 2 cl).put (off + 20) 2 (cl / 65536)

/-- A new entry at `off`: the code of `fat_mkdir` and `fat_write_file`, of which the
first leaves the size 0. -/
def putEntry (buffer : Mem) (off : Nat) (name83 : List UInt8) (attr : UInt8) (cl size : Nat) : Mem :=
  let buffer := ((buffer.fill off 32 0).copy off name83).put (off + 11) 1 attr.toNat
  (putCluster buffer off cl).put (off + 28) 4 size

def writeEntry (vol : Volume) (slot : Nat × Nat) (name : List UInt8) (attr : UInt8) (cl size : Nat) : Io Bool := do
  if ← readAbs vol slot.1 then do
    editSector fun sector => putEntry sector slot.2 (to83 name) attr cl size
    writeAbs vol slot.1
  else pure false

def dotName : List UInt8 := padTo 11 [0x2E]

def dotdotName : List UInt8 := padTo 11 [0x2E, 0x2E]

/-- The first sector of a new directory. -/
def dotSector (newCl parent : Nat) : Mem :=
  let sector := putCluster ((blank.copy 0 dotName).put 11 1 0x10) 0 newCl
  putCluster ((sector.copy 32 dotdotName).put (32 + 11) 1 0x10) 32 parent

/-- The sectors of a new directory. -/
def writeDirectory (vol : Volume) (newCl parent : Nat) : Io Bool := do
  editSector fun _ => dotSector newCl parent
  if ← writeAbs vol (clusterToLba vol newCl) then do
    editSector fun sector => if 1 < vol.secPerCluster then blank else sector
    writeEach vol newCl (List.range' 1 (vol.secPerCluster - 1))
  else pure false

def fatMkdir (vol : Volume) (fuel : Nat) (path : List UInt8) : Io Bool :=
  if vol.mounted ∧ path ≠ [] then do
    match ← resolveParent vol fuel path with
    | none => pure false
    | some (parent, name) =>
      if name = [] then pure false
      else do
        match ← dirFind vol fuel parent name with
        | some _ => pure false
        | none => do
          let newCl ← fatAllocCluster vol
          if newCl = 0 then pure false
          else do
            if ← writeDirectory vol newCl parent then do
              match ← dirAllocSlot vol fuel parent with
              | none => pure false
              | some slot => writeEntry vol slot name 0x10 newCl 0
            else pure false
  else pure false

/-- The sectors of a cluster, read while bytes are wanted. -/
def readSectors (vol : Volume) (cl : Nat) : List Nat → Nat → Io (Option (List UInt8))
  | [], _ => pure (some [])
  | s :: rest, want =>
    if want = 0 then pure (some [])
    else do
      if ← readAbs vol (u32 (clusterToLba vol cl + s)) then do
        let medium ← get
        let chunk := medium.sector.slice 0 (min 512 want)
        match ← readSectors vol cl rest (want - chunk.length) with
        | none => pure none
        | some more => pure (some (chunk ++ more))
      else pure none

/-- The loop of `fat_read_file`; `want` is the smaller of `file_sz` and `maxlen`, less
what has been read. -/
def readClusters (vol : Volume) : Nat → Nat → Nat → Io (Option (List UInt8))
  | 0, _, _ => fun _ => none
  | fuel + 1, cl, want =>
    if InChain cl ∧ 0 < want then do
      match ← readSectors vol cl (List.range vol.secPerCluster) want with
      | none => pure none
      | some bytes => do
        let next ← fatGet vol cl
        match ← readClusters vol fuel next (want - bytes.length) with
        | none => pure none
        | some more => pure (some (bytes ++ more))
    else pure (some [])

/-- `fat_read_file`: the bytes put into the buffer, nothing for -1. -/
def fatReadFile (vol : Volume) (fuel : Nat) (path : List UInt8) (maxlen : Nat) : Io (Option (List UInt8)) :=
  if vol.mounted then do
    match ← resolveFull vol fuel path with
    | some (cl, size, false) => readClusters vol fuel cl (min size maxlen)
    | _ => pure none
  else pure none

/-- The remaining sectors of the last cluster: failures are ignored. -/
def zeroEach (vol : Volume) (cl : Nat) : List Nat → Io Unit
  | [] => pure ()
  | z :: rest => do
    editSector fun _ => blank
    let _ ← writeAbs vol (u32 (clusterToLba vol cl + z))
    zeroEach vol cl rest

/-- The sectors of a cluster filled from the data, and the data that is left. -/
def writeSectors (vol : Volume) (cl : Nat) : List Nat → List UInt8 → Io (Option (List UInt8))
  | [], data => pure (some data)
  | s :: rest, data => do
    editSector fun _ => blank.copy 0 (data.take 512)
    if ← writeAbs vol (u32 (clusterToLba vol cl + s)) then
      if data.drop 512 = [] then do
        zeroEach vol cl rest
        pure (some [])
      else writeSectors vol cl rest (data.drop 512)
    else pure none

/-- The loop of `fat_write_file` over new clusters: the first of them. It is entered
with data left. -/
def writeClusters (vol : Volume) : Nat → Nat → Nat → List UInt8 → Io (Option Nat)
  | 0, _, _, _ => fun _ => none
  | fuel + 1, first, prev, data => do
    let c ← fatAllocCluster vol
    if c = 0 then pure none
    else do
      let linked ← (if first = 0 then pure true else fatSet vol prev c)
      if linked then do
        match ← writeSectors vol c (List.range vol.secPerCluster) data with
        | none => pure none
        | some rest =>
          let first := if first = 0 then c else first
          if rest = [] then pure (some first) else writeClusters vol fuel first c rest
      else pure none

/-- The content and the entry of a file whose entry goes to `slot`. -/
def writeContent (vol : Volume) (fuel : Nat) (slot : Nat × Nat) (name data : List UInt8) : Io (Option Nat) := do
  match ← (if data = [] then pure (some 0) else writeClusters vol fuel 0 0 data) with
  | none => pure none
  | some first => do
    if ← writeEntry vol slot name 0x20 first data.length then pure (some data.length) else pure none

/-- `fat_write_file`: the length written, nothing for -1. -/
def fatWriteFile (vol : Volume) (fuel : Nat) (path data : List UInt8) : Io (Option Nat) :=
  if vol.mounted ∧ path ≠ [] ∧ data.length ≤ 512 * 64 then do
    match ← resolveParent vol fuel path with
    | none => pure none
    | some (parent, name) =>
      if name = [] then pure none
      else do
        match ← dirFind vol fuel parent name with
        | some found =>
          if found.isDir then pure none
          else do
            let _ ← (if 2 ≤ found.cluster then fatFreeChain vol fuel found.cluster else pure true)
            writeContent vol fuel (found.lba, found.off) name data
        | none => do
          match ← dirAllocSlot vol fuel parent with
          | none => pure none
          | some slot => writeContent vol fuel slot name data
  else pure none

/-- `e[0] == '.' && (e[1] == ' ' || (e[1] == '.' && e[2] == ' '))`. -/
def entryDot (entry : Mem) : Bool := entry 0 == 0x2E && (entry 1 == 0x20 || entry 1 == 0x2E && entry 2 == 0x20)

def emptyVisit (_ _ : Nat) (entry : Mem) (_ : Unit) : Except Bool Unit :=
  if entry 0 = 0 then .error true
  else if entry 0 = 0xE5 then .ok ()
  else if entryDot entry then .ok ()
  else .error false

/-- The test of `fat_unlink`: true at `empty_ok`. -/
def dirEmpty (vol : Volume) (fuel cl : Nat) : Io Bool :=
  scanChain vol emptyVisit (fun _ => false) (fun _ => true) fuel cl ()

def deleteEntry (vol : Volume) (slot : Nat × Nat) : Io Bool := do
  if ← readAbs vol slot.1 then do
    editSector fun sector => sector.put slot.2 1 0xE5
    writeAbs vol slot.1
  else pure false

def fatUnlink (vol : Volume) (fuel : Nat) (path : List UInt8) : Io Bool :=
  if vol.mounted ∧ path ≠ [] then do
    match ← resolveParent vol fuel path with
    | none => pure false
    | some (parent, name) =>
      if name = [] then pure false
      else do
        match ← dirFind vol fuel parent name with
        | none => pure false
        | some found => do
          let removable ← (if found.isDir then dirEmpty vol fuel found.cluster else pure true)
          if removable then do
            let _ ← (if 2 ≤ found.cluster then fatFreeChain vol fuel found.cluster else pure true)
            deleteEntry vol (found.lba, found.off)
          else pure false
  else pure false

end GWKernel.Fat
