import GWKernel.Vfs

/-! The package manager (kernel/pkg/pkg.c): fetching a package and unpacking it into the cache.
Messages are left out. -/

namespace GWKernel.Pkg
open Vfs

def cacheRoot : List UInt8 := text "C:/var/cache/gwpkg"

def upper8 (name : List UInt8) : List UInt8 := (name.take 8).map Fat.upper

/-- `strcpy_l(buffer + strlen_l(buffer), s, max - strlen_l(buffer))`. -/
def append (buffer s : List UInt8) (max : Nat) : List UInt8 := buffer ++ s.take (max - buffer.length - 1)

/-- `starts`: neither prefix contains the terminator. -/
def starts (s pfx : List UInt8) : Bool := pfx.isPrefixOf s

/-- The directories of `ensure_dirs`. -/
def fixedDirs : List (List UInt8) :=
  ["etc", "etc/gwpkg", "var", "var/cache", "var/cache/gwpkg", "Program Files"].map text

def ensureDirs (fuel : Nat) (state : State) : Option State := do
  let (_, state) ← vfsChdir fuel (text "C:/") state
  fixedDirs.foldlM (fun state path => (vfsMkdir fuel path state).map Prod.snd) state

def manifestMark : List UInt8 := text "---MANIFEST---"

def fileMark : List UInt8 := text "---FILE:"

def endMark : List UInt8 := text "---END---"

/-- What stands before the next mark, and the rest. -/
def toMark : List UInt8 → List UInt8 × List UInt8
  | [] => ([], [])
  | char :: rest =>
    if starts (char :: rest) fileMark || starts (char :: rest) endMark then ([], char :: rest)
    else (char :: (toMark rest).1, (toMark rest).2)

/-- A file name up to a dash, without line ends, in a buffer with the given room. -/
def fileName : Nat → List UInt8 → List UInt8 × List UInt8
  | _, [] => ([], [])
  | room, char :: rest =>
    if char = 0x2D ∨ room = 0 then ([], char :: rest)
    else if char = 0x0D ∨ char = 0x0A then fileName room rest
    else (char :: (fileName (room - 1) rest).1, (fileName (room - 1) rest).2)

def isLineEnd (char : UInt8) : Bool := char == 0x0A || char == 0x0D

/-- The names and contents of the file sections, of which there are at most `steps`. -/
def packageFiles : Nat → List UInt8 → List (List UInt8 × List UInt8)
  | 0, _ => []
  | steps + 1, p =>
    if starts p fileMark then
      let (fname, p) := fileName 63 (p.drop fileMark.length)
      let (data, p) := toMark ((p.dropWhile (· != 0x0A)).drop 1)
      (fname.takeWhile (· != 0), (data.reverse.dropWhile isLineEnd).reverse) :: packageFiles steps p
    else []

/-- `base`: the directory of a package in the cache. -/
def cacheDir (uname : List UInt8) : List UInt8 := append (strcpy cacheRoot 96 ++ [0x2F]) uname 96

def filePath (base fname : List UInt8) : List UInt8 :=
  let fpath := strcpy base 128
  append (if fpath.length + 1 < 128 then fpath ++ [0x2F] else fpath) fname 128

/-- The manifest section is written to the cache; the rest of the blob follows. -/
def unpackManifest (fuel : Nat) (base blob : List UInt8) (state : State) : Option (List UInt8 × State) :=
  if starts blob manifestMark then do
    let p := blob.drop manifestMark.length
    let p := if p.head? = some 0x0D then p.tail else p
    let p := if p.head? = some 0x0A then p.tail else p
    let (man, p) := toMark p
    let (_, state) ← vfsWrite fuel (append (strcpy base 112) (text "/MANIFEST.TXT") 112) man state
    some (p, state)
  else some (blob, state)

/-- `unpack_pkg`: the number of files. -/
def unpackPkg (fuel : Nat) (uname blob : List UInt8) (state : State) : Option (Nat × State) := do
  let state ← ensureDirs fuel state
  let (_, state) ← vfsChdir fuel cacheRoot state
  let (_, state) ← vfsMkdir fuel uname state
  let base := cacheDir uname
  let (_, state) ← vfsWrite fuel (append (strcpy base 112) (text "/PKG.TXT") 112) blob state
  let (p, state) ← unpackManifest fuel base blob state
  let files := packageFiles p.length p
  let state ← files.foldlM (fun state file => (vfsWrite fuel (filePath base file.1) file.2 state).map Prod.snd) state
  some (files.length, state)

/-- `pkg_fetch`, with the reply of `net_http_get`: nothing when it fails. -/
def pkgFetch (fuel : Nat) (name : List UInt8) (reply : Option (List UInt8)) (state : State) : Option (Bool × State) :=
  match name, reply with
  | [], _ => some (false, state)
  | _, none => some (false, state)
  | _, some [] => some (false, state)
  | name, some blob => do
    let (files, state) ← unpackPkg fuel (upper8 name) blob state
    some (decide (0 < files), state)

end GWKernel.Pkg
