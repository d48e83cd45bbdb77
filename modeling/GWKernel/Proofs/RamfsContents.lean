import GWKernel.VfsBuffers
import GWKernel.Proofs.FailedCalls

/-! Files on drive C keep what is written to them: every file has a block of `kmalloc` to itself,
and its bytes are those of its buffer in `Vfs`. -/

namespace GWKernel.Vfs
open Lib List Option

variable {address : Nat → Nat} {ram other : Ramfs} {heap : Heap} {block : Nat → Nat} {fuel n : Nat}
  {state after : State} {path buf : List UInt8} {kids : Nat → List Nat}

def IsFile (ram : Ramfs) (n : Nat) : Prop := n < ram.nodeCount ∧ (ram.nodes n).type = .file

/-- The blocks that `kmalloc` has returned, given by their sizes in order, do not overlap. -/
def BlocksApart (address : Nat → Nat) (sizes : List Nat) : Prop :=
  ∀ j k a b, j ≠ k → sizes[j]? = some a → sizes[k]? = some b → address j + a ≤ address k ∨ address k + b ≤ address j

/-- Each file has a block of its own, which holds its capacity and its contents. -/
structure Placed (address : Nat → Nat) (ram : Ramfs) (heap : Heap) (block : Nat → Nat) : Prop where
  pointer : ∀ n, IsFile ram n → heap.data n = some (address (block n))
  granted : ∀ n, IsFile ram n → ram.kmallocs.reverse[block n]? = some (ram.nodes n).capacity
  bounds : ∀ n, IsFile ram n →
    (ram.nodes n).size ≤ (ram.nodes n).capacity ∧ (ram.nodes n).capacity ≤ maxFileSize
  own : ∀ n m, IsFile ram n → IsFile ram m → block n = block m → n = m
  buffer : ∀ n, IsFile ram n → (ram.nodes n).data ≠ none
  same : ∀ n, IsFile ram n → heap.memory.slice (heap.pointer n) (ram.nodes n).size = contents ram n

theorem kmallocs_kept {before after : List Nat} (more : before <:+ after) {k size : Nat}
    (granted : before.reverse[k]? = some size) : after.reverse[k]? = some size := by
  obtain ⟨new, rfl⟩ := more
  obtain ⟨inside, _⟩ := List.getElem?_eq_some_iff.mp granted
  rw [reverse_append, getElem?_append_left inside, granted]

theorem Placed.slice_eq (placed : Placed address ram heap block) (isFile : IsFile ram n) :
    heap.memory.slice (address (block n)) (ram.nodes n).size = contents ram n := by
  have is : heap.pointer n = address (block n) := by
    unfold Heap.pointer
    rw [placed.pointer n isFile]
    rfl
  rw [← is, placed.same n isFile]

structure Idle (before after : Ramfs) : Prop where
  files : ∀ n, IsFile after n → IsFile before n ∧ (after.nodes n).data = (before.nodes n).data ∧
    (after.nodes n).size = (before.nodes n).size ∧ (after.nodes n).capacity = (before.nodes n).capacity
  low : after.low = before.low
  kmallocs : after.kmallocs = before.kmallocs

theorem Idle.refl (ram : Ramfs) : Idle ram ram := ⟨fun _ isFile => ⟨isFile, rfl, rfl, rfl⟩, rfl, rfl⟩

theorem Idle.placed (idle : Idle ram other) (placed : Placed address ram heap block) :
    Placed address other heap block := by
  refine ⟨fun n is => ?_, fun n is => ?_, fun n is => ?_, fun n m is also => ?_, fun n is => ?_, fun n is => ?_⟩ <;>
    obtain ⟨was, data, size, capacity⟩ := idle.files n is
  · exact placed.pointer n was
  · rw [idle.kmallocs, capacity, placed.granted n was]
  · rw [size, capacity]
    exact placed.bounds n was
  · exact placed.own n m was (idle.files m also).1
  · rw [data]
    exact placed.buffer n was
  · unfold contents Ramfs.buffer
    rw [size, data, idle.low]
    exact placed.same n was

variable {par m : Nat} {name : List UInt8}

theorem Added.data_old {type : NodeType} (added : Added ram other par n name type) (below : m < ram.nodeCount) :
    (other.nodes m).data = (ram.nodes m).data ∧ (other.nodes m).size = (ram.nodes m).size ∧
      (other.nodes m).capacity = (ram.nodes m).capacity := by
  have notNew : m ≠ n := by
    have fresh := added.fresh
    omega
  by_cases here : m = par
  · rw [here, added.parent]
    exact ⟨rfl, rfl, rfl⟩
  · rw [added.rest m notNew here]
    exact ⟨rfl, rfl, rfl⟩

theorem Added.isFile_iff {type : NodeType} (added : Added ram other par n name type) :
    IsFile other m ↔ IsFile ram m ∨ m = n ∧ type = .file := by
  have fresh := added.fresh
  unfold IsFile
  rw [added.count]
  by_cases old : m < ram.nodeCount
  · have differ : m ≠ n := by omega
    rw [(added.old old).2.1]
    simp only [old, true_and, differ, false_and, or_false, and_iff_right_iff_imp]
    omega
  · by_cases here : m = n
    · subst here
      rw [added.node]
      simp [old]
    · simp only [old, here, false_and, or_false, iff_false, not_and]
      omega

theorem Added.idle (added : Added ram other par n name .dir) : Idle ram other := by
  refine ⟨fun m isFile => ?_, added.memory.1, added.memory.2.2⟩
  rcases added.isFile_iff.mp isFile with old | ⟨_, no⟩
  · exact ⟨old, added.data_old old.1⟩
  · cases no

theorem Removed.idle (removed : Removed ram kids n other) : Idle ram other := by
  cases removed with
  | @cut nodes par notRoot parent bare cut =>
    have same (m : Nat) : (nodes m).type = (ram.nodes m).type ∧ (nodes m).data = (ram.nodes m).data ∧
        (nodes m).size = (ram.nodes m).size ∧ (nodes m).capacity = (ram.nodes m).capacity := by
      cases cut with
      | absent => exact ⟨rfl, rfl, rfl, rfl⟩
      | first | inner =>
        unfold setNode
        split
        next is =>
          subst is
          exact ⟨rfl, rfl, rfl, rfl⟩
        next => exact ⟨rfl, rfl, rfl, rfl⟩
    refine ⟨fun m isFile => ?_, rfl, rfl⟩
    by_cases here : m = n
    · have cleared := isFile.2
      rw [here] at cleared
      simp [setNode] at cleared
    · have kept : setNode nodes n { nodes n with type := .cleared, name := [] } m = nodes m := setNode_other _ here
      obtain ⟨type, data, size, capacity⟩ := same m
      refine ⟨⟨isFile.1, ?_⟩, ?_⟩
      · rw [← type, ← kept]
        exact isFile.2
      · dsimp only
        rw [kept]
        exact ⟨data, size, capacity⟩

section Quiet

variable (tree : Tree state.ram kids) (home : state.cwd < state.ram.nodeCount)
include tree home

theorem vfsMkdir_idle {ok : Bool} (ran : vfsMkdir fuel path state = some (ok, after)) : Idle state.ram after.ram := by
  unfold vfsMkdir at ran
  dsimp only at ran
  split at ran
  next =>
    rw [(onFat_keeps ran).1]
    exact .refl _
  next =>
    obtain ⟨outcome, made, ran⟩ := bind_eq_some_iff.mp ran
    cases outcome with
    | none =>
      cases ran
      exact .refl _
    | some made_ =>
      cases ran
      obtain ⟨_, _, _, added, _⟩ := addNode_spec tree home made
      exact added.idle

theorem Call.run_idle {call : Call} (quiet : ∀ path, call ≠ .createFile path) (reads : ∀ path buf, call ≠ .write path buf)
    (ran : call.run fuel state = some after) : Idle state.ram after.ram := by
  cases call with
  | mkdir path =>
    obtain ⟨⟨ok, final⟩, returned, rfl⟩ := map_eq_some_iff.mp ran
    exact vfsMkdir_idle tree home returned
  | createFile path => exact absurd rfl (quiet path)
  | write path buf => exact absurd rfl (reads path buf)
  | read path maxlen =>
    obtain ⟨⟨bytes, final⟩, returned, rfl⟩ := map_eq_some_iff.mp ran
    rw [(vfsRead_keeps returned).1]
    exact .refl _
  | unlink path =>
    obtain ⟨⟨ok, final⟩, returned, rfl⟩ := map_eq_some_iff.mp ran
    rcases (vfsUnlink_cases tree home returned).2 with same | ⟨n, _, _, _, removed⟩
    · rw [same]
      exact .refl _
    · exact removed.idle
  | chdir path =>
    obtain ⟨⟨ok, final⟩, returned, rfl⟩ := map_eq_some_iff.mp ran
    rw [(vfsChdir_moves tree home returned).1]
    exact .refl _

end Quiet

structure Changed (n : Nat) (before after : Ramfs) : Prop where
  files : ∀ m, m ≠ n → IsFile after m → IsFile before m
  same : ∀ m, m ≠ n → IsFile before m → IsFile after m ∧ (after.nodes m).data = (before.nodes m).data ∧
    (after.nodes m).size = (before.nodes m).size ∧ (after.nodes m).capacity = (before.nodes m).capacity
  low : after.low = before.low
  kmallocs : before.kmallocs <:+ after.kmallocs

theorem Changed.refl (n : Nat) (ram : Ramfs) : Changed n ram ram :=
  ⟨fun _ _ is => is, fun _ _ is => ⟨is, rfl, rfl, rfl⟩, rfl, suffix_rfl⟩

theorem Changed.contents (changed : Changed n ram other) (differ : m ≠ n) (isFile : IsFile ram m) :
    contents other m = contents ram m := by
  obtain ⟨_, data, size, _⟩ := changed.same m differ isFile
  unfold Vfs.contents Ramfs.buffer
  rw [data, size, changed.low]

theorem Placed.replace {k : Nat} {heap' : Heap} (placed : Placed address ram heap block) (changed : Changed n ram other)
    (granted : other.kmallocs.reverse[k]? = some (other.nodes n).capacity)
    (bounds : (other.nodes n).size ≤ (other.nodes n).capacity ∧ (other.nodes n).capacity ≤ maxFileSize)
    (buffer : (other.nodes n).data ≠ none) (free : ∀ m, m ≠ n → IsFile ram m → block m ≠ k)
    (pointer : heap'.data n = some (address k)) (pointers : ∀ m, m ≠ n → heap'.data m = heap.data m)
    (kept : ∀ m, m ≠ n → IsFile ram m →
      Mem.Agree heap'.memory heap.memory (address (block m)) (ram.nodes m).size)
    (written : heap'.memory.slice (address k) (other.nodes n).size = contents other n) :
    Placed address other heap' fun m => if m = n then k else block m := by
  have points (m : Nat) (is : IsFile other m) :
      heap'.data m = some (address (if m = n then k else block m)) := by
    split
    next here => rw [here, pointer]
    next differ => rw [pointers m differ, placed.pointer m (changed.files m differ is)]
  refine ⟨points, fun m is => ?_, fun m is => ?_, fun m l is also => ?_, fun m is => ?_, fun m is => ?_⟩
  · split
    next here => rw [here, granted]
    next differ =>
      have was := changed.files m differ is
      rw [(changed.same m differ was).2.2.2]
      exact kmallocs_kept changed.kmallocs (placed.granted m was)
  · by_cases here : m = n
    · rwa [here]
    · have was := changed.files m here is
      obtain ⟨_, _, size, capacity⟩ := changed.same m here was
      rw [size, capacity]
      exact placed.bounds m was
  · by_cases first : m = n <;> by_cases second : l = n
    · exact fun _ => first.trans second.symm
    · rw [if_pos first, if_neg second]
      exact fun clash => absurd clash.symm (free l second (changed.files l second also))
    · rw [if_neg first, if_pos second]
      exact fun clash => absurd clash (free m first (changed.files m first is))
    · rw [if_neg first, if_neg second]
      exact placed.own m l (changed.files m first is) (changed.files l second also)
  · by_cases here : m = n
    · rwa [here]
    · have was := changed.files m here is
      rw [(changed.same m here was).2.1]
      exact placed.buffer m was
  · unfold Heap.pointer
    rw [points m is, getD_some]
    split
    next here => rw [here, written]
    next differ =>
      have was := changed.files m differ is
      rw [(changed.same m differ was).2.2.1, (kept m differ was).slice_eq, placed.slice_eq was,
        changed.contents differ was]

theorem Placed.counted (placed : Placed address ram heap block) (isFile : IsFile ram n) :
    block n < ram.kmallocs.length := by
  obtain ⟨inside, _⟩ := List.getElem?_eq_some_iff.mp (placed.granted n isFile)
  rwa [length_reverse] at inside

theorem kmalloc_some (granted : Granted ram 0) (size : Nat) : ∃ buffer rest,
    kmalloc ram size = (some buffer, { ram with grants := rest, kmallocs := size :: ram.kmallocs }) := by
  obtain ⟨buffer, is⟩ := granted
  unfold kmalloc
  cases grants : ram.grants with
  | nil => simp [grants] at is
  | cons first rest =>
    rw [grants, getElem?_cons_zero, some_inj] at is
    subst is
    exact ⟨buffer, rest, rfl⟩

theorem giveBuffer_some (granted : Granted ram 0) (f : Nat) : ∃ buffer rest,
    giveBuffer ram f = (true, { ram with
      nodes := setNode ram.nodes f { ram.nodes f with data := some buffer, size := 0, capacity := 512 },
      grants := rest, kmallocs := 512 :: ram.kmallocs }) := by
  have granted' : Granted { ram with nodes := setNode ram.nodes f { ram.nodes f with capacity := 512 } } 0 := granted
  obtain ⟨buffer, rest, is⟩ := kmalloc_some granted' 512
  refine ⟨buffer, rest, ?_⟩
  unfold giveBuffer
  dsimp only at is ⊢
  rw [is]
  dsimp only
  congr 2
  funext m
  by_cases here : m = f <;> simp [setNode, here]

theorem Added.give {middle : Ramfs} (added : Added ram middle par n name .file) (granted : Granted middle 0) :
    Changed n ram (giveBuffer middle n).2 ∧ IsFile (giveBuffer middle n).2 n ∧
      (giveBuffer middle n).2.kmallocs = 512 :: ram.kmallocs ∧ ((giveBuffer middle n).2.nodes n).data ≠ none ∧
      ((giveBuffer middle n).2.nodes n).size = 0 ∧ ((giveBuffer middle n).2.nodes n).capacity = 512 := by
  obtain ⟨buffer, rest, given⟩ := giveBuffer_some granted n
  have kmallocs : (giveBuffer middle n).2.kmallocs = 512 :: ram.kmallocs := by rw [given, ← added.memory.2.2]
  have same := (fills_giveBuffer middle n).same.tree
  have isFile (m : Nat) : IsFile (giveBuffer middle n).2 m ↔ IsFile ram m ∨ m = n := by
    have iff := added.isFile_iff (m := m)
    unfold IsFile at iff ⊢
    rw [same.count, same.type, iff]
    simp
  refine ⟨⟨fun m differ is => ((isFile m).mp is).resolve_right differ, fun m differ was => ?_, ?_, ?_⟩, ?_, kmallocs, ?_⟩
  · rw [(fills_giveBuffer middle n).others m differ]
    exact ⟨(isFile m).mpr (.inl was), added.data_old was.1⟩
  · rw [given, ← added.memory.1]
  · exact ⟨[512], kmallocs.symm⟩
  · exact (isFile n).mpr (.inr rfl)
  · rw [given]
    simp [setNode]

theorem Placed.give {middle : Ramfs} (placed : Placed address ram heap block)
    (added : Added ram middle par n name .file) (granted : Granted middle 0) :
    Placed address (giveBuffer middle n).2 (heap.give address middle n)
      fun m => if m = n then ram.kmallocs.length else block m := by
  obtain ⟨changed, _, kmallocs, buffer, size, capacity⟩ := added.give granted
  have called : nextAddress address middle 512 = some (address ram.kmallocs.length) := by
    obtain ⟨_, _, is⟩ := kmalloc_some granted 512
    unfold nextAddress
    rw [is, added.memory.2.2]
    rfl
  unfold Heap.give
  rw [called]
  refine placed.replace changed ?_ ?_ buffer (fun m _ was => ?_) ?_ (fun m differ => if_neg differ)
    (fun _ _ _ _ _ _ => rfl) ?_
  · rw [kmallocs, capacity]
    simp
  · rw [size, capacity]
    decide
  · have inside := placed.counted was
    omega
  · exact if_pos rfl
  · unfold Vfs.contents
    rw [size]
    rfl

def capacityFor (ram : Ramfs) (n : Nat) (buf : List UInt8) : Nat :=
  if (ram.nodes n).capacity < storedLength buf then min (storedLength buf + 256) maxFileSize else (ram.nodes n).capacity

theorem putData_node {buffer : Mem} (data : (ram.nodes n).data = some buffer) (bytes : List UInt8) :
    putData ram n bytes = { ram with
      nodes := setNode ram.nodes n { ram.nodes n with data := some (buffer.copy 0 bytes), size := bytes.length } } := by
  unfold putData
  rw [data]
  dsimp only
  congr 1
  funext m
  by_cases here : m = n <;> simp [setNode, here]

theorem growBuffer_some (granted : Granted ram 0) (n len : Nat) : ∃ nd rest,
    growBuffer ram n len = (true, { ram with
      nodes := setNode ram.nodes n { ram.nodes n with data := some nd, capacity := min (len + 256) maxFileSize },
      grants := rest, kmallocs := min (len + 256) maxFileSize :: ram.kmallocs }) := by
  obtain ⟨new, rest, is⟩ := kmalloc_some granted (min (len + 256) maxFileSize)
  unfold growBuffer
  dsimp only
  rw [is]
  exact ⟨_, rest, rfl⟩

theorem setNode_same (nodes : Nat → Node) (n : Nat) (node : Node) : setNode nodes n node n = node := if_pos rfl

theorem store_file (isFile : IsFile ram n) (buffer : (ram.nodes n).data ≠ none) (granted : Granted ram 0)
    (buf : List UInt8) : ∃ data grants,
    store ram n buf = (some (storedLength buf), { ram with
      nodes := setNode ram.nodes n { ram.nodes n with
        data := some data, size := storedLength buf, capacity := capacityFor ram n buf },
      grants := grants,
      kmallocs := if (ram.nodes n).capacity < storedLength buf then capacityFor ram n buf :: ram.kmallocs
        else ram.kmallocs }) ∧ data.slice 0 (storedLength buf) = buf.take maxFileSize := by
  have length : (buf.take maxFileSize).length = storedLength buf := length_take
  have put (old : Mem) : (old.copy 0 (buf.take maxFileSize)).slice 0 (storedLength buf) = buf.take maxFileSize := by
    rw [← length, Mem.slice_copy]
  unfold store capacityFor
  rw [if_neg (not_not.mpr isFile.2)]
  dsimp only
  rw [length]
  by_cases long : (ram.nodes n).capacity < storedLength buf
  · obtain ⟨nd, rest, is⟩ := growBuffer_some granted n (storedLength buf)
    rw [if_pos long, if_pos long, if_pos long, is]
    refine ⟨nd.copy 0 (buf.take maxFileSize), rest,
      congrArg (Prod.mk _) ((putData_node (congrArg Node.data (setNode_same _ _ _)) _).trans ?_), put nd⟩
    congr 1
    funext m
    by_cases here : m = n <;> simp [setNode, here, length]
  · rw [if_neg long, if_neg long, if_neg long]
    obtain ⟨old, is⟩ := ne_none_iff_exists'.mp buffer
    rw [if_pos rfl, putData_node is]
    refine ⟨_, ram.grants, ?_, put old⟩
    rw [length]

/-- A file after the bytes have been stored, and the others, which are what they were. -/
structure Overwritten (ram : Ramfs) (n : Nat) (buf : List UInt8) (other : Ramfs) : Prop where
  changed : Changed n ram other
  isFile : IsFile other n
  buffer : (other.nodes n).data ≠ none
  size : (other.nodes n).size = storedLength buf
  capacity : (other.nodes n).capacity = capacityFor ram n buf
  contents : contents other n = buf.take maxFileSize
  kmallocs : other.kmallocs =
    if (ram.nodes n).capacity < storedLength buf then capacityFor ram n buf :: ram.kmallocs else ram.kmallocs

theorem store_overwrites (isFile : IsFile ram n) (buffer : (ram.nodes n).data ≠ none) (granted : Granted ram 0)
    (buf : List UInt8) :
    (store ram n buf).1 = some (storedLength buf) ∧ Overwritten ram n buf (store ram n buf).2 := by
  obtain ⟨data, grants, stored, written⟩ := store_file isFile buffer granted buf
  rw [stored]
  refine ⟨rfl, ⟨fun m differ is => ?_, fun m differ was => ?_, rfl, ?_⟩, ?_, ?_, ?_, ?_, ?_, rfl⟩
  · exact ⟨is.1, by simpa [setNode, differ] using is.2⟩
  · have same : setNode ram.nodes n { ram.nodes n with
        data := some data, size := storedLength buf, capacity := capacityFor ram n buf } m = ram.nodes m :=
      setNode_other _ differ
    unfold IsFile
    dsimp only
    rw [same]
    exact ⟨was, rfl, rfl, rfl⟩
  · dsimp only
    split
    · exact suffix_cons _ _
    · exact suffix_rfl
  · exact ⟨isFile.1, by simpa [setNode] using isFile.2⟩
  · simp [setNode]
  · simp [setNode]
  · simp [setNode]
  · simp [Vfs.contents, Ramfs.buffer, setNode, written]

theorem storedLength_le (buf : List UInt8) : storedLength buf ≤ maxFileSize := Nat.min_le_left _ _

theorem storedLength_le_capacityFor (ram : Ramfs) (n : Nat) (buf : List UInt8) :
    storedLength buf ≤ capacityFor ram n buf := by
  have most := storedLength_le buf
  unfold capacityFor
  split <;> omega

theorem Placed.overwrite {k : Nat} {heap' : Heap} (placed : Placed address ram heap block) (isFile : IsFile ram n)
    (stored : Overwritten ram n buf other) (apart : BlocksApart address other.kmallocs.reverse)
    (holds : other.kmallocs.reverse[k]? = some (capacityFor ram n buf))
    (free : ∀ m, m ≠ n → IsFile ram m → block m ≠ k) (pointer : heap'.data n = some (address k))
    (pointers : ∀ m, m ≠ n → heap'.data m = heap.data m)
    (kept : ∀ start size, start + size ≤ address k ∨ address k + capacityFor ram n buf ≤ start →
      Mem.Agree heap'.memory heap.memory start size)
    (written : heap'.memory.slice (address k) (storedLength buf) = buf.take maxFileSize) :
    Placed address other heap' fun m => if m = n then k else block m := by
  refine placed.replace stored.changed ?_ ?_ stored.buffer free pointer pointers (fun m differ was => kept _ _ ?_) ?_
  · rw [stored.capacity, holds]
  · have old := placed.bounds n isFile
    rw [stored.size, stored.capacity]
    refine ⟨storedLength_le_capacityFor ram n buf, ?_⟩
    unfold capacityFor
    split <;> omega
  · have theirs := kmallocs_kept stored.changed.kmallocs (placed.granted m was)
    have size := (placed.bounds m was).1
    rcases apart _ _ _ _ (free m differ was) theirs holds with below | above
    · exact .inl (by omega)
    · exact .inr above
  · rw [stored.size, written, stored.contents]

theorem Heap.pointer_setData (heap : Heap) (n data : Nat) : (heap.setData n (some data)).pointer n = data := by
  simp [Heap.pointer, Heap.setData]

theorem Placed.store (placed : Placed address ram heap block) (isFile : IsFile ram n) (granted : Granted ram 0)
    (apart : BlocksApart address (store ram n buf).2.kmallocs.reverse) :
    ∃ now, Placed address (store ram n buf).2 (heap.store address ram n buf) now := by
  obtain ⟨_, stored⟩ := store_overwrites isFile (placed.buffer n isFile) granted buf
  have kmallocs := stored.kmallocs
  have length : (buf.take maxFileSize).length = storedLength buf := length_take
  have room := storedLength_le_capacityFor ram n buf
  unfold Heap.store
  rw [if_neg (not_not.mpr isFile.2)]
  dsimp only
  rw [length]
  by_cases long : (ram.nodes n).capacity < storedLength buf
  · obtain ⟨_, _, grown⟩ := growBuffer_some granted n (storedLength buf)
    have called : nextAddress address ram (min (storedLength buf + 256) maxFileSize) =
        some (address ram.kmallocs.length) := by
      obtain ⟨_, _, is⟩ := kmalloc_some granted (min (storedLength buf + 256) maxFileSize)
      unfold nextAddress
      rw [is]
      rfl
    rw [if_pos long] at kmallocs
    rw [if_pos long, grown, if_pos rfl]
    unfold Heap.grow Heap.put
    rw [called]
    rw [Heap.pointer_setData]
    refine ⟨_, @Placed.overwrite _ _ _ _ _ _ _ ram.kmallocs.length _ placed isFile stored apart ?_
      (fun m _ was => ?_) (if_pos rfl) (fun m differ => if_neg differ) (fun start size outside => ?_) ?_⟩
    · rw [kmallocs]
      simp
    · have inside := placed.counted was
      omega
    · -- The old content is no longer than the new.
      have fits := placed.bounds n isFile
      refine (Mem.copy_agree _ _ _ ?_).trans (Mem.copy_agree _ _ _ ?_)
      · rw [length]
        omega
      · rw [Mem.slice_length]
        omega
    · dsimp only
      rw [← length, Mem.slice_copy]
  · have here : heap.pointer n = address (block n) := by
      unfold Heap.pointer
      rw [placed.pointer n isFile]
      rfl
    rw [if_neg long] at kmallocs
    rw [if_neg long]
    unfold Heap.put
    rw [here]
    refine ⟨_, placed.overwrite isFile stored apart ?_ (fun m differ was clash => differ (placed.own m n was isFile clash))
      (placed.pointer n isFile) (fun _ _ => rfl) (fun start size outside => Mem.copy_agree _ _ _ ?_) ?_⟩
    · rw [kmallocs, capacityFor, if_neg long]
      exact placed.granted n isFile
    · rw [length]
      omega
    · dsimp only
      rw [← length, Mem.slice_copy]

variable {machine final : Machine}

theorem Machine.createFile_state {ok : Bool} (ran : machine.createFile address fuel path = some (ok, final)) :
    vfsCreateFile fuel path machine.state = some (ok, final.state) := by
  unfold Machine.createFile at ran
  dsimp only at ran
  split at ran
  next =>
    obtain ⟨⟨made, state⟩, called, is⟩ := bind_eq_some_iff.mp ran
    cases is
    exact called
  next here =>
    obtain ⟨outcome, made, ran⟩ := bind_eq_some_iff.mp ran
    unfold vfsCreateFile
    dsimp only
    rw [if_neg here, made]
    cases outcome with
    | none =>
      cases ran
      rfl
    | some made_ =>
      cases ran
      rfl

theorem Machine.write_state {wrote : Option Nat} (ran : machine.write address fuel path buf = some (wrote, final)) :
    vfsWrite fuel path buf machine.state = some (wrote, final.state) := by
  unfold Machine.write at ran
  dsimp only at ran
  split at ran
  next =>
    obtain ⟨⟨made, state⟩, called, is⟩ := bind_eq_some_iff.mp ran
    cases is
    exact called
  next here =>
    obtain ⟨found, looked, ran⟩ := bind_eq_some_iff.mp ran
    have onC := not_or.mp here
    unfold vfsWrite
    dsimp only
    rw [if_neg onC.1, if_neg onC.2, looked]
    cases found with
    | some n =>
      cases ran
      rfl
    | none =>
      obtain ⟨⟨made, middle⟩, created, ran⟩ := bind_eq_some_iff.mp ran
      rw [bind_eq_bind, bind_some, Machine.createFile_state created]
      split at ran
      next yes =>
        obtain ⟨found, looked, ran⟩ := bind_eq_some_iff.mp ran
        rw [bind_eq_bind, bind_some, if_pos yes, looked]
        cases found with
        | none | some =>
          cases ran
          rfl
      next no =>
        cases ran
        rw [bind_eq_bind, bind_some, if_neg no]

def Fed (state : State) : Prop := Granted state.ram 0 ∧ Granted state.ram 1

def Call.runOn (address : Nat → Nat) (fuel : Nat) (machine : Machine) : Call → Option Machine
  | .createFile path => (machine.createFile address fuel path).map Prod.snd
  | .write path buf => (machine.write address fuel path buf).map Prod.snd
  | call => (call.run fuel machine.state).map fun state => { machine with state := state }

structure Machine.Step (address : Nat → Nat) (machine : Machine) (call : Call) (after : Machine) : Prop where
  fed : Fed machine.state
  ran : ∃ fuel, call.runOn address fuel machine = some after
  apart : BlocksApart address after.state.ram.kmallocs.reverse

theorem Call.runOn_state {call : Call} (ran : call.runOn address fuel machine = some final) :
    call.run fuel machine.state = some final.state := by
  cases call with
  | createFile path =>
    obtain ⟨⟨ok, last⟩, returned, rfl⟩ := map_eq_some_iff.mp ran
    exact map_eq_some_iff.mpr ⟨_, Machine.createFile_state returned, rfl⟩
  | write path buf =>
    obtain ⟨⟨wrote, last⟩, returned, rfl⟩ := map_eq_some_iff.mp ran
    exact map_eq_some_iff.mpr ⟨_, Machine.write_state returned, rfl⟩
  | mkdir | read | unlink | chdir =>
    obtain ⟨state, returned, rfl⟩ := map_eq_some_iff.mp ran
    exact returned

section Machine

variable (tree : Tree machine.state.ram kids) (home : machine.state.cwd < machine.state.ram.nodeCount)
  (placed : Placed address machine.state.ram machine.heap block)
include tree home placed

theorem Machine.createFile_placed {ok : Bool} (fed : Fed machine.state)
    (ran : machine.createFile address fuel path = some (ok, final)) :
    (∃ now, Placed address final.state.ram final.heap now) ∧
      Changed machine.state.ram.nodeCount machine.state.ram final.state.ram ∧ Granted final.state.ram 0 ∧
      final.state.drive = machine.state.drive := by
  unfold Machine.createFile at ran
  dsimp only at ran
  split at ran
  next onD =>
    obtain ⟨⟨made, state⟩, called, is⟩ := bind_eq_some_iff.mp ran
    cases is
    unfold vfsCreateFile at called
    dsimp only at called
    rw [if_pos onD] at called
    obtain ⟨⟨wrote, last⟩, put, is⟩ := bind_eq_some_iff.mp called
    cases is
    obtain ⟨same, _, drive, _⟩ := onFat_keeps put
    rw [same]
    exact ⟨⟨block, placed⟩, .refl _ _, fed.1, drive⟩
  next =>
    obtain ⟨outcome, made, ran⟩ := bind_eq_some_iff.mp ran
    cases outcome with
    | none =>
      cases ran
      exact ⟨⟨block, placed⟩, .refl _ _, fed.1, rfl⟩
    | some made_ =>
      obtain ⟨f, ram⟩ := made_
      cases ran
      obtain ⟨_, _, _, added, _⟩ := addNode_spec tree home made
      have granted (index : Nat) : Granted ram index ↔ Granted machine.state.ram index := added.granted index
      have fresh := added.fresh
      subst fresh
      refine ⟨⟨_, placed.give added ((granted 0).mpr fed.1)⟩, (added.give ((granted 0).mpr fed.1)).1, ?_, rfl⟩
      exact ((giveBuffer_spec ram _).2.1 0).mpr ((granted 1).mpr fed.2)

omit tree home in
theorem Machine.storeAt_placed {found : Option Nat} (granted : Granted machine.state.ram 0)
    (inside : ∀ n, found = some n → n < machine.state.ram.nodeCount)
    (apart : BlocksApart address (machine.storeAt address found buf).2.state.ram.kmallocs.reverse) :
    ∃ now, Placed address (machine.storeAt address found buf).2.state.ram (machine.storeAt address found buf).2.heap now := by
  cases found with
  | none => exact ⟨block, placed⟩
  | some n =>
    by_cases isFile : (machine.state.ram.nodes n).type = .file
    · exact placed.store ⟨inside n rfl, isFile⟩ granted apart
    · have same : (store machine.state.ram n buf).2 = machine.state.ram := by
        unfold Vfs.store
        rw [if_pos isFile]
      have still : machine.heap.store address machine.state.ram n buf = machine.heap := by
        unfold Heap.store
        rw [if_pos isFile]
      refine ⟨block, ?_⟩
      unfold Machine.storeAt
      dsimp only
      rw [same, still]
      exact placed

structure Storing (machine : Machine) (address : Nat → Nat) (fuel : Nat) (path : List UInt8) (middle : Machine)
    (found : Option Nat) : Prop where
  consistent : Consistent middle.state
  placed : ∃ now, Placed address middle.state.ram middle.heap now
  changed : Changed machine.state.ram.nodeCount machine.state.ram middle.state.ram
  granted : Granted middle.state.ram 0
  drive : middle.state.drive = machine.state.drive
  looked : ∀ n, found = some n → vfsLookup middle.state fuel path = some (some n)

theorem Machine.write_stores {result : Option Nat × Machine} (fed : Fed machine.state)
    (here : ¬((parseDrive machine.state.drive path).1 = .d ∨ machine.state.drive = .d ∧ namesC path = false))
    (ran : machine.write address fuel path buf = some result) :
    ∃ middle found, Storing machine address fuel path middle found ∧ result = middle.storeAt address found buf := by
  unfold Machine.write at ran
  dsimp only at ran
  rw [if_neg here] at ran
  obtain ⟨found, looked, ran⟩ := bind_eq_some_iff.mp ran
  cases found with
  | some n =>
    cases ran
    refine ⟨machine, some n, ⟨⟨kids, tree, home⟩, ⟨block, placed⟩, .refl _ _, fed.1, rfl, ?_⟩, rfl⟩
    rintro m ⟨⟩
    exact looked
  | none =>
    obtain ⟨⟨made, middle⟩, created, ran⟩ := bind_eq_some_iff.mp ran
    obtain ⟨now, changed, granted, drive⟩ := Machine.createFile_placed tree home placed fed created
    have returned := Machine.createFile_state created
    have step : Vfs.Step machine.state (Call.createFile path) middle.state := ⟨fuel, by rw [Call.run, returned]; rfl⟩
    have consistent := (step.keeps ⟨kids, tree, home⟩).1
    split at ran
    next =>
      obtain ⟨found, looked, is⟩ := bind_eq_some_iff.mp ran
      cases is
      refine ⟨middle, found, ⟨consistent, now, changed, granted, drive, ?_⟩, rfl⟩
      rintro n rfl
      exact looked
    next =>
      cases ran
      exact ⟨middle, none, ⟨consistent, now, changed, granted, drive, fun _ no => by cases no⟩, rfl⟩

end Machine

theorem vfsWrite_onD {wrote : Option Nat}
    (onD : (parseDrive state.drive path).1 = .d ∨ state.drive = .d ∧ namesC path = false)
    (ran : vfsWrite fuel path buf state = some (wrote, after)) : after.ram = state.ram := by
  unfold vfsWrite at ran
  dsimp only at ran
  split at ran
  next => exact (onFat_keeps ran).1
  next first =>
    rw [if_pos (onD.resolve_left first)] at ran
    exact (onFat_keeps ran).1

def Machine.Sound (address : Nat → Nat) (machine : Machine) : Prop :=
  Consistent machine.state ∧ ∃ block, Placed address machine.state.ram machine.heap block

theorem Machine.Step.sound {call : Call} (sound : Machine.Sound address machine)
    (step : Machine.Step address machine call final) : Machine.Sound address final := by
  obtain ⟨⟨kids, tree, home⟩, block, placed⟩ := sound
  obtain ⟨fed, ⟨fuel, ran⟩, apart⟩ := step
  have returned := Call.runOn_state ran
  refine ⟨(Vfs.Step.keeps ⟨kids, tree, home⟩ ⟨fuel, returned⟩).1, ?_⟩
  have quiet (idle : Idle machine.state.ram final.state.ram) (same : final.heap = machine.heap) :
      ∃ block, Placed address final.state.ram final.heap block := ⟨block, by rw [same]; exact idle.placed placed⟩
  cases call with
  | createFile path =>
    obtain ⟨⟨ok, last⟩, created, rfl⟩ := map_eq_some_iff.mp ran
    exact (Machine.createFile_placed tree home placed fed created).1
  | write path buf =>
    obtain ⟨⟨wrote, last⟩, written, rfl⟩ := map_eq_some_iff.mp ran
    by_cases here : (parseDrive machine.state.drive path).1 = .d ∨ machine.state.drive = .d ∧ namesC path = false
    · unfold Machine.write at written
      rw [if_pos here] at written
      obtain ⟨⟨wrote, state⟩, called, is⟩ := bind_eq_some_iff.mp written
      cases is
      rw [vfsWrite_onD here called]
      exact ⟨block, placed⟩
    · obtain ⟨middle, found, storing, is⟩ := Machine.write_stores tree home placed fed here written
      obtain ⟨now, holds⟩ := storing.placed
      have last_ : last = (middle.storeAt address found buf).2 := congrArg Prod.snd is
      subst last_
      refine Machine.storeAt_placed holds storing.granted (fun n is => ?_) apart
      obtain ⟨kids, tree, home⟩ := storing.consistent
      exact resolve_inside tree home (vfsLookup_resolves tree home (storing.looked n is)).symm
  | mkdir | read | unlink | chdir =>
    obtain ⟨state, _, rfl⟩ := map_eq_some_iff.mp ran
    exact quiet (Call.run_idle tree home (fun _ => Call.noConfusion) (fun _ _ => Call.noConfusion) returned) rfl

theorem rooted_sound (address : Nat → Nat) (blank : State) (heap : Heap) :
    Machine.Sound address ⟨rooted blank, heap⟩ := by
  have none (n : Nat) : ¬IsFile (rooted blank).ram n := by
    rintro ⟨inside, type⟩
    have only : n = root := Nat.lt_one_iff.mp inside
    subst only
    cases type
  refine ⟨⟨_, tree_root _ rfl rfl, Nat.one_pos⟩, fun _ => 0, ?_⟩
  exact ⟨fun n is => absurd is (none n), fun n is => absurd is (none n), fun n is => absurd is (none n),
    fun n _ is => absurd is (none n), fun n is => absurd is (none n), fun n is => absurd is (none n)⟩

theorem resolve_sameTree {ram : Ramfs} (same : SameTree state.ram ram) :
    resolve { state with ram := ram } kids path = resolve state kids path := by
  unfold resolve follow
  rw [same.hop_eq]

theorem Machine.read_file {maxlen : Nat} (placed : Placed address machine.state.ram machine.heap block)
    (here : ¬((parseDrive machine.state.drive path).1 = .d ∨ machine.state.drive = .d ∧ namesC path = false))
    (looked : vfsLookup machine.state fuel path = some (some n)) (isFile : IsFile machine.state.ram n) :
    machine.read fuel path maxlen = some (some ((contents machine.state.ram n).take maxlen), machine) := by
  have some_ : machine.heap.memory.slice (machine.heap.pointer n) (min (machine.state.ram.nodes n).size maxlen) =
      (contents machine.state.ram n).take maxlen := by
    rw [← placed.same n isFile]
    unfold Mem.slice
    rw [← map_take, take_range, Nat.min_comm]
  unfold Machine.read
  rw [if_neg here, looked, bind_eq_bind, bind_some]
  dsimp only
  rw [if_neg (not_not.mpr isFile.2), some_]

theorem Machine.storeAt_wrote {wrote : Nat} (consistent : Consistent machine.state)
    (placed : Placed address machine.state.ram machine.heap block) (granted : Granted machine.state.ram 0)
    (looked : vfsLookup machine.state fuel path = some (some n))
    (stores : machine.storeAt address (some n) buf = (some wrote, final))
    (apart : BlocksApart address final.state.ram.kmallocs.reverse) :
    wrote = storedLength buf ∧ Overwritten machine.state.ram n buf final.state.ram ∧
      (∃ now, Placed address final.state.ram final.heap now) ∧ final.state.drive = machine.state.drive ∧
      ∀ again, maxNodes < again → vfsLookup final.state again path = some (some n) := by
  obtain ⟨kids, tree, home⟩ := consistent
  have result : (store machine.state.ram n buf).1 = some wrote := congrArg Prod.fst stores
  have state : (Vfs.storeAt machine.state (some n) buf).2 = final.state := congrArg (·.2.state) stores
  obtain rfl : (machine.storeAt address (some n) buf).2 = final := congrArg Prod.snd stores
  have leads := vfsLookup_resolves tree home looked
  have isFile : IsFile machine.state.ram n := by
    refine ⟨resolve_inside tree home leads.symm, ?_⟩
    by_contra other
    unfold store at result
    rw [if_pos other] at result
    cases result
  obtain ⟨length, stored⟩ := store_overwrites isFile (placed.buffer n isFile) granted buf
  refine ⟨Option.some.inj (result.symm.trans length), stored, placed.store isFile granted apart, rfl, fun again enough => ?_⟩
  obtain ⟨⟨same, _⟩, cwd⟩ := storeAt_keeps machine.state (some n) buf
  rw [← state, vfsLookup_returns (same.tree tree) (by rwa [cwd, same.count]) enough]
  exact congrArg some ((resolve_sameTree same).trans leads.symm)

/-- As long as `kmalloc` returns buffers that are apart, `vfs_write` on drive C returns the length
it was given, cut to the maximum; `vfs_read` then returns the bytes, the other files keep theirs,
and each file has a buffer to itself. -/
theorem write_reads_back_on_c {address : Nat → Nat} {blank : State} {heap : Heap} {calls : List Call}
    {before after : Machine} {fuel again wrote : Nat} {path buf : List UInt8}
    (run : Run (Machine.Step address) ⟨rooted blank, heap⟩ (initCalls ++ calls) before)
    (onC : before.state.drive = .c) (notD : namesD path = false) (fed : Fed before.state)
    (ran : before.write address fuel path buf = some (some wrote, after))
    (apart : BlocksApart address after.state.ram.kmallocs.reverse) (enough : maxNodes < again) :
    wrote = min buf.length maxFileSize ∧
      (∀ maxlen, after.read again path maxlen = some (some (buf.take (min wrote maxlen)), after)) ∧
      (∀ n, IsFile before.state.ram n → vfsLookup after.state again path ≠ some (some n) →
        IsFile after.state.ram n ∧ after.bytes n = before.bytes n) ∧
      ∃ block : Nat → Nat,
        (∀ n, IsFile after.state.ram n →
          (after.state.ram.nodes n).size ≤ (after.state.ram.nodes n).capacity ∧
          (after.state.ram.nodes n).capacity ≤ maxFileSize ∧ after.heap.data n = some (address (block n)) ∧
          after.state.ram.kmallocs.reverse[block n]? = some (after.state.ram.nodes n).capacity) ∧
        ∀ n m, IsFile after.state.ram n → IsFile after.state.ram m → block n = block m → n = m := by
  obtain ⟨⟨kids, tree, home⟩, block, placed⟩ :=
    run.preserves (fun _ _ _ sound step => step.sound sound) (rooted_sound address blank heap)
  have target : (parseDrive before.state.drive path).1 = .c := by rwa [onC, parseDrive_onC]
  have here : ¬((parseDrive before.state.drive path).1 = .d ∨ before.state.drive = .d ∧ namesC path = false) := by
    rw [target, onC]
    exact fun no => no.elim (fun no => nomatch no) fun no => nomatch no.1
  obtain ⟨middle, found, storing, is⟩ := Machine.write_stores tree home placed fed here ran
  cases found with
  | none => cases is
  | some n =>
    obtain ⟨_, between⟩ := storing.placed
    obtain ⟨rfl, stored, ⟨now, holds⟩, drive, looked⟩ := Machine.storeAt_wrote storing.consistent between storing.granted
      (storing.looked n rfl) is.symm apart
    refine ⟨Nat.min_comm _ _, fun maxlen => ?_, fun m was missed => ?_, now, fun m is => ?_, holds.own⟩
    · rw [← storing.drive, ← drive] at here
      rw [Machine.read_file holds here (looked again enough) stored.isFile, stored.contents, take_take]
      congr 3
      rw [take_eq_take_iff]
      unfold storedLength
      omega
    · have differ : m ≠ n := fun clash => missed (by rw [clash]; exact looked again enough)
      have older : m ≠ before.state.ram.nodeCount := Nat.ne_of_lt was.1
      have kept := (storing.changed.same m older was).1
      have last := (stored.changed.same m differ kept).1
      refine ⟨last, ?_⟩
      unfold Machine.bytes
      rw [placed.same m was, ← storing.changed.contents older was, ← stored.changed.contents differ kept]
      exact holds.same m last
    · obtain ⟨size, capacity⟩ := holds.bounds m is
      exact ⟨size, capacity, holds.pointer m is, holds.granted m is⟩

theorem blocksApart_spaced {sizes : List Nat} (small : ∀ size ∈ sizes, size ≤ maxFileSize) :
    BlocksApart (maxFileSize * ·) sizes := by
  intro j k a b differ first second
  have aSmall := small a (mem_of_getElem? first)
  have bSmall := small b (mem_of_getElem? second)
  dsimp only
  rcases Nat.lt_or_gt_of_ne differ with less | more
  · have step := Nat.mul_le_mul_left maxFileSize (Nat.succ_le_of_lt less)
    rw [Nat.mul_succ] at step
    exact .inl (by omega)
  · have step := Nat.mul_le_mul_left maxFileSize (Nat.succ_le_of_lt more)
    rw [Nat.mul_succ] at step
    exact .inr (by omega)

instance (state : State) : Decidable (Fed state) := inferInstanceAs (Decidable (_ ∧ _))

def Call.checked (fuel : Nat) (machine : Machine) (call : Call) : Option Machine :=
  if Fed machine.state then
    (call.runOn (maxFileSize * ·) fuel machine).filter fun after => after.state.ram.kmallocs.all (· ≤ maxFileSize)
  else none

theorem Call.checked_step {call : Call} (ran : call.checked fuel machine = some final) :
    Machine.Step (maxFileSize * ·) machine call final := by
  unfold Call.checked at ran
  split at ran
  next fed =>
    obtain ⟨ran, small⟩ := filter_eq_some_iff.mp ran
    refine ⟨fed, ⟨fuel, ran⟩, blocksApart_spaced fun size member => ?_⟩
    exact of_decide_eq_true (List.all_eq_true.mp small size (mem_reverse.mp member))
  next => cases ran

def fedMachine : Machine :=
  ⟨rooted { bareState with ram := { bareState.ram with grants := List.replicate 4 (some fun _ => 0) } },
    ⟨fun _ => 0, fun _ => none⟩⟩

theorem write_reads_back_on_c_hello : ∃ before after,
    Run (Machine.Step (maxFileSize * ·)) fedMachine (initCalls ++ []) before ∧
      before.write (maxFileSize * ·) 129 (text "hello.txt") (text "Hello") = some (some 5, after) ∧
      after.read 129 (text "hello.txt") 4 = some (some (text "Hell"), after) := by
  have facts : ((initCalls.foldlM (Call.checked 129) fedMachine).bind fun before =>
      (before.write (maxFileSize * ·) 129 (text "hello.txt") (text "Hello")).map fun wrote =>
        (before.state.drive, decide (Fed before.state), wrote.1,
          wrote.2.state.ram.kmallocs.all (· ≤ maxFileSize))) = some (.c, true, some 5, true) := by
    decide +kernel
  obtain ⟨before, began, wrote⟩ := bind_eq_some_iff.mp facts
  obtain ⟨⟨length, after⟩, wrote, is⟩ := map_eq_some_iff.mp wrote
  simp only [Prod.mk.injEq, decide_eq_true_eq] at is
  obtain ⟨onC, fed, rfl, small⟩ := is
  have run : Run (Machine.Step (maxFileSize * ·)) fedMachine (initCalls ++ []) before := by
    exact (Run.of_foldlM began).mono fun _ _ _ => Call.checked_step
  have apart : BlocksApart (maxFileSize * ·) after.state.ram.kmallocs.reverse := blocksApart_spaced fun size member =>
    of_decide_eq_true (List.all_eq_true.mp small size (mem_reverse.mp member))
  refine ⟨before, after, run, wrote, ?_⟩
  exact (write_reads_back_on_c run onC (by decide) fed wrote apart (by decide : maxNodes < 129)).2.1 4

end GWKernel.Vfs
