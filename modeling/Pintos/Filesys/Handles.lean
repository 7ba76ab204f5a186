import Pintos.Logic.Run
import Pintos.Filesys.Format

/-!
# The counts of an open inode

`open_cnt` counts the handles of an inode: the `struct file`s on it, and the `struct dir`s, or in
general the results of `inode_open` that no `struct file` has taken over.  `deny_write_cnt` counts
the `struct file`s that deny writing.  Both are exact after any calls of `inode.c` and `file.c`
(`Handles.counts_exact`), whatever is on the device and whether there is memory or not, since
nothing that is done to the device or to the free map touches them.
-/

set_option autoImplicit false

namespace Pintos

open Function Option

variable {buffer : Buffer} {r : Nat × Fs} {offset : Nat} {size : Int} {bounce : Bool}

namespace Fs

variable {fs fs' : Fs} {refs : List Nat} {id f s n : Nat} {inode : Inode} {file : File}

/-! ## What leaves the counts alone -/

/-- Only the device, the free map and the memory to come have changed. -/
def SameHeap (fs fs' : Fs) : Prop :=
  ∃ device freeMap oracle, fs' = { fs with device, freeMap, oracle }

@[grind =] theorem sameHeap_iff : SameHeap fs fs' ↔ fs'.freeMapFile = fs.freeMapFile ∧
    fs'.inodes = fs.inodes ∧ fs'.openInodes = fs.openInodes ∧ fs'.files = fs.files ∧
    fs'.next = fs.next ∧ fs'.garbage = fs.garbage := by
  constructor
  · rintro ⟨device, freeMap, oracle, rfl⟩
    exact ⟨rfl, rfl, rfl, rfl, rfl, rfl⟩
  · rintro ⟨hfile, hinodes, hopen, hfiles, hnext, hgarbage⟩
    refine ⟨fs'.device, fs'.freeMap, fs'.oracle, ?_⟩
    rw [← hfile, ← hinodes, ← hopen, ← hfiles, ← hnext, ← hgarbage]

theorem SameHeap.heapOk (hs : SameHeap fs fs') (h : HeapOk fs refs) : HeapOk fs' refs := by
  obtain ⟨device, freeMap, oracle, rfl⟩ := hs
  exact h.congr rfl rfl rfl rfl

theorem SameHeap.trans {fs'' : Fs} (hs : SameHeap fs fs') (hs' : SameHeap fs' fs'') :
    SameHeap fs fs'' := by
  obtain ⟨_, _, _, rfl⟩ := hs
  obtain ⟨_, _, _, rfl⟩ := hs'
  exact ⟨_, _, _, rfl⟩

@[grind →] theorem sameHeap_malloc {ok : Bool} (h : fs.malloc = (ok, fs')) : SameHeap fs fs' := by
  grind [malloc]

@[grind →] theorem sameHeap_getBounce {ok : Bool} (h : fs.getBounce bounce = (ok, fs')) :
    SameHeap fs fs' := by
  grind [getBounce]

@[grind →] theorem sameHeap_writeLoop {data : InodeDisk} {fuel size bytes : Nat}
    (h : writeLoop data buffer fuel bounce fs size offset bytes = some r) : SameHeap fs r.2 := by
  induction fuel generalizing fs bounce size offset bytes with
  | zero => grind [writeLoop]
  | succ fuel ih =>
    rw [writeLoop] at h
    repeat' split at h
    all_goals grind

@[grind →] theorem sameHeap_readLoop {data : InodeDisk}
    {fuel size bytes : Nat} {r : Nat × Buffer × Fs}
    (h : readLoop data fuel bounce fs buffer size offset bytes = some r) : SameHeap fs r.2.2 := by
  induction fuel generalizing fs bounce buffer size offset bytes with grind [readLoop]

@[grind →] theorem sameHeap_inodeReadAt
    {r : Nat × Buffer × Fs} (h : fs.inodeReadAt id buffer size offset = some r) :
    SameHeap fs r.2.2 := by
  grind [inodeReadAt]

@[grind →] theorem sameHeap_inodeWriteAt
    (h : fs.inodeWriteAt id buffer size offset = some r) : SameHeap fs r.2 := by
  grind [inodeWriteAt]

@[grind →] theorem sameHeap_bitmapWrite {r : Bool × Fs} (h : fs.bitmapWrite f = some r) :
    SameHeap fs r.2 := by
  grind [bitmapWrite, fileWriteAt]

@[grind →] theorem sameHeap_freeMapRelease (h : fs.freeMapRelease s n = some fs') :
    SameHeap fs fs' := by
  grind [freeMapRelease]

@[grind →] theorem sameHeap_freeMapAllocate {r : Option Nat × Fs}
    (h : fs.freeMapAllocate n = some r) : SameHeap fs r.2 := by
  grind [freeMapAllocate]

/-! ## What the functions do to the counts -/

theorem HeapOk.of_inodeReopen (h : HeapOk fs refs) (hr : fs.inodeReopen id = some fs') :
    HeapOk fs' (id :: refs) := by
  simp only [inodeReopen, bind_eq_some] at hr
  obtain ⟨inode, hi, heq⟩ := hr
  cases heq
  exact h.addRef hi

/-- `inode_open` has one more handle of what it returns. -/
theorem HeapOk.of_inodeOpen {inode : Option Nat} (h : HeapOk fs refs)
    (hr : fs.inodeOpen s = some (inode, fs')) : HeapOk fs' (inode.toList ++ refs) := by
  rw [inodeOpen] at hr
  split at hr
  · next id hfind =>
    simp only [bind_eq_some] at hr
    obtain ⟨fs1, hreopen, heq⟩ := hr
    cases heq
    exact h.of_inodeReopen hreopen
  · next hfind =>
    split at hr
    · next fs1 hm =>
      cases hr
      exact (sameHeap_malloc hm).heapOk h
    · next fs1 hm =>
      have h1 := (sameHeap_malloc hm).heapOk h
      obtain ⟨device, freeMap, oracle, rfl⟩ := sameHeap_malloc hm
      simp only [bind_eq_some] at hr
      obtain ⟨data, -, heq⟩ := hr
      cases heq
      exact h1.newInode fun id inode hi ↦ h.findInode_eq_none hfind hi

/-- `inode_close` gives up a handle. -/
theorem HeapOk.of_inodeClose (h : HeapOk fs (id :: refs)) (hr : fs.inodeClose id = some fs') :
    HeapOk fs' refs := by
  simp only [inodeClose, bind_eq_some] at hr
  obtain ⟨inode, hi, hr⟩ := hr
  split at hr
  · next hcnt =>
    cases hr
    exact h.dropRef hi hcnt
  · next hcnt =>
    have h1 := h.removeInode hi (not_not.mp hcnt)
    split at hr
    · simp only [bind_eq_some] at hr
      obtain ⟨fs1, hr1, hr2⟩ := hr
      exact ((sameHeap_freeMapRelease hr1).trans (sameHeap_freeMapRelease hr2)).heapOk h1
    · cases hr
      exact h1

/-- `file_open` takes over a handle, or closes it. -/
theorem HeapOk.of_fileOpen {file : Option Nat} (h : HeapOk fs (id :: refs))
    (hr : fs.fileOpen (some id) = some (file, fs')) : HeapOk fs' refs := by
  obtain ⟨ok, oracle, hmalloc, -⟩ := fs.malloc_cases
  have h1 : HeapOk { fs with oracle } (id :: refs) := h.congr rfl rfl rfl rfl
  simp only [fileOpen, hmalloc] at hr
  cases ok with
  | true =>
    cases hr
    exact h1.newFile
  | false =>
    simp only [bind_eq_some] at hr
    obtain ⟨fs1, hclose, heq⟩ := hr
    cases heq
    exact h1.of_inodeClose hclose

section

variable (h : HeapOk fs refs)

include h

theorem HeapOk.of_fileReopen {new : Option Nat}
    (hr : fs.fileReopen f = some (new, fs')) : HeapOk fs' refs := by
  simp only [fileReopen, bind_eq_some] at hr
  obtain ⟨file, -, fs1, hreopen, hopen⟩ := hr
  exact (h.of_inodeReopen hreopen).of_fileOpen hopen

theorem HeapOk.of_inodeRemove (hr : fs.inodeRemove id = some fs') :
    HeapOk fs' refs := by
  simp only [inodeRemove, bind_eq_some] at hr
  obtain ⟨inode, hi, heq⟩ := hr
  cases heq
  exact h.setRemoved hi

theorem HeapOk.of_fileWrite (hr : fs.fileWrite f buffer size = some r) : HeapOk r.2 refs := by
  simp only [fileWrite, bind_eq_some] at hr
  obtain ⟨file, hf, ⟨n, fs1⟩, hwrite, heq⟩ := hr
  cases heq
  have hsame := sameHeap_inodeWriteAt hwrite
  have h1 := hsame.heapOk h
  obtain ⟨_, _, _, heq⟩ := hsame
  refine h1.setPos ?_ _
  rw [heq]
  exact hf

/-- **`file_deny_write`**: the assertion of `inode_deny_write` holds. -/
theorem HeapOk.fileDenyWrite (hf : fs.files f = some file) :
    Returns (fs.fileDenyWrite f) fun fs' ↦ HeapOk fs' refs := by
  obtain ⟨inode, hi⟩ := isSome_iff_exists.mp (h.file f file hf)
  simp only [Fs.fileDenyWrite, hf, some_bind]
  by_cases hdeny : file.denyWrite = true
  · rw [if_pos hdeny]
    exact .pure h
  · have h1 : HeapOk ((fs.setFile f (some { file with denyWrite := true })).setInode file.inode
        (some { inode with denyWriteCnt := inode.denyWriteCnt + 1 })) refs :=
      h.setDeny hf hi (by simp [hdeny])
    -- After the store one more file denies writing, so there is one more handle than was counted.
    have hle : inode.denyWriteCnt + 1 ≤ inode.openCnt :=
      h1.deny_le (show Fs.inodes _ file.inode = some _ from update_self ..)
    simp only [if_neg hdeny, inodeDenyWrite, inodes_setFile, hi, assert, if_pos hle, some_bind]
    exact .pure h1

/-- **`file_allow_write`**: the assertions of `inode_allow_write` hold. -/
theorem HeapOk.fileAllowWrite (hf : fs.files f = some file) :
    Returns (fs.fileAllowWrite f) fun fs' ↦ HeapOk fs' refs ∧
      ∃ file', fs'.files f = some file' ∧ file'.inode = file.inode ∧ file'.denyWrite = false := by
  obtain ⟨inode, hi⟩ := isSome_iff_exists.mp (h.file f file hf)
  simp only [Fs.fileAllowWrite, hf, some_bind]
  by_cases hdeny : file.denyWrite = true
  · have hpos := h.deny_pos hf hi hdeny
    have hle := h.deny_le hi
    have h1 : HeapOk ((fs.setFile f (some { file with denyWrite := false })).setInode file.inode
        (some { inode with denyWriteCnt := inode.denyWriteCnt - 1 })) refs :=
      h.setDeny hf hi (by simp [hdeny]; omega)
    simp only [if_pos hdeny, inodeAllowWrite, inodes_setFile, hi, assert, if_pos hpos, if_pos hle,
      some_bind]
    exact .pure ⟨h1, _, update_self .., rfl, rfl⟩
  · rw [if_neg hdeny]
    exact .pure ⟨h, file, hf, rfl, by simpa using hdeny⟩

/-- `file_close` gives up a file, and its denial. -/
theorem HeapOk.of_fileClose (hr : fs.fileClose (some f) = some fs') :
    HeapOk fs' refs := by
  simp only [fileClose, bind_eq_some] at hr
  obtain ⟨fs1, hallow, file1, hf1, hclose⟩ := hr
  obtain ⟨file, hf⟩ : ∃ file, fs.files f = some file := by
    simp only [Fs.fileAllowWrite, bind_eq_some] at hallow
    exact ⟨_, hallow.choose_spec.1⟩
  obtain ⟨h1, file', hf', -, hdeny⟩ := (h.fileAllowWrite hf).of_eq hallow
  obtain rfl : file1 = file' := some.inj (hf1.symm.trans hf')
  exact (h1.removeFile hf' hdeny).of_inodeClose hclose

/-- While a file of its inode denies writing, a write writes nothing. -/
theorem HeapOk.fileWrite_denied {g : Nat} {file' : File}
    (hf : fs.files f = some file) (hg : fs.files g = some file')
    (hinode : file'.inode = file.inode) (hdeny : file'.denyWrite = true) (buffer : Buffer)
    (size : Int) : fs.fileWrite f buffer size = some (0, fs) := by
  obtain ⟨inode, hi⟩ := isSome_iff_exists.mp (h.file f file hf)
  have hpos := h.deny_pos hg (hinode ▸ hi) hdeny
  have hset : fs.setFile f (some { file with pos := file.pos + 0 }) = fs := by
    have hself : update fs.files f (some file) = fs.files :=
      update_eq_self_iff.mpr hf.symm
    rw [setFile, Nat.add_zero, hself]
  simp only [fileWrite, inodeWriteAt, hf, hi, some_bind, if_pos (Nat.ne_of_gt hpos),
    pure_def, hset]

end

end Fs

/-! ## Any calls -/

/-- A call for a handle. -/
inductive HandleCall where
  | inodeOpen (sector : Nat)
  | inodeRemove (inode : Nat)
  /-- `inode_close`, as `dir_close` does it. -/
  | inodeClose (inode : Nat)
  | fileOpen (inode : Nat)
  | fileReopen (file : Nat)
  | fileDenyWrite (file : Nat)
  | fileAllowWrite (file : Nat)
  | fileWrite (file : Nat) (buffer : Buffer) (size : Int32)
  | fileClose (file : Nat)

/-- The file system, and the handles of inodes that are not `struct file`s: what `inode_open` has
returned, be it in a `struct dir` or not. -/
structure Handles where
  fs : Fs
  dirs : List Nat

namespace Handles

/-- The handle that a call is for is live. -/
def Live (s : Handles) : HandleCall → Prop
  | .inodeOpen _ => True
  | .inodeRemove inode => (s.fs.inodes inode).isSome = true
  | .inodeClose inode | .fileOpen inode => inode ∈ s.dirs
  | .fileReopen file | .fileDenyWrite file | .fileAllowWrite file | .fileWrite file _ _
  | .fileClose file => (s.fs.files file).isSome = true

instance (s : Handles) : DecidablePred s.Live := fun c ↦ by
  cases c <;> unfold Live <;> infer_instance

/-- The state after a call for a live handle. -/
def call (s : Handles) : HandleCall → Option Handles
  | .inodeOpen sector => do
    let (inode, fs) ← s.fs.inodeOpen sector
    return ⟨fs, inode.toList ++ s.dirs⟩
  | .inodeRemove inode => do return { s with fs := ← s.fs.inodeRemove inode }
  | .inodeClose inode => do return ⟨← s.fs.inodeClose inode, s.dirs.erase inode⟩
  | .fileOpen inode => do return ⟨(← s.fs.fileOpen (some inode)).2, s.dirs.erase inode⟩
  | .fileReopen file => do return { s with fs := (← s.fs.fileReopen file).2 }
  | .fileDenyWrite file => do return { s with fs := ← s.fs.fileDenyWrite file }
  | .fileAllowWrite file => do return { s with fs := ← s.fs.fileAllowWrite file }
  | .fileWrite file buffer size => do
    return { s with fs := (← s.fs.fileWrite file buffer size.toInt).2 }
  | .fileClose file => do return { s with fs := ← s.fs.fileClose (some file) }

/-- A call, with the answers of `malloc` while it runs.  A call for a handle that is not live is not
made. -/
def step (s : Handles) (a : List Bool × HandleCall) : Option Handles :=
  if s.Live a.2 then call { s with fs := { s.fs with oracle := a.1 } } a.2 else some s

/-- `filesys_init`; the file of the free map is the first handle. -/
def boot (device : Block) (oracle : List Bool) (garbage : Buffer) : Option Handles := do
  return ⟨← Fs.filesysInit device oracle garbage, []⟩

/-- The number of handles of an inode. -/
def handles (s : Handles) (id : Nat) : Nat := countBelow s.fs.next (s.fs.uses id) + s.dirs.count id

/-- The number of handles of an inode that deny writing. -/
def denials (s : Handles) (id : Nat) : Nat := countBelow s.fs.next (s.fs.denies id)

variable {s s' : Handles} {a : List Bool × HandleCall}

/-- **A call keeps the counts exact.** -/
theorem heapOk_call {c : HandleCall} (h : Fs.HeapOk s.fs s.dirs) (hlive : s.Live c)
    (hs : s.call c = some s') : Fs.HeapOk s'.fs s'.dirs := by
  cases c <;> simp only [call, bind_eq_some] at hs <;>
    obtain ⟨r, hcall, heq⟩ := hs <;> cases heq
  case inodeOpen sector => exact h.of_inodeOpen hcall
  case inodeRemove inode => exact h.of_inodeRemove hcall
  case inodeClose inode => exact (h.perm (List.perm_cons_erase hlive)).of_inodeClose hcall
  case fileOpen inode => exact (h.perm (List.perm_cons_erase hlive)).of_fileOpen hcall
  case fileReopen file => exact h.of_fileReopen hcall
  case fileDenyWrite file => exact (h.fileDenyWrite (some_get hlive).symm).of_eq hcall
  case fileAllowWrite file => exact ((h.fileAllowWrite (some_get hlive).symm).of_eq hcall).1
  case fileWrite file buffer size => exact h.of_fileWrite hcall
  case fileClose file => exact h.of_fileClose hcall

theorem heapOk_step (h : Fs.HeapOk s.fs s.dirs) (hs : s.step a = some s') :
    Fs.HeapOk s'.fs s'.dirs := by
  rw [step] at hs
  split at hs
  · next hlive =>
    have h0 : Fs.HeapOk { s.fs with oracle := a.1 } s.dirs := h.congr rfl rfl rfl rfl
    refine heapOk_call h0 ?_ hs
    revert hlive
    cases a.2 <;> exact id
  · cases hs
    exact h

theorem heapOk_boot {device : Block} {oracle : List Bool} {garbage : Buffer}
    (hsmall : device.size < 2 ^ 32) (h : boot device oracle garbage = some s) :
    Fs.HeapOk s.fs s.dirs := by
  simp only [boot, bind_eq_some] at h
  obtain ⟨fs, hinit, heq⟩ := h
  cases heq
  exact (Fs.filesysInit_sound hsmall hinit).heap

/-- An inode is in `open_inodes` as long as it has a handle. -/
theorem mem_openInodes_iff (h : Fs.HeapOk s.fs s.dirs) (id : Nat) :
    id ∈ s.fs.openInodes ↔ 0 < s.handles id := by
  rw [h.mem, isSome_iff_exists]
  constructor
  · rintro ⟨inode, hi⟩
    have hcnt : inode.openCnt = s.handles id := h.openCnt id inode hi
    exact hcnt ▸ h.open_pos id inode hi
  · intro hpos
    rw [← isSome_iff_exists]
    by_cases hdir : id ∈ s.dirs
    · exact h.ref id hdir
    · -- Some file is the handle.
      have huses : countBelow s.fs.next (s.fs.uses id) ≠ 0 := by
        have h0 := List.count_eq_zero.mpr hdir
        simp only [handles] at hpos
        omega
      by_contra hnone
      refine huses (countBelow_eq_zero.mpr fun f _ ↦ ?_)
      by_contra hf
      obtain ⟨file, hfile, hid⟩ := (any_eq_true ..).mp (Bool.not_eq_false _ ▸ hf)
      rw [← beq_iff_eq.mp hid] at hnone
      exact hnone (h.file f file hfile)

/-- **The counts are exact.**  After any calls there is at most one `struct inode` for a sector, and
it is in `open_inodes` as long as it has a handle; `open_cnt` is the number of its handles, and
`deny_write_cnt` the number of those that deny writing.  The assertions of `inode_deny_write` and
`inode_allow_write` hold, and a write through any handle writes nothing while one of them denies
writing. -/
theorem counts_exact {device : Block} {oracle : List Bool} {garbage : Buffer} {s₀ : Handles}
    {as : List (List Bool × HandleCall)} (hsmall : device.size < 2 ^ 32)
    (hboot : boot device oracle garbage = some s₀) (hrun : Run.run step s₀ as = some s) :
    s.fs.openInodes.Nodup ∧
    (∀ id inode id' inode', s.fs.inodes id = some inode → s.fs.inodes id' = some inode' →
      inode.sector = inode'.sector → id = id') ∧ (∀ id, id ∈ s.fs.openInodes ↔ 0 < s.handles id) ∧
    (∀ id ∈ s.fs.openInodes, ∃ inode, s.fs.inodes id = some inode ∧
      inode.openCnt = s.handles id ∧ inode.denyWriteCnt = s.denials id) ∧
    (∀ f file, s.fs.files f = some file →
      (s.fs.fileDenyWrite f).isSome = true ∧ (s.fs.fileAllowWrite f).isSome = true) ∧
    ∀ f file g file', s.fs.files f = some file → s.fs.files g = some file' →
      file'.inode = file.inode → file'.denyWrite = true →
      ∀ buffer size, s.fs.fileWrite f buffer size = some (0, s.fs) := by
  have h : Fs.HeapOk s.fs s.dirs := Run.invariant_of_step (I := fun s ↦ Fs.HeapOk s.fs s.dirs)
    (fun _ _ _ ↦ heapOk_step) (heapOk_boot hsmall hboot) hrun
  refine ⟨h.nodup, fun id inode id' inode' ↦ h.inj id id' inode inode', mem_openInodes_iff h,
    fun id hmem ↦ ?_, fun f file hf ↦ ⟨(h.fileDenyWrite hf).isSome, (h.fileAllowWrite hf).isSome⟩,
    fun f file g file' hf hg hinode hdeny ↦ h.fileWrite_denied hf hg hinode hdeny⟩
  obtain ⟨inode, hi⟩ := isSome_iff_exists.mp ((h.mem id).mp hmem)
  exact ⟨inode, hi, h.openCnt id inode hi, h.denyCnt id inode hi⟩

/-- The root directory is opened twice, and one of the two files denies writing. -/
theorem counts_exact_twice : ∃ s₀ s, boot ⟨16, fun _ _ ↦ 0⟩ [] (fun _ ↦ 0) = some s₀ ∧
    Run.run step s₀ [([], .inodeOpen 1), ([], .fileOpen 4), ([], .fileReopen 5),
      ([], .fileDenyWrite 6)] = some s ∧ s.handles 4 = 2 ∧ s.denials 4 = 1 ∧
    ∀ id ∈ s.fs.openInodes, ∃ inode, s.fs.inodes id = some inode ∧
      inode.openCnt = s.handles id ∧ inode.denyWriteCnt = s.denials id := by
  refine Run.exists_of_view₂ (fun _ s ↦ (s.handles 4, s.denials 4)) (2, 1) (by decide +kernel)
    fun s₀ s hboot hrun hcnt ↦ ?_
  obtain ⟨h₁, h₂⟩ := Prod.mk.inj hcnt
  exact ⟨h₁, h₂, (counts_exact (by decide) hboot hrun).2.2.2.1⟩

end Handles

end Pintos
