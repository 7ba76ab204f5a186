import Pintos.Logic.Slots
import Pintos.Filesys.DirFile
import Pintos.Filesys.Handles
import Pintos.Filesys.StoredMap

/-!
# A directory is a finite map

Two things, really: what the slots of a directory hold is a list of names with their inodes' sectors
(`dirContents`), and `dir_add`, `dir_remove` and `dir_lookup` are the operations of a finite map on
that list (`DirSession.directory_map`).  The directory may have any number of entries, and be
anywhere on the device.

A file that `dir_remove` takes out of the directory gives its sectors back as soon as nobody has it
open.  `Catalog` is what keeps the directory apart from that: the inodes that are listed or open are
well formed and share no sector, neither with the directory nor with the free map.
-/

set_option autoImplicit false

namespace Pintos

open List Option

/-- What slot `k` of a directory holds: a name, and the sector of its inode. -/
def dirSlot (device : Block) (data : InodeDisk) (k : Nat) : Option (List UInt8 × Nat) :=
  if (dirEntry device data k).inUse then
    some (cString (dirEntry device data k).name, (dirEntry device data k).inodeSector)
  else none

/-- What a directory with `cnt` entries holds. -/
def dirContents (device : Block) (data : InodeDisk) (cnt : Nat) : List (List UInt8 × Nat) :=
  Slots.contents cnt (dirSlot device data)

section

variable {device : Block} {data : InodeDisk} {cnt k s : Nat} {name : List UInt8}

theorem dirSlot_of_named (h : (dirEntry device data k).named name = true) :
    dirSlot device data k = some (name, (dirEntry device data k).inodeSector) := by
  obtain ⟨huse, hname⟩ := Bool.and_eq_true_iff.mp h
  rw [dirSlot, if_pos huse, beq_iff_eq.mp hname]

theorem named_of_dirSlot (h : dirSlot device data k = some (name, s)) :
    (dirEntry device data k).named name = true ∧ (dirEntry device data k).inodeSector = s := by
  rw [dirSlot] at h
  split at h
  · next huse =>
    obtain ⟨rfl, rfl⟩ := Prod.mk.inj (Option.some.inj h)
    exact ⟨Bool.and_eq_true_iff.mpr ⟨huse, beq_self_eq_true _⟩, rfl⟩
  · cases h

theorem dirSlot_eq_none :
    dirSlot device data k = none ↔ (dirEntry device data k).inUse = false := by
  rw [dirSlot]
  split <;> simp_all

/-- What `lookup` finds is what the directory holds. -/
theorem find_named_eq_some
    (h : (range cnt).find? (fun k ↦ (dirEntry device data k).named name) = some k) :
    k < cnt ∧ dirSlot device data k = some (name, (dirEntry device data k).inodeSector) := by
  have hnamed : (dirEntry device data k).named name = true :=
    find?_some (p := fun k ↦ (dirEntry device data k).named name) h
  exact ⟨mem_range.mp (mem_of_find?_eq_some h), dirSlot_of_named hnamed⟩

theorem find_named_eq_none
    (h : (range cnt).find? (fun k ↦ (dirEntry device data k).named name) = none) :
    name ∉ (dirContents device data cnt).map Prod.fst := by
  intro hmem
  obtain ⟨⟨_, s⟩, hc, rfl⟩ := mem_map.mp hmem
  obtain ⟨k, hk, hslot⟩ := Slots.mem_contents.mp hc
  exact find?_eq_none.mp h k (mem_range.mpr hk) (named_of_dirSlot hslot).1

theorem cString_strlcpyTo {old : List UInt8} (h : 0 ∉ name) :
    cString (strlcpyTo old name) = name := by
  rw [cString, strlcpyTo, takeWhile_append_of_pos, takeWhile_cons]
  · simp
  · intro b hb
    have hne : b ≠ 0 := by
      rintro rfl
      exact h hb
    simpa using hne

end

variable {e : DirEntry} {d : Nat}

namespace Fs

/-! ## `dir_add` in any directory file -/

section

variable {fs : Fs} {dir cnt s : Nat} {inode : Inode}

/-- The directory takes the name: it is a proper one, it is not there yet, and there is a slot. -/
def Takes (device : Block) (data : InodeDisk) (cnt : Nat) (name : List UInt8) : Prop :=
  name ≠ [] ∧ name.length ≤ nameMax ∧ name ∉ (dirContents device data cnt).map Prod.fst ∧
    (dirContents device data cnt).length < cnt

/-- **`dir_add`** writes to a slot that is not in use if the directory takes the name, and else
changes nothing. -/
theorem DirFile.dirAdd (h : DirFile fs dir inode cnt) (hdeny : inode.denyWriteCnt = 0)
    (hs : s < 2 ^ 32) (name : List UInt8) : Returns (fs.dirAdd dir name s) fun r ↦
      (Takes fs.device inode.data cnt name → r.1 = true ∧ ∃ k < cnt,
        dirSlot fs.device inode.data k = none ∧
        ∃ old, DirFile.Rewritten fs inode.data k ⟨s, strlcpyTo old name, true⟩ r.2) ∧
      (¬ Takes fs.device inode.data cnt name → r = (false, fs)) := by
  rw [Fs.dirAdd]
  split
  · next hbad =>
    refine .pure ⟨fun htakes ↦ ?_, fun _ ↦ rfl⟩
    rcases hbad with hnil | hlong
    · exact absurd hnil htakes.1
    · exact absurd htakes.2.1 (Nat.not_le.mpr hlong)
  next hgood =>
  obtain ⟨hnil, hlen⟩ := not_or.mp hgood
  rw [h.lookup_eq name]
  cases hfind : (range cnt).find? fun k ↦ (dirEntry fs.device inode.data k).named name with
  | some k =>
    obtain ⟨hk, hslot⟩ := find_named_eq_some hfind
    refine .pure ⟨fun htakes ↦ absurd ?_ htakes.2.2.1, fun _ ↦ rfl⟩
    exact mem_map.mpr ⟨_, Slots.mem_contents.mpr ⟨k, hk, hslot⟩, rfl⟩
  | none =>
    have hnew := find_named_eq_none hfind
    dsimp only [some_bind, map_none, isSome_none]
    rw [if_neg Bool.false_ne_true, h.entryCnt_eq]
    refine Returns.bind (h.freeSlotLoop_spec (k := 0) (Nat.zero_le _) (Nat.lt_succ_self _)) ?_
    rintro ⟨ofs, buffer, fs1⟩ ⟨hfs1, hofs⟩
    dsimp only at hfs1 hofs ⊢
    subst hfs1 hofs
    have hdec : DirEntry.decode (DirEntry.encode
        ⟨s, strlcpyTo (DirEntry.decode buffer).name name, true⟩) =
        ⟨s, strlcpyTo (DirEntry.decode buffer).name name, true⟩ :=
      DirEntry.decode_encode hs (length_strlcpyTo (length_decode_name _) (Nat.not_lt.mp hlen))
    refine Returns.bind (h.write_spec hdeny hdec _) ?_
    rintro ⟨n, fs2⟩ ⟨hin, hout⟩
    rw [Nat.sub_zero, ← range_eq_range'] at hin hout
    cases hslot : (range cnt).find? fun k ↦ !(dirEntry fs1.device inode.data k).inUse with
    | none =>
      rw [hslot, getD_none] at hout
      cases hout (Nat.le_refl _)
      refine .pure ⟨fun htakes ↦ ?_, fun _ ↦ rfl⟩
      obtain ⟨k, hk, hnone⟩ := Slots.length_contents_lt.mp htakes.2.2.2
      have := find?_eq_none.mp hslot k (mem_range.mpr hk)
      simp [dirSlot_eq_none.mp hnone] at this
    | some k =>
      have hk : k < cnt := mem_range.mp (mem_of_find?_eq_some hslot)
      have huse : (dirEntry fs1.device inode.data k).inUse = false := by
        simpa using find?_some (p := fun k ↦ !(dirEntry fs1.device inode.data k).inUse) hslot
      rw [hslot, getD_some] at hin
      obtain ⟨hn, hw⟩ := hin hk
      dsimp only at hn hw
      refine .pure ⟨fun _ ↦ ⟨by simp [hn], k, hk, dirSlot_eq_none.mpr huse, _, hw⟩,
        fun hno ↦ absurd ?_ hno⟩
      exact ⟨hnil, Nat.not_lt.mp hlen, hnew,
        Slots.length_contents_lt.mpr ⟨k, hk, dirSlot_eq_none.mpr huse⟩⟩

end

/-! ## A directory in a file system -/

/-- The directory names the inode in sector `s`. -/
def ListedIn (device : Block) (data : InodeDisk) (cnt s : Nat) : Prop :=
  s ∈ (dirContents device data cnt).map Prod.snd

/-- The inode in sector `s` is listed or open. -/
def Used (fs : Fs) (data : InodeDisk) (cnt s : Nat) : Prop :=
  ListedIn fs.device data cnt s ∨ ∃ id, fs.At id s

/-- `dir` is a directory with `cnt` entries, open in a well-formed file system; `refs` are the
inodes that have been opened, as by `dir_open` and `dir_lookup`. -/
structure Catalog (fs : Fs) (refs : List Nat) (dir : Nat) (data : InodeDisk) (cnt : Nat) :
    Prop where
  disk : DiskOk fs.device fs.freeMap (fs.Used data cnt)
  heap : HeapOk fs refs
  self : ∃ inode, fs.inodes dir = some inode ∧ inode.data = data ∧ inode.denyWriteCnt = 0 ∧
    inode.sector ≠ freeMapSector
  mem : dir ∈ refs
  length : data.length = (cnt * dirEntrySize : Nat)
  /-- An open inode is as on the device. -/
  nodes : ∀ id inode, fs.inodes id = some inode → inode.data = inodeAt fs.device inode.sector
  removed : ∀ id inode, fs.inodes id = some inode → inode.removed = true →
    ¬ ListedIn fs.device data cnt inode.sector
  mapFile : ∃ f file inode, fs.freeMapFile = some f ∧ fs.files f = some file ∧
    fs.inodes file.inode = some inode ∧ inode.sector = freeMapSector
  names : ((dirContents fs.device data cnt).map Prod.fst).Nodup
  sectors : ((dirContents fs.device data cnt).map Prod.snd).Nodup
  memory : fs.oracle = []

/-- An inode that may be added: a file that is there, and in no entry. -/
structure Existing (fs : Fs) (data : InodeDisk) (cnt s : Nat) : Prop where
  valid : ValidInode fs.device fs.freeMap s
  apart : ∀ t x, fs.Used data cnt t → t ≠ s → InFoot fs.device s x → ¬ InFoot fs.device t x
  unlisted : ¬ ListedIn fs.device data cnt s
  kept : ∀ id inode, fs.inodes id = some inode → inode.sector = s → inode.removed = false

variable {fs fs' : Fs} {refs refs' : List Nat} {dir cnt k s t u x id : Nat} {data : InodeDisk}
  {name : List UInt8} {inode inode' : Inode}

namespace Catalog

/-! ## The directory and the free map -/

theorem used_of_at (hi : fs.inodes id = some inode) : fs.Used data cnt inode.sector :=
  .inr ⟨id, inode, hi, rfl⟩

section

variable (h : Catalog fs refs dir data cnt)

include h

/-- No data of an inode in use is in the sector of an inode in use. -/
theorem not_data (ht : fs.Used data cnt t)
    (hu : fs.Used data cnt u) : ∀ pos < (inodeAt fs.device t).length.toNat,
      byteToSector (inodeAt fs.device t) pos ≠ u := by
  intro pos hpos heq
  exact h.disk.not_inData ht hu (heq ▸ (h.disk.valid t ht).inData hpos)

/-- The directory's file. -/
theorem dirFile : ∃ inode, DirFile fs dir inode cnt ∧ inode.data = data ∧ inode.denyWriteCnt = 0 ∧
      data = inodeAt fs.device inode.sector ∧ fs.Used data cnt inode.sector ∧
      inode.sector ≠ freeMapSector := by
  obtain ⟨inode, hi, rfl, hdeny, hne⟩ := h.self
  have hnode := h.nodes dir inode hi
  have hused : fs.Used inode.data cnt inode.sector := used_of_at hi
  exact ⟨inode, ⟨hi, h.length, hnode ▸ (h.disk.valid _ hused).onDevice, h.memory⟩, rfl, hdeny,
    hnode, hused, hne⟩

/-- The free map's file. -/
theorem map : ∃ inode, MapFile fs inode ∧ inode.data = inodeAt fs.device freeMapSector ∧
      fs.Used data cnt freeMapSector := by
  obtain ⟨f, file, inode, hf, hfile, hi, hsec⟩ := h.mapFile
  have hnode := h.nodes _ inode hi
  have hused : fs.Used data cnt inode.sector := used_of_at hi
  rw [hsec] at hnode hused
  exact ⟨inode, ⟨⟨f, file, hf, hfile, hi⟩, hnode ▸ (h.disk.valid _ hused).onDevice⟩, hnode, hused⟩

/-! ## What keeps the directory -/

/-- The device is left alone, and the inodes in memory change. -/
theorem memoryOnly (hdev : fs'.device = fs.device)
    (hmap : fs'.freeMap = fs.freeMap) (hmf : fs'.freeMapFile = fs.freeMapFile)
    (hfiles : fs'.files = fs.files) (horacle : fs'.oracle = []) (hheap : HeapOk fs' refs')
    (hmem : dir ∈ refs')
    (hinodes : ∀ id inode, fs'.inodes id = some inode → fs.Used data cnt inode.sector ∧
      inode.data = inodeAt fs.device inode.sector ∧
      (inode.removed = true → ¬ ListedIn fs.device data cnt inode.sector))
    (hkeep : ∀ id inode inode', fs.inodes id = some inode → fs'.inodes id = some inode' →
      inode'.sector = inode.sector ∧ inode'.data = inode.data ∧
      inode'.denyWriteCnt = inode.denyWriteCnt) : Catalog fs' refs' dir data cnt where
  disk := by
    rw [hdev, hmap]
    refine h.disk.mono ?_
    rintro t (hl | ⟨id, inode, hi, rfl⟩)
    · exact .inl (hdev ▸ hl)
    · exact (hinodes id inode hi).1
  heap := hheap
  self := by
    obtain ⟨inode, hi, hdata, hdeny, hne⟩ := h.self
    obtain ⟨inode', hi'⟩ := isSome_iff_exists.mp (hheap.ref dir hmem)
    obtain ⟨hs, hd, hw⟩ := hkeep dir inode inode' hi hi'
    exact ⟨inode', hi', hd.trans hdata, hw.trans hdeny, hs ▸ hne⟩
  mem := hmem
  length := h.length
  nodes id inode hi := hdev ▸ (hinodes id inode hi).2.1
  removed id inode hi := hdev ▸ (hinodes id inode hi).2.2
  mapFile := by
    obtain ⟨f, file, inode, hf, hfile, hi, hsec⟩ := h.mapFile
    have hfile' : fs'.files f = some file := hfiles ▸ hfile
    obtain ⟨inode', hi'⟩ := isSome_iff_exists.mp (hheap.file f file hfile')
    exact ⟨f, file, inode', hmf ▸ hf, hfile', hi', (hkeep _ inode inode' hi hi').1.trans hsec⟩
  names := hdev ▸ h.names
  sectors := hdev ▸ h.sectors
  memory := horacle

/-- A store to an inode that leaves its sector, its data and its denials alone. -/
theorem setInode (hi : fs.inodes id = some inode)
    (hsec : inode'.sector = inode.sector) (hdata : inode'.data = inode.data)
    (hdeny : inode'.denyWriteCnt = inode.denyWriteCnt)
    (hrem : inode'.removed = true → ¬ ListedIn fs.device data cnt inode.sector)
    (hheap : HeapOk (fs.setInode id (some inode')) refs') (hmem : dir ∈ refs') :
    Catalog (fs.setInode id (some inode')) refs' dir data cnt := by
  refine h.memoryOnly rfl rfl rfl rfl h.memory hheap hmem (fun id1 inode1 hi1 ↦ ?_)
    fun id1 inode1 inode2 hi1 hi2 ↦ ?_
  · obtain ⟨rfl, heq⟩ | ⟨-, hi1⟩ := inodes_setInode_eq_some.mp hi1
    · cases heq
      rw [hsec, hdata]
      exact ⟨used_of_at hi, h.nodes _ inode hi, hrem⟩
    · exact ⟨used_of_at hi1, h.nodes id1 inode1 hi1, h.removed id1 inode1 hi1⟩
  · obtain ⟨rfl, heq⟩ | ⟨-, hi2⟩ := inodes_setInode_eq_some.mp hi2
    · cases heq
      cases hi.symm.trans hi1
      exact ⟨hsec, hdata, hdeny⟩
    · cases hi1.symm.trans hi2
      exact ⟨rfl, rfl, rfl⟩

/-- The free map is written. -/
theorem mapOnly (hw : MapOnly fs (inodeAt fs.device freeMapSector) fs')
    (hbits : ∀ t x, fs.Used data cnt t → InFoot fs.device t x → fs'.freeMap.bit x = true) :
    Catalog fs' refs dir data cnt ∧
      dirContents fs'.device data cnt = dirContents fs.device data cnt := by
  obtain ⟨inode, hdir, rfl, -, hnode, hused, hne⟩ := h.dirFile
  obtain ⟨-, -, -, hmap⟩ := h.map
  have hsame : ∀ t, fs.Used inode.data cnt t → fs'.device.data t = fs.device.data t :=
    fun t ht ↦ hw.other t (h.not_data hmap ht)
  -- The directory and the free map share no sector, so its entries are those they were.
  have hcontents :
      dirContents fs'.device inode.data cnt = dirContents fs.device inode.data cnt := by
    refine Slots.contents_congr fun k hk ↦ ?_
    have hentry : dirEntry fs'.device inode.data k = dirEntry fs.device inode.data k := by
      refine DirEntry.decode_congr fun i hi ↦ ?_
      have hpos : dirEntrySize * k + i < inode.data.length.toNat := by
        rw [hdir.length]
        simp only [dirEntrySize] at hi ⊢
        omega
      rw [fileByte, fileByte, hw.other]
      intro pos hpos' heq
      have hx1 := (h.disk.valid _ hmap).inData hpos'
      have hx2 := (h.disk.valid _ hused).inData (hnode ▸ hpos)
      rw [heq, hnode] at hx1
      exact hne (h.disk.disjoint _ _ _ hused hmap (.inr hx2) (.inr hx1))
    rw [dirSlot, dirSlot, hentry]
  have hlisted : ∀ t, ListedIn fs'.device inode.data cnt t ↔ ListedIn fs.device inode.data cnt t :=
    fun t ↦ by rw [ListedIn, ListedIn, hcontents]
  have hsize := hw.size
  have hmsize := hw.map_size
  have hquiet := hw.quiet h.memory
  obtain ⟨device, freeMap, oracle, rfl⟩ := hw.rest
  refine ⟨⟨?_, h.heap.congr rfl rfl rfl rfl, h.self, h.mem, h.length, fun id inode' hi ↦ ?_,
    fun id inode' hi hr ↦ ?_, h.mapFile, hcontents ▸ h.names, hcontents ▸ h.sectors, hquiet⟩,
    hcontents⟩
  · refine (h.disk.congr hsize hmsize hsame hbits).mono ?_
    rintro t (hl | hat)
    · exact .inl ((hlisted t).mp hl)
    · exact .inr hat
  · rw [h.nodes id inode' hi]
    exact (inodeAt_congr (hsame _ (used_of_at hi))).symm
  · rw [hlisted]
    exact h.removed id inode' hi hr

/-- An entry is written. -/
theorem rewritten (hw : DirFile.Rewritten fs data k e fs')
    (hdisk : DiskOk fs.device fs.freeMap (fs'.Used data cnt))
    (hremoved : ∀ id inode, fs.inodes id = some inode → inode.removed = true →
      ¬ ListedIn fs'.device data cnt inode.sector)
    (hnames : ((dirContents fs'.device data cnt).map Prod.fst).Nodup)
    (hsectors : ((dirContents fs'.device data cnt).map Prod.snd).Nodup) :
    Catalog fs' refs dir data cnt := by
  obtain ⟨inode, hdir, rfl, -, hnode, -⟩ := h.dirFile
  have hother := hw.other
  obtain ⟨data', rfl⟩ := hw.rest
  have hused : Used { fs with device := ⟨fs.device.size, data'⟩ } inode.data cnt inode.sector :=
    used_of_at hdir.opened
  have hsame : ∀ t, Used { fs with device := ⟨fs.device.size, data'⟩ } inode.data cnt t →
      data' t = fs.device.data t := by
    intro t ht
    refine hother t fun pos hpos heq ↦ ?_
    rw [hnode] at hpos heq
    exact hdisk.not_inData hused ht (heq ▸ (hdisk.valid _ hused).inData hpos)
  refine ⟨hdisk.congr rfl rfl hsame fun t x ht hx ↦ (hdisk.valid t ht).marked x hx,
    h.heap.congr rfl rfl rfl rfl, h.self, h.mem, h.length, fun id inode' hi ↦ ?_, hremoved,
    h.mapFile, hnames, hsectors, h.memory⟩
  rw [h.nodes id inode' hi]
  exact (inodeAt_congr (hsame _ (.inr ⟨id, inode', hi, rfl⟩))).symm

/-! ## Opening and closing -/

/-- **`inode_open`** of an inode in use. -/
theorem inodeOpen (hs : fs.Used data cnt s) :
    ∃ id fs', fs.inodeOpen s = some (some id, fs') ∧ Catalog fs' (id :: refs) dir data cnt ∧
      fs'.device = fs.device ∧ fs'.At id s := by
  have hmem : ∀ id, dir ∈ id :: refs := fun id ↦ mem_cons_of_mem _ h.mem
  rw [Fs.inodeOpen]
  cases hfind : fs.findInode s with
  | some id =>
    obtain ⟨inode, hi, hsec⟩ := findInode_eq_some hfind
    refine ⟨id, fs.setInode id (some { inode with openCnt := inode.openCnt + 1 }),
      by simp [inodeReopen, hi], ?_, rfl, _, Function.update_self .., hsec⟩
    exact h.setInode hi rfl rfl rfl (h.removed id inode hi) (h.heap.addRef hi) (hmem id)
  | none =>
    have hread := Block.read_eq_some.mpr ⟨(h.disk.valid s hs).sector, rfl⟩
    refine ⟨fs.next, { fs with
        openInodes := fs.next :: fs.openInodes, next := fs.next + 1 }.setInode
      fs.next (some ⟨s, 1, false, 0, inodeAt fs.device s⟩), ?_, ?_, rfl, _,
      Function.update_self .., rfl⟩
    · simp [malloc, h.memory, hread, inodeAt, Fs.setInode]
    have hnone := h.heap.inodes_next
    refine h.memoryOnly rfl rfl rfl rfl h.memory
      (h.heap.newInode fun id inode hi ↦ h.heap.findInode_eq_none hfind hi) (hmem _)
      (fun id1 inode1 hi1 ↦ ?_) fun id1 inode1 inode2 hi1 hi2 ↦ ?_
    · obtain ⟨rfl, heq⟩ | ⟨-, hi1⟩ := inodes_setInode_eq_some.mp hi1
      · cases heq
        exact ⟨hs, rfl, by rintro ⟨⟩⟩
      · exact ⟨used_of_at hi1, h.nodes id1 inode1 hi1, h.removed id1 inode1 hi1⟩
    · obtain ⟨rfl, -⟩ | ⟨-, hi2⟩ := inodes_setInode_eq_some.mp hi2
      · cases hnone.symm.trans hi1
      · cases hi1.symm.trans hi2
        exact ⟨rfl, rfl, rfl⟩

end

/-- The last user of an inode has closed it. -/
theorem dropInode (h : Catalog fs (id :: refs) dir data cnt) (hmem : dir ∈ refs)
    (hi : fs.inodes id = some inode) (hcnt : inode.openCnt = 1) :
    Catalog ({ fs with openInodes := fs.openInodes.erase id }.setInode id none) refs dir data
      cnt := by
  refine h.memoryOnly rfl rfl rfl rfl h.memory (h.heap.removeInode hi hcnt) hmem
    (fun id1 inode1 hi1 ↦ ?_) fun id1 inode1 inode2 hi1 hi2 ↦ ?_
  · obtain ⟨-, heq⟩ | ⟨-, hi1⟩ := inodes_setInode_eq_some.mp hi1
    · cases heq
    · exact ⟨used_of_at hi1, h.nodes id1 inode1 hi1, h.removed id1 inode1 hi1⟩
  · obtain ⟨-, heq⟩ | ⟨-, hi2⟩ := inodes_setInode_eq_some.mp hi2
    · cases heq
    · cases hi1.symm.trans hi2
      exact ⟨rfl, rfl, rfl⟩

/-- An inode in use after a removed one has been closed is another one. -/
theorem ne_of_used_dropInode (h : Catalog fs refs dir data cnt) (hi : fs.inodes id = some inode)
    (hrem : inode.removed = true)
    (ht : Used ({ fs with openInodes := fs.openInodes.erase id }.setInode id none) data cnt t) :
    t ≠ inode.sector := by
  rintro rfl
  rcases ht with hl | ⟨id', inode', hi', hsec⟩
  · exact h.removed id inode hi hrem hl
  · obtain ⟨-, heq⟩ | ⟨hid, hi'⟩ := inodes_setInode_eq_some.mp hi'
    · cases heq
    · exact hid (h.heap.inj _ _ _ _ hi' hi hsec)

/-- **`inode_close`** keeps the directory, also when the sectors of a removed file are released. -/
theorem inodeClose (h : Catalog fs (id :: refs) dir data cnt) (hmem : dir ∈ refs) :
    Returns (fs.inodeClose id) fun fs' ↦ Catalog fs' refs dir data cnt ∧
      dirContents fs'.device data cnt = dirContents fs.device data cnt := by
  obtain ⟨inode, hi⟩ := isSome_iff_exists.mp (h.heap.ref id mem_cons_self)
  simp only [Fs.inodeClose, hi, some_bind]
  split
  · next hcnt =>
    exact .pure ⟨h.setInode hi rfl rfl rfl (h.removed id inode hi)
      (h.heap.dropRef hi hcnt) hmem, rfl⟩
  next hcnt =>
  have h1 := h.dropInode hmem hi (not_not.mp hcnt)
  split
  case isFalse => exact .pure ⟨h1, rfl⟩
  case isTrue hrem =>
  have hv := h.disk.valid _ (used_of_at hi)
  have hnode := h.nodes id inode hi
  have hsize := h.disk.size
  -- No sector that is released belongs to an inode that is still in use.
  have hapart : ∀ t x, Used ({ fs with openInodes := fs.openInodes.erase id }.setInode id none) data
      cnt t → InFoot fs.device t x → ¬ InFoot fs.device inode.sector x := by
    intro t x ht hx hx'
    have hused : fs.Used data cnt t := by
      refine ht.imp_right ?_
      rintro ⟨id', inode', hi', hsec⟩
      obtain ⟨-, heq⟩ | ⟨-, hi'⟩ := inodes_setInode_eq_some.mp hi'
      · cases heq
      · exact ⟨id', inode', hi', hsec⟩
    exact h.ne_of_used_dropInode hi hrem ht (h.disk.disjoint _ _ x hused (used_of_at hi) hx hx')
  obtain ⟨minode, hmap, hmnode, -⟩ := h1.map
  obtain ⟨fs2, hrel1, hfreed1⟩ := hmap.freeMapRelease inode.sector 1 (by exact hsize ▸ hv.sector)
      fun x hle hlt ↦ by
      obtain rfl : x = inode.sector := by omega
      exact hv.marked _ (.inl rfl)
  have hmap2 := hfreed1.only.mapFile hmap
  obtain ⟨fs3, hrel2, hfreed2⟩ := hmap2.freeMapRelease inode.data.start
    (bytesToSectors inode.data.length) (by
      rw [hfreed1.only.map_size, hnode]
      exact hsize ▸ hv.range) fun x hle hlt ↦ by
      rw [hnode] at hle hlt
      rw [hfreed1.bits, if_neg]
      · exact hv.marked x (.inr ⟨hle, hlt⟩)
      · intro hin
        obtain rfl : x = inode.sector := by omega
        exact hv.own ⟨hle, hlt⟩
  rw [hrel1]
  refine ⟨fs3, hrel2, ?_⟩
  refine h1.mapOnly (hmnode ▸ hfreed1.only.trans hfreed2.only) fun t x ht hx ↦ ?_
  have hno := hapart t x ht hx
  rw [hfreed2.bits, if_neg, hfreed1.bits, if_neg]
  · exact (h1.disk.valid t ht).marked x hx
  · intro hin
    exact hno (.inl (by omega))
  · intro hin
    rw [hnode] at hin
    exact hno (.inr hin)

/-! ## The operations -/

/-- A name is in the directory at most once. -/
theorem sector_unique (h : Catalog fs refs dir data cnt)
    (hs : (name, s) ∈ dirContents fs.device data cnt)
    (ht : (name, t) ∈ dirContents fs.device data cnt) : s = t :=
  (Prod.mk.inj (inj_on_of_nodup_map h.names hs ht rfl)).2

/-- The inode of an entry is in use. -/
theorem used_of_mem (hs : (name, s) ∈ dirContents fs.device data cnt) : fs.Used data cnt s :=
  .inl (mem_map_of_mem (f := Prod.snd) hs)

/-- The slots after one of them has been written. -/
theorem dirSlot_rewritten (hw : DirFile.Rewritten fs data k e fs') (k' : Nat)
    (hk : k' ≠ k) : dirSlot fs'.device data k' = dirSlot fs.device data k' := by
  rw [dirSlot, dirSlot, hw.entry, if_neg hk]

section

variable (h : Catalog fs refs dir data cnt)

include h

/-- With one more inode, the inodes are still well formed and apart. -/
theorem diskOk_existing (hs : Existing fs data cnt s) :
    DiskOk fs.device fs.freeMap fun t ↦ t = s ∨ fs.Used data cnt t := by
  by_cases hused : fs.Used data cnt s
  · exact h.disk.mono fun t ht ↦ ht.elim (fun heq ↦ heq ▸ hused) id
  · refine h.disk.insert hs.valid fun t x ht hx ↦ hs.apart t x ht ?_ hx
    rintro rfl
    exact hused ht

/-- An entry has been added to an empty slot. -/
theorem added (hs : Existing fs data cnt s)
    (hnew : name ∉ (dirContents fs.device data cnt).map Prod.fst) (hk : k < cnt)
    (hslot : dirSlot fs.device data k = none) (hw : DirFile.Rewritten fs data k e fs')
    (hslot' : dirSlot fs'.device data k = some (name, s)) : Catalog fs' refs dir data cnt ∧
      (dirContents fs'.device data cnt).Perm ((name, s) :: dirContents fs.device data cnt) := by
  have hperm : (dirContents fs'.device data cnt).Perm
      ((name, s) :: dirContents fs.device data cnt) :=
    Slots.contents_fill hk hslot hslot' (dirSlot_rewritten hw)
  have hnames := hperm.map Prod.fst
  have hsectors := hperm.map Prod.snd
  have hlisted : ∀ t, ListedIn fs'.device data cnt t → t = s ∨ ListedIn fs.device data cnt t :=
    fun t ht ↦ mem_cons.mp (hsectors.mem_iff.mp ht)
  refine ⟨h.rewritten hw ((h.diskOk_existing hs).mono ?_) (fun id inode hi hr hl ↦ ?_) ?_ ?_, hperm⟩
  · obtain ⟨data', rfl⟩ := hw.rest
    rintro t (hl | hat)
    · exact (hlisted t hl).imp_right .inl
    · exact .inr (.inr hat)
  · rcases hlisted _ hl with heq | hl
    · cases hr.symm.trans (hs.kept id inode hi heq)
    · exact h.removed id inode hi hr hl
  · exact hnames.nodup_iff.mpr (nodup_cons.mpr ⟨hnew, h.names⟩)
  · exact hsectors.nodup_iff.mpr (nodup_cons.mpr ⟨hs.unlisted, h.sectors⟩)

/-- **`dir_add`** adds a name that the directory takes, and else changes nothing. -/
theorem dirAdd (hname : 0 ∉ name) (hs : Existing fs data cnt s) :
    Returns (fs.dirAdd dir name s) fun r ↦
      (Takes fs.device data cnt name → r.1 = true ∧ Catalog r.2 refs dir data cnt ∧
        (dirContents r.2.device data cnt).Perm ((name, s) :: dirContents fs.device data cnt)) ∧
      (¬ Takes fs.device data cnt name → r = (false, fs)) := by
  obtain ⟨inode, hdir, rfl, hdeny, -⟩ := h.dirFile
  have hsmall : s < 2 ^ 32 := Nat.lt_trans hs.valid.sector h.disk.small
  refine (hdir.dirAdd hdeny hsmall name).mono fun r hr ↦ ⟨fun htakes ↦ ?_, hr.2⟩
  obtain ⟨htrue, k, hk, hslot, old, hw⟩ := hr.1 htakes
  have hslot' : dirSlot r.2.device inode.data k = some (name, s) := by
    rw [dirSlot, hw.entry, if_pos rfl, if_pos rfl, cString_strlcpyTo hname]
  exact ⟨htrue, h.added hs htakes.2.2.1 hk hslot hw hslot'⟩

/-- **`dir_lookup`** opens the inode that the name has, if there is one. -/
theorem dirLookup (name : List UInt8) : Returns (fs.dirLookup dir name) fun r ↦
      (∀ s, (name, s) ∈ dirContents fs.device data cnt → ∃ id, r.1 = some id ∧ r.2.At id s) ∧
      (name ∉ (dirContents fs.device data cnt).map Prod.fst → r = (none, fs)) ∧
      Catalog r.2 (r.1.toList ++ refs) dir data cnt ∧ r.2.device = fs.device := by
  obtain ⟨inode, hdir, rfl, -⟩ := h.dirFile
  rw [Fs.dirLookup, hdir.lookup_eq name]
  cases hfind : (range cnt).find? fun k ↦ (dirEntry fs.device inode.data k).named name with
  | none =>
    have hnew := find_named_eq_none hfind
    exact .pure ⟨fun s hs ↦ absurd (mem_map_of_mem hs) hnew, fun _ ↦ rfl, h, rfl⟩
  | some k =>
    obtain ⟨hk, hslot⟩ := find_named_eq_some hfind
    have hmem := Slots.mem_contents.mpr ⟨k, hk, hslot⟩
    obtain ⟨id, fs', hopen, hcat, hdev, hat⟩ := h.inodeOpen (used_of_mem hmem)
    refine ⟨(some id, fs'), hopen, fun s hs ↦ ⟨id, rfl, ?_⟩, fun hno ↦ ?_, hcat, hdev⟩
    · rwa [h.sector_unique hs hmem]
    · exact absurd (mem_map_of_mem hmem) hno

/-- `inode_remove`, of an inode that is not listed. -/
theorem inodeRemove (hat : fs.At id s) (hs : ¬ ListedIn fs.device data cnt s) :
    ∃ fs', fs.inodeRemove id = some fs' ∧ Catalog fs' refs dir data cnt ∧
      fs'.device = fs.device := by
  obtain ⟨inode, hi, rfl⟩ := hat
  refine ⟨fs.setInode id (some { inode with removed := true }), by simp [Fs.inodeRemove, hi],
    ?_, rfl⟩
  exact h.setInode hi rfl rfl rfl (fun _ ↦ hs) (h.heap.setRemoved hi) h.mem

/-- The entry of a name has been cleared. -/
theorem cleared (hk : k < cnt)
    (hslot : dirSlot fs.device data k = some (name, s)) (he : e.inUse = false)
    (hw : DirFile.Rewritten fs data k e fs') :
    Catalog fs' refs dir data cnt ∧ ¬ ListedIn fs'.device data cnt s ∧
      (dirContents fs.device data cnt).Perm ((name, s) :: dirContents fs'.device data cnt) := by
  have hslot' : dirSlot fs'.device data k = none := by
    rw [dirSlot_eq_none, hw.entry, if_pos rfl, he]
  have hperm : (dirContents fs.device data cnt).Perm
      ((name, s) :: dirContents fs'.device data cnt) :=
    Slots.contents_fill hk hslot' hslot fun k' hne ↦ (dirSlot_rewritten hw k' hne).symm
  have hnames := nodup_cons.mp ((hperm.map Prod.fst).nodup_iff.mp h.names)
  have hsectors := nodup_cons.mp ((hperm.map Prod.snd).nodup_iff.mp h.sectors)
  have hlisted : ∀ t, ListedIn fs'.device data cnt t → ListedIn fs.device data cnt t :=
    fun t ht ↦ (hperm.map Prod.snd).mem_iff.mpr (mem_cons_of_mem _ ht)
  refine ⟨h.rewritten hw (h.disk.mono ?_) (fun id inode hi hr hl ↦ ?_) hnames.2 hsectors.2,
    hsectors.1, hperm⟩
  · obtain ⟨data', rfl⟩ := hw.rest
    rintro t (hl | hat)
    · exact .inl (hlisted t hl)
    · exact .inr hat
  · exact h.removed id inode hi hr (hlisted _ hl)

/-- **`dir_remove`** takes the name out of the directory, if it is there. -/
theorem dirRemove (name : List UInt8) : Returns (fs.dirRemove dir name) fun r ↦
      (∀ s, (name, s) ∈ dirContents fs.device data cnt → r.1 = true ∧
        (dirContents fs.device data cnt).Perm ((name, s) :: dirContents r.2.device data cnt)) ∧
      (name ∉ (dirContents fs.device data cnt).map Prod.fst → r = (false, fs)) ∧
      Catalog r.2 refs dir data cnt := by
  obtain ⟨inode, hdir, hdata, -⟩ := h.dirFile
  rw [Fs.dirRemove, hdir.lookup_eq name, hdata]
  cases hfind : (range cnt).find? fun k ↦ (dirEntry fs.device data k).named name with
  | none =>
    have hnew := find_named_eq_none hfind
    exact .pure ⟨fun s hs ↦ absurd (mem_map_of_mem hs) hnew, fun _ ↦ rfl, h⟩
  | some k =>
    obtain ⟨hk, hslot⟩ := find_named_eq_some hfind
    have hmem := Slots.mem_contents.mpr ⟨k, hk, hslot⟩
    generalize he : dirEntry fs.device data k = e at hslot hmem
    have hdec : DirEntry.decode { e with inUse := false }.encode = { e with inUse := false } := by
      subst he
      exact DirEntry.decode_encode (le32_lt _ _)
        (show (dirEntry fs.device data k).name.length = nameMax + 1 from length_decode_name _)
    obtain ⟨id, fs1, hopen, h1, hdev1, hat1⟩ := h.inodeOpen (used_of_mem hmem)
    obtain ⟨inode1, hdir1, hdata1, hdeny1, -⟩ := h1.dirFile
    obtain ⟨⟨n, fs2⟩, hwrite, hin, -⟩ := hdir1.write_spec hdeny1 hdec k
    obtain ⟨hn, hw⟩ := hin hk
    dsimp only at hn hw
    rw [hdata1] at hw
    rw [← hdev1] at hslot
    obtain ⟨h2, hgone, hperm⟩ := h1.cleared hk hslot rfl hw
    have hat2 : fs2.At id e.inodeSector := by
      obtain ⟨data', rfl⟩ := hw.rest
      exact hat1
    obtain ⟨fs3, hremove, h3, hdev3⟩ := h2.inodeRemove hat2 hgone
    obtain ⟨fs4, hclose, h4, hcontents⟩ := h3.inodeClose h.mem
    rw [hdev1] at hperm
    rw [hdev3] at hcontents
    simp only [map_some, he, hopen, hwrite, hremove, hclose, some_bind, hn, ne_eq, not_true,
      if_false]
    refine .pure ⟨fun s hs ↦ ⟨rfl, ?_⟩, fun hno ↦ ?_, h4⟩
    · rw [h.sector_unique hs hmem, hcontents]
      exact hperm
    · exact absurd (mem_map_of_mem hmem) hno

end

end Catalog

/-! ## Reading the directory -/

/-- The names that `dir_readdir` returns from position `pos` on, until it returns false. -/
def readdirPass (fs : Fs) (dir : Nat) : Nat → Nat → Kernel (List (List UInt8))
  | 0, _ => some []
  | fuel + 1, pos => do
    let (name, pos, fs) ← fs.dirReaddir dir pos
    match name with
    | none => return []
    | some name => return name :: (← readdirPass fs dir fuel pos)

/-- The names from slot `k` on. -/
theorem DirFile.readdirPass_eq {fuel : Nat} (h : DirFile fs dir inode cnt) (hk : k ≤ cnt)
    (hfuel : cnt - k < fuel) : fs.readdirPass dir fuel (dirEntrySize * k) =
      some (((range' k (cnt - k)).filterMap (dirSlot fs.device inode.data)).map Prod.fst) := by
  have hsome : (fun k ↦ (dirSlot fs.device inode.data k).isSome) =
      fun k ↦ (dirEntry fs.device inode.data k).inUse := by
    funext k
    rw [dirSlot]
    split <;> simp_all
  induction fuel generalizing k with
  | zero => omega
  | succ fuel ih =>
    rw [readdirPass, h.dirReaddir_eq hk, Slots.filterMap_range'_eq hk, hsome]
    cases hnext : (range' k (cnt - k)).find? fun k ↦
        (dirEntry fs.device inode.data k).inUse with
    | none => rfl
    | some k' =>
      have hmem := mem_range'_1.mp (mem_of_find?_eq_some hnext)
      have huse : (dirEntry fs.device inode.data k').inUse = true :=
        find?_some (p := fun k ↦ (dirEntry fs.device inode.data k).inUse) hnext
      have hrest := ih (k := k' + 1) (by omega) (by omega)
      simp only [map_some, elim_some, some_bind, hrest, dirSlot, if_pos huse,
        toList_some, singleton_append, map_cons, Option.pure_def]

/-- **A pass of `dir_readdir`** returns the names that are in the directory. -/
theorem Catalog.readdirPass (h : Catalog fs refs dir data cnt) :
    fs.readdirPass dir (cnt + 1) 0 = some ((dirContents fs.device data cnt).map Prod.fst) := by
  obtain ⟨inode, hdir, rfl, -⟩ := h.dirFile
  rw [dirContents, Slots.contents, range_eq_range']
  exact hdir.readdirPass_eq (k := 0) (Nat.zero_le _) (Nat.lt_succ_self _)

/-! ## A new directory -/

/-- A file system whose open inodes are well formed and share no sector. -/
structure WellFormed (fs : Fs) (refs : List Nat) : Prop where
  disk : DiskOk fs.device fs.freeMap fun s ↦ ∃ id, fs.At id s
  heap : HeapOk fs refs
  nodes : ∀ id inode, fs.inodes id = some inode → inode.data = inodeAt fs.device inode.sector
  mapFile : ∃ f file inode, fs.freeMapFile = some f ∧ fs.files f = some file ∧
    fs.inodes file.inode = some inode ∧ inode.sector = freeMapSector
  memory : fs.oracle = []

theorem Sound.wellFormed {refs : List (Nat × Nat)} {held : Nat → View → Prop}
    (h : Sound fs refs held) (hmem : fs.oracle = []) : WellFormed fs (refs.map Prod.fst) := by
  refine ⟨h.disk.mono fun s hs ↦ .inr (.inr (.inr hs)), h.heap, h.data, ?_, hmem⟩
  obtain ⟨f, file, hf, hfile, ⟨inode, hi, hsec⟩, -⟩ := h.mapFile
  exact ⟨f, file, inode, hf, hfile, hi, hsec⟩

/-- `dir_create` makes an inode next to those that are open. -/
theorem WellFormed.dirCreate (h : WellFormed fs refs) (hmark : fs.freeMap.bit d = true)
    (hfree : ∀ id t, fs.At id t → ¬ InFoot fs.device t d) (hcnt : cnt * dirEntrySize < 2 ^ 31)
    (hcreate : fs.dirCreate d cnt = some (true, fs')) : WellFormed fs' refs ∧
      DiskOk fs'.device fs'.freeMap (fun t ↦ t = d ∨ ∃ id, fs'.At id t) ∧
      (inodeAt fs'.device d).length = (cnt * dirEntrySize : Nat) ∧
      (∀ x, InData fs'.device d x → fs'.device.data x = fun _ ↦ 0) ∧
      ∀ id t, fs'.At id t → t ≠ d := by
  have hlength : toInt32 (cnt * dirEntrySize % 2 ^ 32) = (cnt * dirEntrySize : Nat) := by
    rw [Nat.mod_eq_of_lt (Nat.lt_trans hcnt (by decide)), toInt32_of_lt hcnt]
  rw [Fs.dirCreate, hlength] at hcreate
  obtain ⟨oracle, start, fs1, device, hquiet, hall, hd, hz, heq⟩ := inodeCreate_eq hcreate
  obtain ⟨f0, file0, inode0, hf0, hfile0, hi0, hsec0⟩ := h.mapFile
  have hat0 : ∃ id, fs.At id freeMapSector := ⟨_, inode0, hi0, hsec0⟩
  have hnode0 : inode0.data = inodeAt fs.device freeMapSector := hsec0 ▸ h.nodes _ inode0 hi0
  obtain ⟨b, hscan, ⟨hf, -⟩ | ⟨f, hf, hwrite⟩⟩ := freeMapAllocate_eq hall
  · cases hf0.symm.trans hf
  have hmap : MapFile { fs with freeMap := b, oracle } inode0 :=
    ⟨⟨f0, file0, hf0, hfile0, hi0⟩, hnode0 ▸ (h.disk.valid _ hat0).onDevice⟩
  obtain ⟨honly, hb⟩ := (hmap.bitmapWrite (f := f) hf).of_eq hwrite
  rw [hnode0] at honly
  dsimp only at hb
  have hmade : Made fs fs1 fs' d (cnt * dirEntrySize : Nat) := by
    rw [heq]
    refine .of_scan h.disk.small h.disk.size honly.size hmark (Int.natCast_nonneg _)
      (by exact_mod_cast hcnt) ?_ hd hz
    rw [hb]
    exact hscan
  -- The sectors of the inodes that are open are neither taken nor written.
  have hne : ∀ id t, fs.At id t → t ≠ d := fun id t hat heq ↦ hfree id t hat (.inl heq.symm)
  have hsame : ∀ t, (∃ id, fs.At id t) → fs'.device.data t = fs.device.data t := by
    rintro t ⟨id, hat⟩
    have hmarked : fs.freeMap.bit t = true := (h.disk.valid t ⟨id, hat⟩).marked t (.inl rfl)
    rw [hmade.other t (hne id t hat) hmarked]
    refine honly.other t fun pos hpos heq ↦ ?_
    exact h.disk.not_inData hat0 ⟨id, hat⟩ (heq ▸ (h.disk.valid _ hat0).inData hpos)
  have hbits : ∀ t x, (∃ id, fs.At id t) → InFoot fs.device t x → fs'.freeMap.bit x = true :=
    fun t x ht hx ↦ hmade.keep x ((h.disk.valid t ht).marked x hx)
  have hsize : fs'.device.size = fs.device.size := hmade.size.trans honly.size
  have hmsize : fs'.freeMap.size = fs.freeMap.size := by
    rw [heq]
    dsimp only
    rw [hb]
    exact (Bitmap.scanAndFlip_spec hscan).2.2.1
  have hdisk := h.disk.congr hsize hmsize hsame hbits
  have hmem : fs'.oracle = [] := by
    rw [heq]
    exact honly.quiet (hquiet h.memory)
  have hdisk' : DiskOk fs'.device fs'.freeMap fun t ↦ t = d ∨ ∃ id, fs.At id t := by
    refine hdisk.insert hmade.valid ?_
    rintro t x ⟨id, ht⟩ hx hx'
    rw [inFoot_congr (hsame t ⟨id, ht⟩)] at hx'
    rcases hx with rfl | hx
    · exact hfree id t ht hx'
    · cases ((h.disk.valid t ⟨id, ht⟩).marked x hx').symm.trans (hmade.clear x hx)
  have hlength' := hmade.length
  have hzero := hmade.zero
  have hrest : SameHeap fs fs' := by
    obtain ⟨_, _, _, heq1⟩ := honly.rest
    dsimp only at heq1
    exact ⟨_, _, _, by rw [heq, heq1]⟩
  obtain ⟨_, _, _, rfl⟩ := hrest
  refine ⟨⟨hdisk, h.heap.congr rfl rfl rfl rfl, fun id inode hi ↦ ?_, h.mapFile, hmem⟩, hdisk',
    hlength', hzero, hne⟩
  rw [h.nodes id inode hi]
  exact (inodeAt_congr (hsame _ ⟨id, inode, hi, rfl⟩)).symm

/-- **A new directory** is empty. -/
theorem Catalog.of_create {fs1 fs2 : Fs} (h : WellFormed fs refs)
    (hmark : fs.freeMap.bit d = true) (hfree : ∀ id t, fs.At id t → ¬ InFoot fs.device t d)
    (hcnt : cnt * dirEntrySize < 2 ^ 31) (hcreate : fs.dirCreate d cnt = some (true, fs1))
    (hopen : fs1.inodeOpen d = some (some dir, fs2)) :
    Catalog fs2 (dir :: refs) dir (inodeAt fs2.device d) cnt ∧
      dirContents fs2.device (inodeAt fs2.device d) cnt = [] := by
  obtain ⟨h1, hdisk, hlength, hzero, hne⟩ := h.dirCreate hmark hfree hcnt hcreate
  have hempty : dirContents fs1.device (inodeAt fs1.device d) cnt = [] := by
    refine eq_nil_iff_forall_not_mem.mpr fun p hp ↦ ?_
    obtain ⟨k, hk, hslot⟩ := Slots.mem_contents.mp hp
    -- The bytes of the directory are zeros, and so are those that say that an entry is in use.
    have hbyte : fileByte fs1.device (inodeAt fs1.device d) (dirEntrySize * k + 19) = 0 := by
      rw [fileByte, hzero]
      refine (hdisk.valid d (.inl rfl)).inData ?_
      rw [hlength]
      simp only [dirEntrySize]
      omega
    have huse : (dirEntry fs1.device (inodeAt fs1.device d) k).inUse = false := by
      simp [dirEntry, DirEntry.decode, hbyte]
    rw [dirSlot_eq_none.mpr huse] at hslot
    cases hslot
  have hlisted : ∀ t, ¬ ListedIn fs1.device (inodeAt fs1.device d) cnt t := by
    intro t ht
    rw [ListedIn, hempty] at ht
    cases ht
  have hnodup : ∀ {β : Type} (f : List UInt8 × Nat → β),
      ((dirContents fs1.device (inodeAt fs1.device d) cnt).map f).Nodup := by
    intro β f
    rw [hempty]
    exact nodup_nil
  have hfind : fs1.findInode d = none := by
    cases hf : fs1.findInode d with
    | none => rfl
    | some id =>
      obtain ⟨inode, hi, hsec⟩ := findInode_eq_some hf
      exact absurd rfl (hne id d ⟨inode, hi, hsec⟩)
  have hheap := h1.heap.of_inodeOpen hopen
  have hread := Block.read_eq_some.mpr ⟨(hdisk.valid d (.inl rfl)).sector, rfl⟩
  simp only [Fs.inodeOpen, hfind, malloc, h1.memory, hread, some_bind, pure_eq_some,
    some_inj, Prod.mk.injEq] at hopen
  obtain ⟨rfl, rfl⟩ := hopen
  have hlt : ∀ id inode, fs1.inodes id = some inode → id ≠ fs1.next :=
    fun id inode hi ↦ Nat.ne_of_lt (h1.heap.inode_lt id inode hi)
  refine ⟨⟨hdisk.mono ?_, hheap, ⟨_, Function.update_self .., rfl, rfl, ?_⟩, mem_cons_self,
    hlength, fun id inode hi ↦ ?_, fun id inode _ _ ↦ hlisted _, ?_, hnodup _, hnodup _, rfl⟩,
    hempty⟩
  · rintro t (hl | ⟨id, inode, hi, rfl⟩)
    · exact absurd hl (hlisted t)
    · obtain ⟨-, heq⟩ | ⟨-, hi⟩ := inodes_setInode_eq_some.mp hi
      · cases heq
        exact .inl rfl
      · exact .inr ⟨id, inode, hi, rfl⟩
  · obtain ⟨f, file, inode, -, -, hi, hsec⟩ := h1.mapFile
    exact (hne _ freeMapSector ⟨inode, hi, hsec⟩).symm
  · obtain ⟨-, heq⟩ | ⟨-, hi⟩ := inodes_setInode_eq_some.mp hi
    · cases heq
      rfl
    · exact h1.nodes id inode hi
  · obtain ⟨f, file, inode, hf, hfile, hi, hsec⟩ := h1.mapFile
    exact ⟨f, file, inode, hf, hfile, inodes_setInode_eq_some.mpr (.inr ⟨hlt _ _ hi, hi⟩), hsec⟩

end Fs

/-! ## Any calls -/

/-- A call for a directory. -/
inductive DirCall where
  | add (name : List UInt8) (inodeSector : Nat)
  | remove (name : List UInt8)
  | lookup (name : List UInt8)

/-- A directory that is open, and the inodes that have been opened and not closed. -/
structure DirSession where
  fs : Fs
  dir : Nat
  opened : List Nat

namespace DirSession

/-- A call. -/
def step (s : DirSession) : DirCall → Option DirSession
  | .add name inodeSector => do return { s with fs := (← s.fs.dirAdd s.dir name inodeSector).2 }
  | .remove name => do return { s with fs := (← s.fs.dirRemove s.dir name).2 }
  | .lookup name => do
    let (inode, fs) ← s.fs.dirLookup s.dir name
    return { s with fs, opened := inode.toList ++ s.opened }

/-- What is added is a string and a file that is there. -/
def Proper (data : InodeDisk) (cnt : Nat) (s : DirSession) : DirCall → Prop
  | .add name inodeSector => 0 ∉ name ∧ s.fs.Existing data cnt inodeSector
  | _ => True

/-- `dir_create` in sector `d`, and `dir_open`. -/
def create (fs : Fs) (refs : List Nat) (d cnt : Nat) : Option DirSession := do
  let (created, fs) ← fs.dirCreate d cnt
  assert (created = true)
  let (inode, fs) ← fs.inodeOpen d
  let dir ← inode
  return ⟨fs, dir, dir :: refs⟩

variable {s s' : DirSession} {data : InodeDisk} {cnt : Nat} {c : DirCall}

/-- **A call keeps the directory.** -/
theorem catalog_step (h : s.fs.Catalog s.opened s.dir data cnt) (hc : s.Proper data cnt c)
    (hs : s.step c = some s') : s'.fs.Catalog s'.opened s'.dir data cnt := by
  cases c <;> simp only [step, bind_eq_some] at hs <;>
    obtain ⟨⟨r, fs⟩, hcall, heq⟩ := hs <;> cases heq
  case add name inodeSector =>
    obtain ⟨hadd, hno⟩ := (h.dirAdd hc.1 hc.2).of_eq hcall
    by_cases htakes : Fs.Takes s.fs.device data cnt name
    · exact (hadd htakes).2.1
    · cases hno htakes
      exact h
  case remove name => exact ((h.dirRemove name).of_eq hcall).2.2
  case lookup name => exact ((h.dirLookup name).of_eq hcall).2.2.1

theorem catalog_create {fs : Fs} {refs : List Nat} (h : fs.WellFormed refs)
    (hmark : fs.freeMap.bit d = true) (hfree : ∀ id t, fs.At id t → ¬ InFoot fs.device t d)
    (hcnt : cnt * dirEntrySize < 2 ^ 31) (hs : create fs refs d cnt = some s) :
    s.fs.Catalog s.opened s.dir (inodeAt s.fs.device d) cnt ∧
      dirContents s.fs.device (inodeAt s.fs.device d) cnt = [] := by
  simp only [create, bind_eq_some, assert_eq_some] at hs
  obtain ⟨⟨_, fs1⟩, hcreate, -, rfl, ⟨_, fs2⟩, hopen, dir, rfl, heq⟩ := hs
  cases heq
  exact Fs.Catalog.of_create h hmark hfree hcnt hcreate hopen

/-- **A directory is a finite map.**  A directory with `cnt` entries is made, empty, in any
well-formed file system.  After any calls no name is in it twice.  `dir_add` adds a name that has 1
to 14 characters and is not there yet, as long as there are fewer than `cnt`, and else changes
nothing; `dir_remove` takes a name out if it is there, and else changes nothing; `dir_lookup` opens
the inode of a name; and a pass of `dir_readdir` lists every name once. -/
theorem directory_map {fs : Fs} {refs : List Nat} {d : Nat} {s₀ : DirSession}
    {calls : List DirCall} (hfs : fs.WellFormed refs) (hmark : fs.freeMap.bit d = true)
    (hfree : ∀ id t, fs.At id t → ¬ InFoot fs.device t d) (hcnt : cnt * dirEntrySize < 2 ^ 31)
    (hcreate : create fs refs d cnt = some s₀)
    (hproper : Run.Meets step (Proper (inodeAt s₀.fs.device d) cnt) s₀ calls)
    (hrun : Run.run step s₀ calls = some s) :
    let data := inodeAt s₀.fs.device d
    let contents := fun fs : Fs ↦ dirContents fs.device data cnt
    contents s₀.fs = [] ∧ ((contents s.fs).map Prod.fst).Nodup ∧
    (∀ name t, s.Proper data cnt (.add name t) →
      Returns (s.fs.dirAdd s.dir name t) fun r ↦
        ((1 ≤ name.length ∧ name.length ≤ 14 ∧ name ∉ (contents s.fs).map Prod.fst ∧
            (contents s.fs).length < cnt) →
          r.1 = true ∧ (contents r.2).Perm ((name, t) :: contents s.fs)) ∧
        (¬ (1 ≤ name.length ∧ name.length ≤ 14 ∧ name ∉ (contents s.fs).map Prod.fst ∧
            (contents s.fs).length < cnt) → r = (false, s.fs))) ∧
    (∀ name, Returns (s.fs.dirRemove s.dir name) fun r ↦
      (∀ t, (name, t) ∈ contents s.fs →
        r.1 = true ∧ (contents s.fs).Perm ((name, t) :: contents r.2)) ∧
      (name ∉ (contents s.fs).map Prod.fst → r = (false, s.fs))) ∧
    (∀ name, Returns (s.fs.dirLookup s.dir name) fun r ↦
      (∀ t, (name, t) ∈ contents s.fs → ∃ id, r.1 = some id ∧ r.2.At id t) ∧
      (name ∉ (contents s.fs).map Prod.fst → r = (none, s.fs)) ∧
      contents r.2 = contents s.fs) ∧
    s.fs.readdirPass s.dir (cnt + 1) 0 = some ((contents s.fs).map Prod.fst) := by
  obtain ⟨h₀, hempty⟩ := catalog_create hfs hmark hfree hcnt hcreate
  generalize inodeAt s₀.fs.device d = data at *
  intro _ _
  have h : s.fs.Catalog s.opened s.dir data cnt :=
    Run.invariant (I := fun s ↦ s.fs.Catalog s.opened s.dir data cnt)
      (fun _ _ _ h hc hs ↦ catalog_step h hc hs) h₀ hproper hrun
  refine ⟨hempty, h.names, fun name t hc ↦ ?_, fun name ↦ ?_, fun name ↦ ?_, h.readdirPass⟩
  · refine (h.dirAdd hc.1 hc.2).mono ?_
    rintro r ⟨hadd, hno⟩
    have hiff : (1 ≤ name.length ∧ name.length ≤ 14 ∧
        name ∉ (dirContents s.fs.device data cnt).map Prod.fst ∧
        (dirContents s.fs.device data cnt).length < cnt) ↔
        Fs.Takes s.fs.device data cnt name := by
      rw [Fs.Takes, Nat.one_le_iff_ne_zero, Ne, length_eq_zero_iff]
    exact ⟨fun htakes ↦ ⟨(hadd (hiff.mp htakes)).1, (hadd (hiff.mp htakes)).2.2⟩,
      fun hnot ↦ hno fun htakes ↦ hnot (hiff.mpr htakes)⟩
  · exact (h.dirRemove name).mono fun r hr ↦ ⟨hr.1, hr.2.1⟩
  · exact (h.dirLookup name).mono fun r hr ↦ ⟨hr.1, hr.2.1,
      congrArg (dirContents · data cnt) hr.2.2.2⟩

/-- A file that `filesys_create` has made is added to a new directory with two entries. -/
theorem directory_map_file : ∃ fs s₀ s, fs.WellFormed [] ∧ create fs [] 6 2 = some s₀ ∧
    Run.Meets step (Proper (inodeAt s₀.fs.device 6) 2) s₀ [.add [97] 4, .remove [98]] ∧
    Run.run step s₀ [.add [97] 4, .remove [98]] = some s ∧
    s.fs.readdirPass s.dir 3 0 = some [[97]] := by
  have heval : ((Fs.filesysInit ⟨16, fun _ _ ↦ 0⟩ [] fun _ ↦ 0).bind fun fs ↦
      (fs.filesysCreate [97] 10).bind fun r ↦ (r.2.freeMapAllocate 1).bind fun r ↦
      (create r.2 [] 6 2).bind fun s₀ ↦ (Run.run step s₀ [.add [97] 4, .remove [98]]).map fun s ↦
        r.2.freeMap.bit 6 && r.2.oracle.isEmpty && s₀.fs.device.size == 16 &&
        ((List.range r.2.next).filterMap fun id ↦ (r.2.inodes id).map (·.sector)) == [0] &&
        ((List.range s₀.fs.next).filterMap fun id ↦ (s₀.fs.inodes id).map (·.sector)) == [0, 6] &&
        s₀.fs.freeMap.bit 4 && s₀.fs.freeMap.bit 5 &&
        inodeAt r.2.device 0 == ⟨2, 4, inodeMagic⟩ &&
        inodeAt s₀.fs.device 0 == ⟨2, 4, inodeMagic⟩ &&
        inodeAt s₀.fs.device 4 == ⟨5, 10, inodeMagic⟩ &&
        inodeAt s₀.fs.device 6 == ⟨7, 40, inodeMagic⟩ &&
        dirContents s.fs.device (inodeAt s₀.fs.device 6) 2 == [([97], 4)]) = some true := by
    decide +kernel
  simp only [bind_eq_some_iff, map_eq_some_iff, Bool.and_eq_true, List.isEmpty_iff,
    beq_iff_eq, and_assoc] at heval
  obtain ⟨fs, hinit, ⟨_, fs₁⟩, hfile, ⟨_, fs₂⟩, hall, s₀, hcreate, s, hrun, hmark, hmem, hsize,
    hopen, hopen₀, hbit4, hbit5, hnode, hnode0, hnode4, hnode6, hcontents⟩ := heval
  have hsound := ((Fs.freeMapAllocate_spec ((Fs.filesysCreate_spec (Fs.filesysInit_sound (by decide)
    hinit) (by decide) (by decide)).of_eq hfile) 1).of_eq hall).sound
  have hfs : fs₂.WellFormed [] := hsound.wellFormed hmem
  have hfree : ∀ id t, fs₂.At id t → ¬ InFoot fs₂.device t 6 := by
    rintro id t ⟨inode, hi, rfl⟩ hin
    have hmem : inode.sector ∈ (List.range fs₂.next).filterMap fun id ↦
        (fs₂.inodes id).map (·.sector) :=
      mem_filterMap.mpr
        ⟨id, mem_range.mpr (hfs.heap.inode_lt id inode hi), by rw [hi]; rfl⟩
    rw [hopen, mem_singleton] at hmem
    rw [hmem, InFoot, InData, hnode] at hin
    exact absurd hin (by decide)
  have hproper : Run.Meets step (Proper (inodeAt s₀.fs.device 6) 2) s₀
      [.add [97] 4, .remove [98]] := by
    refine ⟨⟨by decide, ?_⟩, fun s' _ ↦ ⟨trivial, fun _ _ ↦ trivial⟩⟩
    obtain ⟨hcat, hempty⟩ := catalog_create hfs hmark hfree (by decide) hcreate
    have hat : ∀ id t, s₀.fs.At id t → t = 0 ∨ t = 6 := by
      rintro id t ⟨inode, hi, rfl⟩
      have hmem : inode.sector ∈ (List.range s₀.fs.next).filterMap fun id ↦
          (s₀.fs.inodes id).map (·.sector) := mem_filterMap.mpr
        ⟨id, mem_range.mpr (hcat.heap.inode_lt id inode hi), by rw [hi]; rfl⟩
      simpa [hopen₀] using hmem
    have hfoot : ∀ x, InFoot s₀.fs.device 4 x → x = 4 ∨ x = 5 := by
      intro x hx
      rw [InFoot, InData, hnode4] at hx
      have hcnt : bytesToSectors 10 = 1 := by decide
      dsimp only at hx
      omega
    have hlisted : ∀ t, ¬ Fs.ListedIn s₀.fs.device (inodeAt s₀.fs.device 6) 2 t := by
      intro t ht
      rw [Fs.ListedIn, hempty] at ht
      cases ht
    refine ⟨⟨by rw [hsize]; decide, by rw [hnode4]; decide, by rw [hnode4]; decide,
      by rw [hnode4, hsize]; decide, ?_, fun x hx ↦ ?_⟩, fun t x ht hne hx hx' ↦ ?_, hlisted 4,
      fun id inode hi hsec ↦ ?_⟩
    · rw [InData, hnode4]
      decide
    · rcases hfoot x hx with rfl | rfl
      · exact hbit4
      · exact hbit5
    · rcases ht with hl | ⟨id, ht⟩
      · exact hlisted t hl
      · rcases hat id t ht with rfl | rfl <;> rcases hfoot x hx with rfl | rfl <;>
          simp only [InFoot, InData, hnode0, hnode6] at hx' <;> revert hx' <;> decide
    · rcases hat id _ ⟨inode, hi, rfl⟩ with h | h <;> omega
  refine ⟨fs₂, s₀, s, hfs, hcreate, hproper, hrun, ?_⟩
  have hmap := directory_map hfs hmark hfree (by decide) hcreate hproper hrun
  have hnames := hmap.2.2.2.2.2
  dsimp only at hnames
  rw [hnames, hcontents]
  rfl

/-- The number of bytes that `dir_create` asks for wraps: a directory made for 214748365 entries has
4 bytes, and there is no room for the first name. -/
theorem dirCreate_wraps : ((Fs.filesysInit ⟨16, fun _ _ ↦ 0⟩ [] fun _ ↦ 0).bind fun fs ↦
    (fs.freeMapAllocate 1).bind fun r ↦ (r.2.inodeCreate 4 10).bind fun r ↦
    (r.2.freeMapAllocate 1).bind fun r ↦ (create r.2 [] 6 214748365).bind fun s ↦
    (s.fs.readdirPass s.dir 1 0).bind fun names ↦ (s.fs.dirAdd s.dir [97] 4).map fun added ↦
      (r.1, names, added.1, [4, 6].map (inodeAt s.fs.device))) =
    some (some 6, [], false, [⟨5, 10, inodeMagic⟩, ⟨7, 4, inodeMagic⟩]) := by
  decide +kernel

end DirSession

end Pintos
