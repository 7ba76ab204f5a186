import Pintos.Filesys.RootDir

/-!
# Formatting

`filesys_init (true)` leaves a sound file system: if it does not panic, the invariant holds
afterwards (`Fs.filesysInit_sound`).  Until the end the file system is not sound, since there is no
root directory yet, so the functions are followed step by step here.  The last step reads the free
map back from the device.
-/

set_option autoImplicit false

namespace Pintos

open Function Option

/-! ## The bytes of a bitmap -/

/-- Eight bits in a byte. -/
theorem testBit_byte : ∀ b0 b1 b2 b3 b4 b5 b6 b7 : Bool, ∀ k < 8,
    ([if b0 then 2 ^ 0 else 0, if b1 then 2 ^ 1 else 0, if b2 then 2 ^ 2 else 0,
      if b3 then 2 ^ 3 else 0, if b4 then 2 ^ 4 else 0, if b5 then 2 ^ 5 else 0,
      if b6 then 2 ^ 6 else 0, if b7 then 2 ^ 7 else 0].sum).toUInt8.toNat.testBit k =
      [b0, b1, b2, b3, b4, b5, b6, b7].getD k false := by
  decide +kernel

theorem Bitmap.testBit_bytes (b : Bitmap) (j : Nat) {k : Nat} (hk : k < 8) :
    (b.bytes j).toNat.testBit k = b.bit (8 * j + k) := by
  refine (testBit_byte (b.bit (8 * j + 0)) (b.bit (8 * j + 1)) (b.bit (8 * j + 2))
    (b.bit (8 * j + 3)) (b.bit (8 * j + 4)) (b.bit (8 * j + 5)) (b.bit (8 * j + 6))
    (b.bit (8 * j + 7)) k hk).trans ?_
  interval_cases k <;> rfl

/-- The bitmap that has been written is read back. -/
theorem Bitmap.ofBytes_bit {b : Bitmap} {buffer : Buffer} {size i : Nat} (hi : i < size)
    (h : ∀ j < byteCnt size, buffer j = b.bytes j) :
    (Bitmap.ofBytes size buffer).bit i = b.bit i := by
  have hj : i / 8 < byteCnt size := by
    simp only [byteCnt]
    omega
  simp only [ofBytes, hi, decide_true, Bool.true_and]
  rw [h _ hj, b.testBit_bytes _ (Nat.mod_lt _ (by decide)), Nat.div_add_mod]

variable {oracle : List Bool} {device : Block}

namespace Fs

variable {fs fs' : Fs} {id f s cnt start : Nat} {inode : Inode} {file : File}

/-! ## What has happened if a function has returned -/

/-- `bitmap_write` has written the whole bitmap. -/
theorem bitmapWrite_eq (hf : fs.files f = some file) (hi : fs.inodes file.inode = some inode)
    (hdev : OnDevice fs.device.size inode.data) (h : fs.bitmapWrite f = some (true, fs')) :
    Wrote fs inode.data fs.freeMap.bytes (byteCnt fs.freeMap.size) 0 (byteCnt fs.freeMap.size)
      fs' := by
  simp only [bitmapWrite, fileWriteAt, hf, some_bind, bind_eq_some, pure_eq_some,
    Prod.mk.injEq] at h
  obtain ⟨⟨n, fs1⟩, hwrite, hn, rfl⟩ := h
  have hw := (inodeWriteAt_wrote hi hdev).of_eq hwrite
  rwa [of_decide_eq_true hn] at hw

/-- `free_map_allocate` has found sectors, and has written the map if there is a file for it. -/
theorem freeMapAllocate_eq (h : fs.freeMapAllocate cnt = some (some start, fs')) :
    ∃ b, fs.freeMap.scanAndFlip 0 cnt false = some (some start, b) ∧
      (fs.freeMapFile = none ∧ fs' = { fs with freeMap := b } ∨
        ∃ f, fs.freeMapFile = some f ∧
          bitmapWrite { fs with freeMap := b } f = some (true, fs')) := by
  simp only [freeMapAllocate, bind_eq_some] at h
  obtain ⟨⟨sector, b⟩, hscan, h⟩ := h
  split at h
  · next start' f hsec hf =>
    simp only [bind_eq_some] at h
    obtain ⟨⟨written, fs1⟩, hwrite, h⟩ := h
    split at h
    · next hw =>
      cases h
      exact ⟨b, hsec ▸ hscan, .inr ⟨f, hf, hw ▸ hwrite⟩⟩
    · simp [bind_eq_some_iff] at h
  · next hno =>
    cases h
    refine ⟨b, hscan, .inl ⟨?_, rfl⟩⟩
    cases hf : fs.freeMapFile with
    | none => rfl
    | some f => exact absurd hf (hno start f rfl)

/-- `inode_create` has succeeded. -/
theorem inodeCreate_eq {length : Int} (h : fs.inodeCreate s length = some (true, fs')) :
    ∃ oracle start fs1 device, (fs.oracle = [] → oracle = []) ∧
      freeMapAllocate { fs with oracle } (bytesToSectors length) = some (some start, fs1) ∧
      s < fs1.device.size ∧ writeZeros ⟨fs1.device.size, update fs1.device.data s
        (InodeDisk.mk start length inodeMagic).encode⟩ start (bytesToSectors length) =
          some device ∧ fs' = { fs1 with device } := by
  obtain ⟨ok, oracle, hmalloc, hquiet⟩ := fs.malloc_cases
  simp only [inodeCreate, bind_eq_some, hmalloc] at h
  obtain ⟨-, -, h⟩ := h
  cases ok with
  | false => simp at h
  | true =>
    simp only [bind_eq_some] at h
    obtain ⟨⟨_ | start, fs1⟩, hall, h⟩ := h
    · simp at h
    · simp only [bind_eq_some, pure_eq_some, Prod.mk.injEq, true_and, Block.write_eq_some] at h
      obtain ⟨_, ⟨hs, rfl⟩, device, hzero, rfl⟩ := h
      exact ⟨oracle, start, fs1, device, fun ho ↦ (hquiet ho).2, hall, hs, hzero, rfl⟩

/-! ## The inodes of the free map and of the root directory -/

/-- What `inode_create` leaves: `fs₁` is the state after the sectors have been allocated. -/
structure Made (fs fs₁ fs' : Fs) (s : Nat) (length : Int) : Prop where
  size : fs'.device.size = fs₁.device.size
  valid : ValidInode fs'.device fs'.freeMap s
  length : (inodeAt fs'.device s).length = length
  clear : ∀ x, InData fs'.device s x → fs.freeMap.bit x = false
  zero : ∀ x, InData fs'.device s x → fs'.device.data x = fun _ ↦ 0
  keep : ∀ x, fs.freeMap.bit x = true → fs'.freeMap.bit x = true
  other : ∀ x, x ≠ s → fs.freeMap.bit x = true → fs'.device.data x = fs₁.device.data x

theorem Made.of_scan {fs1 : Fs} {length : Int} (hsmall : fs.device.size < 2 ^ 32)
    (hsize : fs.freeMap.size = fs.device.size) (hdev : fs1.device.size = fs.device.size)
    (hmark : fs.freeMap.bit s = true) (h0 : 0 ≤ length) (hlt : length < 2 ^ 31)
    (hscan : fs.freeMap.scanAndFlip 0 (bytesToSectors length) false =
      some (some start, fs1.freeMap)) (hs : s < fs1.device.size)
    (hzero : writeZeros ⟨fs1.device.size, update fs1.device.data s
      (InodeDisk.mk start length inodeMagic).encode⟩ start (bytesToSectors length) = some device) :
    Made fs fs1 { fs1 with device } s length := by
  obtain ⟨-, hrange, -, hclear, hset⟩ := Bitmap.scanAndFlip_spec hscan
  have hrange' : start + bytesToSectors length ≤ fs1.device.size := by omega
  obtain ⟨hdsize, hdata⟩ := Returns.of_eq (writeZeros_spec (by exact hrange')) hzero
  dsimp only at hdsize hdata
  have hout := Bitmap.not_within hclear hmark
  have hkeep : ∀ x, fs.freeMap.bit x = true → fs1.freeMap.bit x = true := by
    intro x hx
    rw [hset, hx]
    split <;> rfl
  have hnode : device.data s = (InodeDisk.mk start length inodeMagic).encode := by
    rw [hdata, if_neg hout, update_self]
  have hmarks : ∀ x, start ≤ x → x < start + bytesToSectors length → fs1.freeMap.bit x = true := by
    intro x hle hlt
    rw [hset, if_pos ⟨hle, hlt⟩]
    rfl
  obtain ⟨hvalid, hinode⟩ := ValidInode.written (by omega) (by omega) hnode h0 hlt (by omega) hout
    (hkeep s hmark) hmarks
  refine ⟨hdsize, hvalid, by rw [hinode], fun x hx ↦ ?_, fun x hx ↦ ?_, hkeep,
    fun x hne hx ↦ ?_⟩
  · rw [InData, hinode] at hx
    exact hclear x hx.1 hx.2
  · rw [InData, hinode] at hx
    rw [hdata, if_pos hx]
  · rw [hdata, if_neg (Bitmap.not_within hclear hx), update_of_ne hne]

/-- Nothing is open. -/
structure Closed (fs : Fs) : Prop where
  openInodes : fs.openInodes = []
  inode : ∀ id, fs.inodes id = none
  file : ∀ f, fs.files f = none

/-- The free map is the only file that is open. -/
abbrev mapOpened (fs : Fs) (oracle : List Bool) : Fs :=
  { fs with
    openInodes := [fs.next]
    inodes := update fs.inodes fs.next
      (some ⟨freeMapSector, 1, false, 0, inodeAt fs.device freeMapSector⟩)
    files := update fs.files (fs.next + 1) (some ⟨fs.next, 0, false⟩)
    next := fs.next + 2
    oracle }

theorem openMap_eq {inode : Option Nat} {fs1 : Fs} (hc : Closed fs)
    (hopen : fs.inodeOpen freeMapSector = some (inode, fs1))
    (hfile : fs1.fileOpen inode = some (some f, fs')) :
    ∃ oracle, f = fs.next + 1 ∧ fs' = fs.mapOpened oracle := by
  have hfind : fs.findInode freeMapSector = none := by simp [findInode, hc.openInodes]
  obtain ⟨ok, oracle, hmalloc, -⟩ := fs.malloc_cases
  simp only [inodeOpen, hfind, hmalloc] at hopen
  obtain ⟨ok1, oracle1, hmalloc1, -⟩ := fs1.malloc_cases
  simp only [fileOpen, hmalloc1] at hfile
  cases ok with
  | false =>
    cases hopen
    simp at hfile
  | true =>
    simp only [bind_eq_some, Block.read_eq_some] at hopen
    obtain ⟨data, ⟨-, rfl⟩, heq⟩ := hopen
    cases heq
    cases ok1 with
    | false => simp [bind_eq_some_iff] at hfile
    | true =>
      cases hfile
      refine ⟨oracle1, rfl, ?_⟩
      simp only [setFile, setInode, hc.openInodes]
      rfl

/-- The free map is open, and nothing else is. -/
structure MapOpen (fs : Fs) (id f : Nat) : Prop where
  small : fs.device.size < 2 ^ 32
  size : fs.freeMap.size = fs.device.size
  valid : ValidInode fs.device fs.freeMap freeMapSector
  length : (inodeAt fs.device freeMapSector).length = byteCnt fs.device.size
  root : fs.freeMap.bit rootDirSector = true
  not_root : ¬ InData fs.device freeMapSector rootDirSector
  mapFile : fs.freeMapFile = some f
  file : fs.files f = some ⟨id, 0, false⟩
  inode : fs.inodes id = some ⟨freeMapSector, 1, false, 0, inodeAt fs.device freeMapSector⟩
  openInodes : fs.openInodes = [id]
  inode_eq_none : ∀ id', id' ≠ id → fs.inodes id' = none
  file_eq_none : ∀ f', f' ≠ f → fs.files f' = none

/-- The free map is written to its file. -/
theorem MapOpen.write {b : Bitmap} (h : MapOpen fs id f)
    (hsize : b.size = fs.freeMap.size) (hkeep : ∀ x, fs.freeMap.bit x = true → b.bit x = true)
    (hwrite : bitmapWrite { fs with freeMap := b, oracle } f = some (true, fs')) :
    MapOpen fs' id f ∧ fs'.freeMap = b ∧ fs'.device.size = fs.device.size ∧
      (∀ x, ¬ InData fs.device freeMapSector x → fs'.device.data x = fs.device.data x) ∧
      ∀ pos < byteCnt fs.device.size,
        fileByte fs'.device (inodeAt fs'.device freeMapSector) pos = b.bytes pos := by
  have hw := bitmapWrite_eq (by exact h.file) (by exact h.inode) (by exact h.valid.onDevice) hwrite
  have hout : ∀ x, ¬ InData fs.device freeMapSector x → fs'.device.data x = fs.device.data x :=
    fun x hx ↦ hw.outside h.valid hx
  have hnode := inodeAt_congr (hout _ h.valid.own)
  have hbytes := hw.bytes
  have hdev : fs'.device.size = fs.device.size := hw.device_size
  obtain ⟨oracle', device, rfl⟩ := hw.rest
  refine ⟨⟨hdev ▸ h.small, by rw [hsize, h.size, hdev], ?_, ?_, hkeep _ h.root, ?_, h.mapFile,
    h.file, hnode ▸ h.inode, h.openInodes, h.inode_eq_none, h.file_eq_none⟩, rfl, hdev, hout,
    fun pos hpos ↦ ?_⟩
  · exact h.valid.congr hdev (hout _ h.valid.own) fun x hx ↦ hkeep x (h.valid.marked x hx)
  · rw [hnode, hdev]
    exact h.length
  · rw [InData, hnode]
    exact h.not_root
  · rw [hnode, hbytes, if_pos (by rw [hsize, h.size]; omega), Nat.sub_zero]

/-- `free_map_create` has returned. -/
theorem freeMapCreate_eq (hc : Closed fs) (hsmall : fs.device.size < 2 ^ 32)
    (hsize : fs.freeMap.size = fs.device.size) (hfile : fs.freeMapFile = none)
    (hzero : fs.freeMap.bit freeMapSector = true) (hone : fs.freeMap.bit rootDirSector = true)
    (h : fs.freeMapCreate = some fs') : ∃ id f, MapOpen fs' id f := by
  simp only [freeMapCreate, bind_eq_some, assert_eq_some] at h
  obtain ⟨⟨_, fs1⟩, hcreate, -, rfl, ⟨inode, fs2⟩, hopen, ⟨file, fs3⟩, hfopen, f, hf, ⟨_, fs4⟩,
    hwrite, -, rfl, heq⟩ := h
  cases heq
  cases hf
  obtain ⟨oracle, start, fs0, device, -, hall, hs, hz, heq⟩ := inodeCreate_eq hcreate
  obtain ⟨b, hscan, ⟨-, rfl⟩ | ⟨f', hf', -⟩⟩ := freeMapAllocate_eq hall
  swap
  · cases hfile.symm.trans hf'
  have hmade : Made fs { fs with freeMap := b, oracle } fs1 freeMapSector
      (byteCnt fs.freeMap.size) := by
    rw [heq]
    exact .of_scan hsmall hsize rfl hzero (Int.natCast_nonneg _)
      (by simp only [byteCnt]; omega) hscan hs hz
  have hbsize := (Bitmap.scanAndFlip_spec hscan).2.2.1
  have hdev : fs1.device.size = fs.device.size := hmade.size
  have hmap : fs1.freeMap = b := heq ▸ rfl
  have hc1 : Closed fs1 := by
    rw [heq]
    exact ⟨hc.openInodes, hc.inode, hc.file⟩
  obtain ⟨oracle3, rfl, heq3⟩ := openMap_eq hc1 hopen hfopen
  suffices hready :
      MapOpen { fs3 with freeMapFile := some (fs1.next + 1) } fs1.next (fs1.next + 1) from
    ⟨_, _, (hready.write rfl (fun _ hx ↦ hx) hwrite).1⟩
  rw [heq3]
  refine ⟨hdev ▸ hsmall, ?_, hmade.valid, ?_, hmade.keep _ hone, fun hd ↦ ?_, rfl,
    update_self .., update_self .., rfl, fun id' hne ↦ ?_, fun f' hne ↦ ?_⟩
  · dsimp only
    rw [hmap, hbsize, hsize, hdev]
  · dsimp only
    rw [hmade.length, hsize, hdev]
  · have hone' := hmade.clear _ hd
    rw [hone] at hone'
    cases hone'
  · exact (update_of_ne hne ..).trans (hc1.inode id')
  · exact (update_of_ne hne ..).trans (hc1.file f')

/-- The two inodes that there are after formatting. -/
structure RootMade (fs : Fs) : Prop where
  valid : ValidInode fs.device fs.freeMap rootDirSector
  length : (inodeAt fs.device rootDirSector).length = (16 * dirEntrySize : Nat)
  zero : ∀ x, InData fs.device rootDirSector x → fs.device.data x = fun _ ↦ 0
  disjoint : ∀ x, InFoot fs.device freeMapSector x → ¬ InFoot fs.device rootDirSector x
  bytes : ∀ pos < byteCnt fs.device.size,
    fileByte fs.device (inodeAt fs.device freeMapSector) pos = fs.freeMap.bytes pos

/-- The root directory has been created. -/
theorem MapOpen.createRoot (h : MapOpen fs id f)
    (hcreate : fs.inodeCreate rootDirSector (16 * dirEntrySize : Nat) = some (true, fs')) :
    MapOpen fs' id f ∧ RootMade fs' := by
  obtain ⟨oracle, start, fs1, device, -, hall, hs, hz, heq⟩ := inodeCreate_eq hcreate
  obtain ⟨b, hscan, ⟨hf, -⟩ | ⟨f', hf, hwrite⟩⟩ := freeMapAllocate_eq hall
  · cases h.mapFile.symm.trans hf
  obtain rfl : f = f' := some.inj (h.mapFile.symm.trans hf)
  have hscan' := Bitmap.scanAndFlip_spec hscan
  obtain ⟨-, -, hbsize, -, hset⟩ := hscan'
  have hkeep : ∀ x, fs.freeMap.bit x = true → b.bit x = true := by
    intro x hx
    rw [hset, hx]
    split <;> rfl
  obtain ⟨h1, rfl, hdev, hout, hbytes⟩ := h.write hbsize hkeep hwrite
  have hmade : Made fs fs1 fs' rootDirSector (16 * dirEntrySize : Nat) := by
    rw [heq]
    exact .of_scan h.small h.size hdev h.root (by decide) (by decide) hscan hs hz
  -- The sectors of the free map are those they were, and the root directory leaves them alone.
  have hfoot : ∀ x, InFoot fs1.device freeMapSector x ↔ InFoot fs.device freeMapSector x :=
    fun x ↦ inFoot_congr (hout _ h.valid.own)
  have hne : ∀ x, InFoot fs1.device freeMapSector x → x ≠ rootDirSector := by
    rintro x (rfl | hd) hx
    · exact absurd hx (by decide)
    · exact h1.not_root (hx ▸ hd)
  have hsame : ∀ x, InFoot fs1.device freeMapSector x →
      fs'.device.data x = fs1.device.data x := fun x hx ↦
    hmade.other x (hne x hx) (h.valid.marked x ((hfoot x).mp hx))
  have hnode := inodeAt_congr (hsame _ (.inl rfl))
  have hfoot' : ∀ x, InFoot fs'.device freeMapSector x ↔ InFoot fs1.device freeMapSector x :=
    fun x ↦ inFoot_congr (hsame _ (.inl rfl))
  have hmap : fs'.freeMap = fs1.freeMap := heq ▸ rfl
  refine ⟨⟨?_, ?_, ?_, ?_, ?_, ?_, ?_, ?_, ?_, ?_, ?_, ?_⟩, hmade.valid, hmade.length, hmade.zero,
    fun x hx hx' ↦ ?_, fun pos hpos ↦ ?_⟩
  · exact hmade.size ▸ h1.small
  · rw [hmap, hmade.size]
    exact h1.size
  · exact h1.valid.congr hmade.size (hsame _ (.inl rfl)) fun x hx ↦ hmap ▸ h1.valid.marked x hx
  · rw [hnode, hmade.size]
    exact h1.length
  · exact hmade.keep _ h.root
  · rw [InData, hnode]
    exact h1.not_root
  · exact heq ▸ h1.mapFile
  · exact heq ▸ h1.file
  · rw [hnode]
    exact heq ▸ h1.inode
  · exact heq ▸ h1.openInodes
  · exact heq ▸ h1.inode_eq_none
  · exact heq ▸ h1.file_eq_none
  · have hx1 := (hfoot' x).mp hx
    rcases hx' with rfl | hd
    · exact hne _ hx1 rfl
    · have hclear := hmade.clear x hd
      rw [h.valid.marked x ((hfoot x).mp hx1)] at hclear
      cases hclear
  · rw [hmade.size, hdev] at hpos
    have hin : InData fs1.device freeMapSector
        (byteToSector (inodeAt fs1.device freeMapSector) pos) := by
      refine h1.valid.inData ?_
      rw [h1.length, hdev]
      exact hpos
    rw [hnode, fileByte, hsame _ (.inr hin), hmap]
    exact hbytes pos hpos

/-- The free map's file is closed. -/
theorem MapOpen.close (h : MapOpen fs id f) (hclose : fs.fileClose (some f) = some fs') :
    Closed fs' ∧ fs'.device = fs.device ∧ fs'.freeMap = fs.freeMap := by
  simp only [fileClose, fileAllowWrite, h.file, some_bind, pure_bind, Bool.false_eq_true, if_false,
    inodeClose, inodes_setFile, h.inode, ne_eq, not_true, pure_eq_some] at hclose
  subst hclose
  refine ⟨⟨?_, fun id' ↦ ?_, fun f' ↦ ?_⟩, rfl, rfl⟩
  · simp [setInode, setFile, h.openInodes]
  · by_cases hid : id' = id
    · rw [hid]
      exact update_self ..
    · exact (update_of_ne hid ..).trans (h.inode_eq_none id' hid)
  · by_cases hf : f' = f
    · rw [hf]
      exact update_self ..
    · exact (update_of_ne hf ..).trans (h.file_eq_none f' hf)

/-- After formatting no entry of the root directory is in use. -/
theorem RootMade.not_listed (h : RootMade fs) (s : Nat) : ¬ Listed fs.device s := by
  rintro ⟨k, hk, huse, -⟩
  have hbyte :
      fileByte fs.device (inodeAt fs.device rootDirSector) (dirEntrySize * k + 19) = 0 := by
    rw [fileByte, h.zero]
    refine h.valid.inData ?_
    rw [h.length]
    simp only [dirEntrySize]
    omega
  rw [rootEntry, DirEntry.decode] at huse
  simp [hbyte] at huse

/-! ## The free map is read back -/

theorem Closed.heapOk (h : Closed fs) : HeapOk fs [] where
  nodup := h.openInodes ▸ List.nodup_nil
  mem id := by simp [h.openInodes, h.inode]
  inj id _ _ _ hi := nomatch (h.inode id).symm.trans hi
  openCnt id _ hi := nomatch (h.inode id).symm.trans hi
  open_pos id _ hi := nomatch (h.inode id).symm.trans hi
  denyCnt id _ hi := nomatch (h.inode id).symm.trans hi
  file f _ hf := nomatch (h.file f).symm.trans hf
  ref := nofun
  inode_lt id _ hi := nomatch (h.inode id).symm.trans hi
  file_lt f _ hf := nomatch (h.file f).symm.trans hf

/-- What `free_map_open` does after formatting. -/
theorem freeMapOpen_eq (hc : Closed fs) (hsize : fs.freeMap.size = fs.device.size)
    (hv : ValidInode fs.device fs.freeMap freeMapSector)
    (hbytes : ∀ pos < byteCnt fs.device.size,
      fileByte fs.device (inodeAt fs.device freeMapSector) pos = fs.freeMap.bytes pos)
    (h : fs.freeMapOpen = some fs') :
    ∃ oracle freeMap, freeMap.size = fs.freeMap.size ∧
      (∀ x < fs.device.size, freeMap.bit x = fs.freeMap.bit x) ∧
      fs' = { fs.mapOpened oracle with freeMapFile := some (fs.next + 1), freeMap } := by
  simp only [freeMapOpen, bind_eq_some, assert_eq_some] at h
  obtain ⟨⟨inode, fs1⟩, hopen, ⟨file, fs2⟩, hfopen, f, hf, ⟨_, fs3⟩, hread, -, rfl, heq⟩ := h
  cases heq
  cases hf
  obtain ⟨oracle, rfl, rfl⟩ := openMap_eq hc hopen hfopen
  have hpos : fs.freeMap.size ≠ 0 := by
    have := hv.sector
    omega
  simp only [bitmapRead, fileReadAt, if_neg hpos, update_self, some_bind, bind_eq_some,
    pure_eq_some, Prod.mk.injEq, decide_eq_true_eq] at hread
  obtain ⟨⟨n, buffer, fs4⟩, hread, hn, rfl⟩ := hread
  obtain ⟨m, oracle', hm, rfl, -, hbuf⟩ := Returns.of_eq
    (inodeReadAt_spec (update_self ..) (by exact hv.onDevice)) hread
  dsimp only at hn hm hbuf ⊢
  refine ⟨oracle', .ofBytes fs.freeMap.size buffer, rfl, fun x hx ↦ ?_, rfl⟩
  rw [hsize] at hn ⊢
  refine Bitmap.ofBytes_bit hx fun j hj ↦ ?_
  rw [hbuf, if_pos (by omega), ← hbytes j hj]
  simp

/-- A sector of a valid inode is on the device. -/
theorem lt_of_inFoot {freeMap : Bitmap} {x : Nat}
    (hv : ValidInode device freeMap s) (hx : InFoot device s x) : x < device.size := by
  rcases hx with rfl | ⟨-, hlt⟩
  · exact hv.sector
  · exact Nat.lt_of_lt_of_le hlt hv.range

theorem RootMade.sound {freeMap : Bitmap} (hc : Closed fs)
    (hsmall : fs.device.size < 2 ^ 32) (hsize : fs.freeMap.size = fs.device.size)
    (hv : ValidInode fs.device fs.freeMap freeMapSector) (hr : RootMade fs)
    (hsize' : freeMap.size = fs.freeMap.size)
    (hbits : ∀ x < fs.device.size, freeMap.bit x = fs.freeMap.bit x) :
    Sound { fs.mapOpened oracle with freeMapFile := some (fs.next + 1), freeMap } []
      fun _ _ ↦ False := by
  have hinode : ∀ id inode, update fs.inodes fs.next
      (some ⟨freeMapSector, 1, false, 0, inodeAt fs.device freeMapSector⟩) id = some inode →
      inode = ⟨freeMapSector, 1, false, 0, inodeAt fs.device freeMapSector⟩ := by
    intro id inode hi
    by_cases hid : id = fs.next
    · rw [hid, update_self] at hi
      exact (some.inj hi).symm
    · rw [update_of_ne hid, hc.inode] at hi
      cases hi
  have hdisk : DiskOk fs.device freeMap fun s ↦ s = freeMapSector ∨ s = rootDirSector := by
    refine ⟨hsmall, hsize'.trans hsize, ?_, ?_⟩
    · rintro s (rfl | rfl)
      · exact hv.congr rfl rfl fun x hx ↦ by rw [hbits x (lt_of_inFoot hv hx), hv.marked x hx]
      · exact hr.valid.congr rfl rfl fun x hx ↦ by
          rw [hbits x (lt_of_inFoot hr.valid hx), hr.valid.marked x hx]
    · rintro s s' x (rfl | rfl) (rfl | rfl) hx hx'
      · rfl
      · exact absurd hx' (hr.disjoint x hx)
      · exact absurd hx (hr.disjoint x hx')
      · rfl
  refine ⟨hdisk.mono ?_, ⟨hr.length, fun s hl ↦ absurd hl (hr.not_listed s), ?_⟩, ?_, ?_, ?_, nofun,
    ?_, nofun⟩
  · rintro s (h0 | h1 | hl | ⟨id, inode, hi, rfl⟩)
    · exact .inl h0
    · exact .inr h1
    · exact absurd hl (hr.not_listed s)
    · exact .inl (hinode id inode hi ▸ rfl)
  · exact fun k hk _ _ huse ↦ absurd ⟨k, hk, huse, rfl⟩ (hr.not_listed _)
  · -- The inode and its file are new objects in an empty heap.
    have hheap := @HeapOk.newInode freeMapSector _ _ hc.heapOk (inodeAt fs.device freeMapSector)
      fun id _ hi ↦ nomatch (hc.inode id).symm.trans hi
    refine hheap.newFile.congr rfl ?_ rfl rfl
    simp [setFile, setInode, hc.openInodes]
  · intro id inode hi
    rw [hinode id inode hi]
  · intro id inode hi hrem
    rw [hinode id inode hi] at hrem
    cases hrem
  · exact ⟨_, _, rfl, update_self .., ⟨_, update_self .., rfl⟩, fun _ ↦ id⟩

/-- What `do_format` leaves on the device, with nothing open. -/
structure Formatted (fs : Fs) : Prop where
  closed : Closed fs
  small : fs.device.size < 2 ^ 32
  two_le : 2 ≤ fs.device.size
  size : fs.freeMap.size = fs.device.size
  valid : ValidInode fs.device fs.freeMap freeMapSector
  length : (inodeAt fs.device freeMapSector).length = byteCnt fs.device.size
  root : RootMade fs

/-- **`do_format`** has returned, and the free map is opened. -/
theorem filesysInit_eq {garbage : Buffer}
    (hsmall : device.size < 2 ^ 32) (h : filesysInit device oracle garbage = some fs) :
    ∃ fs1, Formatted fs1 ∧ fs1.freeMapOpen = some fs := by
  simp only [filesysInit, doFormat, bind_eq_some, assert_eq_some] at h
  obtain ⟨fs0, hinit, fs1, ⟨fs2, hcreate, ⟨_, fs3⟩, hroot, -, rfl, hclose⟩, hopen⟩ := h
  simp only [freeMapInit, bind_eq_some, Bitmap.set_eq_some] at hinit
  obtain ⟨b0, ⟨h0, rfl⟩, b1, ⟨h1, rfl⟩, heq⟩ := hinit
  cases heq
  obtain ⟨id, f, hmap2⟩ := freeMapCreate_eq ⟨rfl, fun _ ↦ rfl, fun _ ↦ rfl⟩ hsmall rfl rfl rfl rfl
    hcreate
  obtain ⟨hmap3, hr⟩ := hmap2.createRoot hroot
  rw [hmap3.mapFile] at hclose
  obtain ⟨hc, hdev, hmap⟩ := hmap3.close hclose
  refine ⟨fs1, ⟨hc, hdev ▸ hmap3.small, ?_, ?_, ?_, ?_, ?_⟩, hopen⟩
  · have := hr.valid.sector
    rw [hdev]
    exact this
  · rw [hdev, hmap, hmap3.size]
  · rw [hdev, hmap]
    exact hmap3.valid
  · rw [hdev]
    exact hmap3.length
  · obtain ⟨hvalid, hlength, hzero, hdisj, hbytes⟩ := hr
    rw [← hdev, ← hmap] at *
    exact ⟨hvalid, hlength, hzero, hdisj, hbytes⟩

/-- **The file system is sound after formatting.** -/
theorem filesysInit_sound {garbage : Buffer}
    (hsmall : device.size < 2 ^ 32) (h : filesysInit device oracle garbage = some fs) :
    Sound fs [] fun _ _ ↦ False := by
  obtain ⟨fs1, hf, hopen⟩ := filesysInit_eq hsmall h
  obtain ⟨oracle', freeMap, hsize', hbits, rfl⟩ :=
    freeMapOpen_eq hf.closed hf.size hf.valid hf.root.bytes hopen
  exact hf.root.sound hf.closed hf.small hf.size hf.valid hsize' hbits

end Fs

end Pintos
