import Pintos.Filesys.CreateParts

/-!
# What a file system stores

Between two uses of a file nobody has a file open (`Fs.AtRest`), and what the file system stores is
a list of names with their bytes (`Fs.Stores`).  With memory, and with one file at a time, its
functions do what their names say:

* `Fs.AtRest.filesysOpen` — a file that is listed is opened at its beginning (`Fs.Using`);
* `Fs.Using.fileRead` and `Fs.Using.fileWrite` — as many bytes as the file has are transferred, and
  all other files stay as they are (`Fs.Beside`);
* `Fs.Using.fileClose` — the file system is at rest again;
* `Fs.AtRest.filesysCreate` — if the root directory takes the name and there are enough sectors, a
  file is added.

Sectors are taken where they are found first.  That is never behind the beginning of a run of free
sectors, so of such a run no more than what was asked for goes (`Fs.Room`).
-/

set_option autoImplicit false

namespace Pintos

open Function List Option

variable {dir : Nat}

namespace Fs

variable {fs fs' : Fs} {refs : List (Nat × Nat)} {held : Nat → View → Prop} {id s t f pos n : Nat}
  {inode : Inode} {name bytes : List UInt8}

/-! ## Opening and closing an inode -/

/-- Nothing but the inodes in memory has changed. -/
structure Quiet (fs fs' : Fs) : Prop where
  device : fs'.device = fs.device
  freeMap : fs'.freeMap = fs.freeMap
  files : fs'.files = fs.files
  oracle : fs'.oracle = fs.oracle

theorem Quiet.trans {fs'' : Fs} (h : Quiet fs fs') (h' : Quiet fs' fs'') : Quiet fs fs'' :=
  ⟨h'.device.trans h.device, h'.freeMap.trans h.freeMap, h'.files.trans h.files,
    h'.oracle.trans h.oracle⟩

theorem malloc_memory (hmem : fs.oracle = []) : fs.malloc = (true, fs) := by rw [malloc, hmem]

/-- `inode_open`, if there is memory. -/
theorem inodeOpen_memory (h : Sound fs refs held) (hl : fs.Live s) (hmem : fs.oracle = []) :
    Returns (fs.inodeOpen s) fun r ↦ ∃ id, r.1 = some id ∧ Quiet fs r.2 ∧
      Sound r.2 ((id, s) :: refs) held := by
  obtain ⟨⟨_, fs1⟩, hopen, -, -, hsome, -⟩ := inodeOpen_spec h hl
  refine ⟨_, hopen, ?_⟩
  dsimp only at hsome ⊢
  rw [inodeOpen] at hopen
  split at hopen
  · simp only [inodeReopen, bind_eq_some] at hopen
    obtain ⟨_, ⟨_, -, heq⟩, heq'⟩ := hopen
    cases heq
    cases heq'
    exact ⟨_, rfl, ⟨rfl, rfl, rfl, rfl⟩, hsome _ rfl⟩
  · simp only [malloc_memory hmem, bind_eq_some] at hopen
    obtain ⟨_, -, heq⟩ := hopen
    cases heq
    exact ⟨_, rfl, ⟨rfl, rfl, rfl, rfl⟩, hsome _ rfl⟩

/-- `inode_close`, of an inode that has not been removed. -/
theorem inodeClose_quiet (hkept : ∀ inode, fs.inodes id = some inode → inode.removed = false)
    (hclose : fs.inodeClose id = some fs') : Quiet fs fs' := by
  simp only [inodeClose, bind_eq_some] at hclose
  obtain ⟨inode, hi, hclose⟩ := hclose
  split at hclose
  · cases hclose
    exact ⟨rfl, rfl, rfl, rfl⟩
  · rw [if_neg (by rw [hkept inode hi]; decide)] at hclose
    cases hclose
    exact ⟨rfl, rfl, rfl, rfl⟩

/-- An inode that is listed, or that of the root directory, has not been removed. -/
theorem Sound.not_removed (h : Sound fs refs held) (hat : fs.At id s)
    (hs : s = rootDirSector ∨ Listed fs.device s) (hi : fs.inodes id = some inode) :
    inode.removed = false := by
  obtain ⟨inode', hi', rfl⟩ := hat
  obtain rfl : inode = inode' := some.inj (hi.symm.trans hi')
  cases hrem : inode.removed with
  | false => rfl
  | true =>
    obtain ⟨htwo, hnot⟩ := h.removed id inode hi hrem
    rcases hs with hs | hs
    · rw [hs] at htwo
      exact absurd htwo (by decide)
    · exact absurd hs hnot

/-- `dir_open_root`, if there is memory. -/
theorem dirOpenRoot_quiet (h : Sound fs refs held) (hmem : fs.oracle = []) :
    Returns fs.dirOpenRoot fun r ↦ ∃ dir, r.1 = some dir ∧ Quiet fs r.2 ∧
      Sound r.2 ((dir, rootDirSector) :: refs) held := by
  refine Returns.bind (inodeOpen_memory h live_rootDir hmem) ?_
  rintro ⟨_, fs1⟩ ⟨dir, rfl, hquiet, hsound⟩
  simp only [dirOpen, malloc_memory (hquiet.oracle.trans hmem)]
  exact .pure ⟨dir, rfl, hquiet, hsound⟩

/-- `dir_close`, of the root directory. -/
theorem dirClose_quiet (h : Sound fs ((dir, rootDirSector) :: refs) held) :
    Returns (fs.dirClose (some dir)) fun fs' ↦ Quiet fs fs' ∧ Sound fs' refs held := by
  obtain ⟨fs', hclose, hsound⟩ := inodeClose_spec h
  refine ⟨fs', hclose, inodeClose_quiet (fun _ ↦ ?_) hclose, hsound⟩
  exact h.not_removed (h.ref _ mem_cons_self) (.inl rfl)

/-! ## At rest -/

/-- What the root directory holds. -/
def rootContents (fs : Fs) : List (List UInt8 × Nat) :=
  dirContents fs.device (inodeAt fs.device rootDirSector) 16

theorem Quiet.rootContents (h : Quiet fs fs') : fs'.rootContents = fs.rootContents := by
  rw [Fs.rootContents, Fs.rootContents, h.device]

theorem listed_of_mem (h : (name, t) ∈ fs.rootContents) : Listed fs.device t := by
  obtain ⟨k, hk, hslot⟩ := Slots.mem_contents.mp h
  obtain ⟨hnamed, hsec⟩ := named_of_dirSlot hslot
  exact ⟨k, hk, (Bool.and_eq_true_iff.mp hnamed).1, hsec⟩

theorem exists_mem_of_listed (h : Listed fs.device t) : ∃ name, (name, t) ∈ fs.rootContents := by
  obtain ⟨k, hk, huse, hsec⟩ := h
  refine ⟨cString (rootEntry fs.device k).name, Slots.mem_contents.mpr ⟨k, hk, ?_⟩⟩
  rw [← hsec]
  exact if_pos huse

/-- What all functions here need: there is memory, the free map can be written, and a name is listed
once. -/
structure Ready (fs : Fs) : Prop where
  noDeny : NoDeny fs
  memory : fs.oracle = []
  mapLength : (inodeAt fs.device freeMapSector).length = byteCnt fs.freeMap.size
  nodup : (fs.rootContents.map Prod.fst).Nodup

/-- Nobody has a file open. -/
structure AtRest (fs : Fs) : Prop extends Ready fs where
  sound : Sound fs [] fun _ _ ↦ False

/-- File `f` is the only one that is open, on the inode in sector `t`, at position `pos`. -/
structure Using (fs : Fs) (f t pos : Nat) : Prop extends Ready fs where
  sound : fs.SoundFor (· = f)
  opened : ∃ file, fs.files f = some file ∧ file.pos = pos ∧ fs.At file.inode t
  listed : Listed fs.device t

theorem Quiet.ready (hq : Quiet fs fs') (h : Ready fs) : Ready fs' :=
  ⟨h.noDeny.congr hq.files, hq.oracle.trans h.memory, by rw [hq.device, hq.freeMap, h.mapLength],
    by rw [hq.rootContents]; exact h.nodup⟩

/-- `dir_lookup` of a name that is listed once. -/
theorem dirLookup_listed (h : Sound fs ((dir, rootDirSector) :: refs) held)
    (hmemory : fs.oracle = []) (hmem : (name, t) ∈ fs.rootContents)
    (honce : ∀ t', (name, t') ∈ fs.rootContents → t' = t) :
    Returns (fs.dirLookup dir name) fun r ↦ ∃ id, r.1 = some id ∧ Quiet fs r.2 ∧
      Sound r.2 ((id, t) :: (dir, rootDirSector) :: refs) held := by
  obtain ⟨root, hroot, hdata⟩ := h.rootFile (h.ref _ mem_cons_self) hmemory
  rw [dirLookup, hroot.lookup_eq name, hdata]
  cases hfind : (range 16).find? fun k ↦ (dirEntry fs.device
      (inodeAt fs.device rootDirSector) k).named name with
  | none => exact absurd (mem_map.mpr ⟨_, hmem, rfl⟩) (find_named_eq_none hfind)
  | some k =>
    obtain ⟨hk, hslot⟩ := find_named_eq_some hfind
    have hsec := honce _ (Slots.mem_contents.mpr ⟨k, hk, hslot⟩)
    simp only [map_some, some_bind, hsec]
    exact inodeOpen_memory h (.inr (.inr (.inl (listed_of_mem hmem)))) hmemory

/-- **`filesys_open`** opens a file that is listed. -/
theorem AtRest.filesysOpen (h : AtRest fs) (hmem : (name, t) ∈ fs.rootContents) :
    Returns (fs.filesysOpen name) fun r ↦ ∃ f, r.1 = some f ∧ Using r.2 f t 0 ∧
      r.2.device = fs.device ∧ r.2.freeMap = fs.freeMap := by
  have hlisted := listed_of_mem hmem
  have htwo : 2 ≤ t := h.sound.dir.two_le t hlisted
  rw [Fs.filesysOpen]
  refine Returns.bind (dirOpenRoot_quiet h.sound h.memory) ?_
  rintro ⟨_, fs1⟩ ⟨dir, rfl, hq1, h1⟩
  have hready1 := hq1.ready h.toReady
  have hmem1 : (name, t) ∈ fs1.rootContents := hq1.rootContents ▸ hmem
  have honce : ∀ t', (name, t') ∈ fs1.rootContents → t' = t := fun t' hmem' ↦
    (Prod.mk.inj (inj_on_of_nodup_map hready1.nodup hmem' hmem1 rfl)).2
  refine Returns.bind (dirLookup_listed h1 hready1.memory hmem1 honce) ?_
  rintro ⟨_, fs2⟩ ⟨id, rfl, hq2, h2⟩
  refine Returns.bind (dirClose_quiet (h2.perm (.swap ..))) ?_
  rintro fs3 ⟨hq3, h3⟩
  have hq := (hq1.trans hq2).trans hq3
  have hready := hq.ready h.toReady
  obtain ⟨r, hopen, hsome, hnone⟩ := fileOpen_spec h3 htwo
  refine ⟨r, hopen, ?_⟩
  simp only [fileOpen, malloc_memory hready.memory, Option.pure_def, Option.some.injEq] at hopen
  subst hopen
  obtain ⟨-, hsound⟩ := hsome _ rfl
  refine ⟨_, rfl, ⟨⟨?_, hready.memory, hready.mapLength, hready.nodup⟩, ?_, ?_, ?_⟩, hq.device,
    hq.freeMap⟩
  · exact hready.noDeny.setFile _ _ (by rintro _ ⟨⟩; rfl)
  · refine hsound.soundFor ?_
    rintro g rfl
    obtain ⟨v, hv⟩ := exists_shows fs3.device t
    exact ⟨v, .inl ⟨rfl, hv⟩⟩
  · exact ⟨_, update_self .., rfl, h3.ref _ mem_cons_self⟩
  · exact hq.device ▸ hlisted

/-! ## Reading and writing -/

/-- The file in sector `t` has these bytes. -/
def Holds (device : Block) (t : Nat) (bytes : List UInt8) : Prop :=
  (inodeAt device t).length = bytes.length ∧
    ∀ pos < bytes.length, fileByte device (inodeAt device t) pos = bytes.getD pos 0

theorem Holds.congr {device device' : Block} {freeMap : Bitmap}
    (hv : ValidInode device freeMap t) (hnode : device'.data t = device.data t)
    (hdata : ∀ x, InData device t x → device'.data x = device.data x)
    (h : Holds device t bytes) : Holds device' t bytes := by
  obtain ⟨hlen, hbytes⟩ := h
  rw [Holds, inodeAt_congr hnode]
  refine ⟨hlen, fun pos hpos ↦ ?_⟩
  rw [← hbytes pos hpos, fileByte, fileByte, hdata]
  exact hv.inData (by omega)

/-- Nothing has changed but the bytes of the file in sector `t`. -/
structure Beside (t : Nat) (fs fs' : Fs) : Prop where
  freeMap : fs'.freeMap = fs.freeMap
  contents : fs'.rootContents = fs.rootContents
  node : inodeAt fs'.device t = inodeAt fs.device t
  mapNode : inodeAt fs'.device freeMapSector = inodeAt fs.device freeMapSector
  other : ∀ t' bytes, Listed fs.device t' → t' ≠ t → Holds fs.device t' bytes →
    Holds fs'.device t' bytes

theorem Beside.listed_iff {t' : Nat} (h : Beside t fs fs') :
    Listed fs'.device t' ↔ Listed fs.device t' := by
  constructor <;> intro hl <;> obtain ⟨name, hmem⟩ := exists_mem_of_listed hl
  · exact listed_of_mem (h.contents ▸ hmem)
  · exact listed_of_mem (h.contents.symm ▸ hmem)

theorem Beside.refl (t : Nat) (fs : Fs) : Beside t fs fs := ⟨rfl, rfl, rfl, rfl, fun _ _ _ _ h ↦ h⟩

theorem Beside.trans {fs'' : Fs} (h : Beside t fs fs') (h' : Beside t fs' fs'') :
    Beside t fs fs'' :=
  ⟨h'.freeMap.trans h.freeMap, h'.contents.trans h.contents, h'.node.trans h.node,
    h'.mapNode.trans h.mapNode, fun t' bytes hl hne hh ↦ h'.other t' bytes (h.listed_iff.mpr hl) hne
      (h.other t' bytes hl hne hh)⟩

theorem Beside.of_device (hdev : fs'.device = fs.device) (hmap : fs'.freeMap = fs.freeMap) :
    Beside t fs fs' :=
  ⟨hmap, by rw [rootContents, rootContents, hdev], by rw [hdev], by rw [hdev],
    fun _ _ _ _ h ↦ hdev ▸ h⟩

/-- The file that is open, and its inode. -/
theorem Using.node (h : Using fs f t pos) : ∃ file inode, fs.files f = some file ∧
    file.pos = pos ∧ fs.inodes file.inode = some inode ∧ inode.sector = t ∧
    inode.data = inodeAt fs.device t ∧ OnDevice fs.device.size inode.data ∧
    inode.denyWriteCnt = 0 := by
  obtain ⟨file, hfile, hpos, inode, hi, rfl⟩ := h.opened
  have hok := h.sound.sound.inodeOk hi
  refine ⟨file, inode, hfile, hpos, hi, rfl, hok.data, ?_,
    h.sound.sound.heap.denyWriteCnt_eq_zero h.noDeny hi⟩
  rw [hok.data]
  exact (h.sound.sound.valid hok.live).onDevice

theorem Using.fileLength (h : Using fs f t pos) :
    fs.fileLength f = some (inodeAt fs.device t).length := by
  obtain ⟨file, inode, hfile, -, hi, -, hdata, -, -⟩ := h.node
  rw [Fs.fileLength, hfile, some_bind, hi, ← hdata]
  rfl

/-- The position is moved. -/
theorem Using.setPos {file : File} (h : Using fs f t pos) (hfile : fs.files f = some file)
    (pos' : Nat) : Using (fs.setFile f (some { file with pos := pos' })) f t pos' := by
  obtain ⟨v, hv⟩ := h.sound.user f rfl
  refine ⟨⟨?_, h.memory, h.mapLength, h.nodup⟩, ?_, ?_, h.listed⟩
  · refine h.noDeny.setFile _ _ ?_
    rintro _ ⟨⟩
    exact h.noDeny f file hfile
  · refine (h.sound.sound.setPos (v := v) ⟨rfl, hv⟩ hfile pos').soundFor ?_
    rintro _ rfl
    exact ⟨v, rfl, hv⟩
  · obtain ⟨file', hfile', -, hat⟩ := h.opened
    obtain rfl : file = file' := some.inj (hfile.symm.trans hfile')
    exact ⟨_, update_self .., rfl, hat⟩

/-- **`file_read`** reads the next bytes of the file, as many as there are. -/
theorem Using.fileRead (h : Using fs f t pos) (buffer : Buffer) (size : Nat) :
    Returns (fs.fileRead f buffer size) fun r ↦
      r.1 = min size ((inodeAt fs.device t).length.toNat - pos) ∧
      (∀ i < r.1, r.2.1 i = fileByte fs.device (inodeAt fs.device t) (pos + i)) ∧
      Using r.2.2 f t (pos + r.1) ∧ r.2.2.device = fs.device ∧ r.2.2.freeMap = fs.freeMap := by
  obtain ⟨file, inode, hfile, hpos, hi, -, hdata, hdev, -⟩ := h.node
  rw [Fs.fileRead, hfile, some_bind, hpos]
  refine Returns.bind (inodeReadAt_spec hi hdev) ?_
  rintro ⟨-, buffer', -⟩ ⟨n, oracle, rfl, rfl, htr, hbuf⟩
  have hn := htr.full (.inr h.memory)
  have hfs : { fs with oracle } = fs := by rw [htr.quiet h.memory, ← h.memory]
  rw [hfs, hdata] at *
  refine .pure ⟨?_, fun i hlt ↦ ?_, ?_, rfl, rfl⟩
  · dsimp only
    omega
  · dsimp only at hbuf hlt ⊢
    rw [hbuf, if_pos (by omega), Nat.sub_zero]
  · exact h.setPos hfile _

/-- A write to a file other than the root directory. -/
theorem Sound.beside {buffer : Buffer} {size : Nat} (h : Sound fs refs held) (ht : fs.Live t)
    (htwo : 2 ≤ t) (hw : Wrote fs (inodeAt fs.device t) buffer size pos n fs') :
    Beside t fs fs' := by
  have hne : t ≠ rootDirSector := by
    rintro rfl
    exact absurd htwo (by decide)
  obtain ⟨hsame, hmap, hother⟩ := h.wrote ht hne hw
  refine ⟨hmap, ?_, inodeAt_congr (hsame.live t ht), inodeAt_congr (hsame.live _ live_freeMap),
    fun t' bytes hl hne' ↦ ?_⟩
  · exact dirContents_congr fun k hk ↦ hsame.rootEntry h hk
  · have hlive : fs.Live t' := .inr (.inr (.inl hl))
    exact .congr (h.valid hlive) (hsame.live t' hlive) fun x ↦ hother t' x hlive hne'

/-- **`file_write`** writes the next bytes of the file, as many as there are, and leaves everything
else alone. -/
theorem Using.fileWrite (h : Using fs f t pos) (buffer : Buffer) (size : Nat) :
    Returns (fs.fileWrite f buffer size) fun r ↦
      r.1 = min size ((inodeAt fs.device t).length.toNat - pos) ∧
      Using r.2 f t (pos + r.1) ∧ Beside t fs r.2 ∧
      ∀ p, fileByte r.2.device (inodeAt r.2.device t) p =
        if pos ≤ p ∧ p < pos + r.1 then buffer (p - pos)
        else fileByte fs.device (inodeAt fs.device t) p := by
  obtain ⟨file, inode, hfile, rfl, hi, rfl, hdata, hdev, hdeny⟩ := h.node
  obtain ⟨v, hv⟩ := h.sound.user f rfl
  have hlive : fs.Live inode.sector := .inr (.inr (.inl h.listed))
  -- What is written, and how much.
  obtain ⟨⟨m, fs1⟩, hw, hspec⟩ : Returns (fs.inodeWriteAt file.inode buffer size file.pos) _ :=
    inodeWriteAt_spec hi hdev hdeny
  have hwrote := (inodeWriteAt_wrote hi hdev).of_eq hw
  rw [hdata] at hwrote
  have hfull : m = min size ((inodeAt fs.device inode.sector).length.toNat - file.pos) ∧
      fs1.oracle = [] := by
    obtain ⟨n, oracle, device, hm, heq, htr, -⟩ := hspec
    dsimp only at hm heq
    rw [← hdata, hm, heq, htr.full (.inr h.memory)]
    exact ⟨Nat.zero_add _, htr.quiet h.memory⟩
  have hbeside := h.sound.sound.beside hlive (h.sound.sound.dir.two_le _ h.listed) hwrote
  -- What that leaves of the invariant.
  have heq : fs.fileWrite f buffer size =
      some (m, fs1.setFile f (some { file with pos := file.pos + m })) := by
    rw [Fs.fileWrite, hfile, some_bind, hw]
    rfl
  have hsound := (fileWrite_spec h.sound.sound ⟨rfl, hv⟩ hfile buffer size).of_eq heq
  have hrest : fs1.files = fs.files ∧ fs1.inodes = fs.inodes := by
    obtain ⟨_, _, heq'⟩ := hwrote.rest
    dsimp only at heq'
    rw [heq']
    exact ⟨rfl, rfl⟩
  refine ⟨_, heq, hfull.1, ⟨⟨?_, hfull.2, ?_, ?_⟩, ?_, ?_, ?_⟩, ?_, ?_⟩
  all_goals dsimp only [Fs.setFile]
  · refine NoDeny.setFile (h.noDeny.congr hrest.1) _ _ ?_
    rintro _ ⟨⟩
    exact h.noDeny f file hfile
  · rw [hbeside.mapNode, hbeside.freeMap, h.mapLength]
  · exact (congrArg (map Prod.fst) hbeside.contents).symm ▸ h.nodup
  · refine hsound.soundFor ?_
    rintro _ rfl
    exact ⟨_, v, ⟨rfl, hv⟩, .inl ⟨⟨file, file, hfile, hfile, rfl⟩, rfl⟩⟩
  · exact ⟨_, update_self .., rfl, inode, hrest.2 ▸ hi, rfl⟩
  · exact hbeside.listed_iff.mpr h.listed
  · exact hbeside.trans (.of_device rfl rfl)
  · intro p
    rw [hbeside.node]
    exact hwrote.bytes p

/-- **`file_close`** leaves the file system at rest. -/
theorem Using.fileClose (h : Using fs f t pos) : Returns (fs.fileClose (some f)) fun fs' ↦
      AtRest fs' ∧ fs'.device = fs.device ∧ fs'.freeMap = fs.freeMap := by
  obtain ⟨file, inode, hfile, -, hi, rfl, -⟩ := h.node
  obtain ⟨v, hv⟩ := h.sound.user f rfl
  obtain ⟨fs', hclose, hsound⟩ := fileClose_spec h.sound.sound ⟨rfl, hv⟩
  have hdeny := h.noDeny.fileClose hclose
  refine ⟨fs', hclose, ?_⟩
  simp only [Fs.fileClose, fileAllowWrite, hfile, h.noDeny f file hfile, some_bind, Option.pure_def,
    Bool.false_eq_true, if_false] at hclose
  have hkept : ∀ inode', fs.inodes file.inode = some inode' → inode'.removed = false :=
    fun _ ↦ h.sound.sound.not_removed ⟨inode, hi, rfl⟩ (.inr h.listed)
  have hquiet := inodeClose_quiet (by exact hkept) hclose
  obtain ⟨hdev, hmap⟩ : fs'.device = fs.device ∧ fs'.freeMap = fs.freeMap :=
    ⟨hquiet.device, hquiet.freeMap⟩
  refine ⟨⟨⟨hdeny, hquiet.oracle.trans h.memory, ?_, ?_⟩, ?_⟩, hdev, hmap⟩
  · rw [hdev, hmap, h.mapLength]
  · rw [rootContents, hdev]
    exact h.nodup
  · refine hsound.memory rfl rfl hsound.heap (fun _ _ ↦ hsound.inodeOk) hsound.ref ?_ (by simp)
    obtain ⟨g, file', hg, hfile', hat, -⟩ := hsound.mapFile
    exact ⟨g, file', hg, hfile', hat, fun _ ↦ id⟩

/-! ## Making a file -/

/-- There are `n` consecutive sectors that are free. -/
def Room (fs : Fs) (n : Nat) : Prop :=
  ∃ k, k + n ≤ fs.freeMap.size ∧ ∀ x, k ≤ x → x < k + n → fs.freeMap.bit x = false

/-- **`free_map_allocate`** succeeds if there is room, and of that it leaves what it need not
take. -/
theorem MapReady.freeMapAllocate_room {cnt : Nat} (h : MapReady fs inode)
    (hroom : Room fs (cnt + n)) :
    Returns (fs.freeMapAllocate cnt) fun r ↦ r.1.isSome = true ∧ Room r.2 n := by
  obtain ⟨k, hle, hclear⟩ := hroom
  obtain ⟨⟨start, fs'⟩, hall, hspec⟩ := h.freeMapAllocate cnt
  refine ⟨_, hall, ?_⟩
  cases hspec with
  | none hscan =>
    obtain ⟨x, hle', hlt, hne⟩ := Bitmap.of_scan_eq_none hscan (Nat.zero_le k) (by omega)
    exact absurd (hclear x hle' (by omega)) hne
  | @some start _ honly _ _ _ hbits =>
    -- The sectors are not behind the beginning of the run.
    obtain ⟨b, hflip, -⟩ := freeMapAllocate_eq hall
    have hfirst : start ≤ k := Bitmap.le_of_scan (Bitmap.scan_of_scanAndFlip hflip) (Nat.zero_le k)
      (by omega) fun x hle' hlt ↦ hclear x hle' (by omega)
    refine ⟨rfl, k + cnt, ?_, fun x hle' hlt ↦ ?_⟩
    · rw [honly.map_size]
      omega
    · rw [hbits, if_neg (by omega)]
      exact hclear x (by omega) (by omega)

/-- **`inode_create`** succeeds if there is room. -/
theorem MapReady.inodeCreate_room {length : Int} {created : Bool} (h : MapReady fs inode)
    (hsmall : fs.device.size < 2 ^ 32) (hmark : fs.freeMap.bit s = true) (h0 : 0 ≤ length)
    (hlt : length < 2 ^ 31) (hroom : Room fs (bytesToSectors length + n))
    (hr : fs.inodeCreate s length = some (created, fs')) :
    created = true ∧ Room fs' n ∧ (inodeAt fs'.device s).length = length := by
  cases created with
  | false =>
    simp only [Fs.inodeCreate, malloc, h.memory, bind_eq_some] at hr
    obtain ⟨-, -, ⟨start, fs1⟩, hall, hr⟩ := hr
    cases start with
    | none => cases ((h.freeMapAllocate_room hroom).of_eq hall).1
    | some start => simp [bind_eq_some_iff] at hr
  | true =>
    obtain ⟨oracle, start, fs1, device, hquiet, hall, hs, hzero, rfl⟩ := inodeCreate_eq hr
    have hmem : { fs with oracle } = fs := by rw [hquiet h.memory, ← h.memory]
    rw [hmem] at hall
    refine ⟨rfl, ((h.freeMapAllocate_room hroom).of_eq hall).2, ?_⟩
    cases (h.freeMapAllocate _).of_eq hall with
    | some honly _ hrange hclear hbits =>
      have hsize := h.size
      have hdata := (Returns.of_eq (writeZeros_spec (by rw [honly.size]; omega)) hzero).2 s
      have hout := Bitmap.not_within hclear hmark
      dsimp only [inodeAt] at hdata ⊢
      rw [hdata, if_neg hout, update_self,
        InodeDisk.decode_encode (by dsimp only; omega) (by dsimp only; omega) hlt
          (show inodeMagic < 2 ^ 32 by decide)]

/-- A file has been made in sector `t`, and the others are as they were. -/
structure Added (fs : Fs) (name : List UInt8) (size : Int) (t : Nat) (fs' : Fs) : Prop where
  contents : fs'.rootContents.Perm ((name, t) :: fs.rootContents)
  new : ¬ Listed fs.device t
  length : (inodeAt fs'.device t).length = size
  other : ∀ t' bytes, Listed fs.device t' → Holds fs.device t' bytes → Holds fs'.device t' bytes

/-- `dir_add` to the root directory, if that takes the name. -/
theorem Sound.dirAdd_takes (h : Sound fs ((dir, rootDirSector) :: refs) held)
    (hdeny : ∀ root, fs.inodes dir = some root → root.denyWriteCnt = 0) (hmem : fs.oracle = [])
    (htakes : Takes fs.device (inodeAt fs.device rootDirSector) 16 name) (hname : 0 ∉ name)
    (hs : fs.Nameable s) : Returns (fs.dirAdd dir name s) fun r ↦
      r.1 = true ∧ Sound r.2 ((dir, rootDirSector) :: refs) held ∧ r.2.freeMap = fs.freeMap ∧
      r.2.oracle = [] ∧ r.2.rootContents.Perm ((name, s) :: fs.rootContents) ∧
      ∀ x, ¬ InData fs.device rootDirSector x → r.2.device.data x = fs.device.data x := by
  obtain ⟨r, hadd, hsound, -⟩ : Returns (fs.dirAdd dir name s) _ :=
    dirAdd_spec h (h.ref _ mem_cons_self) hs
  obtain ⟨root, hroot, hdata⟩ := h.rootFile (h.ref _ mem_cons_self) hmem
  have hsmall : s < 2 ^ 32 := Nat.lt_trans hs.valid.sector h.disk.small
  obtain ⟨htrue, -⟩ := (hroot.dirAdd (hdeny _ hroot.opened) hsmall name).of_eq hadd
  rw [hdata] at htrue
  obtain ⟨hok, k, hk, hslot, old, hw⟩ := htrue htakes
  have hother : ∀ x, ¬ InData fs.device rootDirSector x →
      r.2.device.data x = fs.device.data x := by
    refine fun x hx ↦ hw.other x ?_
    rintro pos hpos rfl
    exact hx ((h.valid live_rootDir).inData hpos)
  have hnode : inodeAt r.2.device rootDirSector = inodeAt fs.device rootDirSector :=
    inodeAt_congr (hother _ (h.valid live_rootDir).own)
  have hslot' : dirSlot r.2.device (inodeAt fs.device rootDirSector) k = some (name, s) := by
    rw [dirSlot, hw.entry, if_pos rfl, if_pos rfl, cString_strlcpyTo hname]
  refine ⟨r, hadd, hok, hsound, ?_, ?_, ?_, hother⟩
  · obtain ⟨_, heq⟩ := hw.rest
    rw [heq]
  · obtain ⟨_, heq⟩ := hw.rest
    rw [heq]
    exact hmem
  · rw [rootContents, rootContents, hnode]
    exact Slots.contents_fill hk hslot hslot' (Catalog.dirSlot_rewritten hw)

/-- **`filesys_create`** makes a file if the root directory takes the name and there is room. -/
theorem AtRest.filesysCreate {size : Int} (h : AtRest fs)
    (htakes : Takes fs.device (inodeAt fs.device rootDirSector) 16 name) (hname : 0 ∉ name)
    (h0 : 0 ≤ size) (hlt : size < 2 ^ 31) (hroom : Room fs (1 + (bytesToSectors size + n))) :
    Returns (fs.filesysCreate name size) fun r ↦
      r.1 = true ∧ AtRest r.2 ∧ Room r.2 n ∧ ∃ t, Added fs name size t r.2 := by
  obtain ⟨r, hr, hsound⟩ : Returns (fs.filesysCreate name size) _ :=
    filesysCreate_spec h.sound h0 hlt
  have hdeny := h.noDeny.congr (files_filesysCreate hr)
  refine ⟨r, hr, ?_⟩
  simp only [Fs.filesysCreate, bind_eq_some] at hr
  obtain ⟨⟨_, fs1⟩, hopen, hr⟩ := hr
  obtain ⟨dir, heq, hq1, h1⟩ := (dirOpenRoot_quiet h.sound h.memory).of_eq hopen
  dsimp only at heq hq1 h1
  subst heq
  have hready1 := hq1.ready h.toReady
  obtain ⟨inode, hmap, hdata⟩ := h1.mapReady hready1.noDeny hready1.memory hready1.mapLength
  simp only [bind_eq_some] at hr
  obtain ⟨⟨sector, fs2⟩, hall, hr⟩ := hr
  -- A sector for the inode.
  have hroom1 : Room fs1 (1 + (bytesToSectors size + n)) := by
    rw [Room, hq1.freeMap]
    exact hroom
  obtain ⟨hsome, hroom2⟩ := (hmap.freeMapAllocate_room hroom1).of_eq hall
  obtain ⟨t, heq⟩ := isSome_iff_exists.mp hsome
  dsimp only at heq hroom2
  subst heq
  have ht := h1.taken hmap hdata hall
  have hallocated := (freeMapAllocate_spec h1 1).of_eq hall
  simp only [bind_eq_some] at hr
  obtain ⟨⟨created, fs3⟩, hcreate, hr⟩ := hr
  -- The inode and its data.
  obtain ⟨rfl, hroom3, hlength⟩ := ht.ready.inodeCreate_room hallocated.sound.disk.small ht.mark h0
    hlt hroom2 hcreate
  have hcreated := (inodeCreate_spec hallocated.sound ht.lt ht.mark ht.fresh h0 hlt).of_eq hcreate
  obtain ⟨hmap3, -⟩ := ht.ready.inodeCreate_true hcreate
  have hsame := hallocated.same.trans h1 hcreated.same
  have hdeny3 : NoDeny fs3 := hready1.noDeny.congr
    ((sameHeap_inodeCreate hcreate).files.trans (sameHeap_freeMapAllocate hall).files)
  have hcontents : fs3.rootContents = fs.rootContents := by
    rw [← hq1.rootContents]
    exact dirContents_congr fun k hk ↦ hsame.rootEntry h1 hk
  have htakes3 : Takes fs3.device (inodeAt fs3.device rootDirSector) 16 name := by
    rw [Takes, show dirContents fs3.device (inodeAt fs3.device rootDirSector) 16 = _ from hcontents]
    exact htakes
  -- The entry.
  simp only [if_true, bind_eq_some] at hr
  obtain ⟨⟨success, fs4⟩, hadd, hr⟩ := hr
  obtain ⟨hok, h4, hmap4, hmem4, hperm, hother⟩ := (hcreated.sound.dirAdd_takes
    (fun _ hroot ↦ hcreated.sound.heap.denyWriteCnt_eq_zero hdeny3 hroot) hmap3.memory htakes3 hname
    ⟨hcreated.valid rfl, hcreated.fresh rfl⟩).of_eq hadd
  dsimp only at hok hmap4 hmem4 hperm hother
  subst hok
  simp only [Bool.not_true, Bool.false_and, Bool.false_eq_true, if_false, some_bind,
    bind_eq_some] at hr
  obtain ⟨fs5, hclose, heq⟩ := hr
  cases heq
  obtain ⟨hq5, -⟩ := (dirClose_quiet h4).of_eq hclose
  have hperm5 : fs5.rootContents.Perm ((name, t) :: fs.rootContents) := by
    rw [hq5.rootContents, ← hcontents]
    exact hperm
  have h3 := hcreated.sound
  refine ⟨rfl, ⟨⟨hdeny, hq5.oracle.trans hmem4, ?_, ?_⟩, hsound⟩, ?_, t, hperm5, ?_, ?_, ?_⟩
  · have hnode : inode.data = inodeAt fs3.device freeMapSector :=
      ht.data.trans (inodeAt_congr (hcreated.same.live _ live_freeMap)).symm
    rw [hq5.device, hq5.freeMap, hmap4, ← hmap3.length, hnode]
    exact congrArg _ (inodeAt_congr (hother _ (h3.disk.not_inData live_rootDir live_freeMap)))
  · exact (hperm5.map Prod.fst).nodup_iff.mpr (nodup_cons.mpr ⟨htakes.2.2.1, h.nodup⟩)
  · rw [Room, hq5.freeMap, hmap4]
    exact hroom3
  · rw [← hq1.device]
    exact fun hl ↦ h1.fresh_of_unmarked ht.clear t (.inr (.inr (.inl hl))) (.inl rfl)
  · have hout : ¬ InData fs3.device rootDirSector t :=
      fun hin ↦ hcreated.fresh rfl t (.inl rfl) _ live_rootDir (.inr hin)
    rw [hq5.device, inodeAt_congr (hother t hout), hlength]
  · intro t' bytes hl hh
    have hne : t' ≠ freeMapSector := by
      rintro rfl
      exact absurd (h.sound.dir.two_le _ hl) (by decide)
    have hne' : t' ≠ rootDirSector := by
      rintro rfl
      exact absurd (h.sound.dir.two_le _ hl) (by decide)
    rw [← hq1.device] at hl hh
    have hlive : fs1.Live t' := .inr (.inr (.inl hl))
    have hlive3 : fs3.Live t' := (hsame.live_iff h1).mpr hlive
    have hh3 : Holds fs3.device t' bytes :=
      hh.congr (h1.valid hlive) (hsame.live t' hlive) fun x hx ↦ hsame.data t' x hlive hne hx
    rw [hq5.device]
    refine hh3.congr (h3.valid hlive3) (hother t' (h3.disk.not_inData live_rootDir hlive3)) ?_
    exact fun x hx ↦ hother x fun hx' ↦
      hne' (h3.disk.disjoint t' _ x hlive3 live_rootDir (.inr hx) (.inr hx'))

/-! ## What is stored -/

/-- The file system is at rest and stores these files, each a name with its bytes, and no others. -/
structure Stores (fs : Fs) (files : List (List UInt8 × List UInt8)) : Prop extends AtRest fs where
  names : (fs.rootContents.map Prod.fst).Perm (files.map Prod.fst)
  bytes : ∀ file ∈ files, ∃ t, (file.1, t) ∈ fs.rootContents ∧ Holds fs.device t file.2

theorem AtRest.stores_nil (h : AtRest fs) (hempty : fs.rootContents = []) : Stores fs [] :=
  ⟨h, by rw [hempty]; rfl, nofun⟩

theorem Stores.perm {files files' : List (List UInt8 × List UInt8)} (h : Stores fs files)
    (hperm : files.Perm files') : Stores fs files' :=
  ⟨h.toAtRest, h.names.trans (hperm.map _), fun file hmem ↦ h.bytes file (hperm.mem_iff.mpr hmem)⟩

/-- A file system that has been formatted is at rest and empty. -/
theorem AtRest.of_init {device : Block} {oracle : List Bool} {garbage : Buffer}
    (hsmall : device.size < 2 ^ 32) (h : filesysInit device oracle garbage = some fs)
    (hmem : fs.oracle = []) : AtRest fs ∧ fs.rootContents = [] := by
  have hsound := filesysInit_sound hsmall h
  have hdeny := NoDeny.of_init hsmall h
  obtain ⟨fs1, hf, hopen⟩ := filesysInit_eq hsmall h
  obtain ⟨oracle', freeMap, hsize, -, rfl⟩ :=
    freeMapOpen_eq hf.closed hf.size hf.valid hf.root.bytes hopen
  have hempty : rootContents fs1 = [] := by
    refine eq_nil_iff_forall_not_mem.mpr fun p hp ↦ ?_
    exact hf.root.not_listed p.2 (listed_of_mem hp)
  refine ⟨⟨⟨hdeny, hmem, ?_, ?_⟩, hsound⟩, hempty⟩
  · rw [hsize, hf.size]
    exact hf.length
  · exact (congrArg (map Prod.fst) hempty).symm ▸ nodup_nil

/-- A file that has been made and written is one more that is stored. -/
theorem Stores.cons {files : List (List UInt8 × List UInt8)} {fs1 : Fs}
    {file : List UInt8 × List UInt8} (h : Stores fs files)
    (hadd : Added fs file.1 file.2.length t fs1) (hbeside : Beside t fs1 fs') (hrest : AtRest fs')
    (hbytes : ∀ p < file.2.length, fileByte fs'.device (inodeAt fs'.device t) p = file.2.getD p 0) :
    Stores fs' (file :: files) := by
  refine ⟨hrest, ?_, ?_⟩
  · rw [hbeside.contents]
    exact (hadd.contents.map Prod.fst).trans (h.names.cons _)
  · intro file' hmem
    rcases mem_cons.mp hmem with rfl | hmem
    · refine ⟨t, ?_, ?_, hbytes⟩
      · rw [hbeside.contents]
        exact hadd.contents.mem_iff.mpr mem_cons_self
      · rw [hbeside.node, hadd.length]
    · obtain ⟨t', hin, hh⟩ := h.bytes file' hmem
      have hl : Listed fs.device t' := listed_of_mem hin
      have hin1 : (file'.1, t') ∈ fs1.rootContents :=
        hadd.contents.mem_iff.mpr (mem_cons_of_mem _ hin)
      have hne : t' ≠ t := by
        rintro rfl
        exact hadd.new hl
      exact ⟨t', hbeside.contents.symm ▸ hin1,
        hbeside.other t' _ (listed_of_mem hin1) hne (hadd.other t' _ hl hh)⟩

end Fs

end Pintos
