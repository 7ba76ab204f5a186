import Pintos.Filesys.InodeLife

/-!
# Open files

What the functions of `file.c` do in a sound file system.  A file that a process holds is neither
the free map nor the root directory, so nothing that is done to it touches those.
-/

set_option autoImplicit false

namespace Pintos

open Function Option

namespace Fs

variable {fs fs' : Fs} {refs : List (Nat × Nat)} {held : Nat → View → Prop} {id s f g n : Nat}
  {inode : Inode} {file : File} {v : View}

theorem Sound.held_lt (h : Sound fs refs held) (hf : held f v) : f < fs.next := by
  obtain ⟨file, _, hfile, -⟩ := h.files f v hf
  exact h.heap.file_lt f file hfile

/-! ## Opening and closing -/

/-- A new file takes over an inode. -/
theorem Sound.newFile (h : Sound fs ((id, s) :: refs) held) (hs : 2 ≤ s) :
    Sound ({ fs with next := fs.next + 1 }.setFile fs.next (some ⟨id, 0, false⟩)) refs
      fun g v ↦ g = fs.next ∧ Shows fs.device s v ∨ held g v := by
  have hother : ∀ {g : Nat} {file : File}, fs.files g = some file →
      update fs.files fs.next (some ⟨id, 0, false⟩) g = some file := by
    intro g file hg
    rwa [update_of_ne (Nat.ne_of_lt (h.heap.file_lt g file hg))]
  refine h.memory rfl rfl h.heap.newFile (fun _ _ ↦ h.inodeOk)
    (fun r hr ↦ h.ref r (List.mem_cons_of_mem _ hr)) ?_ ?_
  · obtain ⟨f, file, hf, hfile, hat, hheld⟩ := h.mapFile
    have hne := Nat.ne_of_lt (h.heap.file_lt f file hfile)
    exact ⟨f, file, hf, hother hfile, hat, fun v hv ↦ hv.elim (fun hv ↦ hne hv.1) (hheld v)⟩
  · rintro g v (⟨rfl, hv⟩ | hg)
    · exact ⟨_, s, update_self .., h.ref _ List.mem_cons_self, hs, hv⟩
    · obtain ⟨file, t, hfile, hat, ht⟩ := h.files g v hg
      exact ⟨file, t, hother hfile, hat, ht⟩

/-- **`file_open`** takes over an inode; if there is no memory it closes it. -/
theorem fileOpen_spec (h : Sound fs ((id, s) :: refs) held) (hs : 2 ≤ s) :
    Returns (fs.fileOpen (some id)) fun r ↦ (∀ f, r.1 = some f → (∀ v, ¬ held f v) ∧
        Sound r.2 refs fun g v ↦ g = f ∧ Shows r.2.device s v ∨ held g v) ∧
      (r.1 = none → Sound r.2 refs held) := by
  obtain ⟨ok, oracle, hmalloc, -⟩ := fs.malloc_cases
  have hsound := h.setOracle oracle
  simp only [fileOpen, hmalloc]
  cases ok with
  | false => exact Returns.bind (inodeClose_spec hsound) fun fs' hfs' ↦ .pure ⟨nofun, fun _ ↦ hfs'⟩
  | true =>
    refine .pure ⟨?_, nofun⟩
    rintro _ ⟨⟩
    exact ⟨fun v hheld ↦ Nat.lt_irrefl _ (h.held_lt hheld), hsound.newFile hs⟩

theorem UserFile.setFile (h : fs.UserFile g v) (hfile : fs.files f = some file) (file' : File)
    (hinode : file'.inode = file.inode) : (fs.setFile f (some file')).UserFile g v := by
  obtain ⟨file1, t, hfile1, hat, ht⟩ := h
  by_cases hg : g = f
  · subst hg
    obtain rfl : file = file1 := some.inj (hfile.symm.trans hfile1)
    exact ⟨file', t, update_self .., hinode ▸ hat, ht⟩
  · exact ⟨file1, t, by rwa [files_setFile, update_of_ne hg], hat, ht⟩

section

variable (h : Sound fs refs held)

include h

section

variable (hf : held f v)

include hf

/-- The free map's file is left alone by a store to a file that a process holds. -/
theorem Sound.mapFile_setFile (new : Option File) :
    ∃ f' file, fs.freeMapFile = some f' ∧ (fs.setFile f new).files f' = some file ∧
      fs.At file.inode freeMapSector ∧ ∀ v, ¬ held f' v := by
  obtain ⟨f', file, hf', hfile, hat, hheld⟩ := h.mapFile
  have hne : f' ≠ f := by
    rintro rfl
    exact hheld v hf
  exact ⟨f', file, hf', by rwa [files_setFile, update_of_ne hne], hat, hheld⟩

/-- A file that a process holds denies writing, or allows it again. -/
theorem Sound.setDeny (hfile : fs.files f = some file)
    (hi : fs.inodes file.inode = some inode) (deny : Bool) (cnt : Nat)
    (hcnt : cnt + file.denyWrite.toNat = inode.denyWriteCnt + deny.toNat) :
    Sound ((fs.setFile f (some { file with denyWrite := deny })).setInode file.inode
      (some { inode with denyWriteCnt := cnt })) refs held := by
  have hat : ∀ {id t : Nat}, fs.At id t →
      ((fs.setFile f (some { file with denyWrite := deny })).setInode file.inode
        (some { inode with denyWriteCnt := cnt })).At id t := by
    intro id t h'
    refine (at_setInode hi ?_).mpr h'
    rfl
  refine h.memory rfl rfl (h.heap.setDeny hfile hi hcnt) (fun id inode' hi' ↦ ?_)
    (fun r hr ↦ hat (h.ref r hr)) ?_ fun g w hg ↦ ?_
  · by_cases hid : id = file.inode
    · subst hid
      rw [inodes_setInode, update_self, some_inj] at hi'
      have hok := h.inodeOk hi
      exact hi' ▸ ⟨hok.live, hok.data, hok.removed⟩
    · rw [inodes_setInode, update_of_ne hid] at hi'
      exact h.inodeOk hi'
  · obtain ⟨f', file', hf', hfile', hmap, hheld⟩ := h.mapFile_setFile hf _
    exact ⟨f', file', hf', hfile', hat hmap, hheld⟩
  · obtain ⟨file', t, hfile', hg', ht⟩ :=
      (h.files g w hg).setFile hfile { file with denyWrite := deny } rfl
    exact ⟨file', t, hfile', hat hg', ht⟩

/-- **`file_allow_write`**: the assertions hold, and the file allows writing. -/
theorem fileAllowWrite_spec :
    Returns (fs.fileAllowWrite f) fun fs' ↦ Sound fs' refs held ∧
      ∃ file, fs'.files f = some file ∧ file.denyWrite = false := by
  obtain ⟨file, t, hfile, ⟨inode, hi, hsec⟩, ht⟩ := h.files f v hf
  simp only [fileAllowWrite, hfile, some_bind]
  by_cases hdeny : file.denyWrite = true
  · have hpos := h.heap.deny_pos hfile hi hdeny
    have hle := h.heap.deny_le hi
    have hsound := h.setDeny hf hfile hi false (inode.denyWriteCnt - 1) (by simp [hdeny]; omega)
    simp only [if_pos hdeny, inodeAllowWrite, inodes_setFile, hi, assert, if_pos hpos, if_pos hle,
      some_bind]
    exact .pure ⟨hsound, _, update_self .., rfl⟩
  · rw [if_neg hdeny]
    exact .pure ⟨h, file, hfile, by simpa using hdeny⟩

/-- **`file_deny_write`**: the assertion holds. -/
theorem fileDenyWrite_spec :
    Returns (fs.fileDenyWrite f) fun fs' ↦ Sound fs' refs held := by
  obtain ⟨file, t, hfile, ⟨inode, hi, hsec⟩, ht⟩ := h.files f v hf
  simp only [fileDenyWrite, hfile, some_bind]
  by_cases hdeny : file.denyWrite = true
  · rw [if_pos hdeny]
    exact .pure h
  · have hsound := h.setDeny hf hfile hi true (inode.denyWriteCnt + 1) (by simp [hdeny])
    -- After the store one more file denies writing, so there is one more user than was counted.
    have hle : inode.denyWriteCnt + 1 ≤ inode.openCnt :=
      hsound.heap.deny_le (show Fs.inodes _ file.inode = some _ from update_self ..)
    simp only [if_neg hdeny, inodeDenyWrite, inodes_setFile, hi, assert, if_pos hle, some_bind]
    exact .pure hsound

/-- **`file_close`** gives up a file that a process holds. -/
theorem fileClose_spec :
    Returns (fs.fileClose (some f)) fun fs' ↦ Sound fs' refs fun g w ↦ held g w ∧ g ≠ f := by
  refine Returns.bind (fileAllowWrite_spec h hf) ?_
  rintro fs' ⟨h', file, hfile, hdeny⟩
  obtain ⟨file', t, hfile', hat, ht⟩ := h'.files f v hf
  obtain rfl : file = file' := some.inj (hfile.symm.trans hfile')
  simp only [hfile, some_bind]
  refine inodeClose_spec (s := t) ?_
  refine h'.memory rfl rfl (h'.heap.removeFile hfile hdeny) (fun _ _ ↦ h'.inodeOk) ?_ ?_ ?_
  · rintro r (_ | ⟨_, hr⟩)
    · exact hat
    · exact h'.ref r hr
  · obtain ⟨f', file', hf', hfile', hmap, hheld⟩ := h'.mapFile_setFile hf none
    exact ⟨f', file', hf', hfile', hmap, fun w hw ↦ hheld w hw.1⟩
  · rintro g w ⟨hg, hne⟩
    obtain ⟨file', t', hfile', hat', ht'⟩ := h'.files g w hg
    exact ⟨file', t', by rwa [files_setFile, update_of_ne hne], hat', ht'⟩

/-! ## Reading and writing -/

/-- The position of a file that a process holds is changed. -/
theorem Sound.setPos (hfile : fs.files f = some file)
    (pos : Nat) : Sound (fs.setFile f (some { file with pos })) refs held :=
  h.memory rfl rfl (h.heap.setPos hfile pos) (fun _ _ ↦ h.inodeOk) h.ref
    (h.mapFile_setFile hf _) fun g w hg ↦ (h.files g w hg).setFile hfile _ rfl

end

end

theorem inodeReadAt_toNat (fs : Fs) (id : Nat) (buffer : Buffer) (size : Int) (offset : Nat) :
    fs.inodeReadAt id buffer size offset = fs.inodeReadAt id buffer size.toNat offset := rfl

theorem inodeWriteAt_toNat (fs : Fs) (id : Nat) (buffer : Buffer) (size : Int) (offset : Nat) :
    fs.inodeWriteAt id buffer size offset = fs.inodeWriteAt id buffer size.toNat offset := rfl

/-- **`file_read`** never panics, and what it reads are bytes that the file shows. -/
theorem fileRead_spec (h : Sound fs refs held) (hf : held f v) (hfile : fs.files f = some file)
    (buffer : Buffer) (size : Int) :
    Returns (fs.fileRead f buffer size) fun r ↦ Sound r.2.2 refs held ∧
      ∀ i < r.1, r.2.1 i = v.bytes (file.pos + i) := by
  obtain ⟨file', t, hfile', ⟨inode, hi, rfl⟩, ht, hnode, hbytes⟩ := h.files f v hf
  obtain rfl : file = file' := some.inj (hfile.symm.trans hfile')
  have hok := h.inodeOk hi
  have hdata : inode.data = v.data := hok.data.trans hnode
  have hdev : OnDevice fs.device.size inode.data := hok.data ▸ (h.valid hok.live).onDevice
  simp only [fileRead, hfile, some_bind]
  rw [inodeReadAt_toNat]
  refine Returns.bind (inodeReadAt_spec hi hdev) ?_
  rintro ⟨n, buffer', fs'⟩ ⟨m, oracle, hn, hfs', htr, hbuf⟩
  obtain rfl := hfs'
  refine .pure ⟨(h.setOracle oracle).setPos hf hfile _, fun i hlt ↦ ?_⟩
  have hle := htr.le
  rw [hdata] at hle
  rw [hbuf, if_pos (by omega), hdata, hbytes _ (by omega), Nat.sub_zero]

/-- A view after `n` bytes have been written at `pos`. -/
def View.write (v : View) (pos n : Nat) (buffer : Buffer) : View :=
  ⟨v.data, fun p ↦ if pos ≤ p ∧ p < pos + n then buffer (p - pos) else v.bytes p⟩

/-- Two files are open on one inode. -/
def Shares (fs : Fs) (f g : Nat) : Prop :=
  ∃ file file', fs.files f = some file ∧ fs.files g = some file' ∧ file.inode = file'.inode

/-- What the files show after a write through `f`. -/
def written (held : Nat → View → Prop) (fs : Fs) (f pos n : Nat) (buffer : Buffer) (g : Nat)
    (w : View) : Prop :=
  ∃ v, held g v ∧ (fs.Shares f g ∧ w = v.write pos n buffer ∨ ¬ fs.Shares f g ∧ w = v)

/-- **`file_write`** never panics, and changes what is shown by the files on the same inode only. -/
theorem fileWrite_spec (h : Sound fs refs held) (hf : held f v) (hfile : fs.files f = some file)
    (buffer : Buffer) (size : Int) : Returns (fs.fileWrite f buffer size) fun r ↦
      Sound r.2 refs (written held fs f file.pos r.1 buffer) := by
  obtain ⟨file', t, hfile', ⟨inode, hi, rfl⟩, ht, hshow⟩ := h.files f v hf
  obtain rfl : file = file' := some.inj (hfile.symm.trans hfile')
  have hok := h.inodeOk hi
  have hdev : OnDevice fs.device.size inode.data := hok.data ▸ (h.valid hok.live).onDevice
  simp only [fileWrite, hfile, some_bind]
  rw [inodeWriteAt_toNat]
  refine Returns.bind (inodeWriteAt_wrote hi hdev) ?_
  rintro ⟨n, fs'⟩ hw
  rw [hok.data] at hw
  have hne : inode.sector ≠ rootDirSector := by
    intro heq
    rw [heq] at ht
    exact absurd ht (by decide)
  obtain ⟨hsame, hmap, hother⟩ := h.wrote hok.live hne hw
  have hbits : ∀ s x, fs.Live s → InFoot fs.device s x → fs'.freeMap.bit x = true :=
    fun s x hl hx ↦ hmap ▸ (h.valid hl).marked x hx
  have hfiles : ∀ g w, written held fs f file.pos n buffer g w → fs'.UserFile g w := by
    rintro g w ⟨v', hg, hcase⟩
    obtain ⟨file', t, hfile', hat, ht', hnode', hbytes'⟩ := h.files g v' hg
    suffices hshows : Shows fs'.device t w by
      obtain ⟨_, _, _, rfl⟩ := hsame.rest
      exact ⟨file', t, hfile', hat, ht', hshows⟩
    have hnode : inodeAt fs'.device t = v'.data :=
      (inodeAt_congr (hsame.live t hat.live)).trans hnode'
    rcases hcase with ⟨⟨_, _, hf1, hg1, heq⟩, rfl⟩ | ⟨hno, rfl⟩
    · obtain rfl := some.inj (hfile.symm.trans hf1)
      obtain rfl := some.inj (hfile'.symm.trans hg1)
      obtain ⟨inode', hi', rfl⟩ := hat
      obtain rfl : inode = inode' := some.inj (hi.symm.trans (heq ▸ hi'))
      refine ⟨hnode, fun pos hpos ↦ ?_⟩
      have hbyte := hw.bytes pos
      rw [hnode', hbytes' pos hpos] at hbyte
      exact hbyte
    · have htne : t ≠ inode.sector := by
        rintro rfl
        obtain ⟨inode', hi', hsec⟩ := hat
        exact hno ⟨file, file', hfile, hfile', h.heap.inj _ _ _ _ hi hi' hsec.symm⟩
      refine ⟨hnode, fun pos hpos ↦ ?_⟩
      rw [← hbytes' pos hpos, fileByte, fileByte, hother t _ hat.live htne]
      rw [← hnode'] at hpos ⊢
      exact (h.valid hat.live).inData hpos
  have h' := h.sameInodes hsame hbits (fun _ _ hw ↦ hw.imp fun _ hv' ↦ hv'.1) hfiles
  refine .pure (h'.setPos ⟨v, hf, .inl ⟨⟨file, file, hfile, hfile, rfl⟩, rfl⟩⟩ ?_ _)
  obtain ⟨_, _, _, heq⟩ := hsame.rest
  rw [heq]
  exact hfile

/-- **`file_seek`**, to a position that is an `off_t`. -/
theorem fileSeek_spec (h : Sound fs refs held) (hf : held f v) {pos : Int} (hpos : 0 ≤ pos) :
    Returns (fs.fileSeek f pos) fun fs' ↦ Sound fs' refs held := by
  obtain ⟨file, t, hfile, -⟩ := h.files f v hf
  simp only [fileSeek, assert, if_pos hpos, hfile, some_bind]
  exact .pure (h.setPos hf hfile _)

/-- **`file_length`** and **`file_tell`** never panic. -/
theorem fileLength_fileTell (h : Sound fs refs held) (hf : held f v) :
    (∃ n, fs.fileLength f = some n) ∧ ∃ n, fs.fileTell f = some n := by
  obtain ⟨file, t, hfile, ⟨inode, hi, hsec⟩, ht⟩ := h.files f v hf
  exact ⟨⟨inode.data.length, by simp [fileLength, hfile, hi]⟩, file.pos, by simp [fileTell, hfile]⟩

/-! ## Files and their owners -/

/-- The file system is sound, and the files that somebody owns are open. -/
structure SoundFor (fs : Fs) (own : Nat → Prop) : Prop where
  sound : fs.Sound [] fun f v ↦ own f ∧ fs.UserFile f v
  user : ∀ f, own f → ∃ v, fs.UserFile f v

theorem Sound.soundFor {own : Nat → Prop} (h : fs.Sound [] held)
    (hown : ∀ f, own f → ∃ v, held f v) : fs.SoundFor own := by
  refine ⟨h.memory rfl rfl h.heap (fun _ _ ↦ h.inodeOk) h.ref ?_ fun f v hf ↦ hf.2, fun f hf ↦ ?_⟩
  · obtain ⟨f, file, hf, hfile, hat, hno⟩ := h.mapFile
    exact ⟨f, file, hf, hfile, hat, fun v hv ↦ (hown f hv.1).elim hno⟩
  · obtain ⟨v, hv⟩ := hown f hf
    exact ⟨v, h.files f v hv⟩

end Fs

end Pintos
