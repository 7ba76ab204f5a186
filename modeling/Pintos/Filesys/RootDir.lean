import Pintos.Filesys.OpenFiles

/-!
# The root directory

What the functions of `directory.c` and `filesys.c` do in a sound file system.  An entry of the root
directory is 20 bytes within one sector, so it is written as a whole or not at all.  Writing an
entry (`Sound.setEntry`) is the only thing that makes an inode live, or lets one go that nobody has
open.
-/

set_option autoImplicit false

namespace Pintos

open List

namespace Fs

variable {fs fs' : Fs} {refs : List (Nat × Nat)} {held : Nat → View → Prop} {dir k n s t x : Nat}
  {buffer : Buffer} {name : List UInt8}

/-! ## Looking for an entry -/

/-- One entry is read. -/
theorem readEntry_spec (h : Sound fs refs held) (hd : fs.At dir rootDirSector) :
    Returns (fs.inodeReadAt dir buffer dirEntrySize (dirEntrySize * k)) fun r ↦
      (∃ oracle, r.2.2 = { fs with oracle }) ∧
      (r.1 = dirEntrySize → k < 16 ∧ DirEntry.decode r.2.1 = rootEntry fs.device k) := by
  obtain ⟨inode, hi, hsec⟩ := hd
  have hok := h.inodeOk hi
  have hdata : inode.data = inodeAt fs.device rootDirSector := hsec ▸ hok.data
  refine (inodeReadAt_spec hi (hdata ▸ (h.valid live_rootDir).onDevice)).mono ?_
  rintro ⟨n, buffer', fs'⟩ ⟨m, oracle, rfl, hfs', htr, hbuf⟩
  refine ⟨⟨oracle, hfs'⟩, fun hn ↦ ?_⟩
  have hle := htr.le
  rw [hdata, h.dir.length] at hle
  simp only [dirEntrySize, Nat.zero_add] at hn hle
  refine ⟨by omega, DirEntry.decode_congr fun i hi ↦ ?_⟩
  simp only [dirEntrySize] at hi
  rw [hbuf, if_pos (by omega), hdata]
  rfl

/-- What `lookup` finds is an entry in use. -/
theorem lookupLoop_spec (h : Sound fs refs held) (hd : fs.At dir rootDirSector) (fuel : Nat) :
    Returns (lookupLoop dir name fuel fs buffer (dirEntrySize * k)) fun r ↦
      (∃ oracle, r.2 = { fs with oracle }) ∧ ∀ e ofs, r.1 = some (e, ofs) →
        ∃ k < 16, ofs = dirEntrySize * k ∧ e = rootEntry fs.device k ∧ e.inUse = true := by
  induction fuel generalizing fs buffer k with
  | zero => exact .pure ⟨⟨fs.oracle, rfl⟩, nofun⟩
  | succ fuel ih =>
    rw [lookupLoop]
    refine Returns.bind (readEntry_spec h hd) ?_
    rintro ⟨n, buffer', fs'⟩ ⟨⟨oracle, hfs'⟩, hentry⟩
    dsimp only at hfs' hentry ⊢
    subst hfs'
    split
    · exact .pure ⟨⟨oracle, rfl⟩, nofun⟩
    next hn =>
    obtain ⟨hk, he⟩ := hentry (not_not.mp hn)
    split
    · next hfound =>
      refine .pure ⟨⟨oracle, rfl⟩, ?_⟩
      rintro e ofs ⟨⟩
      exact ⟨k, hk, rfl, he, (Bool.and_eq_true_iff.mp hfound).1⟩
    · refine (ih (k := k + 1) (h.setOracle oracle) hd).mono ?_
      rintro r ⟨⟨oracle', hr⟩, hres⟩
      exact ⟨⟨oracle', hr⟩, hres⟩

theorem lookup_spec (h : Sound fs refs held) (hd : fs.At dir rootDirSector) :
    Returns (fs.lookup dir name) fun r ↦
      (∃ oracle, r.2 = { fs with oracle }) ∧ ∀ e ofs, r.1 = some (e, ofs) →
        ∃ k < 16, ofs = dirEntrySize * k ∧ e = rootEntry fs.device k ∧ e.inUse = true :=
  lookupLoop_spec (k := 0) h hd _

/-- `dir_add` looks at the places of entries. -/
theorem freeSlotLoop_spec (h : Sound fs refs held) (hd : fs.At dir rootDirSector) (fuel : Nat)
    (hk : k ≤ 16) : Returns (freeSlotLoop dir fuel fs buffer (dirEntrySize * k)) fun r ↦
      (∃ oracle, r.2.2 = { fs with oracle }) ∧ ∃ k ≤ 16, r.1 = dirEntrySize * k := by
  induction fuel generalizing fs buffer k with
  | zero => exact .pure ⟨⟨fs.oracle, rfl⟩, k, hk, rfl⟩
  | succ fuel ih =>
    rw [freeSlotLoop]
    refine Returns.bind (readEntry_spec h hd) ?_
    rintro ⟨n, buffer', fs'⟩ ⟨⟨oracle, hfs'⟩, hentry⟩
    dsimp only at hfs' hentry ⊢
    subst hfs'
    split
    · exact .pure ⟨⟨oracle, rfl⟩, k, hk, rfl⟩
    next hn =>
    split
    · exact .pure ⟨⟨oracle, rfl⟩, k, hk, rfl⟩
    · refine (ih (k := k + 1) (h.setOracle oracle) hd (hentry (not_not.mp hn)).1).mono ?_
      rintro r ⟨⟨oracle', hr⟩, hres⟩
      exact ⟨⟨oracle', hr⟩, hres⟩

/-! ## Writing an entry -/

/-- An inode that an entry may name: valid, and in nobody's use. -/
structure Nameable (fs : Fs) (s : Nat) : Prop where
  valid : ValidInode fs.device fs.freeMap s
  fresh : ∀ x, InFoot fs.device s x → fs.Fresh x

namespace Nameable

variable (h : fs.Nameable s)

include h

theorem not_inFoot (hl : fs.Live t) : ¬ InFoot fs.device t s := h.fresh s (.inl rfl) t hl

theorem not_live : ¬ fs.Live s := fun hl ↦ h.not_inFoot hl (.inl rfl)

theorem two_le : 2 ≤ s := by
  have h0 : s ≠ freeMapSector := fun hs ↦ h.not_live (hs ▸ live_freeMap)
  have h1 : s ≠ rootDirSector := fun hs ↦ h.not_live (hs ▸ live_rootDir)
  simp only [freeMapSector, rootDirSector] at h0 h1
  omega

end Nameable

section

variable {e : DirEntry}
  (hw : Wrote fs (inodeAt fs.device rootDirSector) e.encode dirEntrySize (dirEntrySize * k) n fs')
  (h : Sound fs refs held)

include hw h

theorem Sound.writeEntry_other (hx : ¬ InData fs.device rootDirSector x) :
    fs'.device.data x = fs.device.data x := hw.outside (h.valid live_rootDir) hx

theorem Sound.writeEntry_live (hl : fs.Live s) : fs'.device.data s = fs.device.data s :=
  h.writeEntry_other hw (h.disk.not_inData live_rootDir hl)

/-- An entry is written as a whole, or the device is left alone. -/
theorem Sound.writeEntry_cases (hk : k ≤ 16) :
    n = 0 ∧ Same fs fs' ∧ fs'.freeMap = fs.freeMap ∨ n = dirEntrySize ∧ k < 16 := by
  have hnone : n = 0 → Same fs fs' ∧ fs'.freeMap = fs.freeMap := by
    rintro rfl
    have hdata : ∀ x, fs'.device.data x = fs.device.data x :=
      fun x ↦ hw.other x fun pos h1 h2 ↦ by omega
    obtain ⟨oracle, device, rfl⟩ := hw.rest
    exact ⟨⟨⟨⟨_, _, _, rfl⟩, hw.device_size, rfl, fun s _ ↦ hdata s, fun x _ ↦ hdata x⟩,
      fun _ x _ _ _ ↦ hdata x⟩, rfl⟩
  have hmod : 20 * k % 512 = 20 * k := Nat.mod_eq_of_lt (by omega)
  have hatomic := hw.atomic
  simp only [h.dir.length, dirEntrySize, blockSectorSize, hmod] at hatomic ⊢
  have hn : n = 0 ∨ n = 20 ∧ k < 16 := by
    rcases hatomic (by omega) with rfl | hn
    · exact .inl rfl
    · omega
  exact hn.imp_left fun h0 ↦ ⟨h0, hnone h0⟩

/-- The entries after one of them has been written. -/
theorem Sound.writeEntry_entry (hn : n = dirEntrySize) (he : DirEntry.decode e.encode = e)
    (k' : Nat) : rootEntry fs'.device k' = if k' = k then e else rootEntry fs.device k' := by
  have hnode : inodeAt fs'.device rootDirSector = inodeAt fs.device rootDirSector :=
    inodeAt_congr (h.writeEntry_live hw live_rootDir)
  have hbytes := hw.bytes
  simp only [hn, dirEntrySize] at hbytes
  by_cases hkk : k' = k
  · subst hkk
    rw [if_pos rfl, ← he, rootEntry, hnode]
    refine DirEntry.decode_congr fun i hi ↦ ?_
    simp only [dirEntrySize] at hi ⊢
    rw [hbytes, if_pos (by omega), Nat.add_sub_cancel_left]
  · rw [if_neg hkk, rootEntry, rootEntry, hnode]
    refine DirEntry.decode_congr fun i hi ↦ ?_
    simp only [dirEntrySize] at hi ⊢
    rw [hbytes, if_neg (by omega)]

/-- **An entry is written**: one that is not in use, or one for an inode that is in nobody's use. -/
theorem Sound.setEntry (hn : n = dirEntrySize) (he : DirEntry.decode e.encode = e)
    (hnew : e.inUse = true → fs.Nameable e.inodeSector) : Sound fs' refs held := by
  have hentry := h.writeEntry_entry hw hn he
  have hlive : ∀ t, fs.Live t → fs'.device.data t = fs.device.data t :=
    fun t ↦ h.writeEntry_live hw
  have hlisted : ∀ t, Listed fs'.device t →
      e.inUse = true ∧ e.inodeSector = t ∨ Listed fs.device t := by
    rintro t ⟨k', hk', huse, hsec⟩
    rw [hentry] at huse hsec
    by_cases hkk : k' = k
    · rw [if_pos hkk] at huse hsec
      exact .inl ⟨huse, hsec⟩
    · rw [if_neg hkk] at huse hsec
      exact .inr ⟨k', hk', huse, hsec⟩
  have hdisk : DiskOk fs.device fs.freeMap
      fun t ↦ e.inUse = true ∧ t = e.inodeSector ∨ fs.Live t := by
    cases huse : e.inUse with
    | false => exact h.disk.mono fun t ht ↦ ht.resolve_left (by simp)
    | true =>
      have hins := h.disk.insert (hnew huse).valid fun t x hl hx ↦ (hnew huse).fresh x hx t hl
      exact hins.mono fun t ht ↦ ht.imp_left And.right
  have hsame : ∀ t, e.inUse = true ∧ t = e.inodeSector ∨ fs.Live t →
      fs'.device.data t = fs.device.data t := by
    rintro t (⟨huse, rfl⟩ | hl)
    · exact h.writeEntry_other hw fun hx ↦ (hnew huse).not_inFoot live_rootDir (.inr hx)
    · exact hlive t hl
  have hroot := inodeAt_congr (hlive _ live_rootDir)
  have hshows : ∀ t v, fs.Live t → 2 ≤ t → Shows fs.device t v → Shows fs'.device t v := by
    rintro t v hl ht ⟨hnode, hbytes⟩
    refine ⟨(inodeAt_congr (hlive t hl)).trans hnode, fun pos hpos ↦ ?_⟩
    rw [← hbytes pos hpos, fileByte, fileByte, h.writeEntry_other hw]
    intro hin
    rw [← hnode] at hpos hin
    have heq := h.disk.disjoint t _ _ hl live_rootDir (.inr ((h.valid hl).inData hpos)) (.inr hin)
    rw [heq] at ht
    exact absurd ht (by decide)
  have hsize := hw.device_size
  obtain ⟨oracle, device, rfl⟩ := hw.rest
  refine ⟨?_, ⟨?_, ?_, ?_⟩, h.heap.congr rfl rfl rfl rfl, fun id inode hi ↦ ?_,
    fun id inode hi hr ↦ ?_, h.ref, h.mapFile, fun f v hf ↦ ?_⟩
  · refine (hdisk.congr hsize rfl hsame fun t x ht hx ↦ (hdisk.valid t ht).marked x hx).mono ?_
    rintro t (h0 | h1 | hl | hat)
    · exact .inr (.inl h0)
    · exact .inr (.inr (.inl h1))
    · exact (hlisted t hl).imp (fun h ↦ ⟨h.1, h.2.symm⟩) fun hl' ↦ .inr (.inr (.inl hl'))
    · exact .inr (.inr (.inr (.inr hat)))
  · rw [hroot]
    exact h.dir.length
  · intro t hl
    rcases hlisted t hl with ⟨huse, rfl⟩ | hl'
    · exact (hnew huse).two_le
    · exact h.dir.two_le t hl'
  · intro k1 hk1 k2 hk2 hu1 hu2 heq
    rw [hentry] at hu1 hu2
    rw [hentry, hentry] at heq
    -- The entry that is written names an inode that no other entry names.
    by_cases h₁ : k1 = k <;> by_cases h2 : k2 = k <;>
      simp only [h₁, h2, if_true, if_false] at hu1 hu2 heq
    · rw [h₁, h2]
    · exact absurd (.inr (.inr (.inl ⟨k2, hk2, hu2, heq.symm⟩))) (hnew hu1).not_live
    · exact absurd (.inr (.inr (.inl ⟨k1, hk1, hu1, heq⟩))) (hnew hu2).not_live
    · exact h.dir.inj k1 hk1 k2 hk2 hu1 hu2 heq
  · rw [h.data id inode hi]
    exact (inodeAt_congr (hlive _ (h.inodeOk hi).live)).symm
  · refine ⟨(h.removed id inode hi hr).1, fun hl ↦ ?_⟩
    rcases hlisted _ hl with ⟨huse, hsec⟩ | hl'
    · exact (hnew huse).not_live (hsec ▸ (h.inodeOk hi).live)
    · exact (h.removed id inode hi hr).2 hl'
  · obtain ⟨file, t, hfile, hat, ht, hv⟩ := h.files f v hf
    exact ⟨file, t, hfile, hat, ht, hshows t v hat.live ht hv⟩

end

/-- `inode_write_at` of an entry. -/
theorem writeEntry_spec (h : Sound fs refs held) (hd : fs.At dir rootDirSector) (e : DirEntry)
    (k : Nat) : Returns (fs.inodeWriteAt dir e.encode dirEntrySize (dirEntrySize * k)) fun r ↦
      Wrote fs (inodeAt fs.device rootDirSector) e.encode dirEntrySize (dirEntrySize * k) r.1
        r.2 := by
  obtain ⟨inode, hi, hsec⟩ := hd
  have hdata : inode.data = inodeAt fs.device rootDirSector := hsec ▸ (h.inodeOk hi).data
  rw [← hdata]
  exact inodeWriteAt_wrote hi (hdata ▸ (h.valid live_rootDir).onDevice)

/-! ## Adding and removing -/

theorem length_strlcpyTo {old : List UInt8} (hold : old.length = nameMax + 1)
    (hname : name.length ≤ nameMax) : (strlcpyTo old name).length = nameMax + 1 := by
  simp only [strlcpyTo, length_append, length_cons, length_drop, hold]
  omega

theorem length_decode_name (b : Buffer) : (DirEntry.decode b).name.length = nameMax + 1 := by
  simp [DirEntry.decode]

section

variable (h : Sound fs refs held)

include h

/-- **`dir_add`** names an inode that is in nobody's use, or changes nothing but perhaps the memory
that is left. -/
theorem dirAdd_spec (hd : fs.At dir rootDirSector) (hs : fs.Nameable s) :
    Returns (fs.dirAdd dir name s) fun r ↦
      Sound r.2 refs held ∧ (r.1 = false → Same fs r.2 ∧ r.2.freeMap = fs.freeMap) := by
  rw [dirAdd]
  split
  · exact .pure ⟨h, fun _ ↦ ⟨.refl fs, rfl⟩⟩
  next hname =>
  refine Returns.bind (lookup_spec h hd) ?_
  rintro ⟨found, fs1⟩ ⟨⟨oracle, hfs1⟩, -⟩
  dsimp only at hfs1 ⊢
  subst hfs1
  have h1 := h.setOracle oracle
  split
  · exact .pure ⟨h1, fun _ ↦ ⟨.setOracle fs oracle, rfl⟩⟩
  refine Returns.bind (freeSlotLoop_spec (k := 0) h1 hd _ (Nat.zero_le _)) ?_
  rintro ⟨ofs, buffer, fs2⟩ ⟨⟨oracle2, hfs2⟩, k, hk, rfl⟩
  subst hfs2
  have h2 := h.setOracle oracle2
  refine Returns.bind (writeEntry_spec h2 hd _ k) ?_
  rintro ⟨n, fs3⟩ hw
  have hlen : name.length ≤ nameMax := by
    rw [not_or] at hname
    exact Nat.not_lt.mp hname.2
  rcases h2.writeEntry_cases hw hk with ⟨rfl, hsame, hmap⟩ | ⟨rfl, hk'⟩
  · refine .pure ⟨h2.keep hsame fun x hx ↦ hmap ▸ hx, fun _ ↦ ⟨?_, hmap⟩⟩
    exact (Same.setOracle fs oracle2).trans h hsame
  · refine .pure ⟨h2.setEntry hw rfl (DirEntry.decode_encode ?_ ?_) fun _ ↦ ?_, fun hf ↦ ?_⟩
    · exact Nat.lt_trans hs.valid.sector h.disk.small
    · exact length_strlcpyTo (length_decode_name _) hlen
    · exact ⟨hs.valid, hs.fresh⟩
    · simp at hf

/-- The inode of an entry that has been cleared is not listed any more. -/
theorem Sound.not_listed_clearEntry {e : DirEntry} (hk : k < 16)
    (he : e = rootEntry fs.device k) (huse : e.inUse = true)
    (hw : Wrote fs (inodeAt fs.device rootDirSector) { e with inUse := false }.encode dirEntrySize
      (dirEntrySize * k) n fs') (hn : n = dirEntrySize)
    (hdec : DirEntry.decode { e with inUse := false }.encode = { e with inUse := false }) :
    ¬ Listed fs'.device e.inodeSector := by
  rintro ⟨k', hk', huse', hsec⟩
  rw [h.writeEntry_entry hw hn hdec] at huse' hsec
  by_cases hkk : k' = k
  · rw [if_pos hkk] at huse'
    cases huse'
  · rw [if_neg hkk] at huse' hsec
    subst he
    exact hkk (h.dir.inj k' hk' k hk huse' huse hsec)

/-- `inode_remove`, of an inode that is not listed. -/
theorem inodeRemove_spec {id : Nat} (hat : fs.At id s) (htwo : 2 ≤ s)
    (hlisted : ¬ Listed fs.device s) :
    Returns (fs.inodeRemove id) fun fs' ↦ Sound fs' refs held := by
  obtain ⟨inode, hi, rfl⟩ := hat
  have hok := h.inodeOk hi
  simp only [inodeRemove, hi, some_bind]
  exact .pure (h.setInode hi rfl ⟨hok.live, hok.data, fun _ ↦ ⟨htwo, hlisted⟩⟩
    (h.heap.setRemoved hi) h.ref)

/-- **`dir_remove`** clears the entry, and the inode goes when its last user closes it. -/
theorem dirRemove_spec (hd : (dir, rootDirSector) ∈ refs) :
    Returns (fs.dirRemove dir name) fun r ↦ Sound r.2 refs held := by
  rw [dirRemove]
  refine Returns.bind (lookup_spec h (h.ref _ hd)) ?_
  rintro ⟨found, fs1⟩ ⟨⟨oracle, hfs1⟩, hfound⟩
  subst hfs1
  have h1 := h.setOracle oracle
  rcases found with - | ⟨e, ofs⟩
  · exact .pure h1
  obtain ⟨k, hk, rfl, he, huse⟩ := hfound e ofs rfl
  have hl : Listed fs.device e.inodeSector := ⟨k, hk, he ▸ huse, he ▸ rfl⟩
  have hdec : DirEntry.decode { e with inUse := false }.encode = { e with inUse := false } := by
    subst he
    exact DirEntry.decode_encode (le32_lt _ _)
      (show (rootEntry fs.device k).name.length = nameMax + 1 from length_decode_name _)
  refine Returns.bind (inodeOpen_spec h1 (.inr (.inr (.inl hl)))) ?_
  rintro ⟨inode, fs2⟩ ⟨hdev, hmap, hopen, hnone⟩
  cases inode with
  | none => exact .pure (hnone rfl)
  | some inode =>
    have h2 := hopen inode rfl
    rw [← show fs2.device = fs.device from hdev] at he
    refine Returns.bind (writeEntry_spec h2 (h2.ref _ (mem_cons_of_mem _ hd)) _ k) ?_
    rintro ⟨n, fs3⟩ hw
    dsimp only
    split
    · next hn =>
      rcases h2.writeEntry_cases hw (Nat.le_of_lt hk) with ⟨-, hsame, hmap'⟩ | ⟨hn', -⟩
      · refine Returns.bind (inodeClose_spec (h2.keep hsame fun x hx ↦ hmap' ▸ hx)) ?_
        exact fun fs4 h4 ↦ .pure h4
      · exact absurd hn' hn
    · next hn =>
      have h3 := h2.setEntry hw (not_not.mp hn) hdec nofun
      have hgone := h2.not_listed_clearEntry hk he huse hw (not_not.mp hn) hdec
      refine Returns.bind (inodeRemove_spec h3 (h3.ref _ mem_cons_self)
        (h.dir.two_le _ hl) hgone) fun fs4 h4 ↦ Returns.bind (inodeClose_spec h4) ?_
      exact fun fs5 h5 ↦ .pure h5

/-! ## The functions of `filesys.c` -/

/-- **`dir_open_root`** opens the root directory, unless there is no memory. -/
theorem dirOpenRoot_spec : Returns fs.dirOpenRoot fun r ↦
      (∀ dir, r.1 = some dir → Sound r.2 ((dir, rootDirSector) :: refs) held) ∧
      (r.1 = none → Sound r.2 refs held) := by
  refine Returns.bind (inodeOpen_spec h live_rootDir) ?_
  rintro ⟨inode, fs1⟩ ⟨-, -, hopen, hnone⟩
  obtain ⟨ok, oracle, hmalloc, -⟩ := fs1.malloc_cases
  simp only [dirOpen, hmalloc]
  cases inode with
  | none => exact .pure ⟨nofun, fun _ ↦ (hnone rfl).setOracle oracle⟩
  | some inode =>
    have h1 := (hopen inode rfl).setOracle oracle
    cases ok with
    | true =>
      refine .pure ⟨?_, nofun⟩
      rintro _ ⟨⟩
      exact h1
    | false => exact Returns.bind (inodeClose_spec h1) fun fs2 h2 ↦ .pure ⟨nofun, fun _ ↦ h2⟩

end

/-- The end of `filesys_create`: the sector is released if something has failed. -/
theorem createDone_spec {success : Bool} (h : Sound fs ((dir, rootDirSector) :: refs) held)
    (hfail : success = false → s < fs.device.size ∧ fs.freeMap.bit s = true ∧ fs.Fresh s) :
    Returns (do
      let fs ← if !success && s != 0 then fs.freeMapRelease s 1 else some fs
      return (success, ← fs.dirClose dir)) fun r : Bool × Fs ↦ Sound r.2 refs held := by
  have hclose : ∀ {fs'}, Sound fs' ((dir, rootDirSector) :: refs) held →
      Returns (do return (success, ← fs'.dirClose dir)) fun r : Bool × Fs ↦ Sound r.2 refs held :=
    fun h' ↦ Returns.bind (inodeClose_spec h') fun fs'' h'' ↦ .pure h''
  split
  · next hc =>
    obtain ⟨hsize, hmark, hfresh⟩ := hfail (by simp_all)
    have heq : ∀ x, s ≤ x → x < s + 1 → x = s := by omega
    refine Returns.bind (freeMapRelease_spec h hsize ?_ ?_) fun fs' hfs' ↦ hclose hfs'.sound
    · exact fun x hle hlt ↦ heq x hle hlt ▸ hmark
    · exact fun x hle hlt ↦ heq x hle hlt ▸ hfresh
  · exact hclose h

section

variable (h : Sound fs refs held)

include h

/-- **`filesys_create`** never panics, for a size that is an `off_t`. -/
theorem filesysCreate_spec {size : Int} (h0 : 0 ≤ size)
    (hlt : size < 2 ^ 31) : Returns (fs.filesysCreate name size) fun r ↦ Sound r.2 refs held := by
  rw [filesysCreate]
  refine Returns.bind (dirOpenRoot_spec h) ?_
  rintro ⟨dir, fs1⟩ ⟨hopen, hnone⟩
  cases dir with
  | none => exact .pure (hnone rfl)
  | some dir =>
    have h1 := hopen dir rfl
    refine Returns.bind (freeMapAllocate_spec h1 1) ?_
    rintro ⟨s, fs2⟩ hall
    cases s with
    | none => exact Returns.bind (inodeClose_spec hall.sound) fun fs3 h3 ↦ .pure h3
    | some s =>
      have hclear := hall.clear s rfl s (Nat.le_refl _) (Nat.lt_succ_self _)
      have hmark := hall.set s rfl s (Nat.le_refl _) (Nat.lt_succ_self _)
      have hfresh := (hall.same.fresh_iff h1).mpr (h1.fresh_of_unmarked hclear)
      have hsize : s < fs2.device.size := hall.same.size ▸ hall.range s rfl
      refine Returns.bind (inodeCreate_spec hall.sound hsize hmark hfresh h0 hlt) ?_
      rintro ⟨created, fs3⟩ hcreated
      -- Whatever fails, the sector is still marked and in nobody's use.
      have hsize3 : s < fs3.device.size := hcreated.same.size ▸ hsize
      have hmark3 : fs3.freeMap.bit s = true := hcreated.keep s hmark
      have hfresh3 : fs3.Fresh s := (hcreated.same.fresh_iff hall.sound).mpr hfresh
      cases created with
      | false => exact createDone_spec hcreated.sound fun _ ↦ ⟨hsize3, hmark3, hfresh3⟩
      | true =>
        have hdir := hcreated.sound.ref _ mem_cons_self
        refine Returns.bind
          (dirAdd_spec hcreated.sound hdir ⟨hcreated.valid rfl, hcreated.fresh rfl⟩) ?_
        rintro ⟨success, fs4⟩ ⟨h4, hfail⟩
        refine createDone_spec h4 fun hf ↦ ?_
        obtain ⟨hsame, hmap⟩ := hfail hf
        exact ⟨hsame.size ▸ hsize3, hmap ▸ hmark3, (hsame.fresh_iff hcreated.sound).mpr hfresh3⟩

/-- For a negative size `filesys_create` panics in `inode_create`, unless it does not get there. -/
theorem filesysCreate_of_neg {size : Int} {r : Bool × Fs} (hneg : size < 0)
    (hr : fs.filesysCreate name size = some r) : Sound r.2 refs held := by
  simp only [filesysCreate, bind_eq_some] at hr
  obtain ⟨⟨dir, fs1⟩, hdir, hr⟩ := hr
  obtain ⟨hopen, hnone⟩ := (dirOpenRoot_spec h).of_eq hdir
  cases dir with
  | none =>
    cases hr
    exact hnone rfl
  | some dir =>
    simp only [bind_eq_some] at hr
    obtain ⟨⟨s, fs2⟩, hall, hr⟩ := hr
    have hsound := ((freeMapAllocate_spec (hopen dir rfl) 1).of_eq hall).sound
    cases s with
    | none =>
      simp only [dirClose, bind_eq_some] at hr
      obtain ⟨fs3, hclose, heq⟩ := hr
      cases heq
      exact (inodeClose_spec hsound).of_eq hclose
    | some s => simp [inodeCreate, assert, Int.not_le.mpr hneg] at hr

/-- **`filesys_remove`** never panics. -/
theorem filesysRemove_spec :
    Returns (fs.filesysRemove name) fun r ↦ Sound r.2 refs held := by
  rw [filesysRemove]
  refine Returns.bind (dirOpenRoot_spec h) ?_
  rintro ⟨dir, fs1⟩ ⟨hopen, hnone⟩
  cases dir with
  | none => exact .pure (hnone rfl)
  | some dir =>
    refine Returns.bind (dirRemove_spec (hopen dir rfl) mem_cons_self) ?_
    rintro ⟨success, fs2⟩ h2
    exact Returns.bind (inodeClose_spec h2) fun fs3 h3 ↦ .pure h3

/-- `dir_lookup` opens an inode that the root directory names. -/
theorem dirLookup_spec (hd : fs.At dir rootDirSector) :
    Returns (fs.dirLookup dir name) fun r ↦
      (∀ id, r.1 = some id → ∃ s, 2 ≤ s ∧ Sound r.2 ((id, s) :: refs) held) ∧
      (r.1 = none → Sound r.2 refs held) := by
  refine Returns.bind (lookup_spec h hd) ?_
  rintro ⟨found, fs1⟩ ⟨⟨oracle, hfs1⟩, hfound⟩
  subst hfs1
  have h1 := h.setOracle oracle
  rcases found with - | ⟨e, ofs⟩
  · exact .pure ⟨nofun, fun _ ↦ h1⟩
  obtain ⟨k, hk, -, he, huse⟩ := hfound e ofs rfl
  have hl : Listed fs.device e.inodeSector := ⟨k, hk, he ▸ huse, he ▸ rfl⟩
  refine (inodeOpen_spec h1 (.inr (.inr (.inl hl)))).mono ?_
  rintro r ⟨-, -, hopen, hnone⟩
  exact ⟨fun id hid ↦ ⟨_, h.dir.two_le _ hl, hopen id hid⟩, hnone⟩

/-- **`filesys_open`** never panics, and a file that it returns is a new one. -/
theorem filesysOpen_spec : Returns (fs.filesysOpen name) fun r ↦
      (∀ f, r.1 = some f → (∀ v, ¬ held f v) ∧
        ∃ s, Sound r.2 refs fun g v ↦ g = f ∧ Shows r.2.device s v ∨ held g v) ∧
      (r.1 = none → Sound r.2 refs held) := by
  rw [filesysOpen]
  refine Returns.bind (dirOpenRoot_spec h) ?_
  rintro ⟨dir, fs1⟩ ⟨hopen, hnone⟩
  have hnull : ∀ {fs'}, Sound fs' refs held → Returns (fs'.fileOpen none) fun r ↦
      (∀ f, r.1 = some f → (∀ v, ¬ held f v) ∧
        ∃ s, Sound r.2 refs fun g v ↦ g = f ∧ Shows r.2.device s v ∨ held g v) ∧
      (r.1 = none → Sound r.2 refs held) := by
    intro fs' h'
    obtain ⟨ok, oracle, hmalloc, -⟩ := fs'.malloc_cases
    simp only [fileOpen, hmalloc]
    exact .pure ⟨by simp, fun _ ↦ h'.setOracle oracle⟩
  cases dir with
  | none => exact hnull (hnone rfl)
  | some dir =>
    have h1 := hopen dir rfl
    refine Returns.bind (dirLookup_spec h1 (h1.ref _ mem_cons_self)) ?_
    rintro ⟨inode, fs2⟩ ⟨hfound, hnot⟩
    cases inode with
    | none => exact Returns.bind (inodeClose_spec (hnot rfl)) fun fs3 h3 ↦ hnull h3
    | some inode =>
      obtain ⟨s, htwo, h2⟩ := hfound inode rfl
      refine Returns.bind (inodeClose_spec (h2.perm (.swap ..))) fun fs3 h3 ↦ ?_
      refine (fileOpen_spec h3 htwo).mono fun r hr ↦ ⟨fun f hf ↦ ?_, hr.2⟩
      exact ⟨(hr.1 f hf).1, s, (hr.1 f hf).2⟩

end

end Fs

end Pintos
