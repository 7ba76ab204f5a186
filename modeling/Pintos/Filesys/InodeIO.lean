import Pintos.Logic.Returns
import Pintos.Filesys.State

/-!
# Reading and writing the bytes of an inode

`inode_read_at` and `inode_write_at` of `filesys/inode.c`.  Both go through the file sector by
sector.  A whole sector is transferred directly; for a part of one they need a bounce buffer, and
stop short if there is no memory for it.

`Fs.fileByte` is the byte of a file at a position.  Reading returns such bytes, and writing changes
them and nothing else (`Fs.inodeReadAt_spec`, `Fs.inodeWriteAt_spec`), as long as the data sectors
are on the device.
-/

set_option autoImplicit false

namespace Pintos

open Function

/-- `memcpy` of `n` bytes. -/
def memcpy (dst : Buffer) (at_ : Nat) (src : Buffer) (from_ n : Nat) : Buffer := fun i ↦
  if at_ ≤ i ∧ i < at_ + n then src (from_ + (i - at_)) else dst i

/-- `byte_to_sector`, for a position before the end of the file. -/
def byteToSector (data : InodeDisk) (pos : Nat) : Nat := data.start + pos / blockSectorSize

variable {oracle : List Bool} {n id chunk : Nat} {inode : Inode} {bounce' : Bool}

namespace Fs

/-- There is a bounce buffer already, or `malloc` finds memory for one. -/
def getBounce (fs : Fs) (bounce : Bool) : Bool × Fs := if bounce then (true, fs) else fs.malloc

theorem getBounce_cases (fs : Fs) (bounce : Bool) :
    (∃ oracle, fs.getBounce bounce = (true, { fs with oracle }) ∧ (fs.oracle = [] → oracle = [])) ∨
      bounce = false ∧ fs.oracle ≠ [] ∧
        ∃ oracle, fs.getBounce bounce = (false, { fs with oracle }) := by
  cases bounce with
  | true => exact .inl ⟨fs.oracle, rfl, id⟩
  | false =>
    obtain ⟨ok, oracle, heq, hquiet⟩ := fs.malloc_cases
    cases ok with
    | true => exact .inl ⟨oracle, heq, fun h ↦ (hquiet h).2⟩
    | false => exact .inr ⟨rfl, fun h ↦ (nomatch (hquiet h).1), oracle, heq⟩

/-- The loop of `inode_read_at`; `bounce` says whether there is a bounce buffer already. -/
def readLoop (data : InodeDisk) :
    Nat → Bool → Fs → Buffer → Nat → Nat → Nat → Kernel (Nat × Buffer × Fs)
  | 0, _, fs, buffer, _, _, bytesRead => some (bytesRead, buffer, fs)
  | fuel + 1, bounce, fs, buffer, size, offset, bytesRead =>
    let sectorOfs := offset % blockSectorSize
    let chunk := chunkSize size offset data.length.toNat
    if chunk = 0 then some (bytesRead, buffer, fs)
    else if sectorOfs = 0 ∧ chunk = blockSectorSize then do
      let sector ← fs.device.read (byteToSector data offset)
      readLoop data fuel bounce fs (memcpy buffer bytesRead sector 0 chunk) (size - chunk)
        (offset + chunk) (bytesRead + chunk)
    else
      match fs.getBounce bounce with
      | (false, fs) => some (bytesRead, buffer, fs)
      | (true, fs) => do
        let sector ← fs.device.read (byteToSector data offset)
        readLoop data fuel true fs (memcpy buffer bytesRead sector sectorOfs chunk) (size - chunk)
          (offset + chunk) (bytesRead + chunk)

/-- `inode_read_at`: the number of bytes read, and the buffer. -/
def inodeReadAt (fs : Fs) (id : Nat) (buffer : Buffer) (size : Int) (offset : Nat) :
    Kernel (Nat × Buffer × Fs) := do
  let inode ← fs.inodes id
  readLoop inode.data size.toNat false fs buffer size.toNat offset 0

/-- The loop of `inode_write_at`. -/
def writeLoop (data : InodeDisk) (buffer : Buffer) :
    Nat → Bool → Fs → Nat → Nat → Nat → Kernel (Nat × Fs)
  | 0, _, fs, _, _, bytesWritten => some (bytesWritten, fs)
  | fuel + 1, bounce, fs, size, offset, bytesWritten =>
    let sectorOfs := offset % blockSectorSize
    let chunk := chunkSize size offset data.length.toNat
    if chunk = 0 then some (bytesWritten, fs)
    else if sectorOfs = 0 ∧ chunk = blockSectorSize then do
      let device ← fs.device.write (byteToSector data offset) fun i ↦ buffer (bytesWritten + i)
      writeLoop data buffer fuel bounce { fs with device } (size - chunk) (offset + chunk)
        (bytesWritten + chunk)
    else
      match fs.getBounce bounce with
      | (false, fs) => some (bytesWritten, fs)
      | (true, fs) => do
        -- The rest of the sector is kept.
        let old ← if sectorOfs > 0 ∨ chunk < blockSectorSize - sectorOfs then
            fs.device.read (byteToSector data offset)
          else some fun _ ↦ 0
        let device ← fs.device.write (byteToSector data offset)
          (memcpy old sectorOfs buffer bytesWritten chunk)
        writeLoop data buffer fuel true { fs with device } (size - chunk) (offset + chunk)
          (bytesWritten + chunk)

/-- `inode_write_at`: the number of bytes written. -/
def inodeWriteAt (fs : Fs) (id : Nat) (buffer : Buffer) (size : Int) (offset : Nat) :
    Kernel (Nat × Fs) := do
  let inode ← fs.inodes id
  if inode.denyWriteCnt ≠ 0 then return (0, fs)
  writeLoop inode.data buffer size.toNat false fs size.toNat offset 0

/-! ## What they do -/

/-- The byte of a file at a position. -/
def fileByte (device : Block) (data : InodeDisk) (pos : Nat) : UInt8 :=
  device.data (byteToSector data pos) (pos % blockSectorSize)

/-- The data sectors are on the device. -/
def OnDevice (size : Nat) (data : InodeDisk) : Prop :=
  ∀ pos, pos < data.length.toNat → byteToSector data pos < size

/-- What a transfer of `size` bytes from `offset` may do: it is cut off at the end of the file, and
it stops short only for want of a bounce buffer.  `oracle` and `oracle'` are the answers of
`malloc` before and after. -/
structure Transfer (length size offset : Nat) (bounce : Bool) (oracle oracle' : List Bool)
    (n : Nat) : Prop where
  le : n ≤ min size (length - offset)
  full : bounce = true ∨ oracle = [] → n = min size (length - offset)
  quiet : oracle = [] → oracle' = []
  /-- Within one sector all or nothing is transferred. -/
  atomic : offset % blockSectorSize + size ≤ blockSectorSize →
    n = 0 ∨ n = min size (length - offset)

section

variable {length size offset chunk : Nat}

theorem chunkSize_spec (h : chunkSize size offset length = chunk) (h0 : chunk ≠ 0) :
    chunk ≤ size ∧ offset + chunk ≤ length ∧
      offset % blockSectorSize + chunk ≤ blockSectorSize ∧ 0 < chunk := by
  simp only [chunkSize, blockSectorSize] at h
  simp only [blockSectorSize]
  omega

/-- Nothing to transfer: the end of the request or of the file. -/
theorem Transfer.stop {bounce : Bool} (h : chunkSize size offset length = 0) :
    Transfer length size offset bounce oracle oracle 0 where
  le := Nat.zero_le _
  full _ := by
    simp only [chunkSize, blockSectorSize] at h
    omega
  quiet := id
  atomic _ := .inl rfl

/-- No memory for the bounce buffer. -/
theorem Transfer.break {oracle' : List Bool} (h : oracle ≠ []) :
    Transfer length size offset false oracle oracle' 0 where
  le := Nat.zero_le _
  full hf := absurd hf (by simp [h])
  quiet hq := absurd hq h
  atomic _ := .inl rfl

/-- One chunk, and then the rest. -/
theorem Transfer.next {bounce : Bool} {oracle' oracle'' : List Bool}
    (hchunk : chunkSize size offset length = chunk) (h0 : chunk ≠ 0)
    (hb : bounce = true → bounce' = true) (ho : oracle = [] → oracle' = [])
    (h : Transfer length (size - chunk) (offset + chunk) bounce' oracle' oracle'' n) :
    Transfer length size offset bounce oracle oracle'' (chunk + n) := by
  obtain ⟨hsize, hlen, hsec, hpos⟩ := chunkSize_spec hchunk h0
  have hle := h.le
  refine ⟨by omega, fun hf ↦ ?_, fun hq ↦ h.quiet (ho hq), fun hat ↦ .inr ?_⟩
  · have := h.full (hf.imp hb ho)
    omega
  · simp only [chunkSize, blockSectorSize] at hchunk hat
    omega

end

variable {fs : Fs} {data : InodeDisk} {fuel bytes size offset : Nat} {bounce : Bool}
  {buffer : Buffer}

/-- The bytes of a chunk are in one sector. -/
theorem fileByte_chunk {device : Block} {i : Nat}
    (hsec : offset % blockSectorSize + chunk ≤ blockSectorSize) (hi : i < chunk) :
    fileByte device data (offset + i) =
      device.data (byteToSector data offset) (offset % blockSectorSize + i) := by
  simp only [fileByte, byteToSector, blockSectorSize] at hsec ⊢
  have hdiv : (offset + i) / 512 = offset / 512 := by omega
  have hmod : (offset + i) % 512 = offset % 512 + i := by omega
  rw [hdiv, hmod]

/-- What the loop of `inode_read_at` returns: the bytes of the file, after the `bytes` that have
been read before. -/
def ReadSpec (fs : Fs) (data : InodeDisk) (bounce : Bool) (buffer : Buffer)
    (size offset bytes : Nat) (r : Nat × Buffer × Fs) : Prop :=
  ∃ n oracle, r.1 = bytes + n ∧ r.2.2 = { fs with oracle } ∧
    Transfer data.length.toNat size offset bounce fs.oracle oracle n ∧
    ∀ i, r.2.1 i = if bytes ≤ i ∧ i < bytes + n then
      fileByte fs.device data (offset + (i - bytes)) else buffer i

theorem ReadSpec.none (h : Transfer data.length.toNat size offset bounce
    fs.oracle oracle 0) : ReadSpec fs data bounce buffer size offset bytes
      (bytes, buffer, { fs with oracle }) :=
  ⟨0, oracle, rfl, rfl, h, fun i ↦ by rw [if_neg (by omega)]⟩

/-- One round of the loop. -/
theorem ReadSpec.next {r : Nat × Buffer × Fs}
    (hchunk : chunkSize size offset data.length.toNat = chunk) (h0 : chunk ≠ 0)
    (hb : bounce = true → bounce' = true) (ho : fs.oracle = [] → oracle = [])
    (h : ReadSpec { fs with oracle } data bounce'
      (memcpy buffer bytes (fs.device.data (byteToSector data offset)) (offset % blockSectorSize)
        chunk) (size - chunk) (offset + chunk) (bytes + chunk) r) :
    ReadSpec fs data bounce buffer size offset bytes r := by
  obtain ⟨hsize, hlen, hsec, hpos⟩ := chunkSize_spec hchunk h0
  obtain ⟨n, oracle', hn, hfs, htr, hbuf⟩ := h
  refine ⟨chunk + n, oracle', by omega, hfs, htr.next hchunk h0 hb ho, fun i ↦ ?_⟩
  rw [hbuf i]
  by_cases hrest : bytes + chunk ≤ i ∧ i < bytes + chunk + n
  · rw [if_pos hrest, if_pos (by omega)]
    congr 1
    omega
  rw [if_neg hrest, memcpy]
  by_cases hfirst : bytes ≤ i ∧ i < bytes + chunk
  · rw [if_pos hfirst, if_pos (by omega), fileByte_chunk hsec (by omega)]
  · rw [if_neg hfirst, if_neg (by omega)]

theorem readLoop_spec (hdev : OnDevice fs.device.size data) (hfuel : size ≤ fuel) :
    Returns (readLoop data fuel bounce fs buffer size offset bytes)
      (ReadSpec fs data bounce buffer size offset bytes) := by
  induction fuel generalizing fs bounce buffer size offset bytes with
  | zero =>
    obtain rfl : size = 0 := by omega
    exact .pure (.none (.stop (by simp [chunkSize])))
  | succ fuel ih =>
    rw [readLoop]
    generalize hchunk : chunkSize size offset data.length.toNat = chunk
    by_cases h0 : chunk = 0
    · rw [if_pos h0]
      exact .pure (.none (.stop (hchunk.trans h0)))
    obtain ⟨hsize, hlen, hsec, hpos⟩ := chunkSize_spec hchunk h0
    have hrest : size - chunk ≤ fuel := by omega
    have hread := Block.read_eq_some.mpr ⟨hdev offset (by omega), rfl⟩
    rw [if_neg h0]
    split
    · next hwhole =>
      rw [hread, ← hwhole.1]
      refine Returns.mono (ih hdev hrest) fun r hr ↦ ?_
      exact hr.next hchunk h0 id id
    · rcases fs.getBounce_cases bounce with ⟨oracle, hb, ho⟩ | ⟨rfl, hne, oracle, hb⟩
      · rw [hb]
        dsimp only
        rw [hread]
        refine Returns.mono (ih ?_ hrest) fun r hr ↦ ?_
        · exact hdev
        exact hr.next hchunk h0 (fun _ ↦ rfl) ho
      · rw [hb]
        exact .pure (.none (.break hne))

/-- **`inode_read_at`** returns bytes of the file, as many as there are, and changes nothing. -/
theorem inodeReadAt_spec (hid : fs.inodes id = some inode)
    (hdev : OnDevice fs.device.size inode.data) : Returns (fs.inodeReadAt id buffer n offset)
      (ReadSpec fs inode.data false buffer n offset 0) := by
  rw [inodeReadAt, hid]
  exact readLoop_spec hdev (Nat.le_refl _)

/-- What the loop of `inode_write_at` does: it changes bytes of the file, and only sectors they are
in. -/
def WriteSpec (fs : Fs) (data : InodeDisk) (buffer : Buffer) (bounce : Bool)
    (size offset bytes : Nat) (r : Nat × Fs) : Prop :=
  ∃ n oracle device, r.1 = bytes + n ∧ r.2 = { fs with oracle, device } ∧
    Transfer data.length.toNat size offset bounce fs.oracle oracle n ∧
    device.size = fs.device.size ∧
    (∀ s, (∀ pos, offset ≤ pos → pos < offset + n → byteToSector data pos ≠ s) →
      device.data s = fs.device.data s) ∧
    ∀ pos, fileByte device data pos = if offset ≤ pos ∧ pos < offset + n then
      buffer (bytes + (pos - offset)) else fileByte fs.device data pos

theorem WriteSpec.none (h : Transfer data.length.toNat size offset bounce
    fs.oracle oracle 0) : WriteSpec fs data buffer bounce size offset bytes
      (bytes, { fs with oracle }) :=
  ⟨0, oracle, fs.device, rfl, rfl, h, rfl, fun _ _ ↦ rfl, fun pos ↦ by rw [if_neg (by omega)]⟩

/-- One round of the loop: the sector of the chunk is written. -/
theorem WriteSpec.next {new : Sector}
    {r : Nat × Fs} (hchunk : chunkSize size offset data.length.toNat = chunk) (h0 : chunk ≠ 0)
    (hb : bounce = true → bounce' = true) (ho : fs.oracle = [] → oracle = [])
    (hnew : ∀ o < blockSectorSize, new o =
      if offset % blockSectorSize ≤ o ∧ o < offset % blockSectorSize + chunk then
        buffer (bytes + (o - offset % blockSectorSize))
      else fs.device.data (byteToSector data offset) o)
    (h : WriteSpec { fs with
        oracle
        device := ⟨fs.device.size,
          update fs.device.data (byteToSector data offset) new⟩ }
      data buffer bounce' (size - chunk) (offset + chunk) (bytes + chunk) r) :
    WriteSpec fs data buffer bounce size offset bytes r := by
  obtain ⟨hsize, hlen, hsec, hpos⟩ := chunkSize_spec hchunk h0
  obtain ⟨n, oracle', device, hn, hfs, htr, hdev, hother, hbytes⟩ := h
  refine ⟨chunk + n, oracle', device, by omega, hfs, htr.next hchunk h0 hb ho, hdev, ?_, ?_⟩
  · intro s hs
    rw [hother s fun pos hle hlt ↦ hs pos (by omega) (by omega)]
    exact update_of_ne (hs offset (Nat.le_refl _) (by omega)).symm _ _
  · intro pos
    rw [hbytes pos]
    by_cases hrest : offset + chunk ≤ pos ∧ pos < offset + chunk + n
    · rw [if_pos hrest, if_pos (by omega)]
      congr 1
      omega
    rw [if_neg hrest]
    -- The byte at `pos` after the sector of the chunk has been written.
    by_cases hin : byteToSector data pos = byteToSector data offset
    · have hdiv : pos / 512 = offset / 512 := by
        simp only [byteToSector, blockSectorSize] at hin
        omega
      simp only [fileByte, hin, update_self]
      rw [hnew _ (Nat.mod_lt _ (by decide))]
      simp only [blockSectorSize] at hsec ⊢
      by_cases hfirst : offset ≤ pos ∧ pos < offset + chunk
      · rw [if_pos (by omega), if_pos (by omega)]
        congr 1
        omega
      · rw [if_neg (by omega), if_neg (by omega)]
    · have hout : ¬ (offset ≤ pos ∧ pos < offset + (chunk + n)) := by
        simp only [byteToSector, blockSectorSize] at hin hsec
        omega
      rw [if_neg hout]
      simp only [fileByte]
      rw [update_of_ne hin]

theorem writeLoop_spec (hdev : OnDevice fs.device.size data) (hfuel : size ≤ fuel) :
    Returns (writeLoop data buffer fuel bounce fs size offset bytes)
      (WriteSpec fs data buffer bounce size offset bytes) := by
  induction fuel generalizing fs bounce size offset bytes with
  | zero =>
    obtain rfl : size = 0 := by omega
    exact .pure (.none (.stop (by simp [chunkSize])))
  | succ fuel ih =>
    rw [writeLoop]
    generalize hchunk : chunkSize size offset data.length.toNat = chunk
    by_cases h0 : chunk = 0
    · rw [if_pos h0]
      exact .pure (.none (.stop (hchunk.trans h0)))
    obtain ⟨hsize, hlen, hsec, hpos⟩ := chunkSize_spec hchunk h0
    have hon : byteToSector data offset < fs.device.size := hdev offset (by omega)
    have hread := Block.read_eq_some.mpr ⟨hon, rfl⟩
    have hwrite : ∀ new, fs.device.write (byteToSector data offset) new = some
        ⟨fs.device.size, update fs.device.data (byteToSector data offset) new⟩ :=
      fun new ↦ Block.write_eq_some.mpr ⟨hon, rfl⟩
    have hrest : size - chunk ≤ fuel := by omega
    rw [if_neg h0]
    split
    · next hwhole =>
      rw [hwrite]
      refine Returns.mono (ih ?_ hrest) fun r hr ↦ ?_
      · exact hdev
      refine WriteSpec.next hchunk h0 id id (fun o ho ↦ ?_) hr
      rw [if_pos (by omega), hwhole.1, Nat.sub_zero]
    · rcases fs.getBounce_cases bounce with ⟨oracle, hb, ho⟩ | ⟨rfl, hne, oracle, hb⟩
      · rw [hb]
        dsimp only
        rw [if_pos (by omega), hread]
        dsimp only [some_bind]
        rw [hwrite]
        refine Returns.mono (ih ?_ hrest) fun r hr ↦ ?_
        · exact hdev
        exact hr.next hchunk h0 (fun _ ↦ rfl) ho fun o _ ↦ rfl
      · rw [hb]
        exact .pure (.none (.break hne))

/-- **`inode_write_at`** changes bytes of the file, as many as there are, and nothing else. -/
theorem inodeWriteAt_spec (hid : fs.inodes id = some inode)
    (hdev : OnDevice fs.device.size inode.data) (hdeny : inode.denyWriteCnt = 0) :
    Returns (fs.inodeWriteAt id buffer n offset)
      (WriteSpec fs inode.data buffer false n offset 0) := by
  rw [inodeWriteAt, hid]
  dsimp only [some_bind]
  rw [if_neg (by simp [hdeny])]
  exact writeLoop_spec hdev (Nat.le_refl _)

/-- What `inode_write_at` does whether writing is denied or not: it has written `n` bytes, and
within one sector all of them or none. -/
structure Wrote (fs : Fs) (data : InodeDisk) (buffer : Buffer) (size offset n : Nat) (fs' : Fs) :
    Prop where
  rest : ∃ oracle device, fs' = { fs with oracle, device }
  device_size : fs'.device.size = fs.device.size
  le : n ≤ min size (data.length.toNat - offset)
  atomic : offset % blockSectorSize + size ≤ blockSectorSize →
    n = 0 ∨ n = min size (data.length.toNat - offset)
  other : ∀ s, (∀ pos, offset ≤ pos → pos < offset + n → byteToSector data pos ≠ s) →
    fs'.device.data s = fs.device.data s
  bytes : ∀ pos, fileByte fs'.device data pos = if offset ≤ pos ∧ pos < offset + n then
    buffer (pos - offset) else fileByte fs.device data pos

theorem inodeWriteAt_wrote (hid : fs.inodes id = some inode)
    (hdev : OnDevice fs.device.size inode.data) : Returns (fs.inodeWriteAt id buffer n offset)
      fun r ↦ Wrote fs inode.data buffer n offset r.1 r.2 := by
  by_cases hdeny : inode.denyWriteCnt = 0
  · refine (inodeWriteAt_spec hid hdev hdeny).mono ?_
    rintro ⟨-, -⟩ ⟨n, oracle, device, rfl, rfl, htr, hsize, hother, hbytes⟩
    rw [Nat.zero_add]
    simp only [Nat.zero_add] at hbytes
    exact ⟨⟨oracle, device, rfl⟩, hsize, htr.le, htr.atomic, hother, hbytes⟩
  · rw [inodeWriteAt, hid]
    dsimp only [some_bind]
    rw [if_pos hdeny]
    exact .pure ⟨⟨fs.oracle, fs.device, rfl⟩, rfl, Nat.zero_le _, fun _ ↦ .inl rfl, fun _ _ ↦ rfl,
      fun pos ↦ by rw [if_neg (by omega)]⟩

/-! ## A file is an array of bytes -/

/-- The number of bytes of a transfer: what is asked for, cut off at the end of the file. -/
def transferCnt (length size : Int) (offset : Nat) : Int := max 0 (min size (length - offset))

theorem transferCnt_eq {length size : Int} (h : n = min size.toNat (length.toNat - offset)) :
    (n : Int) = transferCnt length size offset := by
  simp only [transferCnt]
  omega

/-- **A file is an array of bytes of a fixed length.**  If there is memory and the data sectors are
on the device, a write changes the bytes it is asked to change, up to the end of the file; the other
bytes of the file, those after its end in the last sector and all other sectors stay.  While writing
is denied nothing is written, and a read returns the bytes that are there. -/
theorem file_byteArray {id : Nat} {inode : Inode} (hid : fs.inodes id = some inode)
    (hdev : OnDevice fs.device.size inode.data) (hmem : fs.oracle = []) (buffer : Buffer)
    (size : Int) (offset : Nat) :
    (inode.denyWriteCnt = 0 → Returns (fs.inodeWriteAt id buffer size offset) fun r ↦
      (r.1 : Int) = transferCnt inode.data.length size offset ∧
      (∃ data, r.2 = { fs with device := ⟨fs.device.size, data⟩ }) ∧
      (∀ pos, offset ≤ pos → pos < offset + r.1 →
        fileByte r.2.device inode.data pos = buffer (pos - offset)) ∧
      (∀ pos, ¬ (offset ≤ pos ∧ pos < offset + r.1) →
        fileByte r.2.device inode.data pos = fileByte fs.device inode.data pos) ∧
      ∀ s, (∀ pos < inode.data.length.toNat, byteToSector inode.data pos ≠ s) →
        r.2.device.data s = fs.device.data s) ∧
    (inode.denyWriteCnt ≠ 0 → fs.inodeWriteAt id buffer size offset = some (0, fs)) ∧
    Returns (fs.inodeReadAt id buffer size offset) fun r ↦
      (r.1 : Int) = transferCnt inode.data.length size offset ∧
      (∀ i < r.1, r.2.1 i = fileByte fs.device inode.data (offset + i)) ∧
      (∀ i, r.1 ≤ i → r.2.1 i = buffer i) ∧ r.2.2 = fs := by
  refine ⟨fun hdeny ↦ ?_, fun hdeny ↦ ?_, ?_⟩
  · refine (inodeWriteAt_spec (n := size.toNat) hid hdev hdeny).mono ?_
    rintro ⟨-, -⟩ ⟨n, oracle, device, rfl, rfl, htr, hsize, hother, hbytes⟩
    have hn := htr.full (.inr hmem)
    simp only [Nat.zero_add] at hbytes ⊢
    refine ⟨transferCnt_eq hn, ⟨device.data, ?_⟩, fun pos h₁ h₂ ↦ ?_, fun pos hout ↦ ?_,
      fun s hs ↦ hother s fun pos _ hlt ↦ hs pos (by omega)⟩
    · rw [htr.quiet hmem, ← hmem, ← hsize]
    · rw [hbytes, if_pos ⟨h₁, h₂⟩]
    · rw [hbytes, if_neg hout]
  · rw [inodeWriteAt, hid]
    exact if_pos hdeny
  · refine (inodeReadAt_spec (n := size.toNat) hid hdev).mono ?_
    rintro ⟨-, buffer', -⟩ ⟨n, oracle, rfl, rfl, htr, hbuf⟩
    have hn := htr.full (.inr hmem)
    simp only [Nat.zero_add, Nat.zero_le, true_and, Nat.sub_zero] at hbuf ⊢
    refine ⟨transferCnt_eq hn, fun i hi ↦ ?_, fun i hi ↦ ?_, ?_⟩
    · rw [hbuf, if_pos hi]
    · rw [hbuf, if_neg (by omega)]
    · rw [htr.quiet hmem, ← hmem]

/-- A write that crosses a sector and is cut off at the end of a file of 600 bytes. -/
theorem file_byteArray_end : Returns (inodeWriteAt
    { device := ⟨4, fun _ _ ↦ 0⟩, freeMap := .create 4, freeMapFile := none
      inodes := fun _ ↦ some ⟨0, 1, false, 0, ⟨1, 600, inodeMagic⟩⟩, openInodes := [0]
      files := fun _ ↦ none, next := 1, oracle := [], garbage := fun _ ↦ 0 }
    0 (fun _ ↦ 7) 100 505) fun r ↦ (r.1 : Int) = 95 ∧ ∀ pos, 505 ≤ pos → pos < 505 + r.1 →
      fileByte r.2.device ⟨1, 600, inodeMagic⟩ pos = 7 := by
  have hdev : OnDevice 4 ⟨1, 600, inodeMagic⟩ := by
    intro pos hpos
    simp only [byteToSector, blockSectorSize]
    dsimp only at hpos
    omega
  refine ((@file_byteArray _ 0 _ rfl hdev rfl (fun _ ↦ 7) 100 505).1 rfl).mono fun r hr ↦ ?_
  exact ⟨hr.1, hr.2.2.1⟩

end Fs

end Pintos
