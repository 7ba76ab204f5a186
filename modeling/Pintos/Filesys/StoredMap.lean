import Pintos.Logic.Run
import Pintos.Filesys.Format

/-!
# The free map on the device

The free map is kept in memory, and after every change it is written to its file.  If there is
memory for the bounce buffer, what is on the device is what is in memory (`Stored`), so the map that
is read back after a reboot is the one there was (`Fs.map_survives_reboot`).  Bits past the end of
the map, in the last word, are written and cleared when they are read.
-/

set_option autoImplicit false

namespace Pintos

open Option

namespace Fs

variable {fs fs' fs'' : Fs} {inode : Inode} {data : InodeDisk} {f start cnt x : Nat}

/-- The file of the free map is open, and its data sectors are on the device. -/
structure MapFile (fs : Fs) (inode : Inode) : Prop where
  opened : ∃ f file, fs.freeMapFile = some f ∧ fs.files f = some file ∧
    fs.inodes file.inode = some inode
  onDevice : OnDevice fs.device.size inode.data

/-- The whole map can be written to its file. -/
structure MapReady (fs : Fs) (inode : Inode) : Prop extends MapFile fs inode where
  size : fs.freeMap.size = fs.device.size
  length : inode.data.length = byteCnt fs.freeMap.size
  writable : inode.denyWriteCnt = 0
  memory : fs.oracle = []

/-- The map on the device is the one in memory. -/
def Stored (fs : Fs) (data : InodeDisk) : Prop := ∀ i < fs.freeMap.size,
  (fileByte fs.device data (i / 8)).toNat.testBit (i % 8) = fs.freeMap.bit i

/-- Nothing has changed but the map, in memory and on the device. -/
structure MapOnly (fs : Fs) (data : InodeDisk) (fs' : Fs) : Prop where
  rest : ∃ device freeMap oracle, fs' = { fs with device, freeMap, oracle }
  size : fs'.device.size = fs.device.size
  map_size : fs'.freeMap.size = fs.freeMap.size
  quiet : fs.oracle = [] → fs'.oracle = []
  other : ∀ x, (∀ pos < data.length.toNat, byteToSector data pos ≠ x) →
    fs'.device.data x = fs.device.data x

theorem MapOnly.setMap {b : Bitmap} (hb : b.size = fs.freeMap.size) :
    MapOnly fs data { fs with freeMap := b } :=
  ⟨⟨_, _, _, rfl⟩, rfl, hb, id, fun _ _ ↦ rfl⟩

theorem MapOnly.trans (h : MapOnly fs data fs') (h' : MapOnly fs' data fs'') :
    MapOnly fs data fs'' := by
  obtain ⟨_, _, _, heq⟩ := h.rest
  obtain ⟨_, _, _, heq'⟩ := h'.rest
  exact ⟨⟨_, _, _, by rw [heq', heq]⟩, h'.size.trans h.size, h'.map_size.trans h.map_size,
    fun ho ↦ h'.quiet (h.quiet ho), fun x hx ↦ (h'.other x hx).trans (h.other x hx)⟩

theorem MapOnly.mapFile (h : MapOnly fs data fs') (hm : MapFile fs inode) : MapFile fs' inode := by
  have hsize := h.size
  obtain ⟨_, _, _, rfl⟩ := h.rest
  exact ⟨hm.opened, hsize.symm ▸ hm.onDevice⟩

theorem MapOnly.mapReady (h : MapOnly fs data fs') (hm : MapReady fs inode) : MapReady fs' inode :=
  ⟨h.mapFile hm.toMapFile, by rw [h.map_size, h.size, hm.size], by rw [h.map_size, hm.length],
    hm.writable, h.quiet hm.memory⟩

/-! ## Writing the map -/

theorem WriteSpec.mapOnly {buffer : Buffer} {bounce : Bool} {size offset bytes : Nat}
    {r : Nat × Fs} (h : WriteSpec fs data buffer bounce size offset bytes r) :
    MapOnly fs data r.2 := by
  obtain ⟨n, oracle, device, -, heq, htr, hsize, hother, -⟩ := h
  have hle := htr.le
  rw [heq]
  refine ⟨⟨_, _, _, rfl⟩, hsize, rfl, htr.quiet, fun x hx ↦ ?_⟩
  exact hother x fun pos _ hlt ↦ hx pos (by omega)

/-- `bitmap_write` changes nothing but the data of the file. -/
theorem MapFile.bitmapWrite (h : MapFile fs inode) (hf : fs.freeMapFile = some f) :
    Returns (fs.bitmapWrite f) fun r ↦ MapOnly fs inode.data r.2 ∧ r.2.freeMap = fs.freeMap := by
  obtain ⟨f', file, hf', hfile, hi⟩ := h.opened
  obtain rfl : f = f' := some.inj (hf.symm.trans hf')
  simp only [Fs.bitmapWrite, fileWriteAt, hfile, some_bind]
  by_cases hdeny : inode.denyWriteCnt = 0
  · refine Returns.bind (inodeWriteAt_spec hi h.onDevice hdeny) fun r hr ↦ .pure ⟨hr.mapOnly, ?_⟩
    obtain ⟨_, _, _, -, heq, -⟩ := hr
    rw [heq]
  · simp only [inodeWriteAt, hi, some_bind, if_pos hdeny]
    exact .pure ⟨⟨⟨_, _, _, rfl⟩, rfl, rfl, id, fun _ _ ↦ rfl⟩, rfl⟩

/-- The byte of a bit of the map is in the file. -/
theorem div_lt_byteCnt {i size : Nat} (h : i < size) : i / 8 < byteCnt size := by
  simp only [byteCnt]
  omega

/-- **`bitmap_write`** stores the whole map, if it can be written. -/
theorem MapReady.bitmapWrite (h : MapReady fs inode) (hf : fs.freeMapFile = some f) :
    Returns (fs.bitmapWrite f) fun r ↦ r.1 = true ∧ MapOnly fs inode.data r.2 ∧
      r.2.freeMap = fs.freeMap ∧ Stored r.2 inode.data := by
  obtain ⟨f', file, hf', hfile, hi⟩ := h.opened
  obtain rfl : f = f' := some.inj (hf.symm.trans hf')
  simp only [Fs.bitmapWrite, fileWriteAt, hfile, some_bind]
  refine Returns.bind (inodeWriteAt_spec hi h.onDevice h.writable) fun r hr ↦ ?_
  have honly := hr.mapOnly
  obtain ⟨n, oracle, device, hn, heq, htr, -, -, hbytes⟩ := hr
  have hfull := htr.full (.inr h.memory)
  rw [h.length, Int.toNat_natCast, Nat.sub_zero, Nat.min_self] at hfull
  refine .pure ⟨by simp [hn, hfull], honly, by rw [heq], fun i hi ↦ ?_⟩
  rw [heq] at hi ⊢
  have hlt : i / 8 < byteCnt fs.freeMap.size := div_lt_byteCnt hi
  rw [hbytes, if_pos ⟨Nat.zero_le _, by omega⟩, Nat.zero_add, Nat.sub_zero,
    Bitmap.testBit_bytes _ _ (Nat.mod_lt _ (by decide)), Nat.div_add_mod]

/-! ## Allocation and release -/

/-- What `free_map_allocate` does if the map can be written. -/
inductive Allotted (fs : Fs) (data : InodeDisk) (cnt : Nat) : Option Nat → Fs → Prop where
  | none (h : fs.freeMap.scan 0 cnt false = some none) : Allotted fs data cnt none fs
  | some {start : Nat} {fs' : Fs} (only : MapOnly fs data fs') (stored : Stored fs' data)
    (range : start + cnt ≤ fs.freeMap.size)
    (clear : ∀ x, start ≤ x → x < start + cnt → fs.freeMap.bit x = false)
    (bits : ∀ x, fs'.freeMap.bit x =
      if start ≤ x ∧ x < start + cnt then true else fs.freeMap.bit x) :
    Allotted fs data cnt (some start) fs'

/-- **`free_map_allocate`** marks sectors that were free, in memory and on the device; if there are
none it changes nothing. -/
theorem MapReady.freeMapAllocate (h : MapReady fs inode) (cnt : Nat) :
    Returns (fs.freeMapAllocate cnt) fun r ↦ Allotted fs inode.data cnt r.1 r.2 := by
  obtain ⟨⟨start, b⟩, hscan⟩ := Bitmap.exists_scanAndFlip cnt false (Nat.zero_le fs.freeMap.size)
  obtain ⟨f, file, hf, hfile, hi⟩ := h.opened
  simp only [Fs.freeMapAllocate, hscan, some_bind]
  cases start with
  | none =>
    obtain rfl := Bitmap.scanAndFlip_eq_none hscan
    exact .pure (.none (Bitmap.scan_of_scanAndFlip hscan))
  | some start =>
    obtain ⟨-, hrange, hsize, hclear, hset⟩ := Bitmap.scanAndFlip_spec hscan
    have honly : MapOnly fs inode.data { fs with freeMap := b } := .setMap hsize
    have hwrite := (honly.mapReady h).bitmapWrite (f := f) hf
    split
    case h_2 _ _ hno => exact absurd hf (hno start f rfl)
    case h_1 _ _ _ f' hstart hf' =>
    obtain rfl := some.inj hstart
    obtain rfl : f = f' := some.inj (hf.symm.trans hf')
    refine Returns.bind hwrite ?_
    rintro ⟨-, fs'⟩ ⟨rfl, honly', hmap, hstored⟩
    refine .pure (.some (honly.trans honly') hstored hrange hclear fun x ↦ ?_)
    rw [hmap, hset]
    rfl

/-- What `free_map_release` does. -/
structure Freed (fs : Fs) (data : InodeDisk) (start cnt : Nat) (fs' : Fs) : Prop where
  only : MapOnly fs data fs'
  bits : ∀ x, fs'.freeMap.bit x =
    if start ≤ x ∧ x < start + cnt then false else fs.freeMap.bit x

theorem MapFile.freeMapRelease (h : MapFile fs inode) (start cnt : Nat)
    (hrange : start + cnt ≤ fs.freeMap.size)
    (hmarked : ∀ x, start ≤ x → x < start + cnt → fs.freeMap.bit x = true) :
    Returns (fs.freeMapRelease start cnt) (Freed fs inode.data start cnt) := by
  obtain ⟨f, file, hf, hfile, hi⟩ := h.opened
  obtain ⟨b, hb⟩ := Bitmap.exists_setMultiple false hrange
  obtain ⟨-, hsize, hbits⟩ := Bitmap.setMultiple_spec hb
  have honly : MapOnly fs inode.data { fs with freeMap := b } := .setMap hsize
  have hwrite := (honly.mapFile h).bitmapWrite (f := f) hf
  rw [Fs.freeMapRelease, Bitmap.all_eq_true hrange hmarked]
  simp only [assert, some_bind, if_true, hb]
  refine Returns.bind (show Returns fs.freeMapFile (f = ·) from ⟨f, hf, rfl⟩) ?_
  rintro _ rfl
  refine Returns.bind hwrite ?_
  rintro ⟨ok, fs'⟩ ⟨honly', hmap⟩
  refine .pure ⟨honly.trans honly', fun x ↦ ?_⟩
  rw [hmap, hbits]

/-- **`free_map_release`** clears the marks, in memory and on the device. -/
theorem MapReady.freeMapRelease (h : MapReady fs inode)
    (hr : fs.freeMapRelease start cnt = some fs') :
    Freed fs inode.data start cnt fs' ∧ Stored fs' inode.data := by
  obtain ⟨f, file, hf, hfile, hi⟩ := h.opened
  have hr' := hr
  simp only [Fs.freeMapRelease, bind_eq_some, assert_eq_some] at hr'
  obtain ⟨ok, hall, -, hok, b, hb, f', hf', ⟨ok', fs1⟩, hwrite, heq⟩ := hr'
  cases heq
  obtain rfl : f = f' := some.inj (hf.symm.trans hf')
  obtain ⟨hrange, hmarked⟩ := Bitmap.of_all_eq_true (hok ▸ hall)
  refine ⟨(h.toMapFile.freeMapRelease _ _ hrange hmarked).of_eq hr, ?_⟩
  have honly : MapOnly fs inode.data { fs with freeMap := b } :=
    .setMap (Bitmap.setMultiple_spec hb).2.1
  exact (((honly.mapReady h).bitmapWrite (f := f) hf).of_eq hwrite).2.2.2

/-! ## A reboot -/

/-- A call of `free-map.c`. -/
inductive FreeMapCall where
  | allocate (cnt : Nat)
  | release (sector cnt : Nat)

/-- A call, when there is memory. -/
def freeMapStep (fs : Fs) : FreeMapCall → Option Fs
  | .allocate cnt => do return (← freeMapAllocate { fs with oracle := [] } cnt).2
  | .release sector cnt => freeMapRelease { fs with oracle := [] } sector cnt

/-- The map is in its file, where a reboot finds it. -/
structure MapKept (fs : Fs) (inode : Inode) : Prop where
  ready : MapReady { fs with oracle := [] } inode
  stored : Stored fs inode.data
  two_le : 2 ≤ fs.device.size
  node : inodeAt fs.device freeMapSector = inode.data
  own : ∀ pos < inode.data.length.toNat, byteToSector inode.data pos ≠ freeMapSector

theorem MapKept.only (h : MapKept fs inode)
    (honly : MapOnly { fs with oracle := [] } inode.data fs') (hstored : Stored fs' inode.data) :
    MapKept fs' inode := by
  have hready := honly.mapReady h.ready
  refine ⟨?_, hstored, honly.size ▸ h.two_le, ?_, h.own⟩
  · rwa [show { fs' with oracle := [] } = fs' by rw [← hready.memory]]
  · rw [inodeAt_congr (honly.other _ h.own)]
    exact h.node

/-- **A call keeps the map on the device.** -/
theorem MapKept.step {c : FreeMapCall} (h : MapKept fs inode) (hs : fs.freeMapStep c = some fs') :
    MapKept fs' inode := by
  cases c with
  | allocate cnt =>
    simp only [freeMapStep, bind_eq_some] at hs
    obtain ⟨⟨start, fs1⟩, hall, heq⟩ := hs
    cases heq
    cases (h.ready.freeMapAllocate cnt).of_eq hall with
    | none => exact h.only (.setMap rfl) h.stored
    | some honly hstored => exact h.only honly hstored
  | release sector cnt =>
    obtain ⟨hfreed, hstored⟩ := h.ready.freeMapRelease hs
    exact h.only hfreed.only hstored

theorem MapKept.of_init {device : Block} {oracle : List Bool} {garbage : Buffer}
    (hsmall : device.size < 2 ^ 32) (h : filesysInit device oracle garbage = some fs) :
    ∃ inode, MapKept fs inode := by
  obtain ⟨fs1, hf, hopen⟩ := filesysInit_eq hsmall h
  obtain ⟨oracle', freeMap, hsize, hbits, rfl⟩ :=
    freeMapOpen_eq hf.closed hf.size hf.valid hf.root.bytes hopen
  refine ⟨_, ⟨⟨⟨_, _, rfl, Function.update_self .., Function.update_self ..⟩, hf.valid.onDevice⟩,
    hsize.trans hf.size, ?_, rfl, rfl⟩, fun i hi ↦ ?_, hf.two_le, rfl, fun pos hpos heq ↦ ?_⟩
  · rw [hf.length]
    rw [hsize, hf.size]
  · dsimp only at hi ⊢
    rw [hsize, hf.size] at hi
    rw [hf.root.bytes _ (div_lt_byteCnt hi), hbits i hi,
      Bitmap.testBit_bytes _ _ (Nat.mod_lt _ (by decide)), Nat.div_add_mod]
  · have hin := hf.valid.inData hpos
    rw [heq] at hin
    exact hf.valid.own hin

/-- `bitmap_read` reads the map that is on the device. -/
theorem MapReady.bitmapRead (h : MapReady fs inode) (hf : fs.freeMapFile = some f) :
    Returns (fs.bitmapRead f) fun r ↦ r.1 = true ∧ r.2.freeMap.size = fs.freeMap.size ∧
      ∀ i < fs.freeMap.size, r.2.freeMap.bit i =
        (fileByte fs.device inode.data (i / 8)).toNat.testBit (i % 8) := by
  obtain ⟨f', file, hf', hfile, hi⟩ := h.opened
  obtain rfl : f = f' := some.inj (hf.symm.trans hf')
  rw [Fs.bitmapRead]
  split
  · next hsize => exact .pure ⟨rfl, rfl, fun i hi ↦ by omega⟩
  simp only [fileReadAt, hfile, some_bind]
  refine Returns.bind (inodeReadAt_spec hi h.onDevice) ?_
  rintro ⟨-, buffer, -⟩ ⟨n, oracle, rfl, rfl, htr, hbuf⟩
  have hn := htr.full (.inr h.memory)
  rw [h.length, Int.toNat_natCast, Nat.sub_zero, Nat.min_self] at hn
  refine .pure ⟨by simp [hn], rfl, fun i hi ↦ ?_⟩
  have hlt := div_lt_byteCnt hi
  simp only [Bitmap.ofBytes, hi, decide_true, Bool.true_and]
  dsimp only at hbuf
  rw [hbuf, if_pos (by omega), Nat.zero_add, Nat.sub_zero]

/-- After a reboot the map is the one on the device. -/
theorem MapKept.mount (h : MapKept fs inode) (garbage : Buffer) :
    Returns (filesysMount fs.device [] garbage) fun fs' ↦ fs'.freeMap.size = fs.freeMap.size ∧
      ∀ i < fs.freeMap.size, fs'.freeMap.bit i = fs.freeMap.bit i := by
  have htwo := h.two_le
  have hsize : fs.freeMap.size = fs.device.size := h.ready.size
  have hlength : inode.data.length = byteCnt fs.freeMap.size := h.ready.length
  have hread : fs.device.read freeMapSector = some (fs.device.data freeMapSector) :=
    Block.read_eq_some.mpr ⟨show 0 < fs.device.size by omega, rfl⟩
  have hset : ∀ (b : Bitmap) (i : Nat), i < b.size →
      b.set i true = some ⟨b.size, Function.update b.bit i true⟩ :=
    fun b i hi ↦ Bitmap.set_eq_some.mpr ⟨hi, rfl⟩
  have h0 : freeMapSector < (Bitmap.create fs.device.size).size := show 0 < fs.device.size by omega
  have h1 : rootDirSector < (Bitmap.create fs.device.size).size := show 1 < fs.device.size by omega
  rw [filesysMount, freeMapInit]
  simp only [hset _ _ h0, some_bind]
  rw [hset _ _ (by exact h1)]
  simp only [freeMapOpen, inodeOpen, findInode, List.find?_nil, malloc, hread, pure_def,
    some_bind, fileOpen, setInode, setFile, Nat.add_sub_cancel]
  refine Returns.bind
    (@MapReady.bitmapRead _ ⟨freeMapSector, 1, false, 0, inode.data⟩ _ ?_ rfl) ?_
  · refine ⟨⟨⟨0 + 1, ⟨0, 0, false⟩, rfl, rfl, ?_⟩, h.ready.onDevice⟩, rfl, ?_, rfl, rfl⟩
    · rw [← h.node]
      rfl
    · rw [hlength, hsize]
      rfl
  rintro ⟨-, fs'⟩ ⟨rfl, hsize', hbits⟩
  refine .pure ⟨hsize'.trans hsize.symm, fun i hi ↦ ?_⟩
  rw [← h.stored i hi]
  exact hbits i (hsize ▸ hi)

/-- **The free map survives a reboot.**  After any calls of `free_map_allocate` and
`free_map_release` on a file system that has been formatted, `free_map_init` and `free_map_open` on
the device give the map that was in memory.  In general, a bitmap that is written to the file is
read back from it, whatever is in memory by then. -/
theorem map_survives_reboot {device : Block} {oracle : List Bool} {garbage : Buffer} {fs₀ : Fs}
    {calls : List FreeMapCall} (hsmall : device.size < 2 ^ 32)
    (hinit : filesysInit device oracle garbage = some fs₀)
    (hrun : Run.run freeMapStep fs₀ calls = some fs) :
    (∀ garbage', Returns (filesysMount fs.device [] garbage') fun fs' ↦
      fs'.freeMap.size = fs.freeMap.size ∧
      ∀ i < fs.freeMap.size, fs'.freeMap.bit i = fs.freeMap.bit i) ∧
    ∀ b b' : Bitmap, b.size = fs.freeMap.size → b'.size = fs.freeMap.size →
      ∃ f, fs.freeMapFile = some f ∧
        Returns (do
          let (_, fs') ← bitmapWrite { fs with freeMap := b, oracle := [] } f
          bitmapRead { fs' with freeMap := b' } f) fun r ↦
            r.1 = true ∧ ∀ i < fs.freeMap.size, r.2.freeMap.bit i = b.bit i := by
  obtain ⟨inode, h₀⟩ := MapKept.of_init hsmall hinit
  have h : MapKept fs inode := Run.invariant_of_step
    (I := fun fs ↦ MapKept fs inode) (fun _ _ _ h hs ↦ h.step hs) h₀ hrun
  refine ⟨h.mount, fun b b' hb hb' ↦ ?_⟩
  obtain ⟨f, file, hf, hfile, hi⟩ := h.ready.opened
  have honly : MapOnly { fs with oracle := [] } inode.data { fs with freeMap := b, oracle := [] } :=
    .setMap hb
  refine ⟨f, hf, Returns.bind ((honly.mapReady h.ready).bitmapWrite (f := f) hf) ?_⟩
  rintro ⟨-, fs'⟩ ⟨rfl, honly', hmap, hstored⟩
  have hsize : b'.size = fs'.freeMap.size := by
    rw [hmap, hb, hb']
  have honly'' : MapOnly fs' inode.data { fs' with freeMap := b' } := .setMap hsize
  have hready := honly''.mapReady (honly'.mapReady (honly.mapReady h.ready))
  refine (hready.bitmapRead (f := f) ?_).mono ?_
  · obtain ⟨_, _, _, heq⟩ := honly'.rest
    dsimp only at heq
    rw [heq]
    exact hf
  · rintro r ⟨hok, -, hbits⟩
    refine ⟨hok, fun i hi ↦ ?_⟩
    rw [hbits i (hb' ▸ hi), hstored i (by rw [hmap, hb]; exact hi), hmap]

/-- Twice three sectors are taken of a device of 45, and the first three are given back. -/
theorem map_survives_reboot_release : ∃ fs₀ fs,
    filesysInit ⟨45, fun _ _ ↦ 0⟩ [] (fun _ ↦ 0) = some fs₀ ∧
    Run.run freeMapStep fs₀ [.allocate 3, .allocate 3, .release 4 3] = some fs ∧
    (List.range 12).map fs.freeMap.bit =
      [true, true, true, true, false, false, false, true, true, true, false, false] ∧
    Returns (filesysMount fs.device [] fun _ ↦ 255) fun fs' ↦ fs'.freeMap.size = fs.freeMap.size ∧
      ∀ i < fs.freeMap.size, fs'.freeMap.bit i = fs.freeMap.bit i := by
  refine Run.exists_of_view₂ (fun _ fs ↦ (List.range 12).map fs.freeMap.bit)
    [true, true, true, true, false, false, false, true, true, true, false, false]
    (by decide +kernel) fun fs₀ fs hinit hrun hbits ↦ ?_
  exact ⟨hbits, (map_survives_reboot (by decide) hinit hrun).1 _⟩

end Fs

end Pintos
