import Pintos.Filesys.Sound

/-!
# The free map

What `free_map_allocate` and `free_map_release` do in a sound file system.  The sectors that are
allocated were in nobody's use; those that are released must be marked, or an assertion fails, and
in nobody's use, or the invariant does.
-/

set_option autoImplicit false

namespace Pintos

namespace Fs

variable {fs fs' : Fs} {refs : List (Nat × Nat)} {held : Nat → View → Prop} {id s x f n cnt : Nat}

theorem Sound.fresh_of_unmarked (h : Sound fs refs held) (hx : fs.freeMap.bit x = false) :
    fs.Fresh x := by
  intro s hl hfoot
  rw [(h.valid hl).marked x hfoot] at hx
  cases hx

/-- A write to a file only changes sectors with its data. -/
theorem Wrote.outside {buffer : Buffer} {size offset : Nat} {freeMap : Bitmap}
    (hw : Wrote fs (inodeAt fs.device s) buffer size offset n fs')
    (hv : ValidInode fs.device freeMap s) (hx : ¬ InData fs.device s x) :
    fs'.device.data x = fs.device.data x := by
  have hle := hw.le
  refine hw.other x fun pos h1 h2 heq ↦ hx ?_
  rw [← heq]
  exact hv.inData (by omega)

/-- A write to the data of a live inode, other than the root directory. -/
theorem Sound.wrote {buffer : Buffer} {size offset : Nat} (h : Sound fs refs held)
    (hl : fs.Live s) (hs : s ≠ rootDirSector)
    (hw : Wrote fs (inodeAt fs.device s) buffer size offset n fs') :
    SameInodes fs fs' ∧ fs'.freeMap = fs.freeMap ∧ ∀ t x, fs.Live t → t ≠ s →
      InData fs.device t x → fs'.device.data x = fs.device.data x := by
  have hout : ∀ x, ¬ InData fs.device s x → fs'.device.data x = fs.device.data x :=
    fun x ↦ hw.outside (h.valid hl)
  have hdata : ∀ t x, fs.Live t → t ≠ s → InData fs.device t x →
      fs'.device.data x = fs.device.data x := fun t x hl' hne hx ↦
    hout x fun hx' ↦ hne (h.disk.disjoint t s x hl' hl (.inr hx) (.inr hx'))
  have hnode : ∀ t, fs.Live t → fs'.device.data t = fs.device.data t :=
    fun t hl' ↦ hout t (h.disk.not_inData hl hl')
  have hsize := hw.device_size
  obtain ⟨oracle, device, rfl⟩ := hw.rest
  exact ⟨⟨⟨_, _, _, rfl⟩, hsize, rfl, hnode, fun x hx ↦ hdata _ x live_rootDir hs.symm hx⟩, rfl,
    hdata⟩

theorem Sound.keep (h : Sound fs refs held) (hs : Same fs fs')
    (hbits : ∀ x, fs.freeMap.bit x = true → fs'.freeMap.bit x = true) : Sound fs' refs held :=
  h.same hs fun _ x hl hx ↦ hbits x ((h.valid hl).marked x hx)

theorem bitmapWrite_spec (h : Sound fs refs held) (hf : fs.freeMapFile = some f) :
    Returns (fs.bitmapWrite f) fun r ↦ Same fs r.2 ∧ r.2.freeMap = fs.freeMap := by
  obtain ⟨f', file, hf', hfile, ⟨inode, hi, hsec⟩, -⟩ := h.mapFile
  obtain rfl : f = f' := Option.some.inj (hf.symm.trans hf')
  have hdata : inode.data = inodeAt fs.device freeMapSector := hsec ▸ h.data _ _ hi
  have hv := h.valid live_freeMap
  rw [bitmapWrite, fileWriteAt, hfile]
  refine Returns.bind (inodeWriteAt_wrote hi (hdata ▸ hv.onDevice)) ?_
  rintro ⟨n, fs'⟩ hw
  rw [hdata] at hw
  obtain ⟨hsame, hmap, hother⟩ := h.wrote live_freeMap (by decide) hw
  exact .pure ⟨⟨hsame, hother⟩, hmap⟩

/-! ## Allocation -/

/-- What `free_map_allocate` does. -/
structure Allocated (fs : Fs) (refs : List (Nat × Nat)) (held : Nat → View → Prop) (cnt : Nat)
    (sector : Option Nat) (fs' : Fs) : Prop where
  same : Same fs fs'
  sound : Sound fs' refs held
  keep : ∀ x, fs.freeMap.bit x = true → fs'.freeMap.bit x = true
  range : ∀ start, sector = some start → start + cnt ≤ fs.device.size
  clear : ∀ start, sector = some start → ∀ x, start ≤ x → x < start + cnt →
    fs.freeMap.bit x = false
  set : ∀ start, sector = some start → ∀ x, start ≤ x → x < start + cnt →
    fs'.freeMap.bit x = true

/-- **`free_map_allocate`** marks consecutive sectors that were free, or changes nothing. -/
theorem freeMapAllocate_spec (h : Sound fs refs held) (cnt : Nat) :
    Returns (fs.freeMapAllocate cnt) fun r ↦ Allocated fs refs held cnt r.1 r.2 := by
  obtain ⟨⟨start, b⟩, hscan⟩ := Bitmap.exists_scanAndFlip cnt false (Nat.zero_le fs.freeMap.size)
  rw [freeMapAllocate, hscan]
  dsimp only [some_bind]
  cases start with
  | none =>
    obtain rfl := Bitmap.scanAndFlip_eq_none hscan
    exact .pure ⟨.refl fs, h, fun _ ↦ id, nofun, nofun, nofun⟩
  | some start =>
    obtain ⟨-, hrange, hsize, hclear, hset⟩ := Bitmap.scanAndFlip_spec hscan
    obtain ⟨f, _, hf, -⟩ := h.mapFile
    have hmark : ∀ x, fs.freeMap.bit x = true → b.bit x = true := by
      intro x hx
      rw [hset]
      split
      · rfl
      · exact hx
    have hsame : Same fs { fs with freeMap := b } := (Same.refl fs).setMap hsize
    have hsound := h.keep hsame hmark
    split
    case h_2 _ _ hno => exact absurd hf (hno start f rfl)
    case h_1 _ _ _ f' hstart hf' =>
    obtain rfl := Option.some.inj hstart
    refine Returns.bind (bitmapWrite_spec hsound hf') ?_
    rintro ⟨written, fs'⟩ ⟨hsame', hmap⟩
    have htrans := hsame.trans h hsame'
    split
    · refine .pure ⟨htrans, hsound.keep hsame' fun x hx ↦ hmap ▸ hx, ?_, ?_, ?_, ?_⟩
      · exact fun x hx ↦ hmap ▸ hmark x hx
      · rintro _ ⟨⟩
        exact h.disk.size ▸ hrange
      · rintro _ ⟨⟩
        exact hclear
      · rintro _ ⟨⟩ x hle hlt
        rw [hmap, hset, if_pos ⟨hle, hlt⟩]
        rfl
    · -- The map could not be written, and the bits are cleared again.
      obtain ⟨b', hb'⟩ := Bitmap.exists_setMultiple false
        (show start + cnt ≤ fs'.freeMap.size by rw [hmap, hsize]; exact hrange)
      obtain ⟨-, hsize', hbits'⟩ := Bitmap.setMultiple_spec hb'
      have hold : ∀ x, fs.freeMap.bit x = true → b'.bit x = true := by
        intro x hx
        rw [hbits', if_neg (Bitmap.not_within hclear hx), hmap]
        exact hmark x hx
      have hsame'' : Same fs { fs' with freeMap := b' } := htrans.setMap hsize'
      rw [hb']
      exact .pure ⟨hsame'', h.keep hsame'' hold, hold, nofun, nofun, nofun⟩

/-! ## Release -/

/-- What `free_map_release` does. -/
structure Released (fs : Fs) (refs : List (Nat × Nat)) (held : Nat → View → Prop) (start cnt : Nat)
    (fs' : Fs) : Prop where
  same : Same fs fs'
  sound : Sound fs' refs held
  keep : ∀ x, ¬ (start ≤ x ∧ x < start + cnt) → fs.freeMap.bit x = true →
    fs'.freeMap.bit x = true

/-- **`free_map_release`** clears the marks of sectors that belong to nobody. -/
theorem freeMapRelease_spec {start : Nat} (h : Sound fs refs held)
    (hrange : start + cnt ≤ fs.device.size)
    (hmarked : ∀ x, start ≤ x → x < start + cnt → fs.freeMap.bit x = true)
    (hfresh : ∀ x, start ≤ x → x < start + cnt → fs.Fresh x) :
    Returns (fs.freeMapRelease start cnt) (Released fs refs held start cnt) := by
  obtain ⟨f, _, hf, -⟩ := h.mapFile
  rw [← h.disk.size] at hrange
  obtain ⟨b, hb⟩ := Bitmap.exists_setMultiple false hrange
  obtain ⟨-, hsize, hbits⟩ := Bitmap.setMultiple_spec hb
  have hkeep : ∀ x, ¬ (start ≤ x ∧ x < start + cnt) → fs.freeMap.bit x = true →
      b.bit x = true := fun x hout hx ↦ by rw [hbits, if_neg hout, hx]
  have hsame : Same fs { fs with freeMap := b } := (Same.refl fs).setMap hsize
  have hsound : Sound { fs with freeMap := b } refs held := by
    refine h.same hsame fun s x hl hx ↦ hkeep x ?_ ((h.valid hl).marked x hx)
    exact fun hin ↦ hfresh x hin.1 hin.2 s hl hx
  rw [freeMapRelease, Bitmap.all_eq_true hrange hmarked]
  simp only [assert, some_bind, if_true, hb]
  refine Returns.bind ⟨f, hf, rfl⟩ fun f' hf' ↦ Returns.bind (bitmapWrite_spec hsound ?_) ?_
  · exact hf'.symm ▸ hf
  rintro ⟨written, fs'⟩ ⟨hsame', hmap⟩
  refine .pure ⟨hsame.trans h hsame', hsound.keep hsame' fun x hx ↦ hmap ▸ hx, fun x hout hx ↦ ?_⟩
  rw [hmap]
  exact hkeep x hout hx

end Fs

end Pintos
