import Pintos.Filesys.Disk

/-!
# The entries of a directory

A directory is a file of 20-byte entries.  What the loops of `directory.c` find in it is said here
for a file with any number of entries, wherever it is on the device, when there is memory for the
bounce buffer: `lookup` finds the first entry in use with the name, `dir_add` the first slot that is
not in use, and `dir_readdir` the next entry in use.  The entries may straddle sectors.
-/

set_option autoImplicit false

namespace Pintos

open List

/-- Entry `k` of the directory with the inode `data`. -/
def dirEntry (device : Block) (data : InodeDisk) (k : Nat) : DirEntry :=
  .decode fun i ↦ Fs.fileByte device data (dirEntrySize * k + i)

/-- An entry in use with the name. -/
def DirEntry.named (e : DirEntry) (name : List UInt8) : Bool := e.inUse && cString e.name == name

namespace Fs

/-- `inode` is open at `dir`, and is a directory with `cnt` entries; there is memory. -/
structure DirFile (fs : Fs) (dir : Nat) (inode : Inode) (cnt : Nat) : Prop where
  opened : fs.inodes dir = some inode
  length : inode.data.length = (cnt * dirEntrySize : Nat)
  onDevice : OnDevice fs.device.size inode.data
  memory : fs.oracle = []

variable {fs : Fs} {dir cnt k fuel : Nat} {inode : Inode} {name : List UInt8} {buffer : Buffer}

namespace DirFile

theorem entryCnt_eq (h : DirFile fs dir inode cnt) : fs.entryCnt dir = cnt := by
  simp only [entryCnt, h.opened, h.length, Int.toNat_natCast, dirEntrySize]
  omega

/-- One entry is read, or nothing at the end. -/
theorem read_spec (h : DirFile fs dir inode cnt) (k : Nat) (buffer : Buffer) :
    Returns (fs.inodeReadAt dir buffer dirEntrySize (dirEntrySize * k)) fun r ↦ r.2.2 = fs ∧
      (k < cnt → r.1 = dirEntrySize ∧ DirEntry.decode r.2.1 = dirEntry fs.device inode.data k) ∧
      (cnt ≤ k → r.1 = 0) := by
  refine (inodeReadAt_spec h.opened h.onDevice).mono ?_
  rintro ⟨n, buffer', fs'⟩ ⟨m, oracle, rfl, rfl, htr, hbuf⟩
  have hm := htr.full (.inr h.memory)
  rw [h.length, Int.toNat_natCast] at hm
  simp only [dirEntrySize, Nat.zero_add] at hm hbuf ⊢
  refine ⟨?_, fun hk ↦ ⟨by omega, DirEntry.decode_congr fun i hi ↦ ?_⟩, fun hk ↦ by omega⟩
  · rw [htr.quiet h.memory, ← h.memory]
  · simp only [dirEntrySize] at hi
    rw [hbuf, if_pos (by omega)]
    rfl

/-! ## The loops -/

theorem range'_eq_cons (hk : k < cnt) :
    range' k (cnt - k) = k :: range' (k + 1) (cnt - (k + 1)) := by
  rw [show cnt - k = cnt - (k + 1) + 1 by omega, range'_succ]

theorem range'_eq_nil (hk : cnt ≤ k) : range' k (cnt - k) = [] := by
  rw [Nat.sub_eq_zero_of_le hk, range'_zero]

section

variable (h : DirFile fs dir inode cnt)

include h

theorem lookupLoop_eq (hfuel : cnt - k < fuel) :
    lookupLoop dir name fuel fs buffer (dirEntrySize * k) =
      some (((range' k (cnt - k)).find? fun k ↦
        (dirEntry fs.device inode.data k).named name).map fun k ↦
          (dirEntry fs.device inode.data k, dirEntrySize * k), fs) := by
  induction fuel generalizing buffer k with
  | zero => omega
  | succ fuel ih =>
    obtain ⟨⟨n, buffer', fs'⟩, hread, rfl, hin, hout⟩ := h.read_spec k buffer
    simp only [lookupLoop, hread, some_bind]
    by_cases hk : k < cnt
    · obtain ⟨hn, hentry⟩ := hin hk
      rw [if_neg (not_not.mpr hn), hentry, range'_eq_cons hk, find?_cons, DirEntry.named]
      cases hnamed : (dirEntry fs'.device inode.data k).inUse &&
          cString (dirEntry fs'.device inode.data k).name == name with
      | true => rfl
      | false => exact ih (k := k + 1) (by omega)
    · have hn : n = 0 := hout (Nat.not_lt.mp hk)
      rw [if_pos (by simp [hn]), range'_eq_nil (Nat.not_lt.mp hk)]
      rfl

/-- **`lookup`** finds the first entry in use with the name. -/
theorem lookup_eq (name : List UInt8) :
    fs.lookup dir name = some (((range cnt).find? fun k ↦
      (dirEntry fs.device inode.data k).named name).map fun k ↦
        (dirEntry fs.device inode.data k, dirEntrySize * k), fs) := by
  rw [lookup, h.entryCnt_eq, range_eq_range']
  exact h.lookupLoop_eq (k := 0) (Nat.lt_succ_self _)

theorem freeSlotLoop_spec (hk : k ≤ cnt) (hfuel : cnt - k < fuel) :
    Returns (freeSlotLoop dir fuel fs buffer (dirEntrySize * k)) fun r ↦ r.2.2 = fs ∧
      r.1 = dirEntrySize * (((range' k (cnt - k)).find? fun k ↦
        !(dirEntry fs.device inode.data k).inUse).getD cnt) := by
  induction fuel generalizing buffer k with
  | zero => omega
  | succ fuel ih =>
    obtain ⟨⟨n, buffer', fs'⟩, hread, rfl, hin, hout⟩ := h.read_spec k buffer
    simp only [freeSlotLoop, hread, some_bind]
    by_cases hlt : k < cnt
    · obtain ⟨hn, hentry⟩ := hin hlt
      rw [if_neg (not_not.mpr hn), hentry, range'_eq_cons hlt, find?_cons]
      cases huse : (dirEntry fs'.device inode.data k).inUse with
      | true => exact ih (k := k + 1) hlt (by omega)
      | false => exact .pure ⟨rfl, rfl⟩
    · have hn : n = 0 := hout (Nat.not_lt.mp hlt)
      rw [if_pos (by simp [hn]), range'_eq_nil (Nat.not_lt.mp hlt)]
      obtain rfl : k = cnt := by omega
      exact .pure ⟨rfl, rfl⟩

theorem readdirLoop_eq (hk : k ≤ cnt) (hfuel : cnt - k < fuel) :
    readdirLoop dir fuel fs buffer (dirEntrySize * k) =
      let next := (range' k (cnt - k)).find? fun k ↦ (dirEntry fs.device inode.data k).inUse
      some (next.map fun k ↦ cString (dirEntry fs.device inode.data k).name,
        dirEntrySize * (next.elim cnt (· + 1)), fs) := by
  induction fuel generalizing buffer k with
  | zero => omega
  | succ fuel ih =>
    obtain ⟨⟨n, buffer', fs'⟩, hread, rfl, hin, hout⟩ := h.read_spec k buffer
    simp only [readdirLoop, hread, some_bind]
    by_cases hlt : k < cnt
    · obtain ⟨hn, hentry⟩ := hin hlt
      rw [if_neg (not_not.mpr hn), hentry, range'_eq_cons hlt, find?_cons]
      cases huse : (dirEntry fs'.device inode.data k).inUse with
      | true => rfl
      | false => exact ih (k := k + 1) hlt (by omega)
    · have hn : n = 0 := hout (Nat.not_lt.mp hlt)
      rw [if_pos (by simp [hn]), range'_eq_nil (Nat.not_lt.mp hlt)]
      obtain rfl : k = cnt := by omega
      rfl

/-- **`dir_readdir`** returns the name of the next entry in use, and goes past it. -/
theorem dirReaddir_eq (hk : k ≤ cnt) :
    fs.dirReaddir dir (dirEntrySize * k) =
      let next := (range' k (cnt - k)).find? fun k ↦ (dirEntry fs.device inode.data k).inUse
      some (next.map fun k ↦ cString (dirEntry fs.device inode.data k).name,
        dirEntrySize * (next.elim cnt (· + 1)), fs) := by
  rw [dirReaddir, h.entryCnt_eq]
  exact h.readdirLoop_eq hk (by omega)

end

/-! ## Writing an entry -/

/-- The state after entry `k` has been written, and nothing else. -/
structure Rewritten (fs : Fs) (data : InodeDisk) (k : Nat) (e : DirEntry) (fs' : Fs) : Prop where
  rest : ∃ data', fs' = { fs with device := ⟨fs.device.size, data'⟩ }
  entry : ∀ k', dirEntry fs'.device data k' = if k' = k then e else dirEntry fs.device data k'
  other : ∀ s, (∀ pos < data.length.toNat, byteToSector data pos ≠ s) →
    fs'.device.data s = fs.device.data s

/-- **An entry is written**, if it is one of the directory's. -/
theorem write_spec (h : DirFile fs dir inode cnt) (hdeny : inode.denyWriteCnt = 0) {e : DirEntry}
    (he : DirEntry.decode e.encode = e) (k : Nat) :
    Returns (fs.inodeWriteAt dir e.encode dirEntrySize (dirEntrySize * k)) fun r ↦
      (k < cnt → r.1 = dirEntrySize ∧ Rewritten fs inode.data k e r.2) ∧
      (cnt ≤ k → r = (0, fs)) := by
  refine (inodeWriteAt_spec h.opened h.onDevice hdeny).mono ?_
  rintro ⟨-, -⟩ ⟨n, oracle, device, rfl, rfl, htr, hsize, hother, hbytes⟩
  have hn := htr.full (.inr h.memory)
  have hlen : inode.data.length.toNat = cnt * 20 := by rw [h.length]; rfl
  have horacle : fs.oracle = oracle := by rw [htr.quiet h.memory, h.memory]
  subst horacle
  simp only [dirEntrySize, Nat.zero_add] at hn hbytes hother ⊢
  constructor
  · intro hk
    obtain rfl : n = 20 := by omega
    refine ⟨rfl, ⟨device.data, ?_⟩, fun k' ↦ ?_, fun s hs ↦ hother s fun pos _ _ ↦ hs pos ?_⟩
    · rw [← hsize]
    · split
      · next hkk =>
        subst hkk
        rw [dirEntry, ← he]
        refine DirEntry.decode_congr fun i hi ↦ ?_
        simp only [dirEntrySize] at hi ⊢
        rw [hbytes, if_pos (by omega), Nat.add_sub_cancel_left]
      · refine DirEntry.decode_congr fun i hi ↦ ?_
        simp only [dirEntrySize] at hi ⊢
        rw [hbytes, if_neg (by omega)]
    · omega
  · intro hk
    obtain rfl : n = 0 := by omega
    have hdata : device.data = fs.device.data :=
      funext fun s ↦ hother s fun pos _ _ ↦ by omega
    have hdevice : device = fs.device := by
      cases device
      cases hfd : fs.device
      simp_all
    rw [hdevice]

end DirFile

end Fs

end Pintos
