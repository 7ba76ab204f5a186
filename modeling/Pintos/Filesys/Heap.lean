import Pintos.Logic.CountBelow
import Pintos.Filesys.Directory

/-!
# Open inodes and open files in memory

Every inode in memory is open, and `open_cnt` is the number of its users: open files, and functions
that have opened it and not yet closed it (`refs`).  `deny_write_cnt` is the number of files that
deny writing.
-/

set_option autoImplicit false

namespace Pintos

open Function List Option

variable {sector : Nat}

namespace Fs

variable {fs : Fs} {refs : List Nat} {id f : Nat} {inode : Inode} {file : File}

/-- File `f` is open on the inode. -/
def uses (fs : Fs) (id f : Nat) : Bool := (fs.files f).any (·.inode == id)

/-- File `f` is open on the inode, and denies writing. -/
def denies (fs : Fs) (id f : Nat) : Bool :=
  (fs.files f).any fun file ↦ file.inode == id && file.denyWrite

/-- The inodes and files in memory; `refs` are the inodes that functions have opened. -/
structure HeapOk (fs : Fs) (refs : List Nat) : Prop where
  nodup : fs.openInodes.Nodup
  mem : ∀ id, id ∈ fs.openInodes ↔ (fs.inodes id).isSome = true
  /-- A sector is open at most once. -/
  inj : ∀ id id' inode inode', fs.inodes id = some inode → fs.inodes id' = some inode' →
    inode.sector = inode'.sector → id = id'
  openCnt : ∀ id inode, fs.inodes id = some inode →
    inode.openCnt = countBelow fs.next (fs.uses id) + refs.count id
  open_pos : ∀ id inode, fs.inodes id = some inode → 0 < inode.openCnt
  denyCnt : ∀ id inode, fs.inodes id = some inode →
    inode.denyWriteCnt = countBelow fs.next (fs.denies id)
  file : ∀ f file, fs.files f = some file → (fs.inodes file.inode).isSome = true
  ref : ∀ id ∈ refs, (fs.inodes id).isSome = true
  inode_lt : ∀ id inode, fs.inodes id = some inode → id < fs.next
  file_lt : ∀ f file, fs.files f = some file → f < fs.next

theorem HeapOk.congr {fs' : Fs} (h : HeapOk fs refs) (hinodes : fs'.inodes = fs.inodes)
    (hopen : fs'.openInodes = fs.openInodes) (hfiles : fs'.files = fs.files)
    (hnext : fs'.next = fs.next) : HeapOk fs' refs := by
  have huses : fs'.uses = fs.uses := by
    funext id f
    rw [uses, uses, hfiles]
  have hdenies : fs'.denies = fs.denies := by
    funext id f
    rw [denies, denies, hfiles]
  constructor <;> simp only [hinodes, hopen, hfiles, hnext, huses, hdenies]
  exacts [h.nodup, h.mem, h.inj, h.openCnt, h.open_pos, h.denyCnt, h.file, h.ref, h.inode_lt,
    h.file_lt]

theorem HeapOk.perm {refs' : List Nat} (h : HeapOk fs refs) (hp : refs.Perm refs') :
    HeapOk fs refs' := by
  refine ⟨h.nodup, h.mem, h.inj, fun id inode hi ↦ ?_, h.open_pos, h.denyCnt, h.file,
    fun id hid ↦ h.ref id (hp.mem_iff.mpr hid), h.inode_lt, h.file_lt⟩
  rw [← hp.count_eq]
  exact h.openCnt id inode hi

/-- `findInode` finds the open inode of a sector. -/
theorem findInode_eq_some (hf : fs.findInode sector = some id) :
    ∃ inode, fs.inodes id = some inode ∧ inode.sector = sector := by
  have hp := List.find?_some hf
  obtain ⟨inode, hi, hs⟩ := (Option.any_eq_true ..).mp hp
  exact ⟨inode, hi, by simpa using hs⟩

theorem HeapOk.findInode_eq_none (h : HeapOk fs refs)
    (hf : fs.findInode sector = none) (hi : fs.inodes id = some inode) : inode.sector ≠ sector := by
  intro hs
  have hnot := List.find?_eq_none.mp hf id ((h.mem id).mpr (by rw [hi]; rfl))
  simp [hi, hs] at hnot

/-! ## References -/

/-- A store to a `struct inode` that only changes the number of its users. -/
theorem HeapOk.setInode (h : HeapOk fs refs) {refs' : List Nat} {inode' : Inode}
    (hi : fs.inodes id = some inode) (hsector : inode'.sector = inode.sector)
    (hdeny : inode'.denyWriteCnt = inode.denyWriteCnt)
    (hcnt : inode'.openCnt = countBelow fs.next (fs.uses id) + refs'.count id)
    (hpos : 0 < inode'.openCnt) (hcount : ∀ id', id' ≠ id → refs'.count id' = refs.count id')
    (href : ∀ id' ∈ refs', id' = id ∨ id' ∈ refs) :
    HeapOk (fs.setInode id (some inode')) refs' := by
  have hcases : ∀ {id1 : Nat} {inode1 : Inode},
      (fs.setInode id (some inode')).inodes id1 = some inode1 →
      (id1 = id ∧ inode1 = inode') ∨ (id1 ≠ id ∧ fs.inodes id1 = some inode1) := by
    intro id1 inode1 h1
    by_cases hid : id1 = id
    · subst hid
      simp only [Fs.setInode, update_self, some_inj] at h1
      exact .inl ⟨rfl, h1.symm⟩
    · simp only [Fs.setInode, update_of_ne hid] at h1
      exact .inr ⟨hid, h1⟩
  have hsome : ∀ id1,
      ((fs.setInode id (some inode')).inodes id1).isSome = (fs.inodes id1).isSome := by
    intro id1
    by_cases hid : id1 = id
    · simp [Fs.setInode, hid, hi]
    · simp [Fs.setInode, update_of_ne hid]
  exact {
    nodup := h.nodup
    mem := fun id1 ↦ by rw [hsome]; exact h.mem id1
    inj := by
      intro id1 id2 inode1 inode2 h1 h2 heq
      rcases hcases h1 with ⟨rfl, rfl⟩ | ⟨-, ho1⟩ <;> rcases hcases h2 with ⟨rfl, rfl⟩ | ⟨-, ho2⟩
      · rfl
      · exact h.inj _ _ _ _ hi ho2 (hsector ▸ heq)
      · exact h.inj _ _ _ _ ho1 hi (heq.trans hsector)
      · exact h.inj _ _ _ _ ho1 ho2 heq
    openCnt := by
      intro id1 inode1 h1
      rcases hcases h1 with ⟨rfl, rfl⟩ | ⟨hne, h1⟩
      · exact hcnt
      · rw [hcount id1 hne]
        exact h.openCnt id1 inode1 h1
    open_pos := by
      intro id1 inode1 h1
      rcases hcases h1 with ⟨rfl, rfl⟩ | ⟨-, h1⟩
      · exact hpos
      · exact h.open_pos id1 inode1 h1
    denyCnt := by
      intro id1 inode1 h1
      rcases hcases h1 with ⟨rfl, rfl⟩ | ⟨-, h1⟩
      · exact hdeny.trans (h.denyCnt _ _ hi)
      · exact h.denyCnt id1 inode1 h1
    file := fun f file hf ↦ by rw [hsome]; exact h.file f file hf
    ref := by
      intro id1 hmem
      rw [hsome]
      rcases href id1 hmem with rfl | hmem
      · simp [hi]
      · exact h.ref id1 hmem
    inode_lt := by
      intro id1 inode1 h1
      rcases hcases h1 with ⟨rfl, rfl⟩ | ⟨-, h1⟩
      · exact h.inode_lt _ _ hi
      · exact h.inode_lt id1 inode1 h1
    file_lt := h.file_lt }

/-- One more user of an open inode. -/
theorem HeapOk.addRef (h : HeapOk fs refs) (hi : fs.inodes id = some inode) :
    HeapOk (fs.setInode id (some { inode with openCnt := inode.openCnt + 1 })) (id :: refs) := by
  refine h.setInode hi rfl rfl ?_ (Nat.succ_pos _) (fun id' hne ↦ ?_) fun id' hmem ↦ ?_
  · have := h.openCnt id inode hi
    simp only [count_cons_self]
    omega
  · rw [count_cons_of_ne hne.symm]
  · exact mem_cons.mp hmem

/-- One user less, but not the last one. -/
theorem HeapOk.dropRef (h : HeapOk fs (id :: refs)) (hi : fs.inodes id = some inode)
    (hcnt : inode.openCnt ≠ 1) :
    HeapOk (fs.setInode id (some { inode with openCnt := inode.openCnt - 1 })) refs := by
  have hopen := h.openCnt id inode hi
  rw [count_cons_self] at hopen
  refine h.setInode hi rfl rfl ?_ ?_ (fun id' hne ↦ ?_) fun id' hmem ↦ ?_
  · dsimp only
    omega
  · dsimp only
    omega
  · rw [count_cons_of_ne hne.symm]
  · exact .inr (mem_cons_of_mem _ hmem)

/-- `removed` is set. -/
theorem HeapOk.setRemoved (h : HeapOk fs refs) (hi : fs.inodes id = some inode) :
    HeapOk (fs.setInode id (some { inode with removed := true })) refs :=
  h.setInode hi rfl rfl (h.openCnt id inode hi) (h.open_pos id inode hi) (fun _ _ ↦ rfl)
    fun _ hmem ↦ .inr hmem

/-- Nobody uses an address that has not been given out. -/
theorem HeapOk.count_next (h : HeapOk fs refs) :
    countBelow fs.next (fs.uses fs.next) = 0 ∧ countBelow fs.next (fs.denies fs.next) = 0 ∧
      refs.count fs.next = 0 := by
  have hnone : (fs.inodes fs.next).isSome = false := by
    cases hn : fs.inodes fs.next with
    | none => rfl
    | some inode => exact absurd (h.inode_lt _ _ hn) (Nat.lt_irrefl _)
  have huses : ∀ f, fs.uses fs.next f = false := by
    intro f
    by_contra hu
    obtain ⟨file, hf, hfile⟩ := (Option.any_eq_true ..).mp (Bool.not_eq_false _ ▸ hu)
    have := h.file f file hf
    rw [beq_iff_eq.mp hfile, hnone] at this
    cases this
  refine ⟨countBelow_eq_zero.mpr fun f _ ↦ huses f, countBelow_eq_zero.mpr fun f _ ↦ ?_, ?_⟩
  · have hu := huses f
    simp only [uses, denies, Option.any_eq_false] at hu ⊢
    intro file hfile
    simp [hu file hfile]
  · refine count_eq_zero.mpr fun hmem ↦ ?_
    rw [h.ref _ hmem] at hnone
    cases hnone

theorem HeapOk.files_next (h : HeapOk fs refs) : fs.files fs.next = none := by
  cases hn : fs.files fs.next with
  | none => rfl
  | some file => exact absurd (h.file_lt _ _ hn) (Nat.lt_irrefl _)

theorem HeapOk.inodes_next (h : HeapOk fs refs) : fs.inodes fs.next = none := by
  cases hn : fs.inodes fs.next with
  | none => rfl
  | some inode => exact absurd (h.inode_lt _ _ hn) (Nat.lt_irrefl _)

theorem HeapOk.countBelow_uses_succ (h : HeapOk fs refs) (id : Nat) :
    countBelow (fs.next + 1) (fs.uses id) = countBelow fs.next (fs.uses id) := by
  rw [countBelow_succ, uses, h.files_next]
  rfl

theorem HeapOk.countBelow_denies_succ (h : HeapOk fs refs) (id : Nat) :
    countBelow (fs.next + 1) (fs.denies id) = countBelow fs.next (fs.denies id) := by
  rw [countBelow_succ, denies, h.files_next]
  rfl

/-- A new `struct inode`. -/
theorem HeapOk.newInode (h : HeapOk fs refs) {data : InodeDisk}
    (hnew : ∀ id inode, fs.inodes id = some inode → inode.sector ≠ sector) :
    HeapOk ({ fs with openInodes := fs.next :: fs.openInodes, next := fs.next + 1 }.setInode fs.next
      (some ⟨sector, 1, false, 0, data⟩)) (fs.next :: refs) := by
  obtain ⟨huses, hdenies, hrefs⟩ := h.count_next
  have hu' := h.countBelow_uses_succ
  have hd' := h.countBelow_denies_succ
  have hinode := h.inodes_next
  constructor <;> simp only [Fs.setInode]
  case openCnt =>
    intro id inode hi
    change _ = countBelow (fs.next + 1) (fs.uses id) + _
    by_cases hid : id = fs.next
    · subst hid
      obtain rfl := Option.some.inj (update_self (f := fs.inodes) .. ▸ hi)
      rw [hu', huses, count_cons_self, hrefs]
    · rw [update_of_ne hid] at hi
      rw [hu', count_cons_of_ne (Ne.symm hid), h.openCnt id inode hi]
  case denyCnt =>
    intro id inode hi
    change _ = countBelow (fs.next + 1) (fs.denies id)
    by_cases hid : id = fs.next
    · subst hid
      obtain rfl := Option.some.inj (update_self (f := fs.inodes) .. ▸ hi)
      rw [hd', hdenies]
    · rw [update_of_ne hid] at hi
      rw [hd', h.denyCnt id inode hi]
  all_goals grind -linarith [HeapOk]

/-- The last user of an inode closes it. -/
theorem HeapOk.removeInode (h : HeapOk fs (id :: refs)) (hi : fs.inodes id = some inode)
    (hcnt : inode.openCnt = 1) :
    HeapOk ({ fs with openInodes := fs.openInodes.erase id }.setInode id none) refs := by
  have hopen := h.openCnt id inode hi
  rw [count_cons_self] at hopen
  have huses : ∀ f file, fs.files f = some file → file.inode ≠ id := by
    intro f file hf hid
    have h0 := countBelow_eq_zero.mp (show countBelow fs.next (fs.uses id) = 0 by omega) f
      (h.file_lt f file hf)
    simp [uses, hf, hid] at h0
  have hnodup := h.nodup
  constructor <;> simp only [Fs.setInode]
  case openCnt =>
    intro id' inode' hi'
    have hne : id' ≠ id := by
      rintro rfl
      simp at hi'
    rw [update_of_ne hne] at hi'
    have := h.openCnt id' inode' hi'
    rwa [count_cons_of_ne (Ne.symm hne)] at this
  case denyCnt =>
    intro id' inode' hi'
    have hne : id' ≠ id := by
      rintro rfl
      simp at hi'
    rw [update_of_ne hne] at hi'
    exact h.denyCnt id' inode' hi'
  case nodup => exact hnodup.erase id
  case mem =>
    intro id'
    rw [hnodup.mem_erase_iff, h.mem]
    grind -linarith
  all_goals grind -linarith [HeapOk]

/-! ## Files -/

theorem countBelow_uses (fs : Fs) (id : Nat) {n : Nat} (hf : f < n) (new : Option File) :
    countBelow n ((fs.setFile f new).uses id) + ((fs.files f).any (·.inode == id)).toNat =
      countBelow n (fs.uses id) + (new.any (·.inode == id)).toNat := by
  have h := countBelow_update (p := (fs.setFile f new).uses id) (q := fs.uses id) hf
    fun j hj ↦ by simp [uses, setFile, update_of_ne hj]
  simpa [uses, setFile] using h

theorem countBelow_denies (fs : Fs) (id : Nat) {n : Nat} (hf : f < n) (new : Option File) :
    countBelow n ((fs.setFile f new).denies id) +
        ((fs.files f).any fun file ↦ file.inode == id && file.denyWrite).toNat =
      countBelow n (fs.denies id) +
        (new.any fun file ↦ file.inode == id && file.denyWrite).toNat := by
  have h := countBelow_update (p := (fs.setFile f new).denies id) (q := fs.denies id) hf
    fun j hj ↦ by simp [denies, setFile, update_of_ne hj]
  simpa [denies, setFile] using h

/-- A function hands its inode over to a new file. -/
theorem HeapOk.newFile (h : HeapOk fs (id :: refs)) :
    HeapOk ({ fs with next := fs.next + 1 }.setFile fs.next (some ⟨id, 0, false⟩)) refs := by
  have hfile := h.files_next
  constructor <;> simp only [Fs.setFile]
  case openCnt =>
    intro id' inode hi
    have hu := countBelow_uses fs id' (Nat.lt_succ_self fs.next) (some ⟨id, 0, false⟩)
    have hopen := h.openCnt id' inode hi
    change _ = countBelow (fs.next + 1) ((fs.setFile fs.next _).uses id') + _
    rw [hfile, any_some, any_none, h.countBelow_uses_succ] at hu
    cases hid : id == id' <;> simp_all
    omega
  case denyCnt =>
    intro id' inode hi
    have hd := countBelow_denies fs id' (Nat.lt_succ_self fs.next) (some ⟨id, 0, false⟩)
    have hcnt := h.denyCnt id' inode hi
    change _ = countBelow (fs.next + 1) ((fs.setFile fs.next _).denies id')
    rw [hfile, any_some, any_none, h.countBelow_denies_succ] at hd
    simp_all
  all_goals grind -linarith [HeapOk]

section

variable (h : HeapOk fs refs)

include h

/-- A file is closed, and its inode is left to the function that closes it. -/
theorem HeapOk.removeFile (hf : fs.files f = some file)
    (hdeny : file.denyWrite = false) : HeapOk (fs.setFile f none) (file.inode :: refs) := by
  have hlt := h.file_lt f file hf
  constructor <;> simp only [Fs.setFile]
  case openCnt =>
    intro id inode hi
    have hu := countBelow_uses fs id hlt none
    have hopen := h.openCnt id inode hi
    change _ = countBelow fs.next ((fs.setFile f none).uses id) + _
    rw [count_cons]
    cases hid : file.inode == id <;> simp_all
    omega
  case denyCnt =>
    intro id inode hi
    have hd := countBelow_denies fs id hlt none
    have hcnt := h.denyCnt id inode hi
    change _ = countBelow fs.next ((fs.setFile f none).denies id)
    simp_all
  all_goals grind -linarith [HeapOk]

/-- The position of a file is changed. -/
theorem HeapOk.setPos (hf : fs.files f = some file) (pos : Nat) :
    HeapOk (fs.setFile f (some { file with pos })) refs := by
  have hu : (fs.setFile f (some { file with pos })).uses = fs.uses := by
    funext id j
    by_cases hj : j = f <;> simp [uses, setFile, hj, hf]
  have hd : (fs.setFile f (some { file with pos })).denies = fs.denies := by
    funext id j
    by_cases hj : j = f <;> simp [denies, setFile, hj, hf]
  constructor
  case openCnt => exact hu ▸ h.openCnt
  case denyCnt => exact hd ▸ h.denyCnt
  all_goals
    simp only [Fs.setFile]
    grind -linarith [HeapOk]

/-- A file denies writing, or allows it again. -/
theorem HeapOk.setDeny (hf : fs.files f = some file)
    (hi : fs.inodes file.inode = some inode) {deny : Bool} {cnt : Nat}
    (hcnt : cnt + file.denyWrite.toNat = inode.denyWriteCnt + deny.toNat) :
    HeapOk ((fs.setFile f (some { file with denyWrite := deny })).setInode file.inode
      (some { inode with denyWriteCnt := cnt })) refs := by
  have hlt := h.file_lt f file hf
  have hu : ((fs.setFile f (some { file with denyWrite := deny })).setInode file.inode
      (some { inode with denyWriteCnt := cnt })).uses = fs.uses := by
    funext id j
    by_cases hj : j = f <;> simp [uses, setFile, Fs.setInode, hj, hf]
  constructor
  case denyCnt =>
    intro id inode' hi'
    have hd := countBelow_denies fs id hlt (some { file with denyWrite := deny })
    rw [hf, any_some, any_some] at hd
    change _ = countBelow fs.next ((fs.setFile f (some { file with denyWrite := deny })).denies id)
    simp only [Fs.setInode] at hi'
    by_cases hid : id = file.inode
    · subst hid
      rw [update_self, some_inj] at hi'
      have := h.denyCnt _ _ hi
      simp only [beq_self_eq_true, Bool.true_and] at hd
      subst hi'
      dsimp only
      omega
    · rw [update_of_ne hid] at hi'
      have := h.denyCnt _ _ hi'
      simp only [beq_false_of_ne (Ne.symm hid), Bool.false_and, Bool.toNat_false] at hd
      omega
  case openCnt =>
    intro id inode' hi'
    rw [hu]
    have hopen := h.openCnt
    simp only [Fs.setFile, Fs.setInode] at hi' ⊢
    grind -linarith
  all_goals
    simp only [Fs.setFile, Fs.setInode]
    grind -linarith [HeapOk]

/-- The inode of a file that denies writing counts it. -/
theorem HeapOk.deny_pos (hfile : fs.files f = some file)
    (hi : fs.inodes file.inode = some inode) (hdeny : file.denyWrite = true) :
    0 < inode.denyWriteCnt := by
  rw [h.denyCnt _ _ hi, Nat.pos_iff_ne_zero, Ne, countBelow_eq_zero]
  intro h0
  have := h0 f (h.file_lt f file hfile)
  simp [denies, hfile, hdeny] at this

theorem HeapOk.deny_le (hi : fs.inodes id = some inode) :
    inode.denyWriteCnt ≤ inode.openCnt := by
  rw [h.denyCnt _ _ hi, h.openCnt _ _ hi]
  refine Nat.le_add_right_of_le (countBelow_le fun j _ hj ↦ ?_)
  simp only [denies, uses, Option.any_eq_true] at hj ⊢
  obtain ⟨file, hfile, hboth⟩ := hj
  exact ⟨file, hfile, (Bool.and_eq_true_iff.mp hboth).1⟩

end

end Fs

end Pintos
