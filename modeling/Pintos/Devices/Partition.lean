import Pintos.Filesys.State

/-!
# Partitions

`partition_scan` of `devices/partition.c` has `read_partition_table` read the partition table in
sector 0 and, by calling itself for the extended entries, the tables that these lead to.

* `TableLists` — what the format says: which partitions a table lists, with those of the extended
  tables it leads to, and the sectors of these tables, in depth-first order.  The tables of a device
  are a finite tree if there is a derivation.
* `partition_scan_lists_iff` — these tables are read, and `found_partition` is called for these
  partitions with the numbers 1, 2, 3 and so on, exactly if there are no extended partitions.
* `partition_scan_rereads` — whatever `sector` is, `read_partition_table` calls `block_read` with
  sector 0, and so takes the primary table for the extended one.
* `partition_scan_ends_iff` — for the same reason the scan may not end, so it gets a number of
  nested calls that it may make at most.
* `partitions_confined_iff` — what is registered is on the device, but the start of it may have
  wrapped.
-/

set_option autoImplicit false

namespace Pintos

open List

/-- Why code does not return. -/
inductive Halt where
  | panic
  /-- More nested calls than it may make. -/
  | fuel
  deriving DecidableEq, Repr

/-! ## Partition tables -/

/-- `struct partition_table_entry`, without what is not read. -/
structure PartitionTableEntry where
  type : UInt8
  offset : Nat
  size : Nat
  deriving DecidableEq, Repr

namespace PartitionTableEntry

/-- Entry `i` of `struct partition_table`. -/
def decode (pt : Sector) (i : Nat) : PartitionTableEntry :=
  ⟨pt (446 + 16 * i + 4), le32 pt (446 + 16 * i + 8), le32 pt (446 + 16 * i + 12)⟩

/-- An entry that is not in use. -/
def Empty (e : PartitionTableEntry) : Prop := e.size = 0 ∨ e.type = 0

/-- The types of extended partitions: the common one, and those of Windows 98, Linux and DR-DOS. -/
def Extended (e : PartitionTableEntry) : Prop :=
  e.type = 0x05 ∨ e.type = 0x0f ∨ e.type = 0x85 ∨ e.type = 0xc5

instance (e : PartitionTableEntry) : Decidable e.Empty :=
  inferInstanceAs (Decidable (e.size = 0 ∨ e.type = 0))

instance (e : PartitionTableEntry) : Decidable e.Extended :=
  inferInstanceAs (Decidable (e.type = 0x05 ∨ e.type = 0x0f ∨ e.type = 0x85 ∨ e.type = 0xc5))

end PartitionTableEntry

/-- `partitions` of `struct partition_table`. -/
def partitions (pt : Sector) : List PartitionTableEntry :=
  [.decode pt 0, .decode pt 1, .decode pt 2, .decode pt 3]

/-- `signature` of `struct partition_table`. -/
def tableSignature (pt : Sector) : Nat := (pt 510).toNat + 2 ^ 8 * (pt 511).toNat

/-! ## The scan -/

/-- `enum block_type`. -/
inductive BlockType where
  | kernel
  | filesys
  | scratch
  | swap
  | raw
  | foreign
  deriving DecidableEq, Repr

/-- The arguments of `found_partition`. -/
structure FoundPartition where
  type : UInt8
  start : Nat
  size : Nat
  partNr : Nat
  deriving DecidableEq, Repr

/-- A partition that has been registered as a block device. -/
structure Partition where
  name : String
  type : BlockType
  size : Nat
  start : Nat
  deriving DecidableEq, Repr

/-- What the scan has done so far. -/
structure Scan where
  /-- `*part_nr`. -/
  partNr : Nat := 0
  /-- The sectors that `block_read` has been called with. -/
  reads : List Nat := []
  /-- The calls of `found_partition`. -/
  found : List FoundPartition := []
  /-- What it has added to `all_blocks`. -/
  registered : List Partition := []
  /-- What it has printed. -/
  printed : List String := []
  /-- Whether the next calls of `malloc` succeed; where the list ends, they do. -/
  oracle : List Bool := []
  deriving DecidableEq, Repr

namespace Scan

/-- `printf`. -/
def print (scan : Scan) (text : String) : Scan := { scan with printed := scan.printed ++ [text] }

/-- A call of `malloc` after which a null pointer is a panic. -/
def malloc (scan : Scan) : Except Halt Scan :=
  match scan.oracle with
  | [] => .ok scan
  | true :: oracle => .ok { scan with oracle }
  | false :: _ => .error .panic

/-- `found_partition`. -/
def foundPartition (block : Block) (name : String) (type : UInt8) (start size partNr : Nat)
    (scan : Scan) : Except Halt Scan := do
  let scan : Scan := { scan with found := scan.found ++ [⟨type, start, size, partNr⟩] }
  let finish := (start + size) % 2 ^ 32
  let deviceSize := block.size
  if start ≥ deviceSize then
    return scan.print s!"{name}{partNr}: Partition starts past end of device (sector {start})\n"
  else if finish < start ∨ finish > deviceSize then
    return scan.print
      s!"{name}{partNr}: Partition end ({finish}) past end of device ({deviceSize})\n"
  else
    let role : BlockType :=
      if type = 0x20 then .kernel
      else if type = 0x21 then .filesys
      else if type = 0x22 then .scratch
      else if type = 0x23 then .swap
      else .foreign
    let scan ← scan.malloc
    -- the second one is in `block_register`
    let scan ← scan.malloc
    let partition : Partition := ⟨(s!"{name}{partNr}".take 15).toString, role, size, start⟩
    return { scan with registered := scan.registered ++ [partition] }

/-- `block_read`. -/
def blockRead (scan : Scan) (block : Block) (sector : Nat) : Except Halt (Sector × Scan) :=
  match block.read sector with
  | none => .error .panic
  | some pt => .ok (pt, { scan with reads := scan.reads ++ [sector] })

/-- `read_partition_table`.  Note the sector that is read. -/
def readPartitionTable (block : Block) (name : String) :
    Nat → Nat → Nat → Scan → Except Halt Scan
  | 0, _, _, _ => .error .fuel
  | fuel + 1, sector, primaryExtendedSector, scan =>
    if sector ≥ block.size then
      return scan.print s!"{name}: Partition table at sector {sector} past end of device.\n"
    else do
      let scan ← scan.malloc
      let (pt, scan) ← scan.blockRead block 0
      if tableSignature pt ≠ 0xaa55 then
        if primaryExtendedSector = 0 then
          return scan.print s!"{name}: Invalid partition table signature\n"
        else
          return scan.print s!"{name}: Invalid extended partition table in sector {sector}\n"
      else
        (partitions pt).foldlM
          (fun scan e ↦
            if e.Empty then return scan
            else if e.Extended then
              let scan := scan.print s!"{name}: Extended partition in sector {sector}\n"
              if sector = 0 then
                readPartitionTable block name fuel e.offset e.offset scan
              else
                readPartitionTable block name fuel
                  ((e.offset + primaryExtendedSector) % 2 ^ 32) primaryExtendedSector scan
            else
              let partNr := scan.partNr + 1
              foundPartition block name e.type ((e.offset + sector) % 2 ^ 32) e.size partNr
                { scan with partNr })
          scan

end Scan

/-- `partition_scan`. -/
def partitionScan (block : Block) (name : String) (fuel : Nat) (oracle : List Bool) :
    Except Halt Scan := do
  let scan ← Scan.readPartitionTable block name fuel 0 0 { oracle }
  if scan.partNr = 0 then return scan.print s!"{name}: Device contains no partitions\n"
  return scan

/-! ## What the format says -/

/-- A partition that is not extended. -/
structure ListedPartition where
  type : UInt8
  start : Nat
  size : Nat
  deriving DecidableEq, Repr

/-- The entries of the table in a sector: it has none without the signature. -/
def Block.entries (block : Block) (sector : Nat) : List PartitionTableEntry :=
  if tableSignature (block.data sector) = 0xaa55 then partitions (block.data sector) else []

/-- The entries of a table, the partitions that they and the extended tables they lead to list, and
the sectors of these tables.  For an entry of the table in sector 0, the offset of an extended table
is from the start of the device, and otherwise from the start of the primary extended table. -/
inductive TableLists (block : Block) :
    Nat → Nat → List PartitionTableEntry → List ListedPartition → List Nat → Prop where
  | nil {sector primary : Nat} : TableLists block sector primary [] [] []
  | empty {sector primary : Nat} {e : PartitionTableEntry} {es : List PartitionTableEntry}
      {l : List ListedPartition} {ts : List Nat} (he : e.Empty)
      (hes : TableLists block sector primary es l ts) :
      TableLists block sector primary (e :: es) l ts
  | primaryExtended {primary : Nat} {e : PartitionTableEntry} {es : List PartitionTableEntry}
      {l₁ l₂ : List ListedPartition} {ts₁ ts₂ : List Nat} (he : ¬ e.Empty) (hext : e.Extended)
      (hdevice : e.offset < block.size)
      (htable : TableLists block e.offset e.offset (block.entries e.offset) l₁ ts₁)
      (hes : TableLists block 0 primary es l₂ ts₂) :
      TableLists block 0 primary (e :: es) (l₁ ++ l₂) (e.offset :: ts₁ ++ ts₂)
  | extended {sector primary : Nat} {e : PartitionTableEntry} {es : List PartitionTableEntry}
      {l₁ l₂ : List ListedPartition} {ts₁ ts₂ : List Nat} (hsector : sector ≠ 0) (he : ¬ e.Empty)
      (hext : e.Extended) (hdevice : e.offset + primary < block.size)
      (htable : TableLists block (e.offset + primary) primary
        (block.entries (e.offset + primary)) l₁ ts₁)
      (hes : TableLists block sector primary es l₂ ts₂) :
      TableLists block sector primary (e :: es) (l₁ ++ l₂) ((e.offset + primary) :: ts₁ ++ ts₂)
  | partition {sector primary : Nat} {e : PartitionTableEntry} {es : List PartitionTableEntry}
      {l : List ListedPartition} {ts : List Nat} (he : ¬ e.Empty) (hext : ¬ e.Extended)
      (hes : TableLists block sector primary es l ts) :
      TableLists block sector primary (e :: es) (⟨e.type, e.offset + sector, e.size⟩ :: l) ts

/-- The partitions of a device, and the sectors of its tables. -/
def Block.Lists (block : Block) (l : List ListedPartition) (ts : List Nat) : Prop :=
  0 < block.size ∧ ∃ ts', ts = 0 :: ts' ∧ TableLists block 0 0 (block.entries 0) l ts'

/-- Partitions with their numbers, after `n` others. -/
def numbered (n : Nat) : List ListedPartition → List FoundPartition
  | [] => []
  | p :: l => ⟨p.type, p.start, p.size, n + 1⟩ :: numbered (n + 1) l

/-! ## Without extended partitions -/

variable {block : Block} {name : String} {e : PartitionTableEntry}

/-- The table in sector 0 does not lead to itself, since its tables are a finite tree. -/
theorem TableLists.offset_ne_zero {sector primary : Nat} {es : List PartitionTableEntry}
    {l : List ListedPartition} {ts : List Nat} (h : TableLists block sector primary es l ts)
    (hsector : sector = 0) (he : e ∈ es) (hroot : e ∈ block.entries 0) (hempty : ¬ e.Empty)
    (hext : e.Extended) : e.offset ≠ 0 ∧ e.offset ∈ ts := by
  induction h with
  | nil => cases he
  | empty he' _ ih =>
    rcases List.mem_cons.mp he with rfl | he
    · exact absurd he' hempty
    · exact ih hsector he
  | primaryExtended _ _ _ _ _ htable hes =>
    rcases List.mem_cons.mp he with rfl | he
    · refine ⟨fun h0 ↦ ?_, List.mem_cons_self⟩
      exact (htable h0 (h0 ▸ hroot)).1 h0
    · obtain ⟨hne, hmem⟩ := hes hsector he
      exact ⟨hne, List.mem_append_right _ hmem⟩
  | extended hne => exact absurd hsector hne
  | partition _ hext' _ ih =>
    rcases List.mem_cons.mp he with rfl | he
    · exact absurd hext hext'
    · exact ih hsector he

theorem bind_eq_ok {α β : Type} {x : Except Halt α} {f : α → Except Halt β} {b : β} :
    x >>= f = .ok b ↔ ∃ a, x = .ok a ∧ f a = .ok b := by
  cases x <;> simp [bind, Except.bind]

/-- An invariant of the loop over the entries of a table. -/
theorem foldlM_invariant {I : Scan → Prop} {es : List PartitionTableEntry}
    {body : Scan → PartitionTableEntry → Except Halt Scan} {scan scan' : Scan}
    (hbody : ∀ scan e scan', I scan → body scan e = .ok scan' → I scan') (hI : I scan)
    (h : es.foldlM body scan = .ok scan') : I scan' := by
  induction es generalizing scan with
  | nil =>
    cases h
    exact hI
  | cons e es ih =>
    rw [foldlM_cons, bind_eq_ok] at h
    obtain ⟨scan1, hcall, hrest⟩ := h
    exact ih (hbody _ _ _ hI hcall) hrest

namespace Scan

variable {scan scan' : Scan}

theorem malloc_returns (hmem : scan.oracle = []) : scan.malloc = .ok scan := by
  rw [malloc, hmem]

theorem malloc_eq_ok (h : scan.malloc = .ok scan') :
    ∃ oracle, scan' = { scan with oracle } := by
  unfold malloc at h
  split at h <;> cases h <;> exact ⟨_, rfl⟩

theorem blockRead_of_lt (hsize : 0 < block.size) : scan.blockRead block 0 =
    .ok (block.data 0, { scan with reads := scan.reads ++ [0] }) := by
  rw [blockRead, Block.read_eq_some.mpr ⟨hsize, rfl⟩]

/-- With memory, `found_partition` returns. -/
theorem foundPartition_returns (scan : Scan) (block : Block) (name : String) (type : UInt8)
    (start size partNr : Nat) (hmem : scan.oracle = []) :
    ∃ scan', scan.foundPartition block name type start size partNr = .ok scan' ∧
      scan'.found = scan.found ++ [⟨type, start, size, partNr⟩] ∧ scan'.partNr = scan.partNr ∧
      scan'.oracle = [] ∧ scan'.reads = scan.reads := by
  have hcall : ∀ found, malloc { scan with found } = .ok { scan with found } := fun _ ↦
    malloc_returns hmem
  unfold foundPartition
  dsimp only
  split
  · exact ⟨_, rfl, rfl, rfl, hmem, rfl⟩
  · split
    · exact ⟨_, rfl, rfl, rfl, hmem, rfl⟩
    · simp only [hcall, bind, Except.bind]
      exact ⟨_, rfl, rfl, rfl, hmem, rfl⟩

/-- `found_partition` reads nothing, and what it registers is on the device: the end of it does not
wrap. -/
theorem foundPartition_eq_ok {type : UInt8} {start size partNr : Nat}
    (h : scan.foundPartition block name type start size partNr = .ok scan') :
    scan'.reads = scan.reads ∧ (scan'.registered = scan.registered ∨
      (start + size) % 2 ^ 32 ≤ block.size ∧ start ≤ (start + size) % 2 ^ 32 ∧ start < block.size ∧
      ∃ p : Partition, scan'.registered = scan.registered ++ [p] ∧ p.start = start ∧
        p.size = size) := by
  unfold foundPartition at h
  dsimp only at h
  split at h
  · cases h
    exact ⟨rfl, .inl rfl⟩
  split at h
  · cases h
    exact ⟨rfl, .inl rfl⟩
  next hstart hend =>
  obtain ⟨scan1, h1, h⟩ := bind_eq_ok.mp h
  obtain ⟨scan2, h2, h⟩ := bind_eq_ok.mp h
  obtain ⟨oracle1, rfl⟩ := malloc_eq_ok h1
  obtain ⟨oracle2, rfl⟩ := malloc_eq_ok h2
  cases h
  exact ⟨rfl, .inr ⟨by omega, by omega, by omega, _, rfl, rfl, rfl⟩⟩

/-- The entries of the table in sector 0, none of which is extended.  What `body` does for one that
is extended does not matter then. -/
theorem foldlM_entries (name : String) {es : List PartitionTableEntry} {l : List ListedPartition}
    {ts : List Nat} {body : Scan → PartitionTableEntry → Except Halt Scan}
    (hl : TableLists block 0 0 es l ts) (hno : ∀ e ∈ es, ¬ e.Empty → ¬ e.Extended)
    (hoffset : ∀ e ∈ es, e.offset < 2 ^ 32) (hempty : ∀ scan e, e.Empty → body scan e = .ok scan)
    (hfound : ∀ scan : Scan, ∀ e, ¬ e.Empty → ¬ e.Extended → body scan e =
      foundPartition block name e.type ((e.offset + 0) % 2 ^ 32) e.size (scan.partNr + 1)
        { scan with partNr := scan.partNr + 1 })
    (hmem : scan.oracle = []) :
    ∃ scan', es.foldlM body scan = .ok scan' ∧
      scan'.found = scan.found ++ numbered scan.partNr l ∧ scan'.reads = scan.reads ++ ts := by
  induction es generalizing scan l ts with
  | nil =>
    cases hl
    exact ⟨scan, rfl, (append_nil _).symm, (append_nil _).symm⟩
  | cons e es ih =>
    have hno' : ∀ e ∈ es, ¬ e.Empty → ¬ e.Extended := fun e he ↦ hno e (mem_cons_of_mem _ he)
    have hoffset' : ∀ e ∈ es, e.offset < 2 ^ 32 := fun e he ↦ hoffset e (mem_cons_of_mem _ he)
    rw [foldlM_cons]
    cases hl with
    | empty he hes =>
      rw [hempty scan e he]
      exact ih hes hno' hoffset' hmem
    | primaryExtended he hext => exact absurd hext (hno e mem_cons_self he)
    | extended hsector => exact absurd rfl hsector
    | partition he hext hes =>
      obtain ⟨scan1, hcall, hfound1, hnr, hmem1, hreads1⟩ := foundPartition_returns
        { scan with partNr := scan.partNr + 1 } block name e.type ((e.offset + 0) % 2 ^ 32) e.size
        (scan.partNr + 1) hmem
      obtain ⟨scan', hrest, hfound', hreads'⟩ := ih hes hno' hoffset' hmem1
      refine ⟨scan', ?_, ?_, hreads1 ▸ hreads'⟩
      · rw [hfound scan e he hext, hcall]
        exact hrest
      · have hstart : (e.offset + 0) % 2 ^ 32 = e.offset + 0 :=
          Nat.mod_eq_of_lt (hoffset e mem_cons_self)
        rw [hfound', hfound1, hnr, numbered, append_assoc, hstart]
        rfl

/-- Nothing but sector 0 is read. -/
theorem reads_readPartitionTable {fuel sector primary : Nat}
    (h : readPartitionTable block name fuel sector primary scan = .ok scan')
    (hreads : ∀ n ∈ scan.reads, n = 0) : ∀ n ∈ scan'.reads, n = 0 := by
  induction fuel generalizing sector primary scan scan' with
  | zero => cases h
  | succ fuel ih =>
    unfold readPartitionTable at h
    split at h
    · cases h
      exact hreads
    next hsector =>
    obtain ⟨_, hmalloc, h⟩ := bind_eq_ok.mp h
    obtain ⟨oracle, rfl⟩ := malloc_eq_ok hmalloc
    rw [blockRead_of_lt (Nat.zero_lt_of_lt (Nat.not_le.mp hsector))] at h
    have hreads1 : ∀ n ∈ scan.reads ++ [0], n = 0 := by
      simpa [or_imp, forall_and] using hreads
    dsimp only [bind, Except.bind] at h
    split at h
    · split at h <;> cases h <;> exact hreads1
    · refine foldlM_invariant (I := fun scan ↦ ∀ n ∈ scan.reads, n = 0)
        (fun scan2 e scan3 hI hbody ↦ ?_) hreads1 h
      split at hbody
      · cases hbody
        exact hI
      split at hbody
      · split at hbody <;> exact ih hbody hI
      · rw [(foundPartition_eq_ok hbody).1]
        exact hI

end Scan

theorem offset_lt_of_mem_entries {sector : Nat}
    (he : e ∈ block.entries sector) : e.offset < 2 ^ 32 := by
  unfold Block.entries at he
  split at he
  · simp only [partitions, mem_cons, not_mem_nil, or_false] at he
    rcases he with rfl | rfl | rfl | rfl <;> exact le32_lt _ _
  · cases he

/-- The message at the end of `partition_scan` does not matter. -/
theorem partitionScan_ok_iff {fuel : Nat} (P : Scan → Prop)
    (hprint : ∀ scan text, P (scan.print text) ↔ P scan) :
    (∃ scan, partitionScan block name fuel [] = .ok scan ∧ P scan) ↔
      ∃ scan, Scan.readPartitionTable block name fuel 0 0 {} = .ok scan ∧ P scan := by
  rw [partitionScan]
  cases Scan.readPartitionTable block name fuel 0 0 {} with
  | error halt => simp [bind, Except.bind]
  | ok scan =>
    simp only [bind, Except.bind]
    split <;> simp [pure, Except.pure, hprint]

/-- **Partition scan.**  Take a device whose tables are a finite tree on it.  With memory,
`partition_scan` reads these tables, each from the sector its entry designates, and calls
`found_partition` for the partitions that they list, in their order and with the numbers 1, 2, 3 and
so on, exactly if no entry of the table in sector 0 that is in use is extended. -/
theorem partition_scan_lists_iff {l : List ListedPartition} {ts : List Nat}
    (hl : block.Lists l ts) :
    (∃ fuel scan, partitionScan block name fuel [] = .ok scan ∧ scan.found = numbered 0 l ∧
      scan.reads = ts) ↔ ∀ e ∈ block.entries 0, ¬ e.Empty → ¬ e.Extended := by
  obtain ⟨hsize, ts, rfl, hl⟩ := hl
  simp only [partitionScan_ok_iff
    (fun scan ↦ scan.found = numbered 0 l ∧ scan.reads = 0 :: ts) fun _ _ ↦ Iff.rfl]
  constructor
  · rintro ⟨fuel, scan, hscan, -, hreads⟩ e he hempty hext
    -- The sector of the extended table has not been read.
    obtain ⟨hne, hmem⟩ := hl.offset_ne_zero rfl he he hempty hext
    refine hne (Scan.reads_readPartitionTable hscan (by simp) e.offset ?_)
    rw [hreads]
    exact mem_cons_of_mem 0 hmem
  · intro hno
    have hoffset : ∀ e ∈ block.entries 0, e.offset < 2 ^ 32 := fun e ↦ offset_lt_of_mem_entries
    refine ⟨1, ?_⟩
    unfold Scan.readPartitionTable
    rw [if_neg (Nat.not_le.mpr hsize), Scan.malloc_returns rfl]
    simp only [bind, Except.bind, Scan.blockRead_of_lt hsize]
    unfold Block.entries at hl hno hoffset
    by_cases hsig : tableSignature (block.data 0) = 0xaa55
    · rw [if_pos hsig] at hl hno hoffset
      simp only [hsig, ne_eq, not_true_eq_false, if_false]
      refine Scan.foldlM_entries name hl hno hoffset (fun scan e he ↦ ?_)
        (fun scan e he hext ↦ ?_) rfl
      · rw [if_pos he]
        rfl
      · rw [if_neg he, if_neg hext]
    · rw [if_neg hsig] at hl
      cases hl
      simp only [ne_eq, hsig, not_false_eq_true, if_true]
      exact ⟨_, rfl, rfl, rfl⟩

/-- A table whose first entry is given, and whose other entries are empty. -/
def tableOf (type offset size : UInt8) : Sector := fun i ↦
  if i = 446 + 4 then type else if i = 446 + 8 then offset else if i = 446 + 12 then size
  else if i = 510 then 0x55 else if i = 511 then 0xaa else 0

/-- The other entries list nothing. -/
theorem tableLists_tableOf (block : Block) (sector primary : Nat) (type offset size : UInt8) :
    TableLists block sector primary (partitions (tableOf type offset size)).tail [] [] :=
  .empty (.inl rfl) (.empty (.inl rfl) (.empty (.inl rfl) .nil))

/-- A device of four sectors, the table in the first of which lists the other three. -/
def plainDisk : Block := ⟨4, fun _ ↦ tableOf 0x83 1 3⟩

theorem partition_scan_lists_iff_plainDisk : ∃ fuel scan,
    partitionScan plainDisk "hda" fuel [] = .ok scan ∧ scan.found = [⟨0x83, 1, 3, 1⟩] ∧
      scan.reads = [0] := by
  have hl : plainDisk.Lists [⟨0x83, 1, 3⟩] [0] := ⟨by decide, [], rfl,
    .partition (by decide) (by decide) (tableLists_tableOf _ 0 0 0x83 1 3)⟩
  exact (partition_scan_lists_iff hl).mpr (by decide)

/-- A device of four sectors.  The table in sector 0 has an extended entry that leads to the table
in sector 2, and that one lists sector 3. -/
def nestedDisk : Block :=
  ⟨4, fun sector ↦ if sector = 2 then tableOf 0x83 1 1 else tableOf 0x05 2 2⟩

/-- **The extended table is not read.**  For sector 2, the table in sector 0 is read once more; its
extended entry now leads to sector 4, which is past the end of the device. -/
theorem partition_scan_rereads : nestedDisk.Lists [⟨0x83, 3, 1⟩] [0, 2] ∧
      ∃ scan, partitionScan nestedDisk "hda" 3 [] = .ok scan ∧ scan.found = [] ∧
        scan.reads = [0, 0] := by
  have htable : TableLists nestedDisk 2 2 (nestedDisk.entries 2) [⟨0x83, 3, 1⟩] [] :=
    .partition (e := .decode (tableOf 0x83 1 1) 0) (by decide) (by decide)
      (tableLists_tableOf _ 2 2 0x83 1 1)
  have hroot : TableLists nestedDisk 0 0 (nestedDisk.entries 0) ([⟨0x83, 3, 1⟩] ++ []) [2] :=
    .primaryExtended (e := .decode (tableOf 0x05 2 2) 0) (by decide) (by decide) (by decide) htable
      (tableLists_tableOf _ 0 0 0x05 2 2)
  exact ⟨⟨by decide, [2], rfl, hroot⟩, _, rfl, rfl, rfl⟩

/-! ## Whether the scan ends -/

/-- The arguments of the call of `read_partition_table` for an extended entry. -/
def nextTable (sector primary : Nat) (e : PartitionTableEntry) : Nat × Nat :=
  if sector = 0 then (e.offset, e.offset) else ((e.offset + primary) % 2 ^ 32, primary)

/-- The table in sector 0 has an entry that leads to another table. -/
def Block.Leads (block : Block) (e : PartitionTableEntry) : Prop :=
  tableSignature (block.data 0) = 0xaa55 ∧ e ∈ partitions (block.data 0) ∧ ¬ e.Empty ∧ e.Extended

/-- With memory, a call returns. -/
def Scan.Returned (r : Except Halt Scan) : Prop := ∃ scan, r = .ok scan ∧ scan.oracle = []

section

variable {body : Scan → PartitionTableEntry → Except Halt Scan} {es : List PartitionTableEntry}

theorem returned_foldlM {scan : Scan}
    (h : ∀ e ∈ es, ∀ scan, scan.oracle = [] → Scan.Returned (body scan e))
    (hmem : scan.oracle = []) : Scan.Returned (es.foldlM body scan) := by
  induction es generalizing scan with
  | nil => exact ⟨scan, rfl, hmem⟩
  | cons e es ih =>
    obtain ⟨scan', heq, hmem'⟩ := h e mem_cons_self scan hmem
    rw [foldlM_cons, heq]
    exact ih (fun e he ↦ h e (mem_cons_of_mem _ he)) hmem'

theorem ok_of_foldlM_ok {scan scan' : Scan} (h : es.foldlM body scan = .ok scan') (he : e ∈ es) :
    ∃ scan scan', body scan e = .ok scan' := by
  induction es generalizing scan with
  | nil => cases he
  | cons e' es ih =>
    rw [foldlM_cons, bind_eq_ok] at h
    obtain ⟨scan1, hbody, hrest⟩ := h
    rcases mem_cons.mp he with rfl | he
    · exact ⟨scan, scan1, hbody⟩
    · exact ih hrest he

end

namespace Scan

variable {fuel sector primary : Nat} {scan scan' : Scan}

/-- A call returns if the calls for the tables that its entries lead to do. -/
theorem returned_readPartitionTable (hmem : scan.oracle = [])
    (h : sector < block.size → ∀ e, block.Leads e → ∀ scan : Scan, scan.oracle = [] →
      Returned (readPartitionTable block name fuel (nextTable sector primary e).1
        (nextTable sector primary e).2 scan)) :
    Returned (readPartitionTable block name (fuel + 1) sector primary scan) := by
  unfold readPartitionTable
  split
  · exact ⟨_, rfl, hmem⟩
  next hsector =>
  have hsize : 0 < block.size := by omega
  simp only [malloc_returns hmem, blockRead_of_lt hsize, bind, Except.bind]
  split
  · split <;> exact ⟨_, rfl, hmem⟩
  next hsig =>
  refine returned_foldlM (fun e he scan hmem ↦ ?_) hmem
  split
  · exact ⟨_, rfl, hmem⟩
  next hempty =>
  split
  · next hext =>
    have hnext := h (Nat.not_le.mp hsector) e ⟨not_not.mp hsig, he, hempty, hext⟩
      (scan.print s!"{name}: Extended partition in sector {sector}\n") hmem
    rw [nextTable] at hnext
    split <;> simp_all only [if_true, if_false]
  · obtain ⟨scan', heq, -, -, hmem', -⟩ := foundPartition_returns
      { scan with partNr := scan.partNr + 1 } block name e.type ((e.offset + sector) % 2 ^ 32)
      e.size (scan.partNr + 1) hmem
    exact ⟨scan', heq, hmem'⟩

/-- When a call has returned, so have those for the tables that its entries lead to. -/
theorem ok_of_readPartitionTable_ok (hsector : sector < block.size) (he : block.Leads e)
    (h : readPartitionTable block name (fuel + 1) sector primary scan = .ok scan') :
    ∃ scan scan', readPartitionTable block name fuel (nextTable sector primary e).1
      (nextTable sector primary e).2 scan = .ok scan' := by
  obtain ⟨hsig, hmem, hempty, hext⟩ := he
  unfold readPartitionTable at h
  rw [if_neg (Nat.not_le.mpr hsector)] at h
  obtain ⟨scan1, -, h⟩ := bind_eq_ok.mp h
  simp only [blockRead_of_lt (Nat.zero_lt_of_lt hsector), bind, Except.bind, hsig, ne_eq,
    not_true_eq_false, if_false] at h
  obtain ⟨scan2, scan3, hcall⟩ := ok_of_foldlM_ok h hmem
  rw [if_neg hempty, if_pos hext] at hcall
  by_cases h0 : sector = 0 <;> simp only [nextTable, h0, if_true, if_false] at hcall ⊢ <;>
    exact ⟨_, _, hcall⟩

/-- **Tables that lead to one another are read without an end.** -/
theorem readPartitionTable_ne_ok {T : Nat → Nat → Prop} (hT : ∀ sector primary,
      T sector primary → sector < block.size ∧ ∃ e, block.Leads e ∧
        T (nextTable sector primary e).1 (nextTable sector primary e).2) (h : T sector primary) :
    readPartitionTable block name fuel sector primary scan ≠ .ok scan' := by
  induction fuel generalizing sector primary scan scan' with
  | zero => nofun
  | succ fuel ih =>
    intro hok
    obtain ⟨hsector, e, he, hnext⟩ := hT sector primary h
    obtain ⟨_, _, hcall⟩ := ok_of_readPartitionTable_ok hsector he hok
    exact ih hnext hcall

end Scan

/-- A table that an entry of the table in sector 0 leads to is past the end of the device, or it is
not in sector 0 and the next one is past the end. -/
def Block.Shallow (block : Block) : Prop :=
  ∀ e, block.Leads e → e.offset < block.size → e.offset ≠ 0 ∧
    ∀ e', block.Leads e' → block.size ≤ (e'.offset + e.offset) % 2 ^ 32

/-- **With memory, the scan returns exactly if the tables of the device are shallow.**  Since each
call reads sector 0, a table that is on the device leads to itself. -/
theorem partition_scan_ends_iff :
    (∃ fuel scan, partitionScan block name fuel [] = .ok scan) ↔ block.Shallow := by
  have hiff : ∀ fuel, (∃ scan, partitionScan block name fuel [] = .ok scan) ↔
      ∃ scan, Scan.readPartitionTable block name fuel 0 0 {} = .ok scan := by
    intro fuel
    simpa using partitionScan_ok_iff (fun _ ↦ True) fun _ _ ↦ Iff.rfl
  simp only [hiff]
  constructor
  · rintro ⟨fuel, scan, hok⟩ e he hlt
    have h0 : e.offset ≠ 0 := by
      intro h0
      refine Scan.readPartitionTable_ne_ok (T := fun sector _ ↦ sector = 0) ?_ rfl hok
      rintro _ primary rfl
      exact ⟨h0 ▸ hlt, e, he, h0⟩
    refine ⟨h0, fun e' he' ↦ Nat.not_lt.mp fun hlt' ↦ ?_⟩
    refine Scan.readPartitionTable_ne_ok (T := fun sector primary ↦
      sector = 0 ∨ primary = e.offset ∧ sector < block.size) (fun sector primary h ↦ ?_) (.inl rfl)
      hok
    by_cases hsector : sector = 0
    · subst hsector
      exact ⟨Nat.zero_lt_of_lt hlt, e, he, .inr ⟨rfl, hlt⟩⟩
    · obtain ⟨rfl, hs⟩ := h.resolve_left hsector
      refine ⟨hs, e', he', ?_⟩
      rw [nextTable, if_neg hsector]
      exact .inr ⟨rfl, hlt'⟩
  · intro h
    -- The table in sector 0, one that it leads to, and one that is past the end.
    suffices hscan : Scan.Returned
        (Scan.readPartitionTable block name 3 0 0 {}) from
      ⟨3, hscan.imp fun _ ↦ And.left⟩
    refine Scan.returned_readPartitionTable rfl fun _ e he scan hmem ↦ ?_
    refine Scan.returned_readPartitionTable hmem fun hlt e' he' scan hmem ↦ ?_
    refine Scan.returned_readPartitionTable hmem fun hlt' ↦ ?_
    obtain ⟨h0, hpast⟩ := h e he hlt
    rw [show nextTable 0 0 e = (e.offset, e.offset) from rfl, nextTable, if_neg h0] at hlt'
    exact absurd hlt' (Nat.not_lt.mpr (hpast e' he'))

/-- A device of four sectors, with an extended table in sector 1. -/
def extendedDisk : Block := ⟨4, fun _ ↦ tableOf 0x05 1 1⟩

/-- **The scan does not end.**  For sectors 1 and 2, the table in sector 0 is read once more, and
its entry leads to sector 2. -/
theorem partition_scan_endless :
    ¬ ∃ fuel scan, partitionScan extendedDisk "hda" fuel [] = .ok scan := by
  rintro ⟨fuel, scan, hok⟩
  obtain ⟨scan, hok, -⟩ :=
    (partitionScan_ok_iff (fun _ ↦ True) fun _ _ ↦ Iff.rfl).mp ⟨scan, hok, trivial⟩
  refine Scan.readPartitionTable_ne_ok (T := fun sector primary ↦
    sector = 0 ∨ (sector = 1 ∨ sector = 2) ∧ primary = 1) ?_ (.inl rfl) hok
  have he : extendedDisk.Leads (.decode (tableOf 0x05 1 1) 0) :=
    ⟨rfl, mem_cons_self, by decide, by decide⟩
  rintro _ _ (rfl | ⟨rfl | rfl, rfl⟩)
  · exact ⟨by decide, _, he, .inr ⟨.inl rfl, rfl⟩⟩
  · exact ⟨by decide, _, he, .inr ⟨.inr rfl, rfl⟩⟩
  · exact ⟨by decide, _, he, .inr ⟨.inr rfl, rfl⟩⟩

/-! ## The sectors of a partition -/

namespace Partition

/-- The sector of the device that `partition_read` and `partition_write` ask for. -/
def target (p : Partition) (sector : Nat) : Nat := (p.start + sector) % 2 ^ 32

/-- `block_read` on a partition: `check_sector`, and then `partition_read`. -/
def read (p : Partition) (block : Block) (sector : Nat) : Kernel Sector := do
  assert (sector < p.size)
  block.read (p.target sector)

/-- `block_write` on a partition. -/
def write (p : Partition) (block : Block) (sector : Nat) (buffer : Sector) : Kernel Block := do
  assert (sector < p.size)
  assert (p.type ≠ .foreign)
  block.write (p.target sector) buffer

/-- The partition is on the device, and what passes the checks on the partition stays within it. -/
structure Confined (p : Partition) (block : Block) : Prop where
  fits : p.start + p.size ≤ block.size
  target : ∀ sector < p.size, p.start ≤ p.target sector ∧ p.target sector < p.start + p.size
  read : ∀ sector < p.size, (p.read block sector).isSome
  write : ∀ sector < p.size, p.type ≠ .foreign → ∀ buffer, (p.write block sector buffer).isSome

theorem confined {p : Partition} (hfits : p.start + p.size ≤ block.size)
    (hsize : block.size < 2 ^ 32) : p.Confined block := by
  have htarget : ∀ sector < p.size, p.target sector = p.start + sector :=
    fun sector hlt ↦ Nat.mod_eq_of_lt (by omega)
  have hdevice : ∀ sector < p.size, p.target sector < block.size := by
    intro sector hlt
    rw [htarget sector hlt]
    omega
  refine ⟨hfits, fun sector hlt ↦ ?_, fun sector hlt ↦ ?_, fun sector hlt htype buffer ↦ ?_⟩
  · rw [htarget sector hlt]
    omega
  · simp [read, Block.read, assert, hlt, hdevice sector hlt]
  · simp [write, Block.write, assert, hlt, htype, hdevice sector hlt]

end Partition

/-- What an entry of the table in a sector registers is a partition that starts there, if that is on
the device, and is confined to it. -/
def Block.EntryConfined (block : Block) (name : String) (type : UInt8)
    (partNr offset sector size : Nat) : Prop :=
  ∀ scan scan', Scan.foundPartition block name type ((offset + sector) % 2 ^ 32) size partNr scan =
    .ok scan' → scan'.registered = scan.registered ∨ offset + sector < block.size ∧
      ∃ p : Partition, scan'.registered = scan.registered ++ [p] ∧ p.start = offset + sector ∧
        p.size = size ∧ p.Confined block

/-- **Partitions are confined to the device, and nothing is registered that starts past its end,
exactly if the sum of the offset and the sector of the table does not wrap** to a range on the
device. -/
theorem partitions_confined_iff {type : UInt8} {partNr offset sector size : Nat}
    (hdevice : block.size < 2 ^ 32) (hsize : size < 2 ^ 32) :
    block.EntryConfined name type partNr offset sector size ↔
      offset + sector < 2 ^ 32 ∨ block.size ≤ (offset + sector) % 2 ^ 32 ∨
        block.size < (offset + sector) % 2 ^ 32 + size := by
  constructor
  · intro h
    by_contra hno
    -- With memory, the range that the sum wraps to is registered.
    obtain ⟨scan', hcall, -⟩ := Scan.foundPartition_returns {} block name type
      ((offset + sector) % 2 ^ 32) size partNr rfl
    have hreg : scan'.registered ≠ [] := by
      unfold Scan.foundPartition at hcall
      rw [if_neg (by omega), if_neg (by omega)] at hcall
      simp only [Scan.malloc, bind, Except.bind] at hcall
      cases hcall
      exact cons_ne_nil _ _
    rcases h _ _ hcall with heq | ⟨hlt, -⟩
    · exact hreg heq
    · omega
  · intro h scan scan' hcall
    rcases (Scan.foundPartition_eq_ok hcall).2 with heq | ⟨hend, hstart', hlt, p, heq, hstart, hp⟩
    · exact .inl heq
    · have hmod : (offset + sector) % 2 ^ 32 = offset + sector := Nat.mod_eq_of_lt (by omega)
      rw [hmod] at hlt hstart
      exact .inr ⟨hlt, p, heq, hstart, hp, Partition.confined (by omega) hdevice⟩

theorem partitions_confined_iff_plainDisk : plainDisk.EntryConfined "hda" 0x83 1 1 0 3 :=
  (partitions_confined_iff (by decide) (by decide)).mpr (.inl (by decide))

/-- A device of four sectors.  The first entry of the table starts 2³² - 1 sectors behind it, and
the second one leads to a table in sector 2. -/
def wrapDisk : Block := ⟨4, fun _ i ↦
  if i = 450 then 0x83 else if 454 ≤ i ∧ i < 458 then 0xff else if i = 458 then 1
  else if i = 466 then 0x05 else if i = 470 ∨ i = 474 then 2
  else if i = 510 then 0x55 else if i = 511 then 0xaa else 0⟩

/-- **A partition that starts past the end is registered.**  For the table in sector 2, the first
entry starts at sector 2³² + 1, and sector 1 is registered. -/
theorem partition_start_wraps :
    (PartitionTableEntry.decode (wrapDisk.data 2) 0).offset + 2 = 2 ^ 32 + 1 ∧
      ∃ scan, partitionScan wrapDisk "hda" 3 [] = .ok scan ∧
        scan.registered.map (fun p ↦ (p.start, p.size)) = [(1, 1)] :=
  ⟨by decide, _, rfl, rfl⟩

end Pintos
