import Mathlib.Algebra.Group.Nat.Defs
import Mathlib.Data.List.Range

/-!
# Disk transfers (`sys/ahci/ahcicommands.c`, `include/sys/ahci/ahci.h`, `include/sys/ahci/fis.h`)

`read_ahci` and `write_ahci` are copies of each other. What was in the pages of the header and the table before is an
argument; the registers that the device changes are sequences of the values read. The entries of the PRDT have 8 KiB
each, but their addresses are 4 KiB apart.
-/

namespace Adix.Ahci

abbrev WORD := BitVec 16

abbrev DWORD := BitVec 32

abbrev BYTE := BitVec 8

structure HbaCmdHeader where
  cfl : BitVec 5
  a : BitVec 1
  w : BitVec 1
  p : BitVec 1
  r : BitVec 1
  b : BitVec 1
  c : BitVec 1
  rsv0 : BitVec 1
  pmp : BitVec 4
  prdtl : WORD
  prdbc : DWORD
  ctba : DWORD
  ctbau : DWORD
  rsv1 : BitVec 128
  deriving DecidableEq

structure HbaPrdtEntry where
  dba : DWORD
  dbau : DWORD
  rsv0 : DWORD
  dbc : BitVec 22
  rsv1 : BitVec 9
  i : BitVec 1
  deriving DecidableEq

structure FisRegH2D where
  fisType : BYTE
  pmport : BitVec 4
  rsv0 : BitVec 3
  c : BitVec 1
  command : BYTE
  featurel : BYTE
  lba0 : BYTE
  lba1 : BYTE
  lba2 : BYTE
  device : BYTE
  lba3 : BYTE
  lba4 : BYTE
  lba5 : BYTE
  featureh : BYTE
  countl : BYTE
  counth : BYTE
  icc : BYTE
  control : BYTE
  rsv1 : DWORD
  deriving DecidableEq

/-- `HBA_CMD_TBL`, with the FIS in the first 20 bytes of `cfis`, and the entries behind the end of `prdt_entry`. -/
structure HbaCmdTbl where
  cfis : FisRegH2D
  cfisRest : BitVec 352
  acmd : BitVec 128
  rsv : BitVec 384
  prdtEntry : Nat → HbaPrdtEntry

/-- The registers of `HBA_PORT` that the functions use; `tfd` is only read, while they wait. -/
structure HbaPort where
  is : DWORD
  sact : DWORD
  ci : DWORD
  deriving DecidableEq

def prdtEntries : Nat := 8

def fisTypeRegH2D : BYTE := 0x27

def ataCmdReadDmaEx : BYTE := 0x25

def ataCmdWriteDmaEx : BYTE := 0x35

def ataDevBusyDrq : DWORD := 0x80 ||| 0x08

def hbaPortIsTfes : DWORD := 0x40000000

def lobyte (w : DWORD) : BYTE := w.setWidth 8

def hibyte (w : DWORD) : BYTE := ((w.setWidth 16 : WORD) >>> 8 &&& 0xff).setWidth 8

/-! ### The command slot -/

/-- The loop of `find_cmdslot` over the slots from `i` on. -/
def findSlot : Nat → Nat → DWORD → Option Nat
  | 0, _, _ => none
  | n + 1, i, slots => if slots &&& 1 = 0 then some i else findSlot n (i + 1) (slots >>> 1)

/-- `find_cmdslot`; `none` is a return of `-1`. -/
def findCmdslot (port : HbaPort) : Option Nat := findSlot 32 0 (port.sact ||| port.ci)

/-! ### The command -/

/-- The header of a command; `w` is its direction. -/
def fillHeader (header : HbaCmdHeader) (w : BitVec 1) (count : DWORD) : HbaCmdHeader :=
  { header with cfl := 20 / 4, w := w, prdtl := ((count - 1) >>> 4).setWidth 16 + 1 }

def zeroEntry : HbaPrdtEntry := ⟨0, 0, 0, 0, 0, 0⟩

def zeroFis : FisRegH2D := ⟨0, 0, 0, 0, 0, 0, 0, 0, 0, 0, 0, 0, 0, 0, 0, 0, 0, 0, 0⟩

/-- The `memset` of the table, which also clears `prdtl - 1` entries behind its end. -/
def clearTable (table : HbaCmdTbl) (prdtl : WORD) : HbaCmdTbl where
  cfis := zeroFis
  cfisRest := 0
  acmd := 0
  rsv := 0
  prdtEntry i := if i + 1 < prdtEntries + prdtl.toNat then zeroEntry else table.prdtEntry i

/-- An entry of the PRDT: address, byte count minus one, no interrupt. -/
def setEntry (table : HbaCmdTbl) (i : Nat) (buf : BitVec 64) (dbc : DWORD) : HbaCmdTbl :=
  { table with
    prdtEntry := Function.update table.prdtEntry i
      { table.prdtEntry i with dba := buf.setWidth 32, dbc := dbc.setWidth 22, i := 0 } }

/-- The entries from `i` on, of which `n` are full and one is the last; the result has `count` after the loop. -/
def fillPrdt : Nat → Nat → BitVec 64 → DWORD → HbaCmdTbl → HbaCmdTbl × DWORD
  | 0, i, buf, count, table => (setEntry table i buf ((count <<< 9) - 1), count)
  | n + 1, i, buf, count, table =>
    -- the address moves by 4 * 1024, while the entry has 8 * 1024 bytes
    fillPrdt n (i + 1) (buf + 4 * 1024) (count - 16) (setEntry table i buf (8 * 1024 - 1))

/-- The command FIS, written over zeros; `count` is the number of sectors. -/
def fillFis (fis : FisRegH2D) (command : BYTE) (startl starth count : DWORD) : FisRegH2D :=
  { fis with
    fisType := fisTypeRegH2D
    c := 1
    command := command
    lba0 := startl.setWidth 8
    lba1 := (startl >>> 8).setWidth 8
    lba2 := (startl >>> 16).setWidth 8
    device := 1#8 <<< 6
    lba3 := (startl >>> 24).setWidth 8
    lba4 := starth.setWidth 8
    lba5 := (starth >>> 8).setWidth 8
    countl := lobyte count
    counth := hibyte count }

structure Command where
  slot : Nat
  header : HbaCmdHeader
  table : HbaCmdTbl

/-- What the pages of the header and of the table hold before. -/
structure Before where
  header : Nat → HbaCmdHeader
  table : HbaCmdTbl

/-- `read_ahci` up to the wait for the port. The FIS has the number of sectors that was asked for. -/
def buildRead (mem : Before) (port : HbaPort) (startl starth count : DWORD) (buffer : BitVec 64) : Option Command :=
  let countsectors := count
  (findCmdslot port).map fun slot =>
    let header := fillHeader (mem.header slot) 0 count
    let (table, _) := fillPrdt (header.prdtl.toNat - 1) 0 buffer count (clearTable mem.table header.prdtl)
    ⟨slot, header, { table with cfis := fillFis table.cfis ataCmdReadDmaEx startl starth countsectors }⟩

/-- `write_ahci` up to the wait for the port. The FIS has the number of sectors that is left after the loop over the
PRDT. -/
def buildWrite (mem : Before) (port : HbaPort) (startl starth count : DWORD) (buffer : BitVec 64) : Option Command :=
  (findCmdslot port).map fun slot =>
    let header := fillHeader (mem.header slot) 1 count
    let (table, count) := fillPrdt (header.prdtl.toNat - 1) 0 buffer count (clearTable mem.table header.prdtl)
    ⟨slot, header, { table with cfis := fillFis table.cfis ataCmdWriteDmaEx startl starth count }⟩

/-! ### Issuing the command -/

/-- What is read from the registers of the port while a function waits. -/
structure Device where
  tfd : Nat → DWORD
  ci : Nat → DWORD
  is : Nat → DWORD

/-- `spin` after the wait for the port. -/
def waitIdle (dev : Device) : Nat → Nat → Nat
  | 0, spin => spin
  | n + 1, spin => if dev.tfd spin &&& ataDevBusyDrq ≠ 0 then waitIdle dev n (spin + 1) else spin

/-- The wait for the command, and the value returned; `none` when it is not over after `fuel` rounds. -/
def waitDone (dev : Device) (slot : Nat) : Nat → Nat → Option Int
  | 0, _ => none
  | fuel + 1, n =>
    if dev.ci n &&& 1#32 <<< slot = 0 then some (if dev.is n &&& hbaPortIsTfes ≠ 0 then -1 else 0)
    else if dev.is n &&& hbaPortIsTfes ≠ 0 then some (-1)
    else waitDone dev slot fuel (n + 1)

/-- The rest of both functions: the port with what has been written to it, and the value returned. -/
def issue (dev : Device) (fuel : Nat) (port : HbaPort) : Option Command → HbaPort × Option Int
  | none => ({ port with is := 0xffffffff }, some (-1))
  | some cmd =>
    if waitIdle dev 1000000 0 = 1000000 then ({ port with is := 0xffffffff }, some (-1))
    else ({ port with is := 0xffffffff, ci := 1#32 <<< cmd.slot }, waitDone dev cmd.slot fuel 0)

def readAhci (dev : Device) (fuel : Nat) (mem : Before) (port : HbaPort) (startl starth count : DWORD)
    (buffer : BitVec 64) : HbaPort × Option Int :=
  issue dev fuel port (buildRead mem port startl starth count buffer)

def writeAhci (dev : Device) (fuel : Nat) (mem : Before) (port : HbaPort) (startl starth count : DWORD)
    (buffer : BitVec 64) : HbaPort × Option Int :=
  issue dev fuel port (buildWrite mem port startl starth count buffer)

open Option BitVec

def HbaPrdtEntry.addr (e : HbaPrdtEntry) : Nat := e.dbau.toNat * 2 ^ 32 + e.dba.toNat

def HbaPrdtEntry.bytes (e : HbaPrdtEntry) : Nat := e.dbc.toNat + 1

/-- The regions follow one another from `a` up to `b`. -/
def Tiles : Nat → List HbaPrdtEntry → Nat → Prop
  | a, [], b => a = b
  | a, e :: es, b => e.addr = a ∧ Tiles (a + e.bytes) es b

instance decidableTiles : ∀ a es b, Decidable (Tiles a es b)
  | a, [], b => inferInstanceAs (Decidable (a = b))
  | a, e :: es, b => have := decidableTiles (a + e.bytes) es b; inferInstanceAs (Decidable (_ ∧ _))

def Command.prdt (cmd : Command) : List HbaPrdtEntry := (List.range cmd.header.prdtl.toNat).map cmd.table.prdtEntry

/-- The entries of the PRDT describe the `n` bytes from `a` on, and the others are empty. -/
structure Describes (cmd : Command) (a n : Nat) : Prop where
  tiles : Tiles a cmd.prdt (a + n)
  rest : ∀ i, cmd.header.prdtl.toNat ≤ i → i < prdtEntries → cmd.table.prdtEntry i = zeroEntry

variable {table : HbaCmdTbl} {count startl starth : DWORD} {buf buffer : BitVec 64} {n i j : Nat} {mem : Before}
  {port : HbaPort} {cmd : Command}

private theorem prdtEntry_setEntry_of_ne {dbc : DWORD} (h : j ≠ i) :
    (setEntry table i buf dbc).prdtEntry j = table.prdtEntry j :=
  Function.update_of_ne h _ _

private theorem fillPrdt_before (h : j < i) : (fillPrdt n i buf count table).1.prdtEntry j = table.prdtEntry j := by
  induction n generalizing i buf count table with
  | zero => exact prdtEntry_setEntry_of_ne (Nat.ne_of_lt h)
  | succ n ih => exact (ih (Nat.lt_succ_of_lt h)).trans (prdtEntry_setEntry_of_ne (Nat.ne_of_lt h))

private theorem fillPrdt_behind (h : i + n < j) : (fillPrdt n i buf count table).1.prdtEntry j = table.prdtEntry j := by
  induction n generalizing i buf count table with
  | zero => exact prdtEntry_setEntry_of_ne (Nat.ne_of_gt h)
  | succ n ih => exact (ih (by omega)).trans (prdtEntry_setEntry_of_ne (by omega))

private theorem fillPrdt_dba : ((fillPrdt n i buf count table).1.prdtEntry i).dba = buf.setWidth 32 := by
  cases n with
  | zero => simp [fillPrdt, setEntry]
  | succ n =>
    rw [fillPrdt, fillPrdt_before (Nat.lt_succ_self i)]
    simp [setEntry]

private theorem fillPrdt_dbau : ((fillPrdt n i buf count table).1.prdtEntry j).dbau = (table.prdtEntry j).dbau := by
  have hset : ∀ (t : HbaCmdTbl) i buf dbc, ((setEntry t i buf dbc).prdtEntry j).dbau = (t.prdtEntry j).dbau := by
    intro t i buf dbc
    by_cases h : j = i
    · subst h
      simp [setEntry]
    · rw [prdtEntry_setEntry_of_ne h]
  induction n generalizing i buf count table with
  | zero => exact hset _ _ _ _
  | succ n ih => exact ih.trans (hset _ _ _ _)

private theorem fillPrdt_count (h : 16 * n ≤ count.toNat) :
    (fillPrdt n i buf count table).2.toNat = count.toNat - 16 * n := by
  induction n generalizing i buf count table with
  | zero => rfl
  | succ n ih =>
    have hsub : (count - 16).toNat = count.toNat - 16 := toNat_sub_of_le (show 16 ≤ count.toNat by omega)
    rw [fillPrdt, ih (by omega), hsub]
    omega

private theorem toNat_prdtl {header : HbaCmdHeader} {w : BitVec 1} (h1 : 1 ≤ count.toNat) (h128 : count.toNat ≤ 128) :
    (fillHeader header w count).prdtl.toNat = (count.toNat - 1) / 16 + 1 := by
  have hsub : (count - 1).toNat = count.toNat - 1 := toNat_sub_of_le (show 1 ≤ count.toNat by omega)
  unfold fillHeader
  simp only [BitVec.toNat_add, toNat_setWidth, toNat_ushiftRight, hsub, Nat.shiftRight_eq_div_pow]
  show ((count.toNat - 1) / 16 % 65536 + 1) % 65536 = _
  omega

def Built (mem : Before) (port : HbaPort) (startl starth count : DWORD) (buffer : BitVec 64) (cmd : Command) : Prop :=
  buildRead mem port startl starth count buffer = some cmd ∨ buildWrite mem port startl starth count buffer = some cmd

private theorem Built.entries (h : Built mem port startl starth count buffer cmd) : ∃ header w,
    cmd.header.prdtl = (fillHeader header w count).prdtl ∧ ∀ i, cmd.table.prdtEntry i =
      (fillPrdt (cmd.header.prdtl.toNat - 1) 0 buffer count (clearTable mem.table cmd.header.prdtl)).1.prdtEntry i := by
  rcases h with h | h
  · obtain ⟨slot, -, rfl⟩ := map_eq_some_iff.1 h
    exact ⟨mem.header slot, 0, rfl, fun i => rfl⟩
  · obtain ⟨slot, -, rfl⟩ := map_eq_some_iff.1 h
    exact ⟨mem.header slot, 1, rfl, fun i => rfl⟩

private theorem clearTable_entry {prdtl : WORD} (h : i + 1 < prdtEntries + prdtl.toNat) :
    (clearTable table prdtl).prdtEntry i = zeroEntry := if_pos h

private theorem fillPrdt_addr (hclear : table.prdtEntry i = zeroEntry) (hbuf : buf.toNat < 2 ^ 32) :
    ((fillPrdt n i buf count table).1.prdtEntry i).addr = buf.toNat := by
  unfold HbaPrdtEntry.addr
  rw [fillPrdt_dbau, hclear, fillPrdt_dba, toNat_setWidth, Nat.mod_eq_of_lt hbuf]
  exact Nat.zero_add _

private theorem fillPrdt_bytes : ((fillPrdt (n + 1) i buf count table).1.prdtEntry i).bytes = 8192 := by
  rw [fillPrdt, fillPrdt_before (Nat.lt_succ_self i)]
  simp [setEntry, HbaPrdtEntry.bytes]

private theorem fillPrdt_last_bytes (h1 : 1 ≤ count.toNat) (h128 : count.toNat ≤ 128) :
    ((fillPrdt 0 i buf count table).1.prdtEntry i).bytes = 512 * count.toNat := by
  have hshift : (count <<< 9).toNat = 512 * count.toNat := by
    rw [toNat_shiftLeft]
    omega
  have hsub : (count <<< 9 - 1).toNat = 512 * count.toNat - 1 := by
    rw [toNat_sub_of_le (show 1 ≤ (count <<< 9).toNat by omega), hshift]
    rfl
  simp only [fillPrdt, setEntry, HbaPrdtEntry.bytes, Function.update_self, toNat_setWidth, hsub]
  omega

private theorem describes_of_le (hentry : ∀ i, cmd.table.prdtEntry i =
      (fillPrdt (cmd.header.prdtl.toNat - 1) 0 buffer count (clearTable mem.table cmd.header.prdtl)).1.prdtEntry i)
    (hlen : cmd.header.prdtl.toNat = 1) (h1 : 1 ≤ count.toNat) (h128 : count.toNat ≤ 128)
    (hbuf : buffer.toNat < 2 ^ 32) :
    Describes cmd buffer.toNat (512 * count.toNat) := by
  have hclear : ∀ i < prdtEntries, (clearTable mem.table cmd.header.prdtl).prdtEntry i = zeroEntry :=
    fun i hi => clearTable_entry (by omega)
  rw [hlen] at hentry
  constructor
  · have hprdt : cmd.prdt = [cmd.table.prdtEntry 0] := by
      unfold Command.prdt
      rw [hlen]
      rfl
    rw [hprdt, hentry]
    exact ⟨fillPrdt_addr (hclear 0 (by decide)) hbuf, by rw [Tiles, fillPrdt_last_bytes h1 h128]⟩
  · intro i hi hi8
    rw [hentry, fillPrdt_behind (by omega)]
    exact hclear i hi8

private theorem not_tiles_of_lt (hentry : ∀ i, cmd.table.prdtEntry i =
      (fillPrdt (cmd.header.prdtl.toNat - 1) 0 buffer count (clearTable mem.table cmd.header.prdtl)).1.prdtEntry i)
    (hlen : 2 ≤ cmd.header.prdtl.toNat) (hbuf : buffer.toNat + 4096 < 2 ^ 32) (b : Nat) :
    ¬Tiles buffer.toNat cmd.prdt b := by
  have hclear : ∀ i < prdtEntries, (clearTable mem.table cmd.header.prdtl).prdtEntry i = zeroEntry :=
    fun i hi => clearTable_entry (by omega)
  obtain ⟨n, hn⟩ : ∃ n, cmd.header.prdtl.toNat = n + 2 := ⟨cmd.header.prdtl.toNat - 2, by omega⟩
  have hprdt : ∃ es, cmd.prdt = cmd.table.prdtEntry 0 :: cmd.table.prdtEntry 1 :: es := by
    unfold Command.prdt
    rw [hn, List.range_succ_eq_map, List.range_succ_eq_map]
    exact ⟨_, rfl⟩
  obtain ⟨es, hes⟩ := hprdt
  rw [hes]
  rintro ⟨-, hnext, -⟩
  have hn' : cmd.header.prdtl.toNat - 1 = n + 1 := by omega
  have hstep : (buffer + 4 * 1024).toNat = buffer.toNat + 4096 := by
    rw [BitVec.toNat_add]
    show (buffer.toNat + 4096) % 2 ^ 64 = _
    omega
  rw [hentry 1, hentry 0, hn', fillPrdt_bytes, fillPrdt, fillPrdt_addr ?_ (by omega)] at hnext
  · omega
  · exact hclear 1 (by decide)

/-- The regions of the PRDT tile the buffer if and only if one entry is enough. -/
theorem prdt_describes_iff (mem : Before) (port : HbaPort) (startl starth count : DWORD) (buffer : BitVec 64)
    (cmd : Command) (h1 : 1 ≤ count.toNat) (h128 : count.toNat ≤ 128) (hbuf : buffer.toNat < 2 ^ 32 - 512 * count.toNat)
    (hcmd : Built mem port startl starth count buffer cmd) :
    Describes cmd buffer.toNat (512 * count.toNat) ↔ count.toNat ≤ 16 := by
  obtain ⟨header, w, hprdtl, hentry⟩ := hcmd.entries
  have hlen : cmd.header.prdtl.toNat = (count.toNat - 1) / 16 + 1 := hprdtl ▸ toNat_prdtl h1 h128
  constructor
  · intro h
    by_contra hlt
    exact not_tiles_of_lt hentry (by omega) (by omega) _ h.tiles
  · intro hle
    exact describes_of_le hentry (by omega) h1 h128 (by omega)

def zeroBefore : Before := ⟨fun _ => ⟨0, 0, 0, 0, 0, 0, 0, 0, 0, 0, 0, 0, 0, 0⟩, ⟨zeroFis, 0, 0, 0, fun _ => zeroEntry⟩⟩

/-- The eight sectors of one page. -/
theorem prdt_describes_eight : ∃ cmd, Built zeroBefore ⟨0, 0, 0⟩ 0 0 8 0x100000 cmd ∧ Describes cmd 0x100000 4096 := by
  refine ⟨_, .inl rfl, ?_⟩
  exact (prdt_describes_iff zeroBefore ⟨0, 0, 0⟩ 0 0 8 0x100000 _ (by decide) (by decide) (by decide) (.inl rfl)).2
    (by decide)

/-- For 17 sectors the second region begins in the middle of the first one. -/
theorem seventeen_sectors_overlap : ∃ cmd, Built zeroBefore ⟨0, 0, 0⟩ 0 0 17 0x100000 cmd ∧
    cmd.prdt.map (fun e => (e.addr, e.bytes)) = [(0x100000, 8192), (0x101000, 512)] ∧
      ¬Describes cmd 0x100000 (512 * 17) := by
  refine ⟨_, .inl rfl, by decide +kernel, fun h => ?_⟩
  exact absurd h.tiles (by decide +kernel)

def Command.toWrite (cmd : Command) : Command :=
  { cmd with
    header := { cmd.header with w := 1 }
    table := { cmd.table with cfis := { cmd.table.cfis with command := ataCmdWriteDmaEx } } }

def FisRegH2D.sectors (fis : FisRegH2D) : Nat := fis.counth.toNat * 256 + fis.countl.toNat

/-- The commands of the two functions agree apart from the direction and the opcode, and ask for `count` sectors. -/
structure SameTransfer (r w : Option Command) (count : DWORD) : Prop where
  same : w = r.map Command.toWrite
  read : ∀ cmd, r = some cmd → cmd.table.cfis.sectors = count.toNat
  write : ∀ cmd, w = some cmd → cmd.table.cfis.sectors = count.toNat

private theorem sectors_fillFis {fis : FisRegH2D} {command : BYTE} (h : count.toNat < 2 ^ 16) :
    (fillFis fis command startl starth count).sectors = count.toNat := by
  have hhigh : (hibyte count).toNat = count.toNat / 256 := by
    unfold hibyte
    rw [toNat_setWidth, toNat_and, toNat_ushiftRight, Nat.shiftRight_eq_div_pow]
    show (count.toNat % 2 ^ 16 / 2 ^ 8 &&& 2 ^ 8 - 1) % 2 ^ 8 = _
    rw [Nat.and_two_pow_sub_one_eq_mod]
    omega
  have hlow : (lobyte count).toNat = count.toNat % 256 := toNat_setWidth 8 count
  unfold FisRegH2D.sectors fillFis
  dsimp only
  omega

/-- The two functions ask for the same transfer if and only if there is no free slot or one entry is enough. -/
theorem same_transfer_iff (mem : Before) (port : HbaPort) (startl starth count : DWORD) (buffer : BitVec 64)
    (h1 : 1 ≤ count.toNat) (h128 : count.toNat ≤ 128) :
    SameTransfer (buildRead mem port startl starth count buffer) (buildWrite mem port startl starth count buffer)
      count ↔ findCmdslot port = none ∨ count.toNat ≤ 16 := by
  unfold buildRead buildWrite
  cases hslot : findCmdslot port with
  | none => exact iff_of_true ⟨rfl, nofun, nofun⟩ (.inl rfl)
  | some slot =>
    have hlen : (fillHeader (mem.header slot) 1 count).prdtl.toNat = (count.toNat - 1) / 16 + 1 := toNat_prdtl h1 h128
    -- the number of sectors in the FIS of the write
    have hleft := @fillPrdt_count (clearTable mem.table (fillHeader (mem.header slot) 1 count).prdtl) count buffer
      ((fillHeader (mem.header slot) 1 count).prdtl.toNat - 1) 0 (by omega)
    rw [or_iff_right (by exact nofun)]
    constructor
    · intro h
      have hwrite := h.write _ rfl
      rw [sectors_fillFis (by omega)] at hwrite
      omega
    · intro hle
      have hcount := eq_of_toNat_eq (hleft.trans (show _ = count.toNat by omega))
      refine ⟨?_, fun cmd hcmd => ?_, fun cmd hcmd => ?_⟩
      · simp only [map_some, hcount]
        rfl
      · cases hcmd
        exact sectors_fillFis (by omega)
      · cases hcmd
        dsimp only
        rw [hcount]
        exact sectors_fillFis (by omega)

/-- What is written to the port and returned is the same in both functions. -/
theorem writeAhci_eq_readAhci (dev : Device) (fuel : Nat) (mem : Before) (port : HbaPort) (startl starth count : DWORD)
    (buffer : BitVec 64) :
    writeAhci dev fuel mem port startl starth count buffer = readAhci dev fuel mem port startl starth count buffer := by
  unfold writeAhci readAhci buildRead buildWrite
  cases findCmdslot port with
  | none => rfl
  | some slot => rfl

theorem same_transfer_eight : SameTransfer (buildRead zeroBefore ⟨0, 0, 0⟩ 0x123456 0 8 0x100000)
    (buildWrite zeroBefore ⟨0, 0, 0⟩ 0x123456 0 8 0x100000) 8 :=
  (same_transfer_iff zeroBefore ⟨0, 0, 0⟩ 0x123456 0 8 0x100000 (by decide) (by decide)).2 (.inr (by decide))

/-- A write of 17 sectors asks for one sector only. -/
theorem seventeen_sectors_differ :
    (buildRead zeroBefore ⟨0, 0, 0⟩ 0 0 17 0x100000).map (fun cmd => cmd.table.cfis.sectors) = some 17 ∧
      (buildWrite zeroBefore ⟨0, 0, 0⟩ 0 0 17 0x100000).map (fun cmd => cmd.table.cfis.sectors) = some 1 := by
  decide +kernel

end Adix.Ahci
