import Adix.Lib.Memory

/-!
# The file system in the kernel image (`sys/parser/parsetarfs.c`)

The files are a tar archive that is linked into the kernel at `_binary_tarfs_start`. The functions walk over it header
by header, up to the header whose name is empty.

The C type `int` is `BitVec 32`, and `char` is signed. A result `none` is a page fault, or a loop that has not ended
after `fuel` headers.
-/

namespace Adix.Tarfs

open VirtMem

variable {M : Type} [VirtMem M]

def sizeField : BitVec 64 := 124

def typeflagField : BitVec 64 := 156

/-- The loop of `getsize`, down to the first digit. -/
def sizeLoop (m : M) (digits : BitVec 64) : Nat → BitVec 32 → BitVec 32 → Option (BitVec 32)
  | 0, _, size => some size
  | j + 1, count, size => (load m (digits + BitVec.ofNat 64 j)).bind fun c =>
    sizeLoop m digits j (count * 8) (size + (c.signExtend 32 - 48) * count)

def getsize (m : M) (digits : BitVec 64) : Option (BitVec 32) := sizeLoop m digits 11 1 0

/-- `strcmp`; the second string is given by its bytes, without the terminator. -/
def strcmp (m : M) (s1 : BitVec 64) : List (BitVec 8) → Option (BitVec 32)
  | [] => (load m s1).map fun c => if c = 0 then 0 else c.signExtend 32 - 0
  | d :: s2 => (load m s1).bind fun c =>
    if c = d then if c = 0 then some 0 else strcmp m (s1 + 1) s2 else some (c.signExtend 32 - d.signExtend 32)

/-- The step to the next header. The sum is computed as an `int` before it is added to the address. -/
def nextHeader (header : BitVec 64) (size : BitVec 32) : BitVec 64 :=
  let a := header + ((size.sdiv 512 + 1) * 512).signExtend 64
  if size.srem 512 ≠ 0 then a + 512 else a

def parsetarLoop (m : M) : Nat → BitVec 64 → BitVec 32 → Option (BitVec 32)
  | 0, _, _ => none
  | fuel + 1, header, i => (load m header).bind fun c =>
    if c = 0 then some i
    else (getsize m (header + sizeField)).bind fun size => parsetarLoop m fuel (nextHeader header size) (i + 1)

def parsetar (fuel : Nat) (m : M) (start : BitVec 64) : Option (BitVec 32) := parsetarLoop m fuel start 0

/-- The search of `sys_open`: the header with the name, or `none` if the archive ends before. -/
def findHeader (m : M) (pathname : List (BitVec 8)) : Nat → BitVec 64 → Option (Option (BitVec 64))
  | 0, _ => none
  | fuel + 1, header => (strcmp m header pathname).bind fun r =>
    if r = 0 then some (some header)
    else (load m header).bind fun c =>
      if c = 0 then some none
      else (getsize m (header + sizeField)).bind fun size => findHeader m pathname fuel (nextHeader header size)

/-- The search of `sys_opendir`: the header of the directory, or what is returned without one. `NULL` is 0. -/
def findDirectory (m : M) (pathname : List (BitVec 8)) : Nat → BitVec 64 → Option (Except Int (BitVec 64))
  | 0, _ => none
  | fuel + 1, header => (strcmp m header pathname).bind fun r =>
    if r = 0 then
      (strcmp m (header + typeflagField) [0x35]).map fun dir => if dir = 0 then .ok header else .error 0
    else (load m header).bind fun c =>
      if c = 0 then some (.error (-1))
      else (getsize m (header + sizeField)).bind fun size => findDirectory m pathname fuel (nextHeader header size)

/-! ### Open files -/

/-- `struct process_files_table`, without the pointers to the operations. -/
structure ProcessFilesTable where
  header : BitVec 64
  offset : BitVec 64
  deriving DecidableEq

/-- `open_files` of the current task, and `rlimit_cur[RLIMIT_NOFILE]`. -/
structure Files where
  openFiles : Nat → Option ProcessFilesTable
  rlimitNofile : Nat

def Files.set (files : Files) (fd : Nat) (pft : Option ProcessFilesTable) : Files :=
  { files with openFiles := fun i => if i = fd then pft else files.openFiles i }

@[simp] theorem Files.set_same (files : Files) (fd : Nat) (pft : Option ProcessFilesTable) :
    (files.set fd pft).openFiles fd = pft := if_pos rfl

theorem Files.set_slot {files : Files} {fd : Nat} {pft : Option ProcessFilesTable} (h : files.openFiles fd = pft) :
    files.set fd pft = files := by
  unfold Files.set
  congr 1
  funext j
  split
  · next hj => rw [hj, h]
  · rfl

@[simp] theorem Files.set_set (files : Files) (fd : Nat) (pft pft' : Option ProcessFilesTable) :
    (files.set fd pft).set fd pft' = files.set fd pft' := by
  unfold Files.set
  congr 1
  funext j
  dsimp only
  split <;> rfl

/-- `add_to_process_file_table`, with the slot if there is one. -/
def addToProcessFileTable (files : Files) (pft : ProcessFilesTable) : Files × Option Nat :=
  match (List.range files.rlimitNofile).find? fun i => (files.openFiles i).isNone with
  | some i => (files.set i (some pft), some i)
  | none => (files, none)

/-- `sys_open`, with the descriptor if it succeeds. When there is no memory for the table, it is written all the same.
-/
def sysOpen (fuel : Nat) (m : M) (start : BitVec 64) (files : Files) (pathname : List (BitVec 8)) (kmallocOk : Bool) :
    Option (Files × Option Nat) :=
  (findHeader m pathname fuel start).bind fun
    | none => some (files, none)
    | some header => if kmallocOk then some (addToProcessFileTable files ⟨header, 0⟩) else none

/-- The loop of `sys_read`: the memory, the offset and the number of bytes afterwards. At the end of the file one more
byte is copied. -/
def readLoop (size : BitVec 64) : Nat → M → BitVec 64 → BitVec 64 → BitVec 64 → BitVec 64 →
    Option (M × BitVec 64 × BitVec 64)
  | 0, m, offset, _, _, i => some (m, offset, i)
  | n + 1, m, offset, readptr, temp, i =>
    if size = offset then
      (load m readptr).bind fun c => (store m temp c).map fun m => (m, offset, i)
    else
      (load m readptr).bind fun c => (store m temp c).bind fun m =>
        readLoop size n m (offset + 1) (readptr + 1) (temp + 1) (i + 1)

def sysRead (m : M) (files : Files) (fd : Nat) (buf count : BitVec 64) : Option (M × Files × BitVec 64) :=
  match files.openFiles fd with
  | none => some (m, files, -1)
  | some pft =>
    (strcmp m (pft.header + typeflagField) [0x35]).bind fun dir =>
      if dir = 0 then some (m, files, 0)
      else (strcmp m (pft.header + typeflagField) [0x30]).bind fun file =>
        if file = 0 then
          (getsize m (pft.header + sizeField)).bind fun size =>
            (readLoop (size.signExtend 64) count.toNat m pft.offset (pft.header + 512 + pft.offset) buf 0).map
              fun (m, offset, i) => (m, files.set fd (some { pft with offset := offset }), i)
        else some (m, files, 0)

def sysOpendir (fuel : Nat) (m : M) (start : BitVec 64) (files : Files) (pathname : List (BitVec 8))
    (kmallocOk : Bool) : Option (Files × Int) :=
  (findDirectory m pathname fuel start).bind fun
    | .error r => some (files, r)
    | .ok header =>
      if kmallocOk then
        match addToProcessFileTable files ⟨header, 0⟩ with
        | (files, some fd) => some (files, fd)
        | (files, none) => some (files, -1)
      else none

def seekSet : BitVec 32 := 0
def seekCur : BitVec 32 := 1
def seekEnd : BitVec 32 := 2

/-- The position after the `switch` of `sys_lseek`. From the end it is set as from the start. -/
def seekTo (old offset : BitVec 64) (whence : BitVec 32) : BitVec 64 :=
  if whence = seekSet then offset
  else if whence = seekCur then old + offset
  else if whence = seekEnd then offset
  else old

def sysLseek (files : Files) (fd : Nat) (offset : BitVec 64) (whence : BitVec 32) : Files × Int :=
  match files.openFiles fd with
  | none => (files, -1)
  | some pft => (files.set fd (some { pft with offset := seekTo pft.offset offset whence }), 0)

/-- `sys_close` and `sys_closedir`, through `reset_process_files_table`. -/
def sysClose (files : Files) (fd : Nat) : Files × Int :=
  match files.openFiles fd with
  | none => (files, -1)
  | some _ => (files.set fd none, 0)

/-! ### Directories -/

/-- The first loop of `check_in_dir`, over what the names have in common. -/
def skipCommon (m : M) : Nat → BitVec 64 → BitVec 64 → Option (BitVec 64 × BitVec 64)
  | 0, _, _ => none
  | fuel + 1, file, dir => (load m file).bind fun c => (load m dir).bind fun d =>
    if c = d then skipCommon m fuel (file + 1) (dir + 1) else some (file, dir)

/-- The second loop, over one component. The first byte is not compared with the slash. -/
def skipComponent (m : M) : Nat → BitVec 64 → Option (BitVec 64)
  | 0, _ => none
  | fuel + 1, file => (load m file).bind fun c =>
    if c = 0 then some file
    else (load m (file + 1)).bind fun d => if d = 0x2f then some (file + 1 + 1) else skipComponent m fuel (file + 1)

def checkInDir (fuel : Nat) (m : M) (file dir : BitVec 64) : Option Int :=
  (skipCommon m fuel file dir).bind fun (file, dir) => (load m dir).bind fun d =>
    if d ≠ 0 then some (-1)
    else (skipComponent m fuel file).bind fun file => (load m file).map fun c => if c = 0 then 0 else 1

/-- The loop of `sys_readdir`: the header of entry number `offset` of the directory. For an entry further below, `j` is
decremented and incremented again. -/
def readdirLoop (fuel : Nat) (m : M) (dir offset : BitVec 64) :
    Nat → BitVec 64 → BitVec 64 → Option (Option (BitVec 64))
  | 0, _, _ => none
  | n + 1, header, j =>
    if j ≤ offset then
      (load m header).bind fun c =>
        if c = 0 then some none
        else (getsize m (header + sizeField)).bind fun size =>
          (checkInDir fuel m (nextHeader header size) dir).bind fun r =>
            if r = -1 then some none
            else if r = 1 then readdirLoop fuel m dir offset n (nextHeader header size) (j - 1 + 1)
            else if j = offset then some (some (nextHeader header size))
            else readdirLoop fuel m dir offset n (nextHeader header size) (j + 1)
    else some none

def memcpy (m : M) (dest src : BitVec 64) : Nat → Option M
  | 0 => some m
  | n + 1 => (load m src).bind fun c => (store m dest c).bind fun m => memcpy m (dest + 1) (src + 1) n

/-- `sys_readdir`, with the pointer that it returns. -/
def sysReaddir (fuel : Nat) (m : M) (files : Files) (fd : Nat) (toRet : BitVec 64) : Option (M × Files × BitVec 64) :=
  match files.openFiles fd with
  | none => some (m, files, 0)
  | some pft =>
    (strcmp m (pft.header + typeflagField) [0x35]).bind fun dir =>
      if dir = 0 then
        (readdirLoop fuel m pft.header pft.offset fuel pft.header 0).bind fun
          | none => some (m, files, 0)
          | some header => (memcpy m toRet header 512).map fun m =>
            (m, files.set fd (some { pft with offset := pft.offset + 1 }), toRet)
      else some (m, files, 0)

end Adix.Tarfs
