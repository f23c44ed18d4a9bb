import MipsEngines.Model.Mips

/-!
# `MipsEngines.Model.Loader`: the ELF loader

`loader.c`, one function a definition. The ELF file is the list of its bytes and has been
opened. A structure of `elf.h` is read out of the bytes at its documented offsets; it has
the fields that the loader uses.

`fseek` to an unsigned 32-bit offset succeeds on a regular file, also past its end, and
`fread` delivers what there is. `malloc` is taken to succeed, so the `err` labels that
only a failed `malloc` or `fseek` reaches are not modelled. A read or write past a heap
buffer is `Fault.overrun`.
-/

set_option autoImplicit false

namespace MipsEngines

/-! ### `elf.h` -/

abbrev EM_MIPS : U16 := 8
abbrev ELFCLASS32 : U8 := 1
abbrev ELFDATA2LSB : U8 := 1
abbrev ET_EXEC : U16 := 2
abbrev PT_LOAD : U32 := 1
abbrev SHT_SYMTAB : U32 := 2

abbrev sizeofElf32Ehdr : Nat := 52
abbrev sizeofElf32Phdr : Nat := 32
abbrev sizeofElf32Shdr : Nat := 40
abbrev sizeofElf32Sym : Nat := 16

def u8At (bytes : List U8) (o : Nat) : U8 := bytes.getD o 0

def u16At (bytes : List U8) (o : Nat) : U16 := u8At bytes (o + 1) ++ u8At bytes o

def u32At (bytes : List U8) (o : Nat) : U32 := u16At bytes (o + 2) ++ u16At bytes o

/-- `Elf32_Ehdr`. -/
structure Elf32Ehdr where
  eIdentClass : U8
  eIdentData : U8
  eType : U16
  eMachine : U16
  eEntry : U32
  ePhoff : U32
  eShoff : U32
  ePhentsize : U16
  ePhnum : U16
  eShnum : U16

def Elf32Ehdr.ofBytes (bytes : List U8) : Elf32Ehdr where
  eIdentClass := u8At bytes 4
  eIdentData := u8At bytes 5
  eType := u16At bytes 16
  eMachine := u16At bytes 18
  eEntry := u32At bytes 24
  ePhoff := u32At bytes 28
  eShoff := u32At bytes 32
  ePhentsize := u16At bytes 42
  ePhnum := u16At bytes 44
  eShnum := u16At bytes 48

/-- `Elf32_Phdr`. -/
structure Elf32Phdr where
  pType : U32
  pOffset : U32
  pVaddr : U32
  pFilesz : U32
  pMemsz : U32
  deriving DecidableEq, Repr

def Elf32Phdr.ofBytes (bytes : List U8) : Elf32Phdr where
  pType := u32At bytes 0
  pOffset := u32At bytes 4
  pVaddr := u32At bytes 8
  pFilesz := u32At bytes 16
  pMemsz := u32At bytes 20

/-- `Elf32_Shdr`. -/
structure Elf32Shdr where
  shType : U32
  shOffset : U32
  shSize : U32
  shLink : U32

def Elf32Shdr.ofBytes (bytes : List U8) : Elf32Shdr where
  shType := u32At bytes 4
  shOffset := u32At bytes 16
  shSize := u32At bytes 20
  shLink := u32At bytes 24

/-- `Elf32_Sym`. -/
structure Elf32Sym where
  stName : U32
  stValue : U32

def Elf32Sym.ofBytes (bytes : List U8) : Elf32Sym where
  stName := u32At bytes 0
  stValue := u32At bytes 4

/-- The array of `count` structures of `size` bytes each. -/
def arrayOf {α : Type} (ofBytes : List U8 → α) (size count : Nat) (bytes : List U8) : List α :=
  (List.range count).map fun i => ofBytes (bytes.drop (size * i))

/-! ### Reading the file -/

/-- `fseek` to `offset`, then `fread` of `size` bytes: what it delivers. -/
def fread (elf : List U8) (offset size : Nat) : List U8 := (elf.drop offset).take size

/-- A read that aborts when it comes short. -/
def freadAll (elf : List U8) (offset size : Nat) : Except Fault (List U8) :=
  let read := fread elf offset size
  if read.length = size then .ok read else .error .abort

def loaderLoadEhdr (elf : List U8) : Except Fault Elf32Ehdr := do
  let bytes ← freadAll elf 0 sizeofElf32Ehdr
  let ehdr := Elf32Ehdr.ofBytes bytes
  if ehdr.eMachine ≠ EM_MIPS then .error .abort
  else if ehdr.eIdentClass ≠ ELFCLASS32 then .error .abort
  else if ehdr.eIdentData ≠ ELFDATA2LSB then .error .abort
  else if ehdr.eType ≠ ET_EXEC then .error .abort
  else return ehdr

def loaderLoadPhdr (elf : List U8) (ehdr : Elf32Ehdr) : Except Fault (List Elf32Phdr) := do
  let bytes ← freadAll elf ehdr.ePhoff.toNat (sizeofElf32Phdr * ehdr.ePhnum.toNat)
  return arrayOf Elf32Phdr.ofBytes sizeofElf32Phdr ehdr.ePhnum.toNat bytes

def loaderLoadShdr (elf : List U8) (ehdr : Elf32Ehdr) : Except Fault (List Elf32Shdr) := do
  let bytes ← freadAll elf ehdr.eShoff.toNat (sizeofElf32Shdr * ehdr.eShnum.toNat)
  return arrayOf Elf32Shdr.ofBytes sizeofElf32Shdr ehdr.eShnum.toNat bytes

/-- The symbols and the bytes of the string table. -/
def loaderLoadSymbols (elf : List U8) (symtabHdr strtabHdr : Elf32Shdr) :
    Except Fault (List Elf32Sym × List U8) := do
  let symbols ← freadAll elf symtabHdr.shOffset.toNat symtabHdr.shSize.toNat
  let strings ← freadAll elf strtabHdr.shOffset.toNat strtabHdr.shSize.toNat
  let count := symtabHdr.shSize.toNat / sizeofElf32Sym
  return (arrayOf Elf32Sym.ofBytes sizeofElf32Sym count symbols, strings)

/-! ### Segments -/

/-- The brk heap is moved up to the end of a segment. -/
def raiseBrkHeap (memory : Memory) (top : U32) : Memory :=
  if top > memory.brkHeapStart then { memory with brkHeapStart := top, brkHeapEnd := top }
  else memory

/-- The body of the loop of `loader_load_segments`. `fresh` is what `malloc` left in the
transfer buffer, of `p_memsz` bytes. `fread` runs past the buffer when it delivers more. -/
def loaderLoadSegment (elf : List U8) (fresh : Nat → U8) (memory : Memory) (phdr : Elf32Phdr) :
    Except Fault Memory :=
  if phdr.pType ≠ PT_LOAD then .ok memory
  else do
    let memory := raiseBrkHeap memory (phdr.pVaddr + phdr.pMemsz)
    let memory := memoryAllocate memory phdr.pVaddr phdr.pMemsz
    let read := fread elf phdr.pOffset.toNat phdr.pFilesz.toNat
    -- `fread` has stored the bytes by the time its count is compared.
    if read.length > phdr.pMemsz.toNat then .error .overrun
    else if read.length ≠ phdr.pFilesz.toNat then .error .abort
    else do
      -- The whole buffer is copied, what `malloc` left in it too, and that part is cleared after.
      let memory ← memoryCopyWrite memory phdr.pVaddr phdr.pMemsz fun i => read.getD i (fresh i)
      if phdr.pMemsz > phdr.pFilesz then
        memorySet memory (phdr.pVaddr + phdr.pFilesz) (phdr.pMemsz - phdr.pFilesz) 0
      else return memory

/-- The loop of `loader_load_segments` from header `h` on. Header `h` has a transfer buffer
of its own, `fresh h`. -/
def loaderLoadSegments (elf : List U8) (fresh : Nat → Nat → U8) :
    Nat → List Elf32Phdr → Memory → Except Fault Memory
  | _, [], memory => .ok memory
  | h, phdr :: phdrs, memory => do
      let memory ← loaderLoadSegment elf (fresh h) memory phdr
      loaderLoadSegments elf fresh (h + 1) phdrs memory

/-! ### Registers and stack -/

def loaderLoadPc (s : Machine) (ehdr : Elf32Ehdr) : Machine :=
  let s := s.setReg MIPS_R_PC ehdr.eEntry
  let s := s.setReg MIPS_R_NPC (s.reg MIPS_R_PC + 4)
  s.setReg MIPS_R_NNPC (s.reg MIPS_R_PC + 8)

/-- `!strcmp(name, literal)`, where `name` points to the first of the bytes. The comparison
stops at the first difference. -/
def strcmpEq : List U8 → List U8 → Except Fault Bool
  | [], _ => .error .overrun
  | c :: _, [] => .ok (c == 0)
  | c :: name, l :: literal => if c = l then strcmpEq name literal else .ok false

/-- `"_gp"`. -/
abbrev gpName : List U8 := [0x5f, 0x67, 0x70]

/-- `"__gnu_local_gp"`. -/
abbrev gnuLocalGpName : List U8 :=
  [0x5f, 0x5f, 0x67, 0x6e, 0x75, 0x5f, 0x6c, 0x6f, 0x63, 0x61, 0x6c, 0x5f, 0x67, 0x70]

/-- The search in one symbol table. -/
def findGp (strings : List U8) : List Elf32Sym → Except Fault (Option U32)
  | [] => .ok none
  | symbol :: symbols => do
      let name := strings.drop symbol.stName.toNat
      let loadedGp ← do
        -- The `||` makes the second comparison only if the first one fails.
        if ← strcmpEq name gpName then pure true else strcmpEq name gnuLocalGpName
      if loadedGp then return some symbol.stValue else findGp strings symbols

/-- The loop of `loader_load_gp` over the headers that are left. `shdr` is the whole array,
which `sh_link` indexes unchecked. -/
def loadGpLoop (elf : List U8) (shdr : List Elf32Shdr) (s : Machine) :
    List Elf32Shdr → Except Fault Machine
  -- No table has a `_gp`.
  | [] => .error .abort
  | symtabHdr :: rest =>
      if symtabHdr.shType ≠ SHT_SYMTAB then loadGpLoop elf shdr s rest
      else
        match shdr[symtabHdr.shLink.toNat]? with
        -- `sh_link` is past the section headers.
        | none => .error .overrun
        | some strtabHdr => do
            let (symbols, strings) ← loaderLoadSymbols elf symtabHdr strtabHdr
            match ← findGp strings symbols with
            | some value => return s.setReg MIPS_R_GP value
            | none => loadGpLoop elf shdr s rest

def loaderLoadGp (elf : List U8) (shdr : List Elf32Shdr) (s : Machine) : Except Fault Machine :=
  loadGpLoop elf shdr s shdr

/-- `memory_write_u32(memory, (mips->r[MIPS_R_SP] -= 4), value)`. -/
def pushU32 (s : Machine) (value : U32) : Except Fault Machine := do
  let s := s.setReg MIPS_R_SP (s.reg MIPS_R_SP - 4)
  let memory ← memoryWriteU32 s.memory (s.reg MIPS_R_SP) value
  return s.setMemory memory

/-- The 16 bytes of `random`, words in order, each little-endian. -/
abbrev randomBytes (i : Nat) : U8 :=
  byteOf (([0xdeadbeef, 0x12345678, 0x87654321, 0xfacefeed] : List U32).getD (i / 4) 0) (i % 4)

/-- The 8 bytes of `"emulator"` that are copied, without the terminator. -/
abbrev nameBytes (i : Nat) : U8 :=
  ([0x65, 0x6d, 0x75, 0x6c, 0x61, 0x74, 0x6f, 0x72] : List U8).getD i 0

/-- The auxiliary vector, pairs of type and value. -/
def auxv (ehdr : Elf32Ehdr) (randomPtr namePtr : U32) : List (U32 × U32) :=
  [(6, 4096), (25, randomPtr), (3, 0x400000 + ehdr.ePhoff), (4, ehdr.ePhentsize.setWidth 32),
    (5, ehdr.ePhnum.setWidth 32), (31, namePtr), (0, 0)]

/-- The words pushed after the strings, in the order of the pushes: the auxiliary vector from
its end, each value before its type, then `envp`, `argv` and `argc`. -/
def stackWords (ehdr : Elf32Ehdr) (randomPtr namePtr : U32) : List U32 :=
  ((auxv ehdr randomPtr namePtr).reverse.flatMap fun aux => [aux.2, aux.1])
    ++ [0, 0, namePtr, 1]

def loaderLoadSp (s : Machine) (ehdr : Elf32Ehdr) : Except Fault Machine := do
  -- The last byte is the one at `STACK_TOP`, so a page above the stack is allocated as well.
  let memory := memoryAllocate s.memory STACK_BOT (STACK_SIZE + 1)
  let memory ← memorySet memory STACK_BOT (STACK_SIZE + 1) 0
  let s := (s.setMemory memory).setReg MIPS_R_SP STACK_TOP
  -- The strings come first, the random bytes above the name.
  let s := s.setReg MIPS_R_SP (s.reg MIPS_R_SP - 16)
  let randomPtr := s.reg MIPS_R_SP
  let memory ← memoryCopyWrite s.memory randomPtr 16 randomBytes
  let s := (s.setMemory memory).setReg MIPS_R_SP (s.reg MIPS_R_SP - 8)
  let namePtr := s.reg MIPS_R_SP
  let memory ← memoryCopyWrite s.memory namePtr 8 nameBytes
  -- The pointer is aligned before the words are pushed, not after.
  let s := (s.setMemory memory).setReg MIPS_R_SP (s.reg MIPS_R_SP &&& ~~~0xF)
  (stackWords ehdr randomPtr namePtr).foldlM pushU32 s

/-- `loader_elf`. -/
def loaderElf (elf : List U8) (fresh : Nat → Nat → U8) (s : Machine) : Except Fault Machine := do
  let ehdr ← loaderLoadEhdr elf
  let phdr ← loaderLoadPhdr elf ehdr
  let shdr ← loaderLoadShdr elf ehdr
  let memory ← loaderLoadSegments elf fresh 0 phdr s.memory
  let s := loaderLoadPc (s.setMemory memory) ehdr
  let s ← loaderLoadGp elf shdr s
  loaderLoadSp s ehdr

/-- The program header table of a file. -/
def programHeaders (elf : List U8) : Except Fault (List Elf32Phdr) := do
  let ehdr ← loaderLoadEhdr elf
  loaderLoadPhdr elf ehdr

/-! ### A file with a program

For running the loader on a concrete input. -/

def wordBytes (word : U32) : List U8 := [byteOf word 0, byteOf word 1, byteOf word 2, byteOf word 3]

/-- A file with one segment, `words` at `address`, entered at its start, and one symbol,
`_gp`. The headers are written as words. -/
def elfOf (address : U32) (words : List U32) : List U8 :=
  let size := BitVec.ofNat 32 (4 * words.length)
  let ehdr : List U32 := [0x464c457f, 0x00000101, 0, 0, 0x00080002, 1, address, 52, 84, 0,
    0x00200034, 0x00280001, 2]
  let phdr : List U32 := [PT_LOAD, 184, address, address, size, size, 5, 4]
  let symtab : List U32 := [0, SHT_SYMTAB, 0, 0, 164, 16, 1, 0, 4, 16]
  let strtab : List U32 := [0, 3, 0, 0, 180, 4, 0, 0, 1, 0]
  let symbol : List U32 := [0, 0x408000, 0, 0]
  let name : List U32 := [0x0070675f]
  (ehdr ++ phdr ++ symtab ++ strtab ++ symbol ++ name ++ words).flatMap wordBytes

end MipsEngines
