import AphroditeOs.Bootmem.Calls
import AphroditeOs.Bootmem.Tenants
import AphroditeOs.Setup.FreeMap
import AphroditeOs.Setup.Listing

/-!
# From the loader's map to the owners' memory (`init/kmain.cc`)

`start_kernel`, built without `DEBUG`, copies the memory map, calls `setup_arch` twice, and memory is
handed out from then on.  What the owners get is memory that the loader has called RAM.
-/

namespace AphroditeOs

/-- `start_kernel` without `DEBUG` up to `trap_init`, as far as memory is concerned;
`page_address_init` is empty.  `cls` and all printing come before the second `setup_arch` fills the
bitmap. -/
def startKernel (fuel : Nat) (shows : BitMemory → BitMemory) (pmb : Mbinfo) (initPgTablesEnd : Word)
    (map : Nat → E820Entry) (s : BootState) : Option BootState :=
  let s := { s with mem := shows s.mem }
  (printMemoryMap fuel pmb s.mem map).bind fun e ↦
    if h : e.nrMap ≤ e820Max then
      some (setupArch (e.toMap h) initPgTablesEnd (setupArch (e.toMap h) initPgTablesEnd s))
    else none

section

variable (e820 : E820Map) (initPgTablesEnd : Word) {s : BootState}

end

/-! ## What `setup_arch` writes -/

section

variable {e820 : E820Map} {initPgTablesEnd : Word} {s : BootState} {a : Nat}

end

/-! ## The whole way -/

section

variable {ALIGN : Word → Word → Word} {e820 : E820Map} {initPgTablesEnd : Word} {mem : BitMemory}
  {ms : List Mmap} {fuel : Nat} {shows : BitMemory → BitMemory} {pmb : Mbinfo}

end

end AphroditeOs
