import Mathlib.Algebra.Group.Int.Defs
import Mathlib.Data.Fintype.Basic
import Mathlib.Data.Nat.Bitwise
import Mathlib.Logic.Function.Basic
import Xv6.Lib.Calls
import Xv6.Lib.Words

/-! Physical pages and page tables (`kalloc.c`, `vm.c`). Memory is a function from page numbers
and offsets to bytes, so that a page directory is nothing but the number of a page. Page numbers
stand for physical and for kernel addresses of whole pages; the links of the free list are a
list of page numbers. -/

namespace Xv6.Pages

open Calls Segments

def PGSIZE : Nat := 4096
def NPDENTRIES : Nat := 1024
def NPTENTRIES : Nat := 1024
def KERNBASE : Nat := 0x80000000
def EXTMEM : Nat := 0x100000
def KERNLINK : Nat := KERNBASE + EXTMEM
def PHYSTOP : Nat := 0xE000000
def DEVSPACE : Nat := 0xFE000000

def PDX (va : Nat) : Nat := va / (NPTENTRIES * PGSIZE) % NPDENTRIES
def PTX (va : Nat) : Nat := va / PGSIZE % NPTENTRIES
def PGADDR (d t o : Nat) : Nat := d * (NPTENTRIES * PGSIZE) + t * PGSIZE + o
def PGROUNDUP (sz : Nat) : Nat := (sz + PGSIZE - 1) / PGSIZE * PGSIZE
def PGROUNDDOWN (a : Nat) : Nat := a / PGSIZE * PGSIZE

def PTE_P : Nat := 1
def PTE_W : Nat := 2
def PTE_U : Nat := 4

/-- `*pte & PTE_P` -/
def present (pte : Nat) : Bool := pte.testBit 0

/-- `*pte & PTE_U` -/
def user (pte : Nat) : Bool := pte.testBit 2

/-- The page of `PTE_ADDR(pte)`. -/
def PTE_ADDR (pte : Nat) : Nat := pte / PGSIZE
def PTE_FLAGS (pte : Nat) : Nat := pte % PGSIZE

/-- `pa | perm | PTE_P` -/
def entry (pa perm : Nat) : Nat := pa * PGSIZE ||| perm ||| PTE_P

/-- One mapping of the table `kmap`. -/
structure Kmap where
  virt : Nat
  physStart : Nat
  physEnd : Nat
  perm : Nat

/-- `k->phys_end - k->phys_start` -/
def Kmap.size (k : Kmap) : Nat := (k.physEnd + 2 ^ 32 - k.physStart) % 2 ^ 32

/-- What the linker decides: the addresses `data` and `end`. -/
structure Layout where
  data : Nat
  kend : Nat
  aligned : data % PGSIZE = 0
  above : KERNLINK < data
  order : data ≤ kend
  below : kend < KERNBASE + PHYSTOP

namespace Layout

def kmap (L : Layout) : List Kmap :=
  [⟨KERNBASE, 0, EXTMEM, PTE_W⟩, ⟨KERNLINK, KERNLINK - KERNBASE, L.data - KERNBASE, 0⟩,
   ⟨L.data, L.data - KERNBASE, PHYSTOP, PTE_W⟩, ⟨DEVSPACE, DEVSPACE, 0, PTE_W⟩]

/-- The first page after `end`. -/
def first (L : Layout) : Nat := PGROUNDUP (L.kend - KERNBASE) / PGSIZE

/-- The page of `PHYSTOP`. -/
def last (_ : Layout) : Nat := PHYSTOP / PGSIZE

end Layout

structure State where
  freelist : List Nat
  mem : Nat → Nat → BitVec 8

/-- Word `i` of page `p`. -/
def State.word (s : State) (p i : Nat) : Nat := Words.word (s.mem p) (4 * i) 4

/-- The whole page is overwritten. -/
def State.fill (s : State) (p : Nat) (f : Nat → BitVec 8) : State :=
  { s with mem := Function.update s.mem p f }

def State.setWord (s : State) (p i w : Nat) : State :=
  s.fill p (put (s.mem p) (4 * i) (Words.bytes 4 w))

/-- The calls of `panic`, and `null` for the use of a null pointer. -/
inductive Stop
  | kfree
  | remap
  | phystop
  | unaligned
  | loaduvm
  | clearpteu
  | pteExist
  | notPresent
  | null
  deriving DecidableEq, Repr

abbrev Sys := Calls.Call State Stop

def fill (p : Nat) (f : Nat → BitVec 8) : Sys Unit := modify fun s => s.fill p f

def setWord (p i w : Nat) : Sys Unit := modify fun s => s.setWord p i w

/-! ## `kalloc.c` -/

def kalloc : Sys (Option Nat) := do
  let s ← get
  match s.freelist with
  | [] => pure none
  | r :: next => do
    modify fun s => { s with freelist := next }
    pure (some r)

def kfree (L : Layout) (v : Nat) : Sys Unit := do
  if v < L.first ∨ L.last ≤ v then throw .kfree
  else modify fun s => { s.fill v (fun _ => 1) with freelist := v :: s.freelist }

/-! ## `vm.c` -/

/-- The page table and the index in it, if there is a page table for `va`. -/
def walkpgdir (pgdir va : Nat) (alloc : Bool) : Sys (Option (Nat × Nat)) := do
  let s ← get
  let pde := s.word pgdir (PDX va)
  if present pde then pure (some (PTE_ADDR pde, PTX va))
  else if alloc then
    match ← kalloc with
    | none => pure none
    | some pgtab => do
      fill pgtab fun _ => 0
      setWord pgdir (PDX va) (entry pgtab (PTE_W ||| PTE_U))
      pure (some (pgtab, PTX va))
  else pure none

/-- One turn of the loop of `mappages`. -/
def mappage (pgdir a pa perm : Nat) : Sys Bool := do
  match ← walkpgdir pgdir a true with
  | none => pure false
  | some (pgtab, i) => do
    let s ← get
    if present (s.word pgtab i) then throw .remap
    else do
      setWord pgtab i (entry pa perm)
      pure true

/-- The loop of `mappages`, when `k` pages follow after `a`. -/
def mapLoop (pgdir perm : Nat) : Nat → Nat → Nat → Sys Bool
  | 0, a, pa => mappage pgdir a pa perm
  | k + 1, a, pa => do
    if ← mappage pgdir a pa perm then mapLoop pgdir perm k (a + PGSIZE) (pa + 1)
    else pure false

def mappages (pgdir va size pa perm : Nat) : Sys Bool :=
  mapLoop pgdir perm ((PGROUNDDOWN (va + size - 1) - PGROUNDDOWN va) / PGSIZE) (PGROUNDDOWN va) pa

/-- The loop of `deallocuvm`; where there is no page table it goes on to the next one. -/
def deallocLoop (L : Layout) (pgdir oldsz : Nat) : Nat → Nat → Sys Unit
  | 0, _ => pure ()
  | fuel + 1, a =>
    if a < oldsz then do
      match ← walkpgdir pgdir a false with
      | none => deallocLoop L pgdir oldsz fuel (PGADDR (PDX a + 1) 0 0)
      | some (pgtab, i) => do
        let s ← get
        let pte := s.word pgtab i
        if present pte then
          if PTE_ADDR pte = 0 then throw .kfree
          else do
            kfree L (PTE_ADDR pte)
            setWord pgtab i 0
            deallocLoop L pgdir oldsz fuel (a + PGSIZE)
        else deallocLoop L pgdir oldsz fuel (a + PGSIZE)
    else pure ()

/-- There are at most `oldsz / PGSIZE + 1` turns. -/
def deallocuvm (L : Layout) (pgdir oldsz newsz : Nat) : Sys Nat := do
  if oldsz ≤ newsz then pure oldsz
  else do
    deallocLoop L pgdir oldsz (oldsz / PGSIZE + 1) (PGROUNDUP newsz)
    pure newsz

/-- The loop of `freevm` over the page directory, from entry `i` on, with `k` entries left. -/
def freeTables (L : Layout) (pgdir : Nat) : Nat → Nat → Sys Unit
  | 0, _ => pure ()
  | k + 1, i => do
    let s ← get
    let pde := s.word pgdir i
    if present pde then do
      kfree L (PTE_ADDR pde)
      freeTables L pgdir k (i + 1)
    else freeTables L pgdir k (i + 1)

/-- `freevm`, of a page directory that is not null. -/
def freevm (L : Layout) (pgdir : Nat) : Sys Unit := do
  let _ ← deallocuvm L pgdir KERNBASE 0
  freeTables L pgdir NPDENTRIES 0
  kfree L pgdir

/-- The loop of `setupkvm`. -/
def mapKernel (pgdir : Nat) : List Kmap → Sys Bool
  | [] => pure true
  | k :: ks => do
    if ← mappages pgdir k.virt k.size (k.physStart / PGSIZE) k.perm then mapKernel pgdir ks
    else pure false

def setupkvm (L : Layout) : Sys (Option Nat) := do
  match ← kalloc with
  | none => pure none
  | some pgdir => do
    fill pgdir fun _ => 0
    if DEVSPACE < KERNBASE + PHYSTOP then throw .phystop
    else if ← mapKernel pgdir L.kmap then pure (some pgdir)
    else do
      freevm L pgdir
      pure none

/-- The addresses `a`, `a + PGSIZE`, … below `b`. -/
def addrs (a b : Nat) : List Nat :=
  (List.range ((b - a + PGSIZE - 1) / PGSIZE)).map fun k => a + k * PGSIZE

/-- The loop of `allocuvm`. -/
def allocLoop (L : Layout) (pgdir oldsz newsz : Nat) : List Nat → Sys Nat
  | [] => pure newsz
  | a :: as => do
    match ← kalloc with
    | none => do
      let _ ← deallocuvm L pgdir newsz oldsz
      pure 0
    | some mem => do
      fill mem fun _ => 0
      if ← mappages pgdir a PGSIZE mem (PTE_W ||| PTE_U) then allocLoop L pgdir oldsz newsz as
      else do
        let _ ← deallocuvm L pgdir newsz oldsz
        kfree L mem
        pure 0

def allocuvm (L : Layout) (pgdir oldsz newsz : Nat) : Sys Nat := do
  if KERNBASE ≤ newsz then pure 0
  else if newsz < oldsz then pure oldsz
  else allocLoop L pgdir oldsz newsz (addrs (PGROUNDUP oldsz) newsz)

/-- The loop of `copyuvm`. -/
def copyLoop (L : Layout) (pgdir d : Nat) : List Nat → Sys Bool
  | [] => pure true
  | i :: is => do
    match ← walkpgdir pgdir i false with
    | none => throw .pteExist
    | some (pgtab, k) => do
      let s ← get
      let pte := s.word pgtab k
      if ¬present pte then throw .notPresent
      else
        match ← kalloc with
        | none => pure false
        | some mem => do
          fill mem (s.mem (PTE_ADDR pte))
          if ← mappages d i PGSIZE mem (PTE_FLAGS pte) then copyLoop L pgdir d is
          else do
            kfree L mem
            pure false

def copyuvm (L : Layout) (pgdir sz : Nat) : Sys (Option Nat) := do
  match ← setupkvm L with
  | none => pure none
  | some d =>
    if ← copyLoop L pgdir d (addrs 0 sz) then pure (some d)
    else do
      freevm L d
      pure none

/-- `growproc(n)`: the result, and the size of the process then. -/
def growproc (L : Layout) (pgdir sz : Nat) (n : Int) : Sys (Int × Nat) := do
  let newsz := ((sz + n) % 2 ^ 32).toNat
  if 0 < n then do
    let sz' ← allocuvm L pgdir sz newsz
    pure (if sz' = 0 then (-1, sz) else (0, sz'))
  else if n < 0 then do
    let sz' ← deallocuvm L pgdir sz newsz
    pure (if sz' = 0 then (-1, sz) else (0, sz'))
  else pure (0, sz)

end Xv6.Pages
