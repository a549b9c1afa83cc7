import DemoOs.Arch.Powerpc
import Mathlib.Data.List.FinRange

/-!
# The page hash table

The functions of `mmu.cpp`. The page hash table has groups of eight entries; a page has a primary
and a secondary group, which its hash selects. The hash is taken of the virtual page, i.e., of the
VSID in the segment register of the address and of the index of the page in the segment.

A group is named by its address, an entry by its group and its position in the group (`Slot`).
-/

namespace DemoOs

namespace Mmu

/-- A page table entry, its second word being left in one piece. -/
structure PTE where
  v : Bool
  vsid : BitVec 24
  h : Bool
  api : BitVec 6
  phyWord : BitVec 32
  deriving DecidableEq

namespace PTE

/-- The referenced bit. -/
def r (e : PTE) : Bool := e.phyWord.getLsbD 8

/-- The changed bit. -/
def c (e : PTE) : Bool := e.phyWord.getLsbD 7

def virtAddr2API (virtAddr : BitVec 32) : BitVec 6 := ((virtAddr >>> 22) &&& 0x3F).setWidth 6

/-- The entry `invalidSelf` leaves, all zero. -/
def zero : PTE := ⟨false, 0, false, 0, 0⟩

/-- `PTE::buildPTE`. -/
def buildPTE (virtAddr entry : BitVec 32) (vsid : BitVec 24) (isSecondaryHash : Bool) : PTE :=
  ⟨true, vsid, isSecondaryHash, virtAddr2API virtAddr, entry⟩

end PTE

abbrev Slot := BitVec 32 × Fin 8

/-- The segment registers. -/
abbrev SRs := BitVec 4 → BitVec 32

/-- `getSR`: `mfsrin` selects the register by the top four bits of its operand. -/
def getSR (sr : SRs) (effAddr : BitVec 32) : BitVec 32 := sr (effAddr.extractLsb' 28 4)

/-- The field `vsid` of a segment register. -/
def vsid (w : BitVec 32) : BitVec 24 := w.setWidth 24

structure HashTable where
  baseAddr : BitVec 32
  hashMask : BitVec 32
  ptes : Slot → PTE

namespace HashTable

/-- The masks `HashTable::init` selects by the size of the table. -/
def masks (size : ℕ) : BitVec 32 × BitVec 32 :=
  if size ≥ 0x02000000 then (0xfe000000, 0x1ff)
  else if size ≥ 0x01000000 then (0xff000000, 0xff)
  else if size ≥ 0x00800000 then (0xff800000, 0x7f)
  else if size ≥ 0x00400000 then (0xffc00000, 0x3f)
  else if size ≥ 0x00200000 then (0xffe00000, 0x1f)
  else if size ≥ 0x00100000 then (0xfff00000, 0xf)
  else if size ≥ 0x00080000 then (0xfff80000, 0x7)
  else if size ≥ 0x00040000 then (0xfffc0000, 0x3)
  else if size ≥ 0x00020000 then (0xfffe0000, 0x1)
  else (0xffff0000, 0x0)

/-- `HashTable::init`, the memory of the table being zero. -/
def init (phyAddr : BitVec 32) (size : ℕ) : HashTable where
  baseAddr := phyAddr &&& (masks size).1
  hashMask := (masks size).2
  ptes _ := .zero

def sdr1 (t : HashTable) : BitVec 32 := t.baseAddr ||| t.hashMask

/-- `HashTable::primaryHash`. -/
def primaryHash (virAddr : BitVec 32) (vsid : BitVec 24) : BitVec 32 :=
  let pgi := virAddr >>> 12
  let pgi := pgi &&& 0xffff
  (vsid.setWidth 32 &&& 0x7ffff) ^^^ pgi

/-- `HashTable::secondaryHash`. -/
def secondaryHash (hashVal : BitVec 32) : BitVec 32 := ~~~hashVal &&& 0x7ffff

/-- `HashTable::getPTEG`. -/
def getPTEG (t : HashTable) (hashVal : BitVec 32) : BitVec 32 :=
  let lower := (hashVal &&& 0x3ff) <<< 6
  let higher := (hashVal &&& 0x7fc00) >>> 10
  let higher := (higher &&& t.hashMask) <<< 16
  t.baseAddr ||| higher ||| lower

/-- The loop over the entries of a group, for the first one with a property. -/
def findIn (t : HashTable) (pteg : BitVec 32) (p : PTE → Bool) : Option Slot :=
  ((List.finRange 8).find? fun i => p (t.ptes (pteg, i))).map fun i => (pteg, i)

def locateThePTE (t : HashTable) (pteg : BitVec 32) (vsid : BitVec 24) (api : BitVec 6) :
    Option Slot :=
  t.findIn pteg fun e => e.v && e.vsid == vsid && e.api == api

/-- `HashTable::locatePTE`. -/
def locatePTE (t : HashTable) (sr : SRs) (virt : BitVec 32) : Option Slot :=
  -- The operand of `getSR` is shifted already.
  let vsid := vsid (getSR sr (virt >>> 28))
  let hash := primaryHash virt vsid
  let api := PTE.virtAddr2API virt
  (t.locateThePTE (t.getPTEG hash) vsid api).or
    (t.locateThePTE (t.getPTEG (secondaryHash hash)) vsid api)

def findInvalidPTE (t : HashTable) (pteg : BitVec 32) : Option Slot :=
  t.findIn pteg fun e => !e.v

def findUnChangedPTE (t : HashTable) (pteg : BitVec 32) : Option Slot :=
  t.findIn pteg fun e => !e.r && !e.c

/-- `HashTable::findPTE`, with `isSecondaryHash`. -/
def findPTE (t : HashTable) (sr : SRs) (virtAddr : BitVec 32) : Slot × Bool :=
  let vsid := vsid (getSR sr virtAddr)
  let hash := primaryHash virtAddr vsid
  let pteg := t.getPTEG hash
  match t.findInvalidPTE pteg with
  | some s => (s, false)
  | none =>
    let secPteg := t.getPTEG (secondaryHash hash)
    match t.findInvalidPTE secPteg with
    | some s => (s, true)
    | none =>
      match t.findUnChangedPTE pteg with
      | some s => (s, false)
      | none =>
        match t.findUnChangedPTE secPteg with
        | some s => (s, true)
        -- Both groups are full and in use: the first entry of the second one goes.
        | none => ((secPteg, 0), true)

/-- `HashTable::insertPTE`. -/
def insertPTE (t : HashTable) (sr : SRs) (virtAddr entry : BitVec 32) : HashTable :=
  let vsid := vsid (getSR sr virtAddr)
  let (s, isSecondaryHash) := t.findPTE sr virtAddr
  { t with ptes := Function.update t.ptes s (.buildPTE virtAddr entry vsid isSecondaryHash) }

/-- `HashTable::invalidPTE`. -/
def invalidPTE (t : HashTable) (sr : SRs) (virAddr : BitVec 32) : HashTable :=
  match t.locatePTE sr virAddr with
  | none => t
  | some s => if (t.ptes s).v then { t with ptes := Function.update t.ptes s .zero } else t

end HashTable

end Mmu

end DemoOs
