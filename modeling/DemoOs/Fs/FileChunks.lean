import DemoOs.Fs.PackedTags2
import DemoOs.Fs.SoftDel
import DemoOs.Fs.TnodeCheckpt
import DemoOs.Fs.TnodePrune
import DemoOs.Lib.Run

/-!
# The chunks of a file

Putting a chunk into a file, finding it and taking it out (`yaffs_put_chunk_in_file`,
`yaffs_find_chunk_in_file`, `yaffs_find_del_file_chunk` of `yaffs_guts.c`). An entry names only a
group of chunks, of which the right one is found by its tags. When the device is scanned, there may
be two chunks for one place in the file: of format 1 (`in_scan` positive) their serial numbers tell
which is the newer, of format 2 (`in_scan` negative) it is the one that is met first.

* `chunks_run`: whatever is put, taken out and pruned, and whichever requests for memory are
  refused, a file is searched as its chunks would be in a plain map of groups, on which the same is
  done as far as the calls have succeeded;
* `prune_run`: what is left of the tree when it has been pruned;
* `softDel_run`: what is deleted with the file;
* `checkpt_run`: a file is the same when it has been written to a checkpoint and read back;
* `scan_new`: which chunks are kept when the flash memory is scanned;
* `findChunkInFile_put`: what has been put is found, as long as no other chunk of its group has the
  same tags.
-/

namespace DemoOs

open FileVar

/-- Of the flash memory when a function is called: `yaffs_check_chunk_bit`, and the tags
    `yaffs_rd_chunk_tags_nand` reads. -/
structure NandView where
  chunkBit : ℕ → Bool
  tags : ℕ → ExtTags

/-- And of the stack: what there is of `existing_tags.serial_number` before anything is read into
    `existing_tags`. -/
structure PutView extends NandView where
  stackSerial : BitVec 32

/-- Of `struct yaffs_obj`, a file. -/
structure FileObj where
  objId : BitVec 32
  nDataChunks : ℤ
  fileVariant : FileVar

/-- `yaffs_tags_match`. -/
def tagsMatch (tags : ExtTags) (objId chunkObj : BitVec 32) : Bool :=
  tags.chunkId = chunkObj && tags.objId = objId && tags.isDeleted = 0

namespace TnodeDev

variable (dev : TnodeDev)

/-- `chunk_grp_size`. -/
def chunkGrpSize : ℕ := 1 <<< dev.chunkGrpBits

/-- The loop of `yaffs_find_chunk_in_group`, as often as is left to do. -/
def findInGroupLoop (view : NandView) (objId inodeChunk : BitVec 32) : ℕ → ℕ → Option ℕ
  | 0, _ => none
  | n + 1, theChunk =>
    if theChunk = 0 then none
    else if view.chunkBit theChunk &&
      (dev.chunkGrpSize = 1 || tagsMatch (view.tags theChunk) objId inodeChunk) then
      some theChunk
    else findInGroupLoop view objId inodeChunk n (theChunk + 1)

/-- `yaffs_find_chunk_in_group`; nothing is -1. -/
def findChunkInGroup (view : NandView) (theChunk : ℕ) (objId inodeChunk : BitVec 32) : Option ℕ :=
  dev.findInGroupLoop view objId inodeChunk dev.chunkGrpSize theChunk

end TnodeDev

namespace FileObj

variable (dev : TnodeDev)

/-- `yaffs_find_chunk_in_file`. -/
def findChunkInFile (view : NandView) (obj : FileObj) (inodeChunk : BitVec 32) : Option ℕ :=
  (obj.fileVariant.findTnode0 inodeChunk.toNat).bind fun tn =>
    dev.findChunkInGroup view (dev.getGroupBase tn inodeChunk.toNat).toNat obj.objId inodeChunk

/-- `yaffs_find_del_file_chunk`. -/
def findDelFileChunk (view : NandView) (obj : FileObj) (inodeChunk : BitVec 32) :
    Option ℕ × FileObj :=
  let retVal := findChunkInFile dev view obj inodeChunk
  (retVal, if retVal.isSome
    then { obj with fileVariant := obj.fileVariant.load dev inodeChunk.toNat 0 } else obj)

/-- Of two chunks of one place, the serial number of the new one is the next one. Of the existing
    chunk, it is in the tags that the search has read, if it has read any. -/
def supersedes (view : PutView) (existing : ℕ) (nandChunk : BitVec 32) : Bool :=
  let existingSerial :=
    if dev.chunkGrpSize = 1 then view.stackSerial else (view.tags existing).serialNumber
  (existingSerial + 1) &&& 3 = (view.tags nandChunk.toNat).serialNumber

/-- `yaffs_put_chunk_in_file`, of a file: what it returns, and the chunk it deletes. Where nothing
    is found, it is the chunk -1 that is deleted, which does nothing (`yaffs_chunk_del`). -/
def putChunkInFile (view : PutView) (obj : FileObj) (p : TnodePool)
    (inodeChunk nandChunk : BitVec 32) (inScan : ℤ) :
    (Bool × Option (BitVec 32)) × FileObj × TnodePool :=
  let r := obj.fileVariant.addFindTnode0 dev inodeChunk.toNat none p
  let obj := { obj with fileVariant := r.2.1 }
  let loaded := r.2.1.load dev inodeChunk.toNat nandChunk
  if !r.1 then ((false, none), obj, r.2.2)
  else if nandChunk = 0 then ((true, none), obj, r.2.2)
  else
    let existing :=
      ((r.2.1.findTnode0 inodeChunk.toNat).map (dev.getGroupBase · inodeChunk.toNat)).getD 0
    if inScan ≠ 0 ∧ 0 < existing.toInt then
      let existing := findChunkInFile dev view.toNandView obj inodeChunk
      if 0 < inScan ∧ existing.all (supersedes dev view · nandChunk) then
        ((true, existing.map (BitVec.ofNat 32)), { obj with fileVariant := loaded }, r.2.2)
      else ((true, some nandChunk), obj, r.2.2)
    else
      let nDataChunks := if existing = 0 then obj.nDataChunks + 1 else obj.nDataChunks
      ((true, none), ⟨obj.objId, nDataChunks, loaded⟩, r.2.2)

end FileObj

/-! ## A file as a map -/

/-- What is done with the chunks of a file. -/
inductive ChunkOp
  | put (view : PutView) (inodeChunk nandChunk : BitVec 32) (inScan : ℤ)
  | del (view : NandView) (inodeChunk : BitVec 32)
  | prune

/-- What is returned. -/
inductive ChunkReply
  | put (ok : Bool) (deleted : Option (BitVec 32))
  | del (chunk : Option ℕ)
  | done

/-- The groups of the chunks of a file, zero where there is none. -/
abbrev GroupMap := ℕ → BitVec 32

/-- The answer to a search by the groups. -/
def GroupMap.answer (dev : TnodeDev) (m : GroupMap) (view : NandView)
    (objId inodeChunk : BitVec 32) : Option ℕ :=
  if inodeChunk.toNat ≤ maxChunkId
    then dev.findChunkInGroup view (m inodeChunk.toNat).toNat objId inodeChunk else none

/-- A chunk is put, as far as the groups go: which chunk is deleted, and the groups there are then.
    While scanning, a chunk there is already is kept, unless it is of format 1, and older or not to
    be found. -/
def GroupMap.put (dev : TnodeDev) (m : GroupMap) (view : PutView)
    (objId inodeChunk nandChunk : BitVec 32) (inScan : ℤ) :
    Option (BitVec 32) × GroupMap :=
  let put := Function.update m inodeChunk.toNat (dev.cut nandChunk)
  if nandChunk = 0 then (none, m)
  else if inScan = 0 ∨ (m inodeChunk.toNat).toInt ≤ 0 then (none, put)
  else
    let existing := m.answer dev view.toNandView objId inodeChunk
    if 0 < inScan ∧ existing.all (FileObj.supersedes dev view · nandChunk)
      then (existing.map (BitVec.ofNat 32), put)
    else (some nandChunk, m)

/-- What is known of the groups of object `objId` when a call has returned. -/
def GroupMap.record (dev : TnodeDev) (objId : BitVec 32) (m : GroupMap) : ChunkOp →
    ChunkReply → GroupMap
  | .put view i c scan, .put true _ => (m.put dev view objId i c scan).2
  | .del _ i, .del (some _) => Function.update m i.toNat 0
  | _, _ => m

/-- A file, the pool its tnodes are from, and what is known of its groups. -/
structure FileState where
  obj : FileObj
  pool : TnodePool
  groups : GroupMap

namespace FileState

/-- A call, and what it returns; nothing if it leaves a `top` that is null. -/
def call (dev : TnodeDev) (s : FileState) : ChunkOp → Option (ChunkReply × FileObj × TnodePool)
  | .put view i c scan =>
    let r := s.obj.putChunkInFile dev view s.pool i c scan
    some (.put r.1.1 r.1.2, r.2)
  | .del view i => let r := s.obj.findDelFileChunk dev view i; some (.del r.1, r.2, s.pool)
  | .prune => (pruneTree dev s.obj.fileVariant s.pool).map fun r =>
      (.done, { s.obj with fileVariant := r.1 }, r.2)

def step (dev : TnodeDev) (s : FileState) (op : ChunkOp) : Option FileState :=
  (s.call dev op).map fun r => ⟨r.2.1, r.2.2, s.groups.record dev s.obj.objId op r.1⟩

/-- A file as `yaffs_new_obj` leaves it. -/
def new (objId : BitVec 32) (p : TnodePool) : FileState := ⟨⟨objId, 0, fresh⟩, p, fun _ => 0⟩

/-- The tree holds what is known of the groups, and nothing else of the pool. -/
structure Correct (dev : TnodeDev) (n : ℤ) (s : FileState) : Prop where
  level : s.obj.fileVariant.topLevel ≤ tnodesMaxLevel
  leftmost : s.obj.fileVariant.Leftmost
  entry : ∀ i ≤ maxChunkId, s.obj.fileVariant.entry dev i = s.groups i
  nTnodes : s.pool.nTnodes = n + s.obj.fileVariant.nodes

variable {dev : TnodeDev} {n : ℤ} {s s' : FileState} {view : NandView} {i c objId : BitVec 32}

@[simp] theorem findChunkInGroup_zero : dev.findChunkInGroup view 0 objId i = none := by
  rw [TnodeDev.findChunkInGroup]
  cases dev.chunkGrpSize with
  | zero => rfl
  | succ k => rw [TnodeDev.findInGroupLoop, if_pos rfl]

/-- A search looks at the group of the entry. -/
theorem findChunkInFile_eq {obj : FileObj} (hlevel : obj.fileVariant.topLevel ≤ tnodesMaxLevel)
    (view : NandView)
    (i : BitVec 32) : obj.findChunkInFile dev view i = if i.toNat ≤ maxChunkId then
      dev.findChunkInGroup view (obj.fileVariant.entry dev i.toNat).toNat obj.objId i
        else none := by
  rw [FileObj.findChunkInFile]
  split_ifs with hi
  · rw [← getD_findTnode0 hlevel hi]
    cases obj.fileVariant.findTnode0 i.toNat with
    | none => exact findChunkInGroup_zero.symm
    | some tn => rfl
  · rw [findTnode0, if_neg (Nat.not_lt.2 hlevel), if_pos (Nat.not_le.1 hi)]
    rfl

theorem Correct.find (h : Correct dev n s) (view : NandView) (i : BitVec 32) :
    s.obj.findChunkInFile dev view i = s.groups.answer dev view s.obj.objId i := by
  rw [findChunkInFile_eq h.level, GroupMap.answer]
  split_ifs with hi
  · rw [h.entry _ hi]
  · rfl

theorem Correct.isSome_findTnode0 (h : Correct dev n s)
    (hfind : (s.obj.findChunkInFile dev view i).isSome) :
    i.toNat ≤ maxChunkId ∧ (s.obj.fileVariant.findTnode0 i.toNat).isSome := by
  have hi : i.toNat ≤ maxChunkId := by
    by_contra hi
    rw [h.find, GroupMap.answer, if_neg hi] at hfind
    exact Bool.false_ne_true hfind
  rw [FileObj.findChunkInFile] at hfind
  cases hfound : s.obj.fileVariant.findTnode0 i.toNat with
  | none =>
    rw [hfound] at hfind
    exact absurd hfind Bool.false_ne_true
  | some tn => exact ⟨hi, rfl⟩

/-- Setting an entry for which there is room. -/
theorem Correct.load (h : Correct dev n s) (hi : i.toNat ≤ maxChunkId)
    (hroom : (s.obj.fileVariant.findTnode0 i.toNat).isSome) (k : ℤ) (id : BitVec 32) :
    Correct dev n ⟨⟨id, k, s.obj.fileVariant.load dev i.toNat c⟩, s.pool,
      Function.update s.groups i.toNat (dev.cut c)⟩ where
  level := h.level
  leftmost := leftmost_load h.leftmost
  entry j hj := by
    dsimp only
    rw [entry_load h.level hi hroom]
    by_cases hne : j = i.toNat
    · rw [hne, Function.update_self, Function.update_self]
    · rw [Function.update_of_ne hne, Function.update_of_ne hne, h.entry j hj]
  nTnodes := by
    dsimp only
    rw [nodes_load]
    exact h.nTnodes

theorem Correct.kept (h : Correct dev n s) {f : FileVar} {p : TnodePool}
    (hkept : Kept dev s.obj.fileVariant s.pool f p)
    (hlevel : f.topLevel ≤ tnodesMaxLevel) :
    Correct dev n ⟨{ s.obj with fileVariant := f }, p, s.groups⟩ where
  level := hlevel
  leftmost := hkept.leftmost h.leftmost
  entry j hj := (hkept.entry j).trans (h.entry j hj)
  nTnodes := by
    have hbefore := h.nTnodes
    have hafter := hkept.nTnodes
    dsimp only
    omega

/-- A call of `yaffs_put_chunk_in_file`: without the memory for the tnodes, nothing is known of the
    chunk; with it, what is done to the tree and what is deleted are what the groups say. -/
theorem Correct.put_spec (h : Correct dev n s) (view : PutView) (i c : BitVec 32) (scan : ℤ) :
    let r := s.obj.putChunkInFile dev view s.pool i c scan
    let m := s.groups.put dev view s.obj.objId i c scan
    (r.1.1 = true → i.toNat ≤ maxChunkId) ∧ r.1.2 = (if r.1.1 then m.1 else none) ∧
      r.2.1.objId = s.obj.objId ∧
      Correct dev n ⟨r.2.1, r.2.2, if r.1.1 then m.2 else s.groups⟩ := by
  obtain ⟨hkept, hlevel, hroom, -⟩ := addFindTnode0_spec dev h.level i.toNat s.pool
  dsimp only
  rw [FileObj.putChunkInFile]
  generalize s.obj.fileVariant.addFindTnode0 dev i.toNat none s.pool = r at *
  obtain ⟨ok, f, p⟩ := r
  have hnext := h.kept hkept hlevel
  dsimp only at hnext hroom ⊢
  cases ok with
  | false => exact ⟨fun h => absurd h Bool.false_ne_true, rfl, rfl, hnext⟩
  | true =>
    obtain ⟨hi, hsome⟩ := hroom rfl
    have hload := fun k => hnext.load (c := c) hi hsome k s.obj.objId
    have hexisting :
        ((f.findTnode0 i.toNat).map (dev.getGroupBase · i.toNat)).getD 0 = s.groups i.toNat := by
      rw [getD_findTnode0 hlevel hi, hnext.entry _ hi]
    have hfind := hnext.find view.toNandView i
    rw [Bool.not_true, if_neg Bool.false_ne_true, hexisting, GroupMap.put]
    dsimp only at hfind ⊢
    by_cases hc : c = 0
    · rw [if_pos hc, if_pos hc]
      exact ⟨fun _ => hi, rfl, rfl, hnext⟩
    rw [if_neg hc, if_neg hc]
    by_cases hplain : scan = 0 ∨ (s.groups i.toNat).toInt ≤ 0
    · rw [if_pos hplain, if_neg fun hboth => hplain.elim hboth.1 (not_le.2 hboth.2)]
      exact ⟨fun _ => hi, rfl, rfl, hload _⟩
    -- What is deleted depends, while scanning format 1, on what the search finds.
    obtain ⟨hscan, hpos⟩ := not_or.1 hplain
    rw [if_neg hplain, if_pos ⟨hscan, not_le.1 hpos⟩, hfind]
    by_cases hnewer : 0 < scan ∧
        (s.groups.answer dev view.toNandView s.obj.objId i).all (FileObj.supersedes dev view · c) =
          true
    · rw [if_pos hnewer, if_pos hnewer]
      exact ⟨fun _ => hi, rfl, rfl, hload _⟩
    · rw [if_neg hnewer, if_neg hnewer]
      exact ⟨fun _ => hi, rfl, rfl, hnext⟩

theorem Correct.put (h : Correct dev n s) (view : PutView) (i c : BitVec 32) (scan : ℤ) :
    ∃ s', s.step dev (.put view i c scan) = some s' ∧ Correct dev n s' ∧
      s'.obj.objId = s.obj.objId := by
  obtain ⟨-, -, hid, hnext⟩ := h.put_spec view i c scan
  refine ⟨_, rfl, ?_, hid⟩
  dsimp only [call, Option.map_some]
  generalize s.obj.putChunkInFile dev view s.pool i c scan = r at *
  obtain ⟨⟨ok, deleted⟩, r⟩ := r
  cases ok <;> exact hnext

theorem Correct.del (h : Correct dev n s) (view : NandView) (i : BitVec 32) :
    ∃ s', s.step dev (.del view i) = some s' ∧ Correct dev n s' ∧ s'.obj.objId = s.obj.objId := by
  refine ⟨_, rfl, ?_⟩
  dsimp only [call, Option.map_some]
  rw [FileObj.findDelFileChunk]
  cases hfind : s.obj.findChunkInFile dev view i with
  | none => exact ⟨h, rfl⟩
  | some chunk =>
    obtain ⟨hi, hsome⟩ :=
      h.isSome_findTnode0 (show (s.obj.findChunkInFile dev view i).isSome by rw [hfind]; rfl)
    have hload := h.load (c := 0) hi hsome s.obj.nDataChunks s.obj.objId
    rw [TnodeDev.cut_zero] at hload
    exact ⟨hload, rfl⟩

theorem Correct.prune (h : Correct dev n s) :
    ∃ s', s.step dev .prune = some s' ∧ Correct dev n s' ∧ s'.obj.objId = s.obj.objId := by
  obtain ⟨f, p, hprune, hkept, hlevel, -⟩ := pruneTree_spec dev s.pool h.leftmost
  refine ⟨⟨{ s.obj with fileVariant := f }, p, s.groups⟩, ?_,
    h.kept hkept (hlevel.trans h.level), rfl⟩
  rw [step, call, hprune]
  rfl

/-- Each call returns, and leaves the tree as it should be. -/
theorem Correct.step (h : Correct dev n s) (op : ChunkOp) :
    ∃ s', s.step dev op = some s' ∧ Correct dev n s' ∧ s'.obj.objId = s.obj.objId := by
  cases op with
  | put view i c scan => exact h.put view i c scan
  | del view i => exact h.del view i
  | prune => exact h.prune

variable (dev) in
theorem correct_new (objId : BitVec 32) (p : TnodePool) :
    Correct dev (p.nTnodes - 1) (new objId p) where
  level := Nat.zero_le _
  leftmost := rfl
  entry _ _ := entry_fresh
  nTnodes := by
    have hone : (new objId p).obj.fileVariant.nodes = 1 := rfl
    rw [hone]
    dsimp only [new]
    omega

theorem correct_of_run {p : TnodePool} (hrun : Run (step dev) (fun _ _ => True) (new objId p) s) :
    Correct dev (p.nTnodes - 1) s ∧ s.obj.objId = objId :=
  hrun.invariant (I := fun s => Correct dev (p.nTnodes - 1) s ∧ s.obj.objId = objId)
    (fun {s op s'} h _ hstep => by
      obtain ⟨t, ht, hcorrect, hid⟩ := h.1.step op
      obtain rfl := Option.some.inj (ht.symm.trans hstep)
      exact ⟨hcorrect, hid.trans h.2⟩) ⟨correct_new dev objId p, rfl⟩

/-- Of a file to which anything has happened: a search for any chunk answers as the groups do that
    have been put; the tree holds all tnodes it was given and no others; the next call will not
    come upon a null `top`; and if it puts a chunk, and there is memory, it deletes what the
    groups say. -/
theorem chunks_run {p : TnodePool} (hrun : Run (step dev) (fun _ _ => True) (new objId p) s) :
    (∀ view i, s.obj.findChunkInFile dev view i = s.groups.answer dev view objId i) ∧
      s.pool.nTnodes - s.obj.fileVariant.nodes = p.nTnodes - 1 ∧ (∀ op, (s.step dev op).isSome) ∧
      ∀ view i c scan ok deleted r, s.call dev (.put view i c scan) = some (.put ok deleted, r) →
        deleted = if ok then (s.groups.put dev view objId i c scan).1 else none := by
  obtain ⟨h, rfl⟩ := correct_of_run hrun
  refine ⟨h.find, ?_, fun op => ?_, fun view i c scan ok deleted r hput => ?_⟩
  · have hnodes := h.nTnodes
    omega
  · obtain ⟨t, ht, -⟩ := h.step op
    rw [ht]
    rfl
  · obtain ⟨-, hdeleted, -⟩ := h.put_spec view i c scan
    obtain ⟨hreply, -⟩ := Prod.mk.inj (Option.some.inj hput)
    obtain ⟨rfl, rfl⟩ := ChunkReply.put.inj hreply
    exact hdeleted

/-- A device with groups of two chunks. -/
def pairs : TnodeDev := ⟨16, 1, by decide, by decide, by decide, by decide⟩

/-- A pool of which every other request is refused. -/
def scarce : TnodePool := ⟨1, fun k => k % 2 = 0⟩

/-- Each chunk up to 90 is in use for place 5 of object 7, each with the next serial number. -/
def serials : PutView where
  chunkBit c := c ≤ 90
  tags c := { ExtTags.zero with objId := 7, chunkId := 5, serialNumber := BitVec.ofNat 32 (c % 4) }
  stackSerial := 0

theorem chunks_run_small : ∃ s s',
    (new 7 scarce).step pairs (.put serials 5 70 0) = some s ∧
    s.step pairs (.put serials 5 75 1) = some s' ∧
      (∀ view i, s'.obj.findChunkInFile pairs view i = s'.groups.answer pairs view 7 i) ∧
        s'.pool.nTnodes - s'.obj.fileVariant.nodes = scarce.nTnodes - 1 ∧
          (∀ op, (s'.step pairs op).isSome) ∧
          ∀ view i c scan ok deleted r,
            s'.call pairs (.put view i c scan) = some (.put ok deleted, r) →
            deleted = if ok then (s'.groups.put pairs view 7 i c scan).1 else none := by
  obtain ⟨s, hs, hcorrect, -⟩ := (correct_new pairs 7 scarce).step (.put serials 5 70 0)
  obtain ⟨s', hs', -⟩ := hcorrect.step (.put serials 5 75 1)
  exact ⟨s, s', hs, hs', chunks_run ((Run.refl.tail trivial hs).tail trivial hs')⟩

example : (GroupMap.put pairs (fun _ => 70) serials 7 5 75 1).1 = some 70 := by decide

example : (GroupMap.put pairs (fun _ => 70) serials 7 5 76 1).1 = some 76 := by decide

/-- When a file has been pruned, its tree has no tnode of level 0 without an entry, but for the one
    of the first chunks, and is no higher than the chunks make it that it has. -/
theorem prune_run {p : TnodePool} (hrun : Run (step dev) (fun _ _ => True) (new objId p) s)
    (hstep : s.step dev .prune = some s') :
    (∀ j map, s'.obj.fileVariant.findTnode0 j = some map → j / 16 = 0 ∨
      ∃ pos < 16, dev.getGroupBase map pos ≠ 0) ∧
      ∀ k < s'.obj.fileVariant.topLevel, ∃ j ≤ maxChunkId, 8 ^ k ≤ j / 16 ∧ s.groups j ≠ 0 := by
  obtain ⟨h, -⟩ := correct_of_run hrun
  obtain ⟨r, hr, rfl⟩ := Option.map_eq_some_iff.1 hstep
  obtain ⟨⟨f, q⟩, hprune, rfl⟩ := Option.map_eq_some_iff.1 hr
  obtain ⟨g, q', hg, -, hle, -⟩ := pruneTree_spec dev s.pool h.leftmost
  obtain ⟨rfl, -⟩ := Prod.mk.inj (Option.some.inj (hg.symm.trans hprune))
  obtain ⟨hfound, hhigh⟩ := pruneTree_least h.leftmost h.level hprune
  refine ⟨hfound, fun k hk => ?_⟩
  obtain ⟨j, hj, hjk, hne⟩ := hhigh k hk
  have hmax : j ≤ maxChunkId := by
    have hpow : 8 ^ g.topLevel ≤ 8 ^ tnodesMaxLevel :=
      Nat.pow_le_pow_right (by decide) (hle.trans h.level)
    have height : 8 ^ tnodesMaxLevel * 16 = maxChunkId + 1 := by decide
    omega
  exact ⟨j, hmax, hjk, h.entry j hmax ▸ hne⟩

theorem prune_run_small : ∃ s s',
    (new 7 scarce).step pairs (.put serials 300 80 (-1)) = some s ∧ s.step pairs .prune = some s' ∧
      (∀ j map, s'.obj.fileVariant.findTnode0 j = some map → j / 16 = 0 ∨
      ∃ pos < 16, pairs.getGroupBase map pos ≠ 0) ∧
        ∀ k < s'.obj.fileVariant.topLevel, ∃ j ≤ maxChunkId, 8 ^ k ≤ j / 16 ∧ s.groups j ≠ 0 := by
  obtain ⟨s, hs, hcorrect, -⟩ := (correct_new pairs 7 scarce).step (.put serials 300 80 (-1))
  obtain ⟨s', hs', -⟩ := hcorrect.step .prune
  exact ⟨s, s', hs, hs', prune_run (Run.refl.tail trivial hs) hs'⟩

/-- A file whose tnodes have been written to a checkpoint, in either byte order, and read back when
    the device is mounted finds the chunks that it found. -/
theorem checkpt_run {p q : TnodePool} (hrun : Run (step dev) (fun _ _ => True) (new objId p) s)
    (hgranted : ∀ k, q.granted k = true) (swapEndian : Bool) (rest : List (BitVec 32)) :
    ∃ f q', rdCheckptTnodes dev swapEndian (wrCheckptTnodes dev swapEndian s.obj.fileVariant ++
      rest) fresh q =
      (true, f, q', rest) ∧
      ∀ view i, FileObj.findChunkInFile dev view { s.obj with fileVariant := f } i =
        s.obj.findChunkInFile dev view i := by
  obtain ⟨h, -⟩ := correct_of_run hrun
  obtain ⟨f, q', hread, hlevel, hentry⟩ :=
    rdCheckptTnodes_wrCheckptTnodes dev swapEndian h.level hgranted rest
  refine ⟨f, q', hread, fun view i => ?_⟩
  have hobj : ({ s.obj with fileVariant := f } : FileObj).fileVariant.topLevel ≤ tnodesMaxLevel :=
    hlevel
  rw [findChunkInFile_eq hobj, findChunkInFile_eq h.level]
  refine if_ctx_congr .rfl (fun hi => ?_) fun _ => rfl
  have hsame := hentry i.toNat hi
  rw [getD_findTnode0 hlevel hi, getD_findTnode0 h.level hi] at hsame
  dsimp only
  rw [hsame]

theorem checkpt_run_small : ∃ s f q, (new 7 scarce).step pairs (.put serials 300 80 (-1)) = some s ∧
    rdCheckptTnodes pairs true (wrCheckptTnodes pairs true s.obj.fileVariant ++ [5]) fresh ⟨9,
      fun _ => true⟩ =
      (true, f, q, [5]) ∧
      ∀ view i, FileObj.findChunkInFile pairs view { s.obj with fileVariant := f } i =
        s.obj.findChunkInFile pairs view i := by
  obtain ⟨s, hs, -⟩ := (correct_new pairs 7 scarce).step (.put serials 300 80 (-1))
  obtain ⟨f, q, hread, hsame⟩ :=
    checkpt_run (Run.refl.tail trivial hs) (q := ⟨9, fun _ => true⟩) (fun _ => rfl) true [5]
  exact ⟨s, f, q, hs, hread, hsame⟩

/-- When a file is deleted, each group that has been put and not taken out is given to
    `yaffs_soft_del_chunk` once, from the last chunk of the file to the first; all tnodes go back
    but the one there has been at first, and no chunk is found any more. -/
theorem softDel_run {p : TnodePool} (hrun : Run (step dev) (fun _ _ => True) (new objId p) s) :
    let r := softDelWorker dev s.obj.fileVariant.topLevel s.obj.fileVariant.top
    r.chunks = ((List.range (maxChunkId + 1)).reverse.map s.groups).filter (· ≠ 0) ∧
      s.pool.nTnodes - r.freed = p.nTnodes ∧
      ∀ view i,
        FileObj.findChunkInFile dev view { s.obj with fileVariant := ⟨_, r.tn⟩ } i = none := by
  obtain ⟨h, -⟩ := correct_of_run hrun
  have hdel := softDelWorker_spec dev s.obj.fileVariant.topLevel s.obj.fileVariant.top
  have hpow : 8 ^ s.obj.fileVariant.topLevel ≤ 8 ^ tnodesMaxLevel :=
    Nat.pow_le_pow_right (by decide) h.level
  have height : 8 ^ tnodesMaxLevel * 16 = maxChunkId + 1 := by decide
  refine ⟨?_, ?_, fun view i => ?_⟩
  · obtain ⟨d, hd⟩ :=
      Nat.exists_eq_add_of_le (show 8 ^ s.obj.fileVariant.topLevel * 16 ≤ maxChunkId + 1 by omega)
    have hlow : ∀ j < 8 ^ s.obj.fileVariant.topLevel * 16,
        Tnode.entryIn dev j s.obj.fileVariant.topLevel s.obj.fileVariant.top = s.groups j :=
          fun j hj => by
      rw [← h.entry j (by omega), entry, if_pos (Nat.div_lt_of_lt_mul (by rwa [Nat.mul_comm]))]
    -- A tree of few levels records nothing beyond its reach.
    have hhigh : ∀ k < d, s.groups (8 ^ s.obj.fileVariant.topLevel * 16 + k) = 0 := fun k hk => by
      rw [← h.entry _ (by omega), entry, if_neg (by omega)]
    have hbeyond :
        (((List.range d).map (8 ^ s.obj.fileVariant.topLevel * 16 + ·)).reverse.map s.groups).filter
          (· ≠ 0) = [] := by
      rw [List.filter_eq_nil_iff]
      intro x hx
      obtain ⟨j, hj, rfl⟩ := List.mem_map.1 hx
      obtain ⟨k, hk, rfl⟩ := List.mem_map.1 (List.mem_reverse.1 hj)
      simp [hhigh k (List.mem_range.1 hk)]
    rw [hdel.chunks, entriesDown, hd, List.range_add, List.reverse_append, List.map_append,
      List.filter_append, hbeyond, List.nil_append]
    exact congrArg _ (List.map_congr_left fun j hj =>
      hlow j (List.mem_range.1 (List.mem_reverse.1 hj)))
  · have hnodes := h.nTnodes
    have hfreed := hdel.freed
    rw [nodes] at hnodes
    omega
  · -- The emptied tree has no entry, so that no chunk is found.
    have hlevel :
        ({ s.obj with fileVariant := ⟨s.obj.fileVariant.topLevel,
        (softDelWorker dev s.obj.fileVariant.topLevel
        s.obj.fileVariant.top).tn⟩ } : FileObj).fileVariant.topLevel ≤ tnodesMaxLevel := h.level
    rw [findChunkInFile_eq hlevel, entry]
    dsimp only
    rw [hdel.gone, ite_self]
    split_ifs
    · exact findChunkInGroup_zero
    · rfl

theorem softDel_run_small : ∃ s, (new 7 scarce).step pairs (.put serials 300 80 (-1)) = some s ∧
    let r := softDelWorker pairs s.obj.fileVariant.topLevel s.obj.fileVariant.top
    r.chunks = ((List.range (maxChunkId + 1)).reverse.map s.groups).filter (· ≠ 0) ∧
      s.pool.nTnodes - r.freed = scarce.nTnodes ∧
      ∀ view i,
        FileObj.findChunkInFile pairs view { s.obj with fileVariant := ⟨_, r.tn⟩ } i = none := by
  obtain ⟨s, hs, -⟩ := (correct_new pairs 7 scarce).step (.put serials 300 80 (-1))
  exact ⟨s, hs, softDel_run (Run.refl.tail trivial hs)⟩

/-! ## Scanning

When a device is scanned, its chunks are met from the newest to the oldest. -/

/-- The calls for the chunks of a file, each with its place: the file, and the chunks that are
    deleted. When there are `k` chunks left to come, the flash memory is as `flash k` has it. -/
def scan (dev : TnodeDev) (flash : ℕ → PutView) (obj : FileObj) (p : TnodePool) :
    List (BitVec 32 × BitVec 32) → FileObj × List (BitVec 32)
  | [] => (obj, [])
  | (i, c) :: l =>
    let r := obj.putChunkInFile dev (flash l.length) p i c (-1)
    let rest := scan dev flash r.2.1 r.2.2 l
    (rest.1, r.1.2.toList ++ rest.2)

/-- The chunks that are not the first of their places, where some places have been met. -/
def older (met : List (BitVec 32)) : List (BitVec 32 × BitVec 32) → List (BitVec 32)
  | [] => []
  | (i, c) :: l => if i ∈ met then c :: older met l else older (i :: met) l

/-- The groups of the chunks that are the first of their places. -/
def newest (dev : TnodeDev) (m : GroupMap) : List (BitVec 32 × BitVec 32) → GroupMap
  | [] => m
  | (i, c) :: l => newest dev (if m i.toNat = 0 then Function.update m i.toNat (dev.cut c) else m) l

/-- One chunk of a scan. -/
theorem Correct.putScan (h : Correct dev n s) (view : PutView) (hi : i.toNat ≤ maxChunkId)
    (hc : c ≠ 0)
    (hgroup : s.groups i.toNat = 0 ∨ 0 < (s.groups i.toNat).toInt)
    (hgranted : ∀ k, s.pool.granted k = true) :
    let r := s.obj.putChunkInFile dev view s.pool i c (-1)
    r.1.2 = (if s.groups i.toNat = 0 then none else some c) ∧ (∀ k, r.2.2.granted k = true) ∧
      r.2.1.nDataChunks = s.obj.nDataChunks + (if s.groups i.toNat = 0 then 1 else 0) ∧
      Correct dev n ⟨r.2.1, r.2.2,
        if s.groups i.toNat = 0 then Function.update s.groups i.toNat (dev.cut c)
          else s.groups⟩ := by
  obtain ⟨hkept, hlevel, hroom, hmemory⟩ := addFindTnode0_spec dev h.level i.toNat s.pool
  obtain ⟨hok, hgranted'⟩ := hmemory hi hgranted
  rw [FileObj.putChunkInFile]
  generalize s.obj.fileVariant.addFindTnode0 dev i.toNat none s.pool = r at *
  obtain ⟨ok, f, p⟩ := r
  dsimp only at hkept hlevel hroom hok hgranted' ⊢
  have hnext := h.kept hkept hlevel
  have hsome := (hroom hok).2
  -- The tree has grown by then; the place holds what it held.
  have hexisting :
      ((f.findTnode0 i.toNat).map (dev.getGroupBase · i.toNat)).getD 0 = s.groups i.toNat := by
    rw [getD_findTnode0 hlevel hi, hkept.entry, h.entry _ hi]
  rw [hok, Bool.not_true, if_neg Bool.false_ne_true, if_neg hc, hexisting]
  rcases hgroup with hzero | hpos
  · have hnot : ¬((-1 : ℤ) ≠ 0 ∧ 0 < (s.groups i.toNat).toInt) := by
      rw [hzero]
      decide
    rw [if_neg hnot, if_pos hzero, if_pos hzero, if_pos hzero, if_pos hzero]
    exact ⟨rfl, hgranted', rfl, hnext.load hi hsome _ _⟩
  · have hne : s.groups i.toNat ≠ 0 := fun hzero => by
      rw [hzero] at hpos
      exact absurd hpos (by decide)
    rw [if_pos ⟨by decide, hpos⟩, if_neg fun hscan => absurd hscan.1 (by decide), if_neg hne,
      if_neg hne, if_neg hne]
    exact ⟨rfl, hgranted', (add_zero _).symm, hnext⟩

/-- What a scan leaves, from any state in which the places with chunks are those that have been
    met. -/
theorem Correct.scan (h : Correct dev n s) (met : List (BitVec 32))
    (hmet : ∀ i : BitVec 32, i ∈ met ↔ s.groups i.toNat ≠ 0)
    (hpos : ∀ i : BitVec 32, s.groups i.toNat = 0 ∨ 0 < (s.groups i.toNat).toInt)
    (hgranted : ∀ k, s.pool.granted k = true) (flash : ℕ → PutView)
    (l : List (BitVec 32 × BitVec 32))
    (hl : ∀ x ∈ l, x.1.toNat ≤ maxChunkId ∧ 0 < (dev.cut x.2).toInt) :
    (FileState.scan dev flash s.obj s.pool l).2 = older met l ∧
      (FileState.scan dev flash s.obj s.pool l).1.nDataChunks + (older met l).length =
      s.obj.nDataChunks + l.length ∧
      ∀ view i, (FileState.scan dev flash s.obj s.pool l).1.findChunkInFile dev view i =
        (newest dev s.groups l).answer dev view s.obj.objId i := by
  induction l generalizing s met with
  | nil => exact ⟨rfl, rfl, h.find⟩
  | cons x l ih =>
    obtain ⟨i, c⟩ := x
    obtain ⟨hi, hcut⟩ := hl _ List.mem_cons_self
    dsimp only at hi hcut
    have hcut0 : dev.cut c ≠ 0 := fun hzero => by
      rw [hzero] at hcut
      exact absurd hcut (by decide)
    have hc : c ≠ 0 := by
      rintro rfl
      exact hcut0 TnodeDev.cut_zero
    obtain ⟨hdeleted, hgranted', hn, hcorrect⟩ := h.putScan (flash l.length) hi hc (hpos i) hgranted
    have hid :
        (s.obj.putChunkInFile dev (flash l.length) s.pool i c (-1)).2.1.objId = s.obj.objId :=
      (h.put_spec (flash l.length) i c (-1)).2.2.1
    rw [FileState.scan, older, newest]
    dsimp only
    rw [hdeleted]
    -- The first chunk met of a place is recorded, and any other is given back to be deleted.
    by_cases hzero : s.groups i.toNat = 0
    · rw [if_pos hzero] at hcorrect hn ⊢
      rw [if_pos hzero, if_neg fun hmem => (hmet i).1 hmem hzero]
      -- The place is one of those met from here on.
      have hupdate : ∀ j : BitVec 32, Function.update s.groups i.toNat (dev.cut c) j.toNat =
          if j = i then dev.cut c else s.groups j.toNat := fun j => by
        by_cases hj : j = i
        · rw [if_pos hj, hj, Function.update_self]
        · rw [if_neg hj, Function.update_of_ne fun h => hj (BitVec.eq_of_toNat_eq h)]
      obtain ⟨hout, hcount, hfind⟩ := ih hcorrect (i :: met)
        (fun j => by
          dsimp only
          rw [hupdate, List.mem_cons, hmet j]
          split_ifs with hj
          · exact iff_of_true (.inl hj) hcut0
          · exact or_iff_right hj)
        (fun j => by
          dsimp only
          rw [hupdate]
          split_ifs
          · exact .inr hcut
          · exact hpos j) hgranted' fun x hx => hl x (List.mem_cons_of_mem _ hx)
      dsimp only at hout hcount hfind
      refine ⟨hout, ?_, fun view j => (hfind view j).trans (by rw [hid])⟩
      rw [List.length_cons]
      push_cast at hcount ⊢
      omega
    · rw [if_neg hzero] at hcorrect hn ⊢
      rw [if_neg hzero, if_pos ((hmet i).2 hzero)]
      obtain ⟨hout, hcount, hfind⟩ :=
        ih hcorrect met hmet hpos hgranted' fun x hx => hl x (List.mem_cons_of_mem _ hx)
      dsimp only at hout hcount hfind
      refine ⟨congrArg (c :: ·) hout, ?_, fun view j => (hfind view j).trans (by rw [hid])⟩
      rw [List.length_cons, List.length_cons]
      push_cast at hcount ⊢
      omega

/-- A scan keeps the first chunk of every place and deletes all others, and counts those it
    keeps. -/
theorem scan_new {p : TnodePool} (hgranted : ∀ k, p.granted k = true) (flash : ℕ → PutView)
    {l : List (BitVec 32 × BitVec 32)}
    (hl : ∀ x ∈ l, x.1.toNat ≤ maxChunkId ∧ 0 < (dev.cut x.2).toInt) :
    let r := scan dev flash (new objId p).obj p l
    r.2 = older [] l ∧ r.1.nDataChunks + r.2.length = l.length ∧
      ∀ view i,
        r.1.findChunkInFile dev view i = (newest dev (fun _ => 0) l).answer dev view objId i := by
  obtain ⟨hout, hcount, hfind⟩ :=
    (correct_new dev objId p).scan [] (fun i => by simp [new])
    (fun i => .inl rfl) hgranted flash l hl
  refine ⟨hout, ?_, hfind⟩
  rw [show (scan dev flash (new objId p).obj p l).2 = older [] l from hout]
  exact hcount.trans (zero_add _)

/-- Two chunks of one place, and between them one of another. -/
def scanned : List (BitVec 32 × BitVec 32) := [(5, 70), (300, 80), (5, 90)]

theorem scan_new_small : older [] scanned = [90] ∧
    let r := scan pairs (fun _ => serials) (new 7 ⟨1, fun _ => true⟩).obj ⟨1, fun _ => true⟩ scanned
    r.2 = older [] scanned ∧ r.1.nDataChunks + r.2.length = scanned.length ∧
      ∀ view i, r.1.findChunkInFile pairs view i =
        (newest pairs (fun _ => 0) scanned).answer pairs view 7 i :=
  have hscanned : ∀ x ∈ scanned, x.1.toNat ≤ maxChunkId ∧ 0 < (pairs.cut x.2).toInt := by
    simp only [scanned, List.forall_mem_cons]
    exact ⟨by decide, by decide, by decide, List.forall_mem_nil _⟩
  ⟨by decide, scan_new (fun _ => rfl) (fun _ => serials) hscanned⟩

/-! ## What has been put is found -/

/-- Where memory is given, a chunk is put. -/
theorem Correct.put_granted (h : Correct dev n s) (hi : i.toNat ≤ maxChunkId) (hc : c ≠ 0)
    (hgranted : ∀ k, s.pool.granted k = true) (view : PutView) :
    ∃ r, s.call dev (.put view i c 0) = some (.put true none, r) := by
  have hok := ((addFindTnode0_spec dev h.level i.toNat s.pool).2.2.2 hi hgranted).1
  rw [call, FileObj.putChunkInFile]
  dsimp only
  rw [hok, Bool.not_true, if_neg Bool.false_ne_true, if_neg hc, if_neg fun hboth => hboth.1 rfl]
  exact ⟨_, rfl⟩

/-- A call puts a chunk into the file at this place, or takes it out. -/
def Touches (i : BitVec 32) : ChunkOp → Prop
  | .put _ j _ _ => j = i
  | .del _ j => j = i
  | .prune => False

theorem GroupMap.put_of_ne {m : GroupMap} {view : PutView} {j : BitVec 32} {scan : ℤ} (h : j ≠ i) :
    (m.put dev view objId j c scan).2 i.toNat = m i.toNat := by
  have hne : i.toNat ≠ j.toNat := fun heq => h (BitVec.eq_of_toNat_eq heq.symm)
  rw [GroupMap.put]
  dsimp only
  split_ifs <;> first | rfl | exact Function.update_of_ne hne ..

theorem groups_of_not_touches {op : ChunkOp} (h : ¬Touches i op) (hstep : s.step dev op = some s') :
    s'.groups i.toNat = s.groups i.toNat := by
  obtain ⟨⟨reply, r⟩, -, rfl⟩ := Option.map_eq_some_iff.1 hstep
  dsimp only
  cases op with
  | prune => cases reply <;> rfl
  | put view j d scan =>
    rcases reply with ⟨_ | _, _⟩ | _ | _
    · rfl
    · exact GroupMap.put_of_ne h
    · rfl
    · rfl
  | del view j =>
    rcases reply with _ | ⟨_ | _⟩ | _
    · rfl
    · rfl
    · exact Function.update_of_ne (fun heq => h (BitVec.eq_of_toNat_eq heq.symm)) ..
    · rfl

/-- A put that does not delete the chunk it was given records it. -/
theorem GroupMap.put_of_kept {m : GroupMap} {view : PutView} {scan : ℤ} (hc : c ≠ 0)
    (h : (m.put dev view objId i c scan).1 ≠ some c) :
    (m.put dev view objId i c scan).2 = Function.update m i.toNat (dev.cut c) := by
  rw [GroupMap.put] at h ⊢
  dsimp only at h ⊢
  rw [if_neg hc] at h ⊢
  split_ifs at h ⊢
  · rfl
  · rfl
  · exact absurd rfl h

/-- The search stops at the first chunk that is in use and has the tags. -/
theorem findInGroupLoop_eq {k m start : ℕ} (hstart : start ≠ 0) (hk : k < m)
    (hlive : view.chunkBit (start + k) = true ∧ tagsMatch (view.tags (start + k)) objId i = true)
    (honly : ∀ j < k, view.chunkBit (start + j) = true →
      dev.chunkGrpSize ≠ 1 ∧ tagsMatch (view.tags (start + j)) objId i = false) :
    dev.findInGroupLoop view objId i m start = some (start + k) := by
  induction k generalizing m start with
  | zero =>
    obtain ⟨m, rfl⟩ := Nat.exists_eq_succ_of_ne_zero (Nat.ne_of_gt hk)
    rw [Nat.add_zero] at hlive
    rw [TnodeDev.findInGroupLoop, if_neg hstart, hlive.1, hlive.2, Bool.or_true, Bool.true_and,
      if_pos rfl, Nat.add_zero]
  | succ k ih =>
    obtain ⟨m, rfl⟩ := Nat.exists_eq_succ_of_ne_zero (Nat.ne_of_gt (Nat.zero_lt_of_lt hk))
    have hfirst := honly 0 (Nat.succ_pos k)
    rw [Nat.add_zero] at hfirst
    have hskip :
        ¬(view.chunkBit start &&
        (decide (dev.chunkGrpSize = 1) || tagsMatch (view.tags start) objId i)) = true := by
      rw [Bool.and_eq_true, Bool.or_eq_true]
      rintro ⟨hbit, hsize | htags⟩
      · exact (hfirst hbit).1 (of_decide_eq_true hsize)
      · exact Bool.false_ne_true ((hfirst hbit).2.symm.trans htags)
    have hnext : ∀ j, start + 1 + j = start + (j + 1) := fun j => by omega
    rw [TnodeDev.findInGroupLoop, if_neg hstart, if_neg hskip,
      ih (Nat.succ_ne_zero start) (Nat.lt_of_succ_lt_succ hk) (by rwa [hnext]) fun j hj hbit => by
        rw [hnext] at hbit ⊢
        exact honly (j + 1) (Nat.succ_lt_succ hj) hbit, hnext]

/-- A chunk is the one of its group that is in use for a place of a file. -/
structure OnlyLive (dev : TnodeDev) (view : NandView) (objId i c : BitVec 32) : Prop where
  used : view.chunkBit c.toNat = true
  tags : tagsMatch (view.tags c.toNat) objId i = true
  only : ∀ c', c' / dev.chunkGrpSize = c.toNat / dev.chunkGrpSize → c' ≠ c.toNat →
    view.chunkBit c' = true →
    tagsMatch (view.tags c') objId i = false

theorem OnlyLive.find (h : OnlyLive dev view objId i c) (hge : dev.chunkGrpSize ≤ c.toNat)
    (hlt : c.toNat < 2 ^ (dev.tnodeWidth + dev.chunkGrpBits)) :
    dev.findChunkInGroup view (dev.cut c).toNat objId i = some c.toNat := by
  have hsize : dev.chunkGrpSize = 2 ^ dev.chunkGrpBits := by
    rw [TnodeDev.chunkGrpSize, Nat.shiftLeft_eq, Nat.one_mul]
  have hpos : 0 < dev.chunkGrpSize := hsize ▸ Nat.two_pow_pos _
  have hmod := Nat.mod_lt c.toNat hpos
  have hc : c.toNat / dev.chunkGrpSize * dev.chunkGrpSize + c.toNat % dev.chunkGrpSize = c.toNat :=
    Nat.div_add_mod' ..
  have hstart : c.toNat / dev.chunkGrpSize * dev.chunkGrpSize ≠ 0 :=
    Nat.mul_ne_zero (Nat.ne_of_gt (Nat.div_pos hge hpos)) (Nat.ne_of_gt hpos)
  rw [TnodeDev.findChunkInGroup, TnodeDev.toNat_cut hlt, ← hsize]
  conv_rhs => rw [← hc]
  refine findInGroupLoop_eq hstart hmod (by rw [hc]; exact ⟨h.used, h.tags⟩) fun j hj hbit =>
    ⟨by omega, ?_⟩
  refine h.only _ ?_ (by omega) hbit
  rw [Nat.add_comm, Nat.add_mul_div_right _ _ hpos, Nat.div_eq_of_lt (by omega), Nat.zero_add]

/-- The tags of a chunk in use. -/
def tagsOf (objId chunkId : BitVec 32) : ExtTags :=
  { ExtTags.zero with objId := objId, chunkId := chunkId }

/-- A chunk that has been put is found for as long as nothing is put in its place and it is not
    taken out, whatever else happens to the file, if it is the only one of its group in use that has
    its tags. -/
theorem findChunkInFile_put {p : TnodePool} {s₁ s₂ : FileState} {flash : PutView} {scan : ℤ}
    {deleted : Option (BitVec 32)} {r : FileObj × TnodePool}
    (hrun : Run (step dev) (fun _ _ => True) (new objId p) s)
    (hput : s.call dev (.put flash i c scan) = some (.put true deleted, r))
    (hkept : deleted ≠ some c)
    (hstep : s.step dev (.put flash i c scan) = some s₁)
    (hrest : Run (step dev) (fun _ op => ¬Touches i op) s₁ s₂)
    (hge : dev.chunkGrpSize ≤ c.toNat) (hlt : c.toNat < 2 ^ (dev.tnodeWidth + dev.chunkGrpBits))
    (hlive : OnlyLive dev view objId i c) :
    s₂.obj.findChunkInFile dev view i = some c.toNat := by
  obtain ⟨hcorrect, rfl⟩ := correct_of_run hrun
  obtain ⟨hspec, hdeleted, -⟩ := hcorrect.put_spec flash i c scan
  obtain ⟨hreply, -⟩ := Prod.mk.inj (Option.some.inj hput)
  obtain ⟨hok, rfl⟩ := ChunkReply.put.inj hreply
  rw [hok, if_pos rfl] at hdeleted
  have hi := hspec hok
  have hc : c ≠ 0 := by
    rintro rfl
    have hpos : 0 < dev.chunkGrpSize := by
      rw [TnodeDev.chunkGrpSize, Nat.shiftLeft_eq, Nat.one_mul]; exact Nat.two_pow_pos _
    exact absurd hge (Nat.not_le.2 hpos)
  have hgroup : s₁.groups i.toNat = dev.cut c := by
    rw [step, hput] at hstep
    obtain rfl := Option.some.inj hstep
    dsimp only [GroupMap.record]
    rw [GroupMap.put_of_kept hc (hdeleted ▸ hkept), Function.update_self]
  -- No call of the rest is about this place, so its entry is kept.
  have hsame : s₂.groups i.toNat = dev.cut c :=
    hrest.invariant (I := fun s => s.groups i.toNat = dev.cut c)
      (fun h hop hs => (groups_of_not_touches hop hs).trans h) hgroup
  have hall := (hrun.tail trivial hstep).trans (hrest.mono fun _ _ _ => trivial)
  rw [(chunks_run hall).1, GroupMap.answer, if_pos hi, hsame]
  exact hlive.find hge hlt

/-- The first chunk of a file of object 7 that has been put at place 5, with another put at place
    300 after it. -/
theorem findChunkInFile_put_small : ∃ s₁ s₂,
    (new 7 ⟨1, fun _ => true⟩).step pairs (.put serials 5 70 0) = some s₁ ∧
    s₁.step pairs (.put serials 300 80 (-1)) = some s₂ ∧
      s₂.obj.findChunkInFile pairs ⟨fun c => c = 70 || c = 71, fun c => if c = 70 then tagsOf 7 5
        else tagsOf 7 6⟩ 5 =
        some (70 : BitVec 32).toNat := by
  have hnew := correct_new pairs 7 ⟨1, fun _ => true⟩
  obtain ⟨r, hput⟩ :=
    hnew.put_granted (i := 5) (c := 70) (by decide) (by decide) (fun _ => rfl) serials
  obtain ⟨s₁, hs₁, hcorrect, -⟩ := hnew.step (.put serials 5 70 0)
  obtain ⟨s₂, hs₂, -⟩ := hcorrect.step (.put serials 300 80 (-1))
  have hother : ¬Touches 5 (.put serials 300 80 (-1)) := show ¬(300 : BitVec 32) = 5 by decide
  refine ⟨s₁, s₂, hs₁, hs₂,
    findChunkInFile_put .refl hput nofun hs₁ (Run.refl.tail hother hs₂) (by decide) (by decide)
    ⟨rfl, by decide, fun c _ hne _ => ?_⟩⟩
  have hc : c ≠ 70 := hne
  dsimp only
  rw [if_neg hc]
  decide

end FileState

end DemoOs
