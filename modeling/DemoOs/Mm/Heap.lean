import DemoOs.Mm.DoubleList

/-!
# The kernel heap

The functions of `heap.cpp`. A segment of the heap starts with its descriptor, a `HeapSegmentDesc`
of 24 bytes: the addresses of its neighbours in its physical block (`left`, `right`, null at the
ends of it), the links of the free ring (`doubleList`, null for a segment in use), and the lengths
of its payload (`availableSize`) and of what comes before it (`headerOffset`). The word before a
payload is its `headerOffset` again, which is how `free` finds the segment.

The descriptors are in memory, and so is the header `_freeRingListHeader` of the free ring, at the
address `header`. Sections under `_heapLock` are atomic, and the tracing output is left out.
-/

namespace DemoOs

namespace Mem

/-! ## Segment descriptors -/

/-- `node->left`. -/
def left (m : Mem) (node : ℕ) : ℕ := m node

/-- `node->right`. -/
def right (m : Mem) (node : ℕ) : ℕ := m (word (node + 4))

/-- `node->availableSize`. -/
def availableSize (m : Mem) (node : ℕ) : ℕ := m (word (node + 16))

/-- `node->headerOffset`. -/
def headerOffset (m : Mem) (node : ℕ) : ℕ := m (word (node + 20))

def setLeft (m : Mem) (node v : ℕ) : Mem := m.write node v

def setRight (m : Mem) (node v : ℕ) : Mem := m.write (word (node + 4)) v

def setAvailableSize (m : Mem) (node v : ℕ) : Mem := m.write (word (node + 16)) v

def setHeaderOffset (m : Mem) (node v : ℕ) : Mem := m.write (word (node + 20)) v

/-- `zero_block`: clearing `size` bytes from `dst` on, a whole number of words. -/
def zeroBlock (m : Mem) (dst size : ℕ) : Mem := fun x => if dst ≤ x ∧ x < dst + size then 0 else m x

end Mem

/-- `sizeof(HeapSegmentDesc)`. -/
def sizeofHeapSegmentDesc : ℕ := 24

/-- `MM::PageSize`. -/
def pageSize : ℕ := 4096

/-- `&node->doubleList`. -/
def doubleList (node : ℕ) : ℕ := word (node + 8)

/-- `List_Entry(p, HeapSegmentDesc, doubleList)`. -/
def listEntry (p : ℕ) : ℕ := wordSub p 8

/-- The memory, and the bounds `_start` and `_end` of the heap. -/
structure Heap where
  mem : Mem
  start : ℕ
  stop : ℕ

namespace Heap

/-- A free segment goes to the tail of the free ring when larger than a page, else to its head. -/
def link (header : ℕ) (m : Mem) (node : ℕ) : Mem :=
  if m.availableSize node > pageSize then m.addNodeToRingDoubleListTail header (doubleList node)
  else m.addNodeToRingDoubleListHeader header (doubleList node)

def addHeapBlock (header : ℕ) (h : Heap) (from_ to_ : ℕ) : Heap :=
  let h := if h.mem.next header = 0 then ⟨h.mem.initRingDoubleList header, from_, to_⟩ else h
  let start := if h.start > from_ then from_ else h.start
  let stop := if h.stop < to_ then to_ else h.stop
  let m := h.mem.setRight from_ 0
  let m := m.setLeft from_ 0
  let m := m.setHeaderOffset from_ sizeofHeapSegmentDesc
  let m := m.setAvailableSize from_ (wordSub (wordSub to_ from_) sizeofHeapSegmentDesc)
  ⟨m.addNodeToRingDoubleListTail header (doubleList from_), start, stop⟩

/-- The walk of `separateFreeBlock` along the free ring from `p` on, up to the first segment with
    more than `size` bytes, its descriptor included: its list node, or none when the walk is back at
    the header. The outer option is none when the walk takes more than `fuel` steps. -/
def findBlock (header : ℕ) (m : Mem) (size : ℕ) : ℕ → ℕ → Option (Option ℕ)
  | 0, _ => none
  | fuel + 1, p =>
    if p = header then some none
    else if word (m.availableSize (listEntry p) + sizeofHeapSegmentDesc) > size then some (some p)
    else findBlock header m size fuel (m.next p)

/-- The end of the segment `ret`, from `node` on, becomes the first segment of the block on its
    right. -/
def keepRest (header : ℕ) (m : Mem) (ret node leftSize : ℕ) : Mem :=
  let m := m.setAvailableSize node (wordSub leftSize sizeofHeapSegmentDesc)
  let m := m.setHeaderOffset node sizeofHeapSegmentDesc
  let m := m.setRight node (m.right ret)
  let m := if m.right node ≠ 0 then m.setLeft (m.right node) node else m
  let m := m.setLeft node 0
  let m := if m.left ret ≠ 0 then m.setRight (m.left ret) 0 else m
  link header m node

/-- The neighbours of the segment `node` lose it. -/
def dropBlock (m : Mem) (node : ℕ) : Mem :=
  let m := if m.right node ≠ 0 then m.setLeft (m.right node) 0 else m
  if m.left node ≠ 0 then m.setRight (m.left node) 0 else m

/-- `separateFreeBlock`: the address of the range which leaves the heap, null when no free segment
    is large enough, and the heap afterwards. The result is none when the walk along the free ring
    does not end. -/
def separateFreeBlock (header : ℕ) (h : Heap) (size : ℕ) : Option (ℕ × Heap) :=
  let size := alignUp size 4
  (findBlock header h.mem size (2 ^ 32) (h.mem.next header)).map fun
  | none => (0, h)
  | some p =>
    let ret := listEntry p
    let leftSize := wordSub (word (h.mem.availableSize ret + sizeofHeapSegmentDesc)) size
    let m := if leftSize > sizeofHeapSegmentDesc
      then keepRest header h.mem ret (word (ret + size)) leftSize
      else dropBlock h.mem ret
    (ret, { h with mem := m.delNodeFromRingDoubleList p })

/-- The walk of `allocate` along the free ring from `p` on, up to the first segment with
    `neededSize` bytes: its list node, or none when the walk is back at the header. The outer option
    is none when the walk takes more than `fuel` steps. -/
def findFree (header : ℕ) (m : Mem) (neededSize : ℕ) : ℕ → ℕ → Option (Option ℕ)
  | 0, _ => none
  | fuel + 1, p =>
    if p = header then some none
    else if m.availableSize (listEntry p) ≥ neededSize then some (some p)
    else findFree header m neededSize fuel (m.next p)

/-- Cutting `node` after `neededSize` bytes of its payload, the rest becoming a segment of its own
    (`newNode` in the source). -/
def cut (m : Mem) (node neededSize : ℕ) : Mem :=
  let leftSize := wordSub (m.availableSize node) neededSize
  let newNode := word (word (node + m.headerOffset node) + neededSize)
  let m := m.setRight newNode (m.right node)
  let m := m.setLeft newNode node
  let m := m.setRight node newNode
  let m := if m.right newNode ≠ 0 then m.setLeft (m.right newNode) newNode else m
  let m := m.setAvailableSize newNode (wordSub leftSize sizeofHeapSegmentDesc)
  let m := m.setHeaderOffset newNode sizeofHeapSegmentDesc
  m.setAvailableSize node neededSize

/-- `allocate(word_t)`: the address of the payload, null when no free segment is large enough, and
    the heap afterwards. The result is none when the walk along the free ring does not end. -/
def allocate (header : ℕ) (h : Heap) (neededSize : ℕ) : Option (ℕ × Heap) :=
  let neededSize := alignUp neededSize 4
  (findFree header h.mem neededSize (2 ^ 32) (h.mem.next header)).map fun
  | none => (0, h)
  | some p =>
    let node := listEntry p
    let leftSize := wordSub (h.mem.availableSize node) neededSize
    let retAddr := word (node + h.mem.headerOffset node)
    let m := if leftSize > sizeofHeapSegmentDesc then
        link header (cut h.mem node neededSize) (word (retAddr + neededSize))
      else h.mem
    (retAddr, { h with mem := m.delNodeFromRingDoubleList p })

/-! ### Aligned allocation -/

/-- The address of the payload of `node` (`leftSize` in the source). -/
def payloadAddr (m : Mem) (node : ℕ) : ℕ := word (node + m.headerOffset node)

/-- The first aligned address in the payload of `node` (`retAddr`). -/
def alignedAddr (m : Mem) (node neededAlignment : ℕ) : ℕ :=
  alignUp (payloadAddr m node) neededAlignment

/-- What is left of the payload of `node` from that address on (`availableSize`). -/
def alignedSize (m : Mem) (node neededAlignment : ℕ) : ℕ :=
  wordSub (word (payloadAddr m node + m.availableSize node)) (alignedAddr m node neededAlignment)

/-- The walk of `allocate(word_t, word_t)` along the free ring from `p` on, up to the first segment
    with `neededSize` bytes from an aligned address on: its list node, or none when the walk is back
    at the header, and the value of `retAddr`, which every turn of the loop assigns. The outer
    option is none when the walk takes more than `fuel` steps. -/
def findAligned (header : ℕ) (m : Mem) (neededSize neededAlignment : ℕ) :
    ℕ → ℕ → ℕ → Option (Option ℕ × ℕ)
  | 0, _, _ => none
  | fuel + 1, p, retAddr =>
    if p = header then some (none, retAddr)
    else
      let node := listEntry p
      let retAddr := alignedAddr m node neededAlignment
      if alignedSize m node neededAlignment ≥ neededSize then some (some p, retAddr)
      else findAligned header m neededSize neededAlignment fuel (m.next p) retAddr

/-- Cutting `node` before `newNode`, which is a segment of its own then, not linked in the free
    ring. The length of `newNode` is not set yet. -/
def cutFront (m : Mem) (node newNode leftSize : ℕ) : Mem :=
  let m := m.setLeft newNode node
  let m := m.setRight newNode (m.right node)
  let m := m.setRight node newNode
  let m := if m.right newNode ≠ 0 then m.setLeft (m.right newNode) newNode else m
  let m := m.setAvailableSize node (wordSub newNode leftSize)
  (m.setPrev (doubleList newNode) 0).setNext (doubleList newNode) 0

/-- The payload of `node` is set to begin at `retAddr`. -/
def setPayload (m : Mem) (node retAddr availableSize : ℕ) : Mem :=
  let m := m.setAvailableSize node availableSize
  let m := m.setHeaderOffset node (wordSub retAddr node)
  m.write (wordSub retAddr 4) (m.headerOffset node)

/-- What comes before the descriptor of the block at `retAddr`, which is right before it, becomes a
    segment of its own, if it is large enough; else the segment of the list node `p` leaves the free
    ring. The second component is the segment the block will have (`node` afterwards). -/
def takeFront (m : Mem) (p retAddr : ℕ) : Mem × ℕ :=
  let node := listEntry p
  let leftSize := payloadAddr m node
  let newNode := alignDown (wordSub retAddr sizeofHeapSegmentDesc) 4
  if newNode > leftSize then (cutFront m node newNode leftSize, newNode)
  else (m.delNodeFromRingDoubleList p, node)

/-- The segment of the list node `p` is taken for a block at `retAddr`, and what comes after the
    block becomes a segment of its own, if it is large enough. -/
def takeAligned (header : ℕ) (m : Mem) (p retAddr availableSize neededSize : ℕ) : Mem :=
  let front := takeFront m p retAddr
  let m := setPayload front.1 front.2 retAddr availableSize
  if wordSub availableSize neededSize > sizeofHeapSegmentDesc then
    link header (cut m front.2 neededSize) (word (retAddr + neededSize))
  else m

/-- `allocate(word_t, word_t)`: the value of `retAddr` at the end, and the heap afterwards. The
    result is none when the walk along the free ring does not end. -/
def allocateAligned (header : ℕ) (h : Heap) (neededSize neededAlignment : ℕ) : Option (ℕ × Heap) :=
  let neededSize := alignUp neededSize 4
  (findAligned header h.mem neededSize neededAlignment (2 ^ 32) (h.mem.next header) 0).map fun
  | (none, retAddr) => (retAddr, h)
  | (some p, retAddr) =>
    let availableSize := alignedSize h.mem (listEntry p) neededAlignment
    (retAddr, { h with mem := takeAligned header h.mem p retAddr availableSize neededSize })

/-! ### Deallocation -/

/-- The segment `node` takes over `theNode`, its right neighbour, whose descriptor is cleared. -/
def merge (m : Mem) (node theNode : ℕ) : Mem :=
  let m := m.setRight node (m.right theNode)
  let m := if m.right theNode ≠ 0 then m.setLeft (m.right theNode) node else m
  let m := m.setAvailableSize node
    (word (m.availableSize node + (m.availableSize theNode + m.headerOffset theNode)))
  m.zeroBlock theNode (m.headerOffset theNode)

/-- The first half of `free`: a free right neighbour leaves the free ring and is merged. -/
def mergeRight (m : Mem) (node : ℕ) : Mem :=
  let theNode := m.right node
  if theNode ≠ 0 ∧ m.prev (doubleList theNode) ≠ 0 then
    merge (m.delNodeFromRingDoubleList (doubleList theNode)) node theNode
  else m

/-- A segment in use becoming free: its payload starts right after its descriptor. -/
def release (header : ℕ) (m : Mem) (node : ℕ) : Mem :=
  let m := if m.headerOffset node > sizeofHeapSegmentDesc then
      (m.setAvailableSize node (word (m.availableSize node +
        wordSub (m.headerOffset node) sizeofHeapSegmentDesc))).setHeaderOffset node
        sizeofHeapSegmentDesc
    else m
  link header m node

/-- The second half of `free`: the segment is merged with a free left neighbour, or released. -/
def mergeLeft (header : ℕ) (m : Mem) (node : ℕ) : Mem :=
  let theNode := m.left node
  if theNode ≠ 0 ∧ m.prev (doubleList theNode) ≠ 0 then merge m theNode node
  else release header m node

def free (header : ℕ) (h : Heap) (baseAddr : ℕ) : Heap :=
  if baseAddr = 0 then h
  else if baseAddr < h.start ∨ baseAddr > h.stop then h
  else
    let offset := h.mem (wordSub baseAddr 4)
    -- The word before a payload is the header offset of its segment.
    if offset < sizeofHeapSegmentDesc then h
    else
      let node := wordSub baseAddr offset
      -- A segment in the free ring is free already.
      if h.mem.next (doubleList node) ≠ 0 then h
      else { h with mem := mergeLeft header (mergeRight h.mem node) node }

end Heap

end DemoOs
