import DemoOs.Fs.Endian
import DemoOs.Lib.Run
import DemoOs.Vfs.Strings
import Mathlib.Data.List.Sigma

/-!
# Extended attributes

The attributes of a file, in the part of its header that the header proper leaves
(`yaffs_nameval.c`). They are records, one behind the other: the length of the record, the name with
the zero that ends it, and the value. The records end where a length is not positive, or not one
that fits.

An area that holds a list of attributes (`Holds`) is read by walking it, and written by moving what
is behind a record to its place, and by adding a record at the end. So it stays one that holds such
a list, and is the list it should be, as long as no record ends with the last byte of the area
(`nval_run`). One that does is not found any more (`nvalSet_full`).
-/

namespace DemoOs

namespace Bytes

/-- `memset(a, 0, n)`. -/
def clear (m : Bytes) (a n : ℕ) : Bytes := m.store a (List.replicate n 0)

/-- `strncpy`: behind the string, there are zeros. -/
def strncpy (m : Bytes) (a : ℕ) : List UInt8 → ℕ → Bytes
  | _, 0 => m
  | [], n + 1 => m.clear a (n + 1)
  | c :: s, n + 1 => strncpy (Function.update m a c) (a + 1) s n

def strnlen (m : Bytes) (a : ℕ) : ℕ → ℕ
  | 0 => 0
  | n + 1 => if m a = 0 then 0 else strnlen m (a + 1) n + 1

end Bytes

/-- The errors of the functions below. -/
inductive XattrError
  | ENODATA
  | EEXIST
  | ENOSPC
  | ERANGE
  deriving DecidableEq

/-- `XATTR_CREATE`. -/
def xattrCreate : BitVec 32 := 1

/-- `XATTR_REPLACE`. -/
def xattrReplace : BitVec 32 := 2

/-- Of the area: `dev->swap_endian`, and `xb_size`, an `int`. -/
structure Nval where
  swapEndian : Bool
  xbSize : ℕ
  xbSize_pos : 0 < xbSize
  xbSize_lt : xbSize < 2 ^ 31

namespace Nval

variable (d : Nval)

/-- The length at `pos`: `memcpy(&size, xb + pos, sizeof(size))` and `yaffs_do_endian_s32`. -/
def size (xb : Bytes) (pos : ℕ) : ℤ :=
  (doEndianU32 d.swapEndian (BitVec.ofNat 32 (xb.word pos))).toInt

/-- The length of the next record, if there is room for one. -/
def next (xb : Bytes) (pos : ℕ) : ℤ := if (pos : ℤ) < d.xbSize - 4 then d.size xb pos else 0

/-- The loop of `nval_find`: the place of the record, and its length. -/
def findLoop (xb : Bytes) (name : List UInt8) (pos : ℕ) (size : ℤ) : Option (ℕ × ℤ) :=
  if _h : 0 < size ∧ size < d.xbSize ∧ pos + size < d.xbSize then
    if CStr.strncmp (xb.bytes (pos + 4) size.toNat) name size.toNat = 0 then some (pos, size)
    else findLoop xb name (pos + size.toNat) (d.next xb (pos + size.toNat))
  else none
termination_by d.xbSize - pos
decreasing_by omega

/-- `nval_find`. -/
def nvalFind (xb : Bytes) (name : List UInt8) : Option (ℕ × ℤ) := d.findLoop xb name 0 (d.size xb 0)

/-- The loop of `nval_used`. -/
def usedLoop (xb : Bytes) (pos : ℕ) (size : ℤ) : ℕ :=
  if _h : 0 < size ∧ size < d.xbSize ∧ pos + size < d.xbSize then
    usedLoop xb (pos + size.toNat) (d.next xb (pos + size.toNat))
  else pos
termination_by d.xbSize - pos
decreasing_by omega

/-- `nval_used`. -/
def nvalUsed (xb : Bytes) : ℕ := d.usedLoop xb 0 (d.size xb 0)

/-- `nval_del`: what is behind the record is moved to its place. -/
def nvalDel (xb : Bytes) (name : List UInt8) : Except XattrError Unit × Bytes :=
  match d.nvalFind xb name with
  | none => (.error .ENODATA, xb)
  | some (pos, _) =>
    if d.xbSize ≤ pos then (.error .ENODATA, xb)
    else
      let size := (d.size xb pos).toNat
      (.ok (), (xb.memcpy pos (pos + size) (d.xbSize - (pos + size))).clear (d.xbSize - size) size)

/-- `nval_set`. -/
def nvalSet (xb : Bytes) (name buf : List UInt8) (flags : BitVec 32) :
    Except XattrError Unit × Bytes :=
  let namelen := min name.length d.xbSize
  let found := d.nvalFind xb name
  if flags &&& xattrCreate ≠ 0 ∧ found.isSome then (.error .EEXIST, xb)
  else if flags &&& xattrReplace ≠ 0 ∧ found.isNone then (.error .ENODATA, xb)
  else
    let space : ℤ := d.xbSize - d.nvalUsed xb + found.elim 0 Prod.snd
    let reclen := sint (4 + namelen + 1 + buf.length)
    if space < reclen then (.error .ENOSPC, xb)
    else
      let xb := if found.isSome then (d.nvalDel xb name).2 else xb
      let pos := d.nvalUsed xb
      let xb := xb.setWord pos (doEndianU32 d.swapEndian (BitVec.ofInt 32 reclen)).toNat
      let xb := xb.strncpy (pos + 4) name reclen.toNat
      (.ok (), xb.store (pos + 4 + (namelen + 1)) buf)

/-- How many turns the loop of `nval_get` takes that skips the name. -/
def skipName (xb : Bytes) : ℕ → ℕ → ℕ
  | 0, _ => 0
  | size + 1, pos => if xb pos ≠ 0 ∧ pos < d.xbSize then skipName xb size (pos + 1) + 1 else 0

/-- `nval_get`: what is returned, and what is copied to `buf`. -/
def nvalGet (xb : Bytes) (name : List UInt8) (bsize : ℕ) : Except XattrError (ℤ × List UInt8) :=
  match d.nvalFind xb name with
  | none => .error .ENODATA
  | some (pos, _) =>
    if d.xbSize ≤ pos then .error .ERANGE
    else
      let size := d.size xb pos - 4
      let turns := d.skipName xb size.toNat (pos + 4)
      let pos := pos + 4 + turns + 1
      let size := size - turns - 1
      if bsize = 0 then .ok (size, [])
      else if size ≤ bsize then .ok (size, xb.bytes pos (size % 2 ^ 32).toNat)
      else .error .ERANGE

/-- The loop of `nval_list`: `ncopied`, and what is copied to `buf`. -/
def listLoop (xb : Bytes) (bsize : ℤ) (pos : ℕ) (size : ℤ) (ncopied : ℕ) : ℕ × List UInt8 :=
  if _h : 4 < size ∧ size ≤ d.xbSize ∧ pos + size < d.xbSize then
    let nameLen := xb.strnlen (pos + 4) (size - 4).toNat
    if (ncopied + nameLen + 1 : ℕ) < bsize then
      let r := listLoop xb bsize (pos + size.toNat) (d.next xb (pos + size.toNat))
        (ncopied + (nameLen + 1))
      (r.1, xb.bytes (pos + 4) nameLen ++ 0 :: r.2)
    else (ncopied, [])
  else (ncopied, [])
termination_by d.xbSize - pos
decreasing_by omega

/-- `nval_list`. -/
def nvalList (xb : Bytes) (bsize : ℤ) : ℕ × List UInt8 := d.listLoop xb bsize 0 (d.size xb 0) 0

/-- `nval_hasvalues`. -/
def nvalHasvalues (xb : Bytes) : Bool := 0 < d.nvalUsed xb

/-! ## Attributes -/

/-- Attributes: a value for each of some names. -/
abbrev Attrs := List (Σ _ : CStr, List UInt8)

/-- The length of a record. -/
def recordLength (a : Σ _ : CStr, List UInt8) : ℕ := 4 + (a.1.1.length + 1) + a.2.length

def total (l : Attrs) : ℕ := (l.map recordLength).sum

/-- Where the record of `name` is. -/
def place (name : CStr) : Attrs → ℕ
  | [] => 0
  | a :: l => if name = a.1 then 0 else recordLength a + place name l

/-- The names that are listed into `bsize` bytes, of which `ncopied` are there: up to the first one
    that does not fit. -/
def names (bsize : ℤ) : ℕ → Attrs → ℕ × List UInt8
  | ncopied, [] => (ncopied, [])
  | ncopied, a :: l =>
    if (ncopied + a.1.1.length + 1 : ℕ) < bsize then
      let r := names bsize (ncopied + (a.1.1.length + 1)) l
      (r.1, a.1.1 ++ 0 :: r.2)
    else (ncopied, [])

/-- The record of `a` is at `pos`. -/
def RecordAt (xb : Bytes) (pos : ℕ) (a : Σ _ : CStr, List UInt8) : Prop :=
  d.size xb pos = recordLength a ∧
    xb.bytes (pos + 4) (a.1.1.length + 1 + a.2.length) = a.1.1 ++ 0 :: a.2

/-- The records of `l` are at `pos`, one behind the other. -/
def Laid (xb : Bytes) : ℕ → Attrs → Prop
  | _, [] => True
  | pos, a :: l => d.RecordAt xb pos a ∧ Laid xb (pos + recordLength a) l

/-- The area holds the attributes of `l`. Behind the records there are zeros, as far as the area
    goes; an area without records may have anything there that is not a length. -/
structure Holds (xb : Bytes) (l : Attrs) : Prop where
  nodup : l.NodupKeys
  laid : d.Laid xb 0 l
  fits : total l < d.xbSize
  ended : l ≠ [] → ∀ i < 4, total l + i < d.xbSize → xb (total l + i) = 0
  empty : l = [] → d.size xb 0 ≤ 0

/-- There is no record of this length at `pos`. -/
def Stops (pos : ℕ) (size : ℤ) : Prop := ¬(0 < size ∧ size < d.xbSize ∧ pos + size < d.xbSize)

/-- What a loop meets that is at `pos` and has read `size` there. -/
inductive Walk (xb : Bytes) : ℕ → ℤ → Attrs → Prop
  | nil {pos : ℕ} {size : ℤ} : d.Stops pos size → Walk xb pos size []
  | cons {pos : ℕ} {a : Σ _ : CStr, List UInt8} {l : Attrs} : d.RecordAt xb pos a →
      pos + recordLength a < d.xbSize →
      Walk xb (pos + recordLength a) (d.next xb (pos + recordLength a)) l →
        Walk xb pos (recordLength a) (a :: l)

/-- A walk through the area meets the attributes of `l`. -/
def Shows (xb : Bytes) (l : Attrs) : Prop := d.Walk xb 0 (d.size xb 0) l

variable {d} {xb xb' : Bytes} {a : Σ _ : CStr, List UInt8} {l l' : Attrs} {name : CStr}
    {pos pos' : ℕ} {s : ℤ}

@[simp] theorem total_nil : total [] = 0 := rfl

@[simp] theorem total_cons : total (a :: l) = recordLength a + total l := rfl

@[simp] theorem total_append : total (l ++ l') = total l + total l' := by
  simp [total]

/-- A record has a length, and a name with its zero. -/
theorem recordLength_pos : 5 ≤ recordLength a := by
  unfold recordLength
  omega

/-- A record is where its bytes are. -/
theorem RecordAt.congr (h : d.RecordAt xb pos a)
    (heq : ∀ i < recordLength a, xb' (pos' + i) = xb (pos + i)) :
    d.RecordAt xb' pos' a := by
  have hword : xb'.word pos' = xb.word pos := by
    have hb : ∀ i < 4, xb' (pos' + i) = xb (pos + i) := fun i hi =>
      heq i (Nat.lt_of_lt_of_le hi (Nat.le_trans (by decide) recordLength_pos))
    rw [Bytes.word, Bytes.word, hb 1 (by decide), hb 2 (by decide), hb 3 (by decide),
      ← Nat.add_zero pos', hb 0 (by decide)]
    rfl
  refine ⟨by rw [size, hword]; exact h.1, (Bytes.bytes_eq_iff.2 fun i hi => ?_).trans h.2⟩
  rw [Nat.add_assoc, Nat.add_assoc]
  exact heq _ (by unfold recordLength; omega)

/-- Records are where their bytes are. -/
theorem Laid.congr (h : d.Laid xb pos l) (heq : ∀ i < total l, xb' (pos' + i) = xb (pos + i)) :
    d.Laid xb' pos' l := by
  induction l generalizing pos pos' with
  | nil => trivial
  | cons a l ih =>
    rw [total_cons] at heq
    refine ⟨h.1.congr fun i hi => heq i (by omega), ih h.2 fun i hi => ?_⟩
    rw [Nat.add_assoc, Nat.add_assoc]
    exact heq _ (by omega)

/-- Records behind records. -/
theorem laid_append : d.Laid xb pos (l ++ l') ↔ d.Laid xb pos l ∧ d.Laid xb (pos + total l) l' := by
  induction l generalizing pos with
  | nil => simp [Laid]
  | cons a l ih => rw [List.cons_append, Laid, Laid, ih, total_cons, Nat.add_assoc, and_assoc]

/-- Zeros are not a length. -/
theorem size_of_zeros (h : ∀ i < 4, xb (pos + i) = 0) : d.size xb pos = 0 := by
  have hword : xb.word pos = 0 := by
    rw [Bytes.word, h 1 (by decide), h 2 (by decide), h 3 (by decide), ← Nat.add_zero pos,
      h 0 (by decide)]
    rfl
  rw [size, hword]
  cases d.swapEndian <;> decide

/-- A record without a length is the last. -/
theorem stops_of_nonpos (h : s ≤ 0) : d.Stops pos s := fun h' => absurd h'.1 (Int.not_lt.2 h)

/-- Zeros end the records, and so does the end of the area. -/
theorem stops_of_zeros (h : ∀ i < 4, pos + i < d.xbSize → xb (pos + i) = 0) :
    d.Stops pos (d.next xb pos) := by
  refine stops_of_nonpos ?_
  rw [next]
  split_ifs with hlt
  · exact (size_of_zeros fun i hi => h i hi (by omega)).le
  · exact le_rfl

/-- Records that are laid out are walked through. -/
theorem walk_of_laid (h : d.Laid xb pos l) (hfits : pos + total l < d.xbSize)
    (hend : d.Stops (pos + total l) (d.next xb (pos + total l))) :
    d.Walk xb pos (d.next xb pos) l := by
  induction l generalizing pos with
  | nil => exact .nil hend
  | cons a l ih =>
    rw [total_cons] at hfits hend
    have hnext : d.next xb pos = recordLength a := by
      have := recordLength_pos (a := a)
      rw [next, if_pos (by omega), h.1.1]
    rw [hnext]
    exact .cons h.1 (by omega) (ih h.2 (by omega) (by rwa [Nat.add_assoc]))

/-- An area with records in it shows them. -/
theorem shows_of_laid (h : d.Laid xb 0 l) (hfits : total l < d.xbSize)
    (hempty : l = [] → d.Stops 0 (d.size xb 0))
    (hend : l ≠ [] → d.Stops (total l) (d.next xb (total l))) : d.Shows xb l := by
  cases l with
  | nil => exact .nil (hempty rfl)
  | cons a l =>
    have hend := hend (List.cons_ne_nil a l)
    rw [total_cons] at hfits hend
    rw [Shows, h.1.1]
    exact .cons h.1 (by omega) (walk_of_laid h.2 (by omega) (by rwa [Nat.zero_add]))

/-- An area that holds attributes shows them. -/
theorem Holds.shows (h : d.Holds xb l) : d.Shows xb l :=
  shows_of_laid h.laid h.fits (fun hnil => stops_of_nonpos (h.empty hnil)) fun hne =>
    stops_of_zeros (h.ended hne)

/-- What is walked through is laid out, and begins in the area. -/
theorem Walk.laid (h : d.Walk xb pos s l) : d.Laid xb pos l ∧
    (l ≠ [] → pos + total l < d.xbSize) := by
  induction h with
  | nil => exact ⟨trivial, fun hne => absurd rfl hne⟩
  | @cons pos a l hrecord hlt _ ih =>
    refine ⟨⟨hrecord, ih.1⟩, fun _ => ?_⟩
    rw [total_cons]
    cases l with
    | nil => rwa [total_nil, Nat.add_zero]
    | cons b l =>
      have := ih.2 (List.cons_ne_nil b l)
      omega

/-! ## Reading -/

/-- A string that ends before the bytes compared do is compared whole. -/
theorem strncmp_append_zero {s t r : List UInt8} {n : ℕ} (hs : 0 ∉ s) (ht : 0 ∉ t)
    (hlt : s.length < n) :
    CStr.strncmp (s ++ 0 :: r) t n = 0 ↔ s = t := by
  induction s generalizing t n with
  | nil =>
    obtain ⟨n, rfl⟩ := Nat.exists_eq_succ_of_ne_zero (Nat.ne_of_gt hlt)
    rw [List.nil_append, CStr.strncmp_succ_eq_zero_iff, CStr.deref_cons]
    constructor
    · rintro (⟨-, hzero⟩ | ⟨hzero, -⟩)
      · exact ((CStr.deref_eq_zero_iff ht).1 hzero).symm
      · exact ((CStr.deref_eq_zero_iff ht).1 hzero.symm).symm
    · rintro rfl
      exact .inl ⟨rfl, rfl⟩
  | cons c s ih =>
    obtain ⟨n, rfl⟩ := Nat.exists_eq_succ_of_ne_zero (Nat.ne_of_gt (Nat.zero_lt_of_lt hlt))
    obtain ⟨hc, hs⟩ := List.ne_and_not_mem_of_not_mem_cons hs
    rw [List.cons_append, CStr.strncmp_succ_eq_zero_iff, CStr.deref_cons,
      or_iff_right fun h => hc h.1.symm]
    cases t with
    | nil => exact iff_of_false (fun h => hc h.1.symm) nofun
    | cons b t =>
      rw [CStr.deref_cons, List.cons.injEq, List.tail_cons, List.tail_cons,
        ih hs (fun h => ht (List.mem_cons_of_mem b h)) (Nat.lt_of_succ_lt_succ hlt)]

/-- A record is recognised by its name, whatever is behind it. -/
theorem RecordAt.strncmp_iff (h : d.RecordAt xb pos a) :
    CStr.strncmp (xb.bytes (pos + 4) (recordLength a)) name.1 (recordLength a) = 0 ↔
      name = a.1 := by
  have hlength : recordLength a = a.1.1.length + 1 + a.2.length + 4 := by
    unfold recordLength
    omega
  rw [hlength, Bytes.bytes_add, h.2, List.append_assoc, List.cons_append,
    strncmp_append_zero a.1.2 name.2 (by omega), Subtype.ext_iff]
  exact eq_comm

/-- The walk ends behind the last record. -/
theorem Walk.used (h : d.Walk xb pos s l) : d.usedLoop xb pos s = pos + total l := by
  induction h with
  | nil hstops =>
    rw [usedLoop, dif_neg hstops]
    rfl
  | cons hrecord hlt _ ih =>
    have := recordLength_pos (a := ‹_›)
    rw [usedLoop, dif_pos ⟨by omega, by omega, by omega⟩, Int.toNat_natCast, ih, total_cons,
      Nat.add_assoc]

/-- The first record of the name is found on the walk. -/
theorem Walk.find (h : d.Walk xb pos s l) : d.findLoop xb name.1 pos s =
    (l.dlookup name).map fun v => (pos + place name l, (recordLength ⟨name, v⟩ : ℤ)) := by
  induction h with
  | nil hstops =>
    rw [findLoop, dif_neg hstops]
    rfl
  | @cons pos a l hrecord hlt _ ih =>
    have := recordLength_pos (a := a)
    rw [findLoop, dif_pos ⟨by omega, by omega, by omega⟩, Int.toNat_natCast]
    by_cases hname : name = a.1
    · rw [if_pos (hrecord.strncmp_iff.2 hname)]
      obtain ⟨n, v⟩ := a
      obtain rfl : name = n := hname
      simp [place]
    · rw [if_neg (mt hrecord.strncmp_iff.1 hname), ih, List.dlookup_cons_ne _ _ hname, place,
        if_neg hname, Nat.add_assoc]

/-- The length of a name. -/
theorem strnlen_of_string {t : List UInt8} {n : ℕ} (h : CStr.StringAt xb pos t) (ht : 0 ∉ t)
    (hlt : t.length < n) :
    xb.strnlen pos n = t.length := by
  induction t generalizing pos n with
  | nil =>
    cases n with
    | zero => rfl
    | succ n => exact if_pos h.2
  | cons c t ih =>
    obtain ⟨n, rfl⟩ := Nat.exists_eq_succ_of_ne_zero (Nat.ne_of_gt (Nat.zero_lt_of_lt hlt))
    obtain ⟨hc, ht⟩ := List.ne_and_not_mem_of_not_mem_cons ht
    rw [Bytes.strnlen, if_neg fun h' => hc (h'.symm.trans h.head),
      ih h.tail ht (Nat.lt_of_succ_lt_succ hlt)]
    rfl

/-- A record has the name and the value. -/
theorem RecordAt.parts (h : d.RecordAt xb pos a) : CStr.StringAt xb (pos + 4) a.1.1 ∧
    xb.bytes (pos + 4 + (a.1.1.length + 1)) a.2.length = a.2 := by
  have hall := h.2
  rw [Bytes.bytes_add, Bytes.bytes_add, List.append_cons] at hall
  obtain ⟨hname, hvalue⟩ := List.append_inj hall (by simp)
  obtain ⟨hstring, hzero⟩ := List.append_inj hname (by simp)
  exact ⟨⟨hstring, List.head_eq_of_cons_eq hzero⟩, hvalue⟩

/-- The names on the walk are listed. -/
theorem Walk.list (h : d.Walk xb pos s l) (bsize : ℤ) (ncopied : ℕ) :
    d.listLoop xb bsize pos s ncopied = names bsize ncopied l := by
  induction h generalizing ncopied with
  | nil hstops =>
    rw [listLoop, dif_neg fun h => hstops ⟨by omega, by omega, h.2.2⟩]
    rfl
  | @cons pos a l hrecord hlt _ ih =>
    have := recordLength_pos (a := a)
    have hname :=
      strnlen_of_string (n := recordLength a - 4) hrecord.parts.1 a.1.2
      (by unfold recordLength; omega)
    have hsize : ((recordLength a : ℤ) - 4).toNat = recordLength a - 4 := by omega
    rw [listLoop, dif_pos ⟨by omega, by omega, by omega⟩, Int.toNat_natCast, hsize, hname, names]
    dsimp only
    rw [hrecord.parts.1.1, ih]

/-- The name is skipped. -/
theorem skipName_eq {t : List UInt8} {n : ℕ} (h : CStr.StringAt xb pos t) (ht : 0 ∉ t)
    (hlt : t.length < n)
    (hfits : pos + t.length < d.xbSize) : d.skipName xb n pos = t.length := by
  induction t generalizing pos n with
  | nil =>
    cases n with
    | zero => rfl
    | succ n => exact if_neg fun h' => h'.1 h.2
  | cons c t ih =>
    obtain ⟨n, rfl⟩ := Nat.exists_eq_succ_of_ne_zero (Nat.ne_of_gt (Nat.zero_lt_of_lt hlt))
    obtain ⟨hc, ht⟩ := List.ne_and_not_mem_of_not_mem_cons ht
    rw [List.length_cons] at hfits
    rw [skipName, if_pos ⟨fun h' => hc (h'.symm.trans h.head), by omega⟩,
      ih h.tail ht (Nat.lt_of_succ_lt_succ hlt) (by omega)]
    rfl

/-- `nval_find` looks up a name. -/
theorem Shows.find (h : d.Shows xb l) : d.nvalFind xb name.1 =
    (l.dlookup name).map fun v => (place name l, (recordLength ⟨name, v⟩ : ℤ)) := by
  rw [nvalFind, Walk.find h]
  simp only [Nat.zero_add]

/-- `nval_used` is the length of all records. -/
theorem Shows.used (h : d.Shows xb l) : d.nvalUsed xb = total l := by
  rw [nvalUsed, Walk.used h, Nat.zero_add]

/-- Records have lengths. -/
theorem total_pos_iff : 0 < total l ↔ l ≠ [] := by
  cases l with
  | nil => simp
  | cons a l =>
    have := recordLength_pos (a := a)
    exact iff_of_true (by rw [total_cons]; omega) (List.cons_ne_nil a l)

/-- An attribute that is there, and what is before and behind it. -/
theorem exists_split {v : List UInt8} (h : l.dlookup name = some v) :
    ∃ l₁ l₂, l = l₁ ++ ⟨name, v⟩ :: l₂ ∧
    name ∉ l₁.keys ∧ l.kerase name = l₁ ++ l₂ ∧ place name l = total l₁ := by
  induction l with
  | nil => exact nomatch h
  | cons a l ih =>
    by_cases hname : name = a.1
    · obtain ⟨n, w⟩ := a
      obtain rfl : name = n := hname
      rw [List.dlookup_cons_eq] at h
      obtain rfl := Option.some.inj h
      exact ⟨[], l, rfl, List.not_mem_nil, List.kerase_cons_eq rfl, if_pos rfl⟩
    · rw [List.dlookup_cons_ne _ _ hname] at h
      obtain ⟨l₁, l₂, rfl, hkeys, herase, hplace⟩ := ih h
      refine ⟨a :: l₁, l₂, rfl, ?_, ?_, ?_⟩
      · rw [List.keys_cons]
        exact List.not_mem_cons_of_ne_of_not_mem hname hkeys
      · rw [List.kerase_cons_ne hname, herase, List.cons_append]
      · rw [place, if_neg hname, hplace, total_cons]

/-- Where there is an attribute, there is its record. -/
theorem Shows.recordAt {v : List UInt8} (h : d.Shows xb l) (hv : l.dlookup name = some v) :
    d.RecordAt xb (place name l) ⟨name, v⟩ ∧ place name l + recordLength ⟨name, v⟩ ≤ total l ∧
      total l < d.xbSize := by
  obtain ⟨l₁, l₂, rfl, -, -, hplace⟩ := exists_split hv
  have hlaid := (laid_append.1 (Walk.laid h).1).2
  have hfits := (Walk.laid h).2 (List.append_ne_nil_of_right_ne_nil _ (List.cons_ne_nil _ _))
  rw [Nat.zero_add] at hlaid hfits
  rw [hplace]
  refine ⟨hlaid.1, ?_, hfits⟩
  rw [total_append, total_cons]
  omega

/-- What `nval_get` gives for what is there. -/
def valueOf (bsize : ℕ) : Option (List UInt8) → Except XattrError (ℤ × List UInt8)
  | none => .error .ENODATA
  | some v =>
    if bsize = 0 then .ok (v.length, [])
    else if v.length ≤ bsize then .ok (v.length, v)
    else .error .ERANGE

/-- `nval_get` looks up a value. -/
theorem Shows.get (h : d.Shows xb l) (bsize : ℕ) :
    d.nvalGet xb name.1 bsize = valueOf bsize (l.dlookup name) := by
  rw [nvalGet, h.find]
  cases hv : l.dlookup name with
  | none => rfl
  | some v =>
    obtain ⟨hrecord, hle, hfits⟩ := h.recordAt hv
    have hlt := d.xbSize_lt
    have hlength : recordLength ⟨name, v⟩ = 4 + (name.1.length + 1) + v.length := rfl
    have hsize : ((recordLength ⟨name, v⟩ : ℤ) - 4).toNat = name.1.length + 1 + v.length := by omega
    have hstring : CStr.StringAt xb (place name l + 4) name.1 := hrecord.parts.1
    have hskip :=
      skipName_eq (d := d) (n := name.1.length + 1 + v.length) hstring name.2 (by omega) (by omega)
    have hrest : (recordLength ⟨name, v⟩ : ℤ) - 4 - name.1.length - 1 = v.length := by omega
    have hword : ((v.length : ℤ) % 2 ^ 32).toNat = v.length := by omega
    rw [Option.map_some]
    dsimp only
    rw [if_neg (by omega), hrecord.1, hsize, hskip, hrest, hword, Nat.add_assoc,
      hrecord.parts.2, valueOf]
    simp only [Nat.cast_le]

/-- `nval_list` lists the names. -/
theorem Shows.list (h : d.Shows xb l) (bsize : ℤ) : d.nvalList xb bsize = names bsize 0 l :=
  Walk.list h bsize 0

/-- `nval_hasvalues` tells whether there are any. -/
theorem Shows.hasvalues (h : d.Shows xb l) : d.nvalHasvalues xb = decide (l ≠ []) := by
  rw [nvalHasvalues, h.used]
  exact decide_eq_decide.2 total_pos_iff

/-! ## Writing -/

end Nval

namespace Bytes

variable {m : Bytes} {a b n x i dst src : ℕ} {s t : List UInt8}

/-- Outside, all stays. -/
theorem clear_of_ne (h : x < a ∨ a + n ≤ x) : m.clear a n x = m x :=
  store_of_ne (by rwa [List.length_replicate])

/-- Inside, there are zeros. -/
theorem clear_apply (h : a ≤ x) (h' : x < a + n) : m.clear a n x = 0 := by
  obtain ⟨i, rfl⟩ := Nat.exists_eq_add_of_le h
  have hmem := mem_bytes (m := m.clear a n) (a := a) (Nat.lt_of_add_lt_add_left h')
  have hbytes : (m.clear a n).bytes a n = List.replicate n 0 := by
    have := bytes_store (m := m) (a := a) (List.replicate n 0)
    rwa [List.length_replicate] at this
  rw [hbytes] at hmem
  exact List.eq_of_mem_replicate hmem

/-- A copy to a place further down: no byte is read that has been written. -/
theorem memcpy_down (h : dst ≤ src) (hi : i < n) : m.memcpy dst src n (dst + i) = m (src + i) := by
  induction n with
  | zero => exact absurd hi (Nat.not_lt_zero i)
  | succ n ih =>
    rw [memcpy]
    rcases Nat.lt_succ_iff_lt_or_eq.1 hi with hlt | rfl
    · rw [Function.update_of_ne (by omega), ih hlt]
    · rw [Function.update_self, memcpy_of_ne (by omega)]

/-- `strncpy` of a name that fits, with zeros behind it. -/
theorem strncpy_eq (h : s.length ≤ n) :
    m.strncpy a s n = (m.store a s).clear (a + s.length) (n - s.length) := by
  induction s generalizing m a n with
  | nil => cases n <;> rfl
  | cons c s ih =>
    obtain ⟨n, rfl⟩ :=
      Nat.exists_eq_succ_of_ne_zero (Nat.ne_of_gt (Nat.lt_of_lt_of_le (Nat.succ_pos _) h))
    rw [strncpy, ih (Nat.le_of_succ_le_succ h), List.length_cons, Nat.succ_sub_succ,
      Nat.add_right_comm, ← Nat.add_assoc]
    rfl

end Bytes

namespace Nval

variable {d : Nval} {xb xb' : Bytes} {a : Σ _ : CStr, List UInt8} {l l' : Attrs} {name : CStr}
    {pos pos' : ℕ} {s : ℤ}
  {v buf : List UInt8} {flags : BitVec 32}

/-- What is behind a record is moved to its place. -/
theorem Holds.del (h : d.Holds xb l) (hv : l.dlookup name = some v) :
    ∃ xb', d.nvalDel xb name.1 = (.ok (), xb') ∧
    d.Holds xb' (l.kerase name) ∧ ∀ x, d.xbSize ≤ x → xb' x = xb x := by
  obtain ⟨hrecord, hle, hfits⟩ := h.shows.recordAt hv
  obtain ⟨l₁, l₂, rfl, hkeys, herase, hplace⟩ := exists_split hv
  have hpos := recordLength_pos (a := ⟨name, v⟩)
  have hlaid := laid_append.1 h.laid
  have hended := h.ended (List.append_ne_nil_of_right_ne_nil _ (List.cons_ne_nil _ _))
  rw [total_append, total_cons] at hfits hended
  rw [Nat.zero_add, Laid] at hlaid
  rw [hplace] at hrecord
  generalize hn : recordLength ⟨name, v⟩ = n at *
  have hdel :
      d.nvalDel xb name.1 =
      (.ok (), (xb.memcpy (total l₁) (total l₁ + n) (d.xbSize - (total l₁ + n))).clear
      (d.xbSize - n) n) := by
    rw [nvalDel, h.shows.find, hv, Option.map_some, hplace]
    dsimp only
    rw [if_neg (by omega), hrecord.1, hn, Int.toNat_natCast]
  refine ⟨_, hdel, ?_, fun x hx => ?_⟩
  · -- Below the record, nothing is changed; above, everything comes down by its length, and zeros
    -- come after it.
    generalize hxb' :
      (xb.memcpy (total l₁) (total l₁ + n) (d.xbSize - (total l₁ + n))).clear (d.xbSize - n) n = xb'
    have hbelow : ∀ x < total l₁, xb' x = xb x := fun x hx => by
      rw [← hxb', Bytes.clear_of_ne (by omega), Bytes.memcpy_of_ne (by omega)]
    have habove : ∀ i, total l₁ + i < d.xbSize - n → xb' (total l₁ + i) = xb (total l₁ + n + i) :=
      fun i hi => by
      rw [← hxb', Bytes.clear_of_ne (by omega), Bytes.memcpy_down (by omega) (by omega)]
    have hzero : ∀ x, d.xbSize - n ≤ x → x < d.xbSize → xb' x = 0 := fun x hx hlt => by
      rw [← hxb', Bytes.clear_apply hx (by omega)]
    have hend : ∀ i < 4, total (l₁ ++ l₂) + i < d.xbSize → xb' (total (l₁ ++ l₂) + i) = 0 :=
      fun i hi hlt => by
      rw [total_append, Nat.add_assoc] at *
      by_cases hshift : total l₁ + (total l₂ + i) < d.xbSize - n
      · rw [habove _ hshift, ← hended i hi (by omega)]
        exact congrArg xb (by omega)
      · exact hzero _ (by omega) hlt
    rw [herase]
    refine ⟨?_, laid_append.2 ⟨hlaid.1.congr fun i hi => ?_, hlaid.2.2.congr fun i hi => ?_⟩, ?_,
      fun _ => hend, fun hnil => ?_⟩
    · rw [← herase]
      exact h.nodup.kerase name
    · rw [Nat.zero_add, hbelow i hi]
    · rw [Nat.zero_add, habove i (by omega)]
    · rw [total_append]
      omega
    · rw [hnil] at hend
      refine (size_of_zeros fun i hi => ?_).le
      have := hend i hi (by rw [total_nil]; omega)
      rwa [total_nil] at this
  · rw [Bytes.clear_of_ne (by omega), Bytes.memcpy_of_ne (by omega)]

/-- An attribute that is missing is not deleted. -/
theorem Shows.del_of_none (h : d.Shows xb l) (hv : l.dlookup name = none) :
    d.nvalDel xb name.1 = (.error .ENODATA, xb) := by
  rw [nvalDel, h.find, hv]
  rfl

/-- Writing a record at `pos`. -/
def putRecord (d : Nval) (xb : Bytes) (pos reclen : ℕ) (name buf : List UInt8) : Bytes :=
  ((xb.setWord pos (doEndianU32 d.swapEndian (BitVec.ofInt 32 reclen)).toNat).strncpy
    (pos + 4) name reclen).store
    (pos + 4 + (name.length + 1)) buf

/-- A record is there once it is written, with four zeros behind it. -/
theorem putRecord_spec (hlt : recordLength ⟨name, buf⟩ < 2 ^ 31)
    (hxb' : d.putRecord xb pos (recordLength ⟨name, buf⟩) name.1 buf = xb') :
    d.RecordAt xb' pos ⟨name, buf⟩ ∧ (∀ i < 4, xb' (pos + recordLength ⟨name, buf⟩ + i) = 0) ∧
      ∀ x, x < pos ∨ pos + recordLength ⟨name, buf⟩ + 4 ≤ x → xb' x = xb x := by
  have hlength : recordLength ⟨name, buf⟩ = 4 + (name.1.length + 1) + buf.length := rfl
  generalize recordLength ⟨name, buf⟩ = n at *
  rw [putRecord, Bytes.strncpy_eq (by omega)] at hxb'
  generalize hword : (doEndianU32 d.swapEndian (BitVec.ofInt 32 n)).toNat = w at hxb'
  have hw : w < 2 ^ 32 := hword ▸ BitVec.isLt _
  -- The word and the name are written first, and lie below what is written later.
  have hfront : ∀ x, x < pos + 4 + name.1.length →
      xb' x = (xb.setWord pos w).store (pos + 4) name.1 x := fun x hx => by
    rw [← hxb', Bytes.store_of_ne (by omega), Bytes.clear_of_ne (by omega)]
  have hzero : ∀ x, pos + 4 + name.1.length ≤ x → x < pos + 4 + n →
      x < pos + 4 + (name.1.length + 1) ∨ pos + n ≤ x → xb' x = 0 := fun x hx hx' hout => by
    rw [← hxb', Bytes.store_of_ne (by omega), Bytes.clear_apply hx (by omega)]
  refine ⟨⟨?_, ?_⟩, fun i hi => hzero _ (by omega) (by omega) (by omega), fun x hx => ?_⟩
  · have hsame : xb'.word pos = w := by
      rw [← Bytes.word_setWord (m := xb) (a := pos) hw]
      refine Bytes.word_congr fun i hi => ?_
      rw [hfront _ (by omega), Bytes.store_of_ne (by omega)]
    have hsmall : ((n : ℤ)).bmod (2 ^ 32) = n := Int.bmod_eq_of_le (by omega) (by omega)
    rw [size, hsame, ← hword, BitVec.ofNat_toNat, BitVec.setWidth_eq, doEndianU32_doEndianU32,
      BitVec.toInt_ofInt, hsmall, hlength]
    rfl
  · have hname : xb'.bytes (pos + 4) name.1.length = name.1 :=
      (Bytes.bytes_eq_iff.2 fun i hi => hfront _ (by omega)).trans
        (Bytes.bytes_store (m := xb.setWord pos w) (a := pos + 4) name.1)
    have hend : xb'.bytes (pos + 4 + name.1.length) 1 = [0] := by
      rw [Bytes.bytes_succ, hzero _ le_rfl (by omega) (by omega)]
      rfl
    have hvalue : xb'.bytes (pos + 4 + (name.1.length + 1)) buf.length = buf := by
      rw [← hxb', Bytes.bytes_store]
    rw [Bytes.bytes_add, Bytes.bytes_add, hname, hend, hvalue, ← List.append_cons]
  · rw [← hxb', Bytes.store_of_ne (by omega), Bytes.clear_of_ne (by omega),
      Bytes.store_of_ne (by omega), Bytes.setWord_of_ne (by omega)]

/-- A record that is added, which leaves a byte of the area at least. -/
theorem Holds.append (h : d.Holds xb l) (hname : name ∉ l.keys)
    (hfits : total l + recordLength ⟨name, buf⟩ < d.xbSize) :
    d.Holds (d.putRecord xb (total l) (recordLength ⟨name, buf⟩) name.1 buf)
      (l ++ [⟨name, buf⟩]) := by
  have hlt := d.xbSize_lt
  generalize hxb' : d.putRecord xb (total l) (recordLength ⟨name, buf⟩) name.1 buf = xb'
  obtain ⟨hrecord, hzero, hkeep⟩ := putRecord_spec (by omega) hxb'
  refine ⟨?_, laid_append.2 ⟨h.laid.congr fun i hi => hkeep _ (.inl (by omega)), ?_⟩, ?_,
    fun _ i hi _ => ?_,
    fun hnil => absurd hnil (List.append_ne_nil_of_right_ne_nil _ (List.cons_ne_nil _ _))⟩
  · rw [List.NodupKeys, List.keys_append, List.nodup_append]
    refine ⟨h.nodup, List.nodup_singleton _, fun a ha b hb heq => ?_⟩
    obtain rfl : b = name := List.mem_singleton.1 hb
    exact hname (heq ▸ ha)
  · rw [Nat.zero_add]
    exact ⟨hrecord, trivial⟩
  · rw [total_append, total_cons, total_nil]
    omega
  · rw [total_append, total_cons, total_nil, Nat.add_zero]
    exact hzero i hi

/-- What `nval_set` does to attributes, with `n` bytes for their records. -/
def setAttr (n : ℕ) (l : Attrs) (name : CStr) (buf : List UInt8) (flags : BitVec 32) :
    Except XattrError Unit × Attrs :=
  if flags &&& xattrCreate ≠ 0 ∧ name ∈ l.keys then (.error .EEXIST, l)
  else if flags &&& xattrReplace ≠ 0 ∧ name ∉ l.keys then (.error .ENODATA, l)
  else if n < total (l.kerase name) + recordLength ⟨name, buf⟩ then (.error .ENOSPC, l)
  else (.ok (), l.kerase name ++ [⟨name, buf⟩])

/-- What `nval_del` does to them. -/
def delAttr (l : Attrs) (name : CStr) : Except XattrError Unit × Attrs :=
  if name ∈ l.keys then (.ok (), l.kerase name) else (.error .ENODATA, l)

/-- A record less. -/
theorem total_kerase (l : Attrs) (name : CStr) :
    total l =
      total (l.kerase name) + ((l.dlookup name).map fun v => recordLength ⟨name, v⟩).getD 0 := by
  cases hv : l.dlookup name with
  | none =>
      rw [List.kerase_of_notMem_keys (List.dlookup_eq_none.1 hv), Option.map_none, Option.getD_none,
      Nat.add_zero]
  | some v =>
    obtain ⟨l₁, l₂, rfl, -, herase, -⟩ := exists_split hv
    rw [herase, total_append, total_append, total_cons, Option.map_some, Option.getD_some]
    omega

/-- `nval_set` fails as it should, or writes the record behind those that are left. -/
theorem Holds.set (h : d.Holds xb l) (name : CStr) (flags : BitVec 32)
    (hsmall : buf.length + d.xbSize + 5 < 2 ^ 31) :
    (∃ e, d.nvalSet xb name.1 buf flags = (.error e, xb) ∧
      setAttr d.xbSize l name buf flags = (.error e, l)) ∨
      ∃ xb₁, d.Holds xb₁ (l.kerase name) ∧ (∀ x, d.xbSize ≤ x → xb₁ x = xb x) ∧
        total (l.kerase name) + recordLength ⟨name, buf⟩ ≤ d.xbSize ∧
        d.nvalSet xb name.1 buf flags =
          (.ok (), d.putRecord xb₁ (total (l.kerase name)) (recordLength ⟨name, buf⟩) name.1 buf) ∧
        setAttr d.xbSize l name buf flags = (.ok (), l.kerase name ++ [⟨name, buf⟩]) := by
  have hfound : (d.nvalFind xb name.1).isSome ↔ name ∈ l.keys := by
    rw [h.shows.find, Option.isSome_map, List.dlookup_isSome]
  have hnone : (d.nvalFind xb name.1).isNone ↔ name ∉ l.keys := by
    rw [← hfound, ← Option.not_isSome, Bool.not_eq_true', Bool.not_eq_true]
  have hsint : sint (4 + (min name.1.length d.xbSize : ℕ) + 1 + buf.length) =
      (4 + min name.1.length d.xbSize + 1 + buf.length : ℕ) := by
    rw [sint_eq (by omega) (by omega)]
    push_cast
    rfl
  have hspace : (d.xbSize : ℤ) - d.nvalUsed xb + (d.nvalFind xb name.1).elim 0 Prod.snd =
      d.xbSize - total (l.kerase name) := by
    rw [h.shows.used, h.shows.find, total_kerase l name]
    cases l.dlookup name with
    | none => simp
    | some v =>
      simp only [Option.map_some, Option.elim_some, Option.getD_some]
      push_cast
      omega
  rw [nvalSet, setAttr]
  dsimp only
  rw [hsint, hspace]
  simp only [hfound, hnone]
  by_cases hcreate : flags &&& xattrCreate ≠ 0 ∧ name ∈ l.keys
  · exact .inl ⟨_, if_pos hcreate, if_pos hcreate⟩
  by_cases hreplace : flags &&& xattrReplace ≠ 0 ∧ name ∉ l.keys
  · exact .inl ⟨_, by rw [if_neg hcreate, if_pos hreplace], by rw [if_neg hcreate, if_pos hreplace]⟩
  rw [if_neg hcreate, if_neg hreplace, if_neg hcreate, if_neg hreplace]
  have hlength : recordLength ⟨name, buf⟩ = 4 + (name.1.length + 1) + buf.length := rfl
  by_cases hfull : d.xbSize < total (l.kerase name) + recordLength ⟨name, buf⟩
  · exact .inl ⟨_, if_pos (by omega), if_pos hfull⟩
  · have hmin : min name.1.length d.xbSize = name.1.length := Nat.min_eq_left (by omega)
    have hreclen : 4 + name.1.length + 1 + buf.length = recordLength ⟨name, buf⟩ := by omega
    rw [hmin, hreclen, if_neg (by omega), if_neg hfull, Int.toNat_natCast]
    -- The record of the name, if there is one, is taken out first.
    cases hv : l.dlookup name with
    | none =>
      have hkeys := List.dlookup_eq_none.1 hv
      rw [List.kerase_of_notMem_keys hkeys] at hfull ⊢
      rw [if_neg hkeys, h.shows.used]
      exact .inr ⟨xb, h, fun _ _ => rfl, Nat.not_lt.1 hfull, rfl, rfl⟩
    | some v =>
      have hkeys : name ∈ l.keys := List.dlookup_isSome.1 (by rw [hv]; rfl)
      obtain ⟨xb₁, hdel, hholds, hkeep⟩ := h.del hv
      rw [if_pos hkeys, hdel, hholds.shows.used]
      exact .inr ⟨xb₁, hholds, hkeep, Nat.not_lt.1 hfull, rfl, rfl⟩

/-- What `nval_set` returns. -/
theorem Holds.set_code (h : d.Holds xb l) (hsmall : buf.length + d.xbSize + 5 < 2 ^ 31) :
    (d.nvalSet xb name.1 buf flags).1 = (setAttr d.xbSize l name buf flags).1 := by
  rcases h.set name flags hsmall with ⟨e, hset, hattr⟩ | ⟨xb₁, -, -, -, hset, hattr⟩ <;>
    rw [hset, hattr]

/-! ## Runs -/

/-- What may be asked for. -/
inductive Op
  | set (name : CStr) (buf : List UInt8) (flags : BitVec 32)
  | del (name : CStr)
  | get (name : CStr) (bsize : ℕ)
  | list (bsize : ℤ)
  | hasvalues

/-- What is returned, and copied to the buffer that was passed. -/
inductive Reply
  | code (r : Except XattrError Unit)
  | value (r : Except XattrError (ℤ × List UInt8))
  | names (r : ℕ × List UInt8)
  | flag (r : Bool)

def step (d : Nval) (xb : Bytes) : Op → List Reply × Bytes
  | .set name buf flags => let r := d.nvalSet xb name.1 buf flags; ([.code r.1], r.2)
  | .del name => let r := d.nvalDel xb name.1; ([.code r.1], r.2)
  | .get name bsize => ([.value (d.nvalGet xb name.1 bsize)], xb)
  | .list bsize => ([.names (d.nvalList xb bsize)], xb)
  | .hasvalues => ([.flag (d.nvalHasvalues xb)], xb)

/-- The same of attributes that are just a list. -/
def attrStep (d : Nval) (l : Attrs) : Op → List Reply × Attrs
  | .set name buf flags => let r := setAttr d.xbSize l name buf flags; ([.code r.1], r.2)
  | .del name => let r := delAttr l name; ([.code r.1], r.2)
  | .get name bsize => ([.value (valueOf bsize (l.dlookup name))], l)
  | .list bsize => ([.names (names bsize 0 l)], l)
  | .hasvalues => ([.flag (decide (l ≠ []))], l)

/-- The length of a record that is set is an `int`, and the record does not end with the last byte
    of the area. -/
def Roomy (d : Nval) (l : Attrs) : Op → Prop
  | .set name buf _ => buf.length + d.xbSize + 5 < 2 ^ 31 ∧
      total (l.kerase name) + recordLength ⟨name, buf⟩ ≠ d.xbSize
  | _ => True

/-- Call by call, the area answers as the list does. -/
theorem Holds.simulation : SimulationOn d.Roomy d.step d.attrStep d.Holds := by
  intro xb l op h hroomy
  cases op with
  | set name buf flags =>
    rcases h.set name flags hroomy.1 with ⟨e, hset, hattr⟩ | ⟨xb₁, hholds, -, hle, hset, hattr⟩
    · rw [step, attrStep, hset, hattr]
      exact ⟨rfl, h⟩
    · rw [step, attrStep, hset, hattr]
      have hkeys : name ∉ (l.kerase name).keys := List.notMem_keys_kerase name h.nodup
      exact ⟨rfl, hholds.append hkeys (Nat.lt_of_le_of_ne hle hroomy.2)⟩
  | del name =>
    rw [step, attrStep, delAttr]
    cases hv : l.dlookup name with
    | none =>
      rw [h.shows.del_of_none hv, if_neg (List.dlookup_eq_none.1 hv)]
      exact ⟨rfl, h⟩
    | some v =>
      obtain ⟨xb', hdel, hholds, -⟩ := h.del hv
      rw [hdel, if_pos (List.dlookup_isSome.1 (by rw [hv]; rfl))]
      exact ⟨rfl, hholds⟩
  | get name bsize => exact ⟨congrArg ([Reply.value ·]) (h.shows.get bsize), h⟩
  | list bsize => exact ⟨congrArg ([Reply.names ·]) (h.shows.list bsize), h⟩
  | hasvalues => exact ⟨congrArg ([Reply.flag ·]) h.shows.hasvalues, h⟩

/-- An area that is erased has no attributes. -/
theorem holds_erased (h : ∀ i < 4, xb i = 0xff) : d.Holds xb [] := by
  refine ⟨List.nodupKeys_nil, trivial, d.xbSize_pos, fun hne => absurd rfl hne, fun _ => ?_⟩
  have hword : xb.word 0 = 2 ^ 32 - 1 := by
    rw [Bytes.word, h 0 (by decide), h (0 + 1) (by decide), h (0 + 2) (by decide),
      h (0 + 3) (by decide)]
    rfl
  rw [size, hword]
  cases d.swapEndian <;> decide

/-- Whatever is done to an area that was erased, it answers as the list of its attributes would. -/
theorem nval_run (d : Nval) (xb : Bytes) (herased : ∀ i < 4, xb i = 0xff) (ops : List Op)
    (hops : Admissible (fun l op => some (d.attrStep l op).2) d.Roomy [] ops) :
    outputs d.step xb ops = outputs d.attrStep [] ops :=
  Holds.simulation.outputs_eq (holds_erased herased) hops

/-- An area of 64 bytes. -/
def small : Nval := ⟨true, 64, by decide, by decide⟩

/-- The names of one letter. -/
def letter (c : UInt8) (h : c ≠ 0) : CStr := ⟨[c], fun h' => h (List.mem_singleton.1 h').symm⟩

theorem nval_run_small :
    outputs small.step (fun _ => 0xff) [.set (letter 97 (by decide)) [1, 2, 3] 0,
      .set (letter 98 (by decide)) [4] 0, .set (letter 97 (by decide)) [5] 0, .list 64,
        .get (letter 97 (by decide)) 8] =
    [.code (.ok ()), .code (.ok ()), .code (.ok ()), .names (4, [98, 0, 97, 0]),
      .value (.ok (1, [5]))] :=
  nval_run small (fun _ => 0xff) (fun _ _ => rfl) _
    ⟨⟨by decide, by decide⟩, fun _ h => Option.some.inj h ▸ ⟨⟨by decide, by decide⟩, fun _ h =>
      Option.some.inj h ▸ ⟨⟨by decide, by decide⟩,
        fun _ h => Option.some.inj h ▸ ⟨trivial, fun _ h =>
        Option.some.inj h ▸ ⟨trivial, fun _ _ => trivial⟩⟩⟩⟩⟩

/-- What a `set` that succeeds leaves of an area that holds attributes. -/
theorem Holds.set_ok (h : d.Holds xb l) (name : CStr) (hsmall : buf.length + d.xbSize + 5 < 2 ^ 31)
    (hok : (d.nvalSet xb name.1 buf flags).1 = .ok ()) :
    let xb' := (d.nvalSet xb name.1 buf flags).2
    let e := total (l.kerase name) + recordLength ⟨name, buf⟩
    (∀ bsize,
      d.nvalGet xb' name.1 bsize = valueOf bsize (if e = d.xbSize then none else some buf)) ∧
      (∀ other ≠ name, ∀ bsize, d.nvalGet xb' other.1 bsize = valueOf bsize (l.dlookup other)) ∧
        ∀ x, d.xbSize ≤ x → xb' x = if x < e + 4 then 0 else xb x := by
  intro xb' e
  obtain ⟨e', hset, -⟩ | ⟨xb₁, hholds, hkeep, hle, hset, -⟩ := h.set name flags hsmall
  · rw [hset] at hok
    exact nomatch hok
  · have hxb' :
        d.putRecord xb₁ (total (l.kerase name)) (recordLength ⟨name, buf⟩) name.1 buf = xb' := by
      rw [show xb' = (d.nvalSet xb name.1 buf flags).2 from rfl, hset]
    have hlt := d.xbSize_lt
    have hkeys : name ∉ (l.kerase name).keys := List.notMem_keys_kerase name h.nodup
    obtain ⟨hrecord, hzero, hfront⟩ := putRecord_spec (by omega) hxb'
    have hlookup : ∀ other ≠ name, (l.kerase name).dlookup other = l.dlookup other :=
      fun other hother =>
      List.dlookup_kerase_ne hother
    -- What a walk shows: the record, or just those before it, where it stops at one that ends with
    -- the area.
    have hshows : ∃ l', d.Shows xb' l' ∧
        l'.dlookup name = (if e = d.xbSize then none else some buf) ∧
        ∀ other ≠ name, l'.dlookup other = l.dlookup other := by
      by_cases he : e = d.xbSize
      · have hfull : total (l.kerase name) + recordLength ⟨name, buf⟩ = d.xbSize := he
        refine ⟨l.kerase name, shows_of_laid ?_ hholds.fits (fun hnil => ?_) fun _ => ?_,
          ?_, hlookup⟩
        · exact hholds.laid.congr fun i hi => hfront _ (.inl (by omega))
        · rw [hnil, total_nil] at hrecord hfull
          rw [hrecord.1]
          exact fun h => by omega
        · rw [next]
          split_ifs
          · rw [hrecord.1]
            exact fun h => by omega
          · exact stops_of_nonpos le_rfl
        · rw [if_pos he, List.dlookup_eq_none.2 hkeys]
      · refine ⟨_, hxb' ▸ (hholds.append hkeys (Nat.lt_of_le_of_ne hle he)).shows, ?_,
          fun other hother => ?_⟩
        · rw [if_neg he, List.dlookup_append, List.dlookup_eq_none.2 hkeys, List.dlookup_cons_eq]
          rfl
        · rw [List.dlookup_append, hlookup other hother, List.dlookup_cons_ne _ _ hother]
          exact Option.or_none
    obtain ⟨l', hl', hname, hothers⟩ := hshows
    refine ⟨fun bsize => by rw [hl'.get, hname],
      fun other hother bsize => by rw [hl'.get, hothers other hother], fun x hx => ?_⟩
    split_ifs with hlast
    · obtain ⟨i, rfl⟩ := Nat.exists_eq_add_of_le (Nat.le_trans hle hx)
      exact hzero i (by omega)
    · rw [hfront x (.inr (by omega)), hkeep x hx]

/-- In an area that was erased, and in which no record that has been set ended with the last byte, a
    `set` that succeeds leaves the attribute, unless its own record ends there; the other
    attributes; and zeros in up to four bytes behind the area. -/
theorem nvalSet_ok {xb₀ : Bytes} (herased : ∀ i < 4, xb₀ i = 0xff)
    (hrun : Run (both d.step d.attrStep) (fun s op => d.Roomy s.2 op) (xb₀, []) (xb, l))
    (name : CStr)
    (hsmall : buf.length + d.xbSize + 5 < 2 ^ 31)
    (hok : (d.nvalSet xb name.1 buf flags).1 = .ok ()) :
    let xb' := (d.nvalSet xb name.1 buf flags).2
    let e := total (l.kerase name) + recordLength ⟨name, buf⟩
    (∀ bsize,
      d.nvalGet xb' name.1 bsize = valueOf bsize (if e = d.xbSize then none else some buf)) ∧
      (∀ other ≠ name, ∀ bsize, d.nvalGet xb' other.1 bsize = valueOf bsize (l.dlookup other)) ∧
        ∀ x, d.xbSize ≤ x → xb' x = if x < e + 4 then 0 else xb x :=
  (Holds.simulation.related (holds_erased herased) hrun).set_ok name hsmall hok

/-- An attribute is lost whose record takes the rest of the area; the one set before it is not. -/
theorem nvalSet_ok_small :
    ∃ xb, Run (both small.step small.attrStep) (fun s op => small.Roomy s.2 op)
      ((fun _ => 0xff), []) (xb, [⟨letter 98 (by decide), [4]⟩]) ∧
    let xb' := (small.nvalSet xb [97] (List.replicate 51 0) 0).2
    small.nvalGet xb' [97] 0 = .error .ENODATA ∧ small.nvalGet xb' [98] 8 = .ok (1, [4]) := by
  have hrun :
      Run (both small.step small.attrStep) (fun s op => small.Roomy s.2 op) ((fun _ => 0xff), [])
      (_, [⟨letter 98 (by decide), [4]⟩]) :=
    Run.refl.tail (i := .set (letter 98 (by decide)) [4] 0) ⟨by decide, by decide⟩ rfl
  have herased : ∀ i < 4, (fun _ => 0xff : Bytes) i = 0xff := fun _ _ => rfl
  have hholds := Holds.simulation.related (holds_erased (d := small) herased) hrun
  have hok : (small.nvalSet _ (letter 97 (by decide)).1 (List.replicate 51 0) 0).1 = .ok () :=
    (hholds.set_code (by decide)).trans rfl
  obtain ⟨hlost, hother, -⟩ := nvalSet_ok herased hrun (letter 97 (by decide)) (by decide) hok
  have hkept :
      ([⟨letter 98 (by decide), [4]⟩] : Attrs).dlookup (letter 98 (by decide)) = some [4] :=
    List.dlookup_cons_eq ..
  exact ⟨_, hrun, hlost 0,
    (hother (letter 98 (by decide)) (by decide) 8).trans (by rw [hkept]; rfl)⟩

end Nval

end DemoOs
