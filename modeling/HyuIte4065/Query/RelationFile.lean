import HyuIte4065.Library.Bytes
import HyuIte4065.Library.Loops
import HyuIte4065.Query.Operators
import Mathlib.Order.Interval.Set.Basic
import Mathlib.Order.SetNotation
import Mathlib.Order.CompletePartialOrder

/-!
# Relations in files

`storeRelation` and `loadRelation` of `Relation.cpp`. A file is mapped somewhere into the address
space of 64 bits, and the columns of a loaded relation are addresses. Access outside the mapped file
has no result.
-/
namespace Query

namespace RelationFile

open Bytes (Byte encode decode slice)

/-- The address at which `mmap` has put the file. -/
structure Mapping (file : List Byte) where
  addr : BitVec 64
  fits : addr.toNat + file.length < 2 ^ 64

/-- What `open` and `mmap` may answer. -/
inductive Opened (file : List Byte) where
  | failed
  | unmapped
  | mapped (mapping : Mapping file)

structure Loaded where
  size : BitVec 64
  columns : List (BitVec 64)

variable {file : List Byte}

/-- The 8 bytes at an address. -/
def Mapping.read (mapping : Mapping file) (addr : BitVec 64) : Option Value :=
  if mapping.addr.toNat ≤ addr.toNat ∧ addr.toNat + 8 ≤ mapping.addr.toNat + file.length then
    some (BitVec.ofNat 64 (decode (slice (addr.toNat - mapping.addr.toNat) 8 file)))
  else none

def storeRelation (relation : Relation) : List Byte :=
  encode 8 relation.size ++ encode 8 relation.columns.length ++ relation.columns.flatMap fun c =>
    (c.flatMap fun value => encode 8 value.toNat).take (BitVec.ofNat 64 relation.size * 8#64).toNat

/-- One turn of the loop of `loadRelation`, with `columns` and `addr`. -/
def pushColumn (size : BitVec 64) (_ : Nat) :
    List (BitVec 64) × BitVec 64 → Option (List (BitVec 64) × BitVec 64)
  | (columns, addr) => some (columns ++ [addr], addr + size * 8#64)

/-- The texts are those that go to `cerr` before the `throw`. -/
def loadRelation (fileName : String) (opened : Opened file) (fuel : Nat) : Option (Except String Loaded) :=
  match opened with
  | .failed => some (.error s!"cannot open {fileName}")
  | .unmapped => some (.error s!"cannot mmap {fileName} of length {file.length}")
  | .mapped mapping =>
    if file.length < 16 then
      some (.error s!"relation file {fileName} does not contain a valid header")
    else do
      let addr := mapping.addr
      let size ← mapping.read addr
      let addr := addr + 8#64
      let numColumns ← mapping.read addr
      let addr := addr + 8#64
      -- The counter is an `unsigned`, the bound a `size_t`.
      let (columns, _) ← Loops.countUp numColumns.toNat (pushColumn size) fuel (0 : BitVec 32) ([], addr)
      return .ok ⟨size, columns⟩

/-- `columns[i][row]`. -/
def Loaded.cell (loaded : Loaded) (mapping : Mapping file) (i row : Nat) : Option Value := do
  let column ← loaded.columns[i]?
  mapping.read (column + BitVec.ofNat 64 row * 8#64)

def Loaded.region (loaded : Loaded) (column : BitVec 64) : Set Nat :=
  Set.Ico column.toNat (column.toNat + loaded.size.toNat * 8)

/-- Where the last column ends, or the header if there is no column. -/
def Loaded.endAddr (loaded : Loaded) (mapping : Mapping file) : Nat :=
  loaded.columns.getLast?.elim (mapping.addr.toNat + 16) fun column =>
    column.toNat + loaded.size.toNat * 8

/-- The loaded relation is the stored one, and its columns fill the file behind the header. -/
structure Agrees (relation : Relation) (mapping : Mapping file) (loaded : Loaded) : Prop where
  size : loaded.size.toNat = relation.size
  columns : loaded.columns.length = relation.columns.length
  cells : ∀ i, (hi : i < relation.columns.length) → ∀ row, (hrow : row < relation.columns[i].length) →
    loaded.cell mapping i row = some relation.columns[i][row]
  disjoint : loaded.columns.Pairwise fun a b => Disjoint (loaded.region a) (loaded.region b)
  inside : ∀ column ∈ loaded.columns, loaded.region column ⊆
    Set.Ico (mapping.addr.toNat + 16) (mapping.addr.toNat + file.length)
  ends : loaded.endAddr mapping = mapping.addr.toNat + file.length

/-- What the header of a file announces. -/
def size (file : List Byte) : Nat := decode (slice 0 8 file)

def numColumns (file : List Byte) : Nat := decode (slice 8 8 file)

/-- The address of a column, as the loop computes it. -/
def columnAddr (mapping : Mapping file) (i : Nat) : BitVec 64 :=
  mapping.addr + 16#64 + BitVec.ofNat 64 i * (BitVec.ofNat 64 (size file) * 8#64)

/-- The file has every cell that its header announces, and no address was wrapped around. -/
structure Contained (mapping : Mapping file) (loaded : Loaded) : Prop where
  size : loaded.size.toNat = size file
  columns : loaded.columns.length = numColumns file
  noWrap : ∀ column ∈ loaded.columns,
    (column + loaded.size * 8#64).toNat = column.toNat + loaded.size.toNat * 8
  inside : ∀ column ∈ loaded.columns, ∀ row < loaded.size.toNat,
    mapping.addr.toNat ≤ column.toNat + row * 8 ∧
      column.toNat + row * 8 + 8 ≤ mapping.addr.toNat + file.length

theorem decode_slice_lt (offset : Nat) (file : List Byte) : decode (slice offset 8 file) < 2 ^ 64 := by
  have hlen : (slice offset 8 file).length ≤ 8 := by
    rw [slice]
    exact List.length_take_le ..
  calc decode (slice offset 8 file) < 256 ^ (slice offset 8 file).length := Bytes.decode_lt _
    _ ≤ 256 ^ 8 := Nat.pow_le_pow_right (by decide) hlen

theorem Mapping.read_offset (mapping : Mapping file) {offset : Nat} (h : offset + 8 ≤ file.length)
    {addr : BitVec 64} (haddr : addr.toNat = mapping.addr.toNat + offset) :
    mapping.read addr = some (BitVec.ofNat 64 (decode (slice offset 8 file))) := by
  have hin : mapping.addr.toNat ≤ addr.toNat ∧ addr.toNat + 8 ≤ mapping.addr.toNat + file.length := by
    omega
  rw [Mapping.read, if_pos hin, haddr, Nat.add_sub_cancel_left]

theorem loadRelation_mapped (fileName : String) (mapping : Mapping file) (h : 16 ≤ file.length) (fuel : Nat) :
    loadRelation fileName (.mapped mapping) fuel =
      (Loops.countUp (numColumns file) (pushColumn (BitVec.ofNat 64 (size file))) fuel (0 : BitVec 32)
        ([], mapping.addr + 16#64)).map fun s => .ok ⟨BitVec.ofNat 64 (size file), s.1⟩ := by
  have hfits := mapping.fits
  have hsize : mapping.read mapping.addr = some (BitVec.ofNat 64 (size file)) :=
    mapping.read_offset (by omega) rfl
  have hcolumns : mapping.read (mapping.addr + 8#64) = some (BitVec.ofNat 64 (numColumns file)) :=
    mapping.read_offset (by omega) (by rw [BitVec.toNat_add, BitVec.toNat_ofNat]; omega)
  have hbound : (BitVec.ofNat 64 (numColumns file)).toNat = numColumns file := by
    rw [BitVec.toNat_ofNat]
    exact Nat.mod_eq_of_lt (decode_slice_lt 8 file)
  have haddr : mapping.addr + 8#64 + 8#64 = mapping.addr + 16#64 := by
    rw [BitVec.add_assoc]
    rfl
  rw [loadRelation, if_neg (by omega)]
  simp only [hsize, hcolumns, Loops.bind_some, hbound, haddr]
  cases Loops.countUp (numColumns file) (pushColumn (BitVec.ofNat 64 (size file))) fuel (0 : BitVec 32)
    ([], mapping.addr + 16#64) <;> rfl

/-- What `loadRelation` returns unless it runs forever. -/
def announced (mapping : Mapping file) : Loaded :=
  ⟨BitVec.ofNat 64 (size file), (List.range (numColumns file)).map (columnAddr mapping)⟩

theorem columnAddr_succ (mapping : Mapping file) (i : Nat) :
    columnAddr mapping (i + 1) = columnAddr mapping i + BitVec.ofNat 64 (size file) * 8#64 := by
  rw [columnAddr, columnAddr, BitVec.ofNat_add, BitVec.add_mul, BitVec.one_mul,
    ← BitVec.add_assoc]

theorem loadRelation_returns (fileName : String) (mapping : Mapping file) (h : 16 ≤ file.length)
    (hcolumns : numColumns file < 2 ^ 32) :
    Loops.Returns (loadRelation fileName (.mapped mapping)) (.ok (announced mapping)) := by
  have hloop : ∃ s, Loops.Returns (fun fuel => Loops.countUp (numColumns file)
      (pushColumn (BitVec.ofNat 64 (size file))) fuel (0 : BitVec 32) ([], mapping.addr + 16#64)) s ∧
      s = ((List.range (numColumns file)).map (columnAddr mapping), columnAddr mapping (numColumns file)) :=
    Loops.Returns.countUp hcolumns
      (I := fun i s => s = ((List.range i).map (columnAddr mapping), columnAddr mapping i))
      (by simp [columnAddr]) fun i _ s hs => ⟨_, rfl, by
        rw [hs, List.range_succ, List.map_append, columnAddr_succ]
        rfl⟩
  obtain ⟨_, ⟨n, hn⟩, rfl⟩ := hloop
  refine ⟨n, fun fuel hle => ?_⟩
  rw [loadRelation_mapped fileName mapping h]
  exact congrArg (Option.map _) (hn fuel hle)

theorem size_lt (file : List Byte) : size file < 2 ^ 64 := decode_slice_lt 0 file

theorem announced_size (mapping : Mapping file) : (announced mapping).size.toNat = size file := by
  rw [announced, BitVec.toNat_ofNat]
  exact Nat.mod_eq_of_lt (size_lt file)

theorem mem_columns {mapping : Mapping file} {column : BitVec 64} :
    column ∈ (announced mapping).columns ↔ ∃ i < numColumns file, columnAddr mapping i = column := by
  simp [announced]

theorem columnAddr_eq (mapping : Mapping file) (i : Nat) :
    columnAddr mapping i = mapping.addr + BitVec.ofNat 64 (16 + size file * 8 * i) := by
  rw [columnAddr, BitVec.ofNat_add, BitVec.ofNat_mul, BitVec.ofNat_mul, BitVec.add_assoc, BitVec.mul_comm]

theorem Mapping.toNat_add (mapping : Mapping file) {offset : Nat} (h : offset ≤ file.length) :
    (mapping.addr + BitVec.ofNat 64 offset).toNat = mapping.addr.toNat + offset := by
  have hfits := mapping.fits
  rw [BitVec.toNat_add, BitVec.toNat_ofNat]
  omega

section Fits

/-! The file is long enough for what it announces. -/

variable (mapping : Mapping file) (hfits : 16 + size file * 8 * numColumns file ≤ file.length) {i j : Nat}

include hfits

theorem column_le (hi : i ≤ numColumns file) : 16 + size file * 8 * i ≤ file.length :=
  (Nat.add_le_add_left (Nat.mul_le_mul_left _ hi) 16).trans hfits

theorem columnAddr_toNat (hi : i ≤ numColumns file) :
    (columnAddr mapping i).toNat = mapping.addr.toNat + (16 + size file * 8 * i) := by
  rw [columnAddr_eq]
  exact mapping.toNat_add (column_le hfits hi)

theorem region_eq (hi : i < numColumns file) : (announced mapping).region (columnAddr mapping i) =
    Set.Ico (mapping.addr.toNat + (16 + size file * 8 * i)) (mapping.addr.toNat + (16 + size file * 8 * (i + 1))) := by
  have hnext : size file * 8 * (i + 1) = size file * 8 * i + size file * 8 := Nat.mul_succ ..
  rw [Loaded.region, announced_size, columnAddr_toNat mapping hfits hi.le, hnext]
  congr 1
  omega

theorem region_subset (hi : i < numColumns file) : (announced mapping).region (columnAddr mapping i) ⊆
    Set.Ico (mapping.addr.toNat + 16) (mapping.addr.toNat + file.length) := by
  have hle : 16 + size file * 8 * (i + 1) ≤ file.length := column_le hfits hi
  rw [region_eq mapping hfits hi]
  exact Set.Ico_subset_Ico (by omega) (by omega)

theorem disjoint_regions : (announced mapping).columns.Pairwise fun a b =>
    Disjoint ((announced mapping).region a) ((announced mapping).region b) := by
  refine List.pairwise_map.mpr (List.pairwise_lt_range.imp_of_mem fun {i j} hi hj hij => ?_)
  rw [region_eq mapping hfits (List.mem_range.mp hi), region_eq mapping hfits (List.mem_range.mp hj)]
  have hnext : size file * 8 * (i + 1) ≤ size file * 8 * j := Nat.mul_le_mul_left _ hij
  refine Set.disjoint_left.mpr fun a ha hb => ?_
  have hlt := ha.2
  have hle := hb.1
  omega

theorem endAddr_eq : (announced mapping).endAddr mapping =
    mapping.addr.toNat + (16 + size file * 8 * numColumns file) := by
  cases hn : numColumns file with
  | zero => simp [Loaded.endAddr, announced, hn]
  | succ n =>
    have hlast : (announced mapping).columns.getLast? = some (columnAddr mapping n) := by
      simp [announced, hn, List.range_succ]
    have hnext : size file * 8 * (n + 1) = size file * 8 * n + size file * 8 := Nat.mul_succ ..
    rw [Loaded.endAddr, hlast, Option.elim_some, columnAddr_toNat mapping hfits (by omega), announced_size]
    omega

theorem cell_announced {row : Nat} (hi : i < numColumns file) (hrow : row < size file) :
    (announced mapping).cell mapping i row =
      some (BitVec.ofNat 64 (decode (slice (16 + (size file * 8 * i + row * 8)) 8 file))) := by
  have hcolumn : (announced mapping).columns[i]? = some (columnAddr mapping i) := by
    simp [announced, hi]
  have hle : 16 + size file * 8 * (i + 1) ≤ file.length := column_le hfits hi
  have hnext : size file * 8 * (i + 1) = size file * 8 * i + size file * 8 := Nat.mul_succ ..
  have haddr : columnAddr mapping i + BitVec.ofNat 64 row * 8#64 =
      mapping.addr + BitVec.ofNat 64 (16 + (size file * 8 * i + row * 8)) := by
    rw [columnAddr_eq, ← Nat.add_assoc, BitVec.ofNat_add _ (row * 8), BitVec.ofNat_mul row, BitVec.add_assoc]
  rw [Loaded.cell, hcolumn, Loops.bind_some, haddr]
  exact mapping.read_offset (by omega) (mapping.toNat_add (by omega))

end Fits

section Stored

variable {relation : Relation}

/-- The cells of one column, as they lie in memory. -/
def block (column : Column) : List Byte := column.flatMap fun value => encode 8 value.toNat

theorem length_block (column : Column) : (block column).length = 8 * column.length :=
  Bytes.length_flatMap fun _ _ => Bytes.length_encode ..

def header (relation : Relation) : List Byte := encode 8 relation.size ++ encode 8 relation.columns.length

theorem length_header (relation : Relation) : (header relation).length = 16 := by
  simp [header]

theorem storeRelation_eq (h : 16 + relation.size * 8 * relation.columns.length < 2 ^ 64) :
    storeRelation relation = header relation ++ relation.columns.flatMap block := by
  rw [storeRelation]
  refine congrArg (header relation ++ ·) (List.flatMap_congr fun c hc => List.take_of_length_le ?_)
  have hpos : 0 < relation.columns.length := List.length_pos_of_mem hc
  have hle : relation.size * 8 ≤ relation.size * 8 * relation.columns.length := Nat.le_mul_of_pos_right _ hpos
  have hcount : (BitVec.ofNat 64 relation.size * 8#64).toNat = relation.size * 8 := by
    rw [BitVec.toNat_mul, BitVec.toNat_ofNat, BitVec.toNat_ofNat]
    omega
  have hlen := length_block c
  rw [relation.rectangular c hc] at hlen
  rw [hcount]
  exact le_of_eq (hlen.trans (Nat.mul_comm ..))

theorem length_blocks (relation : Relation) :
    (relation.columns.flatMap block).length = relation.size * 8 * relation.columns.length :=
  Bytes.length_flatMap fun c hc => by rw [length_block, relation.rectangular c hc, Nat.mul_comm]

theorem length_storeRelation (h : 16 + relation.size * 8 * relation.columns.length < 2 ^ 64) :
    (storeRelation relation).length = 16 + relation.size * 8 * relation.columns.length := by
  rw [storeRelation_eq h, List.length_append, length_header, length_blocks]

theorem decode_encode_word {v : Nat} (h : v < 2 ^ 64) : decode (encode 8 v) = v := by
  rw [Bytes.decode_encode]
  exact Nat.mod_eq_of_lt h

theorem size_storeRelation (h : 16 + relation.size * 8 * relation.columns.length < 2 ^ 64)
    (hsize : relation.size < 2 ^ 64) : size (storeRelation relation) = relation.size := by
  have hslice : slice 0 8 (storeRelation relation) = encode 8 relation.size := by
    rw [storeRelation_eq h, header, List.append_assoc, Bytes.slice_append_left (by simp)]
    exact Bytes.slice_encode ..
  rw [size, hslice, decode_encode_word hsize]

theorem numColumns_storeRelation (h : 16 + relation.size * 8 * relation.columns.length < 2 ^ 64)
    (hcolumns : relation.columns.length < 2 ^ 32) :
    numColumns (storeRelation relation) = relation.columns.length := by
  have hslice : slice 8 8 (storeRelation relation) = encode 8 relation.columns.length := by
    have hright := Bytes.slice_append_right (n := 8) (encode 8 relation.size)
      (encode 8 relation.columns.length ++ relation.columns.flatMap block) 0
    rw [Bytes.length_encode] at hright
    rw [storeRelation_eq h, header, List.append_assoc, hright, Bytes.slice_append_left (by simp)]
    exact Bytes.slice_encode ..
  rw [numColumns, hslice, decode_encode_word (by omega)]

/-- A cell is found behind the header, the columns before its own and the rows before its own. -/
theorem slice_storeRelation (h : 16 + relation.size * 8 * relation.columns.length < 2 ^ 64) {i row : Nat}
    (hi : i < relation.columns.length) (hrow : row < relation.columns[i].length) :
    slice (16 + (relation.size * 8 * i + row * 8)) 8 (storeRelation relation) =
      encode 8 relation.columns[i][row].toNat := by
  have hsize : relation.columns[i].length = relation.size :=
    relation.rectangular _ (List.getElem_mem hi)
  have hcolumn : slice (relation.size * 8 * i + row * 8) 8 (relation.columns.flatMap block) =
      slice (row * 8) 8 (block relation.columns[i]) :=
    Bytes.slice_flatMap (fun c hc => by rw [length_block, relation.rectangular c hc, Nat.mul_comm]) hi
      (by omega)
  have hcell : slice (8 * row + 0) 8 (block relation.columns[i]) =
      slice 0 8 (encode 8 relation.columns[i][row].toNat) :=
    Bytes.slice_flatMap (fun _ _ => Bytes.length_encode ..) hrow le_rfl
  have hheader := Bytes.slice_append_right (n := 8) (header relation) (relation.columns.flatMap block)
    (relation.size * 8 * i + row * 8)
  rw [length_header] at hheader
  rw [storeRelation_eq h, hheader, hcolumn, Nat.mul_comm row]
  exact hcell.trans (Bytes.slice_encode ..)

end Stored

/-- The size is a `uint64_t`; the other bounds are on the count of columns and the length of the file. -/
theorem loadRelation_storeRelation (fileName : String) (relation : Relation) (hsize : relation.size < 2 ^ 64)
    (hcolumns : relation.columns.length < 2 ^ 32)
    (hlength : 16 + relation.size * 8 * relation.columns.length < 2 ^ 64)
    (mapping : Mapping (storeRelation relation)) :
    ∃ loaded, Loops.Returns (loadRelation fileName (.mapped mapping)) (.ok loaded) ∧
      Agrees relation mapping loaded := by
  have hs := size_storeRelation hlength hsize
  have hn := numColumns_storeRelation hlength hcolumns
  have hlen := length_storeRelation hlength
  have hend : 16 + size (storeRelation relation) * 8 * numColumns (storeRelation relation) =
      (storeRelation relation).length := by rw [hs, hn, hlen]
  refine ⟨announced mapping, loadRelation_returns fileName mapping (by omega) (hn ▸ hcolumns), ?_⟩
  constructor
  case size => rw [announced_size, hs]
  case columns => simp [announced, hn]
  case cells =>
    intro i hi row hrow
    have hrow' : row < relation.size := relation.rectangular _ (List.getElem_mem hi) ▸ hrow
    rw [cell_announced mapping hend.le (hn.symm ▸ hi) (hs.symm ▸ hrow'), hs, slice_storeRelation hlength hi hrow,
      decode_encode_word (BitVec.isLt _), BitVec.ofNat_toNat, BitVec.setWidth_eq]
  case disjoint => exact disjoint_regions mapping hend.le
  case inside =>
    intro column hc
    obtain ⟨i, hi, rfl⟩ := mem_columns.mp hc
    exact region_subset mapping hend.le hi
  case ends => rw [endAddr_eq mapping hend.le, hend]

theorem loadRelation_storeRelation_square :
    ∃ (mapping : Mapping (storeRelation ⟨2, [[1, 2], [3, 4]], by simp⟩)) (loaded : Loaded),
      Loops.Returns (loadRelation "r1" (.mapped mapping)) (.ok loaded) ∧
        Agrees ⟨2, [[1, 2], [3, 4]], by simp⟩ mapping loaded :=
  ⟨⟨4096, by decide⟩, loadRelation_storeRelation "r1" ⟨2, [[1, 2], [3, 4]], by simp⟩ (by decide) (by decide)
    (by decide) ⟨4096, by decide⟩⟩

theorem no_return_of_short (fileName : String) (mapping : Mapping file) (h : file.length < 16) (loaded : Loaded) :
    ¬ Loops.Returns (loadRelation fileName (.mapped mapping)) (.ok loaded) := by
  rintro ⟨n, hn⟩
  have hloaded := hn n le_rfl
  rw [loadRelation, if_pos h] at hloaded
  cases hloaded

/-- The 32 bits of the counter do not suffice for the announced columns. -/
theorem no_return_of_many (fileName : String) (mapping : Mapping file) (h : 16 ≤ file.length)
    (hcolumns : 2 ^ 32 ≤ numColumns file) (loaded : Loaded) :
    ¬ Loops.Returns (loadRelation fileName (.mapped mapping)) (.ok loaded) := by
  rintro ⟨n, hn⟩
  have hloaded := hn n le_rfl
  rw [loadRelation_mapped fileName mapping h, Loops.countUp_endless hcolumns] at hloaded
  cases hloaded

theorem contained_announced (mapping : Mapping file)
    (hfits : 16 + size file * 8 * numColumns file ≤ file.length) : Contained mapping (announced mapping) := by
  constructor
  case size => exact announced_size mapping
  case columns => simp [announced]
  case noWrap =>
    intro column hc
    obtain ⟨i, hi, rfl⟩ := mem_columns.mp hc
    have hnext : size file * 8 * (i + 1) = size file * 8 * i + size file * 8 := Nat.mul_succ ..
    have haddr : columnAddr mapping i + (announced mapping).size * 8#64 = columnAddr mapping (i + 1) :=
      (columnAddr_succ mapping i).symm
    have hi' : i + 1 ≤ numColumns file := hi
    rw [haddr, announced_size, columnAddr_toNat mapping hfits hi.le, columnAddr_toNat mapping hfits hi']
    omega
  case inside =>
    intro column hc row hrow
    obtain ⟨i, hi, rfl⟩ := mem_columns.mp hc
    have hle : 16 + size file * 8 * (i + 1) ≤ file.length := column_le hfits hi
    have hnext : size file * 8 * (i + 1) = size file * 8 * i + size file * 8 := Nat.mul_succ ..
    rw [announced_size] at hrow
    rw [columnAddr_toNat mapping hfits hi.le]
    omega

/-- Without a wrap-around the addresses are as far apart as the header says, so that the last cell of
the last column tells how long the file is. -/
theorem fits_of_contained {mapping : Mapping file} (hlen : 16 ≤ file.length)
    (h : Contained mapping (announced mapping)) : 16 + size file * 8 * numColumns file ≤ file.length := by
  have haddr : ∀ i ≤ numColumns file,
      (columnAddr mapping i).toNat = mapping.addr.toNat + (16 + size file * 8 * i) := by
    intro i
    induction i with
    | zero =>
      intro _
      rw [columnAddr_eq]
      exact mapping.toNat_add hlen
    | succ i ih =>
      intro hi
      have hnext : size file * 8 * (i + 1) = size file * 8 * i + size file * 8 := Nat.mul_succ ..
      have hwrap := h.noWrap _ (mem_columns.mpr ⟨i, hi, rfl⟩)
      rw [announced_size, ih (by omega)] at hwrap
      rw [columnAddr_succ]
      exact hwrap.trans (by omega)
  cases hn : numColumns file with
  | zero => exact hlen
  | succ n =>
    have hnext : size file * 8 * (n + 1) = size file * 8 * n + size file * 8 := Nat.mul_succ ..
    rcases Nat.eq_zero_or_pos (size file) with hzero | hpos
    · rw [hzero]
      omega
    · have hlast := (h.inside _ (mem_columns.mpr ⟨n, by omega, rfl⟩) (size file - 1)
        (by rw [announced_size]; omega)).2
      rw [haddr n (by omega)] at hlast
      omega

/-- What is loaded lies in the file unless the header announces more than there is. A file that is too
short or announces too many columns is never loaded. -/
theorem loaded_contained_iff (fileName : String) (file : List Byte) (mapping : Mapping file) :
    (∀ loaded, Loops.Returns (loadRelation fileName (.mapped mapping)) (.ok loaded) → Contained mapping loaded) ↔
      file.length < 16 ∨ 2 ^ 32 ≤ numColumns file ∨ 16 + size file * 8 * numColumns file ≤ file.length := by
  by_cases hlen : file.length < 16
  · exact iff_of_true (fun loaded hr => absurd hr (no_return_of_short fileName mapping hlen loaded)) (.inl hlen)
  · have hlen' : 16 ≤ file.length := by omega
    by_cases hcolumns : 2 ^ 32 ≤ numColumns file
    · exact iff_of_true (fun loaded hr => absurd hr (no_return_of_many fileName mapping hlen' hcolumns loaded))
        (.inr (.inl hcolumns))
    · have hreturns := loadRelation_returns fileName mapping hlen' (Nat.lt_of_not_le hcolumns)
      constructor
      · exact fun h => .inr (.inr (fits_of_contained hlen' (h _ hreturns)))
      · rintro (h | h | h) loaded hr
        · exact absurd h hlen
        · exact absurd h hcolumns
        · obtain rfl := Except.ok.inj (hr.unique hreturns)
          exact contained_announced mapping h

/-- A header alone, which announces one column of one row. -/
theorem not_contained : ¬ ∀ (fileName : String) (file : List Byte) (mapping : Mapping file) (loaded : Loaded),
    Loops.Returns (loadRelation fileName (.mapped mapping)) (.ok loaded) → Contained mapping loaded := by
  intro h
  have hloaded := h "r0" (encode 8 1 ++ encode 8 1) ⟨4096, by decide⟩ _
    (loadRelation_returns "r0" _ (by decide) (by decide))
  have hlast := (hloaded.inside 4112 (by decide) 0 (by decide)).2
  revert hlast
  decide

end RelationFile

end Query
