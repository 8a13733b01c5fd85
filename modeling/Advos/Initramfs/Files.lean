import Advos.Schemes.Bytes
import Advos.Schemes.Word
import Advos.Slab.Create

/-! The files of the initial RAM disk (`initramfs.c`, `sys_initexec`, `_initrd_find_file`).

    The image is at a fixed address. It starts with 128 entries of 32 bytes, and three places of the kernel walk
    them with their own copy of the loop and of the entry:

        ┌──────── name, NUL ───────┬── offset ──┬─── size ───┐
        0                          16           24           32

    `initramfs_readfile` takes a signed position in the file. It checks the end of the file only, so that a
    position before the file is read as one. -/

namespace Advos.Initramfs
open Word Bytes List
open Slab (CString charVal charVal_inj)

/-- `INITRAMFS_BASE` and `INITRD_BASE`. -/
def initramfsBase : ℕ := 0xc0030000

/-- `INITRAMFS_NUM_ENTRIES`. -/
def numEntries : ℕ := 128

/-! ### Searching -/

/-- `kstrcmp` with a string in memory. -/
def kstrcmp (mem : ℕ → UInt8) : List UInt8 → ℕ → ℤ
  | [], a => charVal 0 - charVal (mem a)
  | c :: s, a => if charVal c - charVal (mem a) ≠ 0 then charVal c - charVal (mem a) else kstrcmp mem s (a + 1)

/-- `e->u.file.offset`. -/
def entryOffset (mem : ℕ → UInt8) (e : ℕ) : ℕ := loadLE mem 8 (e + 16)

/-- `e->u.file.size`. -/
def entrySize (mem : ℕ → UInt8) (e : ℕ) : ℕ := loadLE mem 8 (e + 24)

/-- The loop over the entries from `e` on, `n` of them. -/
def search (mem : ℕ → UInt8) (path : CString) : ℕ → ℕ → Option ℕ
  | 0, _ => none
  | n + 1, e => if kstrcmp mem path.1 e = 0 then some e else search mem path n (e + 32)

/-- The entry that is found. -/
def findEntry (mem : ℕ → UInt8) (path : CString) : Option ℕ := search mem path numEntries initramfsBase

/-- `_initrd_find_file`: `*start` and `*size`; nothing stands for -1. -/
def initrdFindFile (mem : ℕ → UInt8) (fname : CString) : Option (ℕ × ℕ) :=
  (findEntry mem fname).map fun e => (add64 initramfsBase (entryOffset mem e), entrySize mem e)

/-- The search of `sys_initexec`, where a `start` of NULL means that nothing was found. -/
def initexecSearch (mem : ℕ → UInt8) (path : CString) : Option (ℕ × ℕ) :=
  match findEntry mem path with
  | none => none
  | some e =>
    if add64 initramfsBase (entryOffset mem e) = 0 then none
    else some (add64 initramfsBase (entryOffset mem e), entrySize mem e)

/-- What `initramfs_readfile` returns, and its `kmemcpy(buf, src, len)`. -/
structure Reading where
  ret : ℤ
  src : ℕ
  len : ℕ
deriving DecidableEq, Repr

/-- The addresses that are copied, and the bytes. -/
def Reading.address (r : Reading) (i : ℕ) : ℕ := (r.src + i) % 2 ^ 64

def Reading.bytes (r : Reading) (mem : ℕ → UInt8) : List UInt8 := (List.range r.len).map fun i => mem (r.address i)

/-- `initramfs_readfile` with a buffer of `size` bytes. -/
def initramfsReadfile (mem : ℕ → UInt8) (path : CString) (size : ℕ) (off : ℤ) : Reading :=
  match findEntry mem path with
  | none => ⟨-1, 0, 0⟩
  | some e =>
    let ptr := add64 initramfsBase (entryOffset mem e)
    if wrap64 (entrySize mem e) ≤ off then ⟨0, 0, 0⟩
    else if sub64 (entrySize mem e) (toWord64 off) > size then ⟨wrap64 size, add64 ptr (toWord64 off), size⟩
    else ⟨wrap64 (sub64 (entrySize mem e) (toWord64 off)), add64 ptr (toWord64 off),
      sub64 (entrySize mem e) (toWord64 off)⟩

section Search
variable {mem : ℕ → UInt8} {path : CString} {a e n : ℕ}

theorem charVal_sub_eq_zero {x y : UInt8} : charVal x - charVal y = 0 ↔ y = x := by
  rw [sub_eq_zero]
  exact ⟨fun h => (charVal_inj h).symm, fun h => by rw [h]⟩

/-- NAMES: the comparison succeeds where the string is stored with its NUL. -/
theorem kstrcmp_eq_zero_iff (s : List UInt8) : kstrcmp mem s a = 0 ↔ Stored mem a (s ++ [0]) := by
  induction s generalizing a with
  | nil =>
    rw [kstrcmp, nil_append, stored_cons]
    exact charVal_sub_eq_zero.trans ⟨fun h => ⟨h, stored_nil⟩, And.left⟩
  | cons c s ih =>
    rw [kstrcmp, cons_append, stored_cons, ← ih]
    by_cases hc : charVal c - charVal (mem a) = 0
    · simp [charVal_sub_eq_zero.mp hc]
    · rw [if_pos hc]
      exact ⟨fun h => absurd h hc, fun h => absurd (charVal_sub_eq_zero.mpr h.1) hc⟩

theorem search_eq_some {e' : ℕ} (h : search mem path n e = some e') :
    ∃ i, i < n ∧ e' = e + 32 * i ∧ Stored mem e' (path.1 ++ [0]) := by
  induction n generalizing e with
  | zero => cases h
  | succ n ih =>
    rw [search] at h
    split at h
    · next hcmp =>
      cases h
      exact ⟨0, by omega, rfl, (kstrcmp_eq_zero_iff _).mp hcmp⟩
    · obtain ⟨i, hi, rfl, hstored⟩ := ih h
      exact ⟨i + 1, by omega, by omega, hstored⟩

theorem search_eq_none (h : search mem path n e = none) {i : ℕ} (hi : i < n) :
    ¬ Stored mem (e + 32 * i) (path.1 ++ [0]) := by
  induction n generalizing e i with
  | zero => omega
  | succ n ih =>
    rw [search] at h
    split at h
    · cases h
    · next hcmp =>
      cases i with
      | zero => exact fun hs => hcmp ((kstrcmp_eq_zero_iff _).mpr hs)
      | succ i =>
        have heq : e + 32 * (i + 1) = e + 32 + 32 * i := by ring
        rw [heq]
        exact ih h (by omega)

end Search

/-! ### Reading -/

/-- An image in memory: all its files are inside of it, and no file is too long for an `off_t`. -/
structure Image (mem : ℕ → UInt8) (length : ℕ) : Prop where
  inMemory : initramfsBase + length ≤ 2 ^ 64
  inside : ∀ i, i < numEntries →
    entryOffset mem (initramfsBase + 32 * i) + entrySize mem (initramfsBase + 32 * i) ≤ length
  size_lt : ∀ i, i < numEntries → entrySize mem (initramfsBase + 32 * i) < 2 ^ 63

/-- The address of byte `i` of a file. -/
def contentAt (mem : ℕ → UInt8) (e i : ℕ) : ℕ := initramfsBase + entryOffset mem e + i

/-- The content of a file. -/
def content (mem : ℕ → UInt8) (e : ℕ) : List UInt8 := (List.range (entrySize mem e)).map fun i => mem (contentAt mem e i)

/-- The bytes from `off` on that fit into the buffer, nothing behind the end, and never a byte that is not the file's. -/
structure Slice (mem : ℕ → UInt8) (e size : ℕ) (off : ℤ) (r : Reading) : Prop where
  exact : 0 ≤ off → off < entrySize mem e →
    r.bytes mem = ((content mem e).drop off.toNat).take size ∧ r.ret = (r.bytes mem).length
  past : entrySize mem e ≤ off → r.ret = 0
  within : ∀ i, i < r.len → ∃ j, j < entrySize mem e ∧ r.address i = contentAt mem e j

section Reading
variable {mem : ℕ → UInt8} {path : CString} {e size length : ℕ} {off : ℤ}

/-- What is copied: as much as fits of what is left, from position `off` on. -/
theorem initramfsReadfile_eq (hfound : findEntry mem path = some e) (hsize : entrySize mem e < 2 ^ 63)
    (hoff : -2 ^ 63 ≤ off ∧ off < 2 ^ 63) : initramfsReadfile mem path size off =
      if entrySize mem e ≤ off then ⟨0, 0, 0⟩
      else ⟨wrap64 (min size (entrySize mem e - off).toNat : ℕ),
        add64 (add64 initramfsBase (entryOffset mem e)) (toWord64 off), min size (entrySize mem e - off).toNat⟩ := by
  have hwrap : wrap64 (entrySize mem e) = entrySize mem e := wrap64_of_range (by omega) (by omega)
  rw [initramfsReadfile, hfound]
  simp only [hwrap]
  by_cases hpast : (entrySize mem e : ℤ) ≤ off
  · rw [if_pos hpast, if_pos hpast]
  · have hsub : sub64 (entrySize mem e) (toWord64 off) = (entrySize mem e - off).toNat := by
      rw [sub64, toWord64]
      omega
    rw [if_neg hpast, if_neg hpast, hsub]
    by_cases hfull : (entrySize mem e - off).toNat > size
    · rw [if_pos hfull, Nat.min_eq_left (by omega)]
    · rw [if_neg hfull, Nat.min_eq_right (by omega)]

theorem findEntry_eq_some (hfound : findEntry mem path = some e) :
    ∃ i, i < numEntries ∧ e = initramfsBase + 32 * i ∧ Stored mem e (path.1 ++ [0]) := search_eq_some hfound

theorem address_inside {ret : ℤ} {len i : ℕ} (hfits : initramfsBase + entryOffset mem e + entrySize mem e ≤ 2 ^ 64)
    (h0 : 0 ≤ off) (hi : off + i < entrySize mem e) :
    (Reading.mk ret (add64 (add64 initramfsBase (entryOffset mem e)) (toWord64 off)) len).address i =
      contentAt mem e (off.toNat + i) := by
  simp only [Reading.address, contentAt, add64, toWord64]
  omega

theorem address_before {ret : ℤ} {len j : ℕ} (hsize : entrySize mem e < 2 ^ 63) (hoff : -2 ^ 63 ≤ off ∧ off < 0) (hj : j < entrySize mem e) :
    (Reading.mk ret (add64 (add64 initramfsBase (entryOffset mem e)) (toWord64 off)) len).address 0 ≠
      contentAt mem e j := by
  simp only [Reading.address, contentAt, add64, toWord64]
  omega

/-- INSIDE: the slice is right, and complete. -/
theorem reading_exact {ret : ℤ} (hfits : initramfsBase + entryOffset mem e + entrySize mem e ≤ 2 ^ 64)
    (h0 : 0 ≤ off) (hoff : off < entrySize mem e) :
    (Reading.mk ret (add64 (add64 initramfsBase (entryOffset mem e)) (toWord64 off))
        (min size (entrySize mem e - off).toNat)).bytes mem =
      ((content mem e).drop off.toNat).take size := by
  apply ext_getElem
  · simp only [Reading.bytes, content, length_map, length_range, length_take, length_drop]
    omega
  · intro i hi _
    simp only [Reading.bytes, length_map, length_range] at hi
    simp only [Reading.bytes, content, getElem_map, getElem_range, getElem_take, getElem_drop]
    rw [address_inside hfits h0 (by omega)]

theorem Image.entry (himage : Image mem length) (hfound : findEntry mem path = some e) :
    initramfsBase + entryOffset mem e + entrySize mem e ≤ 2 ^ 64 ∧ entrySize mem e < 2 ^ 63 := by
  obtain ⟨k, hk, rfl, -⟩ := findEntry_eq_some hfound
  have hinside := himage.inside k hk
  have hmem := himage.inMemory
  exact ⟨by omega, himage.size_lt k hk⟩

/-- BEFORE: the first byte is not one of the file. -/
theorem not_slice_before (himage : Image mem length) (hfound : findEntry mem path = some e)
    (hoff : -2 ^ 63 ≤ off ∧ off < 0) (hsize : 0 < size) :
    ¬ Slice mem e size off (initramfsReadfile mem path size off) := by
  obtain ⟨-, hlt⟩ := himage.entry hfound
  rw [initramfsReadfile_eq hfound hlt (by omega), if_neg (by omega)]
  intro h
  obtain ⟨j, hj, haddr⟩ := h.within 0 (by simp only; omega)
  exact address_before hlt hoff hj haddr

/-- SLICES: a read is right when it does not start before the file, or has no buffer. -/
theorem readfile_slice_iff (himage : Image mem length) (hfound : findEntry mem path = some e) (hsize : size < 2 ^ 64)
    (hoff : -2 ^ 63 ≤ off ∧ off < 2 ^ 63) :
    Slice mem e size off (initramfsReadfile mem path size off) ↔ 0 ≤ off ∨ size = 0 := by
  obtain ⟨hfits, hlt⟩ := himage.entry hfound
  constructor
  · intro h
    by_contra hcon
    exact not_slice_before himage hfound (by omega) (by omega) h
  · intro h
    rw [initramfsReadfile_eq hfound hlt hoff]
    by_cases hpast : (entrySize mem e : ℤ) ≤ off
    · rw [if_pos hpast]
      exact ⟨fun _ h => by omega, fun _ => rfl, fun i hi => by simp at hi⟩
    rw [if_neg hpast]
    rcases h with h0 | rfl
    · refine ⟨fun _ _ => ⟨reading_exact hfits h0 (by omega), ?_⟩, fun h => by omega, fun i hi => ?_⟩
      · simp only [Reading.bytes, List.length_map, List.length_range]
        exact wrap64_of_range (by omega) (by omega)
      · simp only at hi
        exact ⟨off.toNat + i, by omega, address_inside hfits h0 (by omega)⟩
    · rw [Nat.zero_min]
      refine ⟨fun _ _ => ?_, fun h => by omega, fun i hi => by simp at hi⟩
      simp [Reading.bytes, wrap64]

end Reading

/-- An image with one file, "a", of one byte. -/
def oneFile (a : ℕ) : UInt8 :=
  if a = initramfsBase then 97
  else if a = initramfsBase + 17 then 16
  else if a = initramfsBase + 24 then 1
  else if a = initramfsBase + 4096 then 98
  else 0

def oneName : CString := ⟨[97], by decide⟩

theorem oneFile_image : Image oneFile 4097 := by
  have hentries : ∀ i, i < numEntries → entryOffset oneFile (initramfsBase + 32 * i) +
      entrySize oneFile (initramfsBase + 32 * i) ≤ 4097 ∧ entrySize oneFile (initramfsBase + 32 * i) ≤ 1 := by
    decide +kernel
  refine ⟨by decide, fun i hi => (hentries i hi).1, fun i hi => ?_⟩
  have := (hentries i hi).2
  omega

theorem oneFile_found : findEntry oneFile oneName = some initramfsBase := by decide

theorem readfile_slice_iff_one_byte :
    Slice oneFile initramfsBase 1 0 (initramfsReadfile oneFile oneName 1 0) ↔ (0 : ℤ) ≤ 0 ∨ 1 = 0 :=
  readfile_slice_iff oneFile_image oneFile_found (by norm_num) (by norm_num)

/-- The byte before the file is copied. -/
theorem reads_before_file :
    Image oneFile 4097 ∧ findEntry oneFile oneName = some initramfsBase ∧
      ¬ Slice oneFile initramfsBase 1 (-1) (initramfsReadfile oneFile oneName 1 (-1)) :=
  ⟨oneFile_image, oneFile_found, not_slice_before oneFile_image oneFile_found (by norm_num) (by norm_num)⟩

end Advos.Initramfs
