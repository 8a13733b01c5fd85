import Advos.Initramfs.Files

/-! The image that `create_initrd.sh` writes, and what the kernel finds in it.

    The script keeps 4096 bytes of zeros for the entries and appends the files. A name is written first, the offset
    and the size after it, over whatever a long name left there:

        entry   name, NUL ────────────────▶ (up to 31 bytes)
                                  offset, size (bytes 16 to 31)

    The check lets names of up to 30 bytes pass, and the field has 16. Entries that are not used have an empty name,
    so the empty name is found in every image that is not full. -/

namespace Advos.Initramfs
open Word Bytes List
open Slab (CString)

/-! ### Writing the image -/

/-- A file to archive: its name, as `printf` writes it, and its bytes. -/
structure File where
  name : CString
  data : List UInt8

/-- One round of the loop of `create_initrd.sh`; nothing stands for `exit -1`. -/
def addFile (entry : ℕ) (file : File) (outfile : List UInt8) : Option (List UInt8) :=
  let offset := outfile.length
  let fsize := file.data.length
  if file.name.1.length ≥ 31 then none
  else
    let named := overlay outfile (entry * 32) (file.name.1 ++ [0])
    let placed := overlay named (entry * 32 + 16) (toLE 8 offset)
    let sized := overlay placed (entry * 32 + 24) (toLE 8 fsize)
    some (overlay sized offset file.data)

/-- The loop over the arguments. -/
def addFiles : ℕ → List File → List UInt8 → Option (List UInt8)
  | _, [], outfile => some outfile
  | entry, file :: files, outfile => (addFile entry file outfile).bind (addFiles (entry + 1) files)

/-- `create_initrd.sh`. -/
def createInitrd (files : List File) : Option (List UInt8) := addFiles 0 files (List.replicate 4096 0)

/-! ### The entries -/

/-- The bytes of the files before number `i`. -/
def dataBefore (files : List File) (i : ℕ) : ℕ := ((files.take i).map fun f => f.data.length).sum

/-- Where file number `i` begins. -/
def offsetOf (files : List File) (i : ℕ) : ℕ := 4096 + dataBefore files i

/-- An entry as it is in the end. -/
def entryBytes (name : List UInt8) (offset size : ℕ) : List UInt8 :=
  (name ++ List.replicate 16 0).take 16 ++ (toLE 8 offset ++ toLE 8 size)

theorem nameField_length (name : List UInt8) : ((name ++ List.replicate 16 0).take 16).length = 16 := by
  rw [length_take, length_append, length_replicate]
  omega

theorem entryBytes_length (name : List UInt8) (offset size : ℕ) : (entryBytes name offset size).length = 32 := by
  rw [entryBytes, length_append, length_append, nameField_length, toLE_length, toLE_length]

/-- The image after some files: their entries and their bytes, and zeros in the rest of the table. -/
structure Written (files : List File) (outfile : List UInt8) : Prop where
  length : outfile.length = offsetOf files files.length
  entry : ∀ i f, files[i]? = some f →
    Stored (byteAt outfile) (i * 32) (entryBytes f.name.1 (offsetOf files i) f.data.length)
  data : ∀ i f, files[i]? = some f → Stored (byteAt outfile) (offsetOf files i) f.data
  inside : ∀ i f, files[i]? = some f → offsetOf files i + f.data.length ≤ outfile.length
  unused : ∀ a, files.length * 32 ≤ a → a < 4096 → byteAt outfile a = 0

section Written
variable {files : List File} {file : File} {outfile outfile' : List UInt8} {i : ℕ}

theorem written_nil : Written [] (List.replicate 4096 0) := by
  refine ⟨length_replicate, fun i f h => by simp at h, fun i f h => by simp at h,
    fun i f h => by simp at h, fun a _ ha => ?_⟩
  rw [byteAt, getD_eq_getElem?_getD, List.getElem?_replicate, if_pos ha]
  rfl

theorem offsetOf_append (h : i ≤ files.length) : offsetOf (files ++ [file]) i = offsetOf files i := by
  rw [offsetOf, offsetOf, dataBefore, dataBefore, take_append_of_le_length h]

theorem offsetOf_length_append :
    offsetOf (files ++ [file]) (files.length + 1) = offsetOf files files.length + file.data.length := by
  have hall : (files ++ [file]).take (files.length + 1) = files ++ [file] := take_of_length_le (by simp)
  rw [offsetOf, offsetOf, dataBefore, dataBefore, hall, take_length]
  simp [add_assoc]

/-- What holds of each of the files and of one more holds of all of them. -/
theorem forall_getElem?_append {P : ℕ → File → Prop} (h : ∀ i f, files[i]? = some f → P i f)
    (hlast : P files.length file) : ∀ i f, (files ++ [file])[i]? = some f → P i f := by
  intro i f hi
  rcases getElem?_append_singleton hi with hi | ⟨rfl, rfl⟩
  · exact h i f hi
  · exact hlast

/-- The name field: the first 16 bytes of the name, or all of it and zeros. -/
theorem stored_name {n : ℕ} {name : List UInt8} (hzero : ∀ a, n * 32 ≤ a → a < n * 32 + 16 → byteAt outfile a = 0) :
    Stored (byteAt (overlay outfile (n * 32) (name ++ [0]))) (n * 32) ((name ++ List.replicate 16 0).take 16) := by
  intro i c h
  rw [List.getElem?_take] at h
  split at h
  · next hi =>
    rw [byteAt_overlay, length_append, length_singleton]
    rcases Nat.lt_or_ge i name.length with hlt | hge
    · rw [List.getElem?_append_left hlt] at h
      rw [if_pos (by omega), Nat.add_sub_cancel_left, getD_append _ _ _ _ hlt, getD_eq_getElem?_getD, h]
      rfl
    · rw [List.getElem?_append_right hge, List.getElem?_replicate, if_pos (by omega)] at h
      cases h
      split
      · rw [Nat.add_sub_cancel_left, getD_append_right _ _ _ _ hge]
        have : i - name.length = 0 := by omega
        rw [this]
        rfl
      · exact hzero _ (by omega) (by omega)
  · cases h

/-- STEP: one more file. -/
theorem Written.addFile (h : Written files outfile) (hroom : files.length < numEntries)
    (hadd : addFile files.length file outfile = some outfile') :
    file.name.1.length ≤ 30 ∧ Written (files ++ [file]) outfile' := by
  have hlen := h.length
  have hoffset : 4096 ≤ outfile.length := by rw [hlen, offsetOf]; omega
  have hn : files.length * 32 + 32 ≤ 4096 := by rw [numEntries] at hroom; omega
  rw [Initramfs.addFile] at hadd
  simp only at hadd
  split at hadd
  · cases hadd
  · next hname =>
    cases hadd
    have hnul : (file.name.1 ++ [0]).length ≤ 31 := by rw [length_append, length_singleton]; omega
    have hle := toLE_length 8
    have hle1 := hle outfile.length
    have hle2 := hle file.data.length
    refine ⟨by omega, ?_, ?_, ?_, ?_, ?_⟩
    · simp only [overlay_length, hle, length_append, length_singleton, offsetOf_length_append]
      simp only [length_append, length_singleton] at hnul
      omega
    · apply forall_getElem?_append
      · intro i f hi
        have hilt : i < files.length := (List.getElem?_eq_some_iff.mp hi).1
        have hentry := h.entry i f hi
        have hbytes := entryBytes_length f.name.1 (offsetOf files i) f.data.length
        rw [offsetOf_append (by omega)]
        refine (((hentry.overlay ?_).overlay ?_).overlay ?_).overlay ?_ <;> omega
      · have hfield := nameField_length file.name.1
        have hstored : Stored (byteAt (overlay outfile (files.length * 32) (file.name.1 ++ [0])))
            (files.length * 32) ((file.name.1 ++ List.replicate 16 0).take 16) :=
          stored_name fun a ha ha' => h.unused a ha (by omega)
        rw [offsetOf_append (le_refl _), ← hlen, entryBytes, stored_append, stored_append, hfield, hle]
        refine ⟨((hstored.overlay ?_).overlay ?_).overlay ?_, (stored_overlay.overlay ?_).overlay ?_,
          stored_overlay.overlay ?_⟩ <;> omega
    · apply forall_getElem?_append
      · intro i f hi
        have hilt : i < files.length := (List.getElem?_eq_some_iff.mp hi).1
        have hinside := h.inside i f hi
        have htable : 4096 ≤ offsetOf files i := Nat.le_add_right _ _
        rw [offsetOf_append (by omega)]
        refine ((((h.data i f hi).overlay ?_).overlay ?_).overlay ?_).overlay ?_ <;> omega
      · rw [offsetOf_append (le_refl _), ← hlen]
        exact stored_overlay
    · apply forall_getElem?_append
      · intro i f hi
        have hilt : i < files.length := (List.getElem?_eq_some_iff.mp hi).1
        have hinside := h.inside i f hi
        rw [offsetOf_append (by omega)]
        simp only [overlay_length]
        omega
      · rw [offsetOf_append (le_refl _), ← hlen]
        simp only [overlay_length]
        omega
    · intro a ha ha'
      rw [length_append, length_singleton] at ha
      rw [byteAt_overlay, if_neg (by omega), byteAt_overlay, if_neg (by omega), byteAt_overlay, if_neg (by omega),
        byteAt_overlay, if_neg (by omega)]
      exact h.unused a (by omega) ha'

/-- RUN: the image has all files. -/
theorem Written.addFiles {done : List File} (h : Written done outfile)
    (hroom : done.length + files.length ≤ numEntries) (hadd : addFiles done.length files outfile = some outfile') :
    (∀ f ∈ files, f.name.1.length ≤ 30) ∧ Written (done ++ files) outfile' := by
  induction files generalizing done outfile with
  | nil =>
    cases hadd
    rw [append_nil]
    exact ⟨fun f hf => by simp at hf, h⟩
  | cons file files ih =>
    rw [length_cons] at hroom
    obtain ⟨mid, hmid, hrest⟩ := Option.bind_eq_some_iff.mp hadd
    obtain ⟨hname, h1⟩ := h.addFile (by omega) hmid
    have hlen : (done ++ [file]).length = done.length + 1 := by rw [length_append, length_singleton]
    obtain ⟨hnames, h2⟩ := ih h1 (by omega) (by rwa [hlen])
    rw [← append_cons] at h2
    exact ⟨forall_mem_cons.mpr ⟨hname, hnames⟩, h2⟩

theorem createInitrd_written (hroom : files.length ≤ numEntries) (h : createInitrd files = some outfile) :
    (∀ f ∈ files, f.name.1.length ≤ 30) ∧ Written files outfile :=
  written_nil.addFiles (by simpa using hroom) h

end Written

/-! ### Finding the files -/

/-- The image is at its place in memory. -/
def Loaded (mem : ℕ → UInt8) (image : List UInt8) : Prop :=
  ∀ i, i < image.length → mem (initramfsBase + i) = byteAt image i

/-- The name of an entry reads back: it fits, or what is over it happens to be the rest of the name and a NUL. -/
def NameFits (f : File) (offset : ℕ) : Prop :=
  f.name.1.length ≤ 15 ∨ f.name.1.drop 16 ++ [0] <+: toLE 8 offset ++ toLE 8 f.data.length

/-- All three searches find the file, and a read of all of it returns its bytes. -/
structure Resolves (mem : ℕ → UInt8) (f : File) (offset : ℕ) : Prop where
  findFile : initrdFindFile mem f.name = some (initramfsBase + offset, f.data.length)
  initexec : initexecSearch mem f.name = some (initramfsBase + offset, f.data.length)
  readfile : (initramfsReadfile mem f.name f.data.length 0).ret = f.data.length ∧
    (initramfsReadfile mem f.name f.data.length 0).bytes mem = f.data
  data : Stored mem (initramfsBase + offset) f.data

structure NotFound (mem : ℕ → UInt8) (s : CString) : Prop where
  findFile : initrdFindFile mem s = none
  initexec : initexecSearch mem s = none
  readfile : ∀ size off, (initramfsReadfile mem s size off).ret = -1

/-- Every archived name leads to its file, and no other string leads anywhere. -/
structure RoundTrip (mem : ℕ → UInt8) (files : List File) : Prop where
  archived : ∀ i f, files[i]? = some f → Resolves mem f (offsetOf files i)
  other : ∀ s, s ∉ files.map File.name → NotFound mem s

section Find
variable {mem : ℕ → UInt8} {files : List File} {f : File} {image : List UInt8} {i e offset : ℕ} {s : CString}

theorem Loaded.stored {a : ℕ} {l : List UInt8} (h : Loaded mem image) (hl : Stored (byteAt image) a l)
    (hlen : a + l.length ≤ image.length) : Stored mem (initramfsBase + a) l := by
  intro i c hi
  have hlt : i < l.length := (List.getElem?_eq_some_iff.mp hi).1
  rw [add_assoc, h _ (by omega)]
  exact hl i c hi

/-- An entry of the image, in memory. -/
structure InTable (mem : ℕ → UInt8) (f : File) (offset e : ℕ) : Prop where
  entry : Stored mem e (entryBytes f.name.1 offset f.data.length)
  data : Stored mem (initramfsBase + offset) f.data
  offset_eq : entryOffset mem e = offset
  size_eq : entrySize mem e = f.data.length
  fits : offset + f.data.length < 2 ^ 63

theorem Written.inTable (h : Written files image) (hloaded : Loaded mem image) (hlen : image.length < 2 ^ 63)
    (hroom : files.length ≤ numEntries) (hi : files[i]? = some f) :
    InTable mem f (offsetOf files i) (initramfsBase + 32 * i) := by
  have hilt : i < files.length := (List.getElem?_eq_some_iff.mp hi).1
  have hinside := h.inside i f hi
  have htable : 4096 ≤ offsetOf files i := Nat.le_add_right _ _
  have hbytes := entryBytes_length f.name.1 (offsetOf files i) f.data.length
  rw [numEntries] at hroom
  have hentry : Stored mem (initramfsBase + 32 * i) (entryBytes f.name.1 (offsetOf files i) f.data.length) := by
    rw [mul_comm 32]
    exact hloaded.stored (h.entry i f hi) (by omega)
  have hwords := hentry
  rw [entryBytes, stored_append, stored_append, nameField_length, toLE_length] at hwords
  exact ⟨hentry, hloaded.stored (h.data i f hi) hinside, loadLE_stored hwords.2.1 (by norm_num; omega),
    loadLE_stored hwords.2.2 (by norm_num; omega), by omega⟩

/-- NAME FIELD: the archived name is stored with a NUL when it fits. -/
theorem InTable.name_iff (h : InTable mem f offset e) (hname : f.name.1.length ≤ 30) :
    Stored mem e (f.name.1 ++ [0]) ↔ NameFits f offset := by
  have hbytes := entryBytes_length f.name.1 offset f.data.length
  rw [h.entry.isPrefix_iff (by rw [hbytes, length_append, length_singleton]; omega), NameFits, entryBytes]
  by_cases hshort : f.name.1.length ≤ 15
  · obtain ⟨k, hk⟩ : ∃ k, 16 - f.name.1.length = k + 1 := ⟨15 - f.name.1.length, by omega⟩
    have htake : (f.name.1 ++ List.replicate 16 0).take 16 = f.name.1 ++ ([0] ++ List.replicate k 0) := by
      rw [take_append, take_of_length_le (by omega), take_replicate, Nat.min_eq_left (by omega), hk]
      rfl
    rw [htake]
    refine ⟨fun _ => .inl hshort, fun _ => ⟨List.replicate k 0 ++ (toLE 8 offset ++ toLE 8 f.data.length), ?_⟩⟩
    simp only [append_assoc]
  · have htake : (f.name.1 ++ List.replicate 16 0).take 16 = f.name.1.take 16 :=
      take_append_of_le_length (by omega)
    have hsplit : f.name.1 ++ [0] = f.name.1.take 16 ++ (f.name.1.drop 16 ++ [0]) := by
      rw [← append_assoc, take_append_drop]
    rw [htake, hsplit, prefix_append_right_inj]
    simp [hshort]

/-- An entry with the same offset and size under which the name is found shows that the name fits. -/
theorem InTable.nameFits {g : File} (h : InTable mem g offset e) (hsize : g.data.length = f.data.length)
    (hname : f.name.1.length ≤ 30) (hstored : Stored mem e (f.name.1 ++ [0])) : NameFits f offset := by
  have hbytes := entryBytes_length g.name.1 offset g.data.length
  have hprefix := (h.entry.isPrefix_iff (by rw [hbytes, length_append, length_singleton]; omega)).mp hstored
  by_cases hshort : f.name.1.length ≤ 15
  · exact .inl hshort
  · have hdrop := hprefix.drop 16
    rw [entryBytes, drop_append_of_le_length (by omega), drop_left' (nameField_length _), hsize] at hdrop
    exact .inr hdrop

theorem Written.finds_empty (h : Written files image) (hloaded : Loaded mem image) (hfree : files.length < numEntries)
    (hs : s.1 = []) : findEntry mem s ≠ none := by
  intro hnone
  rw [numEntries] at hfree
  have hlen : 4096 ≤ image.length := by rw [h.length, offsetOf]; omega
  refine search_eq_none hnone hfree ?_
  rw [hs, nil_append, stored_cons, hloaded _ (by omega)]
  exact ⟨h.unused _ (by omega) (by omega), stored_nil⟩

theorem InTable.resolves (h : InTable mem f offset e) (hfound : findEntry mem f.name = some e) :
    Resolves mem f offset := by
  have hfits := h.fits
  have hstart : add64 initramfsBase (entryOffset mem e) = initramfsBase + offset := by
    rw [h.offset_eq, add64_of_lt (by rw [initramfsBase]; omega)]
  have hcontent : content mem e = f.data := by
    apply ext_getElem
    · rw [content, length_map, length_range, h.size_eq]
    · intro i hi hi'
      simp only [content, getElem_map, getElem_range, contentAt, h.offset_eq]
      exact h.data i _ (List.getElem?_eq_getElem hi')
  refine ⟨?_, ?_, ?_, h.data⟩
  · rw [initrdFindFile, hfound, Option.map_some, hstart, h.size_eq]
  · rw [initexecSearch, hfound]
    simp only [hstart, h.size_eq]
    rw [if_neg (by rw [initramfsBase]; omega)]
  · have hret : wrap64 f.data.length = f.data.length := wrap64_of_range (by omega) (by omega)
    rw [initramfsReadfile_eq hfound (by rw [h.size_eq]; omega) (by norm_num)]
    by_cases hempty : f.data = []
    · rw [if_pos (by rw [h.size_eq, hempty]; rfl), hempty]
      exact ⟨rfl, rfl⟩
    · have hpos : 0 < f.data.length := length_pos_of_ne_nil hempty
      have hmin : min f.data.length ((entrySize mem e : ℤ) - 0).toNat = f.data.length := by
        rw [h.size_eq]
        omega
      rw [if_neg (by rw [h.size_eq]; omega)]
      refine ⟨by simpa only [hmin] using hret, ?_⟩
      rw [reading_exact (by rw [h.offset_eq, h.size_eq, initramfsBase]; omega) (le_refl _) (by rw [h.size_eq]; omega),
        hcontent, Int.toNat_zero, drop_zero, take_length]

theorem notFound_of_none (h : findEntry mem s = none) : NotFound mem s := by
  refine ⟨by rw [initrdFindFile, h, Option.map_none], by rw [initexecSearch, h], fun size off => ?_⟩
  rw [initramfsReadfile, h]

/-- ROUND TRIP: the table is full and all names read back. -/
theorem archive_round_trip_iff (hroom : files.length ≤ numEntries) (hdistinct : (files.map File.name).Nodup)
    (hnonempty : ∀ f ∈ files, f.name.1 ≠ []) (hcreate : createInitrd files = some image)
    (hlen : image.length < 2 ^ 63) (hloaded : Loaded mem image) :
    RoundTrip mem files ↔
      files.length = numEntries ∧ ∀ i f, files[i]? = some f → NameFits f (offsetOf files i) := by
  obtain ⟨hnames, hwritten⟩ := createInitrd_written hroom hcreate
  have htable : ∀ {i f}, files[i]? = some f → InTable mem f (offsetOf files i) (initramfsBase + 32 * i) :=
    fun hi => hwritten.inTable hloaded hlen hroom hi
  constructor
  · intro h
    have hfull : files.length = numEntries := by
      by_contra hne
      have hempty : (⟨[], List.not_mem_nil⟩ : CString) ∉ files.map File.name := by
        intro hmem
        obtain ⟨f, hf, hname⟩ := List.mem_map.mp hmem
        exact hnonempty f hf (congrArg Subtype.val hname)
      have hnone := (h.other _ hempty).findFile
      rw [initrdFindFile, Option.map_eq_none_iff] at hnone
      exact hwritten.finds_empty hloaded (by omega) rfl hnone
    refine ⟨hfull, fun i f hi => ?_⟩
    -- the entry that is found for the name has the same offset and size
    have hfind := (h.archived i f hi).findFile
    rw [initrdFindFile, Option.map_eq_some_iff] at hfind
    obtain ⟨e, hfound, heq⟩ := hfind
    obtain ⟨j, hj, rfl, hstored⟩ := findEntry_eq_some hfound
    obtain ⟨g, hg⟩ : ∃ g, files[j]? = some g := ⟨_, List.getElem?_eq_getElem (by omega)⟩
    have hg := htable hg
    have hf := htable hi
    have hgfits := hg.fits
    have hffits := hf.fits
    rw [hg.offset_eq, hg.size_eq, Prod.mk.injEq, add64_of_lt (by rw [initramfsBase]; omega)] at heq
    have hoffset : offsetOf files j = offsetOf files i := by omega
    rw [hoffset] at hg
    exact hg.nameFits heq.2 (hnames f (List.mem_of_getElem? hi)) hstored
  · rintro ⟨hfull, hfit⟩
    have hstored : ∀ {i f}, files[i]? = some f → Stored mem (initramfsBase + 32 * i) (f.name.1 ++ [0]) :=
      fun hi => ((htable hi).name_iff (hnames _ (List.mem_of_getElem? hi))).mpr (hfit _ _ hi)
    -- whatever is found is the file of that name
    have hunique : ∀ {s e}, findEntry mem s = some e →
        ∃ j g, files[j]? = some g ∧ e = initramfsBase + 32 * j ∧ s = g.name := by
      intro s e hfound
      obtain ⟨j, hj, rfl, hs⟩ := findEntry_eq_some hfound
      obtain ⟨g, hg⟩ : ∃ g, files[j]? = some g := ⟨_, List.getElem?_eq_getElem (by omega)⟩
      exact ⟨j, g, hg, rfl, Subtype.ext (stored_nul_unique s.2 g.name.2 hs (hstored hg))⟩
    refine ⟨fun i f hi => ?_, fun s hs => ?_⟩
    · have hilt : i < files.length := (List.getElem?_eq_some_iff.mp hi).1
      cases hfound : findEntry mem f.name with
      | none => exact absurd (hstored hi) (search_eq_none hfound (by omega))
      | some e =>
        obtain ⟨j, g, hg, rfl, hname⟩ := hunique hfound
        have hij : i = j := by
          refine (List.getElem?_inj (by rwa [List.length_map]) hdistinct).mp ?_
          rw [List.getElem?_map, List.getElem?_map, hi, hg, Option.map_some, Option.map_some, hname]
        subst hij
        exact (htable hi).resolves hfound
    · apply notFound_of_none
      cases hfound : findEntry mem s with
      | none => rfl
      | some e =>
        obtain ⟨j, g, hg, -, rfl⟩ := hunique hfound
        exact absurd (List.mem_map_of_mem (List.mem_of_getElem? hg)) hs

end Find

/-- The file "a" of one byte, and the image with it alone. -/
def oneByte : File := ⟨oneName, [98]⟩

def oneArchive : List UInt8 :=
  overlay (overlay (overlay (overlay (List.replicate 4096 0) 0 [97, 0]) 16 (toLE 8 4096)) 24 (toLE 8 1)) 4096 [98]

theorem oneArchive_created : createInitrd [oneByte] = some oneArchive := by
  have hlen : (List.replicate 4096 (0 : UInt8)).length = 4096 := length_replicate
  rw [createInitrd, addFiles, addFile, hlen]
  rfl

theorem oneArchive_length : oneArchive.length < 2 ^ 63 := by
  simp only [oneArchive, overlay_length, toLE_length, length_replicate, length_cons, length_nil]
  norm_num

theorem oneArchive_loaded : Loaded (fun a => byteAt oneArchive (a - initramfsBase)) oneArchive := by
  intro i _
  simp only [Nat.add_sub_cancel_left]

theorem archive_round_trip_iff_one_byte :
    RoundTrip (fun a => byteAt oneArchive (a - initramfsBase)) [oneByte] ↔
      [oneByte].length = numEntries ∧ ∀ i f, [oneByte][i]? = some f → NameFits f (offsetOf [oneByte] i) :=
  archive_round_trip_iff (by decide) (List.nodup_singleton _) (by simp [oneByte, oneName]) oneArchive_created
    oneArchive_length oneArchive_loaded

/-- The empty string is found, as the name of an entry that is not used. -/
theorem empty_name_found :
    createInitrd [oneByte] = some oneArchive ∧
      findEntry (fun a => byteAt oneArchive (a - initramfsBase)) ⟨[], List.not_mem_nil⟩ ≠ none ∧
      ¬ RoundTrip (fun a => byteAt oneArchive (a - initramfsBase)) [oneByte] := by
  have hfound : findEntry (fun a => byteAt oneArchive (a - initramfsBase)) ⟨[], List.not_mem_nil⟩ ≠ none :=
    (createInitrd_written (by decide) oneArchive_created).2.finds_empty oneArchive_loaded (by decide) rfl
  refine ⟨oneArchive_created, hfound, fun h => ?_⟩
  have hnone := (h.other ⟨[], List.not_mem_nil⟩ (by simp [oneByte, oneName])).findFile
  rw [initrdFindFile, Option.map_eq_none_iff] at hnone
  exact hfound hnone

end Advos.Initramfs
