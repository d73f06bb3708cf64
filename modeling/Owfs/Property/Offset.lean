import Owfs.Property.Local
import Owfs.Property.Output

/-!
# Reading from an offset

A client reads a property with a size and an offset, which are 32-bit numbers. The size is cut to
the length of the file (`adjust_file_size`, `ow_read.c`), the value is read, and the text is written
to the buffer of the client (`OWQ_parse_output`, `ow_parseoutput.c`).

A single value, and a string, are read as a piece of their text. Whole arrays are not: the offset is
compared with the length of one element, and every element is printed from that offset on; strings
ignore the offset, and their commas are put into the buffer without regard to its size. The text of
a structure entry is copied from before its start if the offset is negative.

The read function of a device puts a string into the buffer from the offset on, and the value of a
number. It is asked each time; what the cache does to this is in `Owfs.Property.ReadCache`. The read
functions do not fail here. All arrays of strings are read element by element (`ag_separate`).
-/

namespace Owfs.Property.Offset

open Infra Owfs.Cache

/-! ## Structure entries -/

/-- `%.6d` -/
def sixDigits (i : Int) : Bytes :=
  (if i < 0 then [chr '-'] else []) ++ List.replicate (6 - (decimal i.natAbs).length) (chr '0') ++
    decimal i.natAbs

/-- A property as it is described in `/structure`. -/
structure StructureEntry where
  ft : Filetype
  extension : Extension
  /-- `ag->letters == ag_letters` -/
  letters : Bool

def formatChar : FtFormat → Byte
  | .directory | .subdir => chr 'D'
  | .integer => chr 'i'
  | .unsigned => chr 'u'
  | .float => chr 'f'
  | .alias => chr 'l'
  | .ascii | .vascii => chr 'a'
  | .binary => chr 'b'
  | .yesno | .bitfield => chr 'y'
  | .date => chr 'd'
  | .temperature => chr 't'
  | .tempgap => chr 'g'
  | .pressure => chr 'p'
  | .unknown => chr '?'

def changeChar : FcChange → Byte
  | .static | .subdir | .directory => chr 'f'
  | .stable | .persistent => chr 's'
  | .volatile | .readStable | .simultaneousTemperature | .simultaneousVoltage | .uncached
  | .statistic | .presence
  | .link | .page => chr 'v'
  | .second => chr 't'

def StructureEntry.indexNum (e : StructureEntry) : Int :=
  if e.ft.ag.isSome then e.extension.toInt32.toInt else 0

def StructureEntry.elementsNum (e : StructureEntry) : Int :=
  match e.ft.ag with
  | none => 1
  | some ag => if ag.combined = .sparse then (if e.letters then -1 else 0) else ag.elements

/-- The text that `FS_structure` prints, `"%c,%.6d,%.6d,%.2s,%.6d,%c,"`. -/
def StructureEntry.text (e : StructureEntry) : Bytes :=
  [formatChar e.ft.format, chr ','] ++ sixDigits e.indexNum ++ [chr ','] ++
    sixDigits e.elementsNum ++ [chr ','] ++
    (match e.ft.readable, e.ft.writable with
      | false, false => ascii "oo"
      | false, true => ascii "wo"
      | true, false => ascii "ro"
      | true, true => ascii "rw") ++
    [chr ','] ++ sixDigits (BitVec.ofNat 32 (fullFileLength e.ft e.extension)).toInt ++
    [chr ',', changeChar e.ft.change, chr ',']

/-- `PROPERTY_LENGTH_STRUCTURE` -/
def propertyLengthStructure : Nat := 32

/-! ## Properties -/

/-- A local property, and its value. An element of an array and the `.BYTE` of a bit field, which is
printed like an unsigned number, are single values. -/
inductive Source (F D : Type) where
  | value (v : Value F D)
  | text (suglen : Nat) (s : Bytes)
  | values (format : ValueFormat) (vs : List (Value F D)) (uniform : ∀ v ∈ vs, v.format = format)
  | texts (suglen : Nat) (ss : List Bytes)
  | binaries (suglen : Nat) (ss : List Bytes)
  | entry (e : StructureEntry)

variable {F D : Type}

/-- `FullFileLength` -/
def Source.fullFileLength : Source F D → Nat
  | .value v => v.format.fileLength
  | .text suglen _ => suglen
  | .values format vs _ => format.fullFileLength vs.length
  | .texts suglen ss => (suglen + 1) * ss.length - 1
  | .binaries suglen ss => suglen * ss.length
  | .entry _ => propertyLengthStructure

/-- The zeros that are in a query before it is read. -/
def zeroValue [Zero F] [Zero D] : ValueFormat → Value F D
  | .integer => .integer 0
  | .unsigned => .unsigned 0
  | .yesno => .yesno 0
  | .float => .float 0
  | .date => .date 0

/-! ## The code -/

/-- The size after `adjust_file_size`. -/
def adjustedSize (fileLength size : Nat) (offset : Int) : Nat :=
  if fileLength ≤ unsignedLong offset then 0
  else if fileLength < size + unsignedLong offset then fileLength - unsignedLong offset
  else size

/-- The loop of `FS_read_in_parts`, for strings: the lengths and the buffer, unless the parts do not
fit. -/
def readInParts : (parts : List Bytes) → (bufferPointer bufferLeft : Nat) → (buffer : Bytes) →
    Option (Option (List Nat × Bytes))
  | [], _, _, buffer => some (some ([], buffer))
  | part :: parts, bufferPointer, bufferLeft, buffer =>
    if bufferLeft < part.length then some none
    else do
      let buffer ← blit buffer bufferPointer part
      let rest ← readInParts parts (bufferPointer + part.length) (bufferLeft - part.length) buffer
      some (rest.map fun (lengths, buffer) => (part.length :: lengths, buffer))

/-- What is read of strings, before their text is made: the lengths and the buffer. Nothing is read
into an empty buffer. -/
def readStrings (suglen : Nat) (ss : List Bytes) (size : Nat) (buffer : Bytes) :
    Option (Option (List Nat × Bytes)) :=
  if size = 0 then some (some (List.replicate ss.length 0, buffer))
  else readInParts (ss.map (List.take suglen)) 0 size buffer

variable [Zero F] [Zero D] (pr : Printer F D) (trim : Bool)

/-- `FS_read_postparse` of a local property: `FS_r_local` or `FS_structure`, and
`OWQ_parse_output`. -/
def fsRead (p : Source F D) (size : Nat) (offset : Int) (buffer : Bytes) : Option (Int × Bytes) :=
  let adjusted := adjustedSize p.fullFileLength size offset
  match p with
  | .value v =>
    owqParseOutputValue pr trim (if adjusted = 0 then zeroValue v.format else v)
      ⟨buffer, 0, adjusted, offset⟩
  | .text suglen s => do
    let d := if adjusted = 0 then [] else window offset adjusted s
    let buffer ← blit buffer 0 d
    if beyond offset suglen then some (0, buffer) else some (d.length, buffer)
  | .values format vs _ =>
    if beyond offset format.fileLength then some (0, buffer)
    else
      owqParseOutputArrayWithCommas pr trim
        (if adjusted = 0 then vs.map fun _ => zeroValue format else vs)
        ⟨buffer, 0, adjusted, offset⟩
  | .texts suglen ss =>
    (readStrings suglen ss adjusted buffer).bind fun
      | none => some (-emsgsize, buffer)
      | some (lengths, buffer) =>
        if beyond offset suglen then some (0, buffer)
        else (owqParseOutputAsciiArray lengths buffer).map fun (n, buffer) => ((n : Int), buffer)
  | .binaries suglen ss =>
    (readStrings suglen ss adjusted buffer).bind fun
      | none => some (-emsgsize, buffer)
      | some (lengths, buffer) =>
        -- `OWQ_parse_output_array_no_commas`
        if beyond offset suglen then some (0, buffer) else some ((lengths.sum : Int), buffer)
  | .entry e =>
    if propertyLengthStructure < e.text.length then some (-einval, buffer)
    else
      (owqParseOutputOffsetAndSize e.text e.text.length ⟨buffer, 0, size, offset⟩).map
        fun (ret, buffer) =>
        if beyond offset propertyLengthStructure then (0, buffer) else (ret, buffer)

/-! ## What reading means -/

/-- The part of a text that is asked for. Before its start there is nothing. -/
def piece (offset : Int) (size : Nat) (text : Bytes) : Bytes :=
  if offset < 0 then [] else window offset size text

/-- The text that is read from offset 0 on, with room for all of it. -/
def Whole (p : Source F D) (text : Bytes) : Prop :=
  ∃ ret buffer, fsRead pr trim p p.fullFileLength 0 (List.replicate p.fullFileLength 0) =
    some (ret, buffer) ∧ 0 ≤ ret ∧
    text = buffer.take ret.toNat

/-- A read that fails, or gives these bytes. No access is outside of a buffer or a text. -/
def Gives (result : Option (Int × Bytes)) (d : Bytes) : Prop :=
  ∃ ret buffer, result = some (ret, buffer) ∧ (ret < 0 ∨ ret = d.length ∧ d <+: buffer)

/-- All reads give the pieces of a text. -/
def Slices (p : Source F D) (text : Bytes) : Prop :=
  ∀ (size : Nat) (offset : Int) (buffer : Bytes), size < 2 ^ 31 → -2 ^ 31 ≤ offset →
    offset < 2 ^ 31 →
    size ≤ buffer.length → Gives (fsRead pr trim p size offset buffer) (piece offset size text)

/-- Chunks of these sizes, one behind the other, if all can be read. -/
def readChunks (p : Source F D) : (sizes : List Nat) → (offset : Nat) → Option Bytes
  | [], _ => some []
  | size :: sizes, offset =>
    (fsRead pr trim p size offset (List.replicate size 0)).bind fun (ret, buffer) =>
      if ret < 0 then none
        else (readChunks p sizes (offset + size)).map (buffer.take ret.toNat ++ ·)

/-- Reads of a property give the pieces of its text, and so do consecutive reads. -/
structure ReadsSlices (p : Source F D) : Prop where
  slices : ∀ text, Whole pr trim p text → Slices pr trim p text
  chunks : ∀ text, Whole pr trim p text → ∀ sizes : List Nat, sizes.sum < 2 ^ 31 →
    ∀ bytes, readChunks pr trim p sizes 0 = some bytes → bytes = text.take sizes.sum

/-- A property whose file has a length that fits into an `int`. -/
structure LocalProperty (F D : Type) where
  source : Source F D
  length : source.fullFileLength < 2 ^ 31

/-- Some strings, one behind the other. -/
def packedText (suglen : Nat) (ss : List Bytes) : Bytes := (ss.map (List.take suglen)).flatten

/-- Their total length. -/
def totalLength (suglen : Nat) (ss : List Bytes) : Nat := (packedText suglen ss).length

/-- Nothing is read from behind the start: no string has a byte, or all are as long as they can be,
and what is left of the buffer is too small for them. -/
def Fixed (suglen : Nat) (ss : List Bytes) : Prop :=
  totalLength suglen ss = 0 ∨ totalLength suglen ss = suglen * ss.length ∨ suglen = 1 ∧
    totalLength suglen ss = 1

/-- The properties that are read as pieces of their text, or not at all. -/
def Source.Sliceable : Source F D → Prop
  | .value _ | .text _ _ => True
  | .values format vs _ => vs.length ≤ 1 ∨ ∃ v ∈ vs, format.fileLength < (v.text pr trim).length
  | .texts suglen ss => ss.length ≤ 1 ∧ Fixed suglen ss
  | .binaries suglen ss => Fixed suglen ss
  | .entry e => propertyLengthStructure < e.text.length

/-! ## Consecutive reads -/

section

variable {pr trim} {p : Source F D} {text : Bytes}

theorem window_natCast (offset size : Nat) (text : Bytes) :
    window offset size text = (text.drop offset).take size := rfl

theorem readChunks_eq (hslices : Slices pr trim p text) {sizes : List Nat} {offset : Nat}
    (hsum : offset + sizes.sum < 2 ^ 31) {bytes : Bytes}
    (h : readChunks pr trim p sizes offset = some bytes) :
    bytes = (text.drop offset).take sizes.sum := by
  induction sizes generalizing offset bytes with
  | nil =>
    cases h
    simp
  | cons size sizes ih =>
    rw [List.sum_cons] at hsum ⊢
    obtain ⟨ret, buffer, hread, hret⟩ :=
      hslices size offset (List.replicate size 0) (by omega) (by omega) (by omega)
      (by simp)
    rw [readChunks, hread, Option.bind_some] at h
    dsimp only at h
    obtain hneg | ⟨rfl, hbegins⟩ := hret
    · rw [if_pos hneg] at h
      cases h
    · rw [if_neg (by omega)] at h
      obtain ⟨rest, hrest, rfl⟩ := Option.map_eq_some_iff.mp h
      rw [piece, if_neg (by omega), window_natCast] at hbegins ⊢
      rw [ih (by omega) hrest, Int.toNat_natCast, ← List.prefix_iff_eq_take.mp hbegins,
        List.take_add, List.drop_drop]

/-- The text that is read is the one that the pieces are of. -/
theorem Whole.eq (hlength : p.fullFileLength < 2 ^ 31) (hslices : Slices pr trim p text)
    (htext : text.length ≤ p.fullFileLength) {text' : Bytes} (h : Whole pr trim p text') :
    text' = text := by
  obtain ⟨ret, buffer, hread, hnonneg, rfl⟩ := h
  obtain ⟨ret', buffer', hread', hret⟩ :=
    hslices p.fullFileLength 0 (List.replicate p.fullFileLength 0) hlength
    (by decide) (by decide) (by simp)
  rw [hread] at hread'
  cases hread'
  obtain hneg | ⟨rfl, hbegins⟩ := hret
  · omega
  · have hpiece : piece 0 p.fullFileLength text = text := by
      rw [piece, if_neg (by decide), window_zero, List.take_of_length_le htext]
    rw [hpiece] at hbegins ⊢
    rw [Int.toNat_natCast, ← List.prefix_iff_eq_take.mp hbegins]

theorem readsSlices_of_slices (hlength : p.fullFileLength < 2 ^ 31)
    (hslices : Slices pr trim p text) (htext : text.length ≤ p.fullFileLength) :
    ReadsSlices pr trim p := by
  refine ⟨fun text' h => ?_, fun text' h sizes hsum bytes hbytes => ?_⟩
  · rwa [h.eq hlength hslices htext]
  · rw [h.eq hlength hslices htext]
    simpa using readChunks_eq hslices (by simpa using hsum) hbytes

/-- Where the text cannot be read there is nothing to show. -/
theorem readsSlices_of_not_whole (h : ∀ text, ¬ Whole pr trim p text) : ReadsSlices pr trim p :=
  ⟨fun text htext => absurd htext (h text), fun text htext => absurd htext (h text)⟩

end

/-! ## Sizes and offsets -/

section

variable {offset : Int} {fileLength size : Nat}

theorem unsignedLong_of_nonneg (hlo : 0 ≤ offset) (hhi : offset < 2 ^ 31) :
    unsignedLong offset = offset.toNat := by
  rw [unsignedLong, Int.emod_eq_of_lt hlo (by omega)]

/-- A negative offset is taken for a huge one. -/
theorem le_unsignedLong_of_neg (hlo : -2 ^ 31 ≤ offset) (hneg : offset < 0)
    (h : fileLength < 2 ^ 31) :
    fileLength ≤ unsignedLong offset := by
  have hmod : offset % 2 ^ 64 = offset + 2 ^ 64 := by
    rw [← Int.add_emod_right, Int.emod_eq_of_lt (by omega) (by omega)]
  rw [unsignedLong, hmod]
  omega

theorem beyond_of_neg (hlo : -2 ^ 31 ≤ offset) (hneg : offset < 0) (h : fileLength < 2 ^ 31) :
    beyond offset fileLength = true :=
  decide_eq_true ⟨by omega, le_unsignedLong_of_neg hlo hneg h⟩

theorem beyond_of_le (hhi : offset < 2 ^ 31) (hpos : 0 < offset) (h : fileLength ≤ offset.toNat) :
    beyond offset fileLength = true :=
  decide_eq_true ⟨by omega, by rwa [unsignedLong_of_nonneg (by omega) hhi]⟩

theorem not_beyond (hlo : 0 ≤ offset) (hhi : offset < 2 ^ 31)
    (h : offset = 0 ∨ offset.toNat < fileLength) :
    beyond offset fileLength = false := by
  refine decide_eq_false fun ⟨hne, hle⟩ => ?_
  rw [unsignedLong_of_nonneg hlo hhi] at hle
  omega

theorem adjustedSize_of_neg (hlo : -2 ^ 31 ≤ offset) (hneg : offset < 0) (h : fileLength < 2 ^ 31) :
    adjustedSize fileLength size offset = 0 := if_pos (le_unsignedLong_of_neg hlo hneg h)

theorem adjustedSize_of_nonneg (hlo : 0 ≤ offset) (hhi : offset < 2 ^ 31) :
    adjustedSize fileLength size offset = min size (fileLength - offset.toNat) := by
  rw [adjustedSize, unsignedLong_of_nonneg hlo hhi]
  split
  · omega
  · split <;> omega

/-- The size that is cut makes no difference to a text that is not longer than the file. -/
theorem window_adjustedSize (hlo : 0 ≤ offset) (hhi : offset < 2 ^ 31) {text : Bytes}
    (h : text.length ≤ fileLength) :
    window offset (adjustedSize fileLength size offset) text = window offset size text := by
  have hdrop : (text.drop offset.toNat).length ≤ fileLength - offset.toNat := by
    rw [List.length_drop]
    omega
  rw [adjustedSize_of_nonneg hlo hhi, window, window, ← List.take_take,
    List.take_of_length_le hdrop]

theorem window_nil_of_adjustedSize (hlo : 0 ≤ offset) (hhi : offset < 2 ^ 31) {text : Bytes}
    (h : text.length ≤ fileLength) (hzero : adjustedSize fileLength size offset = 0) :
    window offset size text = [] := by
  rw [← window_adjustedSize hlo hhi h, hzero, window, List.take_zero]

theorem piece_of_nonneg (hlo : 0 ≤ offset) (size : Nat) (text : Bytes) :
    piece offset size text = window offset size text :=
  if_neg (by omega)

theorem piece_of_neg (hneg : offset < 0) (size : Nat) (text : Bytes) :
    piece offset size text = [] := if_pos hneg

theorem gives_nil (buffer : Bytes) : Gives (some (0, buffer)) [] :=
  ⟨0, buffer, rfl, .inr ⟨rfl, List.nil_prefix⟩⟩

theorem gives_error {e : Int} (he : e < 0) (buffer d : Bytes) :
    Gives (some (e, buffer)) d := ⟨e, buffer, rfl, .inl he⟩

/-- Bytes that are copied to the start of the buffer. -/
theorem gives_blit {buffer d : Bytes} (h : d.length ≤ buffer.length) :
    Gives ((blit buffer 0 d).map fun buffer => ((d.length : Int), buffer)) d := by
  obtain ⟨junk, hblit, -⟩ := blit_behind [] h
  rw [List.nil_append, List.length_nil] at hblit
  exact ⟨d.length, _, by rw [hblit]; rfl, .inr ⟨rfl, List.prefix_append _ _⟩⟩

end

/-! ## Single values and strings -/

section

variable {pr trim}

theorem fileLength_lt (format : ValueFormat) : format.fileLength < 2 ^ 31 := by
  cases format <;> decide

theorem format_zeroValue (format : ValueFormat) :
    (zeroValue format : Value F D).format = format := by
  cases format <;> rfl

omit [Zero F] [Zero D] in
theorem owqParseOutputValue_beyond {v : Value F D} {q : OutputQuery}
    (h : beyond q.offset v.format.fileLength = true) :
    owqParseOutputValue pr trim v q = some (0, q.buffer) := if_pos h

omit [Zero F] [Zero D] in
/-- A value that is printed, or refused. -/
theorem gives_owqParseOutputValue {v : Value F D} {buffer : Bytes} {size : Nat} {offset : Int}
    (hlo : 0 ≤ offset) (hhi : offset < 2 ^ 31) (hbeyond : beyond offset v.format.fileLength = false)
    (hsize : size ≤ buffer.length) :
    Gives (owqParseOutputValue pr trim v ⟨buffer, 0, size, offset⟩)
      (window offset size (v.text pr trim)) := by
  rw [owqParseOutputValue_eq pr trim hlo (by dsimp only; omega) (Nat.zero_le _) hbeyond]
  split
  · exact gives_error (by decide) _ _
  · exact gives_blit (Nat.le_trans (length_window_le _ _ _) hsize)

theorem slices_value {v : Value F D} (hprint : (v.text pr trim).length ≤ v.format.fileLength) :
    Slices pr trim (.value v) (v.text pr trim) := by
  intro size offset buffer hsize hlo hhi hbuffer
  have hlength := fileLength_lt v.format
  rw [fsRead, Source.fullFileLength]
  by_cases hneg : offset < 0
  · rw [piece_of_neg hneg, adjustedSize_of_neg hlo hneg hlength, if_pos rfl,
      owqParseOutputValue_beyond]
    · exact gives_nil buffer
    · rw [format_zeroValue]
      exact beyond_of_neg hlo hneg hlength
  · rw [piece_of_nonneg (by omega)]
    generalize hadjusted : adjustedSize v.format.fileLength size offset = adjusted
    have hle : adjusted ≤ buffer.length := by
      rw [← hadjusted, adjustedSize_of_nonneg (by omega) hhi]
      omega
    by_cases hzero : adjusted = 0
    · rw [if_pos hzero, hzero,
        window_nil_of_adjustedSize (by omega) hhi hprint (hadjusted.trans hzero)]
      by_cases hbeyond : beyond offset v.format.fileLength = true
      · rw [owqParseOutputValue_beyond (by rwa [format_zeroValue])]
        exact gives_nil buffer
      · rw [Bool.not_eq_true] at hbeyond
        exact gives_owqParseOutputValue (by omega) hhi (by rwa [format_zeroValue]) (Nat.zero_le _)
    · rw [if_neg hzero]
      have hoffset : offset.toNat < v.format.fileLength := by
        rw [adjustedSize_of_nonneg (by omega) hhi] at hadjusted
        omega
      rw [← window_adjustedSize (by omega) hhi hprint, hadjusted]
      exact gives_owqParseOutputValue (by omega) hhi (not_beyond (by omega) hhi (.inr hoffset)) hle

theorem adjustedSize_self (fileLength : Nat) :
    adjustedSize fileLength fileLength 0 = fileLength := by
  rw [adjustedSize_of_nonneg (by decide) (by decide)]
  simp

theorem fileLength_ne_zero (format : ValueFormat) : format.fileLength ≠ 0 := by
  cases format <;> decide

/-- A floating point number that is too long is never printed. -/
theorem not_whole_value {v : Value F D} (hlong : v.format.fileLength < (v.text pr trim).length)
    (text : Bytes) :
    ¬ Whole pr trim (.value v) text := by
  rintro ⟨ret, buffer, hread, hnonneg, -⟩
  rw [fsRead, Source.fullFileLength, adjustedSize_self, if_neg (fileLength_ne_zero _),
    owqParseOutputValue_eq pr trim (le_refl 0) (by simp) (Nat.zero_le _)
    (not_beyond (le_refl 0) (by simp) (.inl rfl)),
      if_pos (ValueFormat.refused_of_long hlong)] at hread
  cases hread
  exact absurd hnonneg (by decide)

theorem readsSlices_value {v : Value F D} : ReadsSlices pr trim (.value v) := by
  by_cases hprint : (v.text pr trim).length ≤ v.format.fileLength
  · exact readsSlices_of_slices (fileLength_lt _) (slices_value hprint) hprint
  · exact readsSlices_of_not_whole (not_whole_value (Nat.not_le.mp hprint))

theorem slices_text {suglen : Nat} (hlength : suglen < 2 ^ 31) (s : Bytes) :
    Slices pr trim (.text suglen s : Source F D) (s.take suglen) := by
  intro size offset buffer hsize hlo hhi hbuffer
  have htake : (s.take suglen).length ≤ suglen := List.length_take_le _ _
  rw [fsRead, Source.fullFileLength]
  by_cases hneg : offset < 0
  · rw [piece_of_neg hneg, adjustedSize_of_neg hlo hneg hlength, if_pos rfl,
      beyond_of_neg hlo hneg hlength, blit_nil (Nat.zero_le _)]
    exact gives_nil buffer
  · rw [piece_of_nonneg (by omega), ← window_adjustedSize (by omega) hhi htake,
      adjustedSize_of_nonneg (by omega) hhi]
    generalize hadjusted : min size (suglen - offset.toNat) = adjusted
    by_cases hzero : adjusted = 0
    · rw [if_pos hzero, blit_nil (Nat.zero_le _), hzero, window, List.take_zero]
      simpa using gives_nil buffer
    · have hbeyond : beyond offset suglen = false := not_beyond (by omega) hhi (.inr (by omega))
      have hwindow : window offset adjusted (s.take suglen) = window offset adjusted s := by
        rw [window, List.drop_take, List.take_take, Nat.min_eq_left (by omega)]
        rfl
      have hroom : (window offset adjusted s).length ≤ buffer.length :=
        Nat.le_trans (length_window_le _ _ _) (by omega)
      rw [if_neg hzero, hbeyond, hwindow]
      simpa [Option.map_eq_bind, Function.comp_def] using gives_blit hroom

end

/-! ## Arrays of values -/

section

variable {pr trim} {p p' : Source F D}

theorem readChunks_congr (h : fsRead pr trim p = fsRead pr trim p') :
    readChunks pr trim p = readChunks pr trim p' := by
  funext sizes offset
  induction sizes generalizing offset with
  | nil => rfl
  | cons size sizes ih => simp only [readChunks, h, ih]

/-- Two properties that are read in the same way. -/
theorem readsSlices_congr (hlength : p.fullFileLength = p'.fullFileLength)
    (h : fsRead pr trim p = fsRead pr trim p') :
    ReadsSlices pr trim p ↔ ReadsSlices pr trim p' := by
  have hwhole : Whole pr trim p = Whole pr trim p' := by
    funext text
    rw [Whole, Whole, h, hlength]
  have hslices : Slices pr trim p = Slices pr trim p' := by
    funext text
    rw [Slices, Slices, h]
  constructor
  · intro ⟨hs, hc⟩
    exact ⟨by rwa [hwhole, hslices] at hs, by rwa [hwhole, readChunks_congr h] at hc⟩
  · intro ⟨hs, hc⟩
    exact ⟨by rwa [hwhole, hslices], by rwa [hwhole, readChunks_congr h]⟩

omit [Zero F] [Zero D] in
theorem fullFileLength_singleton {v : Value F D} {format : ValueFormat}
    (h : ∀ w ∈ [v], w.format = format) :
    (Source.values format [v] h).fullFileLength = (Source.value v).fullFileLength := by
  rw [Source.fullFileLength, Source.fullFileLength, h v List.mem_cons_self,
    ValueFormat.fullFileLength, List.length_singleton]
  omega

omit [Zero F] [Zero D] in
/-- An array of one element is printed like this element. -/
theorem owqParseOutputArrayWithCommas_singleton (v : Value F D) (q : OutputQuery)
    (hq : q.position = 0) :
    owqParseOutputArrayWithCommas pr trim [v] q = owqParseOutputValue pr trim v q := by
  obtain ⟨buffer, position, size, offset⟩ := q
  subst hq
  rw [owqParseOutputArrayWithCommas, arrayWithCommasLoop, addComma, if_pos rfl, Option.bind_some]
  dsimp only [Nat.add_zero]
  cases owqParseOutputValue pr trim v ⟨buffer, 0, size, offset⟩ with
  | none => rfl
  | some r =>
    obtain ⟨len, buffer'⟩ := r
    rw [Option.bind_some]
    dsimp only
    split
    · rfl
    · rw [arrayWithCommasLoop, Nat.zero_add, Int.toNat_of_nonneg (by omega)]

theorem fsRead_singleton {v : Value F D} {format : ValueFormat} (h : ∀ w ∈ [v], w.format = format) :
    fsRead pr trim (.values format [v] h) = fsRead pr trim (.value v) := by
  obtain rfl := h v List.mem_cons_self
  funext size offset buffer
  rw [fsRead, fsRead, fullFileLength_singleton]
  generalize adjustedSize (Source.value v).fullFileLength size offset = adjusted
  have hmap : (if adjusted = 0 then [v].map fun _ => zeroValue v.format else [v])
      = [if adjusted = 0 then zeroValue v.format else v] := by
    split <;> rfl
  have hformat : (if adjusted = 0 then zeroValue v.format else v).format = v.format := by
    split
    · exact format_zeroValue _
    · rfl
  rw [hmap, owqParseOutputArrayWithCommas_singleton _ _ rfl]
  split
  · rename_i hbeyond
    rw [owqParseOutputValue_beyond (by rwa [hformat])]
  · rfl

theorem slices_empty {format : ValueFormat} (h : ∀ v ∈ ([] : List (Value F D)), v.format = format) :
    Slices pr trim (.values format [] h) [] := by
  intro size offset buffer hsize hlo hhi hbuffer
  have hpiece : piece offset size [] = [] := by
    rw [piece, window, List.drop_nil, List.take_nil, ite_self]
  have hread : fsRead pr trim (.values format [] h) size offset buffer = some (0, buffer) := by
    rw [fsRead, List.map_nil, ite_self]
    exact ite_self _
  rw [hpiece, hread]
  exact gives_nil buffer

variable {format : ValueFormat}

/-- An element that is too long is an error for the whole array. -/
theorem render_eq_none {offset : Int} {ts : List Bytes} (h : ∃ t ∈ ts, format.fileLength < t.length)
    (out : Bytes) (r : Nat) : render format offset ts out r = none := by
  obtain ⟨t, ht, hlong⟩ := h
  induction ts generalizing out r with
  | nil => cases ht
  | cons t' ts ih =>
    rw [render]
    cases renderComma out r with
    | none => rfl
    | some c =>
      obtain ⟨out', r'⟩ := c
      rw [Option.bind_some]
      dsimp only
      obtain rfl | ht := List.mem_cons.mp ht
      · exact if_pos (ValueFormat.refused_of_long hlong)
      · rw [ih _ _ ht, ite_self]

/-- From offset 1 on, each element is without its first byte. -/
theorem length_window_one {t : Bytes} (hne : t ≠ []) (r : Nat) :
    (window 1 r t).length + 1 ≤ t.length := by
  have hpos := List.length_pos_iff.mpr hne
  rw [window, List.length_take, List.length_drop, Int.toNat_one]
  omega

/-- With enough room the array is printed without an error, but all elements are shorter. -/
theorem render_one {ts : List Bytes} (hts : ∀ t ∈ ts, Printable format t) {out : Bytes} {r : Nat}
    (hr : (ts.map fun t => t.length + 1).sum ≤ r) :
    ∃ text, render format 1 ts out r = some text ∧
      text.length + ts.length ≤ out.length + (ts.map fun t => t.length + 1).sum := by
  induction ts generalizing out r with
  | nil => exact ⟨out, rfl, by simp⟩
  | cons t ts ih =>
    have ht := hts t List.mem_cons_self
    rw [List.map_cons, List.sum_cons] at hr ⊢
    obtain ⟨out', r', hcomma, hlen, hr'⟩ : ∃ out' r', renderComma out r = some (out', r') ∧
        out'.length ≤ out.length + 1 ∧ r ≤ r' + 1 := by
      rw [renderComma]
      by_cases hout : out = []
      · exact ⟨out, r, if_pos hout, by omega, by omega⟩
      · exact ⟨out ++ [chr ','], r - 1, by rw [if_neg hout, if_neg (by omega)], by simp, by omega⟩
    have hwindow := length_window_one ht.ne_nil r'
    obtain ⟨text, hrender, htext⟩ :=
      @ih (fun t ht => hts t (List.mem_cons_of_mem _ ht)) (out' ++ window 1 r' t)
      (r' - (window 1 r' t).length) (by omega)
    refine ⟨text, ?_, ?_⟩
    · rw [render, hcomma, Option.bind_some]
      dsimp only
      rw [if_neg (ht.not_refused (by omega)), hrender]
    · rw [List.length_append] at htext
      rw [List.length_cons]
      omega

/-- The same from the start, where there is no comma. -/
theorem render_one_start {ts : List Bytes} (hts : ∀ t ∈ ts, Printable format t)
    (htwo : 2 ≤ ts.length) {r : Nat} (hr : (ts.map fun t => t.length + 1).sum ≤ r + 2) :
    ∃ text, render format 1 ts [] r = some text ∧ text.length < (joined ts).length - 1 := by
  obtain ⟨t, ts, rfl⟩ := List.exists_cons_of_length_pos (Nat.lt_of_lt_of_le (by decide) htwo)
  obtain ⟨t', ts, rfl⟩ :=
    List.exists_cons_of_length_pos (Nat.lt_of_succ_le (Nat.le_of_succ_le_succ htwo))
  have ht := hts t List.mem_cons_self
  have hjoined := length_joined (List.cons_ne_nil t (t' :: ts))
  have hwindow := length_window_one ht.ne_nil r
  have hpos := List.length_pos_iff.mpr (hts t' (by simp)).ne_nil
  have hsum : t'.length + 1 ≤ ((t' :: ts).map fun t => t.length + 1).sum := by simp
  rw [List.map_cons, List.sum_cons] at hr hjoined
  obtain ⟨text, hrender, htext⟩ :=
    @render_one format (t' :: ts) (fun u hu => hts u (List.mem_cons_of_mem _ hu))
    (window 1 r t) (r - (window 1 r t).length) (by omega)
  refine ⟨text, ?_, ?_⟩
  · rw [render, renderComma, if_pos rfl, Option.bind_some]
    dsimp only
    rw [if_neg (ht.not_refused (by omega)), List.nil_append, hrender]
  · rw [List.length_cons] at htext
    omega

omit [Zero F] [Zero D] in
theorem Value.printable {v : Value F D} (hformat : v.format = format)
    (h : (v.text pr trim).length ≤ format.fileLength) :
    Printable format (v.text pr trim) := by
  subst hformat
  have hpad {s : Bytes} (hs : s ≠ []) : (if trim then s else padLeft 12 s) ≠ [] := by
    split
    · exact hs
    · exact List.append_ne_nil_of_right_ne_nil _ hs
  have hsigned (i : Int) : signedDecimal i ≠ [] := by
    unfold signedDecimal
    split
    · exact List.cons_ne_nil _ _
    · exact decimal_ne_nil _
  cases v with
  | integer i => exact ⟨Nat.zero_le _, h, hpad (hsigned _)⟩
  | unsigned u => exact ⟨Nat.zero_le _, h, hpad (decimal_ne_nil _)⟩
  | yesno y => exact ⟨le_refl 1, h, List.cons_ne_nil _ _⟩
  | float f => exact ⟨Nat.zero_le _, h, pr.float_ne_nil trim f⟩
  | date d =>
    have hlen : ((pr.ctime d).take 24).length = 24 := List.length_take_of_le (pr.length_ctime d)
    exact ⟨le_of_eq hlen.symm, h,
      List.ne_nil_of_length_pos (Nat.lt_of_lt_of_eq (by decide) hlen.symm)⟩

variable {vs : List (Value F D)} {huniform : ∀ v ∈ vs, v.format = format}

/-- A read of an array at an offset that is within one element. -/
theorem fsRead_values {size adjusted : Nat} {offset : Int} (hlo : 0 ≤ offset)
    (hhi : offset < 2 ^ 31) (hbeyond : beyond offset format.fileLength = false)
    (hadjusted : adjustedSize (format.fullFileLength vs.length) size offset = adjusted)
    (hpos : adjusted ≠ 0) {buffer : Bytes} (hbuffer : adjusted ≤ buffer.length) :
    (∃ text junk, render format offset (vs.map (Value.text pr trim)) [] adjusted = some text ∧
        fsRead pr trim (.values format vs huniform) size offset buffer =
        some ((text.length : Int), text ++ junk)) ∨
      ∃ e buffer', render format offset (vs.map (Value.text pr trim)) [] adjusted = none ∧ e < 0 ∧
        fsRead pr trim (.values format vs huniform) size offset buffer = some (e, buffer') := by
  rw [fsRead, Source.fullFileLength, hadjusted, if_neg hpos, hbeyond]
  exact owqParseOutputArrayWithCommas_eq pr trim hlo (by omega) hbeyond huniform hbuffer

theorem fullFileLength_add_one {n : Nat} (hn : n ≠ 0) :
    format.fullFileLength n + 1 = (format.fileLength + 1) * n := by
  have hmul := Nat.le_mul_of_pos_right (format.fileLength + 1) (Nat.pos_of_ne_zero hn)
  rw [ValueFormat.fullFileLength]
  omega

/-- The whole text, if there is one. -/
theorem whole_values_iff (hvs : vs ≠ []) (text : Bytes) :
    Whole pr trim (.values format vs huniform) text ↔
    render format 0 (vs.map (Value.text pr trim)) [] (format.fullFileLength vs.length) =
    some text := by
  have hpos : format.fullFileLength vs.length ≠ 0 := by
    have hcount : vs.length ≠ 0 := by simpa using hvs
    have hfull := @fullFileLength_add_one format _ hcount
    have hmul := Nat.mul_le_mul_left (format.fileLength + 1) (Nat.pos_of_ne_zero hcount)
    have hne := fileLength_ne_zero format
    omega
  have hread :=
    @fsRead_values F D _ _ pr trim format vs huniform (format.fullFileLength vs.length) _ 0
      (le_refl 0)
    (by decide) (not_beyond (le_refl 0) (by decide) (.inl rfl)) (adjustedSize_self _) hpos
    (List.replicate (format.fullFileLength vs.length) 0) (by simp)
  obtain ⟨text', junk, hrender, hread⟩ | ⟨e, buffer, hrender, he, hread⟩ := hread
  · rw [hrender, Whole, Source.fullFileLength, hread]
    constructor
    · rintro ⟨ret, buffer, heq, -, rfl⟩
      cases heq
      simp
    · rintro ⟨⟩
      exact ⟨_, _, rfl, by omega, by simp⟩
  · rw [hrender, Whole, Source.fullFileLength, hread]
    constructor
    · rintro ⟨ret, buffer, heq, hnonneg, -⟩
      cases heq
      omega
    · nofun

theorem not_whole_values (h : ∃ v ∈ vs, format.fileLength < (v.text pr trim).length)
    (text : Bytes) :
    ¬ Whole pr trim (.values format vs huniform) text := by
  obtain ⟨v, hv, hlong⟩ := h
  rw [whole_values_iff (List.ne_nil_of_mem hv),
    render_eq_none ⟨v.text pr trim, List.mem_map_of_mem hv, hlong⟩]
  nofun

/-- A read that gives too few bytes is not a piece. -/
theorem not_gives_of_short {d buffer : Bytes} {n : Nat} (h : n < d.length) :
    ¬ Gives (some ((n : Int), buffer)) d := by
  rintro ⟨ret, buffer, heq, hneg | ⟨hlen, -⟩⟩
  · cases heq
    omega
  · cases heq
    omega

theorem length_piece_one {text : Bytes} {size : Nat} (h : text.length ≤ size) :
    (piece 1 size text).length = text.length - 1 := by
  rw [piece_of_nonneg (by decide), window, List.take_of_length_le (by rw [List.length_drop]; omega),
    List.length_drop, Int.toNat_one]

/-- More than one element: from offset 1 on, too few bytes are read. -/
theorem not_readsSlices_values (hlength : format.fullFileLength vs.length < 2 ^ 31)
    (htwo : 2 ≤ vs.length) (hprint : ∀ v ∈ vs, (v.text pr trim).length ≤ format.fileLength) :
    ¬ ReadsSlices pr trim (.values format vs huniform) := by
  rintro ⟨hslices, -⟩
  have hvs : vs ≠ [] := List.ne_nil_of_length_pos (by omega)
  generalize hL : format.fullFileLength vs.length = L at hlength
  have hfull := @fullFileLength_add_one format vs.length (by omega)
  have hmul := Nat.mul_le_mul_left (format.fileLength + 1) htwo
  have hne := fileLength_ne_zero format
  generalize hts' : vs.map (Value.text pr trim) = ts
  have hts : ∀ t ∈ ts, Printable format t := by
    intro t ht
    rw [← hts'] at ht
    obtain ⟨v, hv, rfl⟩ := List.mem_map.mp ht
    exact Value.printable (huniform v hv) (hprint v hv)
  have hcount : ts.length = vs.length := by rw [← hts', List.length_map]
  have hsum := sum_length_le fun t ht => (hts t ht).fileLength
  rw [hcount, ← hfull, hL] at hsum
  have hjoined := @length_joined ts (List.ne_nil_of_length_pos (by omega))
  -- the whole text, and the piece of it from offset 1 on
  have hwhole : Whole pr trim (.values format vs huniform) (joined ts) := by
    rw [whole_values_iff hvs, hts', hL]
    exact render_joined hts hsum
  have hgives := hslices _ hwhole L 1 (List.replicate L 0) hlength (by decide) (by decide) (by simp)
  obtain ⟨text, hrender, htext⟩ := @render_one_start format ts hts (by omega) (L - 1) (by omega)
  rw [← @length_piece_one (joined ts) L (by omega)] at htext
  by_cases hbeyond : beyond 1 format.fileLength = true
  · rw [fsRead, if_pos hbeyond] at hgives
    exact not_gives_of_short (Nat.zero_lt_of_lt htext) hgives
  · rw [Bool.not_eq_true] at hbeyond
    have hadjusted : adjustedSize (format.fullFileLength vs.length) L 1 = L - 1 := by
      rw [hL, adjustedSize_of_nonneg (by decide) (by decide), Int.toNat_one]
      omega
    obtain ⟨text', junk, hrender', hread⟩ | ⟨e, buffer, hrender', -⟩ :=
      @fsRead_values F D _ _ pr trim format vs huniform L _ 1 (by decide) (by decide) hbeyond
        hadjusted (by omega)
        (List.replicate L 0) (by simp)
    · rw [hts', hrender] at hrender'
      cases hrender'
      rw [hread] at hgives
      exact not_gives_of_short htext hgives
    · rw [hts', hrender] at hrender'
      cases hrender'

end

/-! ## Arrays of strings -/

section

/-- The strings are put one behind the other, here behind `out`, if there is room for all of
them. -/
theorem readInParts_eq {parts : List Bytes} {out junk : Bytes} {left : Nat}
    (hleft : left ≤ junk.length) :
    (parts.flatten.length ≤ left ∧ ∃ junk', junk.length = parts.flatten.length + junk'.length ∧
        readInParts parts out.length left (out ++ junk) =
          some (some (parts.map List.length, (out ++ parts.flatten) ++ junk'))) ∨
      left < parts.flatten.length ∧
        readInParts parts out.length left (out ++ junk) = some none := by
  induction parts generalizing out junk left with
  | nil => exact .inl ⟨Nat.zero_le _, junk, by simp, by simp [readInParts]⟩
  | cons part parts ih =>
    rw [readInParts, List.flatten_cons, List.length_append]
    by_cases hpart : left < part.length
    · exact .inr ⟨by omega, if_pos hpart⟩
    · obtain ⟨junk', hblit, hlen⟩ := blit_behind out (Nat.le_trans (Nat.not_lt.mp hpart) hleft)
      have hpointer : out.length + part.length = (out ++ part).length := List.length_append.symm
      rw [if_neg hpart, hblit, Option.bind_eq_bind, Option.bind_some, hpointer]
      obtain ⟨hle, junk'', hlen', hread⟩ | ⟨hlt, hread⟩ :=
        @ih (out ++ part) junk' (left - part.length) (by omega)
      · refine .inl ⟨by omega, junk'', by omega, ?_⟩
        rw [hread]
        simp
      · exact .inr ⟨by omega, by rw [hread]; rfl⟩

variable {suglen size : Nat} {ss : List Bytes} {buffer : Bytes}

theorem readStrings_zero :
    readStrings suglen ss 0 buffer = some (some (List.replicate ss.length 0, buffer)) := if_pos rfl

theorem readStrings_eq (hsize : size ≤ buffer.length) (hne : size ≠ 0)
    (hfits : totalLength suglen ss ≤ size) :
    ∃ junk, buffer.length = totalLength suglen ss + junk.length ∧
      readStrings suglen ss size buffer =
      some (some ((ss.map (List.take suglen)).map List.length, packedText suglen ss ++ junk)) := by
  rw [readStrings, if_neg hne]
  obtain ⟨-, junk, hlen, hread⟩ | ⟨hlt, -⟩ :=
    @readInParts_eq (ss.map (List.take suglen)) [] buffer size hsize
  · exact ⟨junk, hlen, hread⟩
  · exact absurd hfits (Nat.not_le.mpr hlt)

theorem readStrings_eq_none (hsize : size ≤ buffer.length) (hne : size ≠ 0)
    (hlong : size < totalLength suglen ss) :
    readStrings suglen ss size buffer = some none := by
  rw [readStrings, if_neg hne]
  obtain ⟨hle, -⟩ | ⟨-, hread⟩ := @readInParts_eq (ss.map (List.take suglen)) [] buffer size hsize
  · exact absurd hle (Nat.not_le.mpr hlong)
  · exact hread

theorem totalLength_le : totalLength suglen ss ≤ suglen * ss.length := by
  rw [totalLength, packedText, List.length_flatten, Nat.mul_comm, ← smul_eq_mul,
    ← List.length_map (f := List.length ∘ List.take suglen), ← List.map_map]
  refine List.sum_le_card_nsmul _ _ fun m hm => ?_
  simp only [List.mem_map] at hm
  obtain ⟨_, ⟨s, -, rfl⟩, rfl⟩ := hm
  exact List.length_take_le _ _

variable {pr trim} {offset : Int} {adjusted : Nat}

theorem fsRead_binaries_zero (hadjusted : adjustedSize (suglen * ss.length) size offset = 0) :
    fsRead pr trim (.binaries suglen ss : Source F D) size offset buffer = some (0, buffer) := by
  rw [fsRead, Source.fullFileLength, hadjusted, readStrings_zero, Option.bind_some]
  simp

variable (pr trim) in
theorem fsRead_binaries (hadjusted : adjustedSize (suglen * ss.length) size offset = adjusted)
    (hne : adjusted ≠ 0) (hbuffer : adjusted ≤ buffer.length)
    (hfits : totalLength suglen ss ≤ adjusted) :
    ∃ junk, fsRead pr trim (.binaries suglen ss : Source F D) size offset buffer =
      some (if beyond offset suglen then 0 else (totalLength suglen ss : Int),
        packedText suglen ss ++ junk) := by
  obtain ⟨junk, -, hread⟩ := readStrings_eq hbuffer hne hfits
  refine ⟨junk, ?_⟩
  rw [fsRead, Source.fullFileLength, hadjusted, hread, Option.bind_some, totalLength, packedText,
    List.length_flatten]
  dsimp only
  split <;> rfl

theorem fsRead_binaries_long (hadjusted : adjustedSize (suglen * ss.length) size offset = adjusted)
    (hne : adjusted ≠ 0) (hbuffer : adjusted ≤ buffer.length)
    (hlong : adjusted < totalLength suglen ss) :
    fsRead pr trim (.binaries suglen ss : Source F D) size offset buffer =
      some (-emsgsize, buffer) := by
  rw [fsRead, Source.fullFileLength, hadjusted, readStrings_eq_none hbuffer hne hlong]
  rfl

theorem piece_eq_nil {text : Bytes} (h : size = 0 ∨ text.length ≤ offset.toNat) :
    piece offset size text = [] := by
  rw [piece, window]
  split
  · rfl
  · obtain rfl | h := h
    · exact List.take_zero
    · rw [List.drop_eq_nil_of_le h, List.take_nil]

/-- Where all strings are as long as they can be, a part of them is too long for what is left of the
buffer. -/
theorem slices_binaries (hlength : suglen * ss.length < 2 ^ 31) (hfixed : Fixed suglen ss) :
    Slices pr trim (.binaries suglen ss : Source F D) (packedText suglen ss) := by
  intro size offset buffer hsize hlo hhi hbuffer
  have htotal : (packedText suglen ss).length = totalLength suglen ss := rfl
  have hle := @totalLength_le suglen ss
  generalize hadjusted : adjustedSize (suglen * ss.length) size offset = adjusted
  by_cases hneg : offset < 0
  · rw [piece_of_neg hneg, fsRead_binaries_zero (adjustedSize_of_neg hlo hneg hlength)]
    exact gives_nil buffer
  · have hmin := hadjusted
    rw [adjustedSize_of_nonneg (by omega) hhi] at hmin
    by_cases hzero : adjusted = 0
    · rw [fsRead_binaries_zero (hadjusted.trans hzero), piece_eq_nil (by omega)]
      exact gives_nil buffer
    · by_cases hfits : totalLength suglen ss ≤ adjusted
      · obtain ⟨junk, hread⟩ :=
          fsRead_binaries pr trim hadjusted hzero (Nat.le_trans (by omega) hbuffer) hfits
        rw [hread]
        by_cases hstart : offset = 0
        · subst hstart
          have hpiece : piece 0 size (packedText suglen ss) = packedText suglen ss := by
            rw [piece_of_nonneg (le_refl 0), window_zero, List.take_of_length_le (by omega)]
          rw [not_beyond (le_refl 0) (by decide) (.inl rfl), hpiece]
          exact ⟨_, _, rfl, .inr ⟨rfl, List.prefix_append _ _⟩⟩
        · -- what is left of the file is smaller than the file
          obtain hnone | hfull | ⟨rfl, hone⟩ := hfixed
          · rw [piece_eq_nil (by omega), hnone]
            exact ⟨_, _, rfl, .inr ⟨by simp, List.nil_prefix⟩⟩
          · omega
          · rw [piece_eq_nil (by omega), beyond_of_le hhi (by omega) (by omega)]
            exact ⟨_, _, rfl, .inr ⟨by simp, List.nil_prefix⟩⟩
      · rw [fsRead_binaries_long hadjusted hzero (by omega) (by omega)]
        exact gives_error (by decide) _ _

theorem whole_binaries (suglen : Nat) (ss : List Bytes) :
    Whole pr trim (.binaries suglen ss : Source F D) (packedText suglen ss) := by
  rw [Whole, Source.fullFileLength]
  have hle := @totalLength_le suglen ss
  by_cases hzero : suglen * ss.length = 0
  · rw [fsRead_binaries_zero (by rw [adjustedSize_self, hzero])]
    have hnil : packedText suglen ss = [] :=
      List.eq_nil_of_length_eq_zero (by rw [totalLength] at hle; omega)
    exact ⟨_, _, rfl, le_refl 0, by rw [hnil]; rfl⟩
  · obtain ⟨junk, hread⟩ := fsRead_binaries pr trim (adjustedSize_self _) hzero
      (le_of_eq List.length_replicate.symm) hle
    rw [hread, not_beyond (le_refl 0) (by decide) (.inl rfl)]
    refine ⟨_, _, rfl, ?_, ?_⟩
    · simp
    · simp [totalLength]

/-- Some bytes, but not as many as there can be: from offset 1 on, all of them are read again. -/
theorem not_readsSlices_binaries (hlength : suglen * ss.length < 2 ^ 31)
    (hfixed : ¬ Fixed suglen ss) :
    ¬ ReadsSlices pr trim (.binaries suglen ss : Source F D) := by
  rintro ⟨hslices, -⟩
  have hle := @totalLength_le suglen ss
  generalize hL : suglen * ss.length = L at hle hlength
  rw [Fixed, hL] at hfixed
  have hgives :=
    hslices _ (whole_binaries suglen ss) L 1 (List.replicate L 0) hlength (by decide) (by decide)
      (by simp)
  have hadjusted : adjustedSize (suglen * ss.length) L 1 = L - 1 := by
    rw [hL, adjustedSize_of_nonneg (by decide) (by decide), Int.toNat_one]
    omega
  have hpiece : (piece 1 L (packedText suglen ss)).length = totalLength suglen ss - 1 :=
    length_piece_one hle
  obtain ⟨junk, hread⟩ := fsRead_binaries pr trim hadjusted (by omega)
    (Nat.le_trans (Nat.sub_le L 1) (le_of_eq List.length_replicate.symm)) (by omega)
  rw [hread] at hgives
  obtain ⟨ret, buffer, heq, hret⟩ := hgives
  cases heq
  rw [hpiece] at hret
  split at hret
  · rename_i hbeyond
    have hone : suglen ≤ 1 := by
      rw [beyond_of_nonneg (by decide) (by decide), decide_eq_true_iff] at hbeyond
      exact hbeyond.2
    obtain rfl | rfl : suglen = 0 ∨ suglen = 1 := by omega
    · omega
    · omega
  · omega

theorem readsSlices_binaries_iff (hlength : suglen * ss.length < 2 ^ 31) :
    ReadsSlices pr trim (.binaries suglen ss : Source F D) ↔ Fixed suglen ss := by
  by_cases hfixed : Fixed suglen ss
  · exact iff_of_true (readsSlices_of_slices hlength (slices_binaries hlength hfixed)
      totalLength_le) hfixed
  · exact iff_of_false (not_readsSlices_binaries hlength hfixed) hfixed

/-- At most one string needs no comma. -/
theorem owqParseOutputAsciiArray_of_length_le_one {lengths : List Nat} (h : lengths.length ≤ 1) :
    owqParseOutputAsciiArray lengths buffer = some (lengths.sum, buffer) := by
  match lengths, h with
  | [], _ => rfl
  | [n], _ => rfl

theorem length_of_readInParts {parts : List Bytes} {pointer left : Nat} {lengths : List Nat}
    {buffer' : Bytes} (h : readInParts parts pointer left buffer = some (some (lengths, buffer'))) :
    lengths.length = parts.length := by
  induction parts generalizing pointer left buffer lengths with
  | nil =>
    cases h
    rfl
  | cons part parts ih =>
    rw [readInParts] at h
    split at h
    · cases h
    · obtain ⟨buffer₁, -, h⟩ := Option.bind_eq_some_iff.mp h
      obtain ⟨rest, hrest, h⟩ := Option.bind_eq_some_iff.mp h
      obtain ⟨⟨lengths', _⟩, rfl, h⟩ := Option.map_eq_some_iff.mp (Option.some.inj h)
      cases h
      rw [List.length_cons, List.length_cons, ih hrest]

theorem length_of_readStrings {lengths : List Nat} {buffer' : Bytes}
    (h : readStrings suglen ss size buffer = some (some (lengths, buffer'))) :
    lengths.length = ss.length := by
  rw [readStrings] at h
  split at h
  · cases h
    exact List.length_replicate
  · rw [length_of_readInParts h, List.length_map]

omit [Zero F] [Zero D] in
theorem fullFileLength_texts (h : ss.length ≤ 1) :
    (Source.texts suglen ss : Source F D).fullFileLength =
    (Source.binaries suglen ss : Source F D).fullFileLength := by
  rw [Source.fullFileLength, Source.fullFileLength]
  obtain h | h : ss.length = 0 ∨ ss.length = 1 := by omega
  · rw [h, Nat.mul_zero, Nat.mul_zero]
  · rw [h]
    omega

theorem fsRead_texts (h : ss.length ≤ 1) :
    fsRead pr trim (.texts suglen ss : Source F D) = fsRead pr trim (.binaries suglen ss) := by
  funext size offset buffer
  rw [fsRead, fsRead, fullFileLength_texts h]
  generalize hread : readStrings suglen ss _ buffer = read
  match read with
  | none => rfl
  | some none => rfl
  | some (some (lengths, buffer')) =>
    rw [Option.bind_some, Option.bind_some]
    dsimp only
    rw [owqParseOutputAsciiArray_of_length_le_one (by rwa [length_of_readStrings hread])]
    rfl

/-- There is no room for a comma in a buffer that the strings fill. -/
theorem owqParseOutputAsciiArray_full {lengths : List Nat} (htwo : 2 ≤ lengths.length)
    (hfull : buffer.length = lengths.sum) : owqParseOutputAsciiArray lengths buffer = none := by
  match lengths, htwo with
  | n :: m :: lengths, _ =>
    have hsum : n ≤ (n :: m :: lengths).sum := by simp
    have hmove : memmove buffer (n + 1) n ((n :: m :: lengths).sum - n) = none := by
      rw [memmove, slice, if_pos (by omega), Option.bind_some, blit, if_neg]
      rw [List.length_take, List.length_drop]
      omega
    rw [owqParseOutputAsciiArray, List.tail_cons, owqParseOutputAsciiArrayLoop, List.headD_cons,
      hmove]
    rfl

theorem totalLength_eq_sum :
    totalLength suglen ss = ((ss.map (List.take suglen)).map List.length).sum := by
  rw [totalLength, packedText, List.length_flatten]

/-- The strings fill a buffer that is as long as all of them. -/
theorem readStrings_full (hbuffer : buffer.length = totalLength suglen ss) :
    ∃ lengths buffer', readStrings suglen ss (totalLength suglen ss) buffer =
      some (some (lengths, buffer')) ∧
      buffer'.length = lengths.sum := by
  by_cases hzero : totalLength suglen ss = 0
  · rw [hzero, readStrings_zero]
    exact ⟨_, _, rfl, by rw [hbuffer, hzero]; simp⟩
  · obtain ⟨junk, hlen, hread⟩ := readStrings_eq (le_of_eq hbuffer.symm) hzero (le_refl _)
    refine ⟨_, _, hread, ?_⟩
    rw [List.length_append, ← totalLength_eq_sum]
    exact hlen.symm.trans hbuffer

theorem totalLength_add_le (hne : ss.length ≠ 0) :
    totalLength suglen ss + (ss.length - 1) ≤ (suglen + 1) * ss.length - 1 := by
  have hle := @totalLength_le suglen ss
  rw [Nat.add_mul]
  omega

theorem whole_texts (htwo : 2 ≤ ss.length) :
    Whole pr trim (.texts suglen ss : Source F D) (joined (ss.map (List.take suglen))) := by
  have hle := @totalLength_add_le suglen ss (by omega)
  rw [Whole, fsRead, Source.fullFileLength, adjustedSize_self]
  generalize (suglen + 1) * ss.length - 1 = L at hle ⊢
  obtain ⟨junk, hlen, hread⟩ :=
    @readStrings_eq suglen L ss (List.replicate L 0) (by simp) (by omega) (by omega)
  have hpacked : Packed (ss.map (List.take suglen)) (packedText suglen ss ++ junk)
      ((ss.map (List.take suglen)).map List.length) := ⟨List.prefix_append _ _, rfl⟩
  have hspare : (ss.map (List.take suglen)).flatten.length +
      ((ss.map (List.take suglen)).length - 1)
      ≤ (packedText suglen ss ++ junk).length := by
    rw [List.length_map, List.length_append, ← totalLength, ← hlen, List.length_replicate]
    exact hle
  obtain ⟨buffer, hjoin, hbegins⟩ :=
    owqParseOutputAsciiArray_eq (List.ne_nil_of_length_pos (by rw [List.length_map]; omega))
    hpacked hspare
  rw [hread, Option.bind_some, not_beyond (le_refl 0) (by decide) (.inl rfl)]
  dsimp only
  rw [hjoin]
  exact ⟨_, _, rfl, Int.natCast_nonneg _, List.prefix_iff_eq_take.mp hbegins⟩

theorem not_readsSlices_texts (hlength : (suglen + 1) * ss.length - 1 < 2 ^ 31)
    (htwo : 2 ≤ ss.length) :
    ¬ ReadsSlices pr trim (.texts suglen ss : Source F D) := by
  rintro ⟨hslices, -⟩
  have hle := @totalLength_add_le suglen ss (by omega)
  obtain ⟨ret, buffer, hread, -⟩ := hslices _ (whole_texts htwo) (totalLength suglen ss) 0
    (List.replicate (totalLength suglen ss) 0) (by omega) (by decide) (by decide) (by simp)
  obtain ⟨lengths, buffer', hstrings, hfull⟩ := @readStrings_full suglen ss _ List.length_replicate
  have hadjusted : adjustedSize ((suglen + 1) * ss.length - 1) (totalLength suglen ss) 0 =
      totalLength suglen ss := by
    rw [adjustedSize_of_nonneg (by decide) (by decide), Int.toNat_zero]
    omega
  rw [fsRead, Source.fullFileLength, hadjusted, hstrings, Option.bind_some,
    not_beyond (le_refl 0) (by decide) (.inl rfl)]
    at hread
  dsimp only at hread
  rw [owqParseOutputAsciiArray_full (by rw [length_of_readStrings hstrings]; exact htwo)
    hfull] at hread
  cases hread

end

/-! ## Structure entries -/

section

variable {pr trim} {e : StructureEntry}

theorem whole_entry (h : e.text.length ≤ propertyLengthStructure) :
    Whole pr trim (.entry e : Source F D) e.text := by
  rw [Whole, fsRead, Source.fullFileLength, if_neg (Nat.not_lt.mpr h),
    owqParseOutputOffsetAndSize_eq (le_refl _) (le_refl 0) (Nat.zero_le _), List.take_length,
    window_zero, List.take_of_length_le h]
  obtain ⟨junk, hblit, -⟩ :=
    @blit_behind [] (List.replicate propertyLengthStructure 0) e.text (by simpa using h)
  rw [List.nil_append, List.length_nil, List.nil_append] at hblit
  rw [hblit, Option.map_some, Option.map_some, not_beyond (le_refl 0) (by decide) (.inl rfl)]
  exact ⟨_, _, rfl, Int.natCast_nonneg _, by simp⟩

theorem not_whole_entry (h : propertyLengthStructure < e.text.length) (text : Bytes) :
    ¬ Whole pr trim (.entry e : Source F D) text := by
  rintro ⟨ret, buffer, hread, hnonneg, -⟩
  rw [fsRead, if_pos h] at hread
  cases hread
  exact absurd hnonneg (by decide)

/-- Of an offset before its start the text is copied from there. -/
theorem not_readsSlices_entry (h : e.text.length ≤ propertyLengthStructure) :
    ¬ ReadsSlices pr trim (.entry e : Source F D) := by
  rintro ⟨hslices, -⟩
  obtain ⟨ret, buffer, hread, -⟩ :=
    hslices _ (whole_entry h) 1 (-1) [0] (by decide) (by decide) (by decide) (by decide)
  have hcopy : min ((e.text.length : Int) - -1).toNat 1 = 1 := by omega
  rw [fsRead, if_neg (Nat.not_lt.mpr h), owqParseOutputOffsetAndSize,
    if_neg (by dsimp only; omega)] at hread
  dsimp only at hread
  rw [hcopy] at hread
  cases hread

end

/-! ## All properties -/

/-- **Reading at an offset.** Which properties are read as pieces of their text. -/
theorem readsSlices_iff (p : LocalProperty F D) :
    ReadsSlices pr trim p.source ↔ p.source.Sliceable pr trim := by
  obtain ⟨source, hlength⟩ := p
  dsimp only
  cases source with
  | value v => exact iff_of_true readsSlices_value trivial
  | text suglen s =>
    exact iff_of_true (readsSlices_of_slices hlength (slices_text hlength s)
      (List.length_take_le _ _)) trivial
  | values format vs huniform =>
    constructor
    · intro h
      by_contra hnot
      rw [Source.Sliceable, not_or, not_exists] at hnot
      exact not_readsSlices_values hlength (by omega)
        (fun v hv => Nat.not_lt.mp fun hlong => hnot.2 v ⟨hv, hlong⟩) h
    · rintro (hle | hlong)
      · match vs, hle with
        | [], _ => exact readsSlices_of_slices hlength (slices_empty huniform) (Nat.zero_le _)
        | [v], _ =>
          rw [readsSlices_congr (fullFileLength_singleton huniform) (fsRead_singleton huniform)]
          exact readsSlices_value
      · exact readsSlices_of_not_whole (not_whole_values hlong)
  | texts suglen ss =>
    by_cases hone : ss.length ≤ 1
    · rw [readsSlices_congr (fullFileLength_texts hone) (fsRead_texts hone)]
      rw [fullFileLength_texts hone] at hlength
      rw [readsSlices_binaries_iff hlength]
      exact (and_iff_right hone).symm
    · exact iff_of_false (not_readsSlices_texts hlength (by omega)) fun h => hone h.1
  | binaries suglen ss => exact readsSlices_binaries_iff hlength
  | entry e =>
    by_cases h : propertyLengthStructure < e.text.length
    · exact iff_of_true (readsSlices_of_not_whole (not_whole_entry h)) h
    · exact iff_of_false (not_readsSlices_entry (Nat.not_lt.mp h)) h

/-- Two counters, 5 and 7. -/
def counters : Source Unit Unit :=
  .values .unsigned [.unsigned 5, .unsigned 7] (by simp [Value.format])

def plainPrinter : Printer Unit Unit :=
  ⟨fun _ _ => [chr '0'], fun _ => List.replicate 24 0, nofun, by simp⟩

/-- The text is `5,7`, but nothing is read from offset 1 on. -/
theorem counters_offset :
    Whole plainPrinter true counters (ascii "5,7") ∧ piece 1 25 (ascii "5,7") = ascii ",7" ∧
      fsRead plainPrinter true counters 25 1 (List.replicate 25 0) = some (0, List.replicate 25 0) ∧
      ¬ ReadsSlices plainPrinter true counters := by
  have hwhole : Whole plainPrinter true counters (ascii "5,7") := ⟨3, _, rfl, by decide, by decide⟩
  have hread : fsRead plainPrinter true counters 25 1 (List.replicate 25 0) =
      some (0, List.replicate 25 0) := by decide
  refine ⟨hwhole, by decide, hread, fun h => ?_⟩
  have hgives :=
    h.slices _ hwhole 25 1 (List.replicate 25 0) (by decide) (by decide) (by decide) (by decide)
  rw [hread] at hgives
  exact not_gives_of_short (by decide) hgives

end Owfs.Property.Offset
