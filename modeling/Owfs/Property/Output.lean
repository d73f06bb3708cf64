import Owfs.Infra.Decimal
import Owfs.Property.AsciiArray

/-!
# Values as text

`OWQ_parse_output` (`ow_parseoutput.c`) writes the value of a property into the buffer of the
client: the values of an array with commas between them, each one by the function for its format.
The client says how many bytes it wants (`size`), and from where in the text on (`offset`).

How a floating point number and a date are printed is left open.
-/

namespace Owfs.Property

open Infra

/-! ## Formats -/

/-- The formats whose values are not strings. `ft_bitfield` is printed like `ft_yesno`, and the
formats for temperatures and pressures like `ft_float`. -/
inductive ValueFormat where
  | integer
  | unsigned
  | yesno
  | float
  | date
  deriving DecidableEq

/-- `FileLength`, for these formats -/
def ValueFormat.fileLength : ValueFormat → Nat
  | .integer => 12
  | .unsigned => 12
  | .yesno => 1
  | .float => 12
  | .date => 24

/-- `FullFileLength` of an array with commas. There is no array without elements. -/
def ValueFormat.fullFileLength (format : ValueFormat) (elements : Nat) : Nat :=
  (format.fileLength + 1) * elements - 1

variable {F D : Type}

/-- `union value_object`, for these formats -/
inductive Value (F D : Type) where
  | integer (i : BitVec 32)
  | unsigned (u : BitVec 32)
  | yesno (y : BitVec 32)
  | float (f : F)
  | date (d : D)

def Value.format : Value F D → ValueFormat
  | .integer _ => .integer
  | .unsigned _ => .unsigned
  | .yesno _ => .yesno
  | .float _ => .float
  | .date _ => .date

/-- How floating point numbers (with and without trimming) and dates are printed. -/
structure Printer (F D : Type) where
  float : Bool → F → Bytes
  ctime : D → Bytes
  float_ne_nil : ∀ trim f, float trim f ≠ []
  length_ctime : ∀ d, 24 ≤ (ctime d).length

/-! ## Single values -/

/-- The part of `struct one_wire_query` that says where the text goes to. `position` is where
`OWQ_buffer` points to in the buffer of the client. -/
structure OutputQuery where
  buffer : Bytes
  position : Nat
  size : Nat
  offset : Int

/-- `&string[offset]`, where nothing is before the start. -/
def sliceFrom (string : Bytes) (offset : Int) (n : Nat) : Option Bytes :=
  if n = 0 then some [] else if offset < 0 then none else slice string offset.toNat n

/-- `OWQ_parse_output_offset_and_size`: the number of bytes or an error, and the buffer then. -/
def owqParseOutputOffsetAndSize (string : Bytes) (length : Nat) (q : OutputQuery) :
    Option (Int × Bytes) :=
  if (length : Int) < q.offset then some (0, q.buffer)
  else do
    let copyLength := min ((length : Int) - q.offset).toNat q.size
    let d ← sliceFrom string q.offset copyLength
    let buffer ← blit q.buffer q.position d
    some (copyLength, buffer)

/-- A text that `snprintf` made. One that is too long is an error. -/
def owqParseOutputFormatted (propertyLength : Nat) (c : Bytes) (q : OutputQuery) :
    Option (Int × Bytes) :=
  if propertyLength < c.length then some (-emsgsize, q.buffer)
  else owqParseOutputOffsetAndSize c c.length q

/-- `OWQ_parse_output_integer` -/
def owqParseOutputInteger (trim : Bool) (i : BitVec 32) : OutputQuery → Option (Int × Bytes) :=
  owqParseOutputFormatted 12 (if trim then signedDecimal i.toInt
    else padLeft 12 (signedDecimal i.toInt))

/-- `OWQ_parse_output_unsigned` -/
def owqParseOutputUnsigned (trim : Bool) (u : BitVec 32) : OutputQuery → Option (Int × Bytes) :=
  owqParseOutputFormatted 12 (if trim then decimal u.toNat else padLeft 12 (decimal u.toNat))

/-- `OWQ_parse_output_float` -/
def owqParseOutputFloat (pr : Printer F D) (trim : Bool) (f : F) :
    OutputQuery → Option (Int × Bytes) :=
  owqParseOutputFormatted 12 (pr.float trim f)

/-- `OWQ_parse_output_date` -/
def owqParseOutputDate (pr : Printer F D) (d : D) (q : OutputQuery) : Option (Int × Bytes) :=
  if q.size < 24 then some (-emsgsize, q.buffer)
  else owqParseOutputOffsetAndSize (pr.ctime d) 24 q

/-- `OWQ_parse_output_yesno` -/
def owqParseOutputYesno (y : BitVec 32) (q : OutputQuery) : Option (Int × Bytes) :=
  if q.size < 1 then some (-emsgsize, q.buffer)
  else (store q.buffer q.position (if y &&& 1 = 0 then chr '0' else chr '1')).map fun buffer =>
    (1, buffer)

/-- `(unsigned long) OWQ_offset(owq)` -/
def unsignedLong (offset : Int) : Nat := (offset % 2 ^ 64).toNat

/-- The check at the start of `OWQ_parse_output`. -/
def beyond (offset : Int) (fileLength : Nat) : Bool :=
  offset ≠ 0 ∧ fileLength ≤ unsignedLong offset

/-- `OWQ_parse_output` of a single value -/
def owqParseOutputValue (pr : Printer F D) (trim : Bool) (v : Value F D) (q : OutputQuery) :
    Option (Int × Bytes) :=
  if beyond q.offset v.format.fileLength then some (0, q.buffer)
  else
    match v with
    | .integer i => owqParseOutputInteger trim i q
    | .unsigned u => owqParseOutputUnsigned trim u q
    | .yesno y => owqParseOutputYesno y q
    | .float f => owqParseOutputFloat pr trim f q
    | .date d => owqParseOutputDate pr d q

/-! ## Arrays -/

/-- The comma before an element, if there is something before it. There is none without room. -/
def addComma (usedSize remainingSize : Nat) (q : OutputQuery) :
    Option (Option (Nat × Nat × Bytes)) :=
  if usedSize = 0 then some (some (usedSize, remainingSize, q.buffer))
  else if remainingSize = 0 then some none
  else (store q.buffer (q.position + usedSize) (chr ',')).map fun buffer =>
    some (usedSize + 1, remainingSize - 1, buffer)

/-- The loop of `OWQ_parse_output_array_with_commas` -/
def arrayWithCommasLoop (pr : Printer F D) (trim : Bool) :
    List (Value F D) → (usedSize remainingSize : Nat) → OutputQuery → Option (Int × Bytes)
  | [], usedSize, _, q => some (usedSize, q.buffer)
  | v :: vs, usedSize, remainingSize, q =>
    (addComma usedSize remainingSize q).bind fun
      | none => some (-efault, q.buffer)
      | some (usedSize, remainingSize, buffer) =>
        (owqParseOutputValue pr trim v
          ⟨buffer, q.position + usedSize, remainingSize, q.offset⟩).bind fun (len, buffer) =>
          if len < 0 then some (len, buffer)
          else arrayWithCommasLoop pr trim vs (usedSize + len.toNat) (remainingSize - len.toNat)
            { q with buffer }

/-- `OWQ_parse_output_array_with_commas` -/
def owqParseOutputArrayWithCommas (pr : Printer F D) (trim : Bool) (vs : List (Value F D))
    (q : OutputQuery) :
    Option (Int × Bytes) :=
  arrayWithCommasLoop pr trim vs 0 q.size q

/-! ## What is printed -/

/-- The whole text of a value. -/
def Value.text (pr : Printer F D) (trim : Bool) : Value F D → Bytes
  | .integer i => if trim then signedDecimal i.toInt else padLeft 12 (signedDecimal i.toInt)
  | .unsigned u => if trim then decimal u.toNat else padLeft 12 (decimal u.toNat)
  | .yesno y => [if y &&& 1 = 0 then chr '0' else chr '1']
  | .float f => pr.float trim f
  | .date d => (pr.ctime d).take 24

/-- The smallest buffer that a value can be printed to. -/
def ValueFormat.minSize : ValueFormat → Nat
  | .yesno => 1
  | .date => 24
  | _ => 0

section

variable (pr : Printer F D) (trim : Bool) (v : Value F D) (q : OutputQuery)

theorem padLeft_length_le {n : Nat} {s : Bytes} (h : s.length ≤ n) : (padLeft n s).length = n := by
  rw [padLeft, List.length_append, List.length_replicate]
  omega

theorem length_signedDecimal_le (i : BitVec 32) : (signedDecimal i.toInt).length ≤ 11 := by
  have hlo := BitVec.le_toInt i
  have hhi := BitVec.toInt_lt (x := i)
  have hdigits : (decimal i.toInt.natAbs).length ≤ 10 := length_decimal_le (by decide) (by omega)
  unfold signedDecimal
  split
  · rw [List.length_cons]
    omega
  · omega

theorem length_decimal_toNat_le (u : BitVec 32) : (decimal u.toNat).length ≤ 10 :=
  length_decimal_le (by decide) (Nat.lt_trans u.isLt (by decide))

/-- Only the text of a floating point number can be too long. -/
theorem Value.length_text_le (h : ∀ f, v = .float f → (pr.float trim f).length ≤ 12) :
    (v.text pr trim).length ≤ v.format.fileLength := by
  cases v with
  | integer i =>
    have hi := length_signedDecimal_le i
    cases trim with
    | true => exact Nat.le_trans hi (show 11 ≤ 12 by decide)
    | false => exact le_of_eq (padLeft_length_le (by omega))
  | unsigned u =>
    have hu := length_decimal_toNat_le u
    cases trim with
    | true => exact Nat.le_trans hu (show 10 ≤ 12 by decide)
    | false => exact le_of_eq (padLeft_length_le (by omega))
  | yesno y => exact le_refl 1
  | float f => exact h f rfl
  | date d =>
    rw [Value.text, List.length_take]
    exact Nat.min_le_left ..

variable {v q}

theorem sliceFrom_eq {string : Bytes} {offset : Int} {n : Nat} (hoffset : 0 ≤ offset)
    (h : offset.toNat + n ≤ string.length) :
    sliceFrom string offset n = some ((string.drop offset.toNat).take n) := by
  unfold sliceFrom
  by_cases hn : n = 0
  · rw [if_pos hn, hn, List.take_zero]
  · rw [if_neg hn, if_neg (by omega), slice, if_pos h]

/-- The part of a text that is asked for. -/
def window (offset : Int) (size : Nat) (text : Bytes) : Bytes := (text.drop offset.toNat).take size

theorem window_zero (size : Nat) (text : Bytes) : window 0 size text = text.take size := rfl

/-- `OWQ_parse_output_offset_and_size` puts the part that is asked for into the buffer. -/
theorem owqParseOutputOffsetAndSize_eq {string : Bytes} {length : Nat}
    (hlength : length ≤ string.length) (hoffset : 0 ≤ q.offset)
    (hroom : q.position ≤ q.buffer.length) :
    owqParseOutputOffsetAndSize string length q =
      (blit q.buffer q.position (window q.offset q.size (string.take length))).map fun buffer =>
        (((window q.offset q.size (string.take length)).length : Int), buffer) := by
  unfold owqParseOutputOffsetAndSize
  by_cases hlt : (length : Int) < q.offset
  · have hnil : window q.offset q.size (string.take length) = [] := by
      rw [window, List.drop_eq_nil_of_le (by rw [List.length_take]; omega), List.take_nil]
    rw [if_pos hlt, hnil, blit, if_pos (by simpa using hroom)]
    simp
  · have hcopy : ((length : Int) - q.offset).toNat = length - q.offset.toNat := by omega
    have hwindow : (string.drop q.offset.toNat).take (min (length - q.offset.toNat) q.size)
        = window q.offset q.size (string.take length) := by
      rw [window, List.drop_take, List.take_take, Nat.min_comm]
    have hlen : (window q.offset q.size (string.take length)).length =
        min (length - q.offset.toNat) q.size := by
      rw [window, List.length_take, List.length_drop, List.length_take]
      omega
    rw [if_neg hlt, hcopy]
    dsimp only
    rw [sliceFrom_eq hoffset (by omega), hwindow, Option.bind_eq_bind, Option.bind_some, hlen]
    cases blit q.buffer q.position (window q.offset q.size (string.take length)) <;> rfl

theorem beyond_of_nonneg {offset : Int} {n : Nat} (hlo : 0 ≤ offset) (hhi : offset < 2 ^ 63) :
    beyond offset n = decide (offset ≠ 0 ∧ n ≤ offset.toNat) := by
  have hmod : offset % 2 ^ 64 = offset := Int.emod_eq_of_lt hlo (by omega)
  rw [beyond, unsignedLong, hmod]

theorem owqParseOutputFormatted_eq {propertyLength : Nat} {c : Bytes}
    (hc : c.length ≤ propertyLength) (hoffset : 0 ≤ q.offset)
    (hroom : q.position ≤ q.buffer.length) :
    owqParseOutputFormatted propertyLength c q =
      (blit q.buffer q.position (window q.offset q.size c)).map fun buffer =>
        (((window q.offset q.size c).length : Int), buffer) := by
  rw [owqParseOutputFormatted, if_neg (by omega),
    owqParseOutputOffsetAndSize_eq (le_refl _) hoffset hroom, List.take_length]

/-- A text that is too long, or a buffer that is too small. -/
def ValueFormat.Refused (format : ValueFormat) (size : Nat) (text : Bytes) : Prop :=
  size < format.minSize ∨ format.fileLength < text.length

instance (format : ValueFormat) (size : Nat) (text : Bytes) :
    Decidable (format.Refused size text) :=
  inferInstanceAs (Decidable (_ ∨ _))

theorem ValueFormat.not_refused {format : ValueFormat} {size : Nat} {text : Bytes}
    (hsize : format.minSize ≤ size) (hfits : text.length ≤ format.fileLength) :
    ¬ format.Refused size text :=
  not_or.mpr ⟨Nat.not_lt.mpr hsize, Nat.not_lt.mpr hfits⟩

theorem ValueFormat.refused_of_small {format : ValueFormat} {size : Nat} {text : Bytes}
    (h : size < format.minSize) :
    format.Refused size text := .inl h

theorem ValueFormat.refused_of_long {format : ValueFormat} {size : Nat} {text : Bytes}
    (h : format.fileLength < text.length) : format.Refused size text := .inr h

/-- A value is printed unless it is refused. -/
theorem owqParseOutputValue_eq (hlo : 0 ≤ q.offset) (hhi : q.offset < 2 ^ 63)
    (hroom : q.position ≤ q.buffer.length) (hbeyond : beyond q.offset v.format.fileLength = false) :
    owqParseOutputValue pr trim v q =
      if v.format.Refused q.size (v.text pr trim) then some (-emsgsize, q.buffer)
      else (blit q.buffer q.position (window q.offset q.size (v.text pr trim))).map fun buffer =>
        (((window q.offset q.size (v.text pr trim)).length : Int), buffer) := by
  unfold owqParseOutputValue
  rw [if_neg (by simp [hbeyond])]
  have hlength := v.length_text_le pr trim
  cases v with
  | integer i =>
    have hfits := hlength nofun
    rw [if_neg (ValueFormat.not_refused (Nat.zero_le _) hfits)]
    exact owqParseOutputFormatted_eq hfits hlo hroom
  | unsigned u =>
    have hfits := hlength nofun
    rw [if_neg (ValueFormat.not_refused (Nat.zero_le _) hfits)]
    exact owqParseOutputFormatted_eq hfits hlo hroom
  | float f =>
    by_cases hfits : (pr.float trim f).length ≤ 12
    · rw [if_neg (ValueFormat.not_refused (Nat.zero_le _) hfits)]
      exact owqParseOutputFormatted_eq hfits hlo hroom
    · rw [if_pos (ValueFormat.refused_of_long (Nat.not_le.mp hfits))]
      exact if_pos (Nat.not_le.mp hfits)
  | date d =>
    have hfits := hlength nofun
    dsimp only
    rw [owqParseOutputDate, owqParseOutputOffsetAndSize_eq (pr.length_ctime d) hlo hroom]
    by_cases hsize : q.size < 24
    · rw [if_pos hsize, if_pos (ValueFormat.refused_of_small hsize)]
    · rw [if_neg hsize, if_neg (ValueFormat.not_refused (Nat.not_lt.mp hsize) hfits)]
      rfl
  | yesno y =>
    -- any other offset is beyond the one byte
    have hzero : q.offset = 0 := by
      rw [beyond_of_nonneg hlo hhi, decide_eq_false_iff_not] at hbeyond
      by_contra hne
      exact hbeyond ⟨hne, show 1 ≤ q.offset.toNat by omega⟩
    have hfits := hlength nofun
    dsimp only
    rw [owqParseOutputYesno]
    by_cases hsize : q.size < 1
    · rw [if_pos hsize, if_pos (ValueFormat.refused_of_small hsize)]
    · obtain ⟨n, hn⟩ := Nat.exists_eq_add_of_le' (Nat.not_lt.mp hsize)
      have hwindow : window 0 (n + 1) (Value.text pr trim (.yesno y)) =
          Value.text pr trim (.yesno y) := by
        simp [window, Value.text]
      rw [if_neg hsize, if_neg (ValueFormat.not_refused (Nat.not_lt.mp hsize) hfits), hzero, hn,
        hwindow]
      rfl

end

/-! ## What an array is printed to -/

/-- The comma before an element, as text. -/
def renderComma (out : Bytes) (r : Nat) : Option (Bytes × Nat) :=
  if out = [] then some (out, r) else if r = 0 then none else some (out ++ [chr ','], r - 1)

/-- The text of an array, behind `out` and in at most `r` bytes, if it is not an error. -/
def render (format : ValueFormat) (offset : Int) :
    (texts : List Bytes) → (out : Bytes) → (r : Nat) → Option Bytes
  | [], out, _ => some out
  | t :: ts, out, r =>
    (renderComma out r).bind fun (out, r) =>
      if format.Refused r t then none
      else render format offset ts (out ++ window offset r t) (r - (window offset r t).length)

section

variable (pr : Printer F D) (trim : Bool) {format : ValueFormat} {offset : Int}

theorem length_window_le (offset : Int) (r : Nat) (t : Bytes) : (window offset r t).length ≤ r :=
  List.length_take_le _ _

/-- A write behind `out`. -/
theorem blit_behind (out : Bytes) {junk d : Bytes} (h : d.length ≤ junk.length) :
    ∃ junk', blit (out ++ junk) out.length d = some ((out ++ d) ++ junk') ∧
      junk.length = d.length + junk'.length := by
  obtain ⟨m, junk', hsplit, hm⟩ : ∃ m junk', junk = m ++ junk' ∧ d.length = m.length :=
    ⟨junk.take d.length, junk.drop d.length, (List.take_append_drop _ _).symm,
      by rw [List.length_take]; omega⟩
  refine ⟨junk', ?_, by rw [hsplit, List.length_append, hm]⟩
  rw [hsplit, blit_append_mid hm, List.append_assoc]

/-- The comma is written where `renderComma` has it. -/
theorem addComma_eq (out : Bytes) {junk : Bytes} {r : Nat} (hr : r ≤ junk.length) (size : Nat)
    (offset : Int) :
    (renderComma out r = none ∧ addComma out.length r ⟨out ++ junk, 0, size, offset⟩ = some none) ∨
      ∃ out' r' junk', renderComma out r = some (out', r') ∧ r' ≤ junk'.length ∧
        addComma out.length r ⟨out ++ junk, 0, size, offset⟩ =
        some (some (out'.length, r', out' ++ junk')) := by
  by_cases hout : out = []
  · subst hout
    exact .inr ⟨[], r, junk, rfl, hr, rfl⟩
  · have hpos : out.length ≠ 0 := by simpa using hout
    by_cases hzero : r = 0
    · refine .inl ⟨?_, ?_⟩
      · rw [renderComma, if_neg hout, if_pos hzero]
      · rw [addComma, if_neg hpos, if_pos hzero]
    · have hcomma : [chr ','].length ≤ junk.length := by
        rw [List.length_singleton]
        omega
      obtain ⟨junk', hblit, hlen⟩ := blit_behind out hcomma
      refine .inr ⟨out ++ [chr ','], r - 1, junk', ?_, ?_, ?_⟩
      · rw [renderComma, if_neg hout, if_neg hzero]
      · rw [List.length_singleton] at hlen
        omega
      · rw [addComma, if_neg hpos, if_neg hzero, store, Nat.zero_add, hblit]
        simp

/-- The loop prints what `render` says, and fails when it does. -/
theorem arrayWithCommasLoop_eq (hlo : 0 ≤ offset) (hhi : offset < 2 ^ 63)
    (hbeyond : beyond offset format.fileLength = false) (size : Nat) {vs : List (Value F D)}
    (hformat : ∀ v ∈ vs, v.format = format) {out junk : Bytes} {r : Nat} (hr : r ≤ junk.length) :
    (∃ text junk', render format offset (vs.map (Value.text pr trim)) out r = some text ∧
        arrayWithCommasLoop pr trim vs out.length r ⟨out ++ junk, 0, size, offset⟩ =
          some ((text.length : Int), text ++ junk')) ∨
      ∃ e buffer, render format offset (vs.map (Value.text pr trim)) out r = none ∧ e < 0 ∧
        arrayWithCommasLoop pr trim vs out.length r ⟨out ++ junk, 0, size, offset⟩ =
        some (e, buffer) := by
  induction vs generalizing out junk r with
  | nil => exact .inl ⟨out, junk, rfl, rfl⟩
  | cons v vs ih =>
    have hv := hformat v List.mem_cons_self
    rw [arrayWithCommasLoop, List.map_cons, render]
    obtain ⟨hrender, hadd⟩ | ⟨out', r', junk', hrender, hr', hadd⟩ := addComma_eq out hr size offset
    · exact .inr ⟨-efault, out ++ junk, by rw [hrender]; rfl, by decide, by rw [hadd]; rfl⟩
    · rw [hrender, hadd, Option.bind_some, Option.bind_some]
      dsimp only
      rw [Nat.zero_add, owqParseOutputValue_eq pr trim hlo hhi (by simp)
        (by rw [hv]; exact hbeyond), hv]
      dsimp only
      by_cases hmin : format.Refused r' (v.text pr trim)
      · rw [if_pos hmin, if_pos hmin]
        exact .inr ⟨-emsgsize, out' ++ junk', rfl, by decide, rfl⟩
      · rw [if_neg hmin, if_neg hmin]
        have hw := length_window_le offset r' (v.text pr trim)
        obtain ⟨junk'', hblit, hlen⟩ := blit_behind out' (Nat.le_trans hw hr')
        rw [hblit, Option.map_some, Option.bind_some]
        dsimp only
        rw [if_neg (by omega), Int.toNat_natCast, ← List.length_append]
        exact ih (fun v hv => hformat v (List.mem_cons_of_mem _ hv)) (by omega)

theorem owqParseOutputArrayWithCommas_eq (hlo : 0 ≤ offset) (hhi : offset < 2 ^ 63)
    (hbeyond : beyond offset format.fileLength = false) {vs : List (Value F D)}
    (hformat : ∀ v ∈ vs, v.format = format) {buffer : Bytes} {size : Nat}
    (hsize : size ≤ buffer.length) :
    (∃ text junk, render format offset (vs.map (Value.text pr trim)) [] size = some text ∧
        owqParseOutputArrayWithCommas pr trim vs ⟨buffer, 0, size, offset⟩ =
        some ((text.length : Int), text ++ junk)) ∨
      ∃ e buffer', render format offset (vs.map (Value.text pr trim)) [] size = none ∧ e < 0 ∧
        owqParseOutputArrayWithCommas pr trim vs ⟨buffer, 0, size, offset⟩ = some (e, buffer') :=
  arrayWithCommasLoop_eq pr trim hlo hhi hbeyond size hformat hsize

/-- A text that can be printed when there is room for it. -/
structure Printable (format : ValueFormat) (t : Bytes) : Prop where
  minSize : format.minSize ≤ t.length
  fileLength : t.length ≤ format.fileLength
  ne_nil : t ≠ []

theorem Printable.not_refused {t : Bytes} (h : Printable format t) {r : Nat} (hr : t.length ≤ r) :
    ¬ format.Refused r t :=
  ValueFormat.not_refused (Nat.le_trans h.minSize hr) h.fileLength

/-- With enough room all of it is printed, here behind something. -/
theorem render_behind {ts : List Bytes} (hts : ∀ t ∈ ts, Printable format t) {out : Bytes}
    (hout : out ≠ []) {r : Nat} (hr : (ts.map fun t => t.length + 1).sum ≤ r) :
    render format 0 ts out r = some (out ++ ts.flatMap (chr ',' :: ·)) := by
  induction ts generalizing out r with
  | nil => simp [render]
  | cons t ts ih =>
    rw [List.map_cons, List.sum_cons] at hr
    have hwindow : window 0 (r - 1) t = t := by
      rw [window_zero, List.take_of_length_le (by omega)]
    rw [render, renderComma, if_neg hout, if_neg (by omega), Option.bind_some]
    dsimp only
    rw [if_neg ((hts t List.mem_cons_self).not_refused (by omega)), hwindow,
      ih (fun t ht => hts t (List.mem_cons_of_mem _ ht)) (by simp) (by omega)]
    simp

/-- The same from the start. -/
theorem render_joined {ts : List Bytes} (hts : ∀ t ∈ ts, Printable format t) {r : Nat}
    (hr : (ts.map fun t => t.length + 1).sum ≤ r + 1) :
    render format 0 ts [] r = some (joined ts) := by
  cases ts with
  | nil => rfl
  | cons t ts =>
    have ht := hts t List.mem_cons_self
    rw [List.map_cons, List.sum_cons] at hr
    have hwindow : window 0 r t = t := by
      rw [window_zero, List.take_of_length_le (by omega)]
    rw [render, renderComma, if_pos rfl, Option.bind_some]
    dsimp only
    rw [if_neg (ht.not_refused (by omega)), hwindow, List.nil_append,
      render_behind (fun t ht => hts t (List.mem_cons_of_mem _ ht)) ht.ne_nil (by omega),
      joined_cons]

/-- Each text of an array takes one byte more than it is long, but there is one comma less. -/
theorem length_joined {ts : List Bytes} (hne : ts ≠ []) :
    (joined ts).length + 1 = (ts.map fun t => t.length + 1).sum := by
  obtain ⟨t, ts, rfl⟩ := List.exists_cons_of_ne_nil hne
  have hrest : (ts.flatMap (chr ',' :: ·)).length = (ts.map fun t => t.length + 1).sum := by
    rw [List.length_flatMap]
    rfl
  rw [joined_cons, List.length_append, hrest, List.map_cons, List.sum_cons]
  omega

theorem sum_length_le {ts : List Bytes} {n : Nat} (h : ∀ t ∈ ts, t.length ≤ n) :
    (ts.map fun t => t.length + 1).sum ≤ (n + 1) * ts.length := by
  rw [Nat.mul_comm, ← smul_eq_mul, ← List.length_map (f := fun t : Bytes => t.length + 1)]
  refine List.sum_le_card_nsmul _ _ fun m hm => ?_
  obtain ⟨t, ht, rfl⟩ := List.mem_map.mp hm
  exact Nat.succ_le_succ (h t ht)

end

end Owfs.Property
