import Owfs.Property.Output

/-!
# Arrays of numbers

`FS_input_array_with_commas` (`ow_parseinput.c`) reads what a client writes to all elements of an
array. For integers, unsigned numbers and yes/no it gets back the array that was printed.
-/

namespace Owfs.Property

open Infra

/-! ## Reading numbers -/

/-- The string in `input_buffer`, which ends with a NUL. -/
def inputBuffer (text : Bytes) : Bytes := text.takeWhile (· ≠ 0)

/-- The answer for a number: an error, or 0. -/
def conversionError (c : Conversion) : Int :=
  if c.range then -erange else if c.found then 0 else -einval

/-- `FS_input_integer`: the answer, and what is in `OWQ_I` then. -/
def fsInputInteger (text : Bytes) : Int × BitVec 32 :=
  (conversionError (strtol (inputBuffer text)), BitVec.ofInt 32 (strtol (inputBuffer text)).value)

/-- `FS_input_unsigned` -/
def fsInputUnsigned (text : Bytes) : Int × BitVec 32 :=
  (conversionError (strtoul (inputBuffer text)), BitVec.ofInt 32 (strtoul (inputBuffer text)).value)

/-- `strncasecmp(s, word, strlen(word)) == 0`, for a word in lower case -/
def startsWith (s word : Bytes) : Bool := (s.take word.length).map toLower == word

/-- The words of `FS_input_yesno`, which start at the first character that is no blank. -/
def fsInputWord (s : Bytes) : Int × BitVec 32 :=
  match s.dropWhile fun b => b == chr ' ' || b == chr '\t' with
  | [] => (-efault, 0)
  | nonBlank =>
    if startsWith nonBlank (ascii "y") then (0, 1)
    else if startsWith nonBlank (ascii "n") then (0, 0)
    else if startsWith nonBlank (ascii "on") then (0, 1)
    else if startsWith nonBlank (ascii "off") then (0, 0)
    else (-einval, 0)

/-- `FS_input_yesno` -/
def fsInputYesno (text : Bytes) : Int × BitVec 32 :=
  let c := strtol (inputBuffer text)
  if c.range = false ∧ c.found = true then (0, if BitVec.ofInt 32 c.value ≠ 0 then 1 else 0)
  else fsInputWord (inputBuffer text)

/-- The formats of numbers. -/
inductive NumberFormat where
  | integer
  | unsigned
  | yesno
  deriving DecidableEq

def NumberFormat.format : NumberFormat → ValueFormat
  | .integer => .integer
  | .unsigned => .unsigned
  | .yesno => .yesno

def NumberFormat.value {F D : Type} : NumberFormat → BitVec 32 → Value F D
  | .integer => .integer
  | .unsigned => .unsigned
  | .yesno => .yesno

/-- `OWQ_parse_input` of a single number -/
def NumberFormat.owqParseInput : NumberFormat → Bytes → Int × BitVec 32
  | .integer => fsInputInteger
  | .unsigned => fsInputUnsigned
  | .yesno => fsInputYesno

/-- The end of the element that starts at `bufferPosition`. The last one goes to the end of the
buffer. -/
def elementEnd (remaining bufferPosition bufferEnd : Nat) (buffer : Bytes) : Option (Option Nat) :=
  if remaining = 0 then some (some bufferEnd)
  else memchr buffer bufferPosition (chr ',') (bufferEnd - bufferPosition)

/-- The loop of `FS_input_array_with_commas`. The first argument counts the elements that are
left. -/
def fsInputArrayWithCommasLoop (number : NumberFormat) (bufferEnd : Nat) (buffer : Bytes) :
    (remaining extension bufferPosition : Nat) → (array : List (BitVec 32)) → Option
    (Int × List (BitVec 32))
  | 0, _, _, array => some (0, array)
  | remaining + 1, extension, bufferPosition, array =>
    if extension ≠ 0 ∧ bufferEnd ≤ bufferPosition then some (-einval, array)
    else
      (elementEnd remaining bufferPosition bufferEnd buffer).bind fun
        | none => some (-einval, array)
        | some comma =>
          (slice buffer bufferPosition (comma - bufferPosition)).bind fun text =>
            if (number.owqParseInput text).1 ≠ 0 then some (-einval, array)
            else
              fsInputArrayWithCommasLoop number bufferEnd buffer remaining (extension + 1)
                (comma + 1)
                (array.set extension (number.owqParseInput text).2)

/-- `FS_input_array_with_commas`, for the `size` bytes of text that are in the buffer. -/
def fsInputArrayWithCommas (number : NumberFormat) (elements : Nat) (offset : Int) (size : Nat)
    (buffer : Bytes) (array : List (BitVec 32)) : Option (Int × List (BitVec 32)) :=
  if offset ≠ 0 then some (-einval, array)
  else fsInputArrayWithCommasLoop number size buffer elements 0 0 array

/-! ## Numbers that were printed -/

section

variable {F D : Type} (pr : Printer F D) (trim : Bool)

/-- The number in the text of a value. -/
def NumberFormat.print : NumberFormat → BitVec 32 → Bytes
  | .integer, n => signedDecimal n.toInt
  | .unsigned, n => decimal n.toNat
  | .yesno, n => decimal (if n &&& 1 = 0 then 0 else 1)

/-- A value is printed with blanks before it. -/
theorem exists_text_eq (number : NumberFormat) (n : BitVec 32) :
    ∃ k, (number.value n : Value F D).text pr trim = List.replicate k (chr ' ') ++
      number.print n := by
  cases number with
  | yesno =>
    refine ⟨0, ?_⟩
    show [if n &&& 1 = 0 then chr '0' else chr '1'] = decimal (if n &&& 1 = 0 then 0 else 1)
    split <;> decide
  | integer =>
    cases trim with
    | true => exact ⟨0, rfl⟩
    | false => exact ⟨_, rfl⟩
  | unsigned =>
    cases trim with
    | true => exact ⟨0, rfl⟩
    | false => exact ⟨_, rfl⟩

theorem NumberFormat.mem_print {number : NumberFormat} {n : BitVec 32} {b : Byte}
    (h : b ∈ number.print n) :
    b = chr '-' ∨ ∃ d < 10, b = digit d := by
  cases number with
  | integer =>
    rw [print, signedDecimal] at h
    split at h
    · obtain rfl | h := List.mem_cons.mp h
      · exact .inl rfl
      · exact .inr (mem_decimal h)
    · exact .inr (mem_decimal h)
  | unsigned => exact .inr (mem_decimal h)
  | yesno => exact .inr (mem_decimal h)

theorem digit_ne {d : Nat} (h : d < 10) : digit d ≠ 0 ∧ digit d ≠ chr ',' := by
  revert d
  decide

/-- Nothing in the text ends the string or the element. -/
theorem mem_text {number : NumberFormat} {n : BitVec 32} {b : Byte}
    (h : b ∈ (number.value n : Value F D).text pr trim) : b ≠ 0 ∧ b ≠ chr ',' := by
  obtain ⟨k, htext⟩ := exists_text_eq pr trim number n
  rw [htext] at h
  obtain h | h := List.mem_append.mp h
  · rw [List.eq_of_mem_replicate h]
    decide
  · obtain rfl | ⟨d, hd, rfl⟩ := NumberFormat.mem_print h
    · decide
    · exact digit_ne hd

theorem inputBuffer_text (number : NumberFormat) (n : BitVec 32) :
    inputBuffer ((number.value n : Value F D).text pr trim) =
      (number.value n : Value F D).text pr trim :=
  List.takeWhile_eq_self_iff.mpr fun _ hb => decide_eq_true (mem_text pr trim hb).1

theorem text_ne_nil (number : NumberFormat) (n : BitVec 32) :
    (number.value n : Value F D).text pr trim ≠ [] := by
  obtain ⟨k, htext⟩ := exists_text_eq pr trim number n
  have hprint : number.print n ≠ [] := by
    cases number with
    | integer =>
      rw [NumberFormat.print, signedDecimal]
      split
      · exact List.cons_ne_nil _ _
      · exact decimal_ne_nil _
    | unsigned => exact decimal_ne_nil _
    | yesno => exact decimal_ne_nil _
  rw [htext]
  exact List.append_ne_nil_of_right_ne_nil _ hprint

theorem NumberFormat.format_value (number : NumberFormat) (n : BitVec 32) :
    (number.value n : Value F D).format = number.format := by
  cases number <;> rfl

theorem length_text_le (number : NumberFormat) (n : BitVec 32) :
    ((number.value n : Value F D).text pr trim).length ≤ number.format.fileLength := by
  rw [← number.format_value (F := F) (D := D) n]
  refine Value.length_text_le pr trim _ fun f hf => ?_
  cases number <;> cases hf

theorem minSize_le_text (number : NumberFormat) (n : BitVec 32) :
    number.format.minSize ≤ ((number.value n : Value F D).text pr trim).length := by
  cases number with
  | integer | unsigned => exact Nat.zero_le _
  | yesno => exact le_refl 1

/-- A number that was printed is read. -/
theorem owqParseInput_text {number : NumberFormat} {n : BitVec 32}
    (hn : number = .yesno → n = 0 ∨ n = 1) :
    number.owqParseInput ((number.value n : Value F D).text pr trim) = (0, n) := by
  obtain ⟨k, htext⟩ := exists_text_eq pr trim number n
  have hbuffer := inputBuffer_text pr trim number n
  rw [htext] at hbuffer ⊢
  cases number with
  | integer =>
    have hlo := BitVec.le_toInt n
    have hhi := BitVec.toInt_lt (x := n)
    have hconv := strtol_signedDecimal k (i := n.toInt) (by omega) (by omega)
    rw [NumberFormat.owqParseInput, fsInputInteger, hbuffer, NumberFormat.print, hconv]
    dsimp only
    rw [BitVec.ofInt_toInt]
    rfl
  | unsigned =>
    have hconv := strtoul_decimal k (n := n.toNat) (Nat.lt_trans n.isLt (by decide))
    rw [NumberFormat.owqParseInput, fsInputUnsigned, hbuffer, NumberFormat.print, hconv]
    dsimp only
    rw [BitVec.ofInt_natCast, BitVec.ofNat_toNat, BitVec.setWidth_eq]
    rfl
  | yesno =>
    rw [NumberFormat.owqParseInput, fsInputYesno, hbuffer]
    obtain rfl | rfl := hn rfl
    · have hconv := strtol_signedDecimal k (i := 0) (by decide) (by decide)
      rw [show NumberFormat.print .yesno 0 = signedDecimal 0 by decide, hconv]
      rfl
    · have hconv := strtol_signedDecimal k (i := 1) (by decide) (by decide)
      rw [show NumberFormat.print .yesno 1 = signedDecimal 1 by decide, hconv]
      rfl

theorem joined_singleton (p : Bytes) : joined [p] = p := by
  rw [joined_cons, List.flatMap_nil, List.append_nil]

/-- The loop, when the elements before are in `done` and their text in `pre`. -/
theorem fsInputArrayWithCommasLoop_eq {number : NumberFormat} (n : BitVec 32)
    (ns : List (BitVec 32)) (pre junk : Bytes) (done : List (BitVec 32)) {todo : List (BitVec 32)}
    (htodo : todo.length = (n :: ns).length)
    (hns : number = .yesno → ∀ n' ∈ n :: ns, n' = 0 ∨ n' = 1) {text : Bytes}
    (htext : text = joined ((n :: ns).map fun n => (number.value n : Value F D).text pr trim)) :
    fsInputArrayWithCommasLoop number (pre.length + text.length) (pre ++ (text ++ junk))
      (n :: ns).length done.length
      pre.length (done ++ todo) = some (0, done ++ n :: ns) := by
  induction ns generalizing n pre done todo text with
  | nil =>
    obtain ⟨m, rfl⟩ := List.length_eq_one_iff.mp htodo
    rw [List.map_singleton, joined_singleton] at htext
    have hpos : 0 < text.length := by
      rw [htext]
      exact List.length_pos_iff.mpr (text_ne_nil pr trim number n)
    rw [List.length_singleton, fsInputArrayWithCommasLoop, if_neg (by omega), elementEnd,
      if_pos rfl, Option.bind_some]
    dsimp only
    rw [Nat.add_sub_cancel_left, slice_append_mid, Option.bind_some, htext,
      owqParseInput_text pr trim fun h => hns h n List.mem_cons_self, if_neg (by simp)]
    simp [fsInputArrayWithCommasLoop]
  | cons n' ns ih =>
    obtain ⟨m, todo, rfl⟩ := List.exists_cons_of_length_eq_add_one htodo
    generalize ht : (number.value n : Value F D).text pr trim = t
    generalize hrest : joined ((n' :: ns).map fun n => (number.value n : Value F D).text pr trim) =
      rest
    replace htext : text = t ++ chr ',' :: rest := by
      rw [htext, ← hrest, ← ht]
      exact joined_cons_cons ..
    have hcomma : chr ',' ∉ t := by
      intro h
      rw [← ht] at h
      exact (mem_text pr trim h).2 rfl
    have hmem : chr ',' ∈ text := by
      rw [htext]
      simp
    have hlen : text.length = t.length + (1 + rest.length) := by
      rw [htext, List.length_append, List.length_cons]
      omega
    have hslice : slice (pre ++ (text ++ junk)) pre.length t.length = some t := by
      have := slice_append_mid pre t (chr ',' :: (rest ++ junk))
      rwa [← List.cons_append, ← List.append_assoc t, ← htext] at this
    have hblock : pre ++ (text ++ junk) = (pre ++ t ++ [chr ',']) ++ (rest ++ junk) := by
      rw [htext]
      simp
    rw [List.length_cons, fsInputArrayWithCommasLoop, if_neg (by omega), elementEnd,
      if_neg (by simp), Nat.add_sub_cancel_left, memchr_append, if_pos hmem, Option.bind_some]
    dsimp only
    rw [htext, before_append hcomma, ← htext, Nat.add_sub_cancel_left, hslice, Option.bind_some,
      ← ht, owqParseInput_text pr trim fun h => hns h n List.mem_cons_self, ht, if_neg (by simp),
      hblock]
    have := ih n' (pre ++ t ++ [chr ',']) (done ++ [n]) (Nat.succ.inj htodo)
      (fun h x hx => hns h x (List.mem_cons_of_mem _ hx)) hrest.symm
    simpa [hlen, Nat.add_assoc] using this

end

/-- **A printed array is read back.** The text of an array of numbers is not longer than the file,
and it stands for the same array. -/
theorem numberArray_roundtrip {F D : Type} (pr : Printer F D) (trim : Bool) (number : NumberFormat)
    (ns : List (BitVec 32)) (hns : number = .yesno → ∀ n ∈ ns, n = 0 ∨ n = 1) (buffer : Bytes)
    (size : Nat) (hsize : number.format.fullFileLength ns.length ≤ size)
    (hbuffer : size ≤ buffer.length) (array : List (BitVec 32))
    (harray : array.length = ns.length) :
    ∃ (length : Nat) (buffer' : Bytes),
      owqParseOutputArrayWithCommas pr trim (ns.map number.value) ⟨buffer, 0, size, 0⟩ =
      some ((length : Int), buffer') ∧
      length ≤ number.format.fullFileLength ns.length ∧
      fsInputArrayWithCommas number ns.length 0 length buffer' array = some (0, ns) := by
  generalize hts : ns.map (fun n => (number.value n : Value F D).text pr trim) = ts
  have hlen : ts.length = ns.length := by rw [← hts, List.length_map]
  have htexts : ∀ t ∈ ts, Printable number.format t := by
    intro t ht
    rw [← hts] at ht
    obtain ⟨n, -, rfl⟩ := List.mem_map.mp ht
    exact ⟨minSize_le_text pr trim number n, length_text_le pr trim number n,
      text_ne_nil pr trim number n⟩
  have hsum := sum_length_le fun t ht => (htexts t ht).fileLength
  rw [hlen] at hsum
  have hrender :=
    render_joined htexts (r := size) (by rw [ValueFormat.fullFileLength] at hsize; omega)
  have hmap : (ns.map (number.value : BitVec 32 → Value F D)).map (Value.text pr trim) = ts := by
    rw [List.map_map]
    exact hts
  have hformat : ∀ v ∈ ns.map (number.value : BitVec 32 → Value F D), v.format = number.format := by
    intro v hv
    obtain ⟨n, -, rfl⟩ := List.mem_map.mp hv
    exact number.format_value n
  have hloop :=
    owqParseOutputArrayWithCommas_eq pr trim (le_refl 0) (by decide) (by simp [beyond]) hformat
      hbuffer
  rw [hmap, hrender] at hloop
  obtain ⟨text, junk, htext, hout⟩ | ⟨e, buffer', hnone, -⟩ := hloop
  · cases htext
    refine ⟨(joined ts).length, joined ts ++ junk, hout, ?_, ?_⟩
    · rw [ValueFormat.fullFileLength]
      by_cases hne : ts = []
      · rw [hne]
        exact Nat.zero_le _
      · have := length_joined hne
        omega
    · rw [fsInputArrayWithCommas, if_neg (by simp)]
      cases ns with
      | nil =>
        rw [List.length_nil, List.length_eq_zero_iff] at harray
        rw [harray]
        rfl
      | cons n ns =>
        have :=
          fsInputArrayWithCommasLoop_eq pr trim n ns [] junk [] harray hns
            (congrArg joined hts.symm)
        simpa using this
  · cases hnone

/-- The smallest and the largest integer. -/
theorem numberArray_roundtrip_extremes :
    ∃ (length : Nat) (buffer' : Bytes),
      owqParseOutputArrayWithCommas (⟨fun _ _ => [chr '0'], fun _ => List.replicate 24 0, nofun,
      by simp⟩ : Printer Unit Unit) true
          ([0x80000000, 0x7FFFFFFF].map NumberFormat.integer.value) ⟨List.replicate 25 0, 0, 25, 0⟩
        = some ((length : Int), buffer') ∧
      length ≤ 25 ∧
      fsInputArrayWithCommas .integer 2 0 length buffer' [0, 0] =
      some (0, [0x80000000, 0x7FFFFFFF]) :=
  numberArray_roundtrip _ true .integer [0x80000000, 0x7FFFFFFF] nofun (List.replicate 25 0) 25
    (by decide) (by decide)
    [0, 0] rfl

end Owfs.Property
