import Owfs.Property.AsciiArray

/-!
# One element of an aggregate

A device that handles an array as one big object gets a new element by `FS_write_a_part`
(`ow_write.c`): the whole array is read, the element is put in its place, and all of it is written.
A value is in a cell of its own. Strings are packed one behind the other, and the bits of a bit
field are in one word.

For strings the loop that goes past the elements before counts up the wrong variable: the index of
the element, and not the one that runs. And the array is read into the buffer that
`OWQ_create_aggregate` makes, which has room for one byte.
-/

namespace Owfs.Property.Part

open Infra

/-! ## The code -/

/-- `OWQ_DEFAULT_READ_BUFFER_SIZE` -/
def owqDefaultReadBufferSize : Nat := 1

/-- The loop over the elements before, `for (extension_index = 0; extension_index < extension;
++extension)`. It goes on until the index is 0 again, or the pointer leaves the buffer. -/
def passPriorElements (firstLength : Nat) (buffer : Bytes) (extension : BitVec 64)
    (bufferPointer : Nat) :
    Option (BitVec 64 × Nat) :=
  if _h : extension = 0 then some (extension, bufferPointer)
  else if bufferPointer + firstLength ≤ buffer.length then
    passPriorElements firstLength buffer (extension + 1) (bufferPointer + firstLength)
  else none
termination_by (-extension).toNat
decreasing_by bv_omega

/-- The loop that moves the elements behind, with their lengths. -/
def moveElements : (lengths : List Nat) → (targetPointer bufferPointer : Nat) → (buffer : Bytes) →
    Option Bytes
  | [], _, _, buffer => some buffer
  | thisLength :: lengths, targetPointer, bufferPointer, buffer =>
    (memmove buffer targetPointer bufferPointer thisLength).bind
      (moveElements lengths (targetPointer + thisLength) (bufferPointer + thisLength))

/-- The branch of `FS_write_a_part` for strings: the buffer and the lengths that are written. -/
def writeStringPart (buffer : Bytes) (lengths : List Nat) (extension : Nat) (part : Bytes) :
    Option (Bytes × List Nat) := do
  let (extension, entryPointer) ← passPriorElements (lengths.getD 0 0) buffer
      (BitVec.ofNat 64 extension) 0
  let extension := extension.toNat
  let buffer ← moveElements (lengths.drop (extension + 1)) (entryPointer + part.length)
    (entryPointer + lengths.getD extension 0) buffer
  let buffer ← blit buffer entryPointer part
  some (buffer, lengths.set extension part.length)

/-- `UT_setbit_U` -/
def utSetbitU (u : BitVec 32) (loc : Nat) (bit : BitVec 32) : BitVec 32 :=
  if bit ≠ 0 then u ||| (1 : BitVec 32) <<< loc
  else if u.getLsbD loc then u ^^^ (1 : BitVec 32) <<< loc
  else u

/-- A write to an element, with the array that was read. -/
inductive PartWrite (V : Type) where
  | bit (byte : BitVec 32) (extension : Fin 32) (y : BitVec 32)
  | value (array : List V) (extension : Fin array.length) (v : V)
  /-- The strings fit into the buffer. An index is an `int`. -/
  | string (array : List Bytes) (extension : Fin array.length) (part : Bytes) (buffer : Bytes)
      (elements : array.length < 2 ^ 31) (size : buffer.length = owqDefaultReadBufferSize)
      (contents : array.flatten <+: buffer)

/-- What the write function of the device gets. -/
inductive Handed (V : Type) where
  | byte (byte : BitVec 32)
  | values (array : List V)
  | strings (buffer : Bytes) (lengths : List Nat)

variable {V : Type}

/-- `FS_write_a_part`, with `FS_write_a_bit` -/
def fsWriteAPart : PartWrite V → Option (Handed V)
  | .bit byte extension y => some (.byte (utSetbitU byte extension y))
  | .value array extension v => some (.values (array.set extension v))
  | .string array extension part buffer _ _ _ =>
    (writeStringPart buffer (array.map List.length) extension part).map fun (buffer, lengths) =>
      .strings buffer lengths

/-- Only the element has changed. -/
def PartWrite.Replaced : PartWrite V → Handed V → Prop
  | .bit byte extension y, .byte byte' =>
    ∀ i, byte'.getLsbD i = if i = extension.val then decide (y ≠ 0) else byte.getLsbD i
  | .value array extension v, .values array' =>
    array'.length = array.length ∧ ∀ i, array'[i]? = if i = extension.val then some v else array[i]?
  | .string array extension part _ _ _ _, .strings buffer lengths =>
      Packed (array.set extension part) buffer lengths
  | _, _ => False

/-- Values and bits can be written; of strings the first one, if there is room. Any other write of a
string is the same as one to the first string. -/
def PartWrite.Writable : PartWrite V → Prop
  | .bit _ _ _ | .value _ _ _ => True
  | .string array extension part _ _ _ _ =>
    if extension.val = 0 then (part ++ array.tail.flatten).length ≤ owqDefaultReadBufferSize
    else array[0]? = some [] ∧ array[extension.val]? = some [] ∧ part = []

/-! ## The loops -/

section

variable {buffer buffer' : Bytes} {lengths : List Nat} {targetPointer bufferPointer : Nat}

/-- Where the first string is empty, the loop comes back to it. -/
theorem passPriorElements_zero (extension : BitVec 64) (h : bufferPointer ≤ buffer.length) :
    passPriorElements 0 buffer extension bufferPointer = some (0, bufferPointer) := by
  induction hn : (-extension).toNat using Nat.strong_induction_on generalizing extension with
  | _ n ih =>
    rw [passPriorElements]
    by_cases hzero : extension = 0
    · rw [dif_pos hzero, hzero]
    · rw [dif_neg hzero, Nat.add_zero, if_pos h]
      exact ih _ (by bv_omega) _ rfl

/-- Otherwise the pointer leaves the buffer. -/
theorem passPriorElements_pos {firstLength extension : Nat} (hfirst : 0 < firstLength)
    (hpos : 0 < extension) (hextension : extension < 2 ^ 31)
    (hbuffer : buffer.length = owqDefaultReadBufferSize) :
    passPriorElements firstLength buffer (BitVec.ofNat 64 extension) 0 = none := by
  have hsize : buffer.length = 1 := hbuffer
  have hne : BitVec.ofNat 64 extension ≠ 0 := by bv_omega
  have hne' : BitVec.ofNat 64 extension + 1 ≠ 0 := by bv_omega
  rw [passPriorElements, dif_neg hne]
  split
  · rw [passPriorElements, dif_neg hne', if_neg (by omega)]
  · rfl

theorem length_moveElements
    (h : moveElements lengths targetPointer bufferPointer buffer = some buffer') :
    buffer'.length = buffer.length := by
  induction lengths generalizing targetPointer bufferPointer buffer with
  | nil => rw [Option.some.inj h]
  | cons n lengths ih =>
    obtain ⟨b, hmove, h⟩ := Option.bind_eq_some_iff.mp h
    rw [ih h, length_memmove hmove]

theorem moveElements_self (h : bufferPointer + lengths.sum ≤ buffer.length) :
    moveElements lengths bufferPointer bufferPointer buffer = some buffer := by
  induction lengths generalizing bufferPointer with
  | nil => rfl
  | cons n lengths ih =>
    rw [List.sum_cons] at h
    rw [moveElements, memmove_self (by omega), Option.bind_some]
    exact ih (by omega)

theorem moveElements_empty (hlengths : lengths.sum = 0) (htarget : targetPointer ≤ buffer.length)
    (hpointer : bufferPointer ≤ buffer.length) :
    moveElements lengths targetPointer bufferPointer buffer = some buffer := by
  induction lengths with
  | nil => rfl
  | cons n lengths ih =>
    rw [List.sum_cons] at hlengths
    obtain rfl : n = 0 := by omega
    rw [moveElements, memmove_zero htarget hpointer, Option.bind_some]
    exact ih (by omega)

/-- The strings behind do not fit. -/
theorem moveElements_none (hlengths : 0 < lengths.sum)
    (h : buffer.length < targetPointer + lengths.sum) :
    moveElements lengths targetPointer bufferPointer buffer = none := by
  induction lengths generalizing targetPointer bufferPointer buffer with
  | nil => exact absurd hlengths (by simp)
  | cons n lengths ih =>
    rw [List.sum_cons] at h
    rw [moveElements, Option.bind_eq_none_iff]
    intro b hmove
    have hfits : targetPointer + n ≤ buffer.length := by
      obtain ⟨d, hslice, hblit⟩ := Option.bind_eq_some_iff.mp hmove
      rw [blit] at hblit
      split at hblit
      · next hle => rwa [length_slice hslice] at hle
      · cases hblit
    exact ih (by omega) (by rw [length_memmove hmove]; omega)

end

/-! ## Strings -/

section

variable {first part buffer : Bytes} {others : List Bytes}

/-- Everything after the loop that comes back to the first string. -/
def writeFirst (first part buffer : Bytes) (others : List Bytes) : Option (Bytes × List Nat) :=
  ((moveElements (others.map List.length) part.length first.length buffer).bind fun buffer =>
    blit buffer 0 part).map
    fun buffer => (buffer, part.length :: others.map List.length)

theorem writeStringPart_eq {extension : Nat}
    (h : passPriorElements first.length buffer (BitVec.ofNat 64 extension) 0 = some (0, 0)) :
    writeStringPart buffer ((first :: others).map List.length) extension part =
      writeFirst first part buffer others := by
  unfold writeStringPart
  rw [List.map_cons, List.getD_cons_zero, h]
  simp only [Option.bind_eq_bind, Option.bind_some, writeFirst]
  show ((moveElements (others.map List.length) (0 + part.length) (0 + first.length) buffer).bind
    fun buffer =>
    (blit buffer 0 part).bind fun buffer =>
      some (buffer, part.length :: others.map List.length)) = _
  rw [Nat.zero_add, Nat.zero_add, Option.map_bind]
  congr 1
  funext b
  rw [Function.comp_apply]
  cases blit b 0 part <;> rfl

/-- The first string is replaced if there is room. -/
theorem writeFirst_eq (hbuffer : buffer.length = owqDefaultReadBufferSize)
    (hcontents : (first :: others).flatten <+: buffer)
    (hroom : (part ++ others.flatten).length ≤ owqDefaultReadBufferSize) :
    ∃ buffer', writeFirst first part buffer others =
      some (buffer', (part :: others).map List.length) ∧
      (part :: others).flatten <+: buffer' := by
  have hsize : buffer.length = 1 := hbuffer
  have hold := hcontents.length_le
  have hlengths : (others.map List.length).sum = others.flatten.length := List.length_flatten.symm
  have hnew : part.length + others.flatten.length ≤ 1 := by
    rw [← List.length_append]
    exact hroom
  rw [List.flatten_cons] at hcontents hold
  rw [List.length_append] at hold
  -- with one byte in all, nothing is moved
  have hmoved : moveElements (others.map List.length) part.length first.length buffer =
      some buffer := by
    by_cases hothers : others.flatten.length = 0
    · exact moveElements_empty (hlengths.trans hothers) (by omega) (by omega)
    · obtain ⟨hp, hf⟩ : part.length = 0 ∧ first.length = 0 := by omega
      rw [hp, hf]
      exact moveElements_self (by omega)
  rw [writeFirst, hmoved, Option.bind_some, List.flatten_cons]
  cases hpart : part with
  | nil =>
    refine ⟨buffer, by rw [blit_nil (Nat.zero_le _)]; rfl, ?_⟩
    by_cases hothers : others.flatten.length = 0
    · rw [List.length_eq_zero_iff.mp hothers]
      exact List.nil_prefix
    · have hf : first = [] := List.length_eq_zero_iff.mp (by omega)
      rwa [hf] at hcontents
  | cons b rest =>
    subst hpart
    rw [List.length_cons] at hnew
    have hothers : others.flatten = [] := List.length_eq_zero_iff.mp (by omega)
    have hblit : blit buffer 0 (b :: rest) =
        some ((b :: rest) ++ buffer.drop (b :: rest).length) := by
      rw [blit, if_pos (by rw [List.length_cons]; omega)]
      simp
    rw [hblit, hothers, List.append_nil]
    exact ⟨_, rfl, List.prefix_append _ _⟩

theorem writeFirst_none (hbuffer : buffer.length = owqDefaultReadBufferSize)
    (hroom : owqDefaultReadBufferSize < (part ++ others.flatten).length) :
    writeFirst first part buffer others = none := by
  have hlengths : (others.map List.length).sum = others.flatten.length := List.length_flatten.symm
  rw [List.length_append] at hroom
  rw [writeFirst, Option.map_eq_none_iff]
  by_cases hothers : others.flatten.length = 0
  · rw [Option.bind_eq_none_iff]
    intro b hmoved
    rw [blit, if_neg (by rw [length_moveElements hmoved]; omega)]
  · rw [moveElements_none (by omega) (by omega), Option.bind_none]

end

theorem getLsbD_utSetbitU (u : BitVec 32) {loc : Nat} (hloc : loc < 32) (bit : BitVec 32)
    (i : Nat) :
    (utSetbitU u loc bit).getLsbD i = if i = loc then decide (bit ≠ 0) else u.getLsbD i := by
  have hone : ((1 : BitVec 32) <<< loc).getLsbD i = decide (i = loc) := by
    by_cases hi : i = loc
    · subst hi
      simp [hloc]
    · simp [hi]
      omega
  unfold utSetbitU
  by_cases hbit : bit = 0
  · rw [if_neg (by simpa using hbit)]
    by_cases hset : u.getLsbD loc = true
    · rw [if_pos hset, BitVec.getLsbD_xor, hone]
      by_cases hi : i = loc
      · simp [hi, hset, hbit]
      · simp [hi]
    · rw [if_neg hset]
      by_cases hi : i = loc
      · simpa [hi, hbit] using hset
      · simp [hi]
  · rw [if_pos hbit, BitVec.getLsbD_or, hone]
    by_cases hi : i = loc
    · simpa [hi] using hbit
    · simp [hi]

/-- Strings: what is written, for the first string and for the others. -/
theorem replaced_string_iff {array : List Bytes} {extension : Fin array.length}
    {part buffer : Bytes} (helements : array.length < 2 ^ 31)
    (hbuffer : buffer.length = owqDefaultReadBufferSize) (hcontents : array.flatten <+: buffer) :
    (∃ buffer' lengths, writeStringPart buffer (array.map List.length) extension part =
      some (buffer', lengths) ∧
        Packed (array.set extension part) buffer' lengths) ↔
      if extension.val = 0 then (part ++ array.tail.flatten).length ≤ owqDefaultReadBufferSize
      else array[0]? = some [] ∧ array[extension.val]? = some [] ∧ part = [] := by
  obtain ⟨k, hk⟩ := extension
  dsimp only
  obtain ⟨first, others, rfl⟩ :=
    List.exists_cons_of_ne_nil (List.ne_nil_of_length_pos (Nat.zero_lt_of_lt hk))
  by_cases hzero : k = 0
  · subst hzero
    have hpass : passPriorElements first.length buffer (BitVec.ofNat 64 0) 0 = some (0, 0) := by
      rw [passPriorElements]
      rfl
    rw [if_pos rfl, writeStringPart_eq hpass, List.set_cons_zero, List.tail_cons]
    constructor
    · rintro ⟨buffer', lengths, heq, -⟩
      by_contra hroom
      rw [writeFirst_none hbuffer (by omega)] at heq
      cases heq
    · intro hroom
      obtain ⟨buffer', heq, hbegins⟩ := writeFirst_eq hbuffer hcontents hroom
      exact ⟨buffer', _, heq, hbegins, rfl⟩
  · rw [if_neg hzero]
    obtain ⟨j, rfl⟩ := Nat.exists_eq_succ_of_ne_zero hzero
    rw [List.getElem?_cons_zero, List.getElem?_cons_succ, List.set_cons_succ]
    by_cases hfirst : first = []
    · subst hfirst
      -- the index is 0 in the end
      have hpass : passPriorElements ([] : Bytes).length buffer (BitVec.ofNat 64 (j + 1)) 0 =
          some (0, 0) :=
        passPriorElements_zero _ (Nat.zero_le _)
      have hj : j < others.length := Nat.lt_of_succ_lt_succ hk
      rw [writeStringPart_eq hpass]
      constructor
      · rintro ⟨buffer', lengths, heq, hpacked⟩
        obtain ⟨b, -, hb⟩ := Option.map_eq_some_iff.mp heq
        obtain ⟨hhead, htail⟩ := List.cons.inj ((Prod.mk.inj hb).2.trans hpacked.lengths)
        have hpart : part = [] := List.length_eq_zero_iff.mp hhead
        have hsame := congrArg (fun l => l[j]?) htail
        simp only [List.getElem?_map, List.getElem?_set_self hj, List.getElem?_eq_getElem hj, hpart,
          Option.map_some, Option.some.injEq] at hsame
        exact ⟨rfl, by rw [List.getElem?_eq_getElem hj, List.length_eq_zero_iff.mp hsame], hpart⟩
      · rintro ⟨-, hj', rfl⟩
        obtain ⟨_, hvalue⟩ := List.getElem?_eq_some_iff.mp hj'
        have hset : others.set j [] = others := by
          rw [← hvalue]
          exact List.set_getElem_self hj
        have hroom : (([] : Bytes) ++ others.flatten).length ≤ owqDefaultReadBufferSize := by
          rw [← hbuffer]
          exact hcontents.length_le
        obtain ⟨buffer', heq, hbegins⟩ := writeFirst_eq hbuffer hcontents hroom
        exact ⟨buffer', _, heq, by rw [hset]; exact hbegins, by rw [hset]⟩
    · have hlength : 0 < first.length := List.length_pos_iff.mpr hfirst
      have hpass :=
        passPriorElements_pos hlength (Nat.succ_pos j) (Nat.lt_trans hk helements) hbuffer
      have hnone : writeStringPart buffer ((first :: others).map List.length) (j + 1) part =
          none := by
        rw [writeStringPart, List.map_cons, List.getD_cons_zero, hpass]
        rfl
      constructor
      · rintro ⟨buffer', lengths, heq, -⟩
        rw [hnone] at heq
        cases heq
      · rintro ⟨h, -⟩
        exact absurd (Option.some.inj h) hfirst

/-- The element is replaced and nothing else, exactly when the write is one of these. -/
theorem fsWriteAPart_iff (w : PartWrite V) :
    (∃ handed, fsWriteAPart w = some handed ∧ w.Replaced handed) ↔ w.Writable := by
  cases w with
  | bit byte extension y =>
    refine ⟨fun _ => trivial, fun _ => ⟨_, rfl, ?_⟩⟩
    exact getLsbD_utSetbitU byte extension.isLt y
  | value array extension v =>
    refine ⟨fun _ => trivial, fun _ => ⟨_, rfl, List.length_set, fun i => ?_⟩⟩
    rw [List.getElem?_set]
    by_cases hi : i = extension.val
    · rw [if_pos hi, if_pos hi.symm, if_pos extension.isLt]
    · rw [if_neg hi, if_neg (Ne.symm hi)]
  | string array extension part buffer helements hbuffer hcontents =>
    rw [PartWrite.Writable, ← replaced_string_iff helements hbuffer hcontents]
    constructor
    · rintro ⟨handed, heq, hreplaced⟩
      obtain ⟨⟨buffer', lengths⟩, hwrite, rfl⟩ := Option.map_eq_some_iff.mp heq
      exact ⟨buffer', lengths, hwrite, hreplaced⟩
    · rintro ⟨buffer', lengths, hwrite, hpacked⟩
      exact ⟨.strings buffer' lengths, by rw [fsWriteAPart, hwrite]; rfl, hpacked⟩

/-- Two empty strings, the second one of which is to be set to a letter. -/
def secondString : PartWrite Unit :=
  .string [[], []] 1 [chr 'A'] [0] (by decide) rfl (by decide)

/-- It is the first one that gets the letter. -/
theorem secondString_first :
    fsWriteAPart secondString = some (.strings [chr 'A'] [1, 0]) ∧
      ¬ ∃ handed, fsWriteAPart secondString = some handed ∧ secondString.Replaced handed := by
  have hpass : passPriorElements ([] : Bytes).length [0] (BitVec.ofNat 64 1) 0 = some (0, 0) :=
    passPriorElements_zero _ (Nat.zero_le _)
  have hwrite : fsWriteAPart secondString = some (.strings [chr 'A'] [1, 0]) := by
    show (writeStringPart [0] ([[], []].map List.length) 1 [chr 'A']).map _ = _
    rw [writeStringPart_eq hpass]
    rfl
  refine ⟨hwrite, ?_⟩
  rintro ⟨handed, heq, hreplaced⟩
  rw [hwrite] at heq
  cases heq
  exact absurd hreplaced.lengths (by decide)

end Owfs.Property.Part
