import Owfs.Infra.Text
import Owfs.Infra.Pieces
import Owfs.Protocol.Message

/-!
# Arrays of strings

All elements of a string property are written as one text with commas. `FS_input_ascii_array`
(`ow_parseinput.c`) packs them: the commas, and what is too long of an element, are taken out of the
buffer, and the lengths say where the elements are. `OWQ_parse_output_ascii_array`
(`ow_parseoutput.c`) puts the commas back in. Both work in place.
-/

namespace Owfs.Property

open Infra

/-! ## The code -/

/-- The length of an entry, at most `suglen`. -/
def allowedLength (suglen entryLength : Nat) : Nat :=
  if entryLength < suglen then entryLength else suglen

/-- The loop of `FS_input_ascii_array`. The first argument counts the elements that are left. -/
def fsInputAsciiArrayLoop (suglen : Nat) : (remaining extension bufferEnd bufferPosition : Nat) →
    (buffer : Bytes) → (lengths : List Nat) → Option (Int × Bytes × List Nat)
  | 0, _, _, _, buffer, lengths => some (-erange, buffer, lengths)
  | remaining + 1, extension, bufferEnd, bufferPosition, buffer, lengths =>
    -- the last element gets what is left, commas included
    if remaining = 0 then
      some (0, buffer, lengths.set extension (allowedLength suglen (bufferEnd - bufferPosition)))
    else
      (memchr buffer bufferPosition (chr ',') (bufferEnd - bufferPosition)).bind fun
        | none => some (-einval, buffer, lengths)
        | some comma =>
          let entryLength := comma - bufferPosition
          let allowed := allowedLength suglen entryLength
          (memmove buffer (bufferPosition + allowed) (comma + 1) (bufferEnd - comma - 1)).bind
            fun buffer =>
            fsInputAsciiArrayLoop suglen remaining (extension + 1)
              (bufferEnd - (entryLength - allowed + 1))
              (bufferPosition + allowed) buffer (lengths.set extension allowed)

/-- `FS_input_ascii_array`, for the `size` bytes of text that are in the buffer. -/
def fsInputAsciiArray (elements suglen : Nat) (offset : Int) (size : Nat) (buffer : Bytes)
    (lengths : List Nat) :
    Option (Int × Bytes × List Nat) :=
  if offset ≠ 0 then some (-einval, buffer, lengths)
  else fsInputAsciiArrayLoop suglen elements 0 size 0 buffer lengths

/-- The second loop of `OWQ_parse_output_ascii_array`, over the lengths of the elements from the
second one on. -/
def owqParseOutputAsciiArrayLoop :
    (lengths : List Nat) → (totalLength currentOffset : Nat) → (buffer : Bytes) →
    Option (Nat × Bytes)
  | [], totalLength, _, buffer => some (totalLength, buffer)
  | length :: lengths, totalLength, currentOffset, buffer => do
    let buffer ← memmove buffer (currentOffset + 1) currentOffset (totalLength - currentOffset)
    let buffer ← store buffer currentOffset (chr ',')
    owqParseOutputAsciiArrayLoop lengths (totalLength + 1) (currentOffset + (1 + length)) buffer

/-- `OWQ_parse_output_ascii_array` -/
def owqParseOutputAsciiArray (lengths : List Nat) (buffer : Bytes) : Option (Nat × Bytes) :=
  owqParseOutputAsciiArrayLoop lengths.tail lengths.sum (lengths.headD 0) buffer

/-! ## Splitting -/

/-- A buffer and lengths that describe some pieces. -/
structure Packed (ps : List Bytes) (buffer : Bytes) (lengths : List Nat) : Prop where
  contents : ps.flatten <+: buffer
  lengths : lengths = ps.map List.length

/-- The pieces of a text: it is cut at its first commas, and each piece to the length. -/
def elementPieces (elements suglen : Nat) (text : Bytes) : List Bytes :=
  (pieces (chr ',') (elements - 1) text).map (List.take suglen)

theorem allowedLength_eq (suglen : Nat) (p : Bytes) :
    allowedLength suglen p.length = (p.take suglen).length := by
  rw [allowedLength, List.length_take]
  split <;> omega

section

variable (suglen k : Nat) (pre p rest text junk : Bytes)

/-- One round: an element and its comma are taken from the text. -/
theorem fsInputAsciiArrayLoop_step (hp : chr ',' ∉ p) (done todo : List Nat) (n : Nat) :
    ∃ junk', fsInputAsciiArrayLoop suglen (k + 2) done.length
      (pre.length + (p ++ chr ',' :: rest).length) pre.length
        (pre ++ ((p ++ chr ',' :: rest) ++ junk)) (done ++ n :: todo)
      = fsInputAsciiArrayLoop suglen (k + 1) (done ++ [(p.take suglen).length]).length
          ((pre ++ p.take suglen).length + rest.length) (pre ++ p.take suglen).length
          ((pre ++ p.take suglen) ++ (rest ++ junk'))
          ((done ++ [(p.take suglen).length]) ++ todo) := by
  have hmem : chr ',' ∈ p ++ chr ',' :: rest := by simp
  have hlen : (p.take suglen).length + (p.drop suglen).length = p.length := by
    rw [← List.length_append, List.take_append_drop]
  -- the gap is what is too long of the element, and the comma
  obtain ⟨junk', hmove, -⟩ :=
    memmove_left (pre ++ p.take suglen) (p.drop suglen ++ [chr ',']) rest junk
  have hblock : pre ++ ((p ++ chr ',' :: rest) ++ junk)
      = (pre ++ p.take suglen) ++ ((p.drop suglen ++ [chr ',']) ++ (rest ++ junk)) := by
    simp [← List.append_assoc (p.take suglen)]
  refine ⟨junk', ?_⟩
  rw [fsInputAsciiArrayLoop, if_neg (Nat.succ_ne_zero k), Nat.add_sub_cancel_left, memchr_append,
    if_pos hmem, before_append hp, Option.bind_some]
  dsimp only
  rw [Nat.add_sub_cancel_left, allowedLength_eq, hblock]
  simp only [List.length_append, List.length_cons, List.length_nil] at hmove ⊢
  rw [show pre.length + p.length + 1 = pre.length + (p.take suglen).length +
    ((p.drop suglen).length + (0 + 1)) by omega,
    show pre.length + (p.length + (rest.length + 1)) - (pre.length + p.length) - 1 =
      rest.length by omega, hmove,
    Option.bind_some,
    show pre.length + (p.length + (rest.length + 1)) - (p.length - (p.take suglen).length + 1)
      = pre.length + (p.take suglen).length + rest.length by omega]
  simp

/-- The loop, when the elements before are packed in `pre`. -/
theorem fsInputAsciiArrayLoop_eq (done : List Nat) {todo : List Nat} (htodo : todo.length = k + 1)
    (hcount : k ≤ text.count (chr ',')) :
    ∃ junk', fsInputAsciiArrayLoop suglen (k + 1) done.length (pre.length + text.length) pre.length
        (pre ++ (text ++ junk)) (done ++ todo)
      = some (0, pre ++ ((elementPieces (k + 1) suglen text).flatten ++ junk'),
          done ++ (elementPieces (k + 1) suglen text).map List.length) := by
  induction k generalizing pre text junk done todo with
  | zero =>
    obtain ⟨n, rfl⟩ := List.length_eq_one_iff.mp htodo
    refine ⟨text.drop suglen ++ junk, ?_⟩
    rw [fsInputAsciiArrayLoop, if_pos rfl, Nat.add_sub_cancel_left, allowedLength_eq]
    simp [elementPieces, pieces, ← List.append_assoc (text.take suglen)]
  | succ k ih =>
    obtain ⟨n, todo, rfl⟩ := List.exists_cons_of_length_eq_add_one htodo
    have hmem : chr ',' ∈ text := List.count_pos_iff.mp (by omega)
    have hrest : k ≤ (behind (chr ',') text).count (chr ',') := by
      have := count_behind hmem
      omega
    obtain ⟨junk₁, hstep⟩ :=
      fsInputAsciiArrayLoop_step suglen k pre (before (chr ',') text) (behind (chr ',') text)
      junk not_mem_before done todo n
    rw [before_append_behind hmem] at hstep
    obtain ⟨junk', heq⟩ :=
      ih (pre ++ (before (chr ',') text).take suglen) (behind (chr ',') text) junk₁ _
      (Nat.succ.inj htodo) hrest
    refine ⟨junk', hstep.trans (heq.trans ?_)⟩
    simp [elementPieces, pieces]

/-- With too few commas the loop fails. -/
theorem fsInputAsciiArrayLoop_bad (done : List Nat) {todo : List Nat} (htodo : todo.length = k + 1)
    (hcount : text.count (chr ',') < k) :
    ∃ buffer lengths, fsInputAsciiArrayLoop suglen (k + 1) done.length (pre.length + text.length)
      pre.length
        (pre ++ (text ++ junk)) (done ++ todo) = some (-einval, buffer, lengths) := by
  induction k generalizing pre text junk done todo with
  | zero => exact absurd hcount (Nat.not_lt_zero _)
  | succ k ih =>
    obtain ⟨n, todo, rfl⟩ := List.exists_cons_of_length_eq_add_one htodo
    by_cases hmem : chr ',' ∈ text
    · have hrest : (behind (chr ',') text).count (chr ',') < k := by
        have := count_behind hmem
        omega
      obtain ⟨junk₁, hstep⟩ :=
        fsInputAsciiArrayLoop_step suglen k pre (before (chr ',') text) (behind (chr ',') text)
        junk not_mem_before done todo n
      rw [before_append_behind hmem] at hstep
      obtain ⟨buffer, lengths, heq⟩ :=
        ih (pre ++ (before (chr ',') text).take suglen) (behind (chr ',') text) junk₁ _
        (Nat.succ.inj htodo) hrest
      exact ⟨buffer, lengths, hstep.trans heq⟩
    · refine ⟨pre ++ (text ++ junk), done ++ n :: todo, ?_⟩
      rw [fsInputAsciiArrayLoop, if_neg (Nat.succ_ne_zero k), Nat.add_sub_cancel_left,
        memchr_append, if_neg hmem, Option.bind_some]

end

/-- `FS_input_ascii_array` on a text with enough commas. -/
theorem packed_fsInputAsciiArray {elements : Nat} (suglen : Nat) (hpos : 1 ≤ elements)
    (text rest : Bytes) {lengths : List Nat} (hlengths : lengths.length = elements)
    (hcount : elements - 1 ≤ text.count (chr ',')) :
    ∃ buffer lengths', fsInputAsciiArray elements suglen 0 text.length (text ++ rest) lengths
        = some (0, buffer, lengths') ∧
      Packed (elementPieces elements suglen text) buffer lengths' := by
  obtain ⟨k, rfl⟩ := Nat.exists_eq_add_of_le' hpos
  obtain ⟨junk, heq⟩ := fsInputAsciiArrayLoop_eq suglen k [] text rest [] hlengths hcount
  refine ⟨_, _, ?_, ⟨List.prefix_append _ junk, rfl⟩⟩
  rw [fsInputAsciiArray, if_neg (by simp)]
  simpa using heq

/-! ## Joining -/

/-- The pieces with commas between them. -/
def joined (ps : List Bytes) : Bytes := [chr ','].intercalate ps

theorem joined_cons_cons (p q : Bytes) (ps : List Bytes) :
    joined (p :: q :: ps) = p ++ chr ',' :: joined (q :: ps) := by
  simp [joined, List.intercalate, List.intersperse]

theorem joined_cons (p : Bytes) (ps : List Bytes) :
    joined (p :: ps) = p ++ ps.flatMap (chr ',' :: ·) := by
  induction ps generalizing p with
  | nil => simp [joined, List.intercalate]
  | cons q ps ih =>
    rw [joined_cons_cons, ih]
    rfl

/-- The loop, when the elements and commas before are in `out`. -/
theorem owqParseOutputAsciiArrayLoop_eq (out : Bytes) (ps : List Bytes) {spare : Bytes}
    (hspare : ps.length ≤ spare.length) :
    ∃ spare', owqParseOutputAsciiArrayLoop (ps.map List.length) (out.length + ps.flatten.length)
      out.length
        (out ++ (ps.flatten ++ spare))
      = some ((out ++ ps.flatMap (chr ',' :: ·)).length,
        out ++ (ps.flatMap (chr ',' :: ·) ++ spare')) := by
  induction ps generalizing out spare with
  | nil => exact ⟨spare, by simp [owqParseOutputAsciiArrayLoop]⟩
  | cons p ps ih =>
    obtain ⟨x, spare, rfl⟩ :=
      List.exists_cons_of_ne_nil (List.ne_nil_of_length_pos (Nat.lt_of_lt_of_le (by simp) hspare))
    obtain ⟨y, hmove⟩ := memmove_right out (p :: ps).flatten spare x
    obtain ⟨spare', heq⟩ := ih (out ++ chr ',' :: p) (Nat.le_of_succ_le_succ hspare)
    refine ⟨spare', ?_⟩
    rw [List.map_cons, owqParseOutputAsciiArrayLoop, Nat.add_sub_cancel_left, hmove,
      Option.bind_eq_bind, Option.bind_some, store_append, Option.bind_some]
    simp only [List.length_append, List.length_cons, List.flatten_cons, List.append_assoc,
      List.cons_append, List.flatMap_cons] at heq ⊢
    rw [← heq]
    congr 1 <;> omega

/-- `OWQ_parse_output_ascii_array` where there is room for the commas. -/
theorem owqParseOutputAsciiArray_eq {ps : List Bytes} (hne : ps ≠ []) {buffer : Bytes}
    {lengths : List Nat} (h : Packed ps buffer lengths)
    (hspare : ps.flatten.length + (ps.length - 1) ≤ buffer.length) :
    ∃ buffer', owqParseOutputAsciiArray lengths buffer = some ((joined ps).length, buffer') ∧
      joined ps <+: buffer' := by
  obtain ⟨⟨spare, rfl⟩, rfl⟩ := h
  obtain ⟨p, ps, rfl⟩ := List.exists_cons_of_ne_nil hne
  have hlen : ps.length ≤ spare.length := by
    simp only [List.length_append, List.length_cons] at hspare
    omega
  obtain ⟨spare', heq⟩ := owqParseOutputAsciiArrayLoop_eq p ps hlen
  refine ⟨joined (p :: ps) ++ spare', ?_, List.prefix_append _ _⟩
  rw [joined_cons, List.append_assoc, ← heq, owqParseOutputAsciiArray]
  simp [List.length_flatten]

/-! ## Splitting again -/

theorem joined_elementPieces_count {elements suglen : Nat} (text : Bytes) :
    elements - 1 ≤ (joined (elementPieces elements suglen text)).count (chr ',') := by
  have hlen : (elementPieces elements suglen text).length = elements - 1 + 1 := by
    rw [elementPieces, List.length_map, length_pieces]
  obtain ⟨p, ps, hps⟩ := List.exists_cons_of_length_eq_add_one hlen
  have hcount : ps.length ≤ (ps.flatMap (chr ',' :: ·)).count (chr ',') := by
    clear hlen hps
    induction ps with
    | nil => exact Nat.zero_le _
    | cons q ps ih =>
      rw [List.flatMap_cons, List.count_append, List.count_cons_self, List.length_cons]
      omega
  rw [hps, List.length_cons] at hlen
  rw [hps, joined_cons, List.count_append]
  omega

/-- The joined text has the same pieces. -/
theorem elementPieces_joined (elements suglen : Nat) (text : Bytes) :
    elementPieces elements suglen (joined (elementPieces elements suglen text)) =
      elementPieces elements suglen text := by
  have hlen : (elementPieces elements suglen text).length = elements - 1 + 1 := by
    rw [elementPieces, List.length_map, length_pieces]
  have hcomma : ∀ p ∈ (elementPieces elements suglen text).dropLast, chr ',' ∉ p := by
    intro p hp
    rw [elementPieces, ← List.map_dropLast] at hp
    obtain ⟨q, hq, rfl⟩ := List.mem_map.mp hp
    exact fun hmem => not_mem_of_mem_dropLast_pieces hq (List.mem_of_mem_take hmem)
  conv_lhs => rw [elementPieces, joined, pieces_intercalate hlen hcomma]
  simp [elementPieces]

/-- **Splitting and joining.** A text is accepted if it has enough commas, and then its pieces are
packed. Joined again they are a text with the same pieces. -/
theorem asciiArray_split_join (elements suglen : Nat) (hpos : 1 ≤ elements) (text rest : Bytes)
    (lengths : List Nat) (hlengths : lengths.length = elements) :
    ∃ ret buffer lengths', fsInputAsciiArray elements suglen 0 text.length (text ++ rest) lengths
        = some (ret, buffer, lengths') ∧
      (ret = 0 ↔ elements - 1 ≤ text.count (chr ',')) ∧
      (ret = 0 → Packed (elementPieces elements suglen text) buffer lengths' ∧
        (∀ packed, Packed (elementPieces elements suglen text) packed lengths' →
          lengths'.sum + (elements - 1) ≤ packed.length →
          ∃ packed', owqParseOutputAsciiArray lengths' packed
              = some ((joined (elementPieces elements suglen text)).length, packed') ∧
            joined (elementPieces elements suglen text) <+: packed') ∧
        ∀ rest' lengths'', lengths''.length = elements →
          ∃ buffer', fsInputAsciiArray elements suglen 0
          (joined (elementPieces elements suglen text)).length
              (joined (elementPieces elements suglen text) ++ rest') lengths'' = some
              (0, buffer', lengths') ∧
            Packed (elementPieces elements suglen text) buffer' lengths') := by
  by_cases hcount : elements - 1 ≤ text.count (chr ',')
  · obtain ⟨buffer, lengths', heq, hpacked⟩ :=
      packed_fsInputAsciiArray suglen hpos text rest hlengths hcount
    refine ⟨0, buffer, lengths', heq, ⟨fun _ => hcount, fun _ => rfl⟩, fun _ => ⟨hpacked, ?_, ?_⟩⟩
    · intro packed h hspare
      have hlen : (elementPieces elements suglen text).length = elements - 1 + 1 := by
        rw [elementPieces, List.length_map, length_pieces]
      refine owqParseOutputAsciiArray_eq (List.ne_nil_of_length_eq_add_one hlen) h ?_
      rw [h.lengths] at hspare
      rwa [List.length_flatten, hlen, Nat.add_sub_cancel]
    · intro rest' lengths'' hlengths''
      obtain ⟨buffer', lengths₂, heq', hpacked'⟩ := packed_fsInputAsciiArray suglen hpos
        (joined (elementPieces elements suglen text)) rest' hlengths''
          (joined_elementPieces_count text)
      rw [elementPieces_joined] at hpacked'
      refine ⟨buffer', ?_, ?_⟩
      · rw [heq', hpacked.lengths, hpacked'.lengths]
      · exact ⟨hpacked'.contents, hpacked.lengths⟩
  · obtain ⟨k, rfl⟩ := Nat.exists_eq_add_of_le' hpos
    obtain ⟨buffer, lengths', heq⟩ :=
      fsInputAsciiArrayLoop_bad suglen k [] text rest [] hlengths (by omega)
    refine ⟨-einval, buffer, lengths', ?_,
      ⟨fun h => absurd h (by decide), fun h => absurd h hcount⟩, fun h => absurd h (by decide)⟩
    rw [fsInputAsciiArray, if_neg (by simp)]
    simpa using heq

/-- Four lines of a display. -/
def displayText : Bytes := ascii "aaa,,bb,c,d"

theorem asciiArray_split_join_displayText :
    elementPieces 4 2 displayText = [ascii "aa", [], ascii "bb", ascii "c,"] ∧
      ∃ ret buffer lengths',
      fsInputAsciiArray 4 2 0 11 (displayText ++ []) [0, 0, 0, 0] = some (ret, buffer, lengths') ∧
        ret = 0 := by
  obtain ⟨ret, buffer, lengths', heq, hret, -⟩ :=
    asciiArray_split_join 4 2 (by decide) displayText [] [0, 0, 0, 0] rfl
  exact ⟨by decide, ret, buffer, lengths', heq, hret.mpr (by decide)⟩

end Owfs.Property
