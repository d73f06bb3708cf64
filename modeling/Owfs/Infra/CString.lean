import Owfs.Infra.Bytes

/-!
# Strings in arrays

An array of `char` of a fixed size and the functions of the C library that write strings to it. A
write that does not fit is a fault, which is `none`.
-/

namespace Infra

/-- A string: no byte of it is the terminator. -/
abbrev CString := { s : Bytes // 0 ∉ s }

/-- `char name[n]` -/
abbrev Buffer (n : Nat) := { b : Bytes // b.length = n }

namespace Buffer

variable {n : Nat} (b : Buffer n)

/-- Some bytes at a position -/
def write (i : Nat) (d : Bytes) : Option (Buffer n) :=
  if h : i + d.length ≤ n then
    some ⟨b.1.take i ++ d ++ b.1.drop (i + d.length), by
      have hb := b.2
      simp only [List.length_append, List.length_take, List.length_drop]
      omega⟩
  else none

/-- `name[i]`, where the index may be negative -/
def get (i : Int) : Option Byte := if 0 ≤ i then b.1[i.toNat]? else none

/-- The string that starts at a position -/
def string (i : Nat) : Option Bytes := cstring (b.1.drop i)

/-- `strcpy(&name[i], s)` -/
def strcpy (i : Nat) (s : Bytes) : Option (Buffer n) := b.write i (s ++ [0])

/-- `strcat(name, s)` -/
def strcat (s : Bytes) : Option (Buffer n) := (b.string 0).bind fun t => b.strcpy t.length s

/-- `strncpy(&name[i], s, k)`: exactly `k` bytes are written. -/
def strncpy (i : Nat) (s : Bytes) (k : Nat) : Option (Buffer n) :=
  b.write i ((s ++ List.replicate k 0).take k)

/-- `memmove(&name[dst], &name[src], k)` -/
def memmove (dst src k : Nat) : Option (Buffer n) := (slice b.1 src k).bind (b.write dst)

/-- There is a string at the start. -/
def Holds (s : Bytes) : Prop := 0 ∉ s ∧ ∃ rest, b.1 = s ++ 0 :: rest

variable {b}

theorem write_eq_some {i : Nat} {d : Bytes} (h : i + d.length ≤ n) :
    ∃ b', b.write i d = some b' ∧ b'.1 = b.1.take i ++ d ++ b.1.drop (i + d.length) :=
  ⟨_, dif_pos h, rfl⟩

theorem isSome_write_iff {i : Nat} {d : Bytes} :
    (b.write i d).isSome = true ↔ i + d.length ≤ n := by
  unfold write
  split
  · exact iff_of_true rfl ‹_›
  · exact iff_of_false Bool.false_ne_true ‹_›

theorem isSome_strcpy_iff {i : Nat} {s : Bytes} :
    (b.strcpy i s).isSome = true ↔ i + s.length < n := by
  rw [strcpy, isSome_write_iff, List.length_append, List.length_singleton, Nat.lt_iff_add_one_le,
    Nat.add_assoc]

/-- There is a string wherever a terminator was written. -/
theorem isSome_string_of_write {b' : Buffer n} {i : Nat} {d : Bytes} (h : b.write i d = some b')
    (hd : 0 ∈ d) :
    (b'.string 0).isSome = true := by
  have hlength := isSome_write_iff.mp (Option.isSome_of_eq_some h)
  obtain ⟨b'', hb'', hcontent⟩ := write_eq_some (b := b) hlength
  obtain rfl : b'' = b' := Option.some.inj (hb''.symm.trans h)
  rw [string, List.drop_zero, cstring, if_pos]
  · rfl
  · rw [hcontent]
    exact List.mem_append_left _ (List.mem_append_right _ hd)

section

variable {s t : Bytes}

theorem Holds.string_zero (h : b.Holds s) : b.string 0 = some s := by
  obtain ⟨hs, rest, hb⟩ := h
  rw [string, List.drop_zero, hb, cstring_append hs]

theorem Holds.string_drop (h : b.Holds s) {i : Nat} (hi : i ≤ s.length) :
    b.string i = some (s.drop i) := by
  obtain ⟨hs, rest, hb⟩ := h
  rw [string, hb, List.drop_append_of_le_length hi, cstring_append fun hmem =>
    hs (List.mem_of_mem_drop hmem)]

theorem Holds.get (h : b.Holds s) {i : Nat} (hi : i < s.length) : b.get i = s[i]? := by
  obtain ⟨-, rest, hb⟩ := h
  rw [Buffer.get, if_pos (by omega), Int.toNat_natCast, hb, List.getElem?_append_left hi]

/-- The string in front of a position is kept. -/
theorem strcpy_holds {i : Nat} (ht : b.Holds t) (hi : i ≤ t.length) (hs : 0 ∉ s)
    (h : i + s.length < n) :
    ∃ b', b.strcpy i s = some b' ∧ b'.Holds (t.take i ++ s) := by
  obtain ⟨ht0, rest, hb⟩ := ht
  obtain ⟨b', hwrite, hb'⟩ := write_eq_some (b := b) (i := i) (d := s ++ [0])
    (by rw [List.length_append, List.length_singleton]; omega)
  refine ⟨b', hwrite, ?_, b.1.drop (i + (s ++ [0]).length), ?_⟩
  · rw [List.mem_append, not_or]
    exact ⟨fun hmem => ht0 (List.mem_of_mem_take hmem), hs⟩
  · rw [hb', hb, List.take_append_of_le_length hi]
    simp

theorem strcpy_zero_holds (hs : 0 ∉ s) (h : s.length < n) :
    ∃ b', b.strcpy 0 s = some b' ∧ b'.Holds s := by
  obtain ⟨b', hwrite, hb'⟩ := write_eq_some (b := b) (i := 0) (d := s ++ [0])
    (by rw [List.length_append, List.length_singleton]; omega)
  refine ⟨b', hwrite, hs, b.1.drop (0 + (s ++ [0]).length), ?_⟩
  rw [hb']
  simp

theorem strcat_holds (ht : b.Holds t) (hs : 0 ∉ s) (h : t.length + s.length < n) :
    ∃ b', b.strcat s = some b' ∧ b'.Holds (t ++ s) := by
  obtain ⟨b', hb', hholds⟩ := strcpy_holds ht le_rfl hs h
  rw [List.take_length] at hholds
  exact ⟨b', by rw [strcat, ht.string_zero, Option.bind_some, hb'], hholds⟩

/-- A part of the string is replaced by another one. -/
theorem memmove_write_holds {u v : Bytes} (h : b.Holds (t ++ u ++ v)) (hs : 0 ∉ s)
    (hn : t.length + s.length + v.length < n) :
    ∃ b', (b.memmove (t.length + s.length) (t.length + u.length) (v.length + 1)).bind
      (·.write t.length s) = some b' ∧
      b'.Holds (t ++ s ++ v) := by
  obtain ⟨h0, rest, hb⟩ := h
  rw [List.mem_append, List.mem_append, not_or, not_or] at h0
  have hslice : slice b.1 (t.length + u.length) (v.length + 1) = some (v ++ [0]) := by
    have hmid := slice_append_mid (t ++ u) (v ++ [0]) rest
    rw [List.length_append, List.length_append, List.length_singleton] at hmid
    rw [hb, ← hmid]
    simp
  obtain ⟨b₁, hmove, hb₁⟩ := write_eq_some (b := b) (i := t.length + s.length) (d := v ++ [0])
    (by rw [List.length_append, List.length_singleton]; omega)
  obtain ⟨b₂, hwrite, hb₂⟩ := write_eq_some (b := b₁) (i := t.length) (d := s) (by omega)
  refine ⟨b₂, by rw [memmove, hslice, Option.bind_some, hmove, Option.bind_some, hwrite], ?_,
    b.1.drop (t.length + s.length + (v ++ [0]).length), ?_⟩
  · simp only [List.mem_append, not_or]
    exact ⟨⟨h0.1.1, hs⟩, h0.2⟩
  · have htake : b.1.take t.length = t := by
      rw [hb, List.append_assoc, List.append_assoc, List.take_left]
    have hlen : (b.1.take (t.length + s.length)).length = t.length + s.length := by
      rw [List.length_take, b.2]
      omega
    have hfront : (b.1.take (t.length + s.length)).take t.length = t := by
      rw [List.take_take, Nat.min_eq_left (by omega), htake]
    rw [hb₂, hb₁, List.append_assoc (b.1.take _), List.take_append_of_le_length (by omega), hfront,
      List.drop_append_of_le_length (by omega), List.drop_eq_nil_of_le (by omega)]
    simp

end

end Buffer

end Infra
