import Owfs.Device.SerialNumber
import Owfs.Infra.Text

/-!
# Growing lists

`ow_charblob.c` collects names into one text with commas between them, `ow_dirblob.c` collects
serial numbers. Both grow by reallocation; `owrealloc` says which sizes are granted.

A `charblob` keeps the whole block it allocated, so that the bytes behind the text can be spoken
of. `Charblob.WellFormed` is what every sequence of additions keeps.
-/

namespace Owfs.Directory

open Infra Owfs.Device

/-! ## `struct charblob` -/

/-- `struct charblob`; the block has `allocated` bytes. -/
structure Charblob where
  troubled : Bool := false
  used : Nat := 0
  blob : Option Bytes := none
deriving DecidableEq

/-- `cb->allocated` -/
def Charblob.allocated (cb : Charblob) : Nat := (cb.blob.getD []).length

/-- `CharblobInit` -/
def charblobInit : Charblob := {}

/-- The block after `incr` blank bytes were added to it, if they are granted. -/
def Charblob.grow (owrealloc : Nat → Bool) (incr : Nat) (cb : Charblob) : Option Charblob :=
  if owrealloc (cb.allocated + incr) then
    some { cb with blob := some (cb.blob.getD [] ++ List.replicate incr 0) }
  else none

/-- The bytes `a` at the end of the text. -/
def Charblob.put (a : Bytes) (cb : Charblob) : Charblob :=
  { cb with
    used := cb.used + a.length
    blob := cb.blob.map fun b => b.take cb.used ++ a ++ b.drop (cb.used + a.length) }

/-- Makes room for `a`, `incr` bytes at a time, and adds it. -/
def Charblob.extend (owrealloc : Nat → Bool) (incr : Nat) (a : Bytes) (cb : Charblob) : Charblob :=
  if cb.allocated < cb.used + a.length then
    match cb.grow owrealloc incr with
    | some cb => cb.put a
    | none => { cb with troubled := true }
  else cb.put a

/-- `CharblobAddChar` -/
def charblobAddChar (owrealloc : Nat → Bool) (a : Byte) (cb : Charblob) : Charblob :=
  cb.extend owrealloc 1024 [a]

/-- `CharblobAdd` -/
def charblobAdd (owrealloc : Nat → Bool) (a : Bytes) (cb : Charblob) : Charblob :=
  let cb := if cb.used = 0 then cb else charblobAddChar owrealloc comma cb
  cb.extend owrealloc (max 1024 a.length) a

/-- `CharblobData` -/
def charblobData (cb : Charblob) : Option Bytes := cb.blob

/-- `CharblobLength` -/
def charblobLength (cb : Charblob) : Nat := cb.used

/-- The text, without the rest of the block. -/
def Charblob.text (cb : Charblob) : Bytes := (cb.blob.getD []).take cb.used

/-- The text stays inside the block, and the rest of the block is blank. -/
structure Charblob.WellFormed (cb : Charblob) : Prop where
  used_le : cb.used ≤ cb.allocated
  blank : (cb.blob.getD []).drop cb.used = List.replicate (cb.allocated - cb.used) 0

theorem charblobInit_wellFormed : charblobInit.WellFormed := ⟨Nat.le_refl 0, rfl⟩

variable {owrealloc : Nat → Bool} {cb : Charblob} {a : Bytes} {incr : Nat}

/-- A block is its text and blanks. -/
theorem Charblob.WellFormed.block_eq (h : cb.WellFormed) :
    cb.blob.getD [] = cb.text ++ List.replicate (cb.allocated - cb.used) 0 := by
  rw [← h.blank]
  exact (List.take_append_drop cb.used _).symm

theorem Charblob.WellFormed.length_text (h : cb.WellFormed) : cb.text.length = cb.used := by
  rw [Charblob.text, List.length_take]
  exact Nat.min_eq_left h.used_le

/-- Growing keeps the text. -/
theorem Charblob.WellFormed.grow (h : cb.WellFormed) {cb' : Charblob}
    (hg : cb.grow owrealloc incr = some cb') :
    cb'.WellFormed ∧ cb'.used = cb.used ∧ cb'.text = cb.text ∧
      cb'.allocated = cb.allocated + incr ∧ cb'.blob ≠ none := by
  unfold Charblob.grow at hg
  split at hg
  · cases hg
    have hle : cb.used ≤ (cb.blob.getD []).length := h.used_le
    have hdrop : (cb.blob.getD [] ++ List.replicate incr 0).drop cb.used
        = List.replicate (cb.allocated + incr - cb.used) 0 := by
      rw [List.drop_append_of_le_length hle, h.blank, List.replicate_append_replicate]
      congr 1
      have := h.used_le
      omega
    refine ⟨⟨?_, ?_⟩, rfl, ?_, ?_, Option.some_ne_none _⟩
    · show cb.used ≤ (cb.blob.getD [] ++ List.replicate incr 0).length
      rw [List.length_append]
      omega
    · show (cb.blob.getD [] ++ List.replicate incr 0).drop cb.used = _
      rw [hdrop]
      simp [Charblob.allocated]
    · show (cb.blob.getD [] ++ List.replicate incr 0).take cb.used = _
      rw [List.take_append_of_le_length hle]
      rfl
    · show (cb.blob.getD [] ++ List.replicate incr 0).length = _
      simp [Charblob.allocated]
  · cases hg

/-- Adding where there is room. -/
theorem Charblob.WellFormed.put (h : cb.WellFormed) (hroom : cb.used + a.length ≤ cb.allocated) :
    (cb.put a).WellFormed ∧ (cb.put a).text = cb.text ++ a ∧
    (cb.put a).allocated = cb.allocated := by
  cases hb : cb.blob with
  | none =>
    -- nothing is allocated, so there is nothing to add
    have hzero : cb.allocated = 0 := by rw [Charblob.allocated, hb]; rfl
    have ha : a = [] := List.length_eq_zero_iff.mp (by omega)
    subst ha
    have hput : cb.put [] = cb := by
      cases cb
      cases hb
      rfl
    rw [hput]
    exact ⟨h, (List.append_nil _).symm, rfl⟩
  | some b =>
    have hlen : cb.allocated = b.length := by rw [Charblob.allocated, hb]; rfl
    have htake : (b.take cb.used).length = cb.used := by
      rw [List.length_take]
      omega
    have hblank : b.drop cb.used = List.replicate (b.length - cb.used) 0 := by
      have := h.blank
      rw [hlen, hb] at this
      exact this
    have hnew : (cb.put a).blob = some (b.take cb.used ++ a ++ b.drop (cb.used + a.length)) := by
      rw [Charblob.put, hb]
      rfl
    have hall : (cb.put a).allocated = cb.allocated := by
      rw [Charblob.allocated, hnew, hlen]
      simp only [Option.getD_some, List.length_append, List.length_drop, htake]
      omega
    have htext : (cb.put a).text = b.take cb.used ++ a := by
      rw [Charblob.text, hnew]
      refine List.take_left' ?_
      rw [List.length_append, htake]
      rfl
    refine ⟨⟨?_, ?_⟩, ?_, hall⟩
    · rw [hall]
      exact hroom
    · rw [hall, hnew]
      show (b.take cb.used ++ a ++ b.drop (cb.used + a.length)).drop (cb.used + a.length) = _
      rw [List.drop_left' (by rw [List.length_append, htake]), ← List.drop_drop, hblank,
        List.drop_replicate, hlen]
      congr 1
      show b.length - cb.used - a.length = b.length - (cb.used + a.length)
      omega
    · rw [htext, Charblob.text, hb]
      rfl

/-- What an addition does: all of `a` is added, or the text stays as it is. -/
theorem Charblob.WellFormed.extend (h : cb.WellFormed) (hincr : a.length ≤ incr) :
    (cb.extend owrealloc incr a).WellFormed ∧
      ((cb.extend owrealloc incr a).text = cb.text ++ a ∨
        (cb.extend owrealloc incr a).text = cb.text ∧ ¬ (∀ n, owrealloc n = true)) := by
  unfold Charblob.extend
  split
  · rename_i hfull
    cases hg : cb.grow owrealloc incr with
    | some cb' =>
      obtain ⟨hwf, hused, htext, hall, -⟩ := h.grow hg
      have hroom : cb'.used + a.length ≤ cb'.allocated := by
        have := h.used_le
        omega
      obtain ⟨hput, hputtext, -⟩ := hwf.put hroom
      exact ⟨hput, .inl (hputtext.trans (by rw [htext]))⟩
    | none =>
      refine ⟨⟨h.used_le, h.blank⟩, .inr ⟨rfl, fun hall => ?_⟩⟩
      rw [Charblob.grow, if_pos (hall _)] at hg
      cases hg
  · rename_i hroom
    obtain ⟨hput, hputtext, -⟩ := h.put (Nat.not_lt.mp hroom)
    exact ⟨hput, .inl hputtext⟩

/-! ## Additions that are granted -/

/-- The lengths of the text and of the block after `n` more bytes. -/
def extendSize (incr n : Nat) (size : Nat × Nat) : Nat × Nat :=
  (size.1 + n, if size.2 < size.1 + n then size.2 + incr else size.2)

/-- The same for `CharblobAdd` of a name of `n` bytes. -/
def addSize (size : Nat × Nat) (n : Nat) : Nat × Nat :=
  extendSize (max 1024 n) n (if size.1 = 0 then size else extendSize 1024 1 size)

/-- The text with a name added to it. -/
def addText (text a : Bytes) : Bytes := if text = [] then a else text ++ comma :: a

/-- `cb` holds `text`, in a block of the length that `size` says. -/
structure Charblob.Holds (cb : Charblob) (text : Bytes) (size : Nat × Nat) : Prop where
  wellFormed : cb.WellFormed
  text_eq : cb.text = text
  size_eq : (cb.used, cb.allocated) = size
  started : cb.used = 0 → cb.blob = none

theorem charblobInit_holds : charblobInit.Holds [] (0, 0) :=
  ⟨charblobInit_wellFormed, rfl, rfl, fun _ => rfl⟩

theorem Charblob.Holds.length_text {text : Bytes} {size : Nat × Nat} (h : cb.Holds text size) :
    text.length = size.1 := by
  rw [← h.text_eq, h.wellFormed.length_text, ← h.size_eq]

theorem Charblob.Holds.extend {text : Bytes} {size : Nat × Nat} (h : cb.Holds text size)
    (hall : ∀ n, owrealloc n = true) (hincr : a.length ≤ incr) :
    (cb.extend owrealloc incr a).Holds (text ++ a) (extendSize incr a.length size) := by
  obtain ⟨hwf, rfl, rfl, hstarted⟩ := h
  have hroom := hwf.used_le
  unfold Charblob.extend
  split
  · rename_i hfull
    have hg : cb.grow owrealloc incr
        = some { cb with blob := some (cb.blob.getD [] ++ List.replicate incr 0) } :=
          if_pos (hall _)
    rw [hg]
    obtain ⟨hgrown, hused, htext, halloc, hblob⟩ := hwf.grow hg
    obtain ⟨hput, hputtext, hputalloc⟩ := hgrown.put (a := a) (by omega)
    refine ⟨hput, hputtext.trans (by rw [htext]), ?_, fun hzero => ?_⟩
    · rw [extendSize, if_pos hfull]
      exact Prod.ext rfl (hputalloc.trans halloc)
    · exact absurd hzero (by show ¬ cb.used + a.length = 0; omega)
  · rename_i hfits
    obtain ⟨hput, hputtext, hputalloc⟩ := hwf.put (Nat.not_lt.mp hfits)
    refine ⟨hput, hputtext, ?_, fun hzero => ?_⟩
    · rw [extendSize, if_neg hfits]
      exact Prod.ext rfl hputalloc
    · have hu : cb.used + a.length = 0 := hzero
      show cb.blob.map _ = none
      rw [hstarted (by omega)]
      rfl

/-- **What `CharblobAdd` does when memory is granted.** -/
theorem Charblob.Holds.add {text : Bytes} {size : Nat × Nat} (h : cb.Holds text size)
    (hall : ∀ n, owrealloc n = true) :
    (charblobAdd owrealloc a cb).Holds (addText text a) (addSize size a.length) := by
  have hlen := h.length_text
  have hused : cb.used = size.1 := congrArg Prod.fst h.size_eq
  unfold charblobAdd addText addSize
  by_cases hzero : size.1 = 0
  · have htext : text = [] := List.length_eq_zero_iff.mp (by omega)
    rw [if_pos (hused.trans hzero), if_pos htext, if_pos hzero]
    have := h.extend hall (le_max_right 1024 a.length)
    rwa [htext, List.nil_append] at this
  · have htext : text ≠ [] := by
      rintro rfl
      exact hzero hlen.symm
    rw [if_neg (by omega), if_neg htext, if_neg hzero]
    have hcomma : (charblobAddChar owrealloc comma cb).Holds (text ++ [comma])
        (extendSize 1024 1 size) :=
      h.extend hall (by decide)
    have := hcomma.extend hall (le_max_right 1024 a.length)
    rwa [List.append_assoc] at this

end Owfs.Directory
