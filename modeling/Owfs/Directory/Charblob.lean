import Owfs.Directory.Blob

/-!
# Runs of `CharblobAdd` and `CharblobAddChar`

`DirallHandler` hands the block of a charblob to `owstrdup`, which takes it for a C string. So the
byte behind the text has to be a NUL, and has to belong to the block. The block is blank when it is
allocated, but it grows only when the text does *not fit*: a text that fits exactly has no NUL.

The lengths decide it. A string of more than 1024 bytes brings a block of its own length, so it
leaves as much room as there was before. Everything else is taken from blocks of 1024 bytes. This
gives the room behind the text as a remainder (`Aligned`).

The commas are a second matter. `CharblobAdd` puts one where the text is not empty, which is not
quite the same as where the string is not the first one. A third one is the length of the block,
which has to be an `int`: where it is none, more is lost than a comma too many makes up for, or the
block stays full (`Short`).
-/

namespace Owfs.Directory

open Infra

/-! ## The calls -/

/-- A call that adds to a charblob. -/
inductive BlobCall where
  | add (a : Bytes)
  | addChar (a : Byte)
deriving DecidableEq

/-- Makes room for `a`, `incr` bytes at a time, and adds it. `newalloc` is an `int` here. As a
`size_t` a negative one is more than any allocator has; one that lost its upper half is granted, and
then the `memset` of `incr` bytes leaves the block. -/
def Charblob.extendInt (owrealloc : Nat → Bool) (incr : Nat) (a : Bytes) (cb : Charblob) :
    Option Charblob :=
  if cb.allocated < cb.used + a.length then
    let newalloc := (BitVec.ofNat 32 (cb.allocated + incr)).toInt
    if newalloc < 0 ∨ owrealloc newalloc.toNat = false then some { cb with troubled := true }
    else if newalloc.toNat < cb.allocated + incr then none
    else some (Charblob.put a { cb with blob := some (cb.blob.getD [] ++ List.replicate incr 0) })
  else some (cb.put a)

/-- `CharblobAddChar` or `CharblobAdd`. -/
def BlobCall.run (owrealloc : Nat → Bool) (cb : Charblob) : BlobCall → Option Charblob
  | .add a =>
    -- the result of `CharblobAddChar` is not looked at
    (if cb.used = 0 then some cb else cb.extendInt owrealloc 1024 [comma]).bind fun cb =>
      cb.extendInt owrealloc (max 1024 a.length) a
  | .addChar a => cb.extendInt owrealloc 1024 [a]

/-- A charblob after a sequence of calls. -/
def runCalls (owrealloc : Nat → Bool) (calls : List BlobCall) : Option Charblob :=
  calls.foldlM (BlobCall.run owrealloc) charblobInit

/-! ## What is meant to be there -/

/-- What is added, with a comma before each string that is not the first; `later` says that there
was one before these calls. -/
def content (later : Bool) : List BlobCall → Bytes
  | [] => []
  | .addChar a :: calls => a :: content later calls
  | .add a :: calls => (if later then [comma] else []) ++ a ++ content true calls

/-- The charblob holds what was added, in a block that has a NUL behind it. -/
structure Charblob.Represents (cb : Charblob) (calls : List BlobCall) : Prop where
  used_le : cb.used ≤ cb.allocated
  text_eq : cb.text = content false calls
  nul : (cb.blob.getD [])[cb.used]? = some 0

/-- The calls come to an end, with what was added. -/
def Represented (owrealloc : Nat → Bool) (calls : List BlobCall) : Prop :=
  ∃ cb, runCalls owrealloc calls = some cb ∧ cb.Represents calls

/-! ## The condition -/

/-- Each string that is added finds the text started if and only if it is not the first. -/
def SameCommas (later started : Bool) : List BlobCall → Prop
  | [] => True
  | .addChar _ :: calls => SameCommas later true calls
  | .add a :: calls => later = started ∧ SameCommas true (started || a ≠ []) calls

/-- The number of bytes that are taken from blocks of 1024: long strings bring their own. -/
def shortLength (later : Bool) : List BlobCall → Nat
  | [] => 0
  | .addChar _ :: calls => 1 + shortLength later calls
  | .add a :: calls =>
      (if later then 1 else 0) + (if 1024 < a.length then 0 else a.length) + shortLength true calls

/-- The block that holds what is added has a length that an `int` can say. Its last part has 1024
bytes. -/
def FitsInt (calls : List BlobCall) : Prop :=
  (content false calls).length + (1024 - shortLength false calls % 1024) < 2 ^ 31

/-! ## One call -/

variable {owrealloc : Nat → Bool} {cb : Charblob} {text : Bytes} {size : Nat × Nat}

/-- The text after a call. -/
def BlobCall.addTo (text : Bytes) : BlobCall → Bytes
  | .add a => addText text a
  | .addChar a => text ++ [a]

/-- The lengths of the text and of the block after a call. -/
def BlobCall.resize (size : Nat × Nat) : BlobCall → Nat × Nat
  | .add a => addSize size a.length
  | .addChar _ => extendSize 1024 1 size

theorem length_addTo (call : BlobCall) (hlen : text.length = size.1) :
    (call.addTo text).length = (call.resize size).1 := by
  cases call with
  | addChar a => exact (List.length_append ..).trans (congrArg (· + 1) hlen)
  | add a =>
    show (addText text a).length = (addSize size a.length).1
    unfold addText addSize
    by_cases htext : text = []
    · rw [if_pos htext, if_pos (by rw [← hlen, htext]; rfl)]
      show a.length = size.1 + a.length
      rw [← hlen, htext]
      exact (Nat.zero_add _).symm
    · rw [if_neg htext, if_neg (by rw [← hlen]; exact fun h => htext (List.length_eq_zero_iff.mp
        h))]
      show (text ++ comma :: a).length = size.1 + 1 + a.length
      rw [List.length_append, List.length_cons, hlen]
      omega

theorem Charblob.extendInt_eq {incr : Nat} {a : Bytes}
    (hfit : (extendSize incr a.length (cb.used, cb.allocated)).2 < 2 ^ 31)
    (hall : ∀ n, owrealloc n = true) :
    cb.extendInt owrealloc incr a = some (cb.extend owrealloc incr a) := by
  unfold Charblob.extendInt Charblob.extend
  by_cases hfull : cb.allocated < cb.used + a.length
  · rw [extendSize, if_pos hfull] at hfit
    have hint : (BitVec.ofNat 32 (cb.allocated + incr)).toInt = (cb.allocated + incr : Nat) :=
      toInt_ofNat32 hfit
    rw [if_pos hfull, if_pos hfull, hint, if_neg (by simp [hall]; omega), if_neg (by omega),
      Charblob.grow, if_pos (hall _)]
  · rw [if_neg hfull, if_neg hfull]

theorem extendSize_mono (incr n : Nat) (size : Nat × Nat) :
    size.1 ≤ (extendSize incr n size).1 ∧ size.2 ≤ (extendSize incr n size).2 := by
  unfold extendSize
  constructor
  · exact Nat.le_add_right _ _
  · dsimp only
    split <;> omega

/-- **One call.** -/
theorem Charblob.Holds.run (h : cb.Holds text size) (hall : ∀ n, owrealloc n = true)
    (call : BlobCall) (hfit : (call.resize size).2 < 2 ^ 31) :
    ∃ cb', call.run owrealloc cb = some cb' ∧ cb'.Holds (call.addTo text) (call.resize size) := by
  cases call with
  | addChar a =>
    refine ⟨_, extendInt_eq ?_ hall, h.extend hall (by simp)⟩
    rw [h.size_eq]
    exact hfit
  | add a =>
    refine ⟨charblobAdd owrealloc a cb, ?_, h.add hall⟩
    have hused : cb.used = size.1 := congrArg Prod.fst h.size_eq
    have hadd : (addSize size a.length).2 < 2 ^ 31 := hfit
    unfold addSize at hadd
    show (if cb.used = 0 then some cb else cb.extendInt owrealloc 1024 [comma]).bind _ = _
    unfold charblobAdd
    by_cases hzero : cb.used = 0
    · rw [if_pos (hused.symm.trans hzero)] at hadd
      rw [if_pos hzero, if_pos hzero]
      refine extendInt_eq ?_ hall
      rw [h.size_eq]
      exact hadd
    · rw [if_neg (hused ▸ hzero)] at hadd
      rw [if_neg hzero, if_neg hzero]
      have hcomma : (charblobAddChar owrealloc comma cb).Holds (text ++ [comma])
          (extendSize 1024 1 size) :=
        h.extend hall (by decide)
      have hfirst : cb.extendInt owrealloc 1024 [comma] =
          some (charblobAddChar owrealloc comma cb) := by
        refine extendInt_eq ?_ hall
        rw [h.size_eq]
        exact Nat.lt_of_le_of_lt (extendSize_mono _ _ _).2 hadd
      rw [hfirst]
      refine extendInt_eq ?_ hall
      rw [hcomma.size_eq]
      exact hadd

/-! ## The room behind the text -/

/-- `n` bytes were taken from blocks of 1024, and the rest of the last one is left. -/
structure Aligned (n : Nat) (size : Nat × Nat) : Prop where
  used_le : size.1 ≤ size.2
  room_lt : size.2 < size.1 + 1024
  room_eq : (size.2 - size.1 + n) % 1024 = 0

/-- Bytes that a block of 1024 can hold. -/
theorem Aligned.short {m n : Nat} (h : Aligned m size) (hn : n ≤ 1024) :
    Aligned (m + n) (extendSize 1024 n size) := by
  obtain ⟨hle, hlt, heq⟩ := h
  unfold extendSize
  split
  · exact ⟨by dsimp only; omega, by dsimp only; omega, by dsimp only; omega⟩
  · exact ⟨by dsimp only; omega, by dsimp only; omega, by dsimp only; omega⟩

/-- A long string never fits, and leaves the room as it was. -/
theorem Aligned.long {m n : Nat} (h : Aligned m size) (hn : 1024 < n) :
    Aligned m (extendSize n n size) := by
  obtain ⟨hle, hlt, heq⟩ := h
  rw [extendSize, if_pos (by omega)]
  exact ⟨by dsimp only; omega, by dsimp only; omega, by dsimp only; omega⟩

theorem Aligned.string {m n : Nat} (h : Aligned m size) :
    Aligned (m + if 1024 < n then 0 else n) (extendSize (max 1024 n) n size) := by
  by_cases hn : 1024 < n
  · rw [if_pos hn, max_eq_right (Nat.le_of_lt hn)]
    exact h.long hn
  · rw [if_neg hn, max_eq_left (Nat.not_lt.mp hn)]
    exact h.short (Nat.not_lt.mp hn)

/-- The bytes that a call takes from blocks of 1024, after a text that is started or not. -/
def BlobCall.short (started : Bool) : BlobCall → Nat
  | .add a => (if started then 1 else 0) + if 1024 < a.length then 0 else a.length
  | .addChar _ => 1

theorem Aligned.resize {m : Nat} {started : Bool} (h : Aligned m size)
    (hstarted : started = true ↔ size.1 ≠ 0) (call : BlobCall) :
    Aligned (m + call.short started) (call.resize size) := by
  cases call with
  | addChar a => exact h.short (Nat.succ_le_succ (Nat.zero_le _))
  | add a =>
    show Aligned _ (addSize size a.length)
    unfold addSize
    cases started with
    | false =>
      have hzero : size.1 = 0 := by simpa using hstarted
      rw [if_pos hzero]
      simpa [BlobCall.short] using h.string
    | true =>
      rw [if_neg (hstarted.mp rfl)]
      have := (h.short (n := 1) (by decide)).string (n := a.length)
      rwa [Nat.add_assoc] at this

/-! ## Runs -/

/-- What the calls write after a text that is started or not. -/
def written (started : Bool) : List BlobCall → Bytes
  | [] => []
  | .addChar a :: calls => a :: written true calls
  | .add a :: calls => (if started then [comma] else []) ++ a ++ written (started || a ≠ []) calls

/-- The bytes that a run takes from blocks of 1024. -/
def taken (started : Bool) : List BlobCall → Nat
  | [] => 0
  | .addChar a :: calls => BlobCall.short started (.addChar a) + taken true calls
  | .add a :: calls => BlobCall.short started (.add a) + taken (started || a ≠ []) calls

theorem taken_cons (started : Bool) (call : BlobCall) (calls : List BlobCall) :
    ∃ started', taken started (call :: calls) = call.short started + taken started' calls ∧
      ∀ text, (started = true ↔ text ≠ []) →
        (started' = true ↔ call.addTo text ≠ []) ∧
        text ++ written started (call :: calls) = call.addTo text ++ written started' calls := by
  cases call with
  | addChar a => exact ⟨true, rfl, fun text h =>
      ⟨by simp [BlobCall.addTo], by simp [written, BlobCall.addTo]⟩⟩
  | add a =>
    refine ⟨started || a ≠ [], rfl, fun text h => ?_⟩
    show _ ∧ _ = addText text a ++ _
    cases started with
    | false =>
      have htext : text = [] := by simpa using h
      subst htext
      simp [BlobCall.addTo, addText, written]
    | true =>
      have htext : text ≠ [] := h.mp rfl
      simp [BlobCall.addTo, addText, htext, written]

theorem resize_mono (size : Nat × Nat) (call : BlobCall) : size.2 ≤ (call.resize size).2 := by
  cases call with
  | addChar a => exact (extendSize_mono _ _ _).2
  | add a =>
    show _ ≤ (addSize size a.length).2
    unfold addSize
    split
    · exact (extendSize_mono _ _ _).2
    · exact (extendSize_mono _ _ _).2.trans (extendSize_mono _ _ _).2

theorem resizes_mono (size : Nat × Nat) (calls : List BlobCall) :
    size.2 ≤ (calls.foldl BlobCall.resize size).2 := by
  induction calls generalizing size with
  | nil => exact Nat.le_refl _
  | cons call calls ih => exact (resize_mono size call).trans (ih _)

/-- **A run of calls** whose block has a length that an `int` can say. -/
theorem Charblob.Holds.runs (hall : ∀ n, owrealloc n = true) (calls : List BlobCall) :
    ∀ {cb : Charblob} {text : Bytes} {size : Nat × Nat} (started : Bool), cb.Holds text size →
      (started = true ↔ text ≠ []) → (calls.foldl BlobCall.resize size).2 < 2 ^ 31 →
      ∃ cb', calls.foldlM (BlobCall.run owrealloc) cb = some cb' ∧
        cb'.Holds (text ++ written started calls) (calls.foldl BlobCall.resize size) := by
  induction calls with
  | nil =>
    intro cb text size started h _ _
    exact ⟨cb, rfl, by rwa [written, List.append_nil]⟩
  | cons call calls ih =>
    intro cb text size started h hstarted hfit
    obtain ⟨cb', hrun, h'⟩ := h.run hall call (Nat.lt_of_le_of_lt (resizes_mono _ calls) hfit)
    obtain ⟨started', -, hnext⟩ := taken_cons started call calls
    obtain ⟨hstarted', hwritten⟩ := hnext text hstarted
    obtain ⟨cb'', hruns, h''⟩ := ih started' h' hstarted' hfit
    refine ⟨cb'', ?_, hwritten ▸ h''⟩
    rw [List.foldlM_cons, hrun]
    exact hruns

/-- The text of a run and the room behind it. -/
theorem Aligned.runs (calls : List BlobCall) :
    ∀ {size : Nat × Nat} {m : Nat} {text : Bytes} (started : Bool), Aligned m size →
      text.length = size.1 → (started = true ↔ text ≠ []) →
      Aligned (m + taken started calls) (calls.foldl BlobCall.resize size) ∧
        (text ++ written started calls).length = (calls.foldl BlobCall.resize size).1 := by
  induction calls with
  | nil =>
    intro size m text started h hlen _
    exact ⟨h, by rwa [written, List.append_nil]⟩
  | cons call calls ih =>
    intro size m text started h hlen hstarted
    have hsize : started = true ↔ size.1 ≠ 0 := by
      rw [hstarted, ← hlen, Ne, Ne, List.length_eq_zero_iff]
    obtain ⟨started', htaken, hnext⟩ := taken_cons started call calls
    obtain ⟨hstarted', hwritten⟩ := hnext text hstarted
    have := ih started' (h.resize hsize call) (length_addTo call hlen) hstarted'
    rwa [htaken, ← Nat.add_assoc, hwritten]

/-- The byte behind the text is there if the text does not fill the block. -/
theorem Charblob.WellFormed.nul_iff (h : cb.WellFormed) :
    (cb.blob.getD [])[cb.used]? = some 0 ↔ cb.used < cb.allocated := by
  rw [← List.head?_drop, h.blank]
  cases hroom : cb.allocated - cb.used with
  | zero => simp; omega
  | succ n => simp [List.replicate_succ]; omega

/-! ## The commas -/

theorem written_true (calls : List BlobCall) : written true calls = content true calls := by
  induction calls with
  | nil => rfl
  | cons call calls ih => cases call <;> simp [written, content, ih]

/-- A text that is not started has no more commas than one that is. -/
theorem length_written_le (started : Bool) (calls : List BlobCall) :
    (written started calls).length ≤ (content true calls).length := by
  induction calls generalizing started with
  | nil => exact Nat.le_refl _
  | cons call calls ih =>
    cases call with
    | addChar a => exact Nat.succ_le_succ (ih true)
    | add a =>
      have := ih (started || a ≠ [])
      have hcomma : (if started then [comma] else []).length ≤
          [comma].length := by cases started <;> decide
      simp only [written, content, List.length_append, if_pos]
      omega

theorem written_eq_content_iff (later started : Bool) (calls : List BlobCall) :
    written started calls = content later calls ↔ SameCommas later started calls := by
  induction calls generalizing later started with
  | nil => exact ⟨fun _ => trivial, fun _ => rfl⟩
  | cons call calls ih =>
    cases call with
    | addChar a =>
      rw [written, content, List.cons.injEq, ih, SameCommas]
      exact and_iff_right rfl
    | add a =>
      rw [written, content, SameCommas, ← ih]
      have hle := length_written_le (started || a ≠ []) calls
      have htrue := congrArg List.length (written_true calls)
      constructor
      · intro h
        have hlen := congrArg List.length h
        simp only [List.length_append] at hlen
        -- the lengths differ if only one of the two has a comma here
        have hsame : later = started := by
          cases later with
          | false =>
            cases started with
            | false => rfl
            | true =>
              rw [Bool.true_or, htrue] at hlen
              simp at hlen
          | true =>
            cases started with
            | false =>
              simp only [if_pos, List.length_singleton, Bool.false_eq_true, if_false,
                List.length_nil] at hlen
              omega
            | true => rfl
        subst hsame
        exact ⟨rfl, List.append_cancel_left h⟩
      · rintro ⟨rfl, h⟩
        rw [h]

theorem taken_eq_shortLength {later started : Bool} {calls : List BlobCall}
    (h : SameCommas later started calls) : taken started calls = shortLength later calls := by
  induction calls generalizing later started with
  | nil => rfl
  | cons call calls ih =>
    cases call with
    | addChar a => rw [taken, shortLength, ih h, BlobCall.short]
    | add a =>
      obtain ⟨rfl, h⟩ := h
      rw [taken, shortLength, ih h, BlobCall.short]

/-! ## Blocks that are too long -/

/-- The most that a call adds. -/
def BlobCall.weight : BlobCall → Nat
  | .add a => a.length + 1
  | .addChar _ => 1

theorem sum_weight_eq (calls : List BlobCall) :
    (calls.map BlobCall.weight).sum = (content true calls).length := by
  induction calls with
  | nil => rfl
  | cons call calls ih =>
    rw [List.map_cons, List.sum_cons, ih]
    cases call <;> simp [content, BlobCall.weight] <;> omega

/-- There is one comma less than there are strings. -/
theorem sum_weight_le (calls : List BlobCall) :
    (calls.map BlobCall.weight).sum ≤ (content false calls).length + 1 := by
  induction calls with
  | nil => exact Nat.zero_le _
  | cons call calls ih =>
    rw [List.map_cons, List.sum_cons]
    cases call with
    | addChar a =>
      simp only [content, BlobCall.weight, List.length_cons]
      omega
    | add a =>
      rw [sum_weight_eq]
      simp only [content, BlobCall.weight, Bool.false_eq_true, if_false, List.nil_append,
        List.length_append]
      omega

/-- The block is full, and its next length is no `int`. -/
def Charblob.Stuck (cb : Charblob) : Prop := cb.used = cb.allocated ∧ 2 ^ 31 ≤ cb.allocated + 1024

/-- A length that is no `int` is refused, or the block is left. -/
theorem Charblob.extendInt_of_long {cb' : Charblob} {incr : Nat} {a : Bytes}
    (hfull : cb.allocated < cb.used + a.length) (hlong : 2 ^ 31 ≤ cb.allocated + incr)
    (hext : cb.extendInt owrealloc incr a = some cb') : cb' = { cb with troubled := true } := by
  unfold Charblob.extendInt at hext
  rw [if_pos hfull] at hext
  dsimp only at hext
  split at hext
  · exact (Option.some.inj hext).symm
  · have hlt := BitVec.toInt_lt (x := BitVec.ofNat 32 (cb.allocated + incr))
    rw [if_pos (by omega)] at hext
    cases hext

theorem Charblob.used_extendInt_le {cb' : Charblob} {incr : Nat} {a : Bytes}
    (hext : cb.extendInt owrealloc incr a = some cb') : cb'.used ≤ cb.used + a.length := by
  unfold Charblob.extendInt at hext
  dsimp only at hext
  split at hext
  · split at hext
    · cases hext
      exact Nat.le_add_right _ _
    · split at hext
      · cases hext
      · cases hext
        exact Nat.le_refl _
  · cases hext
    exact Nat.le_refl _

theorem Charblob.Stuck.extendInt {cb' : Charblob} {incr : Nat} {a : Bytes} (h : cb.Stuck)
    (hincr : 1024 ≤ incr) (hext : cb.extendInt owrealloc incr a = some cb') : cb'.Stuck := by
  obtain ⟨hused, hlong⟩ := h
  by_cases hfull : cb.allocated < cb.used + a.length
  · rw [extendInt_of_long hfull (by omega) hext]
    exact ⟨hused, hlong⟩
  · have ha : a = [] := List.length_eq_zero_iff.mp (by omega)
    unfold Charblob.extendInt at hext
    rw [if_neg hfull] at hext
    cases hext
    subst ha
    have hput : (cb.put []).allocated = cb.allocated := by
      unfold Charblob.put Charblob.allocated
      cases cb.blob <;> simp
    exact ⟨hput ▸ hused, hput ▸ hlong⟩

/-- The two stages of `CharblobAdd`. -/
theorem BlobCall.run_add_cases {cb' : Charblob} {a : Bytes}
    (hrun : (BlobCall.add a).run owrealloc cb = some cb') :
    ∃ cb₁, (cb.used = 0 ∧ cb₁ = cb ∨ cb.used ≠ 0 ∧ cb.extendInt owrealloc 1024 [comma] = some cb₁) ∧
      cb₁.extendInt owrealloc (max 1024 a.length) a = some cb' := by
  obtain ⟨cb₁, hcomma, hadd⟩ := Option.bind_eq_some_iff.mp hrun
  refine ⟨cb₁, ?_, hadd⟩
  by_cases hzero : cb.used = 0
  · rw [if_pos hzero] at hcomma
    exact .inl ⟨hzero, (Option.some.inj hcomma).symm⟩
  · rw [if_neg hzero] at hcomma
    exact .inr ⟨hzero, hcomma⟩

theorem BlobCall.used_run_le {cb' : Charblob} {call : BlobCall}
    (hrun : call.run owrealloc cb = some cb') : cb'.used ≤ cb.used + call.weight := by
  cases call with
  | addChar a => exact Charblob.used_extendInt_le hrun
  | add a =>
    obtain ⟨cb₁, hcomma, hadd⟩ := run_add_cases hrun
    have hused := Charblob.used_extendInt_le hadd
    show cb'.used ≤ cb.used + (a.length + 1)
    rcases hcomma with ⟨-, rfl⟩ | ⟨-, hcomma⟩
    · omega
    · have hused₁ : cb₁.used ≤ cb.used + 1 := Charblob.used_extendInt_le hcomma
      omega

theorem Charblob.Stuck.run {cb' : Charblob} {call : BlobCall} (h : cb.Stuck)
    (hrun : call.run owrealloc cb = some cb') : cb'.Stuck := by
  cases call with
  | addChar a => exact h.extendInt (Nat.le_refl _) hrun
  | add a =>
    obtain ⟨cb₁, hcomma, hadd⟩ := BlobCall.run_add_cases hrun
    rcases hcomma with ⟨-, rfl⟩ | ⟨-, hcomma⟩
    · exact h.extendInt (Nat.le_max_left _ _) hadd
    · exact (h.extendInt (Nat.le_refl _) hcomma).extendInt (Nat.le_max_left _ _) hadd

/-- The block is stuck, or something was lost that a further comma does not make up for. -/
def Short (cb cb' : Charblob) (weight : Nat) : Prop := cb'.Stuck ∨ cb'.used + 2 ≤ cb.used + weight

theorem Short.runs {cb' cb'' : Charblob} {weight : Nat} (h : Short cb cb' weight)
    (calls : List BlobCall) (hruns : calls.foldlM (BlobCall.run owrealloc) cb' = some cb'') :
    Short cb cb'' (weight + (calls.map BlobCall.weight).sum) := by
  induction calls generalizing cb' weight with
  | nil =>
    cases hruns
    exact h
  | cons call calls ih =>
    obtain ⟨cb₁, hrun, hruns⟩ := Option.bind_eq_some_iff.mp hruns
    have h₁ : Short cb cb₁ (weight + call.weight) := by
      rcases h with hstuck | hlost
      · exact .inl (hstuck.run hrun)
      · have := BlobCall.used_run_le hrun
        exact .inr (by omega)
    rw [List.map_cons, List.sum_cons, ← Nat.add_assoc]
    exact ih h₁ hruns

/-- One byte is refused only where the block is full. -/
theorem Charblob.extendInt_short {cb' : Charblob} {a : Bytes} (hle : cb.used ≤ cb.allocated)
    (hint : cb.allocated < 2 ^ 31)
    (hlong : 2 ^ 31 ≤ (extendSize (max 1024 a.length) a.length (cb.used, cb.allocated)).2)
    (hext : cb.extendInt owrealloc (max 1024 a.length) a = some cb') :
    cb'.used = cb.used ∧ 0 < a.length ∧ (a.length = 1 → cb'.Stuck) := by
  unfold extendSize at hlong
  dsimp only at hlong
  split at hlong
  · rename_i hfull
    rw [extendInt_of_long hfull hlong hext]
    refine ⟨rfl, by omega, fun hone => ⟨show cb.used = cb.allocated by omega, ?_⟩⟩
    rw [hone] at hlong
    exact hlong
  · omega

/-- A call whose block has a length that is no `int`. -/
theorem Charblob.Holds.short (h : cb.Holds text size) (hall : ∀ n, owrealloc n = true)
    (hint : size.2 < 2 ^ 31) {call : BlobCall} (hlong : 2 ^ 31 ≤ (call.resize size).2)
    {cb' : Charblob} (hrun : call.run owrealloc cb = some cb') : Short cb cb' call.weight := by
  obtain rfl := h.size_eq
  have hle := h.wellFormed.used_le
  cases call with
  | addChar a =>
    obtain ⟨-, -, hstuck⟩ := extendInt_short (a := [a]) hle hint hlong hrun
    exact .inl (hstuck rfl)
  | add a =>
    obtain ⟨cb₁, hcomma, hadd⟩ := BlobCall.run_add_cases hrun
    have hlong' : 2 ^ 31 ≤ (addSize (cb.used, cb.allocated) a.length).2 := hlong
    unfold addSize at hlong'
    rcases hcomma with ⟨hzero, rfl⟩ | ⟨hne, hcomma⟩
    · rw [if_pos hzero] at hlong'
      obtain ⟨hused, hpos, -⟩ := extendInt_short hle hint hlong' hadd
      exact .inr (show cb'.used + 2 ≤ cb₁.used + (a.length + 1) by omega)
    · rw [if_neg hne] at hlong'
      by_cases hlong₁ : 2 ^ 31 ≤ (extendSize 1024 1 (cb.used, cb.allocated)).2
      · -- the comma is refused
        obtain ⟨-, -, hstuck⟩ := extendInt_short (a := [comma]) hle hint hlong₁ hcomma
        exact .inl ((hstuck rfl).extendInt (Nat.le_max_left _ _) hadd)
      · obtain ⟨cb₂, hcomma', h₁⟩ := h.run hall (.addChar comma) (Nat.not_le.mp hlong₁)
        obtain rfl : cb₁ = cb₂ := Option.some.inj (hcomma.symm.trans hcomma')
        have hsize₁ : (cb₁.used, cb₁.allocated) = extendSize 1024 1 (cb.used, cb.allocated) :=
          h₁.size_eq
        have hused₁ : cb₁.used = cb.used + 1 := congrArg Prod.fst hsize₁
        rw [← hsize₁] at hlong₁ hlong'
        obtain ⟨hused, hpos, hstuck⟩ :=
          extendInt_short h₁.wellFormed.used_le (Nat.not_le.mp hlong₁) hlong' hadd
        by_cases hone : a.length = 1
        · exact .inl (hstuck hone)
        · exact .inr (show cb'.used + 2 ≤ cb.used + (a.length + 1) by omega)

/-- A run whose block would get too long. -/
theorem Charblob.Holds.shortRuns (hall : ∀ n, owrealloc n = true) (calls : List BlobCall) :
    ∀ {cb cb' : Charblob} {text : Bytes} {size : Nat × Nat}, cb.Holds text size → size.2 < 2 ^ 31 →
      2 ^ 31 ≤ (calls.foldl BlobCall.resize size).2 →
      calls.foldlM (BlobCall.run owrealloc) cb = some cb' →
      Short cb cb' (calls.map BlobCall.weight).sum := by
  induction calls with
  | nil =>
    intro cb cb' text size _ hint hlong _
    exact absurd hlong (Nat.not_le.mpr hint)
  | cons call calls ih =>
    intro cb cb' text size h hint hlong hruns
    obtain ⟨cb₁, hrun, hruns⟩ := Option.bind_eq_some_iff.mp hruns
    rw [List.map_cons, List.sum_cons]
    by_cases hcall : (call.resize size).2 < 2 ^ 31
    · obtain ⟨cb₁', hrun', h₁⟩ := h.run hall call hcall
      obtain rfl : cb₁ = cb₁' := Option.some.inj (hrun.symm.trans hrun')
      have hused := BlobCall.used_run_le hrun
      rcases ih h₁ hcall hlong hruns with hstuck | hlost
      · exact .inl hstuck
      · exact .inr (by omega)
    · exact (h.short hall hint (Nat.not_lt.mp hcall) hrun).runs calls hruns

/-! ## The representation -/

/-- The lengths of the text and of the block at the end of a run, if there were no end to them. -/
def lengths (calls : List BlobCall) : Nat × Nat := calls.foldl BlobCall.resize (0, 0)

theorem aligned_lengths (calls : List BlobCall) :
    Aligned (taken false calls) (lengths calls) ∧
      (written false calls).length = (lengths calls).1 := by
  have halign : Aligned 0 (0, 0) := ⟨Nat.le_refl 0, by decide, rfl⟩
  have := halign.runs calls false (show ([] : Bytes).length = 0 from rfl) (by simp)
  rwa [Nat.zero_add, List.nil_append] at this

theorem Aligned.lt_iff {m : Nat} (h : Aligned m size) : size.1 < size.2 ↔ m % 1024 ≠ 0 := by
  obtain ⟨hle, hlt, heq⟩ := h
  omega

/-- The block of the calls is as long as `FitsInt` says. -/
theorem lengths_lt_iff {calls : List BlobCall} (hsame : SameCommas false false calls)
    (hshort : shortLength false calls % 1024 ≠ 0) : (lengths calls).2 < 2 ^ 31 ↔ FitsInt calls := by
  obtain ⟨⟨hle, hlt, heq⟩, hlen⟩ := aligned_lengths calls
  rw [(written_eq_content_iff _ _ _).mpr hsame] at hlen
  rw [taken_eq_shortLength hsame] at heq
  unfold FitsInt
  omega

/-- A run and what it leaves. -/
theorem runCalls_holds (hall : ∀ n, owrealloc n = true) {calls : List BlobCall}
    (hfit : (lengths calls).2 < 2 ^ 31) :
    ∃ cb, runCalls owrealloc calls = some cb ∧ cb.Holds (written false calls) (lengths calls) :=
  charblobInit_holds.runs hall calls false (by simp) hfit

/-- The text of a run stays inside its block, whatever is added. -/
theorem runCalls_used_le (hall : ∀ n, owrealloc n = true) {calls : List BlobCall}
    (hfit : (lengths calls).2 < 2 ^ 31) :
    ∃ cb, runCalls owrealloc calls = some cb ∧ cb.used ≤ cb.allocated ∧
      cb.text = written false calls := by
  obtain ⟨cb, hrun, h⟩ := runCalls_holds hall hfit
  exact ⟨cb, hrun, h.wellFormed.used_le, h.text_eq⟩

/-- Where the block would get too long, bytes are missing, or there is no NUL. -/
theorem Represented.lengths_lt (hall : ∀ n, owrealloc n = true) {calls : List BlobCall}
    (hrep : Represented owrealloc calls) : (lengths calls).2 < 2 ^ 31 := by
  by_contra hlong
  obtain ⟨cb, hrun, hle, htext, hnul⟩ := hrep
  rcases charblobInit_holds.shortRuns hall calls (by decide) (Nat.not_lt.mp hlong) hrun with
    ⟨hused, -⟩ | hlost
  · rw [hused, Charblob.allocated, List.getElem?_eq_none (Nat.le_refl _)] at hnul
    cases hnul
  · have hlen : cb.text.length = cb.used := by
      rw [Charblob.text, List.length_take]
      exact Nat.min_eq_left hle
    have hweight := sum_weight_le calls
    rw [htext] at hlen
    have hzero : charblobInit.used = 0 := rfl
    omega

/-- What a run that represents its calls has kept to. -/
theorem Represented.condition (hall : ∀ n, owrealloc n = true) {calls : List BlobCall}
    (hrep : Represented owrealloc calls) :
    SameCommas false false calls ∧ shortLength false calls % 1024 ≠ 0 ∧ FitsInt calls := by
  have hfit := hrep.lengths_lt hall
  obtain ⟨cb, hrun, h⟩ := runCalls_holds hall hfit
  obtain ⟨cb', hrun', hrep⟩ := hrep
  obtain rfl : cb = cb' := Option.some.inj (hrun.symm.trans hrun')
  have hsame : SameCommas false false calls :=
    (written_eq_content_iff _ _ _).mp (h.text_eq.symm.trans hrep.text_eq)
  have hroom : (lengths calls).1 < (lengths calls).2 :=
    h.size_eq ▸ h.wellFormed.nul_iff.mp hrep.nul
  have hshort : shortLength false calls % 1024 ≠ 0 := by
    rw [← taken_eq_shortLength hsame]
    exact (aligned_lengths calls).1.lt_iff.mp hroom
  exact ⟨hsame, hshort, (lengths_lt_iff hsame hshort).mp hfit⟩

/-- **A run represents what was added if and only if it has the right commas and does not end at the
end of a block, and the length of its block is an `int`.** -/
theorem represented_iff (hall : ∀ n, owrealloc n = true) (calls : List BlobCall) :
    Represented owrealloc calls ↔
      SameCommas false false calls ∧ shortLength false calls % 1024 ≠ 0 ∧ FitsInt calls := by
  refine ⟨Represented.condition hall, ?_⟩
  rintro ⟨hsame, hshort, hfit⟩
  obtain ⟨cb, hrun, h⟩ := runCalls_holds hall ((lengths_lt_iff hsame hshort).mpr hfit)
  have hroom : (lengths calls).1 < (lengths calls).2 := by
    rw [(aligned_lengths calls).1.lt_iff, taken_eq_shortLength hsame]
    exact hshort
  refine ⟨cb, hrun, h.wellFormed.used_le, ?_, ?_⟩
  · rw [h.text_eq]
    exact (written_eq_content_iff _ _ _).mpr hsame
  · rw [h.wellFormed.nul_iff]
    exact (h.size_eq ▸ hroom :)

/-- Two names, the second with a slash, as `DirallslashHandler` adds them. -/
def sampleNames : List BlobCall := [.add [0x2F, 0x61], .add [0x2F, 0x62], .addChar 0x2F]

theorem represented_iff_sampleNames :
    Represented (fun _ => true) sampleNames ↔
      SameCommas false false sampleNames ∧ shortLength false sampleNames % 1024 ≠ 0 ∧
        FitsInt sampleNames :=
  represented_iff (fun _ => rfl) sampleNames

/-- A name that fills the first block: its NUL would be the byte behind the block. -/
theorem fullBlock_not_represented :
    ¬ Represented (fun _ => true) [.add (List.replicate 1024 0x61)] := by
  intro h
  have hlen : (List.replicate 1024 (0x61 : Byte)).length = 1024 := List.length_replicate
  generalize List.replicate 1024 (0x61 : Byte) = a at h hlen
  refine (h.condition fun _ => rfl).2.1 ?_
  show (0 + (if 1024 < a.length then 0 else a.length) + 0) % 1024 = 0
  rw [hlen]
  rfl

end Owfs.Directory
