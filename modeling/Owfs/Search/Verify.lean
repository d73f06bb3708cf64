import Owfs.Search.Bus
import Owfs.Bus.BitData

/-!
# Is a slave there?

`BUS_verify` (`ow_verify.c`) goes through a search with the directions of one serial number. The
whole search is one block of 25 bytes: the command, and for each bit two slots in which the slaves
answer and one with the direction. Where the slaves that are left have different bits they answer
with two zeros, where none is left with two ones. The routine counts the bits at which the answer is
the bit of the serial number, and is content with eight.

That is enough as long as there are not too many forks, and each fork leaves one slave behind. A
slave that differs leaves the search before the last bit, because the last eight bits are a
checksum.
-/

namespace Owfs.Search

open Infra Owfs.Device Owfs.BitData
open Owfs.Transaction (St)

/-! ## The code -/

/-- The block that is sent. -/
def verifyBuffer (search : Byte) (sn : SerialNumber) : Bytes :=
  (List.range 64).foldl (fun buffer i => utSetbit buffer (3 * i + 10) (sn.bit i))
    ((List.replicate 25 0xFF).set 0 search)

/-- The loop over the answers, with the number of bits still to look at. It ends early when no
device is left. -/
def verifyLoop (sn : SerialNumber) (buffer : Bytes) : Nat → Nat → Option Nat
  | 0, goodbits => some goodbits
  | n + 1, goodbits =>
    let i := 63 - n
    if goodbits < 64 then
      match utGetbit buffer (3 * i + 8), utGetbit buffer (3 * i + 9) with
      | false, false => verifyLoop sn buffer n goodbits
      | false, true => verifyLoop sn buffer n (if sn.bit i then goodbits else goodbits + 1)
      | true, false => verifyLoop sn buffer n (if sn.bit i then goodbits + 1 else goodbits)
      | true, true => none
    else some goodbits

/-- The tests on the block that came back. -/
def verifyReply (search : Byte) (sn : SerialNumber) (buffer : Bytes) : Bool :=
  if buffer.getD 0 0 ≠ search then false
  else
    match verifyLoop sn buffer 64 0 with
    | none => false
    | some goodbits => !decide (goodbits < 8)

/-- `BUS_verify`, for an adapter without a routine of its own. The block is at address 0. -/
def busVerify {σ : Type} (adapter : Adapter σ) (search : Byte) (sn : SerialNumber) (s : σ) :
    Option Bool :=
  (busSendbackData adapter (some 0) (some 0) 25
    ⟨Mem.write (fun _ => 0) 0 (verifyBuffer search sn), s⟩).map fun (good, st) =>
      good && verifyReply search sn (st.mem.read 0 25)

/-! ## The ideal bus -/

/-- The byte with these bits, least significant first. -/
def byteOfBits (bits : List Bool) : Byte :=
  BitVec.ofNat 8 (bits.foldr (fun b n => b.toNat + 2 * n) 0)

/-- What the slaves are at: the bits of a command, a search, or nothing that they would answer. -/
inductive Slaves where
  | command (got : List Bool)
  | search (w : Wire)
  | silent

/-- One time slot. `answering` are the slaves that take part in the search a command starts. -/
def Slaves.timeSlot (answering : Byte → Finset SerialNumber) : Slaves → Bool → Bool × Slaves
  | .command got, sent =>
    let got := got ++ [sent]
    (sent, if got.length = 8 then .search (Wire.start (answering (byteOfBits got)))
      else .command got)
  | .search w, sent =>
    let (bit, w) := w.timeSlot sent
    (bit, if w.pos = 64 then .silent else .search w)
  | .silent, sent => (sent, .silent)

/-- Several time slots. -/
def Slaves.exchange (answering : Byte → Finset SerialNumber) :
    List Bool → Slaves → List Bool × Slaves
  | [], s => ([], s)
  | b :: bs, s =>
    let (r, s) := s.timeSlot answering b
    let (rs, s) := Slaves.exchange answering bs s
    (r :: rs, s)

/-- The bits of a block. -/
def blockBits (block : Bytes) : List Bool := (List.range (block.length * 8)).map (utGetbit block)

/-- A bit as a byte. -/
def bitByte (b : Bool) : Byte := if b then 0xFF else 0x00

theorem length_exchange (answering : Byte → Finset SerialNumber) (bits : List Bool) (s : Slaves) :
    (s.exchange answering bits).1.length = bits.length := by
  induction bits generalizing s with
  | nil => rfl
  | cons b bs ih => rw [Slaves.exchange, List.length_cons, List.length_cons, ih]

/-- A master on the ideal bus, with a routine for blocks or without. -/
def idealMaster (answering : Byte → Finset SerialNumber) (native : Bool) : Adapter Slaves where
  sendbackData :=
    if native then
      some fun block s =>
        (some (decodeBits ((s.exchange answering (blockBits block)).1.map bitByte) block),
          (s.exchange answering (blockBits block)).2)
    else none
  sendbackBits bits s :=
    (some ((s.exchange answering (bits.map (· ≠ 0))).1.map bitByte),
      (s.exchange answering (bits.map (· ≠ 0))).2)
  length_sendbackBits := by
    rintro d s r s' h
    rw [← Option.some.inj (Prod.mk.inj h).1, List.length_map, length_exchange, List.length_map]

/-! ## Blocks on the ideal bus -/

section

variable {answering : Byte → Finset SerialNumber} {native : Bool} {s : Slaves} {mem : Mem}
    {a len : Nat}

theorem exchange_cons (b : Bool) (bs : List Bool) (s : Slaves) :
    s.exchange answering (b :: bs) =
      ((s.timeSlot answering b).1 :: ((s.timeSlot answering b).2.exchange answering bs).1,
        ((s.timeSlot answering b).2.exchange answering bs).2) := rfl

theorem exchange_append (xs ys : List Bool) (s : Slaves) :
    s.exchange answering (xs ++ ys) =
      ((s.exchange answering xs).1 ++ ((s.exchange answering xs).2.exchange answering ys).1,
        ((s.exchange answering xs).2.exchange answering ys).2) := by
  induction xs generalizing s with
  | nil => rfl
  | cons b bs ih =>
    rw [List.cons_append, exchange_cons, exchange_cons, ih, List.cons_append]

theorem exchange_silent (bits : List Bool) :
    Slaves.silent.exchange answering bits = (bits, .silent) := by
  induction bits with
  | nil => rfl
  | cons b bs ih =>
    rw [exchange_cons, Slaves.timeSlot, ih]

theorem length_blockBits (block : Bytes) : (blockBits block).length = block.length * 8 := by
  rw [blockBits, List.length_map, List.length_range]

theorem blockBits_append (x y : Bytes) : blockBits (x ++ y) = blockBits x ++ blockBits y := by
  apply List.ext_getElem
  · simp only [length_blockBits, List.length_append]
    omega
  · intro j hj hj'
    rw [length_blockBits, List.length_append] at hj
    by_cases hx : j < x.length * 8
    · rw [List.getElem_append_left (by rwa [length_blockBits])]
      simp only [blockBits, List.getElem_map, List.getElem_range, utGetbit,
        List.getD_eq_getElem?_getD]
      rw [List.getElem?_append_left (by omega)]
    · rw [List.getElem_append_right (by rw [length_blockBits]; omega)]
      simp only [blockBits, List.getElem_map, List.getElem_range, utGetbit,
        List.getD_eq_getElem?_getD, List.length_map, List.length_range]
      rw [List.getElem?_append_right (by omega),
        show (j - x.length * 8) / 8 = j / 8 - x.length by omega,
        show (j - x.length * 8) % 8 = j % 8 by omega]

/-- What is decoded are the bits. -/
theorem blockBits_decodeBits {r : List Bool} {resp : Bytes} (h : r.length = resp.length * 8) :
    blockBits (decodeBits (r.map bitByte) resp) = r := by
  apply List.ext_getElem
  · rw [length_blockBits, length_decodeBits, h]
  · intro j hj hj'
    simp only [blockBits, List.getElem_map, List.getElem_range]
    rw [utGetbit_decodeBits (by rw [List.length_map]; omega) (by omega),
      List.getD_eq_getElem _ _ (by simpa using hj'), List.getElem_map]
    cases r[j] <;> rfl

theorem map_encodeBits (block : Bytes) :
    (encodeBits block).map (fun b => decide (b ≠ 0)) = blockBits block := by
  rw [encodeBits, blockBits, List.map_map]
  apply List.map_congr_left
  intro i _
  show decide ((if utGetbit block i then (0xFF : Byte) else 0x00) ≠ 0) = utGetbit block i
  cases utGetbit block i <;> rfl

theorem read_add (m : Mem) (a n k : Nat) : m.read a (n + k) = m.read a n ++ m.read (a + n) k := by
  rw [Mem.read, Mem.read, Mem.read, List.range_add, List.map_append, List.map_map]
  simp only [Function.comp_def, Nat.add_assoc]

/-- A block that is sent in one call. -/
theorem sendbackBlock_ideal (answering : Byte → Finset SerialNumber) (native : Bool) (mem : Mem)
    (s : Slaves) (a len : Nat) (hlen : len ≠ 0) :
    ∃ mem', sendbackBlock (idealMaster answering native) (some a) (some a) len ⟨mem, s⟩
        = some (true, ⟨mem', (s.exchange answering (blockBits (mem.read a len))).2⟩) ∧
      blockBits (mem'.read a len) = (s.exchange answering (blockBits (mem.read a len))).1 ∧
      ∀ b k, a + len ≤ b ∨ b + k ≤ a → mem'.read b k = mem.read b k := by
  have hcount : (s.exchange answering (blockBits (mem.read a len))).1.length =
      (mem.read a len).length * 8 := by
    rw [length_exchange, length_blockBits]
  have hlength : ∀ bits, (decodeBits bits (mem.read a len)).length = len := by
    intro bits
    rw [length_decodeBits, Mem.length_read]
  have hne : ∀ bits, decodeBits bits (mem.read a len) ≠ [] := by
    intro bits hnil
    have hzero := hlength bits
    rw [hnil] at hzero
    exact hlen hzero.symm
  refine ⟨mem.write a (decodeBits
    ((s.exchange answering (blockBits (mem.read a len))).1.map bitByte)
    (mem.read a len)), ?_, ?_, ?_⟩
  · rw [sendbackBlock, Mem.fetch_some, Option.bind_eq_bind, Option.bind_some]
    simp only [idealMaster, ne_eq, map_encodeBits, reduceCtorEq, if_false, Option.bind_eq_bind,
      Option.bind_some, Mem.deposit, if_neg (hne _), Option.map_some]
  · have hread := Mem.read_write_self mem a (decodeBits ((s.exchange answering
      (blockBits (mem.read a len))).1.map bitByte) (mem.read a len))
    rw [hlength] at hread
    rw [hread, blockBits_decodeBits hcount]
  · intro b k hapart
    refine Mem.read_write_of_apart ?_
    rw [hlength]
    exact Or.inr (Or.inr hapart)

/-- Through single bits the block is sent in two parts, and then, when no slave answers any more,
the reply is sent and comes back. -/
theorem bitbang_ideal {mem : Mem} {s : Slaves}
    (hsilent : (s.exchange answering (blockBits (mem.read a 25))).2 = .silent) :
    ∃ st, busSendbackDataBitbang (idealMaster answering native) (some a) (some a) 25 ⟨mem, s⟩ =
      some (true, st) ∧
      blockBits (st.mem.read a 25) = (s.exchange answering (blockBits (mem.read a 25))).1 := by
  have hsplit : blockBits (mem.read a 25) = blockBits (mem.read a 20) ++
      blockBits (mem.read (a + 20) 5) := by
    rw [read_add mem a 20 5, blockBits_append]
  rw [hsplit, exchange_append] at hsilent ⊢
  dsimp only at hsilent ⊢
  obtain ⟨mem₁, hrun₁, hbits₁, hframe₁⟩ :=
    sendbackBlock_ideal answering native mem s a 20 (by decide)
  obtain ⟨mem₂, hrun₂, hbits₂, hframe₂⟩ := sendbackBlock_ideal answering native mem₁
    (s.exchange answering (blockBits (mem.read a 20))).2 (a + 20) 5 (by decide)
  rw [hframe₁ (a + 20) 5 (Or.inl le_rfl)] at hbits₂ hrun₂
  rw [hsilent] at hrun₂
  obtain ⟨mem₃, hrun₃, hbits₃, -⟩ :=
    sendbackBlock_ideal answering native mem₂ .silent a 25 (by decide)
  rw [exchange_silent] at hbits₃ hrun₃
  refine ⟨⟨mem₃, .silent⟩, ?_, ?_⟩
  · rw [busSendbackDataBitbang, if_neg (by decide), dif_pos (by decide),
      show maxSplitBytes = 20 from rfl, busSendbackDataBitbang_of_le _ (by decide) (by decide),
        hrun₁,
      Option.bind_some]
    simp only [Option.map_some]
    rw [busSendbackDataBitbang_of_le _ (by decide) (by decide), show 25 - 20 = 5 from rfl, hrun₂,
      Option.bind_some]
    exact hrun₃
  · rw [hbits₃, read_add mem₂ a 20 5, blockBits_append, hbits₂, hframe₂ a 20 (Or.inr le_rfl),
      hbits₁]

/-- A block of 25 bytes after which no slave answers any more, with either kind of master. -/
theorem busSendbackData_ideal (native : Bool) {mem : Mem} {s : Slaves}
    (hsilent : (s.exchange answering (blockBits (mem.read a 25))).2 = .silent) :
    ∃ st, busSendbackData (idealMaster answering native) (some a) (some a) 25 ⟨mem, s⟩ =
      some (true, st) ∧
      blockBits (st.mem.read a 25) = (s.exchange answering (blockBits (mem.read a 25))).1 := by
  rw [busSendbackData, if_neg (by decide)]
  cases native with
  | false => exact bitbang_ideal hsilent
  | true =>
    have hcount : (s.exchange answering (blockBits (mem.read a 25))).1.length =
        (mem.read a 25).length * 8 := by
      rw [length_exchange, length_blockBits]
    have hlength : (decodeBits ((s.exchange answering (blockBits (mem.read a 25))).1.map bitByte)
        (mem.read a 25)).length = 25 := by
      rw [length_decodeBits, Mem.length_read]
    have hne : decodeBits ((s.exchange answering (blockBits (mem.read a 25))).1.map bitByte)
        (mem.read a 25) ≠ [] := by
      intro hnil
      rw [hnil] at hlength
      cases hlength
    have hread := Mem.read_write_self mem a (decodeBits ((s.exchange answering
      (blockBits (mem.read a 25))).1.map bitByte) (mem.read a 25))
    rw [hlength] at hread
    refine ⟨⟨mem.write a (decodeBits
      ((s.exchange answering (blockBits (mem.read a 25))).1.map bitByte)
      (mem.read a 25)), (s.exchange answering (blockBits (mem.read a 25))).2⟩, ?_, ?_⟩
    · simp only [idealMaster, if_true, Mem.fetch_some, Option.bind_eq_bind, Option.bind_some,
        Mem.deposit, if_neg hne, Option.map_some]
    · dsimp only
      rw [hread, blockBits_decodeBits hcount]

end

/-! ## The search of a serial number -/

/-- The slots of the search from bit `i` on. -/
def triplets (sn : SerialNumber) : Nat → Nat → List Bool
  | _, 0 => []
  | i, n + 1 => true :: true :: sn.bit i :: triplets sn (i + 1) n

theorem length_verifyBuffer (search : Byte) (sn : SerialNumber) (n : Nat) :
    ((List.range n).foldl (fun buffer i => utSetbit buffer (3 * i + 10) (sn.bit i))
      ((List.replicate 25 0xFF).set 0 search)).length = 25 := by
  induction n with
  | zero => simp
  | succ n ih => rw [List.range_succ, List.foldl_append, List.foldl_cons, List.foldl_nil,
      length_utSetbit, ih]

/-- The bits of the block: the command, and behind it ones but for the directions. -/
theorem utGetbit_verifyBuffer (search : Byte) (sn : SerialNumber) {n : Nat} (hn : n ≤ 64) {j : Nat}
    (hj : j < 200) :
    utGetbit ((List.range n).foldl (fun buffer i => utSetbit buffer (3 * i + 10) (sn.bit i))
        ((List.replicate 25 0xFF).set 0 search)) j
      = if j < 8 then search.getLsbD j
        else if (j - 8) % 3 = 2 ∧ (j - 8) / 3 < n then sn.bit ((j - 8) / 3) else true := by
  induction n with
  | zero =>
    rw [if_neg (by omega : ¬ ((j - 8) % 3 = 2 ∧ (j - 8) / 3 < 0))]
    show utGetbit ((List.replicate 25 0xFF).set 0 search) j = _
    rw [utGetbit, List.getD_eq_getElem?_getD, List.getElem?_set]
    by_cases h8 : j < 8
    · rw [if_pos (by omega), if_pos (by simp), if_pos h8, Option.getD_some, Nat.mod_eq_of_lt h8]
    · rw [if_neg (by omega), if_neg h8, List.getElem?_replicate, if_pos (by omega),
        Option.getD_some]
      have hmod : j % 8 < 8 := Nat.mod_lt _ (by decide)
      generalize j % 8 = k at hmod
      interval_cases k <;> rfl
  | succ n ih =>
    rw [List.range_succ, List.foldl_append, List.foldl_cons, List.foldl_nil,
      utGetbit_utSetbit (by rw [length_verifyBuffer]; omega), ih (by omega)]
    by_cases heq : j = 3 * n + 10
    · rw [if_pos heq, if_neg (by omega), if_pos (by omega), show (j - 8) / 3 = n by omega]
    · rw [if_neg heq]
      by_cases h8 : j < 8
      · rw [if_pos h8, if_pos h8]
      · rw [if_neg h8, if_neg h8]
        by_cases hdir : (j - 8) % 3 = 2 ∧ (j - 8) / 3 < n
        · rw [if_pos hdir, if_pos ⟨hdir.1, by omega⟩]
        · rw [if_neg hdir, if_neg (by omega)]

theorem length_triplets (sn : SerialNumber) (i n : Nat) : (triplets sn i n).length = 3 * n := by
  induction n generalizing i with
  | zero => rfl
  | succ n ih =>
    rw [triplets, List.length_cons, List.length_cons, List.length_cons, ih]
    omega

theorem getElem?_triplets (sn : SerialNumber) {i n k : Nat} (hk : k < 3 * n) :
    (triplets sn i n)[k]? = some (if k % 3 = 2 then sn.bit (i + k / 3) else true) := by
  induction n generalizing i k with
  | zero => omega
  | succ n ih =>
    match k, hk with
    | 0, _ => rfl
    | 1, _ => rfl
    | 2, _ => rfl
    | k + 3, hk =>
      rw [triplets, List.getElem?_cons_succ, List.getElem?_cons_succ, List.getElem?_cons_succ,
        ih (by omega),
        show (k + 3) % 3 = k % 3 by omega, show i + (k + 3) / 3 = i + 1 + k / 3 by omega]

/-- The eight bits of a byte. -/
def byteBits (b : Byte) : List Bool := (List.range 8).map b.getLsbD

theorem byteOfBits_byteBits : ∀ b : Byte, byteOfBits (byteBits b) = b := by decide +kernel

theorem blockBits_verifyBuffer (search : Byte) (sn : SerialNumber) :
    blockBits (verifyBuffer search sn) = byteBits search ++ triplets sn 0 64 := by
  have hlen : (verifyBuffer search sn).length = 25 := length_verifyBuffer search sn 64
  apply List.ext_getElem?
  intro j
  by_cases hj : j < 200
  · have hbit := utGetbit_verifyBuffer search sn (le_refl 64) hj
    rw [blockBits, List.getElem?_map, List.getElem?_range (by rw [hlen]; exact hj), Option.map_some,
      verifyBuffer, hbit]
    by_cases h8 : j < 8
    · rw [if_pos h8, List.getElem?_append_left (by simp [byteBits]; omega), byteBits,
        List.getElem?_map, List.getElem?_range h8, Option.map_some]
    · have hcommand : (byteBits search).length = 8 := by simp [byteBits]
      rw [if_neg h8, List.getElem?_append_right (by rw [hcommand]; omega), hcommand,
        getElem?_triplets sn (by omega), Nat.zero_add]
      by_cases hmod : (j - 8) % 3 = 2
      · rw [if_pos hmod, if_pos ⟨hmod, by omega⟩]
      · rw [if_neg hmod, if_neg (fun h => hmod h.1)]
  · have hleft : (blockBits (verifyBuffer search sn)).length ≤
        j := by rw [length_blockBits, hlen]; omega
    have hright : (byteBits search ++ triplets sn 0 64).length ≤ j := by
      rw [List.length_append, length_triplets]
      simp [byteBits]
      omega
    rw [List.getElem?_eq_none hleft, List.getElem?_eq_none hright]

/-- The slaves that are left before bit `n`. -/
def followers (S : Finset SerialNumber) (sn : SerialNumber) (n : Nat) : Finset SerialNumber :=
  S.filter fun s => ∀ i < n, s.bit i = sn.bit i

/-- What the master reads from bit `i` on. -/
def replies (S : Finset SerialNumber) (sn : SerialNumber) : Nat → Nat → List Bool
  | _, 0 => []
  | i, n + 1 =>
    (answer (followers S sn i) i).1 :: (answer (followers S sn i) i).2 :: sn.bit i ::
      replies S sn (i + 1) n

/-- The slaves before bit `i` of the search. -/
def Slaves.atBit (S : Finset SerialNumber) (sn : SerialNumber) (i : Nat) : Slaves :=
  if i = 64 then .silent else .search ⟨followers S sn i, i, .bit⟩

section

variable {answering : Byte → Finset SerialNumber} {S : Finset SerialNumber} {sn : SerialNumber}

theorem mem_followers {s : SerialNumber} {n : Nat} :
    s ∈ followers S sn n ↔ s ∈ S ∧ ∀ i < n, s.bit i = sn.bit i := Finset.mem_filter

theorem followers_zero (S : Finset SerialNumber) (sn : SerialNumber) : followers S sn 0 = S := by
  apply Finset.filter_true_of_mem
  intro s _ i hi
  exact absurd hi (Nat.not_lt_zero i)

theorem followers_succ (S : Finset SerialNumber) (sn : SerialNumber) (n : Nat) :
    followers S sn (n + 1) = (followers S sn n).filter fun s => s.bit n = sn.bit n := by
  ext s
  rw [mem_followers, Finset.mem_filter, mem_followers]
  constructor
  · rintro ⟨hS, hbits⟩
    exact ⟨⟨hS, fun i hi => hbits i (by omega)⟩, hbits n (by omega)⟩
  · rintro ⟨⟨hS, hbits⟩, hn⟩
    refine ⟨hS, fun i hi => ?_⟩
    rcases Nat.lt_succ_iff_lt_or_eq.mp hi with hlt | rfl
    · exact hbits i hlt
    · exact hn

theorem exchange_command (search : Byte) :
    (Slaves.command []).exchange answering (byteBits search)
      = (byteBits search, .search (Wire.start (answering search))) := by
  have hbits : ∀ b₀ b₁ b₂ b₃ b₄ b₅ b₆ b₇ : Bool,
      (Slaves.command []).exchange answering [b₀, b₁, b₂, b₃, b₄, b₅, b₆, b₇] =
        ([b₀, b₁, b₂, b₃, b₄, b₅, b₆, b₇],
          .search (Wire.start (answering (byteOfBits [b₀, b₁, b₂, b₃, b₄, b₅, b₆, b₇])))) := by
    intros
    rfl
  have hbyte := hbits (search.getLsbD 0) (search.getLsbD 1) (search.getLsbD 2) (search.getLsbD 3)
    (search.getLsbD 4) (search.getLsbD 5) (search.getLsbD 6) (search.getLsbD 7)
  rw [show [search.getLsbD 0, search.getLsbD 1, search.getLsbD 2, search.getLsbD 3,
    search.getLsbD 4, search.getLsbD 5, search.getLsbD 6,
    search.getLsbD 7] = byteBits search from rfl, byteOfBits_byteBits] at hbyte
  exact hbyte

/-- One bit of the search. -/
theorem exchange_triplet {i : Nat} (hi : i < 64) (bits : List Bool) :
    (Slaves.atBit S sn i).exchange answering (true :: true :: sn.bit i :: bits) =
      ((answer (followers S sn i) i).1 :: (answer (followers S sn i) i).2 :: sn.bit i ::
          ((Slaves.atBit S sn (i + 1)).exchange answering bits).1,
        ((Slaves.atBit S sn (i + 1)).exchange answering bits).2) := by
  have hne : i ≠ 64 := by omega
  have hnext : Slaves.atBit S sn (i + 1) =
      if i + 1 = 64 then .silent
      else .search ⟨(followers S sn i).filter fun s => s.bit i = sn.bit i, i + 1, .bit⟩ := by
    rw [Slaves.atBit, followers_succ]
  rw [hnext, exchange_cons, exchange_cons, exchange_cons, Slaves.atBit, if_neg hne]
  simp only [Slaves.timeSlot, Wire.timeSlot, if_neg hne, Bool.true_and, answer]

theorem exchange_triplets {i n : Nat} (h : i + n = 64) :
    (Slaves.atBit S sn i).exchange answering (triplets sn i n) = (replies S sn i n, .silent) := by
  induction n generalizing i with
  | zero =>
    rw [Nat.add_zero] at h
    rw [Slaves.atBit, if_pos h]
    rfl
  | succ n ih => rw [triplets, exchange_triplet (by omega), ih (by omega), replies]

theorem getElem?_replies {i n k : Nat} (hk : k < n) :
    (replies S sn i n)[3 * k]? = some (answer (followers S sn (i + k)) (i + k)).1 ∧
      (replies S sn i n)[3 * k + 1]? = some (answer (followers S sn (i + k)) (i + k)).2 := by
  induction n generalizing i k with
  | zero => omega
  | succ n ih =>
    cases k with
    | zero => exact ⟨rfl, rfl⟩
    | succ k =>
      obtain ⟨h₁, h₂⟩ := @ih (i + 1) k (by omega)
      rw [show i + (k + 1) = i + 1 + k by omega]
      exact ⟨h₁, h₂⟩

/-! ## The count -/

/-- The buffer holds the answers of the search. -/
def Answered (S : Finset SerialNumber) (sn : SerialNumber) (buffer : Bytes) : Prop :=
  ∀ i < 64, utGetbit buffer (3 * i + 8) = (answer (followers S sn i) i).1 ∧
    utGetbit buffer (3 * i + 9) = (answer (followers S sn i) i).2

theorem answer_empty (i : Nat) : answer ∅ i = (true, true) := by
  simp [answer]

/-- At a fork a slave is left behind. -/
theorem card_followers_succ_lt {i : Nat} (h : answer (followers S sn i) i = (false, false)) :
    (followers S sn (i + 1)).card < (followers S sn i).card := by
  obtain ⟨⟨s₀, h₀⟩, ⟨s₁, h₁⟩⟩ := (isFork_iff_answer (S := S)).mpr h
  rw [Trie.mem_branch, bit_trie] at h₀ h₁
  rw [followers_succ]
  apply Finset.card_lt_card
  rw [Finset.filter_ssubset]
  cases hbit : sn.bit i with
  | false => exact ⟨s₁, h₁.1, by rw [h₁.2]; decide⟩
  | true => exact ⟨s₀, h₀.1, by rw [h₀.2]; decide⟩

theorem card_followers_succ_le (S : Finset SerialNumber) (sn : SerialNumber) (i : Nat) :
    (followers S sn (i + 1)).card ≤ (followers S sn i).card := by
  rw [followers_succ]
  exact Finset.card_filter_le _ _

/-- A slave that is there is counted at every bit that is no fork, and the forks are fewer than the
slaves that are left. -/
theorem verifyLoop_of_mem {buffer : Bytes} (hS : sn ∈ S) (hbuffer : Answered S sn buffer) {n : Nat}
    (hn : n ≤ 64) :
    ∀ g, g + n ≤ 64 → ∃ r, verifyLoop sn buffer n g = some r ∧
      g + n + 1 ≤ r + (followers S sn (64 - n)).card := by
  have hmem : ∀ i, sn ∈ followers S sn i := fun i => mem_followers.mpr ⟨hS, fun _ _ => rfl⟩
  induction n with
  | zero =>
    intro g _
    have hpos : 0 < (followers S sn 64).card := Finset.card_pos.mpr ⟨sn, hmem 64⟩
    exact ⟨g, rfl, by show g + 0 + 1 ≤ g + (followers S sn 64).card; omega⟩
  | succ n ih =>
    intro g hg
    have hi : 64 - (n + 1) = 63 - n := by omega
    have hnext : 64 - n = 63 - n + 1 := by omega
    obtain ⟨h₁, h₂⟩ := hbuffer (63 - n) (by omega)
    have hle := card_followers_succ_le S sn (63 - n)
    rw [hi]
    rw [hnext] at ih
    rw [verifyLoop, if_pos (by omega), h₁, h₂]
    cases ha : answer (followers S sn (63 - n)) (63 - n) with
    | mk b₁ b₂ =>
      cases b₁ <;> cases b₂
      · obtain ⟨r, hr, hle'⟩ := ih (by omega) g (by omega)
        have hlt := card_followers_succ_lt ha
        exact ⟨r, hr, by omega⟩
      · have hbit : sn.bit (63 - n) = false :=
          of_decide_eq_true (Prod.mk.inj ha).2 sn (hmem _)
        obtain ⟨r, hr, hle'⟩ := ih (by omega) (g + 1) (by omega)
        exact ⟨r, by simp only [hbit]; exact hr, by omega⟩
      · have hbit : sn.bit (63 - n) = true :=
          of_decide_eq_true (Prod.mk.inj ha).1 sn (hmem _)
        obtain ⟨r, hr, hle'⟩ := ih (by omega) (g + 1) (by omega)
        exact ⟨r, by simp only [hbit]; exact hr, by omega⟩
      · have hbit : sn.bit (63 - n) = true := of_decide_eq_true (Prod.mk.inj ha).1 sn (hmem _)
        have hbit' : sn.bit (63 - n) = false := of_decide_eq_true (Prod.mk.inj ha).2 sn (hmem _)
        rw [hbit] at hbit'
        cases hbit'

/-- When nobody is left at the last bit the loop ends there at the latest. -/
theorem verifyLoop_of_empty {buffer : Bytes} (hempty : followers S sn 63 = ∅)
    (hbuffer : Answered S sn buffer) {n : Nat} (hn : n < 64) :
    ∀ g, g + n < 64 → verifyLoop sn buffer (n + 1) g = none := by
  induction n with
  | zero =>
    intro g hg
    obtain ⟨h₁, h₂⟩ := hbuffer 63 (by omega)
    rw [hempty, answer_empty] at h₁ h₂
    rw [verifyLoop, if_pos (by omega), h₁, h₂]
  | succ n ih =>
    intro g hg
    rw [verifyLoop, if_pos (by omega)]
    split
    · exact ih (by omega) _ (by omega)
    · exact ih (by omega) _ (by split <;> omega)
    · exact ih (by omega) _ (by split <;> omega)
    · rfl

/-! ## The routine -/

/-- With good checksums, who follows up to the last bit is the one. -/
theorem followers_eq_empty (hcrc : ∀ s ∈ S, s.CrcValid) (hsn : sn.CrcValid) (hnot : sn ∉ S) :
    followers S sn 63 = ∅ := by
  rw [Finset.eq_empty_iff_forall_notMem]
  intro s hs
  obtain ⟨hS, hbits⟩ := mem_followers.mp hs
  have heq := SerialNumber.eq_of_bit_of_crcValid (hcrc s hS) hsn fun i hi => hbits i (by omega)
  exact hnot (heq ▸ hS)

/-- The block that comes back. -/
theorem exchange_verifyBuffer (answering : Byte → Finset SerialNumber) (search : Byte)
    (sn : SerialNumber) :
    (Slaves.command []).exchange answering (blockBits (verifyBuffer search sn)) =
      (byteBits search ++ replies (answering search) sn 0 64, .silent) := by
  have hstart : Slaves.search (Wire.start (answering search)) =
      Slaves.atBit (answering search) sn 0 := by
    rw [Slaves.atBit, if_neg (by decide), followers_zero]
    rfl
  rw [blockBits_verifyBuffer, exchange_append, exchange_command]
  dsimp only
  rw [hstart, exchange_triplets (by decide)]

theorem utGetbit_of_blockBits {buffer : Bytes} {bits : List Bool} (h : blockBits buffer = bits)
    {j : Nat} {b : Bool} (hj : bits[j]? = some b) : utGetbit buffer j = b := by
  rw [← h, blockBits, List.getElem?_map, Option.map_eq_some_iff] at hj
  obtain ⟨k, hk, rfl⟩ := hj
  rw [List.getElem?_eq_some_iff] at hk
  obtain ⟨hlt, hk⟩ := hk
  rw [List.getElem_range] at hk
  rw [hk]

theorem answered_of_blockBits {buffer : Bytes} {search : Byte}
    (h : blockBits buffer = byteBits search ++ replies S sn 0 64) : Answered S sn buffer := by
  have hcommand : (byteBits search).length = 8 := by simp [byteBits]
  intro i hi
  obtain ⟨h₁, h₂⟩ := getElem?_replies (S := S) (i := 0) hi
  rw [Nat.zero_add] at h₁ h₂
  refine ⟨utGetbit_of_blockBits h ?_, utGetbit_of_blockBits h ?_⟩
  · rw [List.getElem?_append_right (by rw [hcommand]; omega), hcommand, Nat.add_sub_cancel, h₁]
  · rw [List.getElem?_append_right (by rw [hcommand]; omega), hcommand,
      Nat.add_sub_cancel (n := 3 * i + 1) (m := 8), h₂]

/-- The command comes back as it was sent. -/
theorem getD_zero_of_blockBits {buffer : Bytes} {search : Byte}
    (h : blockBits buffer = byteBits search ++ replies S sn 0 64) : buffer.getD 0 0 = search := by
  apply BitVec.eq_of_getLsbD_eq
  intro k hk
  have hbit : utGetbit buffer k = search.getLsbD k := by
    refine utGetbit_of_blockBits h ?_
    rw [List.getElem?_append_left (by simp [byteBits]; omega), byteBits, List.getElem?_map,
      List.getElem?_range hk, Option.map_some]
  rw [utGetbit, Nat.div_eq_of_lt hk, Nat.mod_eq_of_lt hk] at hbit
  exact hbit

/-- The tests on the reply tell whether the slave is there. -/
theorem verifyReply_eq {buffer : Bytes} {search : Byte} (hcard : S.card < 57)
    (hcrc : ∀ s ∈ S, s.CrcValid) (hsn : sn.CrcValid)
    (h : blockBits buffer = byteBits search ++ replies S sn 0 64) :
    verifyReply search sn buffer = decide (sn ∈ S) := by
  rw [verifyReply, if_neg (not_not.mpr (getD_zero_of_blockBits h))]
  by_cases hmem : sn ∈ S
  · obtain ⟨r, hr, hle⟩ :=
      verifyLoop_of_mem hmem (answered_of_blockBits h) (le_refl 64) 0 (by decide)
    rw [Nat.sub_self, followers_zero] at hle
    rw [hr, decide_eq_true hmem]
    show (!decide (r < 8)) = true
    rw [decide_eq_false (by omega)]
    rfl
  · have hnone := verifyLoop_of_empty (followers_eq_empty hcrc hsn hmem) (answered_of_blockBits h)
      (n := 63) (by decide) 0 (by decide)
    rw [hnone, decide_eq_false hmem]

end

/-- **`BUS_verify` finds exactly the slaves that are there.** -/
theorem busVerify_eq (answering : Byte → Finset SerialNumber) (native : Bool) (search : Byte)
    (sn : SerialNumber) (hcard : (answering search).card < 57)
    (hcrc : ∀ s ∈ answering search, s.CrcValid ∧ s.family ≠ 0) (hsn : sn.CrcValid) :
    busVerify (idealMaster answering native) search sn (.command []) =
      some (decide (sn ∈ answering search)) := by
  have hlen : (verifyBuffer search sn).length = 25 := length_verifyBuffer search sn 64
  have hread : (Mem.write (fun _ => 0) 0 (verifyBuffer search sn)).read 0 25 =
      verifyBuffer search sn := by
    rw [← hlen]
    exact Mem.read_write_self ..
  have hexchange := exchange_verifyBuffer answering search sn
  rw [← hread] at hexchange
  obtain ⟨st, hrun, hbits⟩ := busSendbackData_ideal native (congrArg Prod.snd hexchange)
  rw [hexchange] at hbits
  rw [busVerify, hrun, Option.map_some]
  show some (true && verifyReply search sn (st.mem.read 0 25)) = _
  rw [Bool.true_and, verifyReply_eq hcard (fun s hs => (hcrc s hs).1) hsn hbits]

/-- Two slaves, one of which is on the bus. -/
def presentSn : SerialNumber := ⟨[0x29, 0x01, 0x02, 0x03, 0x04, 0x05, 0x06, 0xA3], rfl⟩

def absentSn : SerialNumber := ⟨[0x22, 0x11, 0x00, 0x00, 0x00, 0x00, 0x00, 0xF9], rfl⟩

theorem busVerify_presentSn :
    busVerify (idealMaster (fun _ => {presentSn}) false) 0xF0 presentSn (.command []) = some true ∧
      busVerify (idealMaster (fun _ => {presentSn}) false) 0xF0 absentSn (.command []) =
      some false := by
  have hcard : ({presentSn} : Finset SerialNumber).card < 57 := by decide
  have hcrc : ∀ s ∈ ({presentSn} : Finset SerialNumber), s.CrcValid ∧ s.family ≠ 0 := by
    intro s hs
    rw [Finset.mem_singleton.mp hs]
    decide
  refine ⟨(busVerify_eq (fun _ => {presentSn}) false 0xF0 presentSn hcard hcrc (by decide)).trans
    ?_, (busVerify_eq (fun _ => {presentSn}) false 0xF0 absentSn hcard hcrc (by decide)).trans ?_⟩
  · rw [decide_eq_true (Finset.mem_singleton_self _)]
  · rw [decide_eq_false (by decide)]

end Owfs.Search
