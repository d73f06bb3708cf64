import Owfs.Transaction.Equivalence

/-!
# Requests of several pages

A device is read and written page by page. `COMMON_readwrite_paged` and
`COMMON_OWQ_readwrite_paged` (`ow_iterate.c`) cut a request into chunks that each lie in one page,
and call a routine for each of them until one fails.

Sums that are too large for an `off_t` are left out, and so is `OWQ_length`.
-/

namespace Owfs.Transaction

open Infra

/-- The part of `struct one_wire_query` that says what is read or written, and where it is kept. -/
structure OneWireQuery where
  buffer : Nat
  size : Nat
  offset : Nat
deriving DecidableEq

section

variable {σ : Type}

/-- How much of a request lies in the page of its offset. -/
def thisPage (pagelen size offset : Nat) : Nat :=
  if size < pagelen - offset % pagelen then size else pagelen - offset % pagelen

/-- The loop of both functions. It faults for pages without length. -/
def pagedLoop (pagelen : Nat) (call : Nat → Nat → Nat → σ → Option (Int × σ))
    (bufferPosition size offset : Nat) (s : σ) :
    Option (Int × σ) :=
  if size = 0 then some (gbGood, s)
  else if pagelen = 0 then none
  else
    (call bufferPosition (thisPage pagelen size offset) offset s).bind fun r =>
      if r.1 = gbGood then
        pagedLoop pagelen call (bufferPosition + thisPage pagelen size offset)
          (size - thisPage pagelen size offset)
          (offset + thisPage pagelen size offset) r.2
      else some (gbBad, r.2)
termination_by size
decreasing_by
  have hmod := Nat.mod_lt offset (Nat.pos_of_ne_zero ‹¬pagelen = 0›)
  unfold thisPage
  split <;> omega

/-- `COMMON_readwrite_paged` -/
def commonReadwritePaged (readwritefunc : Nat → Nat → Nat → σ → Option (Int × σ))
    (owq : OneWireQuery) (page pagelen : Nat) (s : σ) : Option (Int × σ) :=
  pagedLoop pagelen readwritefunc owq.buffer owq.size (owq.offset + pagelen * page) s

/-- `COMMON_OWQ_readwrite_paged`: the chunk is handed on in a query of its own. -/
def commonOwqReadwritePaged (readwritefunc : OneWireQuery → Nat → Nat → σ → Option (Int × σ))
    (owq : OneWireQuery) (page pagelen : Nat) (s : σ) : Option (Int × σ) :=
  pagedLoop pagelen (fun buffer size offset => readwritefunc ⟨buffer, size, offset⟩ 0 pagelen)
    owq.buffer owq.size
    (owq.offset + pagelen * page) s

/-! ## Chunks -/

/-- The chunks of a request, in order. -/
def chunks (pagelen : Nat) (bufferPosition size offset : Nat) : List OneWireQuery :=
  if size = 0 ∨ pagelen = 0 then []
  else
    ⟨bufferPosition, thisPage pagelen size offset, offset⟩ ::
      chunks pagelen (bufferPosition + thisPage pagelen size offset)
        (size - thisPage pagelen size offset)
        (offset + thisPage pagelen size offset)
termination_by size
decreasing_by
  have hmod := Nat.mod_lt offset (Nat.pos_of_ne_zero (not_or.mp ‹¬(size = 0 ∨ pagelen = 0)›).2)
  unfold thisPage
  split <;> omega

/-- One chunk after another, until one fails. -/
def runChunks (call : OneWireQuery → σ → Option (Int × σ)) :
    List OneWireQuery → σ → Option (Int × σ)
  | [], s => some (gbGood, s)
  | c :: cs, s => (call c s).bind fun r => if r.1 = gbGood then runChunks call cs r.2
      else some (gbBad, r.2)

/-- What the chunks of a request should be. -/
structure Covers (pagelen : Nat) (owq : OneWireQuery) (cs : List OneWireQuery) : Prop where
  /-- No chunk is empty. -/
  size_pos : ∀ c ∈ cs, 0 < c.size
  /-- Each lies in one page. -/
  in_page : ∀ c ∈ cs, c.offset % pagelen + c.size ≤ pagelen
  /-- Each has its own place in the buffer. -/
  buffer_eq : ∀ c ∈ cs, c.buffer + owq.offset = owq.buffer + c.offset
  /-- Together they are the request, without a gap and without an overlap. -/
  cover : cs.flatMap (fun c => List.range' c.offset c.size) = List.range' owq.offset owq.size

theorem thisPage_spec {pagelen size : Nat} (hp : pagelen ≠ 0) (hsize : size ≠ 0) (offset : Nat) :
    0 < thisPage pagelen size offset ∧ thisPage pagelen size offset ≤ size ∧
      offset % pagelen + thisPage pagelen size offset ≤ pagelen := by
  have hmod := Nat.mod_lt offset (Nat.pos_of_ne_zero hp)
  unfold thisPage
  split <;> omega

/-- The loop calls its routine for the chunks. -/
theorem pagedLoop_eq {pagelen : Nat} (hp : pagelen ≠ 0)
    (call : Nat → Nat → Nat → σ → Option (Int × σ)) (bufferPosition size offset : Nat) (s : σ) :
    pagedLoop pagelen call bufferPosition size offset s =
      runChunks (fun c => call c.buffer c.size c.offset) (chunks pagelen bufferPosition size offset)
        s := by
  induction size using Nat.strong_induction_on generalizing bufferPosition offset s with
  | _ size ih =>
    rw [pagedLoop, chunks]
    by_cases hsize : size = 0
    · rw [if_pos hsize, if_pos (.inl hsize), runChunks]
    · obtain ⟨hpos, hle, -⟩ := thisPage_spec hp hsize offset
      rw [if_neg hsize, if_neg hp, if_neg (not_or.mpr ⟨hsize, hp⟩), runChunks]
      congr 1
      funext r
      rw [ih _ (by omega)]

theorem covers_chunks {pagelen : Nat} (hp : pagelen ≠ 0) (owq : OneWireQuery) :
    Covers pagelen owq (chunks pagelen owq.buffer owq.size owq.offset) := by
  obtain ⟨bufferPosition, size, offset⟩ := owq
  induction size using Nat.strong_induction_on generalizing bufferPosition offset with
  | _ size ih =>
    rw [chunks]
    by_cases hsize : size = 0
    · rw [if_pos (.inl hsize), hsize]
      exact ⟨nofun, nofun, nofun, rfl⟩
    · obtain ⟨hpos, hle, hpage⟩ := thisPage_spec hp hsize offset
      rw [if_neg (not_or.mpr ⟨hsize, hp⟩)]
      have hrest :=
        ih (size - thisPage pagelen size offset) (by omega)
          (bufferPosition + thisPage pagelen size offset)
        (offset + thisPage pagelen size offset)
      refine ⟨?_, ?_, ?_, ?_⟩
      · exact List.forall_mem_cons.mpr ⟨hpos, hrest.size_pos⟩
      · exact List.forall_mem_cons.mpr ⟨hpage, hrest.in_page⟩
      · refine List.forall_mem_cons.mpr ⟨rfl, fun c hc => ?_⟩
        have hbuffer := hrest.buffer_eq c hc
        dsimp only at hbuffer ⊢
        omega
      · rw [List.flatMap_cons, hrest.cover]
        exact (List.range'_append_1).trans (by rw [Nat.add_sub_cancel' hle])

end

end Owfs.Transaction
