import Owfs.Server.Response
import Owfs.Client.Received
import Owfs.Alias.Table

/-!
# The two ways to list a directory

`DirHandler` sends one message for each element of a directory, `DirallHandler` sends all of them
in one text with commas between them, which the client cuts at the commas again. This module says
for which listings the client gets the same elements.

The text is collected in a `charblob` and then duplicated as a C string. A block that is filled to
its last byte is no string: `strdup` then goes on with what stands behind it in memory. The client
reads the reply with `From_ServerAlloc`, which refuses a payload that is too large.
-/

namespace Owfs.Server

open Infra Owfs.Protocol Owfs.Client Owfs.Directory Owfs.Alias

/-! ## What a client gets -/

/-- The element in the payload of one message: `ServerDIR` makes sure of the NUL at its end. -/
def elementOf (payload : Bytes) : Bytes := (payload.dropLast ++ [0]).takeWhile (· ≠ 0)

/-- The payloads that `DirHandlerCallback` sends. -/
def dirPayloads (lib : Library) (hd : HandlerData) (beyond : Nat → Byte) : List Bytes :=
  if pathFits hd then
    lib.fsDirRemote.entries.map fun e =>
      memory beyond (e.path ++ [0]) (dirElement e.path (startCm hd)).payload.toInt.toNat
  else []

/-- The elements of a DIR. -/
def dirElements (lib : Library) (hd : HandlerData) (beyond : Nat → Byte) : List Bytes :=
  (dirPayloads lib hd beyond).map elementOf

/-- The elements that `ServerDIRALL` finds in a reply. -/
def dirallElements (beyond : Nat → Byte) (reply : Reply) : List Bytes :=
  match fromServerAlloc (.fresh (bytesOf (toClient beyond reply.1 reply.2))) with
  | (list, cm, _) => if cm.ret = 0 then listElements list else []

/-- The payload does not exceed the buffer that it is sent from. -/
def PayloadInside (reply : Reply) : Prop :=
  ∀ block, reply.2 = some block → reply.1.payload.toInt.toNat ≤ block.length

/-- `strdup` copies up to the first NUL, in the block or in what stands behind it. -/
def strdup (more block : Bytes) : Bytes := (block ++ more).takeWhile (· ≠ 0) ++ [0]

/-- Memory is granted. -/
structure Library.Obliging (lib : Library) : Prop where
  granted : ∀ n, lib.owrealloc n = true
  strdup : ∀ block, ∃ more, lib.owstrdup block = some (strdup more block)

/-- The reply to DIRALL lists what DIR lists. -/
structure SameListing (lib : Library) (hd : HandlerData) (beyond : Nat → Byte) : Prop where
  inside : PayloadInside (dirallHandler lib hd (startCm hd))
  elements : dirallElements beyond (dirallHandler lib hd (startCm hd)) = dirElements lib hd beyond

/-! ## What `From_ServerAlloc` makes of a reply -/

theorem ntoh_hton (cm : ClientMsg) : ClientMsg.ntoh cm.hton = cm := by
  have h := cm.ntoh_hton []
  rwa [List.append_nil] at h

/-- A header that announces less than nothing is taken for a delay, and nothing follows. -/
theorem fromServerAlloc_of_negative {cm : ClientMsg} {conn : Conn} (hneg : cm.payload.toInt < 0)
    (hconn : conn.coming = bytesOf cm.hton) :
    ∃ conn', fromServerAlloc conn = (none, .failed, conn') := by
  have hread : conn.tcpRead headerSize =
      (cm.hton, { conn with taken := conn.taken ++ cm.hton, coming := [] }) := by
    have hbytes := takeBytes_bytesOf cm.hton []
    rw [List.append_nil] at hbytes
    rw [Conn.tcpRead, hconn, ← cm.length_hton, hbytes]
  have hfuel : conn.coming.length = headerSize := by
    rw [hconn, bytesOf, List.length_map, cm.length_hton]
  have hnext : ∃ conn', nextHeader (conn.coming.length + 1) conn = (none, conn') := by
    rw [hfuel, nextHeader, hread]
    dsimp only
    rw [if_neg (by rw [cm.length_hton]; exact fun h => h rfl), ntoh_hton, if_pos hneg]
    exact ⟨_, rfl⟩
  obtain ⟨conn', hnext⟩ := hnext
  exact ⟨conn', by rw [fromServerAlloc, hnext]⟩

/-- The header of a reply is found, with the payload behind it. -/
theorem nextHeader_of_reply {cm : ClientMsg} {body : Bytes} {conn : Conn}
    (hpos : 0 ≤ cm.payload.toInt) (hconn : conn.coming = bytesOf (cm.hton ++ body)) :
    ∃ conn', nextHeader (conn.coming.length + 1) conn = (some cm, conn') ∧
      conn'.coming = bytesOf body :=
  nextHeader_of_heading ⟨[], cm.hton, .nil, rfl, ntoh_hton cm, hpos, rfl⟩
    (by rw [hconn, bytesOf_append, List.nil_append])

/-- What `From_ServerAlloc` hands out of a reply that announces a payload. -/
theorem fromServerAlloc_of_positive {cm : ClientMsg} {body : Bytes} {conn : Conn}
    (hpos : 0 < cm.payload.toInt) (hconn : conn.coming = bytesOf (cm.hton ++ body))
    (hbody : body = [] ∨ body.length = cm.payload.toInt.toNat) :
    ∃ conn', fromServerAlloc conn =
      if cm.ret.toInt < 0 ∨ maxPayloadSize < cm.payload.toInt.toNat then (none, cm, conn')
      else if body = [] then
        (none, { cm with payload := 0, offset := 0, ret := BitVec.ofInt 32 (-eio) }, conn')
      else (some body, cm, conn') := by
  obtain ⟨conn₁, hnext, hcoming⟩ := nextHeader_of_reply (Int.le_of_lt hpos) hconn
  have hzero : cm.payload ≠ 0 := by
    intro hzero
    rw [hzero] at hpos
    exact absurd hpos (by decide)
  unfold fromServerAlloc
  rw [hnext]
  dsimp only
  rw [if_neg hzero]
  by_cases hret : cm.ret.toInt < 0
  · rw [if_pos hret]
    exact ⟨_, (if_pos (Or.inl hret)).symm⟩
  by_cases hmax : maxPayloadSize < cm.payload.toInt.toNat
  · rw [if_neg hret, if_pos hmax]
    exact ⟨_, (if_pos (Or.inr hmax)).symm⟩
  have hgood := not_or.mpr ⟨hret, hmax⟩
  rw [if_neg hret, if_neg hmax]
  by_cases hnil : body = []
  · have hread : (conn₁.tcpRead cm.payload.toInt.toNat).1 = [] := by
      rw [Conn.tcpRead, hcoming, hnil, bytesOf, List.map_nil]
      cases cm.payload.toInt.toNat <;> rfl
    rw [if_pos (by rw [hread, List.length_nil]; omega)]
    exact ⟨_, ((if_neg hgood).trans (if_pos hnil)).symm⟩
  · have hlen := hbody.resolve_left hnil
    have hread : (conn₁.tcpRead cm.payload.toInt.toNat).1 = body := by
      have hbytes := takeBytes_bytesOf body []
      rw [List.append_nil] at hbytes
      rw [Conn.tcpRead, hcoming, ← hlen, hbytes]
    rw [if_neg (by rw [hread]; exact not_not.mpr hlen), hread]
    exact ⟨_, ((if_neg hgood).trans (if_neg hnil)).symm⟩

/-- The elements of a reply: there are none unless the result is 0 and the payload is not too
large. -/
theorem dirallElements_eq (beyond : Nat → Byte) (reply : Reply) :
    dirallElements beyond reply =
      if reply.1.payload.toInt ≤ 0 ∨ reply.1.ret ≠ 0 ∨
          maxPayloadSize < reply.1.payload.toInt.toNat then []
      else
        match reply.2 with
        | none => []
        | some block =>
          commaSeparated ((memory beyond block reply.1.payload.toInt.toNat).takeWhile (· ≠ 0)) := by
  obtain ⟨cm, data⟩ := reply
  have hnone : ∀ cm' : ClientMsg, (if cm'.ret = 0 then listElements none else []) = [] :=
    fun cm' => ite_self _
  have hconn : (Conn.fresh (bytesOf (toClient beyond cm data))).coming =
    bytesOf (toClient beyond cm data) := rfl
  unfold dirallElements
  generalize Conn.fresh (bytesOf (toClient beyond cm data)) = conn at hconn ⊢
  dsimp only at hconn ⊢
  unfold toClient at hconn
  rcases Int.lt_trichotomy cm.payload.toInt 0 with hneg | hzero | hpos
  · rw [if_pos hneg, List.append_nil] at hconn
    obtain ⟨conn', halloc⟩ := fromServerAlloc_of_negative hneg hconn
    rw [halloc]
    exact (hnone _).trans (if_pos (Or.inl (Int.le_of_lt hneg))).symm
  · have hp : cm.payload = 0 := BitVec.eq_of_toInt_eq hzero
    obtain ⟨conn', hnext, -⟩ := nextHeader_of_reply (Int.le_of_eq hzero.symm) hconn
    rw [fromServerAlloc, hnext]
    dsimp only
    simp only [if_pos hp]
    exact (hnone _).trans (if_pos (Or.inl (Int.le_of_eq hzero))).symm
  · have hne : cm.payload ≠ 0 := fun h => by rw [h] at hpos; exact absurd hpos (by decide)
    rw [if_neg (Int.not_lt.mpr (Int.le_of_lt hpos)), if_neg hne] at hconn
    obtain ⟨conn', halloc⟩ := fromServerAlloc_of_positive hpos hconn (by
      cases data with
      | none => exact .inl rfl
      | some block => exact .inr (length_memory ..))
    rw [halloc]
    by_cases hbad : cm.ret.toInt < 0 ∨ maxPayloadSize < cm.payload.toInt.toNat
    · have hbad' : cm.ret ≠ 0 ∨ maxPayloadSize < cm.payload.toInt.toNat :=
        hbad.imp_left fun hneg hret => by rw [hret] at hneg; exact absurd hneg (by decide)
      rw [if_pos hbad]
      exact (hnone _).trans (if_pos (Or.inr hbad')).symm
    · rw [if_neg hbad]
      cases data with
      | none =>
        rw [if_pos rfl, hnone]
        split <;> rfl
      | some block =>
        have hfull : memory beyond block cm.payload.toInt.toNat ≠ [] := by
          intro hnil
          have hlen := length_memory beyond block cm.payload.toInt.toNat
          rw [hnil, List.length_nil] at hlen
          omega
        dsimp only
        rw [if_neg hfull]
        dsimp only
        by_cases hret : cm.ret = 0
        · rw [if_pos hret, if_neg (by
            rintro (h | h | h)
            · omega
            · exact h hret
            · exact hbad (.inr h))]
          rfl
        · rw [if_neg hret, if_pos (.inr (.inl hret))]

/-! ## DIR -/

theorem elementOf_path {path : Bytes} (h : 0 ∉ path) : elementOf (path ++ [0]) = path := by
  have hcstring := cstring_append h []
  rw [cstring, if_pos (by simp)] at hcstring
  rw [elementOf, List.dropLast_concat]
  exact Option.some.inj hcstring

/-- A DIR gives the paths of the entries. -/
theorem dirElements_eq (lib : Library) (hd : HandlerData) (beyond : Nat → Byte) :
    dirElements lib hd beyond = if pathFits hd then lib.fsDirRemote.entries.map Entry.path
      else [] := by
  unfold dirElements dirPayloads
  split
  · rw [List.map_map]
    refine List.map_congr_left fun e _ => ?_
    have hlen := e.inBuffer
    have hpayload : (dirElement e.path (startCm hd)).payload.toInt.toNat = e.path.length + 1 := by
      have hadd : BitVec.ofNat 32 e.path.length + 1 = BitVec.ofNat 32 (e.path.length + 1) := by
        rw [BitVec.ofNat_add]
        rfl
      rw [dirElement]
      dsimp only
      rw [hadd, toInt_ofNat32 (by omega)]
      rfl
    show elementOf (memory beyond (e.path ++ [0]) _) = e.path
    rw [hpayload, memory_of_le beyond (by simp), List.take_of_length_le (by simp),
      elementOf_path e.noNul]
  · rfl

/-! ## The text -/

/-- The text of a listing. -/
def listingText (paths : List Bytes) : Bytes := paths.foldl addText []

/-- The lengths of the text and of the block. -/
def listingSize (paths : List Bytes) : Nat × Nat := (paths.map List.length).foldl addSize (0, 0)

/-- The block that the text is collected in. -/
def listingBlock (paths : List Bytes) : Bytes :=
  listingText paths ++ List.replicate ((listingSize paths).2 - (listingSize paths).1) 0

theorem holds_foldl {lib : Library} (hall : ∀ n, lib.owrealloc n = true) (entries : List Entry)
    (cb : Charblob) {text : Bytes} {size : Nat × Nat} (h : cb.Holds text size) :
    (entries.foldl (dirallCallback lib) cb).Holds ((entries.map Entry.path).foldl addText text)
      (((entries.map Entry.path).map List.length).foldl addSize size) := by
  induction entries generalizing cb text size with
  | nil => exact h
  | cons e entries ih => exact ih (dirallCallback lib cb e) (h.add hall)

/-- What `DirallHandler` has collected. -/
theorem collected_holds {lib : Library} {hd : HandlerData} (hall : ∀ n, lib.owrealloc n = true)
    (hfits : pathFits hd = true) :
    (collected lib hd (dirallCallback lib)).Holds
    (listingText (lib.fsDirRemote.entries.map Entry.path))
      (listingSize (lib.fsDirRemote.entries.map Entry.path)) := by
  rw [collected, if_pos hfits]
  exact holds_foldl hall _ _ charblobInit_holds

theorem foldl_addText {text : Bytes} (htext : text ≠ []) (paths : List Bytes) :
    paths.foldl addText text = [comma].intercalate (text :: paths) := by
  induction paths generalizing text with
  | nil => exact List.intercalate_singleton.symm
  | cons a paths ih =>
    have hadd : addText text a = text ++ comma :: a := if_neg htext
    rw [List.foldl_cons, hadd, ih (by simp)]
    cases paths with
    | nil => simp [List.intercalate_cons_cons]
    | cons b paths => simp [List.intercalate_cons_cons]

theorem foldl_addText_length_le (paths : List Bytes) :
    (listingText paths).length ≤ ([comma].intercalate paths).length := by
  induction paths with
  | nil => exact Nat.le_refl 0
  | cons a paths ih =>
    by_cases ha : a = []
    · subst ha
      refine Nat.le_trans ih ?_
      cases paths with
      | nil => exact Nat.zero_le _
      | cons b paths =>
        rw [List.intercalate_cons_cons]
        simp
    · have htext : listingText (a :: paths) = [comma].intercalate (a :: paths) := by
        rw [listingText, List.foldl_cons, show addText [] a = a from rfl, foldl_addText ha]
      rw [htext]

/-- The text is what DIR would send, joined with commas, unless the first path is empty. -/
theorem listingText_eq_iff {paths : List Bytes} (hne : paths ≠ []) :
    listingText paths = [comma].intercalate paths ↔ paths.head? ≠ some [] ∨ paths = [[]] := by
  cases paths with
  | nil => exact absurd rfl hne
  | cons a paths =>
    by_cases ha : a = []
    · subst ha
      cases paths with
      | nil => exact iff_of_true rfl (.inr rfl)
      | cons b paths =>
        refine iff_of_false (fun heq => ?_) (by simp)
        have hle := foldl_addText_length_le (b :: paths)
        have hlen := congrArg List.length heq
        rw [List.intercalate_cons_cons] at hlen
        simp only [List.nil_append, List.singleton_append, List.length_cons] at hlen
        have hsame : listingText ([] :: b :: paths) = listingText (b :: paths) := rfl
        rw [hsame] at hlen
        omega
    · refine iff_of_true ?_ (.inl (by simpa using ha))
      rw [listingText, List.foldl_cons, show addText [] a = a from rfl, foldl_addText ha]

/-- Pieces between commas have none. -/
theorem not_mem_of_mem_commaSeparated {text piece : Bytes} (h : piece ∈ commaSeparated text) :
    comma ∉ piece := by
  induction text generalizing piece with
  | nil =>
    rw [commaSeparated, List.splitOn_nil, List.mem_singleton] at h
    rw [h]
    exact List.not_mem_nil
  | cons c text ih =>
    rw [commaSeparated, List.splitOn_cons_eq_if_modifyHead] at h
    split at h
    · rcases List.mem_cons.mp h with rfl | hrest
      · exact List.not_mem_nil
      · exact ih hrest
    · rename_i hc
      obtain ⟨first, rest, hsplit⟩ := List.exists_cons_of_ne_nil (List.splitOn_ne_nil 0x2C text)
      rw [hsplit, List.modifyHead_cons] at h
      have hold : ∀ piece ∈ first :: rest, comma ∉ piece :=
        fun piece hp => ih (by rw [commaSeparated, hsplit]; exact hp)
      rcases List.mem_cons.mp h with rfl | hrest
      · intro hmem
        rcases List.mem_cons.mp hmem with heq | hin
        · exact hc (by rw [← heq]; rfl)
        · exact hold first List.mem_cons_self hin
      · exact hold piece (List.mem_cons_of_mem _ hrest)

theorem not_mem_listingText {paths : List Bytes} (h : ∀ p ∈ paths, (0 : Byte) ∉ p) :
    0 ∉ listingText paths := by
  have hfold : ∀ (paths : List Bytes) (text : Bytes), 0 ∉ text → (∀ p ∈ paths, (0 : Byte) ∉ p) →
      0 ∉ paths.foldl addText text := by
    intro paths
    induction paths with
    | nil => exact fun text htext _ => htext
    | cons a paths ih =>
      intro text htext hall
      refine ih (addText text a) ?_ fun p hp => hall p (List.mem_cons_of_mem _ hp)
      have ha := hall a List.mem_cons_self
      unfold addText
      split
      · exact ha
      · rw [List.mem_append, List.mem_cons]
        rintro (hin | heq | hin)
        · exact htext hin
        · exact absurd heq (by decide)
        · exact ha hin
  exact hfold paths [] List.not_mem_nil h

/-! ## The reply -/

section

variable {lib : Library} {hd : HandlerData} {beyond : Nat → Byte}

/-- Without a text nothing is sent. -/
theorem dirallReply_none {cb : Charblob} {cm : ClientMsg} (hblob : cb.blob = none) :
    (dirallReply lib hd cb cm).1.payload = 0 ∧ (dirallReply lib hd cb cm).2 = none := by
  unfold dirallReply
  generalize (if pathFits hd then ret32 lib.fsDirRemote.ret else ret32 (-emsgsize)) = ret
  dsimp only
  split
  · exact ⟨rfl, rfl⟩
  · rw [charblobData, hblob]
    exact ⟨rfl, rfl⟩

/-- After an error nothing is sent either. -/
theorem dirallReply_error {cb : Charblob} {cm : ClientMsg} (hfits : pathFits hd = true)
    (hbad : (ret32 lib.fsDirRemote.ret).toInt < 0) :
    (dirallReply lib hd cb cm).1.payload = 0 ∧ (dirallReply lib hd cb cm).2 = none := by
  unfold dirallReply
  dsimp only
  rw [if_pos hfits, if_pos hbad]
  exact ⟨rfl, rfl⟩

theorem sameListing_of_nothing (h : (dirallHandler lib hd (startCm hd)).1.payload = 0 ∧
      (dirallHandler lib hd (startCm hd)).2 = none) :
    SameListing lib hd beyond ↔ dirElements lib hd beyond = [] := by
  have hpay : (dirallHandler lib hd (startCm hd)).1.payload.toInt = 0 := by rw [h.1]; rfl
  have hnone : dirallElements beyond (dirallHandler lib hd (startCm hd)) = [] := by
    rw [dirallElements_eq, if_pos (.inl (Int.le_of_eq hpay))]
  constructor
  · rintro ⟨-, helements⟩
    rw [← helements, hnone]
  · intro hnil
    refine ⟨fun block hblock => ?_, hnone.trans hnil.symm⟩
    rw [h.2] at hblock
    cases hblock

end

/-- A library that lists `listing`; `more` stands behind the block in memory. -/
def listingLibrary (listing : Listing) (more : Bytes) : Library where
  owqCreate := true
  sn := .zero
  isDir := true
  owmalloc := fun _ => true
  owrealloc := fun _ => true
  owstrdup := fun block => some (strdup more block)
  readBuffer := none
  fsReadPostparse := fun _ _ => (0, [])
  fsWritePostparse := 0
  fsDirRemote := listing

theorem obliging_listingLibrary (listing : Listing) (more : Bytes) :
    (listingLibrary listing more).Obliging :=
  ⟨fun _ => rfl, fun _ => ⟨more, rfl⟩⟩

/-- The paths of a listing. -/
def Listing.paths (listing : Listing) : List Bytes := listing.entries.map Entry.path

/-- The listings that come through in one message: a result of 0, no commas in the names, a first
name that is not empty, room for a NUL behind the text, and a length that `From_ServerAlloc`
accepts. -/
structure Listing.Plain (listing : Listing) : Prop where
  good : ret32 listing.ret = 0
  noComma : ∀ p ∈ listing.paths, comma ∉ p
  first : listing.paths.head? ≠ some []
  room : (listingSize listing.paths).1 < (listingSize listing.paths).2
  small : (listingSize listing.paths).1 + 1 ≤ maxPayloadSize

section

variable {lib : Library} {hd : HandlerData} {beyond : Nat → Byte} {listing : Listing}

/-- The reply, when there is a text to send. -/
theorem dirallHandler_eq (hlib : lib.fsDirRemote = listing)
    (hgranted : ∀ n, lib.owrealloc n = true) (hfits : pathFits hd = true)
    (hgood : 0 ≤ (ret32 listing.ret).toInt) (htext : listingText listing.paths ≠ []) {more : Bytes}
    (hdup : lib.owstrdup (listingBlock listing.paths) =
      some (strdup more (listingBlock listing.paths))) :
    (dirallHandler lib hd (startCm hd)).1.ret = ret32 listing.ret ∧
      (dirallHandler lib hd (startCm hd)).1.payload =
        BitVec.ofNat 32 ((listingText listing.paths).length + 1) ∧
      (dirallHandler lib hd (startCm hd)).2 = some (strdup more (listingBlock listing.paths)) := by
  subst hlib
  have hcb := collected_holds hgranted hfits
  have hlen := hcb.length_text
  have hused : (collected lib hd (dirallCallback lib)).used =
      (listingText lib.fsDirRemote.paths).length :=
    (congrArg Prod.fst hcb.size_eq).trans hlen.symm
  have hblob : (collected lib hd (dirallCallback lib)).blob =
      some (listingBlock lib.fsDirRemote.paths) := by
    have hblock := hcb.wellFormed.block_eq
    cases hb : (collected lib hd (dirallCallback lib)).blob with
    | none =>
      have hnil := hcb.text_eq
      rw [Charblob.text, hb] at hnil
      exact absurd (hnil.symm.trans List.take_nil) htext
    | some b =>
      have hu : (collected lib hd (dirallCallback lib)).used =
          (listingSize lib.fsDirRemote.paths).1 :=
        congrArg Prod.fst hcb.size_eq
      have ha : (collected lib hd (dirallCallback lib)).allocated =
          (listingSize lib.fsDirRemote.paths).2 :=
        congrArg Prod.snd hcb.size_eq
      rw [hb, hcb.text_eq, hu, ha] at hblock
      exact congrArg some hblock
  unfold dirallHandler dirallReply
  dsimp only
  rw [if_pos hfits, if_neg (Int.not_lt.mpr hgood), charblobData, hblob]
  dsimp only
  rw [hdup, charblobLength, hused]
  exact ⟨rfl, rfl, rfl⟩

/-- A text with a NUL behind it is duplicated as it is. -/
theorem strdup_text {text : Bytes} (hnul : 0 ∉ text) (n : Nat) (more : Bytes) :
    strdup more (text ++ List.replicate (n + 1) 0) = text ++ [0] := by
  have hcstring := cstring_append hnul (List.replicate n 0 ++ more)
  rw [cstring, if_pos (by simp)] at hcstring
  rw [strdup, List.replicate_succ, List.append_assoc, List.cons_append, Option.some.inj hcstring]

theorem takeWhile_of_not_mem {text : Bytes} (hnul : 0 ∉ text) (rest : Bytes) :
    (text ++ rest).takeWhile (· ≠ 0) = text ++ rest.takeWhile (· ≠ 0) := by
  refine List.takeWhile_append_of_pos fun x hx => ?_
  rw [decide_eq_true_eq]
  exact fun he => hnul (he ▸ hx)

/-- Without garbage the copy is the text, whether the block is full or not. -/
theorem strdup_nil {text : Bytes} (hnul : 0 ∉ text) (n : Nat) :
    strdup [] (text ++ List.replicate n 0) = text ++ [0] := by
  cases n with
  | zero =>
    rw [strdup, List.replicate_zero, List.append_nil, takeWhile_of_not_mem hnul]
    simp
  | succ n => exact strdup_text hnul n []

/-- What the header says of a payload, and what fits it. -/
theorem payload_length {n : Nat} (h : n + 1 < 2 ^ 31) :
    (BitVec.ofNat 32 (n + 1)).toInt = n + 1 := by
  rw [toInt_ofNat32 h]
  rfl

/-- A payload of the length of the text or more fits the header. -/
theorem small_of_payload {n : Nat} (h : n ≤ (BitVec.ofNat 32 (n + 1)).toInt.toNat) :
    n + 1 < 2 ^ 31 := by
  by_contra hbig
  rw [BitVec.toInt_ofNat'] at h
  have hlt : (((n + 1 : Nat) : Int).bmod (2 ^ 32)).toNat < 2 ^ 31 := by
    have := Int.bmod_lt (x := ((n + 1 : Nat) : Int)) (m := 2 ^ 32) (by decide)
    omega
  have heq : n + 1 = 2 ^ 31 := by omega
  rw [heq] at h
  have hzero : (((2 ^ 31 : Nat) : Int).bmod (2 ^ 32)).toNat = 0 := by decide
  omega

/-- A plain listing comes through. -/
theorem Listing.Plain.sameListing (h : listing.Plain) (hne : listing.entries ≠ [])
    (hlib : lib.fsDirRemote = listing) (hall : lib.Obliging) (hfits : pathFits hd = true) :
    SameListing lib hd beyond := by
  have hpaths : listing.paths ≠ [] := fun he => hne (List.map_eq_nil_iff.mp he)
  have hjoin : listingText listing.paths = [comma].intercalate listing.paths :=
    (listingText_eq_iff hpaths).mpr (.inl h.first)
  have hnul : 0 ∉ listingText listing.paths := by
    refine not_mem_listingText fun p hp => ?_
    obtain ⟨e, -, rfl⟩ := List.mem_map.mp hp
    exact e.noNul
  have hsize : (listingText listing.paths).length = (listingSize listing.paths).1 := by
    have hcb := collected_holds hall.granted hfits
    rw [hlib] at hcb
    exact hcb.length_text
  have htext : listingText listing.paths ≠ [] := by
    intro hnil
    cases hp : listing.paths with
    | nil => exact hpaths hp
    | cons a rest =>
      have ha : a ≠ [] := by
        rintro rfl
        exact h.first (by rw [hp]; rfl)
      rw [hjoin, hp] at hnil
      cases rest with
      | nil => exact ha (by rwa [List.intercalate_singleton] at hnil)
      | cons b rest => rw [List.intercalate_cons_cons] at hnil; simp [ha] at hnil
  obtain ⟨more, hdup⟩ := hall.strdup (listingBlock listing.paths)
  have hzero : 0 ≤ (ret32 listing.ret).toInt := by rw [h.good]; decide
  obtain ⟨hret, hpayload, hcopy⟩ := dirallHandler_eq hlib hall.granted hfits hzero htext hdup
  have hroom := h.room
  have hsmall := h.small
  obtain ⟨k, hk⟩ : ∃ k, (listingSize listing.paths).2 - (listingSize listing.paths).1 = k + 1 :=
    ⟨(listingSize listing.paths).2 - (listingSize listing.paths).1 - 1, by omega⟩
  rw [listingBlock, hk, strdup_text hnul] at hcopy
  have hint : (dirallHandler lib hd (startCm hd)).1.payload.toInt
      = (listingText listing.paths).length + 1 := by
    rw [hpayload, payload_length (by rw [hsize]; unfold maxPayloadSize at hsmall; omega)]
  have hcut : ((listingText listing.paths ++ [0]).takeWhile (· ≠ 0)) =
      listingText listing.paths := by
    rw [takeWhile_of_not_mem hnul]
    simp
  constructor
  · intro block hblock
    rw [hcopy] at hblock
    rw [hint, ← Option.some.inj hblock, List.length_append, List.length_singleton]
    omega
  · have haccepted : ¬ ((dirallHandler lib hd (startCm hd)).1.payload.toInt ≤ 0 ∨
        (dirallHandler lib hd (startCm hd)).1.ret ≠ 0 ∨
        maxPayloadSize < (dirallHandler lib hd (startCm hd)).1.payload.toInt.toNat) := by
      rw [hint, hret, h.good]
      rintro (hnot | hnot | hnot)
      · omega
      · exact hnot rfl
      · omega
    rw [dirallElements_eq, if_neg haccepted, hcopy, dirElements_eq, if_pos hfits, hint]
    dsimp only
    rw [memory_of_le beyond (by rw [List.length_append, List.length_singleton]; omega),
      List.take_of_length_le (by rw [List.length_append, List.length_singleton]; omega), hcut,
      hjoin, commaSeparated, hlib]
    exact List.splitOn_intercalate comma h.noComma hpaths

/-- A beginning of the text that is as long as the text. -/
theorem eq_of_take_takeWhile {text joined : Bytes} {n : Nat} (hnul : 0 ∉ text)
    (hlong : text.length ≤ joined.length) (h : ((text ++ [0]).take n).takeWhile (· ≠ 0) = joined) :
    text = joined ∧ text.length ≤ n := by
  by_cases hn : n ≤ text.length
  · rw [List.take_append_of_le_length hn] at h
    have htake : joined <+: text.take n := h ▸ List.takeWhile_prefix _
    have heq := (htake.trans (List.take_prefix n text)).eq_of_length
      (Nat.le_antisymm (htake.trans (List.take_prefix n text)).length_le hlong)
    have hlen := htake.length_le
    rw [List.length_take, heq] at hlen
    exact ⟨heq.symm, by omega⟩
  · rw [List.take_of_length_le (by rw [List.length_append, List.length_singleton]; omega),
      takeWhile_of_not_mem hnul] at h
    exact ⟨by simpa using h, by omega⟩

/-- The text with a byte behind it is another text. -/
theorem take_garbage {text : Bytes} (hnul : 0 ∉ text) :
    ((strdup [0x78] text).take (text.length + 1)).takeWhile (· ≠ 0) = text ++ [0x78] := by
  have hx : List.takeWhile (· ≠ 0) [(0x78 : Byte)] = [0x78] := rfl
  rw [strdup, takeWhile_of_not_mem hnul, hx, List.take_append_of_le_length (by simp),
    List.take_of_length_le (by simp), takeWhile_of_not_mem hnul, hx]

/-- What the client cuts at the commas is what DIR would send, joined, and it was accepted. -/
theorem SameListing.joined {more : Bytes}
    (h : SameListing (listingLibrary listing more) hd beyond) (hfits : pathFits hd = true)
    (hpaths : listing.paths ≠ []) (hgood : 0 ≤ (ret32 listing.ret).toInt)
    (htext : listingText listing.paths ≠ []) :
    ret32 listing.ret = 0 ∧
    (BitVec.ofNat 32 ((listingText listing.paths).length + 1)).toInt.toNat ≤ maxPayloadSize ∧
    ((strdup more (listingBlock listing.paths)).take
        (BitVec.ofNat 32 ((listingText listing.paths).length + 1)).toInt.toNat).takeWhile (· ≠ 0)
      = [comma].intercalate listing.paths ∧ ∀ p ∈ listing.paths, comma ∉ p := by
  obtain ⟨hinside, helements⟩ := h
  have hlib : (listingLibrary listing more).fsDirRemote = listing := rfl
  have hgranted : ∀ n, (listingLibrary listing more).owrealloc n = true := fun _ => rfl
  have hdup : (listingLibrary listing more).owstrdup (listingBlock listing.paths)
      = some (strdup more (listingBlock listing.paths)) := rfl
  obtain ⟨hret, hpayload, hcopy⟩ := dirallHandler_eq hlib hgranted hfits hgood htext hdup
  have hle := hinside _ hcopy
  rw [hpayload] at hle
  rw [dirElements_eq, if_pos hfits, dirallElements_eq, hcopy, hpayload, hret] at helements
  replace helements : (if _ then _ else _) = listing.paths := helements
  split at helements
  · exact absurd helements.symm hpaths
  · next haccepted =>
    rw [not_or, not_or, not_not] at haccepted
    dsimp only at helements
    rw [memory_of_le beyond hle] at helements
    refine ⟨haccepted.2.1, Nat.not_lt.mp haccepted.2.2, ?_, ?_⟩
    · conv_rhs => rw [← helements]
      exact (List.intercalate_splitOn comma).symm
    · intro p hp
      rw [← helements] at hp
      exact not_mem_of_mem_commaSeparated hp

/-- A listing that comes through, whatever stands behind the block, is plain. -/
theorem plain_of_sameListing (hfits : pathFits hd = true) (hne : listing.entries ≠ [])
    (h : ∀ more, SameListing (listingLibrary listing more) hd beyond) : listing.Plain := by
  have hpaths : listing.paths ≠ [] := fun he => hne (List.map_eq_nil_iff.mp he)
  have hsomething : ¬ ((dirallHandler (listingLibrary listing []) hd (startCm hd)).1.payload = 0 ∧
      (dirallHandler (listingLibrary listing []) hd (startCm hd)).2 = none) := by
    intro hnothing
    have hnil := (sameListing_of_nothing hnothing).mp (h [])
    rw [dirElements_eq, if_pos hfits] at hnil
    exact hpaths hnil
  have hgood : 0 ≤ (ret32 listing.ret).toInt := by
    by_contra hbad
    exact hsomething (dirallReply_error hfits (Int.not_le.mp hbad))
  have hcb : (collected (listingLibrary listing []) hd
      (dirallCallback (listingLibrary listing []))).Holds
      (listingText listing.paths) (listingSize listing.paths) :=
        collected_holds (fun _ => rfl) hfits
  have hsize : (listingText listing.paths).length = (listingSize listing.paths).1 := hcb.length_text
  have htext : listingText listing.paths ≠ [] := by
    intro hnil
    refine hsomething (dirallReply_none (hcb.started ?_))
    have hzero : (listingSize listing.paths).1 = 0 := by rw [← hsize, hnil]; rfl
    exact (congrArg Prod.fst hcb.size_eq).trans hzero
  have hnul : 0 ∉ listingText listing.paths := by
    refine not_mem_listingText fun p hp => ?_
    obtain ⟨e, -, rfl⟩ := List.mem_map.mp hp
    exact e.noNul
  obtain ⟨hret, hmax, hclean, hcommas⟩ := (h []).joined hfits hpaths hgood htext
  rw [listingBlock, strdup_nil hnul] at hclean
  obtain ⟨hjoin, hfit⟩ := eq_of_take_takeWhile hnul (foldl_addText_length_le listing.paths) hclean
  have hsmall := small_of_payload hfit
  have haccepted : (listingSize listing.paths).1 + 1 ≤ maxPayloadSize := by
    rw [← hsize]
    rw [payload_length hsmall] at hmax
    omega
  refine ⟨hret, hcommas, ?_, ?_, haccepted⟩
  · rcases (listingText_eq_iff hpaths).mp hjoin with hfirst | hsingle
    · exact hfirst
    · rw [hsingle] at htext
      exact absurd rfl htext
  · by_contra hfull
    -- the block is full, so the copy goes on with the byte behind it
    have hzero : (listingSize listing.paths).2 - (listingSize listing.paths).1 = 0 := by omega
    obtain ⟨-, -, hdirty, -⟩ := (h [0x78]).joined hfits hpaths hgood htext
    have hnat : ((listingText listing.paths).length + 1 : Int).toNat =
        (listingText listing.paths).length + 1 := rfl
    rw [listingBlock, hzero, List.replicate_zero, List.append_nil, payload_length hsmall, hnat,
      take_garbage hnul, ← hjoin] at hdirty
    exact absurd hdirty (by simp)

/-- **When DIRALL lists what DIR lists.** Whatever stands behind the block in memory, the two agree
exactly for requests that list nothing and for plain listings. -/
theorem sameListing_iff (hd : HandlerData) (listing : Listing) (beyond : Nat → Byte) :
    (∀ lib : Library, lib.fsDirRemote = listing → lib.Obliging → SameListing lib hd beyond) ↔
      pathFits hd = false ∨ listing.entries = [] ∨ listing.Plain := by
  constructor
  · intro h
    by_cases hfits : pathFits hd = true
    · by_cases hne : listing.entries = []
      · exact .inr (.inl hne)
      · exact .inr (.inr (plain_of_sameListing hfits hne fun more =>
          h (listingLibrary listing more) rfl (obliging_listingLibrary listing more)))
    · exact .inl (Bool.eq_false_iff.mpr hfits)
  · intro h lib hlib hall
    by_cases hfits : pathFits hd = true
    · by_cases hne : listing.entries = []
      · have hcb := collected_holds hall.granted hfits
        rw [hlib, hne] at hcb
        refine (sameListing_of_nothing
          (dirallReply_none (hcb.started (congrArg Prod.fst hcb.size_eq)))).mpr ?_
        rw [dirElements_eq, if_pos hfits, hlib, hne]
        rfl
      · rcases h with hno | hnil | hplain
        · exact absurd hfits (Bool.eq_false_iff.mp hno)
        · exact absurd hnil hne
        · exact hplain.sameListing hne hlib hall hfits
    · have hcb : (collected lib hd (dirallCallback lib)).blob = none := by
        rw [collected, if_neg hfits]
        rfl
      refine (sameListing_of_nothing (dirallReply_none hcb)).mpr ?_
      rw [dirElements_eq, if_neg hfits]

end

/-- A listing with one device that is shown under an alias. -/
def aliasListing : Listing := ⟨0, 0, [⟨ascii "/attic,north", true, by decide, by decide⟩]⟩

/-- The request for the directory. -/
def rootRequest : HandlerData :=
  ⟨⟨0, 2, MsgClassification.dirall.code, 0, 0, 0⟩, { path := some 0 }, [0x2F, 0]⟩

/-- The alias is accepted, and the client finds two elements where DIR lists one. -/
theorem comma_splits_alias :
    (testAndAddAlias ⟨1, 2, 3⟩ 0 (ascii "attic,north") sampleSn
      { trees := { temporary := {} } }).map Prod.fst
        = some .good ∧
      ¬ SameListing (listingLibrary aliasListing []) rootRequest (fun _ => 0) := by
  refine ⟨by decide, ?_⟩
  rintro ⟨-, helements⟩
  have hcut : dirallElements (fun _ => 0)
      (dirallHandler (listingLibrary aliasListing []) rootRequest (startCm rootRequest))
        = [ascii "/attic", ascii "north"] := by decide
  rw [hcut, dirElements_eq] at helements
  exact absurd helements (by decide)

end Owfs.Server
