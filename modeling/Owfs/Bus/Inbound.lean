import Owfs.Cache.Entries

/-!
# Bus numbers

`AllocIn` numbers the connections in the order in which they are made, and `RemoveIn` takes the
last number back. The cache knows a bus by its number only: it is part of the key of a directory,
and it is what is stored for a device. Removing a bus leaves the cache as it is.

So the numbers of the connections that are there are always different, but a new connection may get
the number of an old one while the cache still has entries of that one.

Connections get an `id` here, which is never used twice, and the additions to the cache are noted
with the `id` that they were made for. Neither is in the program. The counters `active` and
`connections`, and what else is in the structures, are left out; `malloc` succeeds.
-/

namespace Owfs.Bus

open Infra Owfs.Device Owfs.Cache

/-! ## Connections -/

/-- `struct connection_in` -/
structure Connection where
  id : Nat
  index : BitVec 32
deriving DecidableEq

/-- `struct inbound_control`, and the cache. -/
structure Inbound where
  nextIndex : BitVec 32 := 0
  /-- The ports, each with its connections. -/
  headPort : List (List Connection) := []
  world : World
  nextId : Nat := 0
  /-- What was stored in the cache: key, data, and the connection it was stored for. -/
  addedFor : List (TreeKey × Bytes × Nat) := []

/-- The connections that are there. -/
def Inbound.live (s : Inbound) : List Connection := s.headPort.flatten

/-- `AllocIn` -/
def allocIn (s : Inbound) : Connection × Inbound :=
  (⟨s.nextId, s.nextIndex⟩, { s with nextIndex := s.nextIndex + 1, nextId := s.nextId + 1 })

/-- `NewPort` -/
def newPort (s : Inbound) : Inbound :=
  { (allocIn s).2 with headPort := [(allocIn s).1] :: s.headPort }

/-- `AddtoPort` -/
def addtoPort (pin : Nat) (s : Inbound) : Inbound :=
  match s.headPort[pin]? with
  | none => s
  | some conns => { (allocIn s).2 with headPort := s.headPort.set pin ((allocIn s).1 :: conns) }

/-- A connection, by its place on its port. -/
def Inbound.connection (s : Inbound) (pin channel : Nat) : Option Connection :=
  (s.headPort[pin]?.getD [])[channel]?

/-- `RemoveIn` -/
def removeIn (pin channel : Nat) (s : Inbound) : Inbound :=
  match s.connection pin channel with
  | none => s
  | some conn =>
    { s with
      headPort := s.headPort.set pin ((s.headPort[pin]?.getD []).eraseIdx channel)
      nextIndex := if conn.index = s.nextIndex - 1 then s.nextIndex - 1 else s.nextIndex }

/-- `RemovePort`: "First delete connections", then the port. -/
def removePort (pin : Nat) (s : Inbound) : Inbound :=
  let s := (removeIn pin 0)^[(s.headPort[pin]?.getD []).length] s
  { s with headPort := s.headPort.eraseIdx pin }

/-! ## The cache -/

/-- The `int` that `Cache_Add_Device` stores. -/
def indexBytes (index : BitVec 32) : Bytes := (be32 index).reverse

theorem indexBytes_injective : Function.Injective indexBytes := by
  intro x y h
  have hbe : be32 x = be32 y := List.reverse_injective h
  have hx := ofBe32_be32_append x []
  rw [List.append_nil, hbe] at hx
  have hy := ofBe32_be32_append y []
  rw [List.append_nil] at hy
  exact hx.symm.trans hy

section

variable (markers : Markers)

/-- `Cache_Add_Dir` for a directory of the connection, and whether the list is stored. -/
def addDir (conn : Connection) (pn : DirectoryName) (snlist : Bytes) (made now flipTime : Int)
    (s : Inbound) : Inbound :=
  let pn := { pn with index := conn.index }
  let duration := timeOut s.world.g.timeouts .directory
  let stored := pn.virtualBus = false ∧ 0 < duration ∧ 8 ≤ snlist.length ∧
    (s.world.trees.addCommon s.world.g now flipTime ⟨pn.key markers, duration + made, snlist⟩).1 =
    .good
  { s with
    world := { s.world with trees :=
      (cacheAddDir s.world.g markers made now flipTime snlist pn s.world.trees).2 }
    addedFor := if stored then (pn.key markers, snlist, conn.id) :: s.addedFor else s.addedFor }

/-- `Cache_Add_Device` for a device on the connection, and whether the number is stored. -/
def addDevice (conn : Connection) (sn : SerialNumber) (made now flipTime : Int) (s : Inbound) :
    Inbound :=
  let duration := timeOut s.world.g.timeouts .presence
  let stored := 0 < duration ∧ sn.family ≠ 0 ∧
    (s.world.trees.addCommon s.world.g now flipTime
      ⟨deviceKey markers sn, duration + made, indexBytes conn.index⟩).1 = .good
  { s with
    world := { s.world with
      trees := (cacheAddDevice s.world.g markers made now flipTime (indexBytes conn.index) sn
        s.world.trees).2 }
    addedFor :=
      if stored then (deviceKey markers sn, indexBytes conn.index, conn.id) :: s.addedFor
      else s.addedFor }

/-- An operation of the cache that adds neither a directory nor a device. What it adds is known by
an address of its own. -/
def OtherAddition : CacheOp → Prop
  | .add (.directory _) _ _ _ _ => False
  | .add (.device _) _ _ _ _ => False
  | .add name _ _ _ _ =>
    (name.key markers).p ≠ markers.directoryMarker ∧ (name.key markers).p ≠ markers.deviceMarker
  | _ => True

/-- What can happen. Connections are known by their place. -/
inductive Event where
  | newPort
  | addtoPort (pin : Nat)
  | removeIn (pin channel : Nat)
  | removePort (pin : Nat)
  | addDir (pin channel : Nat) (pn : DirectoryName) (snlist : Bytes) (made now flipTime : Int)
  | addDevice (pin channel : Nat) (sn : SerialNumber) (made now flipTime : Int)
  | cache (op : CacheOp) (other : OtherAddition markers op)

/-- One event. There is no step that uses a connection that is not there. -/
def Inbound.step (s : Inbound) : Event markers → Option Inbound
  | .newPort => some (newPort s)
  | .addtoPort pin => if pin < s.headPort.length then some (addtoPort pin s) else none
  | .removeIn pin channel => some (removeIn pin channel s)
  | .removePort pin => some (removePort pin s)
  | .addDir pin channel pn snlist made now flipTime =>
    (s.connection pin channel).map fun conn => addDir markers conn pn snlist made now flipTime s
  | .addDevice pin channel sn made now flipTime =>
    (s.connection pin channel).map fun conn => addDevice markers conn sn made now flipTime s
  | .cache op _ => some { s with world := s.world.step markers op }

/-- The program starts without connections. -/
def Inbound.start (world : World) : Inbound := { world := world }

/-- The numbers are different, and what the cache answers for a connection was stored for it. -/
structure Inbound.Sound (s : Inbound) : Prop where
  distinct : (s.live.map Connection.index).Nodup
  directory : ∀ conn ∈ s.live, ∀ pn now data, pn.index = conn.index →
    cacheGetDir s.world.g markers now pn s.world.trees = some data →
    (pn.key markers, data, conn.id) ∈ s.addedFor
  device : ∀ conn ∈ s.live, ∀ sn now,
    cacheGetDevice s.world.g markers now sn s.world.trees = some (indexBytes conn.index) →
    (deviceKey markers sn, indexBytes conn.index, conn.id) ∈ s.addedFor

/-- The cache has no entry with the next number, and the counter does not overflow. -/
structure Inbound.FreshNumber (s : Inbound) : Prop where
  small : s.nextIndex.toInt < 2 ^ 31 - 1
  directory : ∀ tk tn, s.world.trees.temporary.entry tk = some tn → tk.p = markers.directoryMarker →
    tk.extension ≠ s.nextIndex
  device : ∀ sn tn, s.world.trees.temporary.entry (deviceKey markers sn) = some tn →
    tn.data ≠ indexBytes s.nextIndex

/-- A connection is made only when its number is fresh. -/
def Inbound.Careful (s : Inbound) : Event markers → Prop
  | .newPort => s.FreshNumber markers
  | .addtoPort _ => s.FreshNumber markers
  | _ => True

end

/-! ## The invariant -/

/-- The numbers are below the next one, and the entries with the number of a connection were stored
for it. -/
structure Inbound.Numbered (markers : Markers) (s : Inbound) : Prop where
  below : ∀ conn ∈ s.live, 0 ≤ conn.index.toInt ∧ conn.index.toInt < s.nextIndex.toInt
  nonneg : 0 ≤ s.nextIndex.toInt
  distinct : (s.live.map Connection.index).Nodup
  directory : ∀ conn ∈ s.live, ∀ tk tn, s.world.trees.temporary.entry tk = some tn →
    tk.p = markers.directoryMarker → tk.extension = conn.index → (tk, tn.data, conn.id) ∈ s.addedFor
  device : ∀ conn ∈ s.live, ∀ sn tn,
    s.world.trees.temporary.entry (deviceKey markers sn) = some tn →
    tn.data = indexBytes conn.index → (deviceKey markers sn, tn.data, conn.id) ∈ s.addedFor

section

variable {markers : Markers} {s s' : Inbound} {conn : Connection}

theorem Inbound.Numbered.sound (h : s.Numbered markers) : s.Sound markers where
  distinct := h.distinct
  directory := by
    intro conn hconn pn now data hindex hget
    unfold cacheGetDir at hget
    dsimp only at hget
    split at hget
    · cases hget
    · obtain ⟨tn, hentry, rfl⟩ := entry_of_getCommonDir hget
      exact h.directory conn hconn _ tn hentry rfl (by rw [← hindex]; rfl)
  device := by
    intro conn hconn sn now hget
    unfold cacheGetDevice at hget
    dsimp only at hget
    split at hget
    · cases hget
    · obtain ⟨tn, hentry, hdata⟩ := entry_of_cacheGetCommon hget
      have hadded := h.device conn hconn sn tn hentry hdata
      rwa [hdata] at hadded

/-! ## Making connections -/

/-- A new connection has a number of its own. -/
theorem Inbound.Numbered.alloc (h : s.Numbered markers) (hfresh : s.FreshNumber markers)
    (hlive : s'.live.Perm ((allocIn s).1 :: s.live)) (hnext : s'.nextIndex = s.nextIndex + 1)
    (hworld : s'.world = s.world) (hadded : s'.addedFor = s.addedFor) : s'.Numbered markers := by
  have hint : s'.nextIndex.toInt = s.nextIndex.toInt + 1 := by
    have hsmall := hfresh.small
    have hnonneg := h.nonneg
    rw [hnext, BitVec.toInt_add]
    exact Int.bmod_eq_of_le (by simp; omega) (by simp; omega)
  have hmem : ∀ conn ∈ s'.live, conn = (allocIn s).1 ∨ conn ∈ s.live :=
    fun conn hconn => List.mem_cons.mp (hlive.mem_iff.mp hconn)
  constructor
  · intro conn hconn
    rw [hint]
    rcases hmem conn hconn with rfl | hold
    · exact ⟨h.nonneg, Int.lt_succ _⟩
    · have hbelow := h.below conn hold
      exact ⟨hbelow.1, by omega⟩
  · have hnonneg := h.nonneg
    omega
  · rw [(hlive.map Connection.index).nodup_iff, List.map_cons, List.nodup_cons]
    refine ⟨?_, h.distinct⟩
    intro hsame
    obtain ⟨conn, hconn, hindex⟩ := List.mem_map.mp hsame
    have hbelow := h.below conn hconn
    rw [hindex] at hbelow
    exact absurd hbelow.2 (Int.lt_irrefl _)
  · intro conn hconn tk tn hentry hp hext
    rw [hworld] at hentry
    rw [hadded]
    rcases hmem conn hconn with rfl | hold
    · exact absurd hext (hfresh.directory tk tn hentry hp)
    · exact h.directory conn hold tk tn hentry hp hext
  · intro conn hconn sn tn hentry hdata
    rw [hworld] at hentry
    rw [hadded]
    rcases hmem conn hconn with rfl | hold
    · exact absurd hdata (hfresh.device sn tn hentry)
    · exact h.device conn hold sn tn hentry hdata

theorem flatten_set_perm {ports : List (List Connection)} {pin : Nat} {conns : List Connection}
    (hpin : ports[pin]? = some conns) (conns' : List Connection) :
    (ports.set pin conns').flatten.Perm (conns' ++ (ports.eraseIdx pin).flatten) := by
  obtain ⟨hlt, -⟩ := List.getElem?_eq_some_iff.mp hpin
  exact (List.set_perm_cons_eraseIdx hlt conns').flatten

theorem flatten_perm {ports : List (List Connection)} {pin : Nat} {conns : List Connection}
    (hpin : ports[pin]? = some conns) :
    ports.flatten.Perm (conns ++ (ports.eraseIdx pin).flatten) := by
  obtain ⟨hlt, rfl⟩ := List.getElem?_eq_some_iff.mp hpin
  exact (List.getElem_cons_eraseIdx_perm hlt).symm.flatten

theorem numbered_newPort (h : s.Numbered markers) (hfresh : s.FreshNumber markers) :
    (newPort s).Numbered markers :=
  h.alloc hfresh (.refl _) rfl rfl rfl

theorem numbered_addtoPort {pin : Nat} (h : s.Numbered markers) (hfresh : s.FreshNumber markers) :
    (addtoPort pin s).Numbered markers := by
  unfold addtoPort
  split
  · exact h
  · next conns hpin =>
    refine h.alloc hfresh ?_ rfl rfl rfl
    exact (flatten_set_perm hpin _).trans ((flatten_perm hpin).symm.cons _)

/-! ## Removing connections -/

/-- The others have other numbers, so the last number can be taken back. -/
theorem Inbound.Numbered.remove (h : s.Numbered markers) (hlive : s.live.Perm (conn :: s'.live))
    (hnext : s'.nextIndex = if conn.index = s.nextIndex - 1 then s.nextIndex - 1 else s.nextIndex)
    (hworld : s'.world = s.world) (hadded : s'.addedFor = s.addedFor) : s'.Numbered markers := by
  have hmem : ∀ other ∈ s'.live, other ∈ s.live :=
    fun other hother => hlive.mem_iff.mpr (List.mem_cons_of_mem _ hother)
  have hdistinct := h.distinct
  rw [(hlive.map Connection.index).nodup_iff, List.map_cons, List.nodup_cons] at hdistinct
  obtain ⟨hnotin, hdistinct⟩ := hdistinct
  have hconn := h.below conn (hlive.mem_iff.mpr List.mem_cons_self)
  have hless : (s.nextIndex - 1).toInt = s.nextIndex.toInt - 1 :=
    toInt_sub32 (by simp; omega) (by have := BitVec.toInt_lt (x := s.nextIndex); simp; omega)
  constructor
  · intro other hother
    have hbelow := h.below other (hmem other hother)
    refine ⟨hbelow.1, ?_⟩
    rw [hnext]
    split
    · next hlast =>
      have hne : other.index ≠ conn.index := fun he => hnotin (he ▸ List.mem_map_of_mem hother)
      have hne' : other.index.toInt ≠ conn.index.toInt := fun he => hne (BitVec.eq_of_toInt_eq he)
      rw [hlast] at hne'
      omega
    · exact hbelow.2
  · rw [hnext]
    split
    · omega
    · exact h.nonneg
  · exact hdistinct
  · intro other hother tk tn hentry hp hext
    rw [hworld] at hentry
    rw [hadded]
    exact h.directory other (hmem other hother) tk tn hentry hp hext
  · intro other hother sn tn hentry hdata
    rw [hworld] at hentry
    rw [hadded]
    exact h.device other (hmem other hother) sn tn hentry hdata

theorem numbered_removeIn {pin channel : Nat} (h : s.Numbered markers) :
    (removeIn pin channel s).Numbered markers := by
  unfold removeIn
  split
  · exact h
  · next conn hconn =>
    unfold Inbound.connection at hconn
    cases hpin : s.headPort[pin]? with
    | none =>
      rw [hpin] at hconn
      cases hconn
    | some conns =>
      rw [hpin, Option.getD_some] at hconn
      refine h.remove ?_ rfl rfl rfl
      obtain ⟨hlt, rfl⟩ := List.getElem?_eq_some_iff.mp hconn
      have hconns := (List.getElem_cons_eraseIdx_perm hlt).symm
      refine (flatten_perm hpin).trans ((hconns.append_right _).trans (.cons _ ?_))
      exact (flatten_set_perm hpin _).symm

theorem headPort_removeIn {pin : Nat} :
    (removeIn pin 0 s).headPort[pin]?.getD [] = (s.headPort[pin]?.getD []).drop 1 := by
  unfold removeIn Inbound.connection
  cases hpin : s.headPort[pin]? with
  | none => simp [hpin]
  | some conns =>
    obtain ⟨hlt, -⟩ := List.getElem?_eq_some_iff.mp hpin
    cases conns with
    | nil => simp [hpin]
    | cons conn conns => simp [hlt]

theorem numbered_removePort {pin : Nat} (h : s.Numbered markers) :
    (removePort pin s).Numbered markers := by
  have hiter : ∀ n (s : Inbound), s.Numbered markers → ((removeIn pin 0)^[n] s).Numbered markers ∧
      ((removeIn pin 0)^[n] s).headPort[pin]?.getD [] = (s.headPort[pin]?.getD []).drop n := by
    intro n
    induction n with
    | zero => exact fun s h => ⟨h, rfl⟩
    | succ n ih =>
      intro s h
      obtain ⟨hnum, hdrop⟩ := ih (removeIn pin 0 s) (numbered_removeIn h)
      rw [headPort_removeIn, List.drop_drop, Nat.add_comm] at hdrop
      exact ⟨hnum, hdrop⟩
  obtain ⟨hnum, hdrop⟩ := hiter (s.headPort[pin]?.getD []).length s h
  rw [List.drop_length] at hdrop
  unfold removePort
  dsimp only
  generalize (removeIn pin 0)^[(s.headPort[pin]?.getD []).length] s = t at hnum hdrop
  -- the port is empty now
  have hlive : (t.headPort.eraseIdx pin).flatten.Perm t.headPort.flatten := by
    cases hpin : t.headPort[pin]? with
    | none => rw [List.eraseIdx_of_length_le (List.getElem?_eq_none_iff.mp hpin)]
    | some conns =>
      rw [hpin, Option.getD_some] at hdrop
      subst hdrop
      exact (flatten_perm hpin).symm
  have hmem : ∀ conn ∈ ({ t with headPort := t.headPort.eraseIdx pin } : Inbound).live,
      conn ∈ t.live :=
    fun conn hconn => hlive.mem_iff.mp hconn
  exact {
    below := fun conn hconn => hnum.below conn (hmem conn hconn)
    nonneg := hnum.nonneg
    distinct := (hlive.map Connection.index).nodup_iff.mpr hnum.distinct
    directory := fun conn hconn => hnum.directory conn (hmem conn hconn)
    device := fun conn hconn => hnum.device conn (hmem conn hconn) }

/-! ## The cache -/

/-- What is in the cache after a step was there, or was stored for a connection with that number. -/
theorem Inbound.Numbered.stored (h : s.Numbered markers) (hport : s'.headPort = s.headPort)
    (hnext : s'.nextIndex = s.nextIndex) (hadded : s.addedFor ⊆ s'.addedFor)
    (hentry : ∀ tk tn', s'.world.trees.temporary.entry tk = some tn' →
      tk.p = markers.directoryMarker ∨ tk.p = markers.deviceMarker →
      (∃ tn, s.world.trees.temporary.entry tk = some tn ∧ tn.data = tn'.data) ∨
        ∃ conn ∈ s.live, (tk, tn'.data, conn.id) ∈ s'.addedFor ∧
          (tk.p = markers.directoryMarker → tk.extension = conn.index) ∧
          (tk.p = markers.deviceMarker → tn'.data = indexBytes conn.index)) :
    s'.Numbered markers := by
  have hlive : s'.live = s.live := by rw [Inbound.live, hport, Inbound.live]
  have hsame : ∀ {conn other}, conn ∈ s.live → other ∈ s.live → conn.index = other.index →
      conn = other :=
    fun hconn hother he => List.inj_on_of_nodup_map h.distinct hconn hother he
  constructor
  · rw [hlive, hnext]
    exact h.below
  · rw [hnext]
    exact h.nonneg
  · rw [hlive]
    exact h.distinct
  · intro conn hconn tk tn' htn' hp hext
    rw [hlive] at hconn
    rcases hentry tk tn' htn' (.inl hp) with ⟨tn, htn, hdata⟩ | ⟨other, hother, hmem, hindex, -⟩
    · rw [← hdata]
      exact hadded (h.directory conn hconn tk tn htn hp hext)
    · rw [hsame hconn hother (hext.symm.trans (hindex hp))]
      exact hmem
  · intro conn hconn sn tn' htn' hbytes
    rw [hlive] at hconn
    rcases hentry _ tn' htn' (.inr rfl) with ⟨tn, htn, hdata⟩ | ⟨other, hother, hmem, -, hindex⟩
    · rw [← hdata] at hbytes ⊢
      exact hadded (h.device conn hconn sn tn htn hbytes)
    · rw [hsame hconn hother (indexBytes_injective (hbytes.symm.trans (hindex rfl)))]
      exact hmem

theorem subset_ite_cons {α : Type} {c : Prop} [Decidable c] {x : α} {l : List α} :
    l ⊆ if c then x :: l else l := by
  intro y hy
  split
  · exact List.mem_cons_of_mem _ hy
  · exact hy

theorem numbered_addDir {pn : DirectoryName} {snlist : Bytes} {made now flipTime : Int}
    (hm : markers.directoryMarker ≠ markers.deviceMarker) (h : s.Numbered markers)
    (hconn : conn ∈ s.live) :
    (addDir markers conn pn snlist made now flipTime s).Numbered markers := by
  refine h.stored rfl rfl subset_ite_cons ?_
  intro tk tn' htn' _
  simp only [addDir, cacheAddDir] at htn' ⊢
  split at htn'
  · exact .inl ⟨tn', htn', rfl⟩
  · next hvirtual =>
    split at htn'
    · exact .inl ⟨tn', htn', rfl⟩
    · next hduration =>
      split at htn'
      · exact .inl (keeps_delCommon.data tn' htn')
      · next hlong =>
        rcases entry_of_addCommon htn' with hold | ⟨rfl, rfl, hgood⟩
        · exact .inl hold
        · refine .inr ⟨conn, hconn, ?_, fun _ => rfl, fun hp => absurd hp hm⟩
          rw [if_pos ⟨Bool.eq_false_of_not_eq_true hvirtual, Int.not_le.mp hduration,
            Nat.not_lt.mp hlong, hgood⟩]
          exact List.mem_cons_self

theorem numbered_addDevice {sn : SerialNumber} {made now flipTime : Int}
    (hm : markers.directoryMarker ≠ markers.deviceMarker) (h : s.Numbered markers)
    (hconn : conn ∈ s.live) :
    (addDevice markers conn sn made now flipTime s).Numbered markers := by
  refine h.stored rfl rfl subset_ite_cons ?_
  intro tk tn' htn' _
  simp only [addDevice, cacheAddDevice] at htn' ⊢
  split at htn'
  · exact .inl ⟨tn', htn', rfl⟩
  · next hduration =>
    split at htn'
    · exact .inl ⟨tn', htn', rfl⟩
    · next hfamily =>
      rcases entry_of_addCommon htn' with hold | ⟨rfl, rfl, hgood⟩
      · exact .inl hold
      · refine .inr ⟨conn, hconn, ?_, fun hp => absurd hp.symm hm, fun _ => rfl⟩
        rw [if_pos ⟨Int.not_le.mp hduration, hfamily, hgood⟩]
        exact List.mem_cons_self

theorem numbered_cache {op : CacheOp} (hother : OtherAddition markers op) (h : s.Numbered markers) :
    ({ s with world := s.world.step markers op } : Inbound).Numbered markers := by
  refine h.stored rfl rfl (List.Subset.refl _) ?_
  intro tk tn' htn' hp
  refine .inl ((keeps_step ?_).data tn' htn')
  rintro name data made now flipTime rfl rfl
  have hne : (name.key markers).p ≠ markers.directoryMarker ∧
      (name.key markers).p ≠ markers.deviceMarker := by
    cases name with
    | directory pn => exact absurd hother id
    | device sn => exact absurd hother id
    | property pn => exact hother
    | slaveSpecific ip sn => exact hother
    | simul ip pn => exact hother
    | aliasOf sn => exact hother
  rcases hp with hp | hp
  · exact hne.1 hp
  · exact hne.2 hp

/-! ## Runs -/

theorem mem_live_of_connection {pin channel : Nat} (h : s.connection pin channel = some conn) :
    conn ∈ s.live := by
  unfold Inbound.connection at h
  have hmem := List.mem_of_getElem? h
  cases hpin : s.headPort[pin]? with
  | none =>
    rw [hpin] at hmem
    cases hmem
  | some conns =>
    rw [hpin, Option.getD_some] at hmem
    exact List.mem_flatten.mpr ⟨conns, List.mem_of_getElem? hpin, hmem⟩

theorem Inbound.Numbered.step {event : Event markers}
    (hm : markers.directoryMarker ≠ markers.deviceMarker) (h : s.Numbered markers)
    (hstep : s.step markers event = some s') (hcareful : s.Careful markers event) :
    s'.Numbered markers := by
  cases event with
  | newPort =>
    cases hstep
    exact numbered_newPort h hcareful
  | addtoPort pin =>
    rw [Inbound.step] at hstep
    split at hstep
    · cases hstep
      exact numbered_addtoPort h hcareful
    · cases hstep
  | removeIn pin channel =>
    cases hstep
    exact numbered_removeIn h
  | removePort pin =>
    cases hstep
    exact numbered_removePort h
  | addDir pin channel pn snlist made now flipTime =>
    obtain ⟨conn, hconn, rfl⟩ := Option.map_eq_some_iff.mp hstep
    exact numbered_addDir hm h (mem_live_of_connection hconn)
  | addDevice pin channel sn made now flipTime =>
    obtain ⟨conn, hconn, rfl⟩ := Option.map_eq_some_iff.mp hstep
    exact numbered_addDevice hm h (mem_live_of_connection hconn)
  | cache op other =>
    cases hstep
    exact numbered_cache other h

theorem numbered_start (world : World) : (Inbound.start world).Numbered markers where
  below := fun _ hconn => absurd hconn List.not_mem_nil
  nonneg := Int.le_refl 0
  distinct := List.nodup_nil
  directory := fun _ hconn => absurd hconn List.not_mem_nil
  device := fun _ hconn => absurd hconn List.not_mem_nil

end

/-- **A run in which numbers are given out only when the cache has no entry with them is sound.** -/
theorem sound_of_careful (markers : Markers) (hm : markers.directoryMarker ≠ markers.deviceMarker)
    (world : World) (events : List (Event markers))
    (h : EachStep (Inbound.step markers) (Inbound.Careful markers) (.start world) events) :
    Throughout (Inbound.step markers) (Inbound.Sound markers) (.start world) events :=
  throughout_of_eachStep Inbound.Numbered.sound (fun hs hstep hc => hs.step hm hstep hc)
    (numbered_start world) h

/-- A cache that was just opened. -/
def openedWorld : World := .opened defaultTimeouts 0 0

/-- A port comes, goes and comes again before anything is cached. -/
def earlyRun : List (Event sampleMarkers) :=
  [.newPort, .removePort 0, .newPort, .addDir 0 0 rootDirectory sampleThermometer.bytes 10 10 10]

theorem sound_of_careful_earlyRun :
    Throughout (Inbound.step sampleMarkers) (Inbound.Sound sampleMarkers) (.start openedWorld)
      earlyRun := by
  have hfresh : ∀ s : Inbound, s.world = openedWorld → s.nextIndex = 0 →
      s.FreshNumber sampleMarkers := by
    intro s hworld hnext
    have hnone : ∀ tk, s.world.trees.temporary.entry tk = none := fun tk => by rw [hworld]; rfl
    refine ⟨by rw [hnext]; decide, ?_, ?_⟩
    · intro tk tn hentry
      rw [hnone tk] at hentry
      cases hentry
    · intro sn tn hentry
      rw [hnone _] at hentry
      cases hentry
  refine sound_of_careful sampleMarkers (by decide) openedWorld earlyRun ?_
  rintro _ ⟨⟩
  refine ⟨hfresh _ rfl rfl, ?_⟩
  rintro _ ⟨⟩
  refine ⟨trivial, ?_⟩
  rintro _ ⟨⟩
  refine ⟨hfresh _ rfl rfl, ?_⟩
  rintro _ ⟨⟩
  exact ⟨trivial, trivial⟩

/-- The directory of a port that is removed is found for the next port. -/
def staleRun : List (Event sampleMarkers) :=
  [.newPort, .addDir 0 0 rootDirectory sampleThermometer.bytes 10 10 10, .removePort 0, .newPort]

theorem not_sound_staleRun :
    ¬ Throughout (Inbound.step sampleMarkers) (Inbound.Sound sampleMarkers) (.start openedWorld)
      staleRun := by
  intro h
  have hlast := (((h.2 _ rfl).2 _ rfl).2 _ rfl).2 _ rfl
  have hadded :=
    hlast.directory ⟨1, 0⟩ (by decide) rootDirectory 11 sampleThermometer.bytes rfl (by decide)
  revert hadded
  decide

end Owfs.Bus
