import Owfs.Search.Bitbang

/-!
# The directory search of the DS9490

The USB master searches by itself and hands over what it found (`ow_ds9490.c`). The routine asks
for `DS2490_DIR_GULP_ELEMENTS` serial numbers at a time, keeps them in `ds->gulp`, and looks at
the bus again when `ds->index` has run through them. That number is one, so each call is a search
of its own.
-/

namespace Owfs.Search

open Infra Owfs.Device

/-- `DS2490_DIR_GULP_ELEMENTS`; below a DS2409 it is one as well. -/
def dirGulpElements : Nat := 1

/-- The USB master. `EP3` is the buffer that a bulk read fills, as serial numbers. -/
structure UsbBus (σ : Type) where
  /-- `BUS_select` -/
  select : Option σ
  /-- `AnyDevices` -/
  anyDevices : σ → Bool
  /-- `DS9490_write`: the number of bytes written, or an error. -/
  write : Bytes → σ → Int × σ
  /-- `USB_Control_Msg` with `COMM_SEARCH_ACCESS`: gulp elements and search command. -/
  searchAccess : Nat → Byte → σ → Option σ
  /-- `DS9490_getstatus`: the status buffer, if the bus is in order. -/
  getstatus : σ → Option (Bytes × σ)
  /-- `DS9490_read` into `EP3` -/
  read : Nat → σ → Int × (Nat → SerialNumber)

/-- `SetupDiscrepancy` -/
def setupDiscrepancy (sn : SerialNumber) (lastDiscrepancy : Int) : SerialNumber :=
  let discrepancy :=
    if lastDiscrepancy > -1 then sn.setBit lastDiscrepancy.toNat true else sn
  (List.range 64).foldl
    (fun d (i : Nat) => if lastDiscrepancy < (i : Int) then d.setBit i false else d) discrepancy

/-- `FindDiscrepancy`: the highest of the first `n` bits that the next serial number adds. -/
def findDiscrepancy (lastSn discrepancySn : SerialNumber) : Nat → Int
  | 0 => 0
  | i + 1 =>
    if discrepancySn.bit i = true ∧ lastSn.bit i = false then (i : Int)
    else findDiscrepancy lastSn discrepancySn i

/-- What `DS9490_directory` comes back with. -/
inductive Gulp where
  | error
  | done
  | found (sns : List SerialNumber) (lastDiscrepancy : Int) (lastDevice : Bool)

/-- `DS9490_directory` from `BUS_select` on. Of the search state it reads the serial number, the
last discrepancy and the search command. -/
def ds9490Gulp {σ : Type} (bus : UsbBus σ) (sn : SerialNumber) (lastDiscrepancy : Int)
    (search : Byte) : Gulp :=
  match bus.select with
  | none => .error
  | some s =>
    if bus.anyDevices s = false then .done
    else
      let (written, s) := bus.write (setupDiscrepancy sn lastDiscrepancy).bytes s
      if written < 8 then .error
      else
        match bus.searchAccess dirGulpElements search s with
        | none => .error
        | some s =>
          match bus.getstatus s with
          | none => .error
          | some (statusBuffer, s) =>
            let bytesBack := (statusBuffer.getD 13 0).toNat
            if bytesBack = 0 then .done
            else if bytesBack % 8 ≠ 0 then .error
            else if bytesBack > (dirGulpElements + 1) * 8 then .error
            else
              let devicesFound := min (bytesBack / 8) dirGulpElements
              let (ret, ep3) := bus.read bytesBack s
              let sns := (List.range devicesFound).map ep3
              if ret ≤ 0 then .error
              else if sns.any (fun sn => crc8 sn.bytes != 0 || sn.family == 0) then .error
              else
                .found sns (findDiscrepancy (ep3 (devicesFound - 1)) (ep3 devicesFound) 64)
                  (bytesBack = devicesFound * 8)

/-- `DS9490_directory` -/
def ds9490Directory {σ : Type} (bus : UsbBus σ) (ds : DeviceSearch) :
    SearchStatus × DeviceSearch :=
  let ds := { ds with gulp := ds.gulp.clear }
  match ds9490Gulp bus ds.sn ds.lastDiscrepancy ds.search with
  | .error => (.error, ds)
  | .done => (.done, ds)
  | .found sns lastDiscrepancy lastDevice =>
    (.good, { ds with
      gulp := sns.foldl (fun db sn => db.add sn) ds.gulp
      lastDiscrepancy := lastDiscrepancy
      lastDevice := lastDevice })

/-- `DirblobGet` into `ds->sn`, at the end of `DS9490_next_both`. -/
def ds9490Take (ds : DeviceSearch) : SearchStatus × DeviceSearch :=
  match ds.gulp.get (ds.index % (dirGulpElements : Int)).toNat with
  | some sn => (.good, { ds with sn := sn })
  | none => (.done, ds)

/-- `DS9490_next_both` -/
def ds9490NextBoth {σ : Type} (bus : UsbBus σ) (ds : DeviceSearch) :
    SearchStatus × DeviceSearch :=
  let ds := { ds with index := ds.index + 1 }
  if ds.index % (dirGulpElements : Int) = 0 then
    if ds.lastDevice then (.done, ds)
    else
      match ds9490Directory bus ds with
      | (.done, ds) => (.done, ds)
      | (.error, ds) => (.error, ds)
      | (.good, ds) => ds9490Take ds
  else ds9490Take ds

/-! ## A failed attempt changes nothing that the next one reads -/

section

variable {σ τ : Type} {ds ds' : DeviceSearch}

theorem emod_dirGulpElements (i : Int) : i % (dirGulpElements : Int) = 0 := Int.emod_one i

/-- The serial numbers of a fresh blob after the additions. -/
theorem snlist_foldl_add : ∀ (sns : List SerialNumber) (db : Dirblob), db.troubled = false →
    (sns.foldl (fun db sn => db.add sn) db).snlist = db.snlist ++ sns
  | [], db, _ => by simp
  | sn :: sns, db, h => by
    have hadd : (db.add sn).snlist = db.snlist ++ [sn] ∧ (db.add sn).troubled = false := by
      unfold Dirblob.add
      rw [h]
      exact ⟨rfl, rfl⟩
    rw [List.foldl_cons, snlist_foldl_add sns _ hadd.2, hadd.1, List.append_assoc]
    rfl

/-- One attempt in terms of what the bus hands over. -/
theorem ds9490NextBoth_eq (bus : UsbBus σ) (hl : ds.lastDevice = false) :
    ∃ ds₁ : DeviceSearch, ds9490NextBoth bus ds =
      (match ds9490Gulp bus ds.sn ds.lastDiscrepancy ds.search with
      | .error => (.error, { ds with index := ds.index + 1, gulp := ds.gulp.clear })
      | .done => (.done, { ds with index := ds.index + 1, gulp := ds.gulp.clear })
      | .found [] lastDiscrepancy lastDevice =>
        (.done, { ds₁ with
          sn := ds.sn, lastDiscrepancy := lastDiscrepancy, lastDevice := lastDevice })
      | .found (sn :: _) lastDiscrepancy lastDevice =>
        (.good, { ds₁ with
          sn := sn, lastDiscrepancy := lastDiscrepancy, lastDevice := lastDevice })) := by
  unfold ds9490NextBoth ds9490Directory
  simp only [emod_dirGulpElements, if_true, hl, Bool.false_eq_true, if_false]
  cases hg : ds9490Gulp bus ds.sn ds.lastDiscrepancy ds.search with
  | error => exact ⟨ds, rfl⟩
  | done => exact ⟨ds, rfl⟩
  | found sns lastDiscrepancy lastDevice =>
    have hlist : (sns.foldl (fun db sn => db.add sn) ds.gulp.clear).snlist = sns :=
      snlist_foldl_add sns _ rfl
    refine ⟨{ ds with
      index := ds.index + 1
      gulp := sns.foldl (fun db sn => db.add sn) ds.gulp.clear }, ?_⟩
    simp only [ds9490Take, Dirblob.get, emod_dirGulpElements, Int.toNat_zero, hlist]
    cases sns with
    | nil => rfl
    | cons sn sns => rfl

/-- A failed attempt leaves serial number, last discrepancy, last device and command alone. -/
theorem ds9490NextBoth_error (bus : UsbBus σ) (h : ds9490NextBoth bus ds = (.error, ds')) :
    ds'.sn = ds.sn ∧ ds'.lastDiscrepancy = ds.lastDiscrepancy ∧ ds'.lastDevice = ds.lastDevice ∧
      ds'.search = ds.search := by
  cases hl : ds.lastDevice with
  | true =>
    unfold ds9490NextBoth at h
    simp [emod_dirGulpElements, hl] at h
  | false =>
    obtain ⟨ds₁, heq⟩ := ds9490NextBoth_eq bus hl
    rw [heq] at h
    split at h
    · rw [← (Prod.mk.inj h).2]
      exact ⟨rfl, rfl, hl, rfl⟩
    · simp at h
    · simp at h
    · simp at h

/-- An attempt depends on these four only. -/
theorem ds9490NextBoth_congr (bus : UsbBus τ) (hsn : ds'.sn = ds.sn)
    (hld : ds'.lastDiscrepancy = ds.lastDiscrepancy) (hdev : ds'.lastDevice = ds.lastDevice)
    (hsearch : ds'.search = ds.search) :
    (ds9490NextBoth bus ds').1 = (ds9490NextBoth bus ds).1 ∧
    (ds9490NextBoth bus ds').2.lastDiscrepancy = (ds9490NextBoth bus ds).2.lastDiscrepancy ∧
    (ds9490NextBoth bus ds').2.lastDevice = (ds9490NextBoth bus ds).2.lastDevice ∧
    (ds9490NextBoth bus ds').2.sn = (ds9490NextBoth bus ds).2.sn := by
  cases hl : ds.lastDevice with
  | true =>
    have hdone : ∀ d : DeviceSearch, d.lastDevice = true →
        ds9490NextBoth bus d = (.done, { d with index := d.index + 1 }) := by
      intro d hd
      unfold ds9490NextBoth
      simp only [emod_dirGulpElements, if_true, hd]
    rw [hdone ds hl, hdone ds' (hdev.trans hl)]
    exact ⟨rfl, hld, hdev, hsn⟩
  | false =>
    obtain ⟨d₁, h₁⟩ := ds9490NextBoth_eq bus hl
    obtain ⟨d₂, h₂⟩ := ds9490NextBoth_eq bus (hdev.trans hl)
    rw [h₁, h₂, hsn, hld, hsearch]
    split
    · exact ⟨rfl, rfl, hdev, rfl⟩
    · exact ⟨rfl, rfl, hdev, rfl⟩
    · exact ⟨rfl, rfl, rfl, rfl⟩
    · exact ⟨rfl, rfl, rfl, rfl⟩

end

end Owfs.Search
