import Owfs.Bus.Inbound
import Owfs.Property.Coherence

/-!
# On which bus a device is

`ReCheckPresence` of `ow_presence.c`. It asks the bus where the device was last, then the bus that
the cache remembers. If neither answers, both are forgotten and all buses are asked: each port and
each channel of a port in a thread of its own, started by the thread of the one before. The
answer of a later bus counts more than that of an earlier one.

If `pthread_create` fails, nobody asks the buses behind. And what the cache remembers is not always
forgotten: `Cache_Del_Common` leaves the old tree alone once `time_to_kill` has passed, while
`Cache_Get_Common` looks there as long as the timeout allows.

The threads take turns in any order: a schedule says whose turn it is, and those that are not done
at its end follow one by one. A turn asks a bus, or adds its answer to the cache. Which devices
answer on a bus does not change during a call. `pthread_join` succeeds, and so does `malloc`.
-/

namespace Owfs.Bus

open Infra Owfs.Device Owfs.Cache

/-! ## Buses -/

/-- How `CheckThisConnection` asks a bus. -/
inductive Asking where
  | server | sham | fromDirblob | verify
deriving DecidableEq, Repr

/-- The part of `struct connection_in` that is read here. -/
structure Channel where
  index : BitVec 32
  asking : Asking
  /-- `TestConnection` -/
  connected : Bool
  /-- the devices that answer on the bus -/
  devices : List SerialNumber
deriving DecidableEq

/-- What does not change during a call: the settings, the clock, the device and the buses. -/
structure Inquiry where
  g : Globals
  markers : Markers
  clock : Nat → Int
  sn : SerialNumber
  /-- the couplers on the path to the device -/
  bp : List Ds2409Hub
  headPort : List (List Channel)
  distinct : (headPort.flatten.map Channel.index).Nodup
  /-- whether a thread can be created for a port -/
  portThread : Nat → Bool
  /-- whether a thread can be created for a channel -/
  channelThread : BitVec 32 → Bool

/-- The cache and `pn->known_bus`, and the number of events so far. -/
structure Located where
  trees : Trees
  tick : Nat := 0
  knownBus : Option (BitVec 32) := none

/-- The number that `Cache_Get_Device` copies. -/
def ofIndexBytes (data : Bytes) : BitVec 32 := ofBe32 data.reverse

theorem ofIndexBytes_indexBytes (index : BitVec 32) : ofIndexBytes (indexBytes index) = index := by
  have h := ofBe32_be32_append index []
  rwa [List.append_nil] at h

section

variable (q : Inquiry)

/-- `find_connection_in` -/
def Inquiry.findConnectionIn (busNumber : BitVec 32) : Option Channel :=
  q.headPort.flatten.find? fun c => c.index = busNumber

/-- `SetKnownBus` -/
def Inquiry.setKnownBus (busNumber : BitVec 32) (s : Located) : Located :=
  match q.findConnectionIn busNumber with
  | none => s
  | some c => { s with knownBus := some c.index }

/-! ## Asking one bus -/

/-- `DirblobSearch` in the serial numbers of a cached directory. -/
def listed (sn : SerialNumber) (snlist : Bytes) : Bool :=
  (List.range (snlist.length / 8)).any fun i => (snlist.drop (8 * i)).take 8 = sn.bytes

def Inquiry.directory (c : Channel) : DirectoryName := ⟨q.sn, q.bp, c.index, false⟩

/-- `PresenceFromDirblob` -/
def Inquiry.presenceFromDirblob (c : Channel) (now : Int) (trees : Trees) : Bool :=
  match cacheGetDir q.g q.markers now (q.directory c) trees with
  | some snlist => listed q.sn snlist
  | none => c.devices.any fun sn => sn = q.sn

/-- The question of `CheckThisConnection`. -/
def Inquiry.ask (c : Channel) (now : Int) (trees : Trees) : Bool :=
  if ¬ c.connected then false
  else match c.asking with
    | .server => c.devices.any fun sn => sn = q.sn
    | .sham => false
    | .fromDirblob => q.presenceFromDirblob c now trees
    | .verify => c.devices.any fun sn => sn = q.sn

/-- `Cache_Add_Device`, with the clock from event `tick` on -/
def Inquiry.addDevice (index : BitVec 32) (tick : Nat) (trees : Trees) : Trees :=
  (cacheAddDevice q.g q.markers (q.clock tick) (q.clock (tick + 1)) (q.clock (tick + 2))
    (indexBytes index) q.sn trees).2

/-- `CheckThisConnection`, without other threads; none is `INDEX_BAD`. -/
def Inquiry.checkThisConnection (busNr : BitVec 32) (s : Located) : Option (BitVec 32) × Located :=
  match q.findConnectionIn busNr with
  | none => (none, { s with tick := s.tick + 1 })
  | some c =>
    if q.ask c (q.clock s.tick) s.trees then
      (some c.index, { s with trees := q.addDevice c.index (s.tick + 1) s.trees, tick :=
        s.tick + 4 })
    else (none, { s with tick := s.tick + 1 })

/-! ## Asking all buses -/

/-- How far a thread is in `CheckThisConnection`. -/
inductive Stage where
  | asking | adding | done (found : Bool)
deriving DecidableEq, Repr

/-- The threads, each with the channel it asks, and what they share. -/
structure Turns where
  trees : Trees
  tick : Nat
  threads : List (Channel × Stage)

/-- One turn of a thread. -/
def Inquiry.turn (t : Turns) (n : Nat) : Turns :=
  match t.threads[n]? with
  | some (c, .asking) =>
    let stage : Stage := if q.ask c (q.clock t.tick) t.trees then .adding else .done false
    { t with threads := t.threads.set n (c, stage), tick := t.tick + 1 }
  | some (c, .adding) =>
    { trees := q.addDevice c.index t.tick t.trees
      tick := t.tick + 3
      threads := t.threads.set n (c, .done true) }
  | _ => t

/-- The turns of a schedule, and two more for each thread that is not done. -/
def Inquiry.turns (schedule : List Nat) (t : Turns) : Turns :=
  let t := schedule.foldl q.turn t
  ((List.range t.threads.length).flatMap fun n => [n, n]).foldl q.turn t

/-- The channels that `CheckPresence_callback_conn` starts a thread for, with the first. -/
def Inquiry.channelsAsked : List Channel → List Channel
  | [] => []
  | [c] => [c]
  | c :: c' :: rest => c :: if q.channelThread c'.index then channelsAsked (c' :: rest) else []

/-- The channels of the ports that `CheckPresence_callback_port` starts a thread for, from port
number `n` on. -/
def Inquiry.portsAsked (n : Nat) : List (List Channel) → List Channel
  | [] => []
  | [port] => q.channelsAsked port
  | port :: port' :: rest =>
    q.channelsAsked port ++ if q.portThread (n + 1) then portsAsked (n + 1) (port' :: rest) else []

/-- `CheckPresence_callback_conn`; `found` says which buses have answered. -/
def Inquiry.callbackConn (found : BitVec 32 → Bool) : List Channel → Option (BitVec 32)
  | [] => none
  | [c] => if found c.index then some c.index else none
  | c :: c' :: rest =>
    let busNr := if found c.index then some c.index else none
    if q.channelThread c'.index then (callbackConn found (c' :: rest)).or busNr else busNr

/-- `CheckPresence_callback_port` -/
def Inquiry.callbackPort (found : BitVec 32 → Bool) (n : Nat) :
    List (List Channel) → Option (BitVec 32)
  | [] => none
  | [port] => q.callbackConn found port
  | port :: port' :: rest =>
    let busNr := q.callbackConn found port
    if q.portThread (n + 1) then (callbackPort found (n + 1) (port' :: rest)).or busNr else busNr

/-- The channels that are asked. -/
def Inquiry.asked : List Channel := q.portsAsked 0 q.headPort

/-- What the threads have found out. -/
def Turns.found (t : Turns) (index : BitVec 32) : Bool :=
  t.threads.any fun thread => thread.1.index = index && thread.2 = .done true

/-- `CheckPresence_low` -/
def Inquiry.checkPresenceLow (schedule : List Nat) (s : Located) : Option (BitVec 32) × Located :=
  let t := q.turns schedule ⟨s.trees, s.tick, q.asked.map fun c => (c, .asking)⟩
  (q.callbackPort t.found 0 q.headPort, { s with trees := t.trees, tick := t.tick })

/-! ## `ReCheckPresence` -/

/-- `CheckPresence` -/
def Inquiry.checkPresence (schedule : List Nat) (s : Located) : Option (BitVec 32) × Located :=
  match s.knownBus with
  | some index => (some index, s)
  | none =>
    match cacheGetDevice q.g q.markers (q.clock s.tick) q.sn s.trees with
    | some data => (some (ofIndexBytes data),
        q.setKnownBus (ofIndexBytes data) { s with tick := s.tick + 1 })
    | none =>
      let (busNr, s) := q.checkPresenceLow schedule { s with tick := s.tick + 1 }
      match busNr with
      | some index =>
        let s := q.setKnownBus index s
        (some index, { s with trees := q.addDevice index s.tick s.trees, tick := s.tick + 3 })
      | none => (none, { s with knownBus := none })

/-- The end of `ReCheckPresence`: forget, and look everywhere. -/
def Inquiry.lookAgain (schedule : List Nat) (s : Located) : Option (BitVec 32) × Located :=
  q.checkPresence schedule { s with
    knownBus := none
    trees := cacheDelDevice q.g q.markers (q.clock s.tick) q.sn s.trees
    tick := s.tick + 1 }

/-- The middle of `ReCheckPresence`: the bus that the cache remembers. -/
def Inquiry.tryCached (schedule : List Nat) (s : Located) : Option (BitVec 32) × Located :=
  match cacheGetDevice q.g q.markers (q.clock s.tick) q.sn s.trees with
  | none => q.lookAgain schedule { s with tick := s.tick + 2 }
  | some data =>
    let (busNr, s) := q.checkThisConnection (ofIndexBytes data) { s with tick := s.tick + 1 }
    match busNr with
    | some _ => (some (ofIndexBytes data), q.setKnownBus (ofIndexBytes data) s)
    | none => q.lookAgain schedule s

/-- `ReCheckPresence` of a device in a real directory. -/
def Inquiry.reCheckPresence (schedule : List Nat) (s : Located) : Option (BitVec 32) × Located :=
  match s.knownBus with
  | none => q.tryCached schedule { s with tick := s.tick + 1 }
  | some index =>
    let (busNr, s) := q.checkThisConnection index s
    match busNr with
    | some _ => (some index, s)
    | none => q.tryCached schedule s

/-! ## What is right -/

/-- The device answers on the bus when it is asked. -/
def Inquiry.answers (c : Channel) : Bool :=
  c.connected && c.asking ≠ .sham && c.devices.any fun sn => sn = q.sn

/-- The device answers on the bus with this number. -/
def Inquiry.AnswersOn (index : BitVec 32) : Prop :=
  ∃ c ∈ q.headPort.flatten, c.index = index ∧ q.answers c = true

/-- The outcome of a call is right. -/
structure Inquiry.Right (res : Option (BitVec 32) × Located) : Prop where
  answered : ∀ index, res.1 = some index → q.AnswersOn index
  unanswered : res.1 = none → ∀ c ∈ q.headPort.flatten, q.answers c = false
  knownBus : res.2.knownBus = res.1
  cached : ∀ now data, q.clock res.2.tick ≤ now →
    cacheGetDevice q.g q.markers now q.sn res.2.trees = some data → res.1 = some (ofIndexBytes data)

/-! ## When it is right

A bus can say that it has the device although the device does not answer, or the other way round:
when a cached directory is asked in its place. The conditions are about the state before each step
of the call, and only about the steps that it gets to.
-/

/-- The bus with this number says that it has the device. -/
def Inquiry.says (index : BitVec 32) (now : Int) (trees : Trees) : Bool :=
  (q.findConnectionIn index).any fun c => q.ask c now trees

/-- The trees, flipped if it is time for it. -/
def Inquiry.flipped (tick : Nat) (cache : CacheData) : CacheData :=
  if cache.timeToKill < q.clock (tick + 1) then flipTree (q.clock (tick + 2)) cache else cache

/-- `Cache_Add_Device` is not refused. A serial number with family 0 is not cached. -/
def Inquiry.Takes (tick : Nat) (trees : Trees) : Prop :=
  q.sn.family ≠ 0 ∧ (q.g.cacheSize = 0 ∨
    (q.flipped tick trees.temporary).oldRamSize + (q.flipped tick trees.temporary).newRamSize
      ≤ q.g.cacheSize)

/-- What it leaves when it is refused. -/
def Inquiry.refused (tick : Nat) (trees : Trees) : Trees :=
  if q.sn.family = 0 then trees else { trees with temporary := q.flipped tick trees.temporary }

/-- The addition of a bus is not refused, or nothing else can be found afterwards. -/
def Inquiry.Settles (index : BitVec 32) (tick : Nat) (trees : Trees) : Prop :=
  q.Takes tick trees ∨ ∀ now data, q.clock (tick + 3) ≤ now →
    cacheGetDevice q.g q.markers now q.sn (q.refused tick trees) = some data →
    ofIndexBytes data = index

/-- The known bus says that it has the device. -/
def Inquiry.KnownSays (s : Located) : Prop :=
  ∃ index, s.knownBus = some index ∧ q.says index (q.clock s.tick) s.trees = true

/-- The bus that the cache remembers says so. -/
def Inquiry.CachedSays (s : Located) : Prop :=
  ∃ data, cacheGetDevice q.g q.markers (q.clock (s.tick + 1)) q.sn s.trees = some data ∧
    q.says (ofIndexBytes data) (q.clock (s.tick + 2)) s.trees = true

/-- The deletion reaches the entry, if it could still be found afterwards. -/
def Inquiry.Forgets (s : Located) : Prop :=
  ∀ data, cacheGetDevice q.g q.markers (q.clock (s.tick + 4)) q.sn s.trees = some data →
    (s.trees.temporary.temporaryTreeNew.lookup (deviceKey q.markers q.sn)).isSome = true ∨
      s.trees.temporary.timeToKill > q.clock (s.tick + 3)

/-- The threads at their start, after the deletion. -/
def Inquiry.started (s : Located) : Turns :=
  ⟨cacheDelDevice q.g q.markers (q.clock (s.tick + 3)) q.sn s.trees, s.tick + 5,
    q.asked.map fun c => (c, .asking)⟩

/-- The threads at their end. -/
def Inquiry.ended (schedule : List Nat) (s : Located) : Turns := q.turns schedule (q.started s)

/-- The last of the buses that were asked and said that they have the device. -/
def Inquiry.lastFound (schedule : List Nat) (s : Located) : Option Channel :=
  (q.asked.filter fun c => (q.ended schedule s).found c.index).getLast?

/-- All buses that threads were created for are asked, and the device answers on the last one that
says so, or nowhere at all. -/
def Inquiry.FoundAnew (schedule : List Nat) (s : Located) : Prop :=
  match q.lastFound schedule s with
  | some c => q.answers c = true ∧
    q.Settles c.index (q.ended schedule s).tick (q.ended schedule s).trees
  | none => ∀ c ∈ q.headPort.flatten, q.answers c = false

/-- What is left to do after the known bus and the cached one did not say so. -/
def Inquiry.SoundAgain (schedule : List Nat) (s : Located) : Prop :=
  (¬ q.Forgets s ∧ ∃ data,
    cacheGetDevice q.g q.markers (q.clock (s.tick + 4)) q.sn s.trees = some data ∧
    q.AnswersOn (ofIndexBytes data)) ∨
  (q.Forgets s ∧ q.FoundAnew schedule s)

/-- What is left to do after the known bus did not say so. -/
def Inquiry.SoundCached (schedule : List Nat) (s : Located) : Prop :=
  (∃ data, cacheGetDevice q.g q.markers (q.clock (s.tick + 1)) q.sn s.trees = some data ∧
    q.says (ofIndexBytes data) (q.clock (s.tick + 2)) s.trees = true ∧
    q.AnswersOn (ofIndexBytes data) ∧ q.Settles (ofIndexBytes data) (s.tick + 3) s.trees) ∨
  (¬ q.CachedSays s ∧ q.SoundAgain schedule s)

/-- The first bus that says that it has the device has it, and can be cached. -/
def Inquiry.Sound (schedule : List Nat) (s : Located) : Prop :=
  (∃ index, s.knownBus = some index ∧ q.says index (q.clock s.tick) s.trees = true ∧
    q.AnswersOn index ∧ q.Settles index (s.tick + 1) s.trees) ∨
  (¬ q.KnownSays s ∧ q.SoundCached schedule s)

end

/-! ## The cache -/

section

variable {q : Inquiry} {trees : Trees} {start now t : Int} {tick n : Nat} {index : BitVec 32}
  {data : Bytes} {c : Channel}

/-- What can be found now could be found before. -/
theorem cacheGetDevice_earlier
    (h : cacheGetDevice q.g q.markers now q.sn trees = some data) (ht : t ≤ now) :
    cacheGetDevice q.g q.markers t q.sn trees = some data := by
  unfold cacheGetDevice at h ⊢
  dsimp only at h ⊢
  split_ifs at h ⊢ with hduration
  have hfind : ∀ tn, findForGet now (timeOut q.g.timeouts .presence) (deviceKey q.markers q.sn)
        trees.temporary = some tn →
      findForGet t (timeOut q.g.timeouts .presence) (deviceKey q.markers q.sn) trees.temporary
        = some tn := by
    intro tn hfind
    unfold findForGet at hfind ⊢
    split at hfind
    · exact hfind
    · split_ifs at hfind with hretired
      rw [if_pos (by omega)]
      exact hfind
  unfold cacheGetCommon at h ⊢
  cases hnow : findForGet now (timeOut q.g.timeouts .presence) (deviceKey q.markers q.sn)
      trees.temporary with
  | none =>
    rw [hnow] at h
    cases h
  | some tn =>
    rw [hnow] at h
    rw [hfind tn hnow]
    dsimp only at h ⊢
    split_ifs at h with hlive hsize
    · rw [if_pos (by omega), if_pos hsize]
      exact h
    · cases h
    · cases h

/-- `Settles` says what it should. -/
theorem settles_iff : q.Settles index tick trees ↔ ∀ now data, q.clock (tick + 3) ≤ now →
    cacheGetDevice q.g q.markers now q.sn (q.addDevice index tick trees) = some data →
    ofIndexBytes data = index := by
  by_cases hduration : timeOut q.g.timeouts .presence ≤ 0
  · have hnone : ∀ now trees', cacheGetDevice q.g q.markers now q.sn trees' = none := by
      intro now trees'
      rw [cacheGetDevice, if_pos hduration]
    simp [Inquiry.Settles, hnone]
  by_cases hfamily : q.sn.family = 0
  · have hadd : q.addDevice index tick trees = trees := by
      simp only [Inquiry.addDevice, cacheAddDevice, if_neg hduration, if_pos hfamily]
    simp [Inquiry.Settles, Inquiry.Takes, Inquiry.refused, hfamily, hadd]
  by_cases htakes : q.Takes tick trees
  · refine iff_of_true (.inl htakes) fun now data _ hget => ?_
    have hroom := htakes.2
    have hnew : (q.addDevice index tick trees).temporary.temporaryTreeNew.lookup
        (deviceKey q.markers q.sn) = some ⟨deviceKey q.markers q.sn,
          timeOut q.g.timeouts .presence + q.clock tick, indexBytes index⟩ := by
      simp only [Inquiry.addDevice, cacheAddDevice, if_neg hduration, if_neg hfamily,
        Trees.addCommon, cacheAddCommon]
      unfold Inquiry.flipped at hroom
      rw [if_neg (by omega)]
      exact AList.lookup_insert _
    unfold cacheGetDevice at hget
    dsimp only at hget
    rw [if_neg hduration] at hget
    obtain ⟨tn, hfind, -, hdata⟩ := Property.findForGet_of_getStat hget
    rw [findForGet, hnew] at hfind
    rw [← hdata, ← Option.some.inj hfind]
    exact ofIndexBytes_indexBytes index
  · have hrefused : q.addDevice index tick trees = q.refused tick trees := by
      have hroom : q.g.cacheSize ≠ 0 ∧ (q.flipped tick trees.temporary).oldRamSize +
          (q.flipped tick trees.temporary).newRamSize > q.g.cacheSize := by
        by_contra hroom
        exact htakes ⟨hfamily, by omega⟩
      unfold Inquiry.flipped at hroom
      simp only [Inquiry.addDevice, cacheAddDevice, if_neg hduration, if_neg hfamily,
        Trees.addCommon, cacheAddCommon, Inquiry.refused, Inquiry.flipped]
      rw [if_pos hroom]
    rw [Inquiry.Settles, hrefused]
    exact or_iff_right htakes

/-- A deletion that reaches the entry. -/
theorem cacheGetDevice_cacheDelDevice (ht : t ≤ now)
    (hreach : (trees.temporary.temporaryTreeNew.lookup (deviceKey q.markers q.sn)).isSome = true ∨
      trees.temporary.timeToKill > t) :
    cacheGetDevice q.g q.markers now q.sn (cacheDelDevice q.g q.markers t q.sn trees) = none := by
  rw [Option.eq_none_iff_forall_ne_some]
  intro data hget
  unfold cacheGetDevice cacheDelDevice at hget
  dsimp only at hget
  split_ifs at hget with hduration
  obtain ⟨tn, hfind, hlive, -⟩ := Property.findForGet_of_getStat hget
  have hexpires : tn.expires = t - 1 :=
    expires_of_cacheDelCommon hreach (entry_of_findForGet hfind)
  omega

/-- A deletion that does not. -/
theorem cacheDelDevice_of_not_reached
    (hreach : ¬
      ((trees.temporary.temporaryTreeNew.lookup (deviceKey q.markers q.sn)).isSome = true ∨
        trees.temporary.timeToKill > t)) :
    cacheDelDevice q.g q.markers t q.sn trees = trees := by
  obtain ⟨hnew, hold⟩ := not_or.mp hreach
  rw [Bool.not_eq_true, Option.isSome_eq_false_iff, Option.isNone_iff_eq_none] at hnew
  unfold cacheDelDevice
  split_ifs
  · rfl
  · unfold Trees.delCommon cacheDelCommon
    rw [hnew]
    simp only [if_neg hold]

variable {s : Located}

/-- Once it is forgotten, the device is not found any more. -/
theorem cacheGetDevice_of_forgets (hclock : Monotone q.clock) (h : q.Forgets s)
    (hnow : q.clock (s.tick + 4) ≤ now) :
    cacheGetDevice q.g q.markers now q.sn (q.started s).trees = none := by
  have hle : q.clock (s.tick + 3) ≤ now := (hclock (Nat.le_succ _)).trans hnow
  by_cases hreach :
      (s.trees.temporary.temporaryTreeNew.lookup (deviceKey q.markers q.sn)).isSome = true ∨
        s.trees.temporary.timeToKill > q.clock (s.tick + 3)
  · exact cacheGetDevice_cacheDelDevice hle hreach
  · rw [Option.eq_none_iff_forall_ne_some]
    intro data hget
    rw [Inquiry.started, cacheDelDevice_of_not_reached hreach] at hget
    exact hreach (h data (cacheGetDevice_earlier hget hnow))

/-- Otherwise it is where it was. -/
theorem cacheGetDevice_of_not_forgets (h : ¬ q.Forgets s) :
    (q.started s).trees = s.trees ∧ ∃ data,
      cacheGetDevice q.g q.markers (q.clock (s.tick + 4)) q.sn s.trees = some data := by
  unfold Inquiry.Forgets at h
  push Not at h
  obtain ⟨data, hget, hnew, hold⟩ := h
  exact ⟨cacheDelDevice_of_not_reached (not_or.mpr ⟨hnew, not_lt.mpr hold⟩), data, hget⟩

/-! ## One bus -/

theorem mem_of_findConnectionIn (h : q.findConnectionIn index = some c) :
    c ∈ q.headPort.flatten ∧ c.index = index :=
  ⟨List.mem_of_find?_eq_some h, by simpa using List.find?_some h⟩

/-- The numbers are different. -/
theorem eq_of_index_eq {c' : Channel} (hc : c ∈ q.headPort.flatten) (hc' : c' ∈ q.headPort.flatten)
    (h : c.index = c'.index) : c = c' :=
  List.inj_on_of_nodup_map q.distinct hc hc' h

/-- The bus with the number is the one that is found. -/
theorem answersOn_iff_of_findConnectionIn (h : q.findConnectionIn index = some c) :
    q.AnswersOn index ↔ q.answers c = true := by
  obtain ⟨hc, hindex⟩ := mem_of_findConnectionIn h
  constructor
  · rintro ⟨c', hc', hindex', hanswers⟩
    rwa [eq_of_index_eq hc hc' (hindex.trans hindex'.symm)]
  · exact fun hanswers => ⟨c, hc, hindex, hanswers⟩

theorem not_answersOn_of_findConnectionIn (h : q.findConnectionIn index = none) :
    ¬ q.AnswersOn index := by
  rintro ⟨c, hc, hindex, -⟩
  have hnot := List.find?_eq_none.mp h c hc
  simp [hindex] at hnot


theorem checkThisConnection_eq (q : Inquiry) (index : BitVec 32) (s : Located) :
    q.checkThisConnection index s = if q.says index (q.clock s.tick) s.trees
      then (some index, { s with
        trees := q.addDevice index (s.tick + 1) s.trees
        tick := s.tick + 4 })
      else (none, { s with tick := s.tick + 1 }) := by
  unfold Inquiry.checkThisConnection Inquiry.says
  cases hfind : q.findConnectionIn index with
  | none => rfl
  | some c =>
    obtain ⟨-, rfl⟩ := mem_of_findConnectionIn hfind
    rfl

/-- `SetKnownBus` only sets the known bus. -/
theorem setKnownBus_eq (index : BitVec 32) (s : Located) :
    ∃ knownBus, q.setKnownBus index s = { s with knownBus } ∧
      (q.AnswersOn index → knownBus = some index) := by
  unfold Inquiry.setKnownBus
  cases hfind : q.findConnectionIn index with
  | none => exact ⟨s.knownBus, rfl, fun hon => absurd hon (not_answersOn_of_findConnectionIn hfind)⟩
  | some c => exact ⟨some c.index, rfl, fun _ => congrArg some (mem_of_findConnectionIn hfind).2⟩

/-- A bus that is returned after it was added. -/
theorem right_addDevice_iff {tick' : Nat} (htick : tick' = tick + 3) {knownBus : Option (BitVec 32)}
    (hknown : q.AnswersOn index → knownBus = some index) :
    q.Right (some index, ⟨q.addDevice index tick trees, tick', knownBus⟩) ↔
      q.AnswersOn index ∧ q.Settles index tick trees := by
  subst htick
  rw [settles_iff]
  constructor
  · exact fun h => ⟨h.answered index rfl, fun now data hnow hget =>
      (Option.some.inj (h.cached now data hnow hget)).symm⟩
  · rintro ⟨hon, hsettles⟩
    refine ⟨?_, nofun, hknown hon, fun now data hnow hget => ?_⟩
    · rintro _ ⟨⟩
      exact hon
    · exact congrArg some (hsettles now data hnow hget).symm

/-! ## Which buses are asked -/

theorem channelsAsked_subset (channels : List Channel) : q.channelsAsked channels ⊆ channels := by
  induction channels using Inquiry.channelsAsked.induct with
  | case1 => exact List.Subset.refl _
  | case2 c => exact List.Subset.refl _
  | case3 c c' rest ih =>
    rw [Inquiry.channelsAsked]
    refine List.cons_subset_cons c ?_
    split
    · exact ih
    · exact List.nil_subset _

theorem portsAsked_subset (n : Nat) (ports : List (List Channel)) :
    q.portsAsked n ports ⊆ ports.flatten := by
  induction n, ports using Inquiry.portsAsked.induct with
  | case1 n => exact List.Subset.refl _
  | case2 n port =>
    rw [Inquiry.portsAsked, List.flatten_singleton]
    exact channelsAsked_subset port
  | case3 n port port' rest ih =>
    rw [Inquiry.portsAsked, List.flatten_cons]
    refine List.append_subset.mpr
      ⟨List.subset_append_of_subset_left _ (channelsAsked_subset port), ?_⟩
    split
    · exact List.subset_append_of_subset_right _ ih
    · exact List.nil_subset _

theorem asked_subset (q : Inquiry) : q.asked ⊆ q.headPort.flatten := portsAsked_subset 0 q.headPort


/-- The last channel that was found counts. -/
theorem callbackConn_eq (q : Inquiry) (found : BitVec 32 → Bool) (channels : List Channel) :
    q.callbackConn found channels
      = ((q.channelsAsked channels).filter fun c => found c.index).getLast?.map Channel.index := by
  induction channels using Inquiry.channelsAsked.induct with
  | case1 => rfl
  | case2 c =>
    rw [Inquiry.channelsAsked, Inquiry.callbackConn]
    cases hfound : found c.index <;> simp [hfound]
  | case3 c c' rest ih =>
    rw [Inquiry.channelsAsked, Inquiry.callbackConn]
    cases q.channelThread c'.index with
    | true =>
      simp only [if_true]
      rw [ih]
      cases hfound : found c.index <;> simp [hfound, List.getLast?_cons]
    | false => cases hfound : found c.index <;> simp [hfound]

theorem callbackPort_eq (q : Inquiry) (found : BitVec 32 → Bool) (n : Nat)
    (ports : List (List Channel)) :
    q.callbackPort found n ports
      = ((q.portsAsked n ports).filter fun c => found c.index).getLast?.map Channel.index := by
  induction n, ports using Inquiry.portsAsked.induct with
  | case1 n => rfl
  | case2 n port => exact callbackConn_eq q found port
  | case3 n port port' rest ih =>
    rw [Inquiry.portsAsked, Inquiry.callbackPort]
    cases q.portThread (n + 1) with
    | true =>
      simp only [if_true]
      rw [ih, callbackConn_eq, List.filter_append, List.getLast?_append, Option.map_or]
    | false => simp [callbackConn_eq]

/-! ## Turns -/

/-- The channel of a thread stays. -/
theorem map_fst_set {threads : List (Channel × Stage)} {stage stage' : Stage}
    (hn : threads[n]? = some (c, stage)) :
    (threads.set n (c, stage')).map Prod.fst = threads.map Prod.fst := by
  obtain ⟨hlt, hget⟩ := List.getElem?_eq_some_iff.mp hn
  rw [List.map_set]
  have hself : (threads.map Prod.fst)[n]? = some c := by
    rw [List.getElem?_map, hn]
    rfl
  obtain ⟨hlt', hget'⟩ := List.getElem?_eq_some_iff.mp hself
  conv_lhs => rw [← hget']
  exact List.set_getElem_self hlt'


variable {turns : Turns}

theorem map_fst_turn (turns : Turns) (n : Nat) :
    (q.turn turns n).threads.map Prod.fst = turns.threads.map Prod.fst := by
  unfold Inquiry.turn
  split
  · next hn => exact map_fst_set hn
  · next hn => exact map_fst_set hn
  · rfl

theorem map_fst_foldl_turn (turns : Turns) (schedule : List Nat) :
    (schedule.foldl q.turn turns).threads.map Prod.fst = turns.threads.map Prod.fst := by
  induction schedule generalizing turns with
  | nil => rfl
  | cons n rest ih => exact (ih _).trans (map_fst_turn turns n)

/-- Something was found out, or the trees are as they were. -/
def Untouched (trees : Trees) (t : Turns) : Prop :=
  t.trees = trees ∨ ∃ thread ∈ t.threads, thread.2 = .done true

theorem Untouched.turn (h : Untouched trees turns) (n : Nat) :
    Untouched trees (q.turn turns n) := by
  unfold Inquiry.turn
  split
  · next c hn =>
    refine h.imp_right ?_
    rintro ⟨thread, hthread, hdone⟩
    obtain ⟨m, hm⟩ := List.getElem?_of_mem hthread
    have hne : n ≠ m := by
      rintro rfl
      rw [hn] at hm
      cases hm
      cases hdone
    exact ⟨thread, List.mem_of_getElem? ((List.getElem?_set_ne hne).trans hm), hdone⟩
  · next c hn =>
    obtain ⟨hlt, -⟩ := List.getElem?_eq_some_iff.mp hn
    exact .inr ⟨(c, .done true), List.mem_of_getElem? (List.getElem?_set_self hlt), rfl⟩
  · exact h

theorem Untouched.foldl (h : Untouched trees turns) (schedule : List Nat) :
    Untouched trees (schedule.foldl q.turn turns) := by
  induction schedule generalizing turns with
  | nil => exact h
  | cons n rest ih => exact ih (h.turn n)

/-- The clock goes on. -/
theorem tick_le_turn (turns : Turns) (n : Nat) : turns.tick ≤ (q.turn turns n).tick := by
  unfold Inquiry.turn
  split
  · exact Nat.le_succ _
  · exact Nat.le_add_right _ 3
  · exact le_rfl

theorem tick_le_foldl_turn (turns : Turns) (schedule : List Nat) :
    turns.tick ≤ (schedule.foldl q.turn turns).tick := by
  induction schedule generalizing turns with
  | nil => exact le_rfl
  | cons n rest ih => exact (tick_le_turn turns n).trans (ih _)

/-! ## The end of the turns -/

/-- Turns that a thread needs at most. -/
def Stage.left : Stage → Nat
  | .asking => 2
  | .adding => 1
  | .done _ => 0

/-- The turns that the thread with this number needs. -/
def Turns.left (t : Turns) (n : Nat) : Nat := (t.threads[n]?.map fun thread => thread.2.left).getD 0

theorem left_le_two (t : Turns) (n : Nat) : t.left n ≤ 2 := by
  unfold Turns.left
  cases t.threads[n]? with
  | none => exact Nat.zero_le 2
  | some thread =>
    obtain ⟨c, stage⟩ := thread
    cases stage with
    | asking => exact le_rfl
    | adding => exact Nat.le_succ 1
    | done found => exact Nat.zero_le 2

theorem left_turn_self (turns : Turns) (n : Nat) : (q.turn turns n).left n ≤ turns.left n - 1 := by
  unfold Inquiry.turn Turns.left
  cases hn : turns.threads[n]? with
  | none => simp [hn]
  | some thread =>
    obtain ⟨hlt, -⟩ := List.getElem?_eq_some_iff.mp hn
    obtain ⟨c, stage⟩ := thread
    cases stage with
    | asking =>
      simp only [List.getElem?_set_self hlt, Option.map_some, Option.getD_some]
      split
      · exact le_rfl
      · exact Nat.zero_le _
    | adding =>
      simp only [List.getElem?_set_self hlt, Option.map_some, Option.getD_some]
      exact le_rfl
    | done found => simp [hn, Stage.left]

theorem left_turn_of_ne {m : Nat} (turns : Turns) (h : m ≠ n) :
    (q.turn turns m).left n = turns.left n := by
  unfold Inquiry.turn Turns.left
  split
  · simp only [List.getElem?_set_ne h]
  · simp only [List.getElem?_set_ne h]
  · rfl

/-- Each turn of a thread brings it closer to its end. -/
theorem left_foldl_turn (turns : Turns) (schedule : List Nat) (n : Nat) :
    (schedule.foldl q.turn turns).left n ≤ turns.left n - schedule.count n := by
  induction schedule generalizing turns with
  | nil => exact le_rfl
  | cons m rest ih =>
    have hrest := ih (q.turn turns m)
    rw [List.foldl_cons, List.count_cons]
    by_cases hm : m = n
    · subst hm
      have hself := @left_turn_self q turns m
      rw [if_pos (beq_self_eq_true m)]
      omega
    · rw [left_turn_of_ne turns hm] at hrest
      rw [if_neg (by simpa using hm)]
      omega

theorem two_le_count_twice {m : Nat} (h : n < m) :
    2 ≤ ((List.range m).flatMap fun n => [n, n]).count n := by
  induction m with
  | zero => omega
  | succ m ih =>
    rw [List.range_succ, List.flatMap_append, List.count_append]
    by_cases hn : n < m
    · have := ih hn
      omega
    · have hm : m = n := by omega
      rw [hm]
      simp


/-- In the end all threads are done. -/
theorem turns_done (q : Inquiry) (turns : Turns) (schedule : List Nat) :
    ∀ thread ∈ (q.turns schedule turns).threads, ∃ found, thread.2 = .done found := by
  intro thread hthread
  obtain ⟨n, hn⟩ := List.getElem?_of_mem hthread
  have hlt : n < (schedule.foldl q.turn turns).threads.length := by
    have hlen := congrArg List.length (map_fst_foldl_turn (q := q) (schedule.foldl q.turn turns)
      ((List.range (schedule.foldl q.turn turns).threads.length).flatMap fun n => [n, n]))
    rw [List.length_map, List.length_map] at hlen
    rw [← hlen]
    exact (List.getElem?_eq_some_iff.mp hn).1
  have hleft : (q.turns schedule turns).left n ≤ _ := left_foldl_turn _ _ n
  have hcount := two_le_count_twice hlt
  have hbound := left_le_two (schedule.foldl q.turn turns) n
  have hself : (q.turns schedule turns).left n = thread.2.left := by
    unfold Turns.left
    rw [hn]
    rfl
  cases hstage : thread.2 with
  | done found => exact ⟨found, rfl⟩
  | asking =>
    rw [hstage, Stage.left] at hself
    omega
  | adding =>
    rw [hstage, Stage.left] at hself
    omega

theorem map_fst_ended (q : Inquiry) (schedule : List Nat) (s : Located) :
    (q.ended schedule s).threads.map Prod.fst = q.asked := by
  have hstart : (q.started s).threads.map Prod.fst = q.asked := by
    rw [Inquiry.started, List.map_map]
    exact List.map_id _
  exact (map_fst_foldl_turn _ _).trans ((map_fst_foldl_turn _ _).trans hstart)

/-- Where nothing was found, the trees are as they were. -/
theorem trees_ended {schedule : List Nat} (h : q.lastFound schedule s = none) :
    (q.ended schedule s).trees = (q.started s).trees := by
  have huntouched : Untouched (q.started s).trees (q.ended schedule s) :=
    Untouched.foldl (Untouched.foldl (.inl rfl) _) _
  refine huntouched.resolve_right ?_
  rintro ⟨thread, hthread, hdone⟩
  have hasked : thread.1 ∈ q.asked := by
    rw [← map_fst_ended q schedule s]
    exact List.mem_map_of_mem hthread
  have hfound : (q.ended schedule s).found thread.1.index = true := by
    rw [Turns.found, List.any_eq_true]
    exact ⟨thread, hthread, by simp [hdone]⟩
  rw [Inquiry.lastFound, List.getLast?_eq_none_iff, List.filter_eq_nil_iff] at h
  exact h _ hasked hfound

/-! ## The whole call -/

/-- `CheckPresence_low` returns the last bus that was found. -/
theorem checkPresenceLow_eq (schedule : List Nat) (s : Located) (knownBus : Option (BitVec 32)) :
    q.checkPresenceLow schedule ⟨(q.started s).trees, s.tick + 5, knownBus⟩
      = ((q.lastFound schedule s).map Channel.index,
        ⟨(q.ended schedule s).trees, (q.ended schedule s).tick, knownBus⟩) := by
  unfold Inquiry.checkPresenceLow
  dsimp only
  rw [callbackPort_eq]
  rfl

/-- After both places were forgotten. -/
theorem right_lookAgain_iff (hclock : Monotone q.clock) (s : Located) (schedule : List Nat)
    (knownBus : Option (BitVec 32)) :
    q.Right (q.lookAgain schedule ⟨s.trees, s.tick + 3, knownBus⟩) ↔ q.SoundAgain schedule s := by
  have hlook : q.lookAgain schedule ⟨s.trees, s.tick + 3, knownBus⟩
      = q.checkPresence schedule ⟨(q.started s).trees, s.tick + 4, none⟩ := rfl
  rw [hlook, Inquiry.checkPresence, Inquiry.SoundAgain]
  dsimp only
  by_cases hforgets : q.Forgets s
  · have hgone := fun now => @cacheGetDevice_of_forgets q now s hclock hforgets
    rw [hgone _ le_rfl]
    dsimp only
    rw [checkPresenceLow_eq]
    simp only [hforgets, not_true, false_and, true_and, false_or, Inquiry.FoundAnew]
    have hlater : q.clock (s.tick + 4) ≤ q.clock (q.ended schedule s).tick :=
      hclock ((Nat.le_succ _).trans ((tick_le_foldl_turn (q.started s) schedule).trans
        (tick_le_foldl_turn _ _)))
    cases hlast : q.lastFound schedule s with
    | none =>
      rw [Option.map_none]
      dsimp only
      refine ⟨fun h => h.unanswered rfl, fun h =>
        ⟨nofun, fun _ => h, rfl, fun now data hnow hget => ?_⟩⟩
      dsimp only at hnow hget
      rw [trees_ended hlast, hgone _ (hlater.trans hnow)] at hget
      cases hget
    | some c =>
      have hc : c ∈ q.headPort.flatten := by
        have hmem := List.mem_of_getLast? hlast
        exact asked_subset q (List.mem_of_mem_filter hmem)
      have hanswers : q.AnswersOn c.index ↔ q.answers c = true := by
        refine ⟨?_, fun h => ⟨c, hc, rfl, h⟩⟩
        rintro ⟨c', hc', hindex, hanswers⟩
        rwa [eq_of_index_eq hc hc' hindex.symm]
      obtain ⟨known, hset, hknown⟩ := setKnownBus_eq (q := q) c.index
        ⟨(q.ended schedule s).trees, (q.ended schedule s).tick, none⟩
      rw [Option.map_some]
      dsimp only
      rw [hset, ← hanswers]
      exact right_addDevice_iff rfl hknown
  · obtain ⟨htrees, data, hget⟩ := cacheGetDevice_of_not_forgets hforgets
    rw [htrees, hget]
    simp only [hforgets, not_false_eq_true, true_and, false_and, or_false]
    constructor
    · exact fun h => ⟨data, rfl, h.answered _ rfl⟩
    · rintro ⟨_, ⟨⟩, hon⟩
      obtain ⟨known, hset, hknown⟩ := setKnownBus_eq (q := q) (ofIndexBytes data)
        ⟨s.trees, s.tick + 4 + 1, none⟩
      rw [hset]
      refine ⟨?_, nofun, hknown hon, fun now data' hnow hget' => ?_⟩
      · rintro _ ⟨⟩
        exact hon
      · have hearlier := cacheGetDevice_earlier hget' ((hclock (Nat.le_succ _)).trans hnow)
        rw [hget] at hearlier
        cases hearlier
        rfl

/-- The bus that the cache remembers comes next. -/
theorem right_tryCached_iff (hclock : Monotone q.clock) (s : Located) (schedule : List Nat)
    (knownBus : Option (BitVec 32)) :
    q.Right (q.tryCached schedule ⟨s.trees, s.tick + 1, knownBus⟩) ↔ q.SoundCached schedule s := by
  rw [Inquiry.SoundCached, ← right_lookAgain_iff hclock s schedule knownBus]
  unfold Inquiry.tryCached Inquiry.CachedSays
  dsimp only
  cases hget : cacheGetDevice q.g q.markers (q.clock (s.tick + 1)) q.sn s.trees with
  | none => simp
  | some data =>
    dsimp only
    rw [checkThisConnection_eq]
    dsimp only
    cases hasks : q.says (ofIndexBytes data) (q.clock (s.tick + 2)) s.trees with
    | false => simp [hasks]
    | true =>
      obtain ⟨known, hset, hknown⟩ := setKnownBus_eq (q := q) (ofIndexBytes data)
        ⟨q.addDevice (ofIndexBytes data) (s.tick + 3) s.trees, s.tick + 6, knownBus⟩
      have hright : q.Right (some (ofIndexBytes data),
          ⟨q.addDevice (ofIndexBytes data) (s.tick + 3) s.trees, s.tick + 6, known⟩) ↔ _ :=
        right_addDevice_iff rfl hknown
      simp only [if_true, hasks, Option.some.injEq, exists_eq_left', true_and, not_true, false_and,
        or_false, ← hright, ← hset]

/-- **The location is checked.** With a clock that does not go back, a call is right if and only if
the first bus that says that it has the device has it and can be cached; or if no bus says so and
the device is nowhere. -/
theorem right_reCheckPresence_iff (q : Inquiry) (s : Located) (schedule : List Nat)
    (hclock : Monotone q.clock) :
    q.Right (q.reCheckPresence schedule s) ↔ q.Sound schedule s := by
  obtain ⟨trees, tick, knownBus⟩ := s
  have hcached := right_tryCached_iff hclock ⟨trees, tick, knownBus⟩ schedule knownBus
  rw [Inquiry.Sound, ← hcached]
  unfold Inquiry.reCheckPresence Inquiry.KnownSays
  cases knownBus with
  | none => simp
  | some index =>
    dsimp only
    rw [checkThisConnection_eq]
    dsimp only
    cases hasks : q.says index (q.clock tick) trees with
    | false => simp [hasks]
    | true =>
      have hright : q.Right (some index,
          ⟨q.addDevice index (tick + 1) trees, tick + 4, some index⟩) ↔ _ :=
        right_addDevice_iff rfl fun _ => rfl
      simp only [if_true, Option.some.injEq, exists_eq_left', hasks, true_and, not_true, false_and,
        or_false]
      exact hright

end

/-! ## A cache that does its part

If the cached directories agree with the buses, there is room in the cache and the location can be
forgotten, then it only matters whether a bus is asked on which the device answers.
-/

section

variable (q : Inquiry)

/-- There is room for `n` more entries in the cache. -/
def Inquiry.Room (n : Nat) (trees : Trees) : Prop :=
  q.g.cacheSize = 0 ∨
    trees.temporary.oldRamSize + trees.temporary.newRamSize + sizeofPointer * n ≤ q.g.cacheSize

/-- The cached directories that are asked instead of a bus agree with it. -/
def Inquiry.Listings (start : Int) (trees : Trees) : Prop :=
  ∀ c ∈ q.headPort.flatten, c.asking = .fromDirblob → ∀ now snlist, start ≤ now →
    cacheGetDir q.g q.markers now (q.directory c) trees = some snlist →
    listed q.sn snlist = c.devices.any fun sn => sn = q.sn

/-- The cache does its part. -/
structure Inquiry.Reliable (s : Located) : Prop where
  clock : Monotone q.clock
  family : q.sn.family ≠ 0
  markers : q.markers.directoryMarker ≠ q.markers.deviceMarker
  listings : q.Listings (q.clock s.tick) s.trees
  forgets : q.Forgets s
  room : q.Room (q.asked.countP q.answers) s.trees

/-- A bus on which the device answers is asked, if there is one. -/
def Inquiry.Heard (s : Located) : Prop :=
  (∃ index, s.knownBus = some index ∧ q.AnswersOn index) ∨
  (∃ data, cacheGetDevice q.g q.markers (q.clock (s.tick + 1)) q.sn s.trees = some data ∧
    q.AnswersOn (ofIndexBytes data)) ∨
  (∃ c ∈ q.asked, q.answers c = true) ∨
  ∀ c ∈ q.headPort.flatten, q.answers c = false

end

section

variable {q : Inquiry} {trees : Trees} {start now t : Int} {tick n : Nat} {index : BitVec 32}
  {data : Bytes} {c : Channel} {s : Located} {turns : Turns}

theorem Inquiry.Room.mono {m : Nat} (h : q.Room n trees) (hle : m ≤ n) : q.Room m trees := by
  refine h.imp_right fun hsize => ?_
  have hmul := Nat.mul_le_mul_left sizeofPointer hle
  omega

/-- An addition is not refused, and needs room for one entry at most. -/
theorem cacheAddCommon_of_room {flipTime : Int} {tn : TreeNode} {cacheSize : Nat}
    {cache : CacheData} (h : cacheSize = 0 ∨ cache.oldRamSize + cache.newRamSize ≤ cacheSize) :
    (cacheAddCommon cacheSize now flipTime tn cache).2.temporaryTreeNew.lookup tn.tk = some tn ∧
    (cacheAddCommon cacheSize now flipTime tn cache).2.oldRamSize +
      (cacheAddCommon cacheSize now flipTime tn cache).2.newRamSize ≤
        cache.oldRamSize + cache.newRamSize + sizeofPointer := by
  have hbase : (if cache.timeToKill < now then flipTree flipTime cache else cache).oldRamSize +
      (if cache.timeToKill < now then flipTree flipTime cache else cache).newRamSize ≤
        cache.oldRamSize + cache.newRamSize := by
    split
    · show cache.newRamSize + 0 ≤ _
      omega
    · exact le_rfl
  unfold cacheAddCommon
  generalize (if cache.timeToKill < now then flipTree flipTime cache else cache) = base at hbase
  have hroom : ¬ (cacheSize ≠ 0 ∧ base.oldRamSize + base.newRamSize > cacheSize) := by
    rintro ⟨hne, hgt⟩
    rcases h with hzero | hle
    · exact hne hzero
    · omega
  simp only [if_neg hroom]
  refine ⟨AList.lookup_insert _, ?_⟩
  cases base.temporaryTreeNew.lookup tn.tk with
  | some _ =>
    show base.oldRamSize + (base.newRamSize + (sizeofPointer - sizeofPointer)) ≤ _
    omega
  | none =>
    show base.oldRamSize + (base.newRamSize + sizeofPointer) ≤ _
    omega

theorem Inquiry.Room.zero (h : q.Room n trees) : q.g.cacheSize = 0 ∨
    trees.temporary.oldRamSize + trees.temporary.newRamSize ≤ q.g.cacheSize :=
  h.imp_right fun hsize => by omega

theorem Inquiry.Room.addDevice (h : q.Room (n + 1) trees) (index : BitVec 32) (tick : Nat) :
    q.Room n (q.addDevice index tick trees) := by
  unfold Inquiry.addDevice cacheAddDevice
  dsimp only
  split_ifs with hduration hfamily
  · exact h.mono (Nat.le_succ n)
  · exact h.mono (Nat.le_succ n)
  · have hram := (@cacheAddCommon_of_room (q.clock (tick + 1)) (q.clock (tick + 2))
      ⟨deviceKey q.markers q.sn, timeOut q.g.timeouts .presence + q.clock tick, indexBytes index⟩
      _ _ h.zero).2
    refine h.imp_right fun hsize => ?_
    rw [Nat.mul_succ] at hsize
    exact (Nat.add_le_add_right hram _).trans (by omega)

theorem Inquiry.Room.cacheDelDevice (h : q.Room n trees) :
    q.Room n (cacheDelDevice q.g q.markers t q.sn trees) := by
  unfold Cache.cacheDelDevice
  split_ifs
  · exact h
  · have hram : (trees.delCommon t (deviceKey q.markers q.sn)).temporary.oldRamSize =
        trees.temporary.oldRamSize ∧
          (trees.delCommon t (deviceKey q.markers q.sn)).temporary.newRamSize =
        trees.temporary.newRamSize := by
      unfold Trees.delCommon cacheDelCommon
      dsimp only
      split
      · exact ⟨rfl, rfl⟩
      · split
        · split
          · exact ⟨rfl, rfl⟩
          · exact ⟨rfl, rfl⟩
        · exact ⟨rfl, rfl⟩
    unfold Inquiry.Room
    rw [hram.1, hram.2]
    exact h

/-- An addition is made where there is room. -/
theorem Inquiry.Room.takes (hfamily : q.sn.family ≠ 0) (h : q.Room n trees) (tick : Nat) :
    q.Takes tick trees := by
  refine ⟨hfamily, h.zero.imp_right fun hsize => ?_⟩
  unfold Inquiry.flipped
  split
  · show trees.temporary.newRamSize + 0 ≤ _
    omega
  · exact hsize

theorem directoryKey_ne_deviceKey (hmarkers : q.markers.directoryMarker ≠ q.markers.deviceMarker) :
    (q.directory c).key q.markers ≠ deviceKey q.markers q.sn := fun h =>
  hmarkers (congrArg TreeKey.p h)

/-- What is found in one cache and also in another is the same directory. -/
theorem cacheGetDir_of_findForGet {trees' : Trees} (hfind : ∀ duration tn,
      findForGet now duration ((q.directory c).key q.markers) trees'.temporary = some tn →
      findForGet now duration ((q.directory c).key q.markers) trees.temporary = some tn)
    (h : cacheGetDir q.g q.markers now (q.directory c) trees' = some data) :
    cacheGetDir q.g q.markers now (q.directory c) trees = some data := by
  unfold cacheGetDir Trees.getCommonDir at h ⊢
  dsimp only at h ⊢
  split_ifs at h ⊢ with hduration
  cases hget : findForGet now (timeOut q.g.timeouts .directory) ((q.directory c).key q.markers)
      trees'.temporary with
  | none =>
    rw [hget] at h
    cases h
  | some tn =>
    rw [hget] at h
    rw [hfind _ tn hget]
    exact h

/-- A deletion changes nothing about other entries. -/
theorem findForGet_cacheDelCommon_of_ne {cache : CacheData} {duration : Int} {tk tk' : TreeKey}
    (hne : tk ≠ tk') :
    findForGet now duration tk (cacheDelCommon t tk' cache).2 =
      findForGet now duration tk cache := by
  unfold cacheDelCommon
  split
  · simp only [findForGet, AList.lookup_insert_ne hne]
  · split
    · split
      · simp only [findForGet, AList.lookup_insert_ne hne]
      · rfl
    · rfl

/-- A directory that is found after the addition was found before. -/
theorem cacheGetDir_addDevice (hmarkers : q.markers.directoryMarker ≠ q.markers.deviceMarker)
    (h : cacheGetDir q.g q.markers now (q.directory c) (q.addDevice index tick trees) = some data) :
    cacheGetDir q.g q.markers now (q.directory c) trees = some data := by
  unfold Inquiry.addDevice cacheAddDevice at h
  dsimp only at h
  split_ifs at h with hduration hzero
  · exact h
  · exact h
  · refine cacheGetDir_of_findForGet (fun duration tn hfind => ?_) h
    refine (Property.findForGet_of_cacheAddCommon hfind).resolve_right fun hkey => ?_
    exact directoryKey_ne_deviceKey hmarkers hkey.1

theorem cacheGetDir_cacheDelDevice (hmarkers : q.markers.directoryMarker ≠ q.markers.deviceMarker)
    (h : cacheGetDir q.g q.markers now (q.directory c) (cacheDelDevice q.g q.markers t q.sn trees) =
      some data) :
    cacheGetDir q.g q.markers now (q.directory c) trees = some data := by
  unfold cacheDelDevice at h
  split_ifs at h with hduration
  · exact h
  · refine cacheGetDir_of_findForGet (fun duration tn hfind => ?_) h
    exact (findForGet_cacheDelCommon_of_ne (directoryKey_ne_deviceKey hmarkers)).symm.trans hfind

theorem Inquiry.Listings.addDevice (hmarkers : q.markers.directoryMarker ≠ q.markers.deviceMarker)
    (h : q.Listings start trees) (index : BitVec 32) (tick : Nat) :
    q.Listings start (q.addDevice index tick trees) :=
  fun c hc hasking now snlist hnow hget =>
    h c hc hasking now snlist hnow (cacheGetDir_addDevice hmarkers hget)

theorem Inquiry.Listings.cacheDelDevice
    (hmarkers : q.markers.directoryMarker ≠ q.markers.deviceMarker) (h : q.Listings start trees) :
    q.Listings start (cacheDelDevice q.g q.markers t q.sn trees) :=
  fun c hc hasking now snlist hnow hget =>
    h c hc hasking now snlist hnow (cacheGetDir_cacheDelDevice hmarkers hget)

/-- Where the cached directories are right, a question is answered by the device. -/
theorem ask_eq_answers (h : q.Listings start trees) (hnow : start ≤ now)
    (hc : c ∈ q.headPort.flatten) : q.ask c now trees = q.answers c := by
  unfold Inquiry.ask Inquiry.answers
  cases hconnected : c.connected with
  | false => rfl
  | true =>
    cases hasking : c.asking with
    | server => simp
    | sham => simp
    | verify => simp
    | fromDirblob =>
      have hdirblob : q.presenceFromDirblob c now trees = c.devices.any fun sn => sn = q.sn := by
        unfold Inquiry.presenceFromDirblob
        cases hget : cacheGetDir q.g q.markers now (q.directory c) trees with
        | none => rfl
        | some snlist => exact h c hc hasking now snlist hnow hget
      simp [hdirblob]

/-- Then a bus says that it has the device if and only if the device answers there. -/
theorem says_iff (h : q.Listings start trees) (hnow : start ≤ now) :
    q.says index now trees = true ↔ q.AnswersOn index := by
  unfold Inquiry.says
  cases hfind : q.findConnectionIn index with
  | none => simp [not_answersOn_of_findConnectionIn hfind]
  | some c =>
    rw [Option.any_some, ask_eq_answers h hnow (mem_of_findConnectionIn hfind).1,
      answersOn_iff_of_findConnectionIn hfind]

/-- The stage does not contradict that the device answers or not. -/
def Stage.Fits (answers : Bool) : Stage → Prop
  | .asking => True
  | .adding => answers = true
  | .done found => found = answers

/-- A thread that will add something. -/
def Inquiry.willAdd (q : Inquiry) (thread : Channel × Stage) : Bool :=
  q.answers thread.1 && thread.2.left ≠ 0

/-- What the turns keep. -/
structure Inquiry.InOrder (q : Inquiry) (start : Int) (t : Turns) : Prop where
  channels : t.threads.map Prod.fst = q.asked
  started : start ≤ q.clock t.tick
  listings : q.Listings start t.trees
  stages : ∀ thread ∈ t.threads, thread.2.Fits (q.answers thread.1)
  room : q.Room (t.threads.countP q.willAdd) t.trees

theorem Inquiry.InOrder.mem_asked {stage : Stage} (h : q.InOrder start turns)
    (hn : turns.threads[n]? = some (c, stage)) : c ∈ q.asked := by
  rw [← h.channels]
  exact List.mem_map.mpr ⟨_, List.mem_of_getElem? hn, rfl⟩

theorem fits_set {threads : List (Channel × Stage)} {stage : Stage}
    (h : ∀ thread ∈ threads, thread.2.Fits (q.answers thread.1))
    (hstage : stage.Fits (q.answers c)) :
    ∀ thread ∈ threads.set n (c, stage), thread.2.Fits (q.answers thread.1) := by
  intro thread hthread
  rcases List.mem_or_eq_of_mem_set hthread with hmem | rfl
  · exact h thread hmem
  · exact hstage

/-- What a turn does to the number of additions to come. -/
theorem countP_willAdd_set {threads : List (Channel × Stage)} {stage stage' : Stage}
    (hn : threads[n]? = some (c, stage)) :
    (threads.set n (c, stage')).countP q.willAdd + (if q.willAdd (c, stage) then 1 else 0) =
      threads.countP q.willAdd + (if q.willAdd (c, stage') then 1 else 0) := by
  obtain ⟨hlt, hget⟩ := List.getElem?_eq_some_iff.mp hn
  have hle : (if q.willAdd threads[n] then 1 else 0) ≤ threads.countP q.willAdd :=
    List.boole_getElem_le_countP hlt
  rw [List.countP_set hlt]
  rw [hget] at hle ⊢
  omega

theorem Inquiry.InOrder.ask {stage : Stage} (h : q.InOrder start turns) (hclock : Monotone q.clock)
    (hn : turns.threads[n]? = some (c, .asking)) (hstage : stage.Fits (q.answers c)) :
    q.InOrder start
      { turns with threads := turns.threads.set n (c, stage), tick := turns.tick + 1 } where
  channels := (map_fst_set hn).trans h.channels
  started := h.started.trans (hclock (Nat.le_succ _))
  listings := h.listings
  stages := fits_set h.stages hstage
  room := by
    have hcount := @countP_willAdd_set q n c _ _ stage hn
    refine h.room.mono ?_
    cases hanswers : q.answers c with
    | false =>
      simp only [Inquiry.willAdd, hanswers, Bool.false_and, Bool.false_eq_true, if_false] at hcount
      exact hcount.le
    | true =>
      have hbefore : q.willAdd (c, .asking) = true := by
        simp [Inquiry.willAdd, Stage.left, hanswers]
      rw [hbefore, if_pos rfl] at hcount
      show (turns.threads.set n (c, stage)).countP q.willAdd ≤ _
      split_ifs at hcount
      · omega
      · omega

theorem Inquiry.InOrder.add (h : q.InOrder start turns) (hclock : Monotone q.clock)
    (hmarkers : q.markers.directoryMarker ≠ q.markers.deviceMarker)
    (hn : turns.threads[n]? = some (c, .adding)) :
    q.InOrder start
      { trees := q.addDevice c.index turns.tick turns.trees
        tick := turns.tick + 3
        threads := turns.threads.set n (c, .done true) } := by
  have hanswers : q.answers c = true := h.stages _ (List.mem_of_getElem? hn)
  exact {
    channels := (map_fst_set hn).trans h.channels
    started := h.started.trans (hclock (Nat.le_add_right _ 3))
    listings := h.listings.addDevice hmarkers _ _
    stages := fits_set h.stages hanswers.symm
    room := by
      have hcount := @countP_willAdd_set q n c _ _ (.done true) hn
      have hbefore : q.willAdd (c, .adding) =
          true := by simp [Inquiry.willAdd, Stage.left, hanswers]
      have hafter : q.willAdd (c, .done true) = false := by simp [Inquiry.willAdd, Stage.left]
      rw [hbefore, hafter, if_pos rfl, if_neg Bool.false_ne_true] at hcount
      exact Inquiry.Room.addDevice (h.room.mono hcount.le) _ _ }

/-- One turn. -/
theorem Inquiry.InOrder.turn (h : q.InOrder start turns) (hclock : Monotone q.clock)
    (hmarkers : q.markers.directoryMarker ≠ q.markers.deviceMarker) (n : Nat) :
    q.InOrder start (q.turn turns n) := by
  unfold Inquiry.turn
  split
  · next c hn =>
    have hask := ask_eq_answers h.listings h.started (asked_subset q (h.mem_asked hn))
    dsimp only
    rw [hask]
    refine h.ask hclock hn ?_
    cases q.answers c with
    | true => exact rfl
    | false => exact rfl
  · next c hn => exact h.add hclock hmarkers hn
  · exact h

/-- All turns of a schedule. -/
theorem Inquiry.InOrder.foldl (h : q.InOrder start turns) (hclock : Monotone q.clock)
    (hmarkers : q.markers.directoryMarker ≠ q.markers.deviceMarker) (schedule : List Nat) :
    q.InOrder start (schedule.foldl q.turn turns) := by
  induction schedule generalizing turns with
  | nil => exact h
  | cons n rest ih => exact ih (h.turn hclock hmarkers n)

/-- A bus was found if and only if the device answers there and it was asked. -/
theorem found_eq_answers (h : q.InOrder start turns)
    (hdone : ∀ thread ∈ turns.threads, ∃ found, thread.2 = .done found) (hc : c ∈ q.asked) :
    turns.found c.index = q.answers c := by
  have hstage : ∀ thread ∈ turns.threads, thread.2 = .done (q.answers thread.1) := by
    intro thread hthread
    obtain ⟨found, hfound⟩ := hdone thread hthread
    have hfits := h.stages thread hthread
    rw [hfound] at hfits ⊢
    exact congrArg Stage.done hfits
  rw [Bool.eq_iff_iff, Turns.found, List.any_eq_true]
  constructor
  · rintro ⟨thread, hthread, hfound⟩
    rw [Bool.and_eq_true, decide_eq_true_iff, decide_eq_true_iff, hstage thread hthread] at hfound
    have hasked : thread.1 ∈ q.asked := by
      rw [← h.channels]
      exact List.mem_map_of_mem hthread
    rw [← eq_of_index_eq (asked_subset q hasked) (asked_subset q hc) hfound.1]
    exact Stage.done.inj hfound.2
  · intro hanswers
    rw [← h.channels] at hc
    obtain ⟨thread, hthread, rfl⟩ := List.mem_map.mp hc
    refine ⟨thread, hthread, ?_⟩
    rw [hstage thread hthread, hanswers]
    simp

/-- At first every thread has to ask. -/
theorem inOrder_started (h : q.Reliable s) : q.InOrder (q.clock s.tick) (q.started s) where
  channels := by
    rw [Inquiry.started, List.map_map]
    exact List.map_id _
  started := h.clock (Nat.le_add_right _ 5)
  listings := h.listings.cacheDelDevice h.markers
  stages := by
    intro thread hthread
    obtain ⟨c, -, rfl⟩ := List.mem_map.mp hthread
    trivial
  room := by
    have hwill : q.willAdd ∘ (fun c => (c, Stage.asking)) = q.answers := by
      funext c
      simp [Inquiry.willAdd, Stage.left]
    rw [Inquiry.started, List.countP_map, hwill]
    exact h.room.cacheDelDevice

/-- What the threads find out. -/
theorem foundAnew_iff (h : q.Reliable s) (schedule : List Nat) :
    q.FoundAnew schedule s ↔
      (∃ c ∈ q.asked, q.answers c = true) ∨ ∀ c ∈ q.headPort.flatten, q.answers c = false := by
  have hend : q.InOrder (q.clock s.tick) (q.ended schedule s) :=
    ((inOrder_started h).foldl h.clock h.markers schedule).foldl h.clock h.markers _
  have hlast : q.lastFound schedule s = (q.asked.filter q.answers).getLast? := by
    rw [Inquiry.lastFound, List.filter_congr fun c hc =>
      found_eq_answers hend (turns_done q (q.started s) schedule) hc]
  rw [Inquiry.FoundAnew, hlast]
  cases hfilter : (q.asked.filter q.answers).getLast? with
  | none =>
    rw [List.getLast?_eq_none_iff, List.filter_eq_nil_iff] at hfilter
    constructor
    · exact Or.inr
    · rintro (⟨c, hc, hanswers⟩ | hall)
      · exact absurd hanswers (hfilter c hc)
      · exact hall
  | some c =>
    obtain ⟨hc, hanswers⟩ := List.mem_filter.mp (List.mem_of_getLast? hfilter)
    exact iff_of_true ⟨hanswers, .inl (hend.room.takes h.family _)⟩ (.inl ⟨c, hc, hanswers⟩)

/-- With a cache that does its part, all is well if a bus on which the device answers is asked, if
there is one. -/
theorem sound_iff_heard (h : q.Reliable s) (schedule : List Nat) :
    q.Sound schedule s ↔ q.Heard s := by
  have hknown (index : BitVec 32) :
      q.says index (q.clock s.tick) s.trees = true ↔ q.AnswersOn index :=
    says_iff h.listings le_rfl
  have hcached (index : BitVec 32) :
      q.says index (q.clock (s.tick + 2)) s.trees = true ↔ q.AnswersOn index :=
    says_iff h.listings (h.clock (Nat.le_add_right _ 2))
  have hsettles (index : BitVec 32) (tick : Nat) : q.Settles index tick s.trees :=
    .inl (h.room.takes h.family tick)
  have hforgets := h.forgets
  simp only [Inquiry.Sound, Inquiry.SoundCached, Inquiry.SoundAgain, Inquiry.KnownSays,
    Inquiry.CachedSays, Inquiry.Heard, hknown, hcached, hsettles, hforgets,
    foundAnew_iff h schedule, not_true, false_and, true_and, false_or, and_true, and_self]
  by_cases hk : ∃ index, s.knownBus = some index ∧ q.AnswersOn index
  · simp only [hk, not_true, false_and, or_false, true_or]
  · simp only [hk, not_false_eq_true, true_and, false_or]
    by_cases hc : ∃ data,
        cacheGetDevice q.g q.markers (q.clock (s.tick + 1)) q.sn s.trees = some data ∧
          q.AnswersOn (ofIndexBytes data)
    · simp only [hc, not_true, false_and, or_false, true_or]
    · simp only [hc, not_false_eq_true, true_and, false_or]

end

/-! ## Two ports -/

/-- The device is on the second port; `threads` tells whether threads can be created. -/
def twoPorts (threads : Bool) (timeouts : Timeouts) (now : Int) : Inquiry where
  g := ⟨timeouts, 0⟩
  markers := sampleMarkers
  clock := fun _ => now
  sn := sampleThermometer
  bp := []
  headPort := [[⟨0, .verify, true, []⟩], [⟨1, .verify, true, [sampleThermometer]⟩]]
  distinct := by decide
  portThread := fun _ => threads
  channelThread := fun _ => threads

/-- Nothing is known. -/
def unlocated : Located := { trees := { temporary := {} } }

theorem reliable_twoPorts : (twoPorts true ⟨15, 300, 60, 120⟩ 1000).Reliable unlocated where
  clock := monotone_const
  family := by decide
  markers := by decide
  listings := by
    intro c hc hasking
    have hverify : ∀ c ∈ (twoPorts true ⟨15, 300, 60, 120⟩ 1000).headPort.flatten,
        c.asking = .verify := by
      intro c hc
      fin_cases hc
      · rfl
      · rfl
    rw [hverify c hc] at hasking
    cases hasking
  forgets := by
    intro data hget
    cases hget
  room := Or.inl rfl

/-- A bus that was removed, remembered in the old tree. -/
def locatedLongAgo : Located where
  trees := { temporary := {
    temporaryTreeOld := AList.insert (deviceKey sampleMarkers sampleThermometer)
      ⟨deviceKey sampleMarkers sampleThermometer, 7200, indexBytes 5⟩ ∅
    timeToKill := 300
    retiredLifespan := 300 } }

/-- With threads the device is found, also if the second port answers first. And it is enough that
the known bus answers, even if the cache remembers another one. -/
theorem right_reCheckPresence_iff_twoPorts :
    (twoPorts true ⟨15, 300, 60, 120⟩ 1000).Right
      ((twoPorts true ⟨15, 300, 60, 120⟩ 1000).reCheckPresence [1, 1, 0] unlocated) ∧
    (twoPorts false ⟨15, 300, 60, 7200⟩ 1000).Right
      ((twoPorts false ⟨15, 300, 60, 7200⟩ 1000).reCheckPresence []
        { locatedLongAgo with knownBus := some 1 }) := by
  refine ⟨(right_reCheckPresence_iff _ _ _ monotone_const).mpr ?_,
    (right_reCheckPresence_iff _ _ _ monotone_const).mpr ?_⟩
  · exact (sound_iff_heard reliable_twoPorts _).mpr
      (.inr (.inr (.inl ⟨⟨1, .verify, true, [sampleThermometer]⟩, by decide, by decide⟩)))
  · exact .inl ⟨1, rfl, by decide,
      ⟨⟨1, .verify, true, [sampleThermometer]⟩, by decide, rfl, by decide⟩,
      .inl ⟨by decide, .inl rfl⟩⟩

/-- Without threads nobody asks the second port. -/
theorem not_right_twoPorts_of_noThreads : ¬ (twoPorts false ⟨15, 300, 60, 120⟩ 1000).Right
    ((twoPorts false ⟨15, 300, 60, 120⟩ 1000).reCheckPresence [] unlocated) := by
  intro h
  have hnobody := h.unanswered (by decide) ⟨1, .verify, true, [sampleThermometer]⟩ (by decide)
  revert hnobody
  decide

/-- With a long timeout a location is not forgotten, and is returned without being asked. -/
theorem not_right_locatedLongAgo : ¬ (twoPorts true ⟨15, 300, 60, 7200⟩ 1000).Right
    ((twoPorts true ⟨15, 300, 60, 7200⟩ 1000).reCheckPresence [] locatedLongAgo) := by
  intro h
  obtain ⟨c, hc, hindex, -⟩ := h.answered 5 (by decide)
  revert hindex
  fin_cases hc
  · decide
  · decide

end Owfs.Bus
