import Owfs.Infra.Bytes
import Owfs.Infra.Threads

/-!
# The channels of a DS2482-800

Eight buses share one chip on an I2C bus (`ow_ds2482.c`). The chip works for one channel at a time,
and its configuration is the one of all channels. What the chip was told last is kept in the
connection of the first channel, so that an operation need not tell it again.

Every transfer on the I2C bus can fail, before or after the chip has acted on it, and the chip can
be busy for longer than the code waits. What the buses answer is left open.

The detection of the chip and the search with triplets are left out.
-/

namespace Owfs.Ds2482

open Infra

/-! ## The chip -/

/-- `DS2482_CMD_RESET` -/
def cmdReset : Byte := 0xF0

/-- `DS2482_CMD_SET_READ_PTR` -/
def cmdSetReadPtr : Byte := 0xE1

/-- `DS2482_CMD_CHANNEL_SELECT` -/
def cmdChannelSelect : Byte := 0xC3

/-- `DS2482_CMD_WRITE_CONFIG` -/
def cmdWriteConfig : Byte := 0xD2

/-- `DS2482_CMD_1WIRE_RESET` -/
def cmd1WireReset : Byte := 0xB4

/-- `DS2482_CMD_1WIRE_WRITE_BYTE` -/
def cmd1WireWriteByte : Byte := 0xA5

/-- `DS2482_READ_DATA_REGISTER` -/
def readDataRegister : Byte := 0xE1

/-- `DS2482_REG_CFG_SPU` -/
def cfgSpu : Byte := 0x04

/-- `DS2482_REG_STS_RST` and `DS2482_REG_STS_LL` -/
def stsAfterReset : Byte := 0x08 ||| 0x10

/-- `DS2482_REG_STS_SD` -/
def stsSd : Byte := 0x04

/-- `DS2482_REG_STS_PPD` -/
def stsPpd : Byte := 0x02

/-- `DS2482_REG_STS_1WB` -/
def sts1wb : Byte := 0x01

/-- `W_chan` -/
def wChan (chan : Fin 8) : Byte := [0xF0, 0xE1, 0xD2, 0xC3, 0xB4, 0xA5, 0x96, 0x87].getD chan 0

/-- `R_chan` -/
def rChan (chan : Fin 8) : Byte := [0xB8, 0xB1, 0xAA, 0xA3, 0x9C, 0x95, 0x8E, 0x87].getD chan 0

/-- What the next byte is that is read from the chip. -/
inductive Pointer where
  | status
  | data
  | config
  | channel

/-- What happens on the buses, with the channel and the configuration of the chip. -/
inductive Event where
  | deviceReset
  | reset (channel : Fin 8) (config : Byte)
  | byte (channel : Fin 8) (config : Byte) (b : Byte)

structure Chip where
  channel : Fin 8
  config : Byte
  /-- The bus is pulled up strongly since the last byte. -/
  pullup : Bool
  pointer : Pointer

/-- The configuration without the bit for the strong pull-up. -/
def plain (config : Byte) : Byte := config &&& ~~~cfgSpu

/-- What the chip does with a command. Something on the bus ends a strong pull-up, and the chip
clears the bit for it. A configuration counts only with its complement in the upper bits. -/
def Chip.take (x : Chip) (command value : Byte) : Chip × List Event :=
  let config := if x.pullup then plain x.config else x.config
  if command = cmdReset then (⟨0, 0, false, .status⟩, [.deviceReset])
  else if command = cmdSetReadPtr then
    ({ x with pointer := if value = readDataRegister then .data else .status }, [])
  else if command = cmdChannelSelect then
    match (List.finRange 8).find? (fun chan => wChan chan == value) with
    | some chan => ({ x with channel := chan, pointer := .channel }, [])
    | none => (x, [])
  else if command = cmdWriteConfig then
    if value >>> 4 = ~~~value &&& 0x0F then
      ({ x with config := value &&& 0x0F, pullup := false, pointer := .config }, [])
    else ({ x with pointer := .config }, [])
  else if command = cmd1WireReset then
    ({ x with config := config, pullup := false, pointer := .status }, [.reset x.channel config])
  else if command = cmd1WireWriteByte then
    ({ x with config := config, pullup := (config &&& cfgSpu) != 0, pointer := .status },
      [.byte x.channel config value])
  else (x, [])

/-! ## The I2C bus -/

/-- How a transfer ends: it is made, it fails, it fails although the chip has acted on it, or the
chip says that it is busy. -/
inductive Outcome where
  | done
  | failed
  | unseen
  | busy
  deriving DecidableEq

/-- The chip, what happened on its buses, and how the next transfers will end. -/
structure World where
  chip : Chip
  wire : List Event
  outcomes : List Outcome

/-- The chip gets a command. -/
def World.take (w : World) (command value : Byte) : World :=
  { w with chip := (w.chip.take command value).1, wire := w.wire ++ (w.chip.take command value).2 }

/-- `i2c_smbus_write_byte_data`, and `i2c_smbus_write_byte` for a command without a value -/
def writeByteData (command value : Byte) (w : World) : Bool × World :=
  match w.outcomes with
  | .failed :: outcomes => (false, { w with outcomes })
  | .unseen :: outcomes => (false, { w.take command value with outcomes })
  | _ :: outcomes => (true, { w.take command value with outcomes })
  | [] => (true, w.take command value)

section

variable (answer : List Event → Byte)

/-- The byte that the chip says. -/
def World.reply (w : World) (busy : Bool) : Byte :=
  match w.chip.pointer with
  | .status => if busy then answer w.wire ||| sts1wb else answer w.wire &&& ~~~sts1wb
  | .data => answer w.wire
  | .config => w.chip.config
  | .channel => rChan w.chip.channel

/-- `i2c_smbus_read_byte` -/
def readByte (w : World) : Option Byte × World :=
  match w.outcomes with
  | .failed :: outcomes => (none, { w with outcomes })
  | .unseen :: outcomes => (none, { w with outcomes })
  | .busy :: outcomes => (some (w.reply answer true), { w with outcomes })
  | .done :: outcomes => (some (w.reply answer false), { w with outcomes })
  | [] => (some (w.reply answer false), w)

/-! ## The code -/

/-- `enum e_reset` -/
inductive ResetType where
  | ok
  | short
  | error
  deriving DecidableEq

/-- What is kept in the connections: whether the file descriptor is valid, what the chip is believed
to do (in the first one), and the configuration of each. -/
structure Master where
  valid : Bool
  current : Fin 8
  configchip : Byte
  configreg : Fin 8 → Byte
  anyDevices : Fin 8 → Bool

structure St where
  master : Master
  world : World

/-- `DS2482_readstatus`, with the number of tries after the next one -/
def readStatus : Nat → World → Option Byte × World
  | tries, w =>
    match readByte answer w with
    | (none, w) => (none, w)
    | (some ret, w) =>
      if ret &&& sts1wb = 0 then (some ret, w)
      else
        match tries with
        | 0 => (none, w)
        | tries + 1 => readStatus tries w

/-- `SetConfiguration` -/
def setConfiguration (c : Byte) (chan : Fin 8) (s : St) : Bool × St :=
  match writeByteData cmdWriteConfig (c ||| (~~~c <<< 4)) s.world with
  | (false, w) => (false, ⟨{ s.master with configchip := 0xFF }, w⟩)
  | (true, w) =>
    match readByte answer w with
    | (none, w) => (false, ⟨{ s.master with configchip := 0xFF }, w⟩)
    | (some readBack, w) =>
      if readBack ≠ c then (false, ⟨{ s.master with configchip := 0xFF }, w⟩)
      else
        (true,
          ⟨{ s.master with
              configchip := plain c
              configreg := Function.update s.master.configreg chan (plain c) }, w⟩)

/-- The part of `DS2482_channel_select` that tells the chip the channel. -/
def changeChannel (chan : Fin 8) (s : St) : Bool × St :=
  match writeByteData cmdChannelSelect (wChan chan) s.world with
  | (false, w) => (false, ⟨s.master, w⟩)
  | (true, w) =>
    match readByte answer w with
    | (none, w) => (false, ⟨s.master, w⟩)
    | (some readBack, w) =>
      if readBack ≠ rChan chan then (false, ⟨s.master, w⟩)
        else (true, ⟨{ s.master with current := chan }, w⟩)

/-- `DS2482_channel_select` -/
def channelSelect (chan : Fin 8) (s : St) : Bool × St :=
  if s.master.valid = false then (false, s)
  else
    match if chan ≠ s.master.current then changeChannel answer chan s else (true, s) with
    | (false, s) => (false, s)
    | (true, s) =>
      if s.master.configreg chan ≠ s.master.configchip then
        setConfiguration answer (s.master.configreg chan) chan s
      else (true, s)

/-- `DS2482_reset` -/
def reset (chan : Fin 8) (s : St) : ResetType × St :=
  match channelSelect answer chan s with
  | (false, s) => (.error, s)
  | (true, s) =>
    match writeByteData cmd1WireReset 0 s.world with
    | (false, w) => (.error, ⟨s.master, w⟩)
    | (true, w) =>
      match readStatus answer 3 w with
      | (none, w) => (.error, ⟨s.master, w⟩)
      | (some status, w) =>
        (if status &&& stsSd ≠ 0 then .short else .ok,
          ⟨{ s.master with
              anyDevices := Function.update s.master.anyDevices chan (status &&& stsPpd ≠ 0) }, w⟩)

/-- `DS2482_send_and_get` -/
def sendAndGet (wr : Byte) (w : World) : Option Byte × World :=
  match writeByteData cmd1WireWriteByte wr w with
  | (false, w) => (none, w)
  | (true, w) =>
    match readStatus answer 3 w with
    | (none, w) => (none, w)
    | (some _, w) =>
      match writeByteData cmdSetReadPtr readDataRegister w with
      | (false, w) => (none, w)
      | (true, w) => readByte answer w

/-- The loop in `DS2482_sendback_data` -/
def sendLoop : Bytes → World → Option Bytes × World
  | [], w => (some [], w)
  | b :: data, w =>
    match sendAndGet answer b w with
    | (none, w) => (none, w)
    | (some r, w) =>
      match sendLoop data w with
      | (none, w) => (none, w)
      | (some resp, w) => (some (r :: resp), w)

/-- `DS2482_sendback_data` -/
def sendbackData (chan : Fin 8) (data : Bytes) (s : St) : Option Bytes × St :=
  match channelSelect answer chan s with
  | (false, s) => (none, s)
  | (true, s) => ((sendLoop answer data s.world).1, ⟨s.master, (sendLoop answer data s.world).2⟩)

/-- `DS2482_PowerByte` -/
def powerByte (chan : Fin 8) (byte : Byte) (s : St) : Option Byte × St :=
  match channelSelect answer chan s with
  | (false, s) => (none, s)
  | (true, s) =>
    match setConfiguration answer (s.master.configreg chan ||| cfgSpu) chan s with
    | (false, s) => (none, s)
    | (true, s) => ((sendAndGet answer byte s.world).1,
        ⟨s.master, (sendAndGet answer byte s.world).2⟩)

/-- `DS2482_redetect`. The device may not be opened, or not take the address. -/
def redetect (opened addressed : Bool) (s : St) : Bool × St :=
  if opened = false ∨ addressed = false then (false, s)
  else
    match writeByteData cmdReset 0 s.world with
    | (false, w) => (false, ⟨s.master, w⟩)
    | (true, w) =>
      match readStatus answer 3 w with
      | (none, w) => (false, ⟨s.master, w⟩)
      | (some c, w) =>
        if c ≠ stsAfterReset then (false, ⟨s.master, w⟩)
        else (true, ⟨{ s.master with valid := true, current := 0, configchip := 0 }, w⟩)

/-- What the bus master is asked for. -/
inductive Op where
  | reset (chan : Fin 8)
  | sendbackData (chan : Fin 8) (data : Bytes)
  | powerByte (chan : Fin 8) (byte : Byte)
  | redetect (opened addressed : Bool)

/-- The state after an operation. -/
def apply (s : St) : Op → St
  | .reset chan => (reset answer chan s).2
  | .sendbackData chan data => (sendbackData answer chan data s).2
  | .powerByte chan byte => (powerByte answer chan byte s).2
  | .redetect opened addressed => (redetect answer opened addressed s).2

end

/-! ## What an operation does to the chip -/

theorem plain_plain (c : Byte) : plain (plain c) = plain c := by
  simp [plain, BitVec.and_assoc]

/-- It happened on the bus of a channel, with a configuration. -/
def Event.On (chan : Fin 8) (config : Byte) : Event → Prop
  | .deviceReset => False
  | .reset channel c => channel = chan ∧ plain c = config
  | .byte channel c _ => channel = chan ∧ plain c = config

/-- The channel and the configuration stay, and what happened did so with them. -/
structure Stays (w w' : World) : Prop where
  channel_eq : w'.chip.channel = w.chip.channel
  config_eq : plain w'.chip.config = plain w.chip.config
  wire_eq : ∃ sent, w'.wire = w.wire ++ sent ∧ ∀ e ∈ sent, e.On w.chip.channel (plain w.chip.config)

theorem Stays.refl (w : World) : Stays w w := ⟨rfl, rfl, [], by simp⟩

theorem Stays.trans {w w₁ w₂ : World} (h₁ : Stays w w₁) (h₂ : Stays w₁ w₂) : Stays w w₂ := by
  obtain ⟨channel₁, config₁, sent₁, wire₁, on₁⟩ := h₁
  obtain ⟨channel₂, config₂, sent₂, wire₂, on₂⟩ := h₂
  refine ⟨channel₂.trans channel₁, config₂.trans config₁, sent₁ ++ sent₂,
    by rw [wire₂, wire₁, List.append_assoc], ?_⟩
  intro e he
  rcases List.mem_append.mp he with he | he
  · exact on₁ e he
  · rw [← channel₁, ← config₁]
    exact on₂ e he

/-- The commands that do not change what the chip works for. -/
theorem stays_take (w : World) {command : Byte} (value : Byte)
    (h : command = cmdSetReadPtr ∨ command = cmd1WireReset ∨ command = cmd1WireWriteByte) :
    Stays w (w.take command value) := by
  have hconfig : plain (if w.chip.pullup then plain w.chip.config else w.chip.config) =
      plain w.chip.config := by
    split
    · exact plain_plain _
    · rfl
  rcases h with rfl | rfl | rfl
  · exact ⟨rfl, rfl, [], rfl, by simp⟩
  · refine ⟨rfl, hconfig, _, rfl, fun e he => ?_⟩
    obtain rfl : e = _ := List.mem_singleton.mp he
    exact ⟨rfl, hconfig⟩
  · refine ⟨rfl, hconfig, _, rfl, fun e he => ?_⟩
    obtain rfl : e = _ := List.mem_singleton.mp he
    exact ⟨rfl, hconfig⟩

theorem stays_writeByteData (w : World) {command : Byte} (value : Byte)
    (h : command = cmdSetReadPtr ∨ command = cmd1WireReset ∨ command = cmd1WireWriteByte) :
    Stays w (writeByteData command value w).2 := by
  have htake := stays_take w value h
  unfold writeByteData
  split
  · exact ⟨rfl, rfl, [], (List.append_nil _).symm, by simp⟩
  all_goals exact ⟨htake.channel_eq, htake.config_eq, htake.wire_eq⟩

section

variable (answer : List Event → Byte)

/-- Reading changes nothing but the outcomes to come. -/
theorem readByte_frame (w : World) :
    (readByte answer w).2.chip = w.chip ∧ (readByte answer w).2.wire = w.wire := by
  unfold readByte
  split <;> exact ⟨rfl, rfl⟩

theorem stays_of_frame {w w' : World} (h : w'.chip = w.chip ∧ w'.wire = w.wire) : Stays w w' :=
  ⟨by rw [h.1], by rw [h.1], [], by rw [h.2, List.append_nil], by simp⟩

theorem readStatus_frame (tries : Nat) (w : World) :
    (readStatus answer tries w).2.chip = w.chip ∧ (readStatus answer tries w).2.wire = w.wire := by
  induction tries generalizing w with
  | zero =>
    have hread := readByte_frame answer w
    unfold readStatus
    split
    · rename_i heq
      rwa [heq] at hread
    · rename_i heq
      rw [heq] at hread
      split <;> exact hread
  | succ tries ih =>
    have hread := readByte_frame answer w
    unfold readStatus
    split
    · rename_i heq
      rwa [heq] at hread
    · rename_i heq
      rw [heq] at hread
      split
      · exact hread
      · exact ⟨(ih _).1.trans hread.1, (ih _).2.trans hread.2⟩

theorem stays_sendAndGet (b : Byte) (w : World) : Stays w (sendAndGet answer b w).2 := by
  have hwrite := stays_writeByteData w b (.inr (.inr rfl))
  unfold sendAndGet
  split
  · rename_i heq
    rwa [heq] at hwrite
  · rename_i w₁ heq
    rw [heq] at hwrite
    have hstatus := stays_of_frame (readStatus_frame answer 3 w₁)
    split
    · rename_i heq₁
      rw [heq₁] at hstatus
      exact hwrite.trans hstatus
    · rename_i w₂ heq₁
      rw [heq₁] at hstatus
      have hpointer := @stays_writeByteData w₂ cmdSetReadPtr readDataRegister (.inl rfl)
      split
      · rename_i heq₂
        rw [heq₂] at hpointer
        exact (hwrite.trans hstatus).trans hpointer
      · rename_i w₃ heq₂
        rw [heq₂] at hpointer
        exact ((hwrite.trans hstatus).trans hpointer).trans
          (stays_of_frame (readByte_frame answer w₃))

theorem stays_sendLoop (data : Bytes) (w : World) : Stays w (sendLoop answer data w).2 := by
  induction data generalizing w with
  | nil => exact Stays.refl w
  | cons b data ih =>
    have hbyte := stays_sendAndGet answer b w
    unfold sendLoop
    split
    · rename_i heq
      rwa [heq] at hbyte
    · rename_i w₁ heq
      rw [heq] at hbyte
      have hrest := ih w₁
      split
      · rename_i heq₁
        rw [heq₁] at hrest
        exact hbyte.trans hrest
      · rename_i heq₁
        rw [heq₁] at hrest
        exact hbyte.trans hrest

/-! ## What is kept of the chip -/

/-- What is kept of the chip is right. A configuration of `0xFF` says that it is not known. -/
structure Coherent (s : St) : Prop where
  channel_eq : s.world.chip.channel = s.master.current
  config_eq : s.master.configchip = 0xFF ∨ plain s.world.chip.config = s.master.configchip
  /-- The configurations of the channels use four bits and leave out the strong pull-up. -/
  reg_plain : ∀ chan, s.master.configreg chan &&& 0xF4 = 0

instance (s : St) : Decidable (Coherent s) :=
  decidable_of_iff (s.world.chip.channel = s.master.current ∧
      (s.master.configchip = 0xFF ∨ plain s.world.chip.config = s.master.configchip) ∧
      ∀ chan, s.master.configreg chan &&& 0xF4 = 0)
    ⟨fun h => ⟨h.1, h.2.1, h.2.2⟩, fun h => ⟨h.channel_eq, h.config_eq, h.reg_plain⟩⟩

/-- The channel of the chip, the one that is kept, and what else is right. -/
structure Known (channel current : Fin 8) (s : St) : Prop where
  channel_eq : s.world.chip.channel = channel
  current_eq : s.master.current = current
  config_eq : s.master.configchip = 0xFF ∨ plain s.world.chip.config = s.master.configchip
  reg_plain : ∀ chan, s.master.configreg chan &&& 0xF4 = 0

theorem Coherent.known {s : St} (h : Coherent s) : Known s.master.current s.master.current s :=
  ⟨h.channel_eq, rfl, h.config_eq, h.reg_plain⟩

theorem Known.coherent {s : St} {chan : Fin 8} (h : Known chan chan s) : Coherent s :=
  ⟨h.channel_eq.trans h.current_eq.symm, h.config_eq, h.reg_plain⟩

theorem Known.stays {s : St} {channel current : Fin 8} {w : World} (h : Known channel current s)
    (hw : Stays s.world w) : Known channel current ⟨s.master, w⟩ :=
  ⟨hw.channel_eq.trans h.channel_eq, h.current_eq, h.config_eq.imp_right hw.config_eq.trans,
    h.reg_plain⟩

/-- What the chip makes of a configuration. -/
theorem config_byte : ∀ c : Byte, c &&& 0xF0 = 0 →
    (c ||| (~~~c <<< 4)) >>> 4 = ~~~(c ||| (~~~c <<< 4)) &&& 0x0F ∧
      (c ||| (~~~c <<< 4)) &&& 0x0F = c := by
  decide +kernel

theorem plain_byte : ∀ c : Byte, c &&& 0xF4 = 0 → c &&& 0xF0 = 0 ∧ plain c = c ∧
    plain (c ||| cfgSpu) = c ∧ (c ||| cfgSpu) &&& 0xF0 = 0 ∧ c ≠ 0xFF := by
  decide +kernel

theorem take_config (x : Chip) {c : Byte} (hc : c &&& 0xF0 = 0) :
    x.take cmdWriteConfig (c ||| (~~~c <<< 4))
      = ({ x with config := c, pullup := false, pointer := .config }, []) := by
  have hbyte := config_byte c hc
  simp only [Chip.take, cmdWriteConfig, cmdReset, cmdSetReadPtr, cmdChannelSelect]
  rw [if_neg (by decide), if_neg (by decide), if_neg (by decide), if_pos trivial, if_pos hbyte.1,
    hbyte.2]

theorem writeByteData_config (w : World) {c : Byte} (hc : c &&& 0xF0 = 0) :
    (writeByteData cmdWriteConfig (c ||| (~~~c <<< 4)) w).2.chip.channel = w.chip.channel ∧
      (writeByteData cmdWriteConfig (c ||| (~~~c <<< 4)) w).2.wire = w.wire ∧
      ((writeByteData cmdWriteConfig (c ||| (~~~c <<< 4)) w).1 = true →
        (writeByteData cmdWriteConfig (c ||| (~~~c <<< 4)) w).2.chip.config = c) := by
  unfold writeByteData World.take
  rw [take_config _ hc]
  split <;> simp

/-- What is known after the chip was prepared for an operation of a channel. -/
structure Selected (channel chan : Fin 8) (s : St) (r : Bool × St) : Prop where
  known : Known channel chan r.2
  wire_eq : r.2.world.wire = s.world.wire
  reg_eq : r.2.master.configreg = s.master.configreg
  valid_eq : r.2.master.valid = s.master.valid
  config_eq : r.1 = true → plain r.2.world.chip.config = s.master.configreg chan

/-- A configuration is written, or it is not known any more. -/
theorem setConfiguration_spec {s : St} {channel chan : Fin 8} (h : Known channel chan s) {c : Byte}
    (hc : c &&& 0xF0 = 0) (hreg : plain c = s.master.configreg chan) :
    Selected channel chan s (setConfiguration answer c chan s) := by
  obtain ⟨hchannel, hwire, hconfig⟩ := writeByteData_config s.world hc
  -- after a failure the configuration is not known
  have hunknown (w : World) (hw : w.chip.channel = s.world.chip.channel)
      (hwire : w.wire = s.world.wire) :
      Selected channel chan s (false, ⟨{ s.master with configchip := 0xFF }, w⟩) :=
    ⟨⟨hw.trans h.channel_eq, h.current_eq, .inl rfl, h.reg_plain⟩, hwire, rfl, rfl, nofun⟩
  unfold setConfiguration
  split
  · rename_i heq
    rw [heq] at hchannel hwire
    exact hunknown _ hchannel hwire
  · rename_i w heq
    rw [heq] at hchannel hwire hconfig
    dsimp only at hchannel hwire hconfig
    have hread := readByte_frame answer w
    split
    · rename_i heq₁
      rw [heq₁] at hread
      exact hunknown _ (by rw [hread.1, hchannel]) (hread.2.trans hwire)
    · rename_i readBack w₁ heq₁
      rw [heq₁] at hread
      dsimp only at hread
      split
      · exact hunknown _ (by rw [hread.1, hchannel]) (hread.2.trans hwire)
      · have hupdate : Function.update s.master.configreg chan (plain c)
            = s.master.configreg := by
          rw [hreg, Function.update_eq_self]
        have hplain : plain w₁.chip.config = plain c := by rw [hread.1, hconfig rfl]
        refine ⟨⟨?_, h.current_eq, .inr hplain, ?_⟩, hread.2.trans hwire, hupdate, rfl,
          fun _ => hplain.trans hreg⟩
        · exact (congrArg Chip.channel hread.1).trans (hchannel.trans h.channel_eq)
        · intro k
          dsimp only
          rw [hupdate]
          exact h.reg_plain k

/-! ## The channel that is kept

An operation for it does not tell the chip the channel. So it works for the channel of the chip,
whichever this is.
-/

theorem channelSelect_spec {s : St} {channel chan : Fin 8} (h : Known channel chan s) :
    Selected channel chan s (channelSelect answer chan s) := by
  have hsame : Selected channel chan s (false, s) := ⟨h, rfl, rfl, rfl, nofun⟩
  unfold channelSelect
  split
  · exact hsame
  · rw [if_neg (by rw [h.current_eq]; exact not_not.mpr rfl)]
    have hbyte := plain_byte _ (h.reg_plain chan)
    dsimp only
    split
    · exact setConfiguration_spec answer h hbyte.1 hbyte.2.1
    · rename_i hconfig
      refine ⟨h, rfl, rfl, rfl, fun _ => ?_⟩
      rw [not_not] at hconfig
      rcases h.config_eq with hunknown | hknown
      · exact absurd (hconfig.trans hunknown) hbyte.2.2.2.2
      · rw [hknown, ← hconfig]

/-- An operation of a channel. -/
def Op.chan? : Op → Option (Fin 8)
  | .reset chan => some chan
  | .sendbackData chan _ => some chan
  | .powerByte chan _ => some chan
  | .redetect _ _ => none

/-- What happens on the buses in an operation of a channel, and what is known after it. -/
structure Done (channel chan : Fin 8) (s s' : St) : Prop where
  known : Known channel chan s'
  reg_eq : s'.master.configreg = s.master.configreg
  valid_eq : s'.master.valid = s.master.valid
  wire_eq : ∃ sent, s'.world.wire = s.world.wire ++ sent ∧
    ∀ e ∈ sent, e.On channel (s.master.configreg chan)

section

variable {channel chan : Fin 8} {s : St}

theorem Selected.done_of_bad {r : Bool × St} (h : Selected channel chan s r) :
    Done channel chan s r.2 :=
  ⟨h.known, h.reg_eq, h.valid_eq, [], by rw [h.wire_eq, List.append_nil], by simp⟩

/-- After the selection the chip works for its channel. -/
theorem Selected.done {r : Bool × St} (h : Selected channel chan s r) (hgood : r.1 = true)
    {w : World} (hstays : Stays r.2.world w) : Done channel chan s ⟨r.2.master, w⟩ := by
  obtain ⟨sent, hwire, hon⟩ := hstays.wire_eq
  refine ⟨h.known.stays hstays, h.reg_eq, h.valid_eq, sent, ?_, ?_⟩
  · rw [← h.wire_eq]
    exact hwire
  · rw [h.known.channel_eq, h.config_eq hgood] at hon
    exact hon

theorem reset_done (h : Known channel chan s) :
    Done channel chan s (reset answer chan s).2 := by
  have hselect := channelSelect_spec answer h
  unfold reset
  generalize channelSelect answer chan s = r at hselect
  obtain ⟨good, s₁⟩ := r
  cases good with
  | false => exact hselect.done_of_bad
  | true =>
    have hwrite := @stays_writeByteData s₁.world cmd1WireReset 0 (.inr (.inl rfl))
    dsimp only
    split
    · rename_i heq
      rw [heq] at hwrite
      exact hselect.done rfl hwrite
    · rename_i w heq
      rw [heq] at hwrite
      have hstatus := hwrite.trans (stays_of_frame (readStatus_frame answer 3 w))
      split
      · rename_i heq₁
        rw [heq₁] at hstatus
        exact hselect.done rfl hstatus
      · rename_i heq₁
        rw [heq₁] at hstatus
        obtain ⟨hknown, hreg, hvalid, hwire⟩ := hselect.done rfl hstatus
        exact ⟨⟨hknown.channel_eq, hknown.current_eq, hknown.config_eq, hknown.reg_plain⟩, hreg,
          hvalid, hwire⟩

theorem sendbackData_done (h : Known channel chan s) (data : Bytes) :
    Done channel chan s (sendbackData answer chan data s).2 := by
  have hselect := channelSelect_spec answer h
  unfold sendbackData
  generalize channelSelect answer chan s = r at hselect
  obtain ⟨good, s₁⟩ := r
  cases good with
  | false => exact hselect.done_of_bad
  | true => exact hselect.done rfl (stays_sendLoop answer data s₁.world)

/-- The configuration of a power byte is the channel's with the strong pull-up. -/
theorem Selected.power (h : Selected channel chan s (true, s')) :
    Selected channel chan s
      (setConfiguration answer (s'.master.configreg chan ||| cfgSpu) chan s') := by
  have hbyte := plain_byte _ (h.known.reg_plain chan)
  have hset := setConfiguration_spec answer h.known hbyte.2.2.2.1 hbyte.2.2.1
  exact ⟨hset.known, hset.wire_eq.trans h.wire_eq, hset.reg_eq.trans h.reg_eq,
    hset.valid_eq.trans h.valid_eq,
    fun hgood => (hset.config_eq hgood).trans (congrFun h.reg_eq chan)⟩

theorem powerByte_done (h : Known channel chan s) (byte : Byte) :
    Done channel chan s (powerByte answer chan byte s).2 := by
  have hselect := channelSelect_spec answer h
  unfold powerByte
  generalize channelSelect answer chan s = r at hselect
  obtain ⟨good, s₁⟩ := r
  cases good with
  | false => exact hselect.done_of_bad
  | true =>
    have hpower := hselect.power answer
    dsimp only
    generalize setConfiguration answer (s₁.master.configreg chan ||| cfgSpu) chan s₁ = r at hpower
    obtain ⟨good, s₂⟩ := r
    cases good with
    | false => exact hpower.done_of_bad
    | true => exact hpower.done rfl (stays_sendAndGet answer byte s₂.world)

theorem apply_done (h : Known channel chan s) {op : Op} (hop : op.chan? = some chan) :
    Done channel chan s (apply answer s op) := by
  cases op with
  | redetect opened addressed => cases hop
  | reset k => cases hop; exact reset_done answer h
  | sendbackData k data => cases hop; exact sendbackData_done answer h data
  | powerByte k byte => cases hop; exact powerByte_done answer h byte

/-- As long as all operations are for it, the channel that is kept stays, and that of the chip. -/
theorem foldl_done (h : Known channel chan s) {ops : List Op}
    (hops : ∀ op ∈ ops, op.chan? = some chan) :
    Known channel chan (ops.foldl (apply answer) s) ∧
      (ops.foldl (apply answer) s).master.configreg = s.master.configreg ∧
      (ops.foldl (apply answer) s).master.valid = s.master.valid := by
  induction ops generalizing s with
  | nil => exact ⟨h, rfl, rfl⟩
  | cons op ops ih =>
    obtain ⟨hop, hops⟩ := List.forall_mem_cons.mp hops
    obtain ⟨hknown, hreg, hvalid, -⟩ := apply_done answer h hop
    obtain ⟨hknown', hreg', hvalid'⟩ := ih hknown hops
    exact ⟨hknown', hreg'.trans hreg, hvalid'.trans hvalid⟩

end

/-! ## A change of the channel -/

/-- The chip takes the channel, but the code does not learn of it. -/
def halfway : List Outcome → Bool
  | .unseen :: _ => true
  | .failed :: _ => false
  | _ :: .failed :: _ => true
  | _ :: .unseen :: _ => true
  | _ => false

theorem take_channel (x : Chip) (chan : Fin 8) :
    x.take cmdChannelSelect (wChan chan)
      = ({ x with channel := chan, pointer := .channel }, []) := by
  have hfind : ∀ chan : Fin 8,
      (List.finRange 8).find? (fun k => wChan k == wChan chan) = some chan := by decide
  simp only [Chip.take, cmdChannelSelect, cmdReset, cmdSetReadPtr]
  rw [if_neg (by decide), if_neg (by decide), if_pos trivial, hfind]

/-- The channel is changed, or nothing is; or it is changed and not known. -/
theorem changeChannel_spec (chan : Fin 8) (s : St) :
    (changeChannel answer chan s).2.world.wire = s.world.wire ∧
      (changeChannel answer chan s).2.world.chip.config = s.world.chip.config ∧
      (if halfway s.world.outcomes then
        (changeChannel answer chan s).1 = false ∧
          (changeChannel answer chan s).2.world.chip.channel = chan ∧
          (changeChannel answer chan s).2.master = s.master
      else
        ((changeChannel answer chan s).1 = false ∧
          (changeChannel answer chan s).2.world.chip.channel = s.world.chip.channel ∧
          (changeChannel answer chan s).2.master = s.master) ∨
        ((changeChannel answer chan s).1 = true ∧
          (changeChannel answer chan s).2.world.chip.channel = chan ∧
          (changeChannel answer chan s).2.master = { s.master with current := chan })) := by
  obtain ⟨master, chip, wire, outcomes⟩ := s
  unfold changeChannel writeByteData World.take
  rw [take_channel]
  rcases outcomes with _ | ⟨_ | _ | _ | _, _ | ⟨_ | _ | _ | _, outcomes⟩⟩ <;>
    simp [halfway, readByte, World.reply]

/-- An operation on this channel will change the channel of the chip and not learn of it. -/
def Unconfirmed (chan : Fin 8) (s : St) : Prop :=
  s.master.valid = true ∧ chan ≠ s.master.current ∧ halfway s.world.outcomes = true

instance (chan : Fin 8) (s : St) : Decidable (Unconfirmed chan s) :=
  inferInstanceAs (Decidable (_ ∧ _))

/-- What an operation does when its selection fails. -/
theorem apply_select {s : St} {op : Op} {chan : Fin 8} (hop : op.chan? = some chan)
    (hselect : (channelSelect answer chan s).1 = false) :
    apply answer s op = (channelSelect answer chan s).2 := by
  generalize hr : channelSelect answer chan s = r at hselect ⊢
  obtain ⟨good, s₁⟩ := r
  obtain rfl : good = false := hselect
  cases op with
  | redetect opened addressed => cases hop
  | reset k => cases hop; simp only [apply, reset, hr]
  | sendbackData k data => cases hop; simp only [apply, sendbackData, hr]
  | powerByte k byte => cases hop; simp only [apply, powerByte, hr]

/-- An operation looks at the state through its selection only. -/
theorem apply_congr {s s₁ : St} {op : Op} {chan : Fin 8} (hop : op.chan? = some chan)
    (hselect : channelSelect answer chan s = channelSelect answer chan s₁) :
    apply answer s op = apply answer s₁ op := by
  cases op with
  | redetect opened addressed => cases hop
  | reset k => cases hop; simp only [apply, reset, hselect]
  | sendbackData k data => cases hop; simp only [apply, sendbackData, hselect]
  | powerByte k byte => cases hop; simp only [apply, powerByte, hselect]

/-- The chip works for a channel that nobody knows of. -/
theorem apply_unconfirmed {s : St} (h : Coherent s) {op : Op} {chan : Fin 8}
    (hop : op.chan? = some chan) (hunconfirmed : Unconfirmed chan s) :
    Known chan s.master.current (apply answer s op) ∧ (apply answer s op).master = s.master ∧
      (apply answer s op).world.wire = s.world.wire := by
  obtain ⟨hvalid, hcurrent, hhalf⟩ := hunconfirmed
  obtain ⟨hwire, hconfig, hspec⟩ := changeChannel_spec answer chan s
  rw [if_pos hhalf] at hspec
  obtain ⟨hbad, hchannel, hmaster⟩ := hspec
  have hselect : channelSelect answer chan s = (false, (changeChannel answer chan s).2) := by
    unfold channelSelect
    rw [if_neg (by simp [hvalid]), if_pos hcurrent]
    generalize changeChannel answer chan s = r at hbad
    obtain ⟨good, s₁⟩ := r
    obtain rfl : good = false := hbad
    rfl
  rw [apply_select answer hop (by rw [hselect]), hselect]
  refine ⟨⟨hchannel, by rw [hmaster], ?_, ?_⟩, hmaster, hwire⟩
  · rw [hconfig, hmaster]
    exact h.config_eq
  · rw [hmaster]
    exact h.reg_plain

/-- Otherwise what is kept stays right, and all that is sent goes to the channel. -/
theorem apply_confirmed {s : St} (h : Coherent s) {op : Op} {chan : Fin 8}
    (hop : op.chan? = some chan) (hconfirmed : ¬ Unconfirmed chan s) :
    Coherent (apply answer s op) ∧ ∃ sent, (apply answer s op).world.wire = s.world.wire ++ sent ∧
      ∀ e ∈ sent, e.On chan (s.master.configreg chan) := by
  by_cases hvalid : s.master.valid = false
  · have hselect : channelSelect answer chan s = (false, s) := by
      unfold channelSelect
      rw [if_pos hvalid]
    rw [apply_select answer hop (by rw [hselect]), hselect]
    exact ⟨h, [], (List.append_nil _).symm, by simp⟩
  by_cases hcurrent : chan = s.master.current
  · have hdone := apply_done answer (hcurrent ▸ h.known) hop
    exact ⟨hdone.known.coherent, hdone.wire_eq⟩
  have hhalf : ¬ halfway s.world.outcomes = true := fun hhalf =>
    hconfirmed ⟨by simpa using hvalid, hcurrent, hhalf⟩
  obtain ⟨hwire, hconfig, hspec⟩ := changeChannel_spec answer chan s
  rw [if_neg hhalf] at hspec
  generalize hr : changeChannel answer chan s = r at hwire hconfig hspec
  obtain ⟨good, s₁⟩ := r
  rcases hspec with ⟨hgood, hchannel, hmaster⟩ | ⟨hgood, hchannel, hmaster⟩
  · obtain rfl : good = false := hgood
    have hselect : channelSelect answer chan s = (false, s₁) := by
      unfold channelSelect
      rw [if_neg hvalid, if_pos hcurrent, hr]
    rw [apply_select answer hop (by rw [hselect]), hselect]
    dsimp only at hmaster hchannel hconfig hwire ⊢
    refine ⟨⟨?_, ?_, ?_⟩, [], by rw [hwire, List.append_nil], by simp⟩
    · rw [hchannel, hmaster, h.channel_eq]
    · rw [hconfig, hmaster]
      exact h.config_eq
    · rw [hmaster]
      exact h.reg_plain
  · obtain rfl : good = true := hgood
    dsimp only at hmaster hchannel hconfig hwire
    have hknown : Known chan chan s₁ := by
      refine ⟨hchannel, by rw [hmaster], ?_, ?_⟩
      · rw [hconfig, hmaster]
        exact h.config_eq
      · rw [hmaster]
        exact h.reg_plain
    -- from here on it is the channel that is kept
    have hselect : channelSelect answer chan s = channelSelect answer chan s₁ := by
      have hvalid₁ : ¬ s₁.master.valid = false := by rw [hmaster]; exact hvalid
      unfold channelSelect
      rw [if_neg hvalid, if_neg hvalid₁, if_pos hcurrent, hr,
        if_neg (by rw [hknown.current_eq]; exact not_not.mpr rfl)]
    have hdone := apply_done answer hknown hop
    rw [apply_congr answer hop hselect]
    refine ⟨hdone.known.coherent, ?_⟩
    obtain ⟨sent, hsent, hon⟩ := hdone.wire_eq
    refine ⟨sent, by rw [hsent, hwire], ?_⟩
    rw [hmaster] at hon
    exact hon

/-! ## A reset of the chip -/

/-- The chip answers before the tries are used up. -/
def ready : Nat → List Outcome → Bool
  | _, [] | _, .done :: _ => true
  | _, .failed :: _ | _, .unseen :: _ | 0, .busy :: _ => false
  | tries + 1, .busy :: outcomes => ready tries outcomes

theorem readStatus_status (tries : Nat) {w : World} (h : w.chip.pointer = .status) :
    (readStatus answer tries w).1
      = if ready tries w.outcomes then some (answer w.wire &&& ~~~sts1wb) else none := by
  obtain ⟨chip, wire, outcomes⟩ := w
  replace h : chip.pointer = .status := h
  have hbusy : ∀ a : Byte, ((a ||| sts1wb) &&& sts1wb = 0) = False := by decide +kernel
  have hready (a : Byte) : a &&& ~~~sts1wb &&& sts1wb = 0 := by
    rw [BitVec.and_assoc, show ~~~sts1wb &&& sts1wb = 0 by decide]
    exact BitVec.and_zero
  induction tries generalizing outcomes with
  | zero =>
    unfold readStatus
    rcases outcomes with _ | ⟨_ | _ | _ | _, outcomes⟩ <;>
      simp only [readByte, World.reply, ready, h, hbusy, hready, if_true, if_false,
        Bool.false_eq_true]
  | succ tries ih =>
    unfold readStatus
    rcases outcomes with _ | ⟨_ | _ | _ | _, outcomes⟩ <;>
      simp only [readByte, World.reply, ready, h, hbusy, hready, ih, if_true, if_false,
        Bool.false_eq_true]
    rfl

/-- A redetection resets the chip. -/
def ChipReset (opened addressed : Bool) (s : St) : Prop :=
  opened = true ∧ addressed = true ∧ s.world.outcomes.head? ≠ some .failed

/-- It then learns that the chip was reset. -/
def ResetSeen (s : St) : Prop :=
  s.world.outcomes.head? ≠ some .unseen ∧ ready 3 s.world.outcomes.tail = true ∧
    answer (s.world.wire ++ [.deviceReset]) &&& ~~~sts1wb = stsAfterReset

/-- What is kept of the chip is what holds after a reset. -/
def Master.AsReset (master : Master) : Prop :=
  master.current = 0 ∧ (master.configchip = 0xFF ∨ master.configchip = 0)

instance (opened addressed : Bool) (s : St) : Decidable (ChipReset opened addressed s) :=
  inferInstanceAs (Decidable (_ ∧ _))

instance (s : St) : Decidable (ResetSeen answer s) := inferInstanceAs (Decidable (_ ∧ _))

instance (master : Master) : Decidable master.AsReset := inferInstanceAs (Decidable (_ ∧ _))

theorem redetect_of_not_reset {opened addressed : Bool} {s : St}
    (h : ¬ ChipReset opened addressed s) :
    (redetect answer opened addressed s).2.world.chip = s.world.chip ∧
      (redetect answer opened addressed s).2.master = s.master := by
  obtain ⟨master, chip, wire, outcomes⟩ := s
  unfold redetect
  split
  · exact ⟨rfl, rfl⟩
  · rename_i hopened
    rw [not_or, Bool.not_eq_false, Bool.not_eq_false] at hopened
    have hfailed : outcomes.head? = some .failed := by
      by_contra hne
      exact h ⟨hopened.1, hopened.2, hne⟩
    rcases outcomes with _ | ⟨_ | _ | _ | _, outcomes⟩ <;> cases hfailed
    exact ⟨rfl, rfl⟩

theorem redetect_of_reset {opened addressed : Bool} {s : St} (h : ChipReset opened addressed s) :
    (redetect answer opened addressed s).2.world.chip.channel = 0 ∧
      (redetect answer opened addressed s).2.world.chip.config = 0 ∧
      (redetect answer opened addressed s).2.master =
        if ResetSeen answer s then { s.master with valid := true, current := 0, configchip := 0 }
        else s.master := by
  obtain ⟨rfl, rfl, hfailed⟩ := h
  obtain ⟨master, chip, wire, outcomes⟩ := s
  dsimp only at hfailed
  have htake : chip.take cmdReset 0 = (⟨0, 0, false, .status⟩, [.deviceReset]) := rfl
  unfold redetect
  rw [if_neg (by simp)]
  -- the command is taken, but the code may not see it
  by_cases hunseen : outcomes.head? = some .unseen
  · have hseen : ¬ ResetSeen answer ⟨master, chip, wire, outcomes⟩ := fun hseen => hseen.1 hunseen
    rcases outcomes with _ | ⟨_ | _ | _ | _, outcomes⟩ <;> cases hunseen
    rw [if_neg hseen]
    exact ⟨rfl, rfl, rfl⟩
  · have hwrite : writeByteData cmdReset 0 ⟨chip, wire, outcomes⟩
        = (true, ⟨⟨0, 0, false, .status⟩, wire ++ [.deviceReset], outcomes.tail⟩) := by
      rcases outcomes with _ | ⟨_ | _ | _ | _, outcomes⟩ <;>
        first
        | exact absurd rfl hfailed
        | exact absurd rfl hunseen
        | rfl
    dsimp only
    rw [hwrite]
    dsimp only
    have hstatus := @readStatus_status answer 3
      ⟨⟨0, 0, false, .status⟩, wire ++ [.deviceReset], outcomes.tail⟩ rfl
    have hframe := readStatus_frame answer 3
      ⟨⟨0, 0, false, .status⟩, wire ++ [.deviceReset], outcomes.tail⟩
    generalize readStatus answer 3 _ = r at hstatus hframe
    obtain ⟨status, w⟩ := r
    dsimp only at hstatus hframe
    have hchip : w.chip.channel = 0 ∧ w.chip.config = 0 := by
      rw [hframe.1]
      exact ⟨rfl, rfl⟩
    have hseen : ResetSeen answer ⟨master, chip, wire, outcomes⟩ ↔ status = some stsAfterReset := by
      unfold ResetSeen
      dsimp only
      rw [hstatus]
      split <;> simp_all
    cases status with
    | none =>
      rw [if_neg (by rw [hseen]; nofun)]
      exact ⟨hchip.1, hchip.2, rfl⟩
    | some c =>
      rw [Option.some.injEq] at hseen
      dsimp only
      by_cases hc : c = stsAfterReset
      · rw [if_neg (not_not.mpr hc), if_pos (hseen.mpr hc)]
        exact ⟨hchip.1, hchip.2, rfl⟩
      · rw [if_pos hc, if_neg (mt hseen.mp hc)]
        exact ⟨hchip.1, hchip.2, rfl⟩

/-! ## Runs -/

/-- The operation does not change what the chip works for without learning of it. After the chip was
reset it works for channel 0 with a configuration of zero. -/
def Confirmed (s : St) : Op → Prop
  | .reset chan | .sendbackData chan _ | .powerByte chan _ => ¬ Unconfirmed chan s
  | .redetect opened addressed =>
    ChipReset opened addressed s → ResetSeen answer s ∨ s.master.AsReset

instance (s : St) : (op : Op) → Decidable (Confirmed answer s op)
  | .reset chan | .sendbackData chan _ | .powerByte chan _ =>
    inferInstanceAs (Decidable (¬ Unconfirmed chan s))
  | .redetect opened addressed =>
    inferInstanceAs (Decidable (ChipReset opened addressed s → _ ∨ _))

theorem confirmed_iff_of_chan {s : St} {op : Op} {chan : Fin 8} (hop : op.chan? = some chan) :
    Confirmed answer s op ↔ ¬ Unconfirmed chan s := by
  cases op <;> cases hop <;> rfl

theorem coherent_redetect_iff {s : St} (h : Coherent s) (opened addressed : Bool) :
    Coherent (redetect answer opened addressed s).2 ↔
      Confirmed answer s (.redetect opened addressed) := by
  by_cases hreset : ChipReset opened addressed s
  · obtain ⟨hchannel, hconfig, hmaster⟩ := redetect_of_reset answer hreset
    have hzero : plain 0 = 0 := by decide
    by_cases hseen : ResetSeen answer s
    · rw [if_pos hseen] at hmaster
      refine ⟨fun _ _ => .inl hseen, fun _ => ⟨?_, .inr ?_, ?_⟩⟩
      · rw [hchannel, hmaster]
      · rw [hconfig, hmaster, hzero]
      · rw [hmaster]
        exact h.reg_plain
    · rw [if_neg hseen] at hmaster
      constructor
      · intro hcoherent _
        have hcurrent := hcoherent.channel_eq
        have hknown := hcoherent.config_eq
        rw [hchannel, hmaster] at hcurrent
        rw [hconfig, hmaster, hzero] at hknown
        exact .inr ⟨hcurrent.symm, hknown.imp_right Eq.symm⟩
      · intro hconfirmed
        obtain ⟨hcurrent, hknown⟩ := (hconfirmed hreset).resolve_left hseen
        refine ⟨?_, ?_, ?_⟩
        · rw [hchannel, hmaster, hcurrent]
        · rw [hconfig, hmaster, hzero]
          exact hknown.imp_right Eq.symm
        · rw [hmaster]
          exact h.reg_plain
  · obtain ⟨hchip, hmaster⟩ := redetect_of_not_reset answer hreset
    refine ⟨fun _ hreset' => absurd hreset' hreset, fun _ => ⟨?_, ?_, ?_⟩⟩
    · rw [hchip, hmaster, h.channel_eq]
    · rw [hchip, hmaster]
      exact h.config_eq
    · rw [hmaster]
      exact h.reg_plain

/-- What is kept stays right in the steps that are confirmed, and only in them. -/
theorem coherent_apply_iff {s : St} (h : Coherent s) (op : Op) :
    Coherent (apply answer s op) ↔ Confirmed answer s op := by
  cases hop : op.chan? with
  | none =>
    cases op with
    | reset _ | sendbackData _ _ | powerByte _ _ => cases hop
    | redetect opened addressed => exact coherent_redetect_iff answer h opened addressed
  | some chan =>
    rw [confirmed_iff_of_chan answer hop]
    refine ⟨fun hcoherent hunconfirmed => ?_, fun hconfirmed => ?_⟩
    · obtain ⟨hknown, hmaster, -⟩ := apply_unconfirmed answer h hop hunconfirmed
      have hcurrent := hcoherent.channel_eq
      rw [hknown.channel_eq, hmaster] at hcurrent
      exact hunconfirmed.2.1 hcurrent
    · exact (apply_confirmed answer h hop hconfirmed).1

/-! ## Transfers that do not fail -/

/-- The transfers to come are made. -/
def World.Undisturbed (w : World) : Prop := ∀ o ∈ w.outcomes, o = .done

instance (w : World) : Decidable w.Undisturbed :=
  inferInstanceAs (Decidable (∀ o ∈ w.outcomes, o = .done))

theorem writeByteData_undisturbed (command value : Byte) {w : World} (h : w.Undisturbed) :
    ∃ w', writeByteData command value w = (true, w') ∧ w'.Undisturbed ∧
      w'.chip = (w.chip.take command value).1 ∧
      w'.wire = w.wire ++ (w.chip.take command value).2 := by
  obtain ⟨chip, wire, outcomes⟩ := w
  cases outcomes with
  | nil => exact ⟨_, rfl, h, rfl, rfl⟩
  | cons o outcomes =>
    obtain ⟨rfl, hrest⟩ := List.forall_mem_cons.mp h
    exact ⟨_, rfl, hrest, rfl, rfl⟩

theorem readByte_undisturbed {w : World} (h : w.Undisturbed) :
    ∃ w', readByte answer w = (some (w.reply answer false), w') ∧ w'.Undisturbed ∧
      w'.chip = w.chip ∧ w'.wire = w.wire := by
  obtain ⟨chip, wire, outcomes⟩ := w
  cases outcomes with
  | nil => exact ⟨_, rfl, h, rfl, rfl⟩
  | cons o outcomes =>
    obtain ⟨rfl, hrest⟩ := List.forall_mem_cons.mp h
    exact ⟨_, rfl, hrest, rfl, rfl⟩

theorem readStatus_undisturbed (tries : Nat) {w : World} (h : w.Undisturbed)
    (hpointer : w.chip.pointer = .status) :
    ∃ c w', readStatus answer tries w = (some c, w') ∧ w'.Undisturbed ∧ w'.wire = w.wire := by
  obtain ⟨w', hread, hw', -, hwire⟩ := readByte_undisturbed answer h
  have hready : w.reply answer false &&& sts1wb = 0 := by
    rw [World.reply, hpointer]
    simp only [Bool.false_eq_true, if_false]
    rw [BitVec.and_assoc, show ~~~sts1wb &&& sts1wb = 0 by decide]
    exact BitVec.and_zero
  refine ⟨w.reply answer false, w', ?_, hw', hwire⟩
  unfold readStatus
  rw [hread]
  dsimp only
  rw [if_pos hready]

/-- What an event is: a reset, or a byte. -/
def Event.slot : Event → Option Byte
  | .byte _ _ b => some b
  | _ => none

/-- What an operation is to put on the bus of a channel. -/
def Op.slots : Op → List (Option Byte)
  | .reset _ => [none]
  | .sendbackData _ data => data.map some
  | .powerByte _ byte => [some byte]
  | .redetect _ _ => []

/-- The operation answers that it was made. -/
def Succeeds (s : St) : Op → Bool
  | .reset chan => (reset answer chan s).1 != .error
  | .sendbackData chan data => (sendbackData answer chan data s).1.isSome
  | .powerByte chan byte => (powerByte answer chan byte s).1.isSome
  | .redetect opened addressed => (redetect answer opened addressed s).1

theorem sendAndGet_undisturbed (b : Byte) {w : World} (h : w.Undisturbed) :
    ∃ r w' e, sendAndGet answer b w = (some r, w') ∧ w'.Undisturbed ∧ w'.wire = w.wire ++ [e] ∧
      e.slot = some b := by
  have htake : ∃ x e, w.chip.take cmd1WireWriteByte b = (x, [e]) ∧ x.pointer = .status ∧
      e.slot = some b := ⟨_, _, rfl, rfl, rfl⟩
  obtain ⟨x, e, htake, hpointer, hslot⟩ := htake
  obtain ⟨w₁, hwrite, hw₁, hchip₁, hwire₁⟩ := writeByteData_undisturbed cmd1WireWriteByte b h
  rw [htake] at hchip₁ hwire₁
  obtain ⟨c, w₂, hstatus, hw₂, hwire₂⟩ :=
    readStatus_undisturbed answer 3 hw₁ (by rw [hchip₁, hpointer])
  obtain ⟨w₃, hset, hw₃, -, hwire₃⟩ := writeByteData_undisturbed cmdSetReadPtr readDataRegister hw₂
  obtain ⟨w₄, hread, hw₄, -, hwire₄⟩ := readByte_undisturbed answer hw₃
  refine ⟨w₃.reply answer false, w₄, e, ?_, hw₄, ?_, hslot⟩
  · simp only [sendAndGet, hwrite, hstatus, hset, hread]
  · have hnone : (w₂.chip.take cmdSetReadPtr readDataRegister).2 = [] := rfl
    rw [hwire₄, hwire₃, hnone, List.append_nil, hwire₂, hwire₁]

theorem sendLoop_undisturbed (data : Bytes) {w : World} (h : w.Undisturbed) :
    ∃ resp w' sent, sendLoop answer data w = (some resp, w') ∧ w'.wire = w.wire ++ sent ∧
      sent.map Event.slot = data.map some := by
  induction data generalizing w with
  | nil => exact ⟨[], w, [], rfl, (List.append_nil _).symm, rfl⟩
  | cons b data ih =>
    obtain ⟨r, w₁, e, hsend, hw₁, hwire₁, hslot⟩ := sendAndGet_undisturbed answer b h
    obtain ⟨resp, w₂, sent, hloop, hwire₂, hslots⟩ := ih hw₁
    refine ⟨r :: resp, w₂, e :: sent, ?_, ?_, ?_⟩
    · simp only [sendLoop, hsend, hloop]
    · rw [hwire₂, hwire₁, List.append_assoc, List.singleton_append]
    · rw [List.map_cons, List.map_cons, hslot, hslots]

theorem setConfiguration_undisturbed {c : Byte} (hc : c &&& 0xF0 = 0) (chan : Fin 8) {s : St}
    (h : s.world.Undisturbed) :
    ∃ s', setConfiguration answer c chan s = (true, s') ∧ s'.world.Undisturbed ∧
      s'.world.wire = s.world.wire := by
  obtain ⟨w₁, hwrite, hw₁, hchip₁, hwire₁⟩ :=
    writeByteData_undisturbed cmdWriteConfig (c ||| (~~~c <<< 4)) h
  rw [take_config _ hc] at hchip₁ hwire₁
  obtain ⟨w₂, hread, hw₂, -, hwire₂⟩ := readByte_undisturbed answer hw₁
  have hback : w₁.reply answer false = c := by rw [World.reply, hchip₁]
  refine ⟨⟨{ s.master with
      configchip := plain c
      configreg := Function.update s.master.configreg chan (plain c) }, w₂⟩,
    ?_, hw₂, ?_⟩
  · simp [setConfiguration, hwrite, hread, hback]
  · dsimp only
    rw [hwire₂, hwire₁, List.append_nil]

theorem channelSelect_undisturbed {s : St} {channel chan : Fin 8} (hknown : Known channel chan s)
    (hvalid : s.master.valid = true) (h : s.world.Undisturbed) :
    ∃ s', channelSelect answer chan s = (true, s') ∧ s'.world.Undisturbed ∧
      s'.world.wire = s.world.wire := by
  unfold channelSelect
  rw [if_neg (by simp [hvalid]), if_neg (by rw [hknown.current_eq]; exact not_not.mpr rfl)]
  dsimp only
  split
  · exact setConfiguration_undisturbed answer (plain_byte _ (hknown.reg_plain chan)).1 chan h
  · exact ⟨s, rfl, h, rfl⟩

/-- If no transfer fails, an operation of the channel that is kept is made. -/
theorem apply_undisturbed {s : St} {channel chan : Fin 8} (hknown : Known channel chan s)
    (hvalid : s.master.valid = true) (h : s.world.Undisturbed) {op : Op}
    (hop : op.chan? = some chan) :
    Succeeds answer s op = true ∧ ∃ sent, (apply answer s op).world.wire = s.world.wire ++ sent ∧
      sent.map Event.slot = op.slots := by
  obtain ⟨s₁, hselect, h₁, hwire₁⟩ := channelSelect_undisturbed answer hknown hvalid h
  have hselected := channelSelect_spec answer hknown
  rw [hselect] at hselected
  cases op with
  | redetect opened addressed => cases hop
  | reset k =>
    cases hop
    have htake : ∃ x e, s₁.world.chip.take cmd1WireReset 0 = (x, [e]) ∧ x.pointer = .status ∧
        e.slot = none := ⟨_, _, rfl, rfl, rfl⟩
    obtain ⟨x, e, htake, hpointer, hslot⟩ := htake
    obtain ⟨w₂, hwrite, hw₂, hchip₂, hwire₂⟩ := writeByteData_undisturbed cmd1WireReset 0 h₁
    rw [htake] at hchip₂ hwire₂
    obtain ⟨c, w₃, hstatus, -, hwire₃⟩ :=
      readStatus_undisturbed answer 3 hw₂ (by rw [hchip₂, hpointer])
    refine ⟨?_, [e], ?_, by rw [List.map_singleton, hslot]; rfl⟩
    · simp only [Succeeds, reset, hselect, hwrite, hstatus]
      split <;> rfl
    · simp only [apply, reset, hselect, hwrite, hstatus]
      rw [hwire₃, hwire₂, hwire₁]
  | sendbackData k data =>
    cases hop
    obtain ⟨resp, w₂, sent, hloop, hwire₂, hslots⟩ := sendLoop_undisturbed answer data h₁
    refine ⟨?_, sent, ?_, hslots⟩
    · simp only [Succeeds, sendbackData, hselect, hloop, Option.isSome_some]
    · simp only [apply, sendbackData, hselect, hloop]
      rw [hwire₂, hwire₁]
  | powerByte k byte =>
    cases hop
    have hbyte := plain_byte _ (hselected.known.reg_plain chan)
    obtain ⟨s₂, hset, h₂, hwire₂⟩ :=
      setConfiguration_undisturbed answer hbyte.2.2.2.1 chan h₁
    obtain ⟨r, w₃, e, hsend, -, hwire₃, hslot⟩ := sendAndGet_undisturbed answer byte h₂
    refine ⟨?_, [e], ?_, by rw [List.map_singleton, hslot]; rfl⟩
    · simp only [Succeeds, powerByte, hselect, hset, hsend, Option.isSome_some]
    · simp only [apply, powerByte, hselect, hset, hsend]
      rw [hwire₃, hwire₂, hwire₁]

end

/-- A bus with a device that echoes bytes. -/
def sampleAnswer (wire : List Event) : Byte :=
  match wire.getLast? with
  | some .deviceReset => stsAfterReset
  | some (.byte _ _ b) => b
  | _ => stsPpd

def sampleState (outcomes : List Outcome) : St where
  master := ⟨true, 0, 0, fun _ => 0x01, fun _ => false⟩
  world := ⟨⟨0, 0, false, .status⟩, [], outcomes⟩

end Owfs.Ds2482
