import Owfs.Path.SerialNumber

/-!
# Names of devices

A device is shown by its serial number, in one of six formats (`FS_devicename`, `ow_name.c`): with
dots before and behind the number or without them, and with the checksum or without it. All of them
are read by `Parse_SerialNumber`, and nothing else is. What digits stand for is said by `HexText`,
without the decoder.

The buffers that names are printed to are long enough for all formats.
-/

namespace Owfs.Path

open Infra Owfs.Device

/-! ## Printing -/

/-- `enum deviceformat` -/
inductive Deviceformat where
  | fdi | fi | fdidc | fdic | fidc | fic
deriving DecidableEq

/-- `FS_devicename` -/
def fsDevicename (format : Deviceformat) (sn : SerialNumber) : Bytes :=
  let family := bytes2string (sn.bytes.take 1)
  let id := bytes2string ((sn.bytes.drop 1).take 6)
  let crc := bytes2string (sn.bytes.drop 7)
  match format with
  | .fi => family ++ id
  | .fdidc => family ++ [chr '.'] ++ id ++ [chr '.'] ++ crc
  | .fdic => family ++ [chr '.'] ++ id ++ crc
  | .fidc => family ++ id ++ [chr '.'] ++ crc
  | .fic => family ++ id ++ crc
  | .fdi => family ++ [chr '.'] ++ id

/-! ## What digits stand for -/

/-- A hexadecimal digit and its value. -/
def HexDigit (c : Byte) (v : Nat) : Prop :=
  (ascii "0123456789ABCDEF")[v]? = some c ∨ (ascii "0123456789abcdef")[v]? = some c

instance (c : Byte) (v : Nat) : Decidable (HexDigit c v) :=
  inferInstanceAs (Decidable (_ ∨ _))

/-- Digits and the bytes they stand for, two digits for each. -/
inductive HexText : Bytes → Bytes → Prop
  | nil : HexText [] []
  | cons {high low : Byte} {v w : Nat} {text bytes : Bytes} :
      HexDigit high v → HexDigit low w → HexText text bytes →
      HexText (high :: low :: text) (BitVec.ofNat 8 (16 * v + w) :: bytes)

theorem hexDigit_hexValue : ∀ c : Byte, isXdigit c = true → HexDigit c (hexValue c).toNat := by
  decide +kernel

/-- The decoder puts the values of two digits together. -/
theorem string2num_eq (high low : Byte) (rest : Bytes) :
    string2num (high :: low :: rest) =
      BitVec.ofNat 8 (16 * (hexValue high).toNat + (hexValue low).toNat) := by
  apply BitVec.eq_of_toNat_eq
  show (hexValue high <<< 4 + hexValue low).toNat = _
  rw [BitVec.toNat_add, BitVec.toNat_shiftLeft, BitVec.toNat_ofNat, Nat.shiftLeft_eq]
  omega

/-- What is read from pairs of digits is what they stand for. -/
theorem hexText_string2num (n : Nat) {s : Bytes} (hlen : s.length = 2 * n)
    (hall : s.all isXdigit = true) :
    HexText s ((List.range n).map fun i => string2num (s.drop (2 * i))) := by
  induction n generalizing s with
  | zero =>
    obtain rfl := List.length_eq_zero_iff.mp hlen
    exact .nil
  | succ n ih =>
    match s, hlen, hall with
    | high :: low :: rest, hlen, hall =>
      simp only [List.all_cons, Bool.and_eq_true] at hall
      obtain ⟨hhigh, hlow, hrest⟩ := hall
      have hpairs := ih (s := rest) (by simpa [Nat.mul_add] using hlen) hrest
      rw [List.range_succ_eq_map, List.map_cons, List.map_map, Nat.mul_zero, List.drop_zero,
        string2num_eq]
      exact .cons (hexDigit_hexValue high hhigh) (hexDigit_hexValue low hlow) hpairs

theorem HexText.append {s t a b : Bytes} (h : HexText s a) (h' : HexText t b) :
    HexText (s ++ t) (a ++ b) := by
  induction h with
  | nil => exact h'
  | cons hhigh hlow _ ih => exact .cons hhigh hlow ih

/-! ## Reading -/

/-- Hexadecimal digits, as many as given. -/
def HexDigits (n : Nat) (s : Bytes) : Prop := s.length = n ∧ s.all isXdigit = true

/-- A text in the form of a serial number. -/
structure SnText where
  family : Bytes
  firstDot : Bool
  id : Bytes
  secondDot : Bool
  crc : Option Bytes
  family_digits : HexDigits 2 family
  id_digits : HexDigits 12 id
  crc_digits : ∀ c ∈ crc, HexDigits 2 c

/-- A dot, if there is one. -/
def dotText (dot : Bool) : Bytes := if dot then [chr '.'] else []

def SnText.text (x : SnText) : Bytes :=
  x.family ++ (dotText x.firstDot ++ (x.id ++ (dotText x.secondDot ++ x.crc.getD [])))

/-- What it says, if the checksum agrees. -/
def SnText.number (x : SnText) : SerialNumber := snOfText x.family x.id

theorem run_rxDot_dot (s : Bytes) : rxDot.run (chr '.' :: s) = [([], s), ([], chr '.' :: s)] := rfl

theorem run_rxDot {s : Bytes} (h : s.head? ≠ some (chr '.')) : rxDot.run s = [([], s)] := by
  cases s with
  | nil => rfl
  | cons b s =>
    have hb : (b == chr '.') = false := beq_eq_false_iff_ne.mpr fun he => h (by rw [he]; rfl)
    simp [rxDot, Rx.run, Rx.groups, hb]

theorem HexDigits.head? {n : Nat} {s : Bytes} (h : HexDigits (n + 1) s) (rest : Bytes) :
    (s ++ rest).head? ≠ some (chr '.') := by
  obtain ⟨hlen, hall⟩ := h
  obtain ⟨b, s, rfl⟩ := List.exists_cons_of_length_eq_add_one hlen
  intro hdot
  obtain rfl : b = chr '.' := by simpa using hdot
  exact absurd hall (by simp [isXdigit, isDigit, chr])

/-- A dot is not a digit. -/
theorem run_group_dot (n : Nat) (s : Bytes) :
    (Rx.group (.exactly isXdigit (n + 1))).run (chr '.' :: s) = [] := by
  have hdot : isXdigit (chr '.') = false := by decide
  simp [Rx.run, Rx.run_exactly, hdot]

theorem HexDigits.run_group {n : Nat} {s : Bytes} (h : HexDigits n s) (rest : Bytes) :
    (Rx.group (.exactly isXdigit n)).run (s ++ rest) = [([some s], rest)] := by
  rw [← h.1]
  exact Rx.run_group_exactly h.2 rest

/-- An optional dot, digits, and what follows. -/
theorem run_dot_digits {n : Nat} {s : Bytes} (h : HexDigits (n + 1) s) (dot : Bool) (r : Rx)
    (rest : Bytes) :
    (Rx.cat rxDot (.cat (.group (.exactly isXdigit (n + 1))) r)).run (dotText dot ++ (s ++ rest))
      = (r.run rest).map fun m => (some s :: m.1, m.2) := by
  cases dot with
  | false =>
    rw [dotText, if_neg Bool.false_ne_true, List.nil_append, Rx.run_cat, run_rxDot (h.head? rest),
      List.flatMap_singleton, Rx.run_cat, h.run_group]
    simp
  | true =>
    rw [dotText, if_pos rfl, List.singleton_append, Rx.run_cat, run_rxDot_dot, List.flatMap_cons,
      List.flatMap_singleton, Rx.run_cat, Rx.run_cat, h.run_group, run_group_dot]
    simp

/-- An optional dot and the digits of the checksum, if there are any. -/
theorem run_dot_crc {crc : Option Bytes} (h : ∀ c ∈ crc, HexDigits 2 c) (dot : Bool) :
    ∃ others, (Rx.cat rxDot (.opt (.group (.exactly isXdigit 2)))).run (dotText dot ++ crc.getD [])
      = ([crc], []) :: others := by
  cases crc with
  | none =>
    cases dot with
    | false => exact ⟨[], rfl⟩
    | true => exact ⟨_, rfl⟩
  | some c =>
    have hc := h c rfl
    have hrun := hc.run_group []
    have hhead := hc.head? []
    rw [List.append_nil] at hrun hhead
    cases dot with
    | false =>
      rw [dotText, if_neg Bool.false_ne_true, List.nil_append, Option.getD_some, Rx.run_cat,
        run_rxDot hhead, List.flatMap_singleton, Rx.run_opt, hrun]
      exact ⟨_, rfl⟩
    | true =>
      rw [dotText, if_pos rfl, List.singleton_append, Option.getD_some, Rx.run_cat, run_rxDot_dot,
        List.flatMap_cons, Rx.run_opt, hrun]
      exact ⟨_, rfl⟩

/-- Every text of this form is matched, with its parts as groups. -/
theorem execAtStart_text (x : SnText) :
    rxSnParse.execAtStart true x.text = some ([some x.family, some x.id, x.crc], []) := by
  obtain ⟨others, hcrc⟩ := run_dot_crc x.crc_digits x.secondDot
  have hrun : rxSnParse.run x.text = ([some x.family, some x.id, x.crc], []) ::
      others.map fun m => (some x.family :: some x.id :: m.1, m.2) := by
    rw [rxSnParse, Rx.run_cat, SnText.text, x.family_digits.run_group, List.flatMap_singleton,
      run_dot_digits x.id_digits, hcrc]
    simp
  rw [Rx.execAtStart, hrun]
  rfl

/-- What `Parse_SerialNumber` makes of such a text. -/
theorem parseSerialNumber_text (x : SnText) :
    parseSerialNumber x.text =
      if ∀ c ∈ x.crc, string2num c = x.number.bytes.getD 7 0 then .valid x.number
        else .invalid := by
  rw [parseSerialNumber, execAtStart_text]
  cases hcrc : x.crc with
  | none => simp [SnText.number]
  | some c => simp [SnText.number, ite_not]

theorem mem_run_rxDot {s : Bytes} {m : Rx.Captures × Bytes} (h : m ∈ rxDot.run s) :
    ∃ dot, s = dotText dot ++ m.2 := by
  rw [rxDot, Rx.run_opt, List.mem_append, List.mem_singleton] at h
  obtain h | rfl := h
  · cases s with
    | nil => cases h
    | cons b s =>
      rw [Rx.run] at h
      split at h
      · rename_i hb
        obtain rfl := List.mem_singleton.mp h
        exact ⟨true, by rw [beq_iff_eq.mp hb]; rfl⟩
      · cases h
  · exact ⟨false, rfl⟩

/-- Nothing else is taken for a serial number. -/
theorem exists_text {s : Bytes} (h : parseSerialNumber s ≠ .notSn) : ∃ x : SnText, s = x.text := by
  have hexec : ∃ m, rxSnParse.execAtStart true s = some m := by
    rw [← Option.isSome_iff_exists, ← Option.ne_none_iff_isSome]
    intro hnone
    rw [parseSerialNumber, hnone] at h
    exact h rfl
  obtain ⟨m, hexec⟩ := hexec
  have hend : m.2 = [] := by simpa using List.find?_some hexec
  obtain ⟨m₁, hm₁, r₁, hr₁, hcat₁⟩ := Rx.mem_run_cat (List.mem_of_find?_eq_some hexec)
  obtain ⟨m₂, hm₂, r₂, hr₂, hcat₂⟩ := Rx.mem_run_cat hr₁
  obtain ⟨m₃, hm₃, r₃, hr₃, hcat₃⟩ := Rx.mem_run_cat hr₂
  obtain ⟨m₄, hm₄, r₄, hr₄, hcat₄⟩ := Rx.mem_run_cat hr₃
  obtain ⟨family, hfamily, hfamily', rfl, -⟩ := Rx.mem_run_group_exactly hm₁
  obtain ⟨firstDot, hfirst⟩ := mem_run_rxDot hm₂
  obtain ⟨id, hid, hid', hid'', -⟩ := Rx.mem_run_group_exactly hm₃
  obtain ⟨secondDot, hsecond⟩ := mem_run_rxDot hm₄
  have hrest : r₄.2 = [] := by
    rw [← hend, hcat₁, hcat₂, hcat₃, hcat₄]
  rw [Rx.run_opt, List.mem_append, List.mem_singleton] at hr₄
  obtain hcrc | rfl := hr₄
  · obtain ⟨crc, hcrc, hcrc', hcrc'', -⟩ := Rx.mem_run_group_exactly hcrc
    refine ⟨⟨family, firstDot, id, secondDot, some crc, ⟨hfamily, hfamily'⟩, ⟨hid, hid'⟩, ?_⟩, ?_⟩
    · rintro c ⟨⟩
      exact ⟨hcrc, hcrc'⟩
    · rw [SnText.text, hfirst, hid'', hsecond, hcrc'', hrest, List.append_nil]
      rfl
  · refine ⟨⟨family, firstDot, id, secondDot, none, ⟨hfamily, hfamily'⟩, ⟨hid, hid'⟩, nofun⟩, ?_⟩
    rw [SnText.text, hfirst, hid'', hsecond]
    exact congrArg _ (congrArg _ (congrArg _ (congrArg _ hrest)))

/-! ## Printing and reading -/

theorem string2num_num2string : ∀ n : Byte, string2num (num2string n) = n := by
  decide +kernel

theorem hexDigits_num2string : ∀ n : Byte, (num2string n).all isXdigit = true := by
  decide +kernel

theorem hexDigits_bytes2string (b : Bytes) : HexDigits (2 * b.length) (bytes2string b) := by
  induction b with
  | nil => exact ⟨rfl, rfl⟩
  | cons n b ih =>
    refine ⟨?_, ?_⟩
    · rw [bytes2string, List.flatMap_cons, List.length_append, ← bytes2string, ih.1,
        List.length_cons, num2string]
      simp only [List.length_cons, List.length_nil]
      omega
    · rw [bytes2string, List.flatMap_cons, List.all_append, hexDigits_num2string, ← bytes2string,
        ih.2]
      rfl

/-- Two digits of a printed number, and what follows. -/
theorem string2num_append (n : Byte) (s : Bytes) : string2num (num2string n ++ s) = n :=
  string2num_num2string n

/-- Every second digit of printed bytes starts one of them. -/
theorem map_string2num_bytes2string (b : Bytes) :
    ((List.range b.length).map fun i => string2num ((bytes2string b).drop (2 * i))) = b := by
  induction b with
  | nil => rfl
  | cons n b ih =>
    have hdrop (i : Nat) :
        (bytes2string (n :: b)).drop (2 * (i + 1)) = (bytes2string b).drop (2 * i) := by
      rw [bytes2string, List.flatMap_cons, ← bytes2string, Nat.mul_add, Nat.add_comm,
        ← List.drop_drop]
      rfl
    rw [List.length_cons, List.range_succ_eq_map, List.map_cons, List.map_map]
    refine congrArg₂ List.cons (string2num_append n _) (Eq.trans ?_ ih)
    exact List.map_congr_left fun i _ => congrArg string2num (hdrop i)

theorem bytes_snOfText (family id : Bytes) : (snOfText family id).bytes =
    (string2num family :: (List.range 6).map fun i => string2num (id.drop (2 * i))) ++
      [crc8Compute (string2num family :: (List.range 6).map fun i => string2num (id.drop (2 * i)))
      0] := rfl

/-- The bytes of a serial number are those its digits stand for, and their checksum. -/
theorem hexText_snOfText {family id : Bytes} (hfamily : HexDigits 2 family)
    (hid : HexDigits 12 id) :
    ∃ seven, HexText (family ++ id) seven ∧
      (snOfText family id).bytes = seven ++ [crc8Compute seven 0] := by
  refine ⟨_, ?_, bytes_snOfText family id⟩
  have hfirst := hexText_string2num 1 hfamily.1 hfamily.2
  exact hfirst.append (hexText_string2num 6 hid.1 hid.2)

/-- The number that stands in its printed digits. -/
theorem snOfText_bytes2string (family : Byte) {id : Bytes} (hid : id.length = 6) :
    (snOfText (bytes2string [family]) (bytes2string id)).bytes = (family :: id) ++
    [crc8Compute (family :: id) 0] := by
  have hfamily : string2num (bytes2string [family]) = family := by
    rw [bytes2string, List.flatMap_singleton, string2num_num2string]
  have hnumbers := map_string2num_bytes2string id
  rw [hid] at hnumbers
  rw [bytes_snOfText, hfamily, hnumbers]

/-- The printed name, taken apart. -/
def nameText (family : Byte) (id : Bytes) (hid : id.length = 6) (firstDot secondDot : Bool)
    (crc : Option Byte) : SnText where
  family := bytes2string [family]
  firstDot := firstDot
  id := bytes2string id
  secondDot := secondDot
  crc := crc.map fun c => bytes2string [c]
  family_digits := hexDigits_bytes2string [family]
  id_digits := by
    have hdigits := hexDigits_bytes2string id
    rwa [hid] at hdigits
  crc_digits := by
    rintro c hc
    obtain ⟨n, -, rfl⟩ := Option.map_eq_some_iff.mp hc
    exact hexDigits_bytes2string [n]

/-- The parts of a number with a good checksum. -/
theorem bytes_of_crcValid {sn : SerialNumber} (h : sn.CrcValid) : ∃ family id, id.length = 6 ∧
    sn.bytes = (family :: id) ++ [crc8Compute (family :: id) 0] := by
  have hlen := sn.length_bytes
  rw [SerialNumber.CrcValid] at h
  generalize sn.bytes = bytes at h hlen
  obtain ⟨family, bytes, rfl⟩ := List.exists_cons_of_length_eq_add_one hlen
  rw [List.length_cons, Nat.succ.injEq] at hlen
  have hne := List.ne_nil_of_length_eq_add_one hlen
  have hlast := List.dropLast_append_getLast hne
  rw [← hlast, ← List.cons_append, crc8_concat_eq_zero_iff] at h
  refine ⟨family, bytes.dropLast, by rw [List.length_dropLast, hlen], ?_⟩
  rw [← crc8, ← h, List.cons_append, hlast]

/-- The byte behind the first seven. -/
theorem getD_seven {sn : SerialNumber} {seven : Bytes} {c : Byte} (h : sn.bytes = seven ++ [c]) :
    sn.bytes.getD 7 0 = c := by
  have hlen := sn.length_bytes
  rw [h, List.length_append, List.length_singleton] at hlen
  rw [h, List.getD_append_right _ _ _ _ (by omega), show seven.length = 7 by omega]
  rfl

/-- A name is read as the device whose bytes it prints, if its checksum is theirs. -/
theorem parseSerialNumber_nameText {sn : SerialNumber} {family : Byte} {id : Bytes}
    (hid : id.length = 6) (hbytes : sn.bytes = (family :: id) ++ [crc8Compute (family :: id) 0])
    (firstDot secondDot : Bool) (crc : Option Byte)
    (h : ∀ c ∈ crc, c = crc8Compute (family :: id) 0) :
    parseSerialNumber (nameText family id hid firstDot secondDot crc).text = .valid sn := by
  have hnumber : (nameText family id hid firstDot secondDot crc).number = sn :=
    SerialNumber.eq_of_bytes ((snOfText_bytes2string family hid).trans hbytes.symm)
  rw [parseSerialNumber_text, hnumber, if_pos]
  intro c hc
  obtain ⟨n, hn, rfl⟩ := Option.map_eq_some_iff.mp hc
  rw [getD_seven hbytes, ← h n hn]
  exact string2num_append n []

/-- What is printed is read as the same device. -/
theorem parseSerialNumber_fsDevicename (format : Deviceformat) {sn : SerialNumber}
    (hcrc : sn.CrcValid) : parseSerialNumber (fsDevicename format sn) = .valid sn := by
  obtain ⟨family, id, hid, hbytes⟩ := bytes_of_crcValid hcrc
  have hname := parseSerialNumber_nameText hid hbytes
  have hfamily : sn.bytes.take 1 = [family] := by
    rw [hbytes]
    rfl
  have hrest : sn.bytes.drop 1 = id ++ [crc8Compute (family :: id) 0] := by
    rw [hbytes]
    rfl
  have hid' : (sn.bytes.drop 1).take 6 = id := by
    rw [hrest, List.take_left' hid]
  have hcrc' : sn.bytes.drop 7 = [crc8Compute (family :: id) 0] := by
    rw [← List.drop_drop (i := 6) (j := 1), hrest, List.drop_left' hid]
  have htext (firstDot secondDot : Bool) (crc : Option Byte) :
      (nameText family id hid firstDot secondDot crc).text = bytes2string [family] ++
        (dotText firstDot ++ (bytes2string id ++ (dotText secondDot ++
          (crc.map fun c => bytes2string [c]).getD []))) := rfl
  unfold fsDevicename
  rw [hfamily, hid', hcrc']
  cases format with
  | fdi => simpa [htext, dotText] using hname true false none nofun
  | fi => simpa [htext, dotText] using hname false false none nofun
  | fdidc => simpa [htext, dotText] using hname true true (some _) fun c hc =>
      (Option.some.inj hc).symm
  | fdic => simpa [htext, dotText] using hname true false (some _) fun c hc =>
      (Option.some.inj hc).symm
  | fidc => simpa [htext, dotText] using hname false true (some _) fun c hc =>
      (Option.some.inj hc).symm
  | fic => simpa [htext, dotText] using hname false false (some _) fun c hc =>
      (Option.some.inj hc).symm

/-- A checksum in the text that is the one of the number is the one of its digits. -/
theorem SnText.hexText_crc (x : SnText) {seven c : Bytes} (hc : x.crc = some c)
    (hbytes : x.number.bytes = seven ++ [crc8Compute seven 0])
    (hcrc : string2num c = x.number.bytes.getD 7 0) : HexText c [crc8Compute seven 0] := by
  obtain ⟨hlen, hall⟩ := x.crc_digits c hc
  rw [← getD_seven hbytes, ← hcrc]
  exact hexText_string2num 1 hlen hall

/-- **Names of devices.** In each format the name of a device with a good checksum is read as this
device, and a text is only read as a device if it has the form of a serial number, its digits stand
for the bytes of the device and, where it has a checksum, that is the right one. -/
theorem devicename_spec :
    (∀ (format : Deviceformat) (sn : SerialNumber), sn.CrcValid →
      parseSerialNumber (fsDevicename format sn) = .valid sn) ∧
    ∀ (s : Bytes) (sn : SerialNumber), parseSerialNumber s = .valid sn →
      ∃ family firstDot id secondDot crc seven,
        s = family ++ (dotText firstDot ++ (id ++ (dotText secondDot ++ crc))) ∧
        HexDigits 2 family ∧ HexDigits 12 id ∧ HexText (family ++ id) seven ∧
        sn.bytes = seven ++ [crc8Compute seven 0] ∧
        (crc = [] ∨ HexText crc [crc8Compute seven 0]) := by
  refine ⟨fun format sn hcrc => parseSerialNumber_fsDevicename format hcrc, fun s sn h => ?_⟩
  obtain ⟨x, rfl⟩ := exists_text (s := s) (by rw [h]; nofun)
  rw [parseSerialNumber_text] at h
  split at h
  · rename_i hcrc
    cases h
    obtain ⟨seven, hseven, hbytes⟩ := hexText_snOfText x.family_digits x.id_digits
    refine ⟨x.family, x.firstDot, x.id, x.secondDot, x.crc.getD [], seven, rfl, x.family_digits,
      x.id_digits, hseven, hbytes, ?_⟩
    cases hx : x.crc with
    | none => exact .inl rfl
    | some c => exact .inr (x.hexText_crc hx hbytes (hcrc c hx))
  · cases h

/-- A thermometer, with both dots, and another one without a checksum. -/
theorem devicename_spec_thermometer :
    parseSerialNumber
        (fsDevicename .fdidc ⟨[0x10, 0x5E, 0x2A, 0x37, 0x90, 0x08, 0x00, 0x13], rfl⟩)
        = .valid ⟨[0x10, 0x5E, 0x2A, 0x37, 0x90, 0x08, 0x00, 0x13], rfl⟩ ∧
      ∃ family firstDot id secondDot crc seven, ascii "10.5E2a37900800" =
          family ++ (dotText firstDot ++ (id ++ (dotText secondDot ++ crc))) ∧
        HexDigits 2 family ∧ HexDigits 12 id ∧ HexText (family ++ id) seven ∧
        [0x10, 0x5E, 0x2A, 0x37, 0x90, 0x08, 0x00, 0x13] = seven ++ [crc8Compute seven 0] ∧
        (crc = [] ∨ HexText crc [crc8Compute seven 0]) :=
  ⟨devicename_spec.1 .fdidc ⟨[0x10, 0x5E, 0x2A, 0x37, 0x90, 0x08, 0x00, 0x13], rfl⟩ (by decide),
    devicename_spec.2 (ascii "10.5E2a37900800")
      ⟨[0x10, 0x5E, 0x2A, 0x37, 0x90, 0x08, 0x00, 0x13], rfl⟩ (by decide)⟩

end Owfs.Path
