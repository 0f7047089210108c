-- The scan for a device class: it finds a device exactly when there is one, but
-- its slots run past their field, so that one bus shows the slots of others.
import Salsola.Pci
import Mathlib.Tactic.IntervalCases

open words

namespace salsola.pci

variable {space : Space} {class_id subclass_id : u8} {ports ports' : Ports}
  {device device' : pci_device} {dev : Device} {bus slot offset : u8} {b s n : Nat}

/-! ## The reference -/

def class_of (dev : Device) : u8 := ((dev 2).value >>> 24).setWidth 8

def subclass_of (dev : Device) : u8 := ((dev 2).value >>> 16).setWidth 8

/-- A device with the class and the subclass sits at a bus and a slot. -/
def Sits (space : Space) (class_id subclass_id : u8) (bus slot : Nat) : Prop :=
  ∃ dev, space bus slot 0 = some dev ∧ class_of dev = class_id ∧ subclass_of dev = subclass_id

/-- The names of a device are in the structure. -/
structure Named (found : pci_device) (dev : Device) : Prop where
  vendor : found.vendor = (dev 0).value.setWidth 16
  device : found.device = ((dev 0).value >>> 16).setWidth 16
  header_type : found.header_type = ((dev 3).value >>> 16).setWidth 8

/-! ## The address word -/

/-- The upper bits of a slot run into the bus. -/
theorem config_word_fields :
    (config_word device 0 offset).getLsbD 31 = true ∧
      (config_word device 0 offset >>> 16) &&& (0xFF : u32) =
        (device.bus ||| device.slot >>> 5).setWidth 32 ∧
      (config_word device 0 offset >>> 11) &&& (0x1F : u32) = (device.slot &&& 0x1F).setWidth 32 ∧
      (config_word device 0 offset >>> 8) &&& (0x7 : u32) = 0 ∧
      (config_word device 0 offset >>> 2) &&& (0x3F : u32) = (offset >>> 2).setWidth 32 := by
  unfold config_word
  refine ⟨by simp, ?_, ?_, ?_, ?_⟩
  all_goals
    apply BitVec.eq_of_getLsbD_eq
    intro i hi
    interval_cases i <;> simp

/-- The place that the word of a bus and a slot selects. -/
theorem decode_config_word :
    decode (config_word device 0 offset) = some {
      bus := device.bus.toNat ||| device.slot.toNat / 32
      slot := device.slot.toNat % 32
      func := 0
      register := offset.toNat / 4 } := by
  obtain ⟨henable, hbus, hslot, hfunc, hregister⟩ := @config_word_fields device offset
  unfold decode
  rw [if_pos henable, hbus, hslot, hfunc, hregister]
  have hmask : (device.slot &&& 0x1F).toNat = device.slot.toNat % 32 :=
    Nat.and_two_pow_sub_one_eq_mod device.slot.toNat 5
  have hlt : device.slot.toNat % 32 < 2 ^ 32 := by omega
  have hbuslt : device.bus.toNat ||| device.slot.toNat / 32 < 2 ^ 32 :=
    Nat.or_lt_two_pow (by omega) (by omega)
  have hreglt : offset.toNat / 4 < 2 ^ 32 := by omega
  simp only [BitVec.toNat_setWidth, BitVec.toNat_or, BitVec.toNat_ushiftRight,
    Nat.shiftRight_eq_div_pow, hmask, Nat.mod_eq_of_lt hlt]
  rw [Nat.mod_eq_of_lt hbuslt, Nat.mod_eq_of_lt hreglt]
  rfl

/-- What a read at a bus and a slot gives. -/
theorem read_config_word (hb : device.bus.toNat ||| device.slot.toNat / 32 = b)
    (hs : device.slot.toNat % 32 = s) :
    space.read (config_word device 0 offset) =
      match space b s 0 with
      | some dev => (dev (offset.toNat / 4)).value
      | none => BitVec.allOnes 32 := by
  unfold Space.read Space.register
  rw [decode_config_word, hb, hs]
  cases hdev : space b s 0 <;> simp [hdev]

/-- The two halves of the class word are the class and the subclass. -/
theorem class_halves (info : u32) :
    (((info >>> 16).setWidth 16 &&& 0xFF00) >>> 8 : u16) = ((info >>> 24).setWidth 8).setWidth 16 ∧
      ((info >>> 16).setWidth 16 &&& 0x00FF : u16) = ((info >>> 16).setWidth 8).setWidth 16 := by
  constructor
  all_goals
    apply BitVec.eq_of_getLsbD_eq
    intro i hi
    interval_cases i <;> simp

/-! ## The loops -/

/-- A slot number of the loop reaches a device: its upper bits select a bus. -/
def Answers (space : Space) (class_id subclass_id : u8) (bus slot : u8) : Prop :=
  Sits space class_id subclass_id (bus.toNat ||| slot.toNat / 32) (slot.toNat % 32)

/-- The class word says whether a device with the class answers: an empty place has class
`0xFF`. -/
theorem answers_iff (hclass : class_id ≠ 0xFF) (subclass_id : u8) (info : u32)
    (hinfo : info = space.read (config_word { device with bus, slot } 0 0x8)) :
    (((info >>> 16).setWidth 16 &&& 0xFF00) >>> 8 : u16) = class_id.setWidth 16 ∧
      ((info >>> 16).setWidth 16 &&& 0x00FF : u16) = subclass_id.setWidth 16 ↔
    Answers space class_id subclass_id bus slot := by
  have hinj : ∀ x y : u8, x.setWidth 16 = (y.setWidth 16 : u16) ↔ x = y := by
    intro x y
    constructor
    · intro h
      have h8 := congrArg (BitVec.setWidth 8) h
      simpa using h8
    · exact congrArg _
  rw [(class_halves info).1, (class_halves info).2, hinj, hinj, hinfo, read_config_word rfl rfl]
  unfold Answers Sits
  dsimp only
  cases space (bus.toNat ||| slot.toNat / 32) (slot.toNat % 32) 0 with
  | none =>
    have hones : ((BitVec.allOnes 32 >>> 24).setWidth 8 : u8) = 0xFF := by decide
    dsimp only
    rw [hones]
    constructor
    · rintro ⟨h, -⟩
      exact absurd h.symm hclass
    · rintro ⟨dev, h, -⟩
      cases h
  | some dev =>
    have hregister : (0x8 : u8).toNat / 4 = 2 := by decide
    rw [hregister]
    simp [class_of, subclass_of]

theorem vendor_half (word : u32) : ((word &&& 0xFFFF).setWidth 16 : u16) = word.setWidth 16 := by
  have hmask : (0xFFFF : u32) = low_ones 32 16 := by decide
  apply BitVec.eq_of_getLsbD_eq
  intro i hi
  rw [hmask]
  simp only [BitVec.getLsbD_setWidth, BitVec.getLsbD_and, getLsbD_low_ones, hi, decide_true,
    Bool.true_and, Bool.and_true, show i < 32 by omega]

/-- What the structure holds after a hit. -/
def Hit (space : Space) (class_id subclass_id : u8) (bus slot : u8) (found : pci_device) : Prop :=
  found.bus = bus ∧ found.slot = slot ∧ ∃ dev,
    space (bus.toNat ||| slot.toNat / 32) (slot.toNat % 32) 0 = some dev ∧
      class_of dev = class_id ∧ subclass_of dev = subclass_id ∧ Named found dev

/-- A slot that does not answer is passed. -/
theorem pci_devices_by_id_slots_miss (hclass : class_id ≠ 0xFF) (slots : List u8)
    (hmiss : ¬ Answers ports.space class_id subclass_id bus slot) :
    pci_devices_by_id_slots class_id subclass_id bus (slot :: slots) ports device =
      pci_devices_by_id_slots class_id subclass_id bus slots
        { ports with config_address := config_word { device with bus, slot } 0 0x8 }
        { device with bus, slot } := by
  obtain ⟨info, hinfo⟩ : ∃ info,
      info = ports.space.read (config_word { device with bus, slot } 0 0x8) := ⟨_, rfl⟩
  have hanswers := answers_iff hclass subclass_id info hinfo
  rw [pci_devices_by_id_slots]
  simp only [pci_config_read32_eq, ← hinfo]
  split_ifs with h1 h2
  · rfl
  · rfl
  · exact absurd (hanswers.mp ⟨not_not.mp h1, not_not.mp h2⟩) hmiss

/-- A slot that answers is taken. -/
theorem pci_devices_by_id_slots_hit (hclass : class_id ≠ 0xFF) (slots : List u8)
    (device : pci_device)
    (hhit : Answers ports.space class_id subclass_id bus slot) :
    ∃ device' ports',
      pci_devices_by_id_slots class_id subclass_id bus (slot :: slots) ports device =
        (true, device', ports') ∧ ports'.space = ports.space ∧
      Hit ports.space class_id subclass_id bus slot device' := by
  obtain ⟨info, hinfo⟩ : ∃ info,
      info = ports.space.read (config_word { device with bus, slot } 0 0x8) := ⟨_, rfl⟩
  obtain ⟨h1, h2⟩ := (answers_iff hclass subclass_id info hinfo).mpr hhit
  obtain ⟨dev, hdev, hclassof, hsubclassof⟩ := hhit
  rw [pci_devices_by_id_slots]
  simp only [pci_config_read32_eq, ← hinfo]
  rw [if_neg (not_not.mpr h1), if_neg (not_not.mpr h2)]
  refine ⟨_, _, rfl, rfl, rfl, rfl, dev, hdev, hclassof, hsubclassof, ?_⟩
  have hread : ∀ (d : pci_device) (offset : u8), d.bus = bus → d.slot = slot →
      ports.space.read (config_word d 0 offset) = (dev (offset.toNat / 4)).value := by
    rintro d offset rfl rfl
    rw [read_config_word rfl rfl, hdev]
  have h0 : (0 : u8).toNat / 4 = 0 := by decide
  have h12 : (12 : u8).toNat / 4 = 3 := by decide
  have hread0 : ∀ d : pci_device, d.bus = bus → d.slot = slot →
      ports.space.read (config_word d 0 0) = (dev 0).value := fun d => hread d 0
  have hread12 : ∀ d : pci_device, d.bus = bus → d.slot = slot →
      ports.space.read (config_word d 0 0xC) = (dev 3).value := fun d => hread d 0xC
  refine ⟨?_, ?_, ?_⟩
  · dsimp only
    rw [hread0 _ rfl rfl, vendor_half]
  · dsimp only
    rw [hread0 _ rfl rfl]
  · dsimp only
    rw [hread12 _ rfl rfl]
    exact BitVec.and_allOnes

/-- The numbers of a loop from 0 on. -/
def numbers (n : Nat) : List u8 := (List.range n).map (BitVec.ofNat 8)

/-- The slots of one bus: the first one that answers is taken. -/
theorem pci_devices_by_id_slots.spec (hclass : class_id ≠ 0xFF) (subclass_id bus : u8)
    (slots : List u8) (ports : Ports) (device : pci_device) :
    ∃ found device' ports',
      pci_devices_by_id_slots class_id subclass_id bus slots ports device =
        (found, device', ports') ∧ ports'.space = ports.space ∧
      ((found = false ∧ ∀ slot ∈ slots, ¬ Answers ports.space class_id subclass_id bus slot) ∨
        (found = true ∧ ∃ before slot after, slots = before ++ slot :: after ∧
          (∀ s ∈ before, ¬ Answers ports.space class_id subclass_id bus s) ∧
          Hit ports.space class_id subclass_id bus slot device')) := by
  induction slots generalizing ports device with
  | nil => exact ⟨false, device, ports, rfl, rfl, .inl ⟨rfl, by simp⟩⟩
  | cons slot slots ih =>
    by_cases hhit : Answers ports.space class_id subclass_id bus slot
    · obtain ⟨device', ports', heq, hspace, hfound⟩ :=
        pci_devices_by_id_slots_hit hclass slots device hhit
      exact ⟨true, device', ports', heq, hspace,
        .inr ⟨rfl, [], slot, slots, rfl, by simp, hfound⟩⟩
    · rw [pci_devices_by_id_slots_miss hclass slots hhit]
      obtain ⟨found, device', ports', heq, hspace, hcases⟩ :=
        ih { ports with config_address := config_word { device with bus, slot } 0 0x8 }
          { device with bus, slot }
      refine ⟨found, device', ports', heq, hspace, ?_⟩
      obtain ⟨hfound, hnone⟩ | ⟨hfound, before, s, after, hsplit, hbefore, hs⟩ := hcases
      · exact .inl ⟨hfound, List.forall_mem_cons.mpr ⟨hhit, hnone⟩⟩
      · refine .inr ⟨hfound, slot :: before, s, after, by rw [hsplit]; rfl, ?_, hs⟩
        exact List.forall_mem_cons.mpr ⟨hhit, hbefore⟩

/-- A bus with a slot that answers. -/
def BusAnswers (space : Space) (class_id subclass_id bus : u8) : Prop :=
  ∃ slot ∈ numbers 255, Answers space class_id subclass_id bus slot

/-- The buses: the first one with a slot that answers is taken. -/
theorem pci_devices_by_id_buses.spec (hclass : class_id ≠ 0xFF) (subclass_id : u8)
    (buses : List u8) (ports : Ports) (device : pci_device) :
    ∃ found device' ports',
      pci_devices_by_id_buses class_id subclass_id buses ports device =
        (found, device', ports') ∧
      ((found = false ∧ ∀ bus ∈ buses, ¬ BusAnswers ports.space class_id subclass_id bus) ∨
        (found = true ∧ ∃ before bus after, buses = before ++ bus :: after ∧
          (∀ b ∈ before, ¬ BusAnswers ports.space class_id subclass_id b) ∧
          ∃ first slot last, numbers 255 = first ++ slot :: last ∧
            (∀ s ∈ first, ¬ Answers ports.space class_id subclass_id bus s) ∧
            Hit ports.space class_id subclass_id bus slot device')) := by
  induction buses generalizing ports device with
  | nil => exact ⟨false, device, ports, rfl, .inl ⟨rfl, by simp⟩⟩
  | cons bus buses ih =>
    obtain ⟨found, device', ports', heq, hspace, hcases⟩ :=
      pci_devices_by_id_slots.spec hclass subclass_id bus (numbers 255) ports device
    rw [pci_devices_by_id_buses, show (List.range 255).map (BitVec.ofNat 8) = numbers 255 from rfl,
      heq]
    obtain ⟨rfl, hnone⟩ | ⟨rfl, hfirst⟩ := hcases
    · have hbus : ¬ BusAnswers ports.space class_id subclass_id bus := by
        rintro ⟨slot, hslot, hanswers⟩
        exact hnone slot hslot hanswers
      obtain ⟨found, device2, ports2, heq2, hcases2⟩ := ih ports' device'
      rw [hspace] at hcases2
      refine ⟨found, device2, ports2, heq2, ?_⟩
      obtain ⟨hfound, hrest⟩ | ⟨hfound, before, b, after, hsplit, hbefore, hb⟩ := hcases2
      · exact .inl ⟨hfound, List.forall_mem_cons.mpr ⟨hbus, hrest⟩⟩
      · refine .inr ⟨hfound, bus :: before, b, after, by rw [hsplit]; rfl, ?_, hb⟩
        exact List.forall_mem_cons.mpr ⟨hbus, hbefore⟩
    · exact ⟨true, device', ports', rfl, .inr ⟨rfl, [], bus, buses, rfl, by simp, hfirst⟩⟩

/-! ## The order of the scan -/

theorem mem_numbers (hs : s < n) : BitVec.ofNat 8 s ∈ numbers n :=
  List.mem_map.mpr ⟨s, List.mem_range.mpr hs, rfl⟩

/-- Before a number of the loop come the smaller ones. -/
theorem numbers_split {before after : List u8} {x : u8} (hn : n ≤ 256)
    (h : numbers n = before ++ x :: after) : ∀ y : u8, y.toNat < x.toNat → y ∈ before := by
  have hlen : before.length < n := by
    have hlength := congrArg List.length h
    simp only [numbers, List.length_map, List.length_range, List.length_append,
      List.length_cons] at hlength
    omega
  have hget : ∀ i < n, (before ++ x :: after)[i]? = some (BitVec.ofNat 8 i) := by
    intro i hi
    rw [← h]
    simp [numbers, hi]
  have hx : x.toNat = before.length := by
    have hmiddle := hget before.length hlen
    rw [List.getElem?_append_right (Nat.le_refl _), Nat.sub_self] at hmiddle
    rw [Option.some.inj hmiddle, BitVec.toNat_ofNat]
    omega
  intro y hy
  have hplace := hget y.toNat (by omega)
  rw [List.getElem?_append_left (by omega), BitVec.ofNat_toNat, BitVec.setWidth_eq] at hplace
  exact List.mem_of_getElem? hplace

/-- Below a multiple of 8 the slots reach only buses below it. -/
theorem alias_lt {bus0 : Nat} (h8 : bus0 % 8 = 0) (hb : b < bus0) (hs : s < 256) :
    b ||| s / 32 < bus0 := by
  have hdiv := Nat.or_div_two_pow (a := b) (b := s / 32) (n := 3)
  have hzero : s / 32 / 2 ^ 3 = 0 := by omega
  rw [hzero, Nat.or_zero] at hdiv
  omega

/-- A bus that is no multiple of 8 can be reached from a lower one, with a slot below 255. -/
theorem alias_of_odd {bus0 slot0 : Nat} (hbus : bus0 < 256) (h8 : bus0 % 8 ≠ 0)
    (hslot : slot0 < 32) :
    ∃ b s, b < bus0 ∧ b < 255 ∧ s < 255 ∧ b ||| s / 32 = bus0 ∧ s % 32 = slot0 := by
  have hor : ∀ i a, bus0 = 2 ^ (i + 1) * a + 2 ^ i → i ≤ 2 →
      ∃ b s, b < bus0 ∧ b < 255 ∧ s < 255 ∧ b ||| s / 32 = bus0 ∧ s % 32 = slot0 := by
    intro i a ha hi
    have hpos : 0 < 2 ^ i := Nat.two_pow_pos i
    have hle : 2 ^ i ≤ 4 := Nat.pow_le_pow_right (n := 2) (by decide) hi
    refine ⟨2 ^ (i + 1) * a, 2 ^ i * 32 + slot0, by omega, by omega, by omega, ?_, by omega⟩
    rw [show (2 ^ i * 32 + slot0) / 32 = 2 ^ i by omega, ha]
    exact (Nat.two_pow_add_eq_or_of_lt (Nat.pow_lt_pow_right (by decide) (by omega)) a).symm
  have hcases : bus0 % 2 = 1 ∨ bus0 % 4 = 2 ∨ bus0 % 8 = 4 := by omega
  obtain h | h | h := hcases
  · exact hor 0 (bus0 / 2) (by omega) (by omega)
  · exact hor 1 (bus0 / 4) (by omega) (by omega)
  · exact hor 2 (bus0 / 8) (by omega) (by omega)

/-- A device is reached by every bus and slot of the loop whose word selects it. -/
theorem busAnswers_of_sits {bus0 slot0 : Nat} (hb : b < 255) (hs : s < 255)
    (hbus : b ||| s / 32 = bus0) (hslot : s % 32 = slot0)
    (hsits : Sits space class_id subclass_id bus0 slot0) :
    BusAnswers space class_id subclass_id (BitVec.ofNat 8 b) := by
  refine ⟨BitVec.ofNat 8 s, mem_numbers hs, ?_⟩
  unfold Answers
  rw [BitVec.toNat_ofNat, BitVec.toNat_ofNat, Nat.mod_eq_of_lt (by omega),
    Nat.mod_eq_of_lt (by omega), hbus, hslot]
  exact hsits

/-- Each device is reached. -/
theorem exists_busAnswers {bus0 slot0 : Nat} (hbus : bus0 < 256) (hslot : slot0 < 32)
    (hsits : Sits space class_id subclass_id bus0 slot0) :
    ∃ bus ∈ numbers 255, BusAnswers space class_id subclass_id bus := by
  by_cases h8 : bus0 % 8 = 0
  · have hzero : slot0 / 32 = 0 := by omega
    exact ⟨BitVec.ofNat 8 bus0, mem_numbers (by omega), busAnswers_of_sits (by omega)
      (show slot0 < 255 by omega) (by rw [hzero, Nat.or_zero]) (Nat.mod_eq_of_lt hslot) hsits⟩
  · obtain ⟨b, s, -, hb, hs, hreach, hmod⟩ := alias_of_odd hbus h8 hslot
    exact ⟨BitVec.ofNat 8 b, mem_numbers hb, busAnswers_of_sits hb hs hreach hmod hsits⟩

/-- The lowest bus with such a device is a multiple of 8. -/
def LowestIsOctal (space : Space) (class_id subclass_id : u8) : Prop :=
  ∀ bus < 256, (∃ slot < 32, Sits space class_id subclass_id bus slot) →
    (∀ bus' < bus, ∀ slot < 32, ¬ Sits space class_id subclass_id bus' slot) → bus % 8 = 0

/-- A bus and a slot that answer, after buses and slots that do not. -/
structure First (space : Space) (class_id subclass_id bus slot : u8) : Prop where
  sits : Sits space class_id subclass_id (bus.toNat ||| slot.toNat / 32) (slot.toNat % 32)
  buses : ∀ b < bus.toNat, ¬ BusAnswers space class_id subclass_id (BitVec.ofNat 8 b)
  slots : ∀ s < slot.toNat, ¬ Answers space class_id subclass_id bus (BitVec.ofNat 8 s)

theorem First.reaches (h : First space class_id subclass_id bus slot) :
    ∃ bus < 256, ∃ slot < 32, Sits space class_id subclass_id bus slot := by
  have hlt : bus.toNat ||| slot.toNat / 32 < 256 :=
    Nat.or_lt_two_pow (n := 8) (by omega) (by omega)
  exact ⟨_, hlt, slot.toNat % 32, by omega, h.sits⟩

/-- Where the first hit is in the slot field, no lower bus shows the device. -/
theorem First.octal (h : First space class_id subclass_id bus slot) (hslot : slot.toNat < 32) :
    LowestIsOctal space class_id subclass_id := by
  rintro bus0 hbus0 ⟨slot0, hslot0, hsits0⟩ hlowest
  by_contra h8
  obtain ⟨b, s, hb, hb255, hs, hreach, hmod⟩ := alias_of_odd hbus0 h8 hslot0
  have hhere : Sits space class_id subclass_id bus.toNat slot.toNat := by
    have hsits := h.sits
    rw [Nat.div_eq_of_lt hslot, Nat.or_zero, Nat.mod_eq_of_lt hslot] at hsits
    exact hsits
  have hle : bus0 ≤ bus.toNat := by
    by_contra hlow
    exact hlowest bus.toNat (by omega) slot.toNat hslot hhere
  exact h.buses b (by omega) (busAnswers_of_sits hb255 hs hreach hmod hsits0)

theorem First.small (h : First space class_id subclass_id bus slot)
    (hoctal : LowestIsOctal space class_id subclass_id) : slot.toNat < 32 := by
  classical
  have hsome := h.reaches
  obtain ⟨bus0, ⟨hbus0, slot0, hslot0, hsits0⟩, hmin⟩ :
      ∃ bus0, (bus0 < 256 ∧ ∃ slot < 32, Sits space class_id subclass_id bus0 slot) ∧
        ∀ b < bus0, ¬ (b < 256 ∧ ∃ slot < 32, Sits space class_id subclass_id b slot) :=
    ⟨Nat.find hsome, Nat.find_spec hsome, fun b hb => Nat.find_min hsome hb⟩
  have hlowest : ∀ b < bus0, ∀ slot < 32, ¬ Sits space class_id subclass_id b slot := by
    intro b hb slot hslot hsits
    exact hmin b hb ⟨by omega, slot, hslot, hsits⟩
  have h8 := hoctal bus0 hbus0 ⟨slot0, hslot0, hsits0⟩ hlowest
  have hzero : slot0 / 32 = 0 := by omega
  have hslot0mod : slot0 % 32 = slot0 := Nat.mod_eq_of_lt hslot0
  -- The first bus that answers is the lowest one with a device.
  have hle : bus.toNat ≤ bus0 := by
    by_contra hlow
    exact h.buses bus0 (by omega) (busAnswers_of_sits (s := slot0) (by omega) (by omega)
      (by rw [hzero, Nat.or_zero]) hslot0mod hsits0)
  have hge : bus0 ≤ bus.toNat := by
    by_contra hlow
    exact hlowest _ (alias_lt h8 (by omega) (by omega)) _ (by omega) h.sits
  have hbus : bus.toNat = bus0 := by omega
  -- There its own slots come before those of other buses.
  by_contra hbig
  apply h.slots slot0 (by omega)
  unfold Answers
  rw [BitVec.toNat_ofNat, Nat.mod_eq_of_lt (by omega), hzero, Nat.or_zero, hslot0mod, hbus]
  exact hsits0

/-- The scan takes the first hit, or there is no device. -/
theorem pci_devices_by_id.spec (hclass : class_id ≠ 0xFF) (subclass_id : u8) (ports : Ports)
    (device : pci_device) :
    ∃ found device' ports',
      pci_devices_by_id ports class_id subclass_id device = (found, device', ports') ∧
      ((found = false ∧ ∀ bus < 256, ∀ slot < 32,
          ¬ Sits ports.space class_id subclass_id bus slot) ∨
        (found = true ∧ ∃ bus slot, First ports.space class_id subclass_id bus slot ∧
          Hit ports.space class_id subclass_id bus slot device')) := by
  obtain ⟨found, device', ports', heq, hcases⟩ :=
    pci_devices_by_id_buses.spec hclass subclass_id (numbers 255) ports device
  refine ⟨found, device', ports', heq, ?_⟩
  obtain ⟨hfound, hnone⟩ | ⟨hfound, before, bus, after, hsplit, hbefore, first, slot, last, hslots,
    hfirst, hhit⟩ := hcases
  · refine .inl ⟨hfound, ?_⟩
    intro bus0 hbus0 slot0 hslot0 hsits
    obtain ⟨b, hb, hanswers⟩ := exists_busAnswers hbus0 hslot0 hsits
    exact hnone b hb hanswers
  · refine .inr ⟨hfound, bus, slot, ⟨?_, ?_, ?_⟩, hhit⟩
    · obtain ⟨-, -, dev, hdev, hclassof, hsubclassof, -⟩ := hhit
      exact ⟨dev, hdev, hclassof, hsubclassof⟩
    · intro b hb
      have hbus := bus.isLt
      apply hbefore
      apply numbers_split (by decide) hsplit
      rw [BitVec.toNat_ofNat]
      omega
    · intro s hs
      have hslot := slot.isLt
      apply hfirst
      apply numbers_split (by decide) hslots
      rw [BitVec.toNat_ofNat]
      omega

/-! ## The result -/

/-- The scan says whether there is a device with the class, and names the device that it found,
exactly when there is none or the lowest bus with one is a multiple of 8. -/
theorem the_scan_names_the_device_iff (hclass : class_id ≠ 0xFF) :
    (∃ found device' ports',
      pci_devices_by_id ports class_id subclass_id device = (found, device', ports') ∧
      (found = true ↔ ∃ bus < 256, ∃ slot < 32, Sits ports.space class_id subclass_id bus slot) ∧
      (found = true → device'.slot.toNat < 32 ∧ ∃ dev,
        ports.space device'.bus.toNat device'.slot.toNat 0 = some dev ∧
          class_of dev = class_id ∧ subclass_of dev = subclass_id ∧ Named device' dev)) ↔
    LowestIsOctal ports.space class_id subclass_id := by
  obtain ⟨found, device', ports', heq, hcases⟩ :=
    pci_devices_by_id.spec hclass subclass_id ports device
  rw [heq]
  obtain ⟨rfl, hempty⟩ | ⟨rfl, bus, slot, hfirst, hbus, hslot, dev, hdev, hclassof, hsubclassof,
    hnamed⟩ := hcases
  · constructor
    · rintro - bus0 hbus0 ⟨slot0, hslot0, hsits⟩
      exact absurd hsits (hempty bus0 hbus0 slot0 hslot0)
    · intro _
      refine ⟨false, device', ports', rfl, ?_, fun h => by cases h⟩
      simp only [Bool.false_eq_true, false_iff]
      rintro ⟨bus0, hbus0, slot0, hslot0, hsits⟩
      exact hempty bus0 hbus0 slot0 hslot0 hsits
  · constructor
    · rintro ⟨found', device2, ports2, hresult, -, hplace⟩
      obtain ⟨hfound', hresult⟩ := Prod.mk.inj hresult
      obtain ⟨hdevice, -⟩ := Prod.mk.inj hresult
      have hsmall := (hplace hfound'.symm).1
      rw [← hdevice, hslot] at hsmall
      exact hfirst.octal hsmall
    · intro hoctal
      have hsmall := hfirst.small hoctal
      refine ⟨true, device', ports', rfl, ⟨fun _ => hfirst.reaches, fun _ => rfl⟩, fun _ => ?_⟩
      rw [Nat.div_eq_of_lt hsmall, Nat.or_zero, Nat.mod_eq_of_lt hsmall] at hdev
      rw [hslot, hbus]
      exact ⟨hsmall, dev, hdev, hclassof, hsubclassof, hnamed⟩

/-- One device: an AHCI controller at a bus and a slot. -/
def controller (bus0 slot0 : Nat) : Ports where
  config_address := 0
  space := fun bus slot func =>
    if bus = bus0 ∧ slot = slot0 ∧ func = 0 then
      some fun n => { value := if n = 2 then 0x01060100 else 0x29228086, writable := 0 }
    else none

theorem the_scan_names_the_controller :
    (∃ found device' ports',
      pci_devices_by_id (controller 0 31) 0x01 0x06 ⟨0, 0, 0, 0, 0⟩ = (found, device', ports') ∧
      (found = true ↔
        ∃ bus < 256, ∃ slot < 32, Sits (controller 0 31).space 0x01 0x06 bus slot) ∧
      (found = true → device'.slot.toNat < 32 ∧ ∃ dev,
        (controller 0 31).space device'.bus.toNat device'.slot.toNat 0 = some dev ∧
          class_of dev = 0x01 ∧ subclass_of dev = 0x06 ∧ Named device' dev)) ↔
    LowestIsOctal (controller 0 31).space 0x01 0x06 :=
  the_scan_names_the_device_iff (by decide)

/-- A controller at bus 1 is found at bus 0, at a slot that is none. -/
theorem a_controller_behind_a_bridge_is_misnamed :
    ¬ ∀ (ports : Ports) (class_id subclass_id : u8) (device : pci_device), class_id ≠ 0xFF →
      ∃ found device' ports',
        pci_devices_by_id ports class_id subclass_id device = (found, device', ports') ∧
        (found = true ↔ ∃ bus < 256, ∃ slot < 32, Sits ports.space class_id subclass_id bus slot) ∧
        (found = true → device'.slot.toNat < 32 ∧ ∃ dev,
          ports.space device'.bus.toNat device'.slot.toNat 0 = some dev ∧
            class_of dev = class_id ∧ subclass_of dev = subclass_id ∧ Named device' dev) := by
  intro h
  have hclass : (0x01 : u8) ≠ 0xFF := by decide
  have hsits : Sits (controller 1 5).space 0x01 0x06 1 5 := ⟨_, rfl, by decide, by decide⟩
  obtain ⟨found, device', ports', heq, hfound, hplace⟩ :=
    h (controller 1 5) 0x01 0x06 ⟨0, 0, 0, 0, 0⟩ hclass
  obtain ⟨found2, device2, ports2, heq2, hcases⟩ :=
    pci_devices_by_id.spec hclass 0x06 (controller 1 5) ⟨0, 0, 0, 0, 0⟩
  obtain ⟨-, hnone⟩ | ⟨-, bus, slot, hfirst, -, hslot, -⟩ := hcases
  · exact hnone 1 (by decide) 5 (by decide) hsits
  · have hsmall := (hplace (hfound.mpr ⟨1, by decide, 5, by decide, hsits⟩)).1
    obtain ⟨-, hrest⟩ := Prod.mk.inj (heq.symm.trans heq2)
    rw [(Prod.mk.inj hrest).1, hslot] at hsmall
    have hmod : 1 % 8 = 0 := by
      apply hfirst.octal hsmall 1 (by decide) ⟨5, by decide, hsits⟩
      rintro bus' hbus' slot' - ⟨dev, hdev, -⟩
      have hnone : (controller 1 5).space bus' slot' 0 = none :=
        if_neg fun hplace => absurd hplace.1 (by omega)
      rw [hnone] at hdev
      cases hdev
    cases hmod

end salsola.pci
