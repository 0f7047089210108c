-- The command slots of a port: the scan stops one slot short of what the device supports,
-- so the wait for a slot can miss the last one.
import Salsola.Ahci

open salsola.pci

namespace salsola.ahci

variable {cap : u32} {port : HBA_PORT} {device : Device} {i k fuel : Nat}

/-! ## What the device offers -/

/-- The number of command slots less one is in the bits 8 to 12 of the capabilities. -/
def last_slot (cap : u32) : Nat := ((cap >>> 8) &&& 0x1F).toNat

/-- The slots that the device supports. -/
def Supported (cap : u32) (i : Nat) : Prop := i < last_slot cap + 1

/-- No command is outstanding in the slot. -/
def Free (port : HBA_PORT) (i : Nat) : Prop :=
  port.sact.getLsbD i = false ∧ port.ci.getLsbD i = false

/-- The lowest free slot is found, and an error says that there is none. -/
structure FindsSlot (cap : u32) (port : HBA_PORT) : Prop where
  slot : ∀ i, Supported cap i → Free port i → (∀ j, j < i → ¬ Free port j) →
    (get_free_command_slot cap port).2 = 0 ∧ (get_free_command_slot cap port).1.toNat = i
  error : (get_free_command_slot cap port).2 = 1 ↔ ∀ i, Supported cap i → ¬ Free port i

/-- The wait ends at the first look at which the device has a slot free, or before. -/
def WaitEnds (device : Device) (cap : u32) (port : HBA_PORT) : Prop :=
  ∀ k i, Supported cap i → Free (device^[k] port) i →
    ∀ fuel, k < fuel → ∃ r, wait_free_slot device cap fuel port = .ok r

/-! ## The scan -/

theorem last_slot_le (cap : u32) : last_slot cap ≤ 31 := by
  unfold last_slot
  rw [BitVec.toNat_and]
  exact Nat.and_le_right

theorem bit_clear (x : u32) (i : Nat) : (x >>> i) &&& 1 = 0 ↔ x.getLsbD i = false := by
  rw [show (1 : u32) = 1#32 from rfl, BitVec.and_one_eq_setWidth_ofBool_getLsbD,
    BitVec.getLsbD_ushiftRight, Nat.add_zero]
  cases x.getLsbD i <;> decide

theorem free_iff : Free port i ↔ ((port.sact ||| port.ci) >>> i) &&& 1 = 0 := by
  rw [bit_clear, BitVec.getLsbD_or, Bool.or_eq_false_iff]
  rfl

/-- The scan looks at the slots below the last one. -/
theorem get_free_command_slot_some (hi : i < last_slot cap) (hf : Free port i)
    (hlow : ∀ j, j < i → ¬ Free port j) :
    (get_free_command_slot cap port).2 = 0 ∧
      (get_free_command_slot cap port).1.toNat = i := by
  have hfind : (List.range (last_slot cap)).find?
      (fun i => decide (((port.sact ||| port.ci) >>> i) &&& 1 = 0)) = some i := by
    rw [List.find?_range_eq_some]
    refine ⟨decide_eq_true (free_iff.mp hf), List.mem_range.mpr hi, fun j hj => ?_⟩
    simpa using fun hc => hlow j hj (free_iff.mpr hc)
  have hle := last_slot_le cap
  unfold last_slot at hfind
  unfold get_free_command_slot
  dsimp only
  rw [hfind]
  refine ⟨rfl, ?_⟩
  dsimp only
  rw [BitVec.toNat_ofNat]
  exact Nat.mod_eq_of_lt (by omega)

theorem get_free_command_slot_none (hnone : ∀ i, i < last_slot cap → ¬ Free port i) :
    get_free_command_slot cap port = (0, 1) := by
  have hfind : (List.range (last_slot cap)).find?
      (fun i => decide (((port.sact ||| port.ci) >>> i) &&& 1 = 0)) = none := by
    rw [List.find?_range_eq_none]
    intro i hi
    simpa using fun hc => hnone i hi (free_iff.mpr hc)
  unfold last_slot at hfind
  unfold get_free_command_slot
  dsimp only
  rw [hfind]

/-- The lowest of the slots below the last one, when one of them is free. -/
theorem lowest_free (h : ∃ i, i < last_slot cap ∧ Free port i) :
    ∃ i, i < last_slot cap ∧ Free port i ∧ ∀ j, j < i → ¬ Free port j := by
  obtain ⟨i, hi, hf⟩ := h
  induction i using Nat.strong_induction_on with
  | _ i ih =>
    by_cases hlow : ∃ j, j < i ∧ Free port j
    · obtain ⟨j, hj, hfj⟩ := hlow
      exact ih j hj (by omega) hfj
    · exact ⟨i, hi, hf, fun j hj hfj => hlow ⟨j, hj, hfj⟩⟩

/-- One look has no error exactly when a slot below the last one is free. -/
theorem get_free_command_slot_err :
    (get_free_command_slot cap port).2 = 0 ↔ ∃ i, i < last_slot cap ∧ Free port i := by
  constructor
  · intro h0
    by_contra hnone
    rw [get_free_command_slot_none fun i hi hf => hnone ⟨i, hi, hf⟩] at h0
    cases h0
  · intro h
    obtain ⟨i, hi, hf, hlow⟩ := lowest_free h
    exact (get_free_command_slot_some hi hf hlow).1

/-- The last slot is the only one that is free. -/
def OnlyLastFree (cap : u32) (port : HBA_PORT) : Prop :=
  Free port (last_slot cap) ∧ ∀ i, i < last_slot cap → ¬ Free port i

theorem findsSlot_iff : FindsSlot cap port ↔ ¬ OnlyLastFree cap port := by
  constructor
  · rintro hfinds ⟨hlast, hnone⟩
    have herr : (get_free_command_slot cap port).2 = 1 := by
      rw [get_free_command_slot_none hnone]
    exact hfinds.error.mp herr (last_slot cap) (Nat.lt_succ_self _) hlast
  · intro hnot
    by_cases h : ∃ i, i < last_slot cap ∧ Free port i
    · obtain ⟨i, hi, hf, hlow⟩ := lowest_free h
      obtain ⟨herr, hslot⟩ := get_free_command_slot_some hi hf hlow
      refine ⟨fun j hj hfj hlowj => ?_, ?_⟩
      · have hij : i = j := by
          rcases Nat.lt_trichotomy i j with hlt | heq | hgt
          · exact absurd hf (hlowj i hlt)
          · exact heq
          · exact absurd hfj (hlow j hgt)
        exact ⟨herr, hslot.trans hij⟩
      · constructor
        · intro h1
          rw [herr] at h1
          cases h1
        · intro hall
          exact absurd hf (hall i (Nat.lt_succ_of_lt hi))
    · -- no slot is free at all
      have hnone : ∀ i, Supported cap i → ¬ Free port i := by
        intro i hi hf
        rcases Nat.lt_succ_iff_lt_or_eq.mp hi with hlt | rfl
        · exact h ⟨i, hlt, hf⟩
        · exact hnot ⟨hf, fun j hj hfj => h ⟨j, hj, hfj⟩⟩
      refine ⟨fun i hi hf => absurd hf (hnone i hi), fun _ => hnone, fun _ => ?_⟩
      rw [get_free_command_slot_none fun i hi => hnone i (Nat.lt_succ_of_lt hi)]

/-! ## The wait -/

/-- The wait returns exactly when a look that it makes has no error. -/
theorem wait_free_slot_returns :
    (∃ r, wait_free_slot device cap fuel port = .ok r) ↔
      ∃ k, k < fuel ∧ ∃ i, i < last_slot cap ∧ Free (device^[k] port) i := by
  induction fuel generalizing port with
  | zero =>
    unfold wait_free_slot
    simp
  | succ fuel ih =>
    unfold wait_free_slot
    dsimp only
    by_cases h0 : (get_free_command_slot cap port).2 = 0
    · rw [if_pos h0]
      exact ⟨fun _ => ⟨0, Nat.succ_pos fuel, get_free_command_slot_err.mp h0⟩, fun _ => ⟨_, rfl⟩⟩
    · rw [if_neg h0, ih]
      constructor
      · rintro ⟨k, hk, hfree⟩
        exact ⟨k + 1, by omega, hfree⟩
      · rintro ⟨k, hk, hfree⟩
        cases k with
        | zero => exact absurd (get_free_command_slot_err.mpr hfree) h0
        | succ k => exact ⟨k, by omega, hfree⟩

/-- The scan is right unless the last slot is the only one that is free, and the wait ends as
it should exactly when the last slot is never free before some other slot was. -/
theorem command_slots_are_found_iff (cap : u32) :
    (∀ port, FindsSlot cap port ↔ ¬ OnlyLastFree cap port) ∧
    ∀ device port, WaitEnds device cap port ↔
      ∀ k, Free (device^[k] port) (last_slot cap) →
        ∃ j, j ≤ k ∧ ∃ i, i < last_slot cap ∧ Free (device^[j] port) i := by
  refine ⟨fun port => findsSlot_iff, fun device port => ⟨?_, ?_⟩⟩
  · intro hends k hlast
    have hret := hends k (last_slot cap) (Nat.lt_succ_self _) hlast (k + 1) (Nat.lt_succ_self k)
    obtain ⟨j, hj, hfree⟩ := wait_free_slot_returns.mp hret
    exact ⟨j, Nat.le_of_lt_succ hj, hfree⟩
  · intro hcond k i hi hf fuel hk
    apply wait_free_slot_returns.mpr
    rcases Nat.lt_succ_iff_lt_or_eq.mp hi with hlt | rfl
    · exact ⟨k, hk, i, hlt, hf⟩
    · obtain ⟨j, hj, hfree⟩ := hcond k hf
      exact ⟨j, by omega, hfree⟩

/-- A controller with one slot, and a port that is idle. -/
theorem the_only_slot_is_not_found :
    ¬ (∀ cap port, FindsSlot cap port ∧ ∀ device, WaitEnds device cap port) := by
  intro hall
  have hfinds := (hall 0 ⟨0, 0, 0, 0, 0, 0, 0, 0, 0⟩).1
  exact hfinds.error.mp (by decide) 0 (by unfold Supported last_slot; decide) ⟨by decide, by decide⟩

end salsola.ahci
